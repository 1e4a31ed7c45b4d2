import AflLive.Library.Control
import AflLive.Library.Text
import Mathlib

/-! The parser of `derive_constraints.py` for lists of constraints, against the grammar in its
comments. The parser has no tokens: each rule eats characters from the front of the buffer. -/
namespace AflLive.ConfigGenerator
open Control Text

/-- What the parser raises. `endless` is no exception: the loop has not come to an end. -/
inductive PyError where
  | indexError
  | valueError
  | syntaxError (message : String)
  | endless
deriving DecidableEq, Repr

inductive Rel where
  | le
  | ge
  | eq
deriving DecidableEq, Repr

/-- A right-hand side: the index of a parameter, a dictionary with a constant, or `rec`. -/
inductive Rhs where
  | param (index : Nat)
  | constant (value : Nat)
  | recorded
deriving DecidableEq, Repr

/-- The dictionary of a constraint. `deref` and `isFile` say whether the key is there. -/
structure Constraint where
  lhs : Nat
  rel : Rel
  deref : Bool := false
  isFile : Bool := false
  rhs : Option Rhs := none
deriving DecidableEq, Repr

/-! ### The parser -/

def consumeChar : List Char → Except PyError (Char × List Char)
  | [] => .error .indexError
  | c :: buf => .ok (c, buf)

def isWhitespace (char : Char) : Bool := char = ' ' || char = '\t' || char = '\n'

def skipWhitespace (buf : List Char) : List Char := buf.dropWhile isWhitespace

/-- The interpreter refuses more than `limit` digits; without a limit, which is 0, it takes any. -/
def int (limit : Nat) (digits : List Char) : Except PyError Nat :=
  if digits = [] ∨ (limit ≠ 0 ∧ limit < digits.length) then .error .valueError
  else .ok (Nat.ofDigitChars 10 digits 0)

def num (limit : Nat) (buf : List Char) : Except PyError (Nat × List Char) := do
  let buf := skipWhitespace buf
  let n ← int limit (buf.takeWhile Char.isDigit)
  return (n, buf.dropWhile Char.isDigit)

/-- The end of `Relation`, once the comparison is read. -/
def comparison (deref : Bool) (rel : Char) (buf : List Char) : Except PyError ((Bool × Rel) × List Char) :=
  if rel = '<' then .ok ((deref, .le), buf)
  else if rel = '>' then .ok ((deref, .ge), buf)
  else if rel = '=' then .ok ((deref, .eq), buf)
  else .error (.syntaxError ("Unexpected character " ++ rel.toString ++ " while parsing relation"))

def relation (buf : List Char) : Except PyError ((Bool × Rel) × List Char) := do
  let (rel, buf) ← consumeChar (skipWhitespace buf)
  if rel = 'd' then
    let (rel, buf) ← consumeChar buf
    comparison true rel buf
  else
    comparison false rel buf

def lefthandside (limit : Nat) (buf : List Char) : Except PyError (Nat × List Char) := num limit (skipWhitespace buf)

/-- The table `constants`, where `none` is the string `file`. -/
def constants : List (Char × Option Rhs) :=
  [('z', some (.constant 0)), ('c', some (.constant 4096)), ('p', some (.constant 1)), ('r', some .recorded),
    ('f', none), ('u', some (.constant 18446744073709551615))]

def righthandside (limit : Nat) (buf : List Char) : Except PyError (Option Rhs × List Char) := do
  let buf := skipWhitespace buf
  let (firstChar, rest) ← consumeChar buf
  if firstChar.isDigit then
    let (index, rest) ← num limit buf
    return (some (.param index), rest)
  else
    match constants.lookup firstChar with
    | some rhs => return (rhs, rest)
    | none => throw (.syntaxError ("Unexpected right hand side " ++ firstChar.toString))

def constraint (limit : Nat) (buf : List Char) : Except PyError (Constraint × List Char) := do
  let (lhs, buf) ← lefthandside limit (skipWhitespace buf)
  let ((deref, rel), buf) ← relation buf
  let (rhs, buf) ← righthandside limit buf
  return ({ lhs, rel, deref, isFile := rhs.isNone, rhs }, buf)

/-- The loop of `ConstraintList`, for at most `fuel` turns. -/
def separated (limit : Nat) : Nat → List Char → List Constraint → Except PyError (List Constraint)
  | _, [], res => .ok res
  | 0, _, _ => .error .endless
  | fuel + 1, buf, res => do
    let (separator, buf) ← consumeChar (skipWhitespace buf)
    if separator ≠ ',' then throw (.syntaxError "Expected separator after constraint")
    let (c, buf) ← constraint limit (skipWhitespace buf)
    separated limit fuel (skipWhitespace buf) (res ++ [c])

def constraintList (limit fuel : Nat) (buf : List Char) : Except PyError (List Constraint) := do
  let (c, buf) ← constraint limit (skipWhitespace buf)
  separated limit fuel (skipWhitespace buf) [c]

def getConstraintList (limit : Nat) (buf : List Char) : Except PyError (List Constraint) :=
  constraintList limit buf.length buf

/-! ### The grammar -/

/-- `num | z | c | p | r | f | u` -/
inductive Word where
  | num (n : Nat)
  | z
  | c
  | p
  | r
  | f
  | u
deriving DecidableEq, Repr

structure Entry where
  lhs : Nat
  deref : Bool
  rel : Rel
  rhs : Word
deriving DecidableEq, Repr

def Blank (text : List Char) : Prop := ∀ c ∈ text, isWhitespace c

structure NumText (limit : Nat) (text : List Char) (n : Nat) : Prop where
  nonempty : text ≠ []
  digits : ∀ c ∈ text, c.isDigit
  within : limit = 0 ∨ text.length ≤ limit
  value : n = Nat.ofDigitChars 10 text 0

def relChar : Rel → Char
  | .le => '<'
  | .ge => '>'
  | .eq => '='

def relText (deref : Bool) (rel : Rel) : List Char := if deref then ['d', relChar rel] else [relChar rel]

inductive WordText (limit : Nat) : List Char → Word → Prop where
  | num (number : NumText limit text n) : WordText limit text (.num n)
  | z : WordText limit ['z'] .z
  | c : WordText limit ['c'] .c
  | p : WordText limit ['p'] .p
  | r : WordText limit ['r'] .r
  | f : WordText limit ['f'] .f
  | u : WordText limit ['u'] .u

inductive ConstraintText (limit : Nat) : List Char → Entry → Prop where
  | mk (first : Blank before) (left : NumText limit lhsText lhs) (second : Blank beforeRel)
      (third : Blank beforeRhs) (right : WordText limit rhsText rhs) :
    ConstraintText limit (before ++ lhsText ++ beforeRel ++ relText deref rel ++ beforeRhs ++ rhsText)
      ⟨lhs, deref, rel, rhs⟩

inductive ListText (limit : Nat) : List Char → List Entry → Prop where
  | one (only : ConstraintText limit text entry) (last : Blank after) : ListText limit (text ++ after) [entry]
  | cons (first : ConstraintText limit text entry) (last : Blank after) (others : ListText limit rest entries) :
    ListText limit (text ++ after ++ ',' :: rest) (entry :: entries)

def Word.rhs : Word → Option Rhs
  | .num n => some (.param n)
  | .z => some (.constant 0)
  | .c => some (.constant 4096)
  | .p => some (.constant 1)
  | .r => some .recorded
  | .f => none
  | .u => some (.constant 18446744073709551615)

/-- The fields of an entry, as the configuration has them. -/
def Entry.fields (entry : Entry) : Constraint where
  lhs := entry.lhs
  rel := entry.rel
  deref := entry.deref
  isFile := entry.rhs = .f
  rhs := entry.rhs.rhs

def Word.print : Word → List Char
  | .num n => Nat.toDigits 10 n
  | .z => ['z']
  | .c => ['c']
  | .p => ['p']
  | .r => ['r']
  | .f => ['f']
  | .u => ['u']

def Entry.print (entry : Entry) : List Char :=
  Nat.toDigits 10 entry.lhs ++ [' '] ++ relText entry.deref entry.rel ++ [' '] ++ entry.rhs.print

/-- The entries as the script writes them, with a comma between two. -/
def printList (entries : List Entry) : List Char := [','].intercalate (entries.map Entry.print)

/-- The numbers of the entry are ones the interpreter reads. -/
def Entry.Readable (limit : Nat) (entry : Entry) : Prop :=
  ∀ n, n = entry.lhs ∨ .num n = entry.rhs → limit = 0 ∨ (Nat.toDigits 10 n).length ≤ limit

/-! ### Each rule -/

theorem consumeChar_iff : consumeChar buf = .ok (c, rest) ↔ buf = c :: rest := by
  cases buf with
  | nil => simp [consumeChar]
  | cons d buf => simp [consumeChar]

theorem Blank.append (first : Blank text) (second : Blank text') : Blank (text ++ text') := by
  intro c inside
  rcases List.mem_append.mp inside with inside | inside
  · exact first c inside
  · exact second c inside

theorem skip_iff : skipWhitespace buf = rest ↔
    ∃ blank, buf = blank ++ rest ∧ Blank blank ∧ ¬Starts isWhitespace rest := by
  constructor
  · intro skipped
    exact ⟨_, span_iff.mp ⟨rfl, skipped⟩⟩
  · rintro ⟨blank, parts⟩
    exact (span_iff.mpr parts).2

theorem skip_blank (blank : Blank text) (other : isWhitespace c = false) :
    skipWhitespace (text ++ c :: rest) = c :: rest := by
  refine skip_iff.mpr ⟨text, rfl, blank, ?_⟩
  rintro ⟨d, tail, is, white⟩
  obtain ⟨rfl, -⟩ := List.cons.inj is
  simp [other] at white

theorem isWhitespace_of_isDigit (digit : c.isDigit = true) : isWhitespace c = false := by
  by_contra white
  simp only [isWhitespace, Bool.not_eq_false, Bool.or_eq_true, decide_eq_true_eq] at white
  obtain (rfl | rfl) | rfl := white <;> exact absurd digit (by decide)

@[simp] theorem skip_skip (buf : List Char) : skipWhitespace (skipWhitespace buf) = skipWhitespace buf :=
  skip_iff.mpr ⟨[], rfl, by simp [Blank], not_starts_dropWhile _ _⟩

theorem int_iff : int limit digits = .ok n ↔
    digits ≠ [] ∧ (limit = 0 ∨ digits.length ≤ limit) ∧ n = Nat.ofDigitChars 10 digits 0 := by
  unfold int
  split
  · next refused =>
    simp only [reduceCtorEq, false_iff]
    rintro ⟨nonempty, within, -⟩
    rcases refused with empty | ⟨limited, long⟩
    · exact nonempty empty
    · omega
  · next taken =>
    push Not at taken
    simp only [Except.ok.injEq, ne_eq, taken.1, not_false_eq_true, true_and, eq_comm]
    have within : limit = 0 ∨ digits.length ≤ limit := by
      by_cases limited : limit = 0
      · exact .inl limited
      · exact .inr (taken.2 limited)
    simp [within]

theorem num_iff : num limit buf = .ok (n, rest) ↔ ∃ blank digits, buf = blank ++ digits ++ rest ∧
    Blank blank ∧ NumText limit digits n ∧ ¬Starts Char.isDigit rest := by
  simp only [num, bind_eq_ok, int_iff, pure, Except.pure, Except.ok.injEq, Prod.mk.injEq]
  constructor
  · rintro ⟨m, ⟨nonempty, within, value⟩, rfl, rest⟩
    obtain ⟨blank, parts, isBlank, -⟩ := skip_iff.mp (rfl : skipWhitespace buf = _)
    obtain ⟨whole, digits, stops⟩ := span_iff.mp ⟨rfl, rest⟩
    refine ⟨blank, _, ?_, isBlank, ⟨nonempty, digits, within, value⟩, stops⟩
    rw [List.append_assoc, ← whole, ← parts]
  · rintro ⟨blank, digits, rfl, isBlank, number, stops⟩
    have skipped : skipWhitespace (blank ++ digits ++ rest) = digits ++ rest := by
      obtain ⟨c, tail, rfl⟩ := List.exists_cons_of_ne_nil number.nonempty
      rw [List.append_assoc]
      exact skip_blank isBlank (isWhitespace_of_isDigit (number.digits c (by simp)))
    obtain ⟨taken, dropped⟩ := span_iff.mpr ⟨rfl, number.digits, stops⟩
    rw [skipped, taken, dropped]
    exact ⟨n, ⟨number.nonempty, number.within, number.value⟩, rfl, rfl⟩

theorem comparison_iff : comparison mark c buf = .ok ((deref, rel), rest) ↔
    deref = mark ∧ c = relChar rel ∧ rest = buf := by
  unfold comparison
  split_ifs with less greater equal
  · cases rel <;> simp [less, relChar, eq_comm]
  · cases rel <;> simp [greater, relChar, eq_comm]
  · cases rel <;> simp [equal, relChar, eq_comm]
  · cases rel <;> simp [less, greater, equal, relChar]

theorem relation_iff : relation buf = .ok ((deref, rel), rest) ↔
    ∃ blank, buf = blank ++ relText deref rel ++ rest ∧ Blank blank := by
  constructor
  · intro parsed
    simp only [relation, bind_eq_ok, Prod.exists, consumeChar_iff] at parsed
    obtain ⟨first, tail, start, read⟩ := parsed
    obtain ⟨blank, rfl, isBlank, -⟩ := skip_iff.mp start
    refine ⟨blank, ?_, isBlank⟩
    rw [List.append_assoc, List.append_cancel_left_eq]
    split at read
    · next mark =>
      simp only [bind_eq_ok, Prod.exists, consumeChar_iff] at read
      obtain ⟨op, behind, rfl, read⟩ := read
      obtain ⟨rfl, rfl, rfl⟩ := comparison_iff.mp read
      rw [mark]
      rfl
    · obtain ⟨rfl, rfl, rfl⟩ := comparison_iff.mp read
      rfl
  · rintro ⟨blank, rfl, isBlank⟩
    rw [List.append_assoc]
    cases deref <;> cases rel <;>
      · rw [relation]
        exact congrArg (· >>= _) (congrArg consumeChar (skip_blank isBlank (by decide)))

theorem lookup_constants (limit : Nat) : constants.lookup c = some rhs ↔
    ∃ word, WordText limit [c] word ∧ rhs = word.rhs ∧ ∀ n, word ≠ .num n := by
  constructor
  · intro found
    obtain ⟨before, after, listed, _⟩ := List.lookup_eq_some_iff.mp found
    have entry : (c, rhs) ∈ constants := by simp [listed]
    simp only [constants, List.mem_cons, Prod.mk.injEq, List.not_mem_nil, or_false] at entry
    obtain ⟨rfl, rfl⟩ | ⟨rfl, rfl⟩ | ⟨rfl, rfl⟩ | ⟨rfl, rfl⟩ | ⟨rfl, rfl⟩ | ⟨rfl, rfl⟩ := entry
    · exact ⟨.z, .z, rfl, by simp⟩
    · exact ⟨.c, .c, rfl, by simp⟩
    · exact ⟨.p, .p, rfl, by simp⟩
    · exact ⟨.r, .r, rfl, by simp⟩
    · exact ⟨.f, .f, rfl, by simp⟩
    · exact ⟨.u, .u, rfl, by simp⟩
  · rintro ⟨word, text, rfl, other⟩
    cases text with
    | num => exact absurd rfl (other _)
    | _ => rfl

theorem righthandside_iff : righthandside limit buf = .ok (rhs, rest) ↔ ∃ blank text word,
    buf = blank ++ text ++ rest ∧ Blank blank ∧ WordText limit text word ∧ rhs = word.rhs ∧
      ∀ n, word = .num n → ¬Starts Char.isDigit rest := by
  constructor
  · intro parsed
    simp only [righthandside, bind_eq_ok, Prod.exists, consumeChar_iff] at parsed
    obtain ⟨first, tail, start, read⟩ := parsed
    obtain ⟨blank, parts, isBlank, -⟩ := skip_iff.mp start
    split at read
    · simp only [bind_eq_ok, Prod.exists, pure, Except.pure, Except.ok.injEq, Prod.mk.injEq] at read
      obtain ⟨index, behind, number, rfl, rfl⟩ := read
      obtain ⟨more, digits, whole, moreBlank, isNum, stops⟩ := num_iff.mp number
      refine ⟨blank ++ more, digits, .num index, ?_, ?_, .num isNum, rfl, fun _ _ => stops⟩
      · rw [parts, ← start, whole]
        simp
      · exact isBlank.append moreBlank
    · split at read
      · next value found =>
        cases read
        obtain ⟨word, isWord, rfl, other⟩ := (lookup_constants limit).mp found
        exact ⟨blank, [first], word, by simp [parts], isBlank, isWord, rfl, fun n is => absurd is (other n)⟩
      · cases read
  · rintro ⟨blank, text, word, rfl, isBlank, isWord, rfl, stops⟩
    cases isWord with
    | num number =>
      obtain ⟨c, tail, rfl⟩ := List.exists_cons_of_ne_nil number.nonempty
      have digit := number.digits c (by simp)
      have skipped : skipWhitespace (blank ++ (c :: tail) ++ rest) = c :: tail ++ rest := by
        rw [List.append_assoc]
        exact skip_blank isBlank (isWhitespace_of_isDigit digit)
      have read : num limit (c :: tail ++ rest) = .ok (_, rest) :=
        num_iff.mpr ⟨[], _, rfl, by simp [Blank], number, stops _ rfl⟩
      rw [righthandside, skipped]
      simp only [List.cons_append, consumeChar, ok_bind, digit, if_true] at read ⊢
      rw [read]
      rfl
    | _ =>
      rw [righthandside, List.append_assoc]
      exact congrArg (· >>= _) (congrArg consumeChar (skip_blank isBlank (by decide)))

theorem Blank.stops (blank : Blank text) (stops : ¬Starts Char.isDigit rest) : ¬Starts Char.isDigit (text ++ rest) := by
  rintro ⟨c, tail, is, digit⟩
  cases text with
  | nil => exact stops ⟨c, tail, is, digit⟩
  | cons d text =>
    obtain ⟨rfl, -⟩ := List.cons.inj is
    exact absurd (isWhitespace_of_isDigit digit) (by simp [blank d (by simp)])

theorem relText_stops (deref : Bool) (rel : Rel) (rest : List Char) :
    ¬Starts Char.isDigit (relText deref rel ++ rest) := by
  rintro ⟨c, tail, is, digit⟩
  cases deref <;> cases rel <;> cases is <;> exact absurd digit (by decide)

@[simp] theorem num_skip (limit : Nat) (buf : List Char) : num limit (skipWhitespace buf) = num limit buf := by
  simp only [num, skip_skip]

theorem Word.isNone_rhs (word : Word) : word.rhs.isNone = decide (word = .f) := by
  cases word <;> rfl

theorem constraint_iff : constraint limit buf = .ok (c, rest) ↔ ∃ text entry,
    buf = text ++ rest ∧ ConstraintText limit text entry ∧ c = entry.fields ∧
      ∀ n, entry.rhs = .num n → ¬Starts Char.isDigit rest := by
  simp only [constraint, lefthandside, num_skip, bind_eq_ok, Prod.exists, pure, Except.pure, Except.ok.injEq,
    Prod.mk.injEq]
  constructor
  · rintro ⟨lhs, buf₁, left, deref, rel, buf₂, op, rhs, buf₃, right, rfl, rfl⟩
    obtain ⟨before, lhsText, rfl, first, isNum, -⟩ := num_iff.mp left
    obtain ⟨beforeRel, rfl, second⟩ := relation_iff.mp op
    obtain ⟨beforeRhs, rhsText, word, rfl, third, isWord, rfl, stops⟩ := righthandside_iff.mp right
    refine ⟨_, ⟨lhs, deref, rel, word⟩, ?_, .mk first isNum second third isWord, ?_, stops⟩
    · simp only [List.append_assoc]
    · simp only [Entry.fields, Word.isNone_rhs]
  · rintro ⟨text, entry, rfl, isText, rfl, stops⟩
    cases isText with
    | @mk before lhsText lhs beforeRel beforeRhs rhsText word deref rel first isNum second third isWord =>
      refine ⟨lhs, beforeRel ++ (relText deref rel ++ (beforeRhs ++ rhsText ++ rest)), ?_, deref, rel,
        beforeRhs ++ rhsText ++ rest, ?_, word.rhs, rest, ?_, ?_, rfl⟩
      · refine num_iff.mpr ⟨before, lhsText, ?_, first, isNum, second.stops (relText_stops _ _ _)⟩
        simp only [List.append_assoc]
      · exact relation_iff.mpr ⟨beforeRel, by simp only [List.append_assoc], second⟩
      · exact righthandside_iff.mpr ⟨beforeRhs, rhsText, word, rfl, third, isWord, rfl, stops⟩
      · simp only [Entry.fields, Word.isNone_rhs]

/-! ### The loop -/

theorem ConstraintText.length_pos (isText : ConstraintText limit text entry) : 0 < text.length := by
  cases isText with
  | mk _ left _ _ _ =>
    have digits := List.length_pos_iff.mpr left.nonempty
    simp only [List.length_append]
    omega

/-- One constraint and the loop behind it. -/
def itemsFrom (limit fuel : Nat) (buf : List Char) (res : List Constraint) : Except PyError (List Constraint) :=
  constraint limit (skipWhitespace buf) >>= fun read => separated limit fuel (skipWhitespace read.2) (res ++ [read.1])

theorem separated_succ (start : ¬Starts isWhitespace (c :: buf)) :
    separated limit (fuel + 1) (c :: buf) res =
      if c = ',' then itemsFrom limit fuel buf res
      else .error (.syntaxError "Expected separator after constraint") := by
  have skipped : skipWhitespace (c :: buf) = c :: buf := skip_iff.mpr ⟨[], rfl, by simp [Blank], start⟩
  simp only [separated, skipped, consumeChar, ok_bind, ne_eq, ite_not]
  split
  · rfl
  · rfl

theorem not_starts_skip (buf : List Char) : ¬Starts isWhitespace (skipWhitespace buf) := not_starts_dropWhile _ _

theorem constraint_skip (limit : Nat) (buf : List Char) :
    constraint limit (skipWhitespace buf) = constraint limit buf := by
  simp only [constraint, skip_skip]

/-- What the loop reads: nothing, or a comma and a list. -/
def Continues (limit : Nat) (buf : List Char) (entries : List Entry) : Prop :=
  buf = [] ∧ entries = [] ∨ ∃ rest, buf = ',' :: rest ∧ ListText limit rest entries

theorem itemsFrom_sound_of (loop : ∀ {buf res}, ¬Starts isWhitespace buf → separated limit fuel buf res = .ok out →
      ∃ entries, out = res ++ entries.map Entry.fields ∧ Continues limit buf entries)
    (read : itemsFrom limit fuel text res = .ok out) :
    ∃ entries, out = res ++ entries.map Entry.fields ∧ ListText limit text entries := by
  simp only [itemsFrom, bind_eq_ok, constraint_skip, Prod.exists] at read
  obtain ⟨first, tail, parsed, read⟩ := read
  obtain ⟨text, entry, rfl, isText, rfl, -⟩ := constraint_iff.mp parsed
  obtain ⟨after, parts, isBlank, -⟩ := skip_iff.mp (rfl : skipWhitespace tail = _)
  obtain ⟨entries, rfl, whole⟩ := loop (not_starts_skip tail) read
  refine ⟨entry :: entries, by simp, ?_⟩
  obtain ⟨ends, rfl⟩ | ⟨others, goes, isList⟩ := whole
  · rw [ends, List.append_nil] at parts
    rw [parts]
    exact .one isText isBlank
  · rw [parts, goes, ← List.append_assoc]
    exact .cons isText isBlank isList

theorem separated_sound (start : ¬Starts isWhitespace buf) (read : separated limit fuel buf res = .ok out) :
    ∃ entries, out = res ++ entries.map Entry.fields ∧ Continues limit buf entries := by
  induction fuel generalizing buf res with
  | zero =>
    cases buf with
    | nil => exact ⟨[], by cases read; simp, .inl ⟨rfl, rfl⟩⟩
    | cons _ _ => cases read
  | succ fuel ih =>
    cases buf with
    | nil => exact ⟨[], by cases read; simp, .inl ⟨rfl, rfl⟩⟩
    | cons c buf =>
      rw [separated_succ start] at read
      split at read
      · next comma =>
        obtain ⟨entries, whole, isList⟩ := itemsFrom_sound_of ih read
        exact ⟨entries, whole, .inr ⟨buf, by rw [comma], isList⟩⟩
      · cases read

/-- Fuel for every character is enough. -/
theorem itemsFrom_complete (isList : ListText limit text entries) (enough : text.length ≤ fuel)
    (res : List Constraint) :
    itemsFrom limit fuel text res = .ok (res ++ entries.map Entry.fields) := by
  induction isList generalizing fuel res with
  | @one text entry after only last =>
    have ends : ¬Starts Char.isDigit [] := by simp [Starts]
    have stops : ¬Starts Char.isDigit after := by simpa using last.stops ends
    have parsed : constraint limit (text ++ after) = .ok (entry.fields, after) :=
      constraint_iff.mpr ⟨text, entry, rfl, only, rfl, fun _ _ => stops⟩
    have skipped : skipWhitespace after = [] := skip_iff.mpr ⟨after, by simp, last, by simp [Starts]⟩
    simp only [itemsFrom, constraint_skip, parsed, ok_bind, skipped, separated, List.map_cons, List.map_nil]
  | @cons text entry after tail entries first last others ih =>
    have stops : ¬Starts Char.isDigit (after ++ ',' :: tail) := last.stops (by simp [Starts])
    have parsed : constraint limit (text ++ after ++ ',' :: tail) = .ok (entry.fields, after ++ ',' :: tail) :=
      constraint_iff.mpr ⟨text, entry, by simp, first, rfl, fun _ _ => stops⟩
    have comma : isWhitespace ',' = false := by decide
    have sizes := first.length_pos
    simp only [List.length_append, List.length_cons] at enough
    obtain ⟨less, rfl⟩ : ∃ less, fuel = less + 1 := ⟨fuel - 1, by omega⟩
    have start : ¬Starts isWhitespace (',' :: tail) := by simp [Starts, comma]
    rw [itemsFrom, constraint_skip, parsed, ok_bind, skip_blank last comma, separated_succ start, if_pos rfl,
      ih (by omega)]
    simp

theorem constraintList_eq (limit fuel : Nat) (buf : List Char) :
    constraintList limit fuel buf = itemsFrom limit fuel buf [] := rfl

/-! ### The exceptions -/

theorem consumeChar_raises (buf : List Char) : Ensures (· ≠ .endless) (fun _ => True) (consumeChar buf) := by
  cases buf <;> simp [consumeChar, Ensures]

theorem num_raises (limit : Nat) (buf : List Char) : Ensures (· ≠ .endless) (fun _ => True) (num limit buf) := by
  unfold num int
  dsimp only
  split <;> simp [Ensures, bind, Except.bind, pure, Except.pure]

theorem comparison_raises (mark : Bool) (c : Char) (buf : List Char) :
    Ensures (· ≠ .endless) (fun _ => True) (comparison mark c buf) := by
  unfold comparison
  split_ifs <;> simp [Ensures]

theorem relation_raises (buf : List Char) : Ensures (· ≠ .endless) (fun _ => True) (relation buf) := by
  refine (consumeChar_raises _).bind fun (rel, tail) _ => ?_
  dsimp only
  split
  · exact (consumeChar_raises _).bind fun read _ => comparison_raises ..
  · exact comparison_raises ..

theorem righthandside_raises (limit : Nat) (buf : List Char) :
    Ensures (· ≠ .endless) (fun _ => True) (righthandside limit buf) := by
  refine (consumeChar_raises _).bind fun (first, tail) _ => ?_
  dsimp only
  split
  · exact (num_raises ..).bind fun read _ => trivial
  · split <;> simp [Ensures, pure, Except.pure, throw, throwThe, MonadExceptOf.throw]

theorem constraint_raises (limit : Nat) (buf : List Char) :
    Ensures (· ≠ .endless) (fun read => read.2.length < buf.length) (constraint limit buf) := by
  have raises : Ensures (· ≠ .endless) (fun _ => True) (constraint limit buf) :=
    (num_raises ..).bind fun left _ => (relation_raises _).bind fun op _ =>
      (righthandside_raises ..).bind fun _ _ => trivial
  refine raises.known.weaken fun read parsed => ?_
  obtain ⟨text, entry, rfl, isText, -⟩ := constraint_iff.mp parsed
  have some := isText.length_pos
  simp only [List.length_append]
  omega

theorem length_skip_le (buf : List Char) : (skipWhitespace buf).length ≤ buf.length :=
  (List.dropWhile_suffix isWhitespace).length_le

theorem separated_raises (enough : buf.length ≤ fuel) (start : ¬Starts isWhitespace buf) :
    Ensures (· ≠ .endless) (fun _ => True) (separated limit fuel buf res) := by
  induction fuel generalizing buf res with
  | zero =>
    obtain rfl := List.length_eq_zero_iff.mp (Nat.le_zero.mp enough)
    trivial
  | succ fuel ih =>
    cases buf with
    | nil => trivial
    | cons c buf =>
      rw [separated_succ start]
      split
      · refine (constraint_raises ..).bind fun read shorter => ih ?_ (not_starts_skip _)
        have first := length_skip_le buf
        have second := length_skip_le read.2
        simp only [List.length_cons] at enough
        omega
      · simp [Ensures]

theorem constraintList_raises (enough : text.length ≤ fuel) :
    Ensures (· ≠ .endless) (fun _ => True) (constraintList limit fuel text) := by
  rw [constraintList_eq, itemsFrom, constraint_skip]
  refine (constraint_raises ..).bind fun read shorter => separated_raises ?_ (not_starts_skip _)
  exact (length_skip_le _).trans (by omega)

theorem separated_fuel (enough : buf.length ≤ fuel) (enough' : buf.length ≤ fuel') (start : ¬Starts isWhitespace buf) :
    separated limit fuel buf res = separated limit fuel' buf res := by
  induction fuel generalizing fuel' buf res with
  | zero =>
    obtain rfl := List.length_eq_zero_iff.mp (Nat.le_zero.mp enough)
    simp [separated]
  | succ fuel ih =>
    cases buf with
    | nil => simp [separated]
    | cons c buf =>
      simp only [List.length_cons] at enough enough'
      obtain ⟨less, rfl⟩ : ∃ less, fuel' = less + 1 := ⟨fuel' - 1, by omega⟩
      rw [separated_succ start, separated_succ start]
      split
      · have shorter := constraint_raises limit (skipWhitespace buf)
        unfold itemsFrom
        cases parsed : constraint limit (skipWhitespace buf) with
        | error e => rfl
        | ok read =>
          rw [parsed] at shorter
          have first := length_skip_le buf
          have second := length_skip_le read.2
          have less' : read.2.length < (skipWhitespace buf).length := shorter
          exact ih (by omega) (by omega) (not_starts_skip _)
      · rfl

/-! ### Printing -/

theorem toDigits_numText (within : limit = 0 ∨ (Nat.toDigits 10 n).length ≤ limit) :
    NumText limit (Nat.toDigits 10 n) n where
  nonempty := Nat.toDigits_ne_nil
  digits _ inside := Nat.isDigit_of_mem_toDigits (by decide) (by decide) inside
  within := within
  value := Nat.ofDigitChars_ten_toDigits.symm

theorem Word.print_wordText (word : Word)
    (within : ∀ n, .num n = word → limit = 0 ∨ (Nat.toDigits 10 n).length ≤ limit) :
    WordText limit word.print word := by
  cases word with
  | num n => exact .num (toDigits_numText (within n rfl))
  | z => exact .z
  | c => exact .c
  | p => exact .p
  | r => exact .r
  | f => exact .f
  | u => exact .u

theorem Entry.print_constraintText (entry : Entry) (readable : entry.Readable limit) :
    ConstraintText limit entry.print entry := by
  have blank : Blank [' '] := by simp [Blank, isWhitespace]
  have none : Blank [] := by simp [Blank]
  exact .mk none (toDigits_numText (readable _ (.inl rfl))) blank blank
    (entry.rhs.print_wordText fun n is => readable n (.inr is))

theorem printList_listText (some : entries ≠ []) (readable : ∀ e ∈ entries, Entry.Readable limit e) :
    ListText limit (printList entries) entries := by
  have blank : Blank [] := by simp [Blank]
  induction entries with
  | nil => exact absurd rfl some
  | cons entry entries ih =>
    have first := entry.print_constraintText (readable entry (by simp))
    cases entries with
    | nil =>
      have whole : printList [entry] = entry.print ++ [] := by simp [printList]
      rw [whole]
      exact .one first blank
    | cons next entries =>
      have whole : printList (entry :: next :: entries) = entry.print ++ [] ++ ',' :: printList (next :: entries) := by
        simp [printList]
      rw [whole]
      exact .cons first blank (ih (by simp) fun e inside => readable e (by simp [inside]))

theorem Word.rhs_injective : Function.Injective Word.rhs := by
  intro a b same
  cases a <;> cases b <;> simp_all [Word.rhs]

theorem Entry.fields_injective : Function.Injective Entry.fields := by
  rintro ⟨lhs, deref, rel, rhs⟩ ⟨lhs', deref', rel', rhs'⟩ same
  simp only [Entry.fields, Constraint.mk.injEq] at same
  obtain ⟨rfl, rfl, rfl, -, equal⟩ := same
  rw [Word.rhs_injective equal]

theorem getConstraintList_of_listText (isList : ListText limit text entries) :
    getConstraintList limit text = .ok (entries.map Entry.fields) := by
  have read := itemsFrom_complete isList le_rfl []
  rwa [List.nil_append] at read

/-- The parser returns on the texts of the grammar, with the fields of the entries in order, and
raises on all others. Fuel for every character lets it end, and it reads back what is printed. -/
theorem getConstraintList_grammar (limit : Nat) :
    (∀ text cs, getConstraintList limit text = .ok cs ↔
      ∃ entries, ListText limit text entries ∧ cs = entries.map Entry.fields) ∧
    (∀ text, (¬∃ entries, ListText limit text entries) →
      ∃ error, error ≠ .endless ∧ getConstraintList limit text = .error error) ∧
    (∀ text fuel, text.length ≤ fuel → constraintList limit fuel text = getConstraintList limit text) ∧
    (∀ entries, entries ≠ [] → (∀ e ∈ entries, Entry.Readable limit e) →
      getConstraintList limit (printList entries) = .ok (entries.map Entry.fields)) ∧
    Function.Injective Entry.fields := by
  have accepts : ∀ text cs, getConstraintList limit text = .ok cs ↔
      ∃ entries, ListText limit text entries ∧ cs = entries.map Entry.fields := by
    intro text cs
    constructor
    · intro read
      have items : itemsFrom limit text.length text [] = .ok cs := read
      obtain ⟨entries, rfl, isList⟩ := itemsFrom_sound_of separated_sound items
      exact ⟨entries, isList, by simp⟩
    · rintro ⟨entries, isList, rfl⟩
      exact getConstraintList_of_listText isList
  refine ⟨accepts, fun text other => ?_, fun text fuel enough => ?_, fun entries some readable => ?_,
    Entry.fields_injective⟩
  · have raises : Ensures (· ≠ .endless) (fun _ => True) (getConstraintList limit text) :=
      constraintList_raises (le_refl text.length)
    cases result : getConstraintList limit text with
    | error e =>
      rw [result] at raises
      exact ⟨e, raises, rfl⟩
    | ok cs =>
      obtain ⟨entries, isList, -⟩ := (accepts text cs).mp result
      exact absurd ⟨entries, isList⟩ other
  · rw [getConstraintList, constraintList_eq, constraintList_eq, itemsFrom, itemsFrom, constraint_skip]
    cases parsed : constraint limit text with
    | error e => rfl
    | ok read =>
      have shorter := constraint_raises limit text
      rw [parsed] at shorter
      have less : read.2.length < text.length := shorter
      have skipped := length_skip_le read.2
      exact separated_fuel (by omega) (by omega) (not_starts_skip _)
  · exact getConstraintList_of_listText (printList_listText some readable)

/-- A buffer behind two pointers and its length: `0 d= 1,1 < r`. -/
theorem buffer_and_length_read_back :
    getConstraintList 4300 (printList [⟨0, true, .eq, .num 1⟩, ⟨1, false, .le, .r⟩]) =
      .ok [{ lhs := 0, rel := .eq, deref := true, rhs := some (.param 1) },
        { lhs := 1, rel := .le, rhs := some .recorded }] := by
  refine (getConstraintList_grammar 4300).2.2.2.1 _ (by simp) ?_
  simp [Entry.Readable, Nat.toDigits_of_lt_base]

/-- A number of 4301 digits and a constraint on it. -/
def longNumber : List Char := List.replicate 4301 '1' ++ ['<', '1']

/-- With the interpreter's default limit the number is refused, although it is one. -/
theorem longNumber_refused :
    (∃ entries, ListText 0 longNumber entries) ∧ getConstraintList 4300 longNumber = .error .valueError := by
  have digits : ∀ c ∈ List.replicate 4301 '1', Char.isDigit c = true := by
    intro c inside
    rw [List.eq_of_mem_replicate inside]
    rfl
  have blank : Blank [] := by simp [Blank]
  constructor
  · have some : List.replicate 4301 '1' ≠ [] := by rw [ne_eq, List.replicate_eq_nil_iff]; decide
    have left : NumText 0 (List.replicate 4301 '1') _ := ⟨some, digits, .inl rfl, rfl⟩
    have right : NumText 0 ['1'] 1 := ⟨by simp, by simp, .inl rfl, rfl⟩
    have text : ConstraintText 0 _ ⟨_, false, .le, .num 1⟩ := .mk blank left blank blank (.num right)
    have same : ([] ++ List.replicate 4301 '1' ++ [] ++ relText false .le ++ [] ++ ['1'] ++ [] : List Char) =
        longNumber := by
      simp only [longNumber, List.nil_append, List.append_nil, List.append_assoc]
      rfl
    exact ⟨_, same ▸ ListText.one text blank⟩
  · have skipped : skipWhitespace longNumber = longNumber := by
      refine skip_iff.mpr ⟨[], rfl, blank, ?_⟩
      rintro ⟨c, rest, is, white⟩
      obtain ⟨rfl, -⟩ := List.cons.inj (is : '1' :: (List.replicate 4300 '1' ++ ['<', '1']) = c :: rest)
      exact absurd white (by decide)
    have taken : longNumber.takeWhile Char.isDigit = List.replicate 4301 '1' :=
      (span_iff.mpr ⟨rfl, digits, by simp [Starts]⟩).1
    have refused : num 4300 longNumber = .error .valueError := by
      unfold num
      dsimp only
      rw [skipped, taken, int, if_pos (.inr ⟨by decide, by rw [List.length_replicate]; decide⟩)]
      rfl
    rw [getConstraintList, constraintList_eq, itemsFrom, skipped, constraint, lefthandside, num_skip, num_skip, refused]
    rfl

end AflLive.ConfigGenerator
