import AflLive.ConfigGenerator.SkipParams
import AflLive.Libgen.Arguments

/-! How `derive_constraints.py` guesses the constraints of a function from the types and names
of its parameters. The script keeps the constraints as text and searches that text for the
numbers of parameters; behind it stands a scan that remembers one bit. -/
namespace AflLive.ConfigGenerator.Derive
open Control Text

/-- What the script takes from the interpreter: how many digits a number may have when it is
printed or read, where 0 is no limit, and `str.lower`. -/
structure Interpreter where
  limit : Nat
  lower : List Char → List Char

/-- What the script raises; `intLimit` is the interpreter's own `ValueError`. `endless` is no
exception: the loop has not come to an end. -/
inductive Error where
  | valueError (message : List Char)
  | intLimit
  | endless
deriving DecidableEq, Repr

structure Param where
  ptype : List Char
  pname : List Char
deriving DecidableEq, Repr

/-- `rfind` plus one. -/
def afterLast (c : Char) (text : List Char) : Nat := (text.rdropWhile (· ≠ c)).length

def splitParamTypeName (py : Interpreter) (param : List Char) : Param :=
  let namePos := max (afterLast ' ' param) (afterLast '*' param)
  { ptype := py.lower (param.take namePos), pname := py.lower (param.drop namePos) }

/-- The parameters of a quoted string. -/
def splitParams (py : Interpreter) (paramString : List Char) : List Param :=
  ((paramString.drop 1).dropLast.splitOn ',').map (splitParamTypeName py)

namespace Param

def isBytes (p : Param) : Bool :=
  "char".toList <:+: p.ptype || ("int".toList <:+: p.ptype && "8".toList <:+: p.ptype)

def namesFile (p : Param) : Bool :=
  "file".toList <:+: p.pname || "url".toList <:+: p.pname || "name".toList <:+: p.pname

def isOutput (p : Param) : Bool := "out".toList <:+: p.pname

/-- The test of a neighbour: an integer named as a length, or after the buffer. -/
def isLengthOf (next : Param) (pname : List Char) : Bool :=
  ("int".toList <:+: next.ptype || "size".toList <:+: next.ptype) && '*' ∉ next.ptype &&
    ("len".toList <:+: next.pname || "size".toList <:+: next.pname || pname <:+: next.pname)

/-- `ptype.count('*')` -/
def levels (p : Param) : Nat := p.ptype.count '*'

end Param

/-! ### The script -/

/-- `f'{n}'` -/
def format (py : Interpreter) (n : Nat) : Except Error (List Char) :=
  if py.limit ≠ 0 ∧ py.limit < (Nat.toDigits 10 n).length then .error .intLimit else .ok (Nat.toDigits 10 n)

/-- `str.split` without an argument. -/
def words (text : List Char) : List (List Char) := (text.splitOnP isSpace).filter (· ≠ [])

/-- `f'{j}' in c.split()` -/
def isIn (py : Interpreter) (j : Nat) (c : List Char) : Except Error Bool := do
  let number ← format py j
  return number ∈ words c

/-- `any([f'{j}' in c.split() for c in constraints])` -/
def anyMentions (py : Interpreter) (j : Nat) (constraints : List (List Char)) : Except Error Bool := do
  let found ← constraints.mapM (isIn py j)
  return found.any id

/-- The innermost part of both searches, for a buffer `i` and a length `j`. -/
def addPair (py : Interpreter) (ptype : List Char) (i j : Nat) (constraints : List (List Char)) :
    Except Error (List (List Char)) := do
  let constraints ← constraints.filterM fun c => do return !(← isIn py j c)
  let relation ←
    if ptype.count '*' = 1 then pure " = ".toList
    else if ptype.count '*' = 2 then pure " d= ".toList
    else throw (.valueError ("We cannot yet deal with triple pointers: ".toList ++ ptype))
  let buffer ← format py i
  let length ← format py j
  return constraints ++ [buffer ++ relation ++ length, length ++ " < r".toList]

/-- One of the two searches; nothing comes back if the neighbour is no length or is in use. -/
def findLength (py : Interpreter) (params : List Param) (param : Param) (i j : Nat) (constraints : List (List Char)) :
    Except Error (Option (List (List Char))) :=
  match params[j]? with
  | none => return none
  | some next => do
    if ← anyMentions py j constraints then return none
    else if next.isLengthOf param.pname then return some (← addPair py param.ptype i j constraints)
    else return none

/-- The search for the length of a buffer: ahead, then back. -/
def search (py : Interpreter) (params : List Param) (param : Param) (i : Nat) (constraints : List (List Char)) :
    Except Error (Nat × List (List Char)) := do
  match ← findLength py params param i (i + 1) constraints with
  | some constraints => return (i + 2, constraints)
  | none =>
    if i > 0 then
      match ← findLength py params param i (i - 1) constraints with
      | some constraints => return (i + 2, constraints)
      | none => return (i + 1, constraints)
    else return (i + 1, constraints)

/-- The body of the loop, with the next index. -/
def examine (py : Interpreter) (params : List Param) (param : Param) (i : Nat) (constraints : List (List Char)) :
    Except Error (Nat × List (List Char)) := do
  if param.isBytes then
    if param.namesFile then
      return (i + 1, constraints ++ [(← format py i) ++ " = f".toList])
    else if param.isOutput then
      return (i + 1, constraints)
    else search py params param i constraints
  else return (i + 1, constraints)

/-- The loop from an index on, for at most `fuel` turns. -/
def loop (py : Interpreter) (params : List Param) : Nat → Nat → List (List Char) → Except Error (List (List Char))
  | 0, i, constraints => if i < params.length then .error .endless else .ok constraints
  | fuel + 1, i, constraints =>
    match params[i]? with
    | none => .ok constraints
    | some param => do
      let (i, constraints) ← examine py params param i constraints
      loop py params fuel i constraints

def getConstraintList (py : Interpreter) (_functionName paramString : List Char) : Except Error (List Char) := do
  let params := splitParams py paramString
  let constraints ← loop py params params.length 0 []
  return [','].intercalate constraints

/-- A line of the table of functions. -/
structure Row where
  functionName : List Char
  amountOfArgs : Nat
  paramString : List Char

/-- The configuration, as far as the script fills it in. -/
structure Config where
  targets : List (List Char) := []
  constraints : List Char → Option (List Constraint) := fun _ => none
  skip : List Char → Option (List Nat) := fun _ => none

/-- What ends the script: an exception of either of its two stages. -/
inductive Abort where
  | derive (error : Error)
  | parse (error : PyError)
deriving DecidableEq, Repr

def addRow (py : Interpreter) (config : Config) (row : Row) : Except Abort Config := do
  let text ← (getConstraintList py row.functionName row.paramString).mapError .derive
  if text = [] then return config
  let parsed ← (ConfigGenerator.getConstraintList py.limit text).mapError .parse
  let (skipList, constraintList) := getSkipParamsAndTransformConstraints row.amountOfArgs parsed
  if row.functionName ∈ config.targets then return config
  return {
    targets := config.targets ++ [row.functionName]
    constraints := Function.update config.constraints row.functionName (some constraintList)
    skip := Function.update config.skip row.functionName (some skipList) }

/-- The loop over the lines; the file is written only if it ends. -/
def main (py : Interpreter) (rows : List Row) : Except Abort Config := rows.foldlM (addRow py) {}

/-! ### The scan -/

/-- What the script says about one or two parameters. -/
inductive Item where
  | file (i : Nat)
  | pair (i j : Nat) (deref : Bool)
deriving DecidableEq, Repr

namespace Item

def params : Item → List Nat
  | .file i => [i]
  | .pair i j _ => [i, j]

def entries : Item → List Entry
  | .file i => [⟨i, false, .eq, .f⟩]
  | .pair i j deref => [⟨i, deref, .eq, .num j⟩, ⟨j, false, .le, .r⟩]

end Item

/-- Where the scan stands, and whether the parameter before is still without a constraint. -/
structure Scan where
  i : Nat
  free : Bool
deriving DecidableEq, Repr

/-- What is done about a parameter; `pair` has the parameter that is its length. -/
inductive Move where
  | pass
  | file
  | pair (j : Nat)
deriving DecidableEq, Repr

def lengthAt (params : List Param) (param : Param) (j : Nat) : Bool :=
  params[j]?.any (·.isLengthOf param.pname)

def choose (params : List Param) (param : Param) (s : Scan) : Move :=
  if !param.isBytes then .pass
  else if param.namesFile then .file
  else if param.isOutput then .pass
  else if lengthAt params param (s.i + 1) then .pair (s.i + 1)
  else if 0 < s.i ∧ s.free ∧ lengthAt params param (s.i - 1) then .pair (s.i - 1)
  else .pass

/-- What is said about a buffer and its length. -/
def pairItem (param : Param) (i j : Nat) : Except Error Item :=
  if param.levels = 1 ∨ param.levels = 2 then .ok (.pair i j (param.levels = 2))
  else .error (.valueError ("We cannot yet deal with triple pointers: ".toList ++ param.ptype))

/-- Behind a pair the next parameter is left out, whichever neighbour is the length. -/
def turn (params : List Param) (param : Param) (s : Scan) : Except Error (List Item × Scan) :=
  match choose params param s with
  | .pass => .ok ([], ⟨s.i + 1, true⟩)
  | .file => .ok ([.file s.i], ⟨s.i + 1, false⟩)
  | .pair j => do return ([← pairItem param s.i j], ⟨s.i + 2, j < s.i⟩)

def scan (params : List Param) : Nat → Scan → Except Error (List Item)
  | 0, s => if s.i < params.length then .error .endless else .ok []
  | fuel + 1, s =>
    match params[s.i]? with
    | none => .ok []
    | some param => do
      let (items, s) ← turn params param s
      return items ++ (← scan params fuel s)

/-! ### The text of the constraints -/

theorem isSpace_of_isDigit {c : Char} (digit : c.isDigit = true) : isSpace c = false := by
  simp only [Char.isDigit, Bool.and_eq_true, decide_eq_true_eq, UInt32.le_iff_toNat_le] at digit
  have low : 48 ≤ c.toNat := digit.1
  have high : c.toNat ≤ 57 := digit.2
  simp only [isSpace, Bool.or_eq_false_iff, Bool.and_eq_false_iff, decide_eq_false_iff_not, List.contains_eq_mem,
    List.mem_cons, List.not_mem_nil, or_false]
  omega

theorem isDigit_of_toDigits (n : Nat) : ∀ c ∈ Nat.toDigits 10 n, c.isDigit = true := fun _ =>
  Nat.isDigit_of_mem_toDigits (by decide) (by decide)

theorem toDigits_solid (n : Nat) : ∀ c ∈ Nat.toDigits 10 n, isSpace c = false := fun c inside =>
  isSpace_of_isDigit (isDigit_of_toDigits n c inside)

theorem relText_solid (deref : Bool) (rel : Rel) : ∀ c ∈ relText deref rel, isSpace c = false := by
  cases deref <;> cases rel <;> simp [relText, relChar, isSpace]

theorem Word.print_solid (word : Word) : ∀ c ∈ word.print, isSpace c = false := by
  cases word with
  | num n => exact toDigits_solid n
  | _ => simp [Word.print, isSpace]

theorem words_print (entry : Entry) :
    words entry.print = [Nat.toDigits 10 entry.lhs, relText entry.deref entry.rel, entry.rhs.print] := by
  have blank : isSpace ' ' = true := rfl
  have parts : entry.print =
      Nat.toDigits 10 entry.lhs ++ ' ' :: (relText entry.deref entry.rel ++ ' ' :: entry.rhs.print) := by
    simp [Entry.print]
  have left : Nat.toDigits 10 entry.lhs ≠ [] := Nat.toDigits_ne_nil
  have middle : relText entry.deref entry.rel ≠ [] := by unfold relText; split <;> simp
  have right : entry.rhs.print ≠ [] := by cases entry.rhs <;> simp [Word.print]
  rw [words, parts, List.splitOnP_append_cons _ _ blank, List.splitOnP_append_cons _ _ blank,
    List.splitOnP_eq_singleton (toDigits_solid _), List.splitOnP_eq_singleton (relText_solid _ _),
    List.splitOnP_eq_singleton (Word.print_solid _)]
  simp [left, middle, right]

theorem toDigits_inj {m n : Nat} : Nat.toDigits 10 m = Nat.toDigits 10 n ↔ m = n := by
  refine ⟨fun same => ?_, congrArg _⟩
  rw [← @Nat.ofDigitChars_ten_toDigits m, same, Nat.ofDigitChars_ten_toDigits]

/-- A number is no word but itself. -/
theorem toDigits_eq_print {n : Nat} {word : Word} : Nat.toDigits 10 n = word.print ↔ word = .num n := by
  have digits := isDigit_of_toDigits n
  cases word with
  | num m => rw [Word.print, toDigits_inj, Word.num.injEq, eq_comm]
  | _ =>
    simp only [reduceCtorEq, iff_false]
    intro same
    rw [same] at digits
    exact absurd digits (by simp [Word.print])

theorem mem_words_print {entry : Entry} :
    Nat.toDigits 10 j ∈ words entry.print ↔ j = entry.lhs ∨ entry.rhs = .num j := by
  have other : Nat.toDigits 10 j ≠ relText entry.deref entry.rel := by
    intro same
    have digits := isDigit_of_toDigits j
    rw [same] at digits
    revert digits
    cases entry.deref <;> cases entry.rel <;> simp [relText, relChar]
  simp [words_print, toDigits_inj, toDigits_eq_print, other]

/-- The constraints of the items, as the script keeps them. -/
def texts (items : List Item) : List (List Char) := (items.flatMap Item.entries).map Entry.print

/-- The parameters with a constraint. -/
def used (items : List Item) : List Nat := items.flatMap Item.params

theorem mem_params_iff {item : Item} :
    j ∈ item.params ↔ ∃ entry ∈ item.entries, j = entry.lhs ∨ entry.rhs = .num j := by
  cases item with
  | file i => simp [Item.params, Item.entries]
  | pair i k deref =>
    simp only [Item.params, Item.entries, List.mem_cons, List.not_mem_nil, or_false, exists_eq_or_imp, exists_eq_left,
      Word.num.injEq, reduceCtorEq]
    constructor
    · rintro (rfl | rfl)
      · exact .inl (.inl rfl)
      · exact .inr rfl
    · rintro ((rfl | rfl) | rfl)
      · exact .inl rfl
      · exact .inr rfl
      · exact .inr rfl

theorem mem_used_iff {items : List Item} : j ∈ used items ↔ ∃ c ∈ texts items, Nat.toDigits 10 j ∈ words c := by
  simp only [used, texts, List.mem_flatMap, List.mem_map, mem_params_iff]
  constructor
  · rintro ⟨item, inside, entry, there, mentions⟩
    exact ⟨entry.print, ⟨entry, ⟨item, inside, there⟩, rfl⟩, mem_words_print.mpr mentions⟩
  · rintro ⟨_, ⟨entry, ⟨item, inside, there⟩, rfl⟩, mentions⟩
    exact ⟨item, inside, entry, there, mem_words_print.mp mentions⟩

/-! ### The script follows the scan -/

/-- A number the interpreter prints and reads. -/
def Interpreter.Short (py : Interpreter) (n : Nat) : Prop := py.limit = 0 ∨ (Nat.toDigits 10 n).length ≤ py.limit

theorem Interpreter.Short.mono {py : Interpreter} (short : py.Short n) (less : m ≤ n) : py.Short m := by
  rcases short with none | within
  · exact .inl none
  · have some : 0 < py.limit := Nat.length_toDigits_pos.trans_le within
    rw [Nat.length_toDigits_le_iff (by decide) some] at within
    exact .inr ((Nat.length_toDigits_le_iff (by decide) some).mpr (less.trans_lt within))

/-- The limit is hit, at a number up to `top`. -/
def Limited (py : Interpreter) (top : Nat) (e : Error) : Prop := e = .intLimit ∧ ¬py.Short top

section Follows
variable {py : Interpreter} {params : List Param} {param : Param} {items : List Item} {top : Nat} {s : Scan}

theorem format_eq (n : Nat) :
    py.Short n ∧ format py n = .ok (Nat.toDigits 10 n) ∨ ¬py.Short n ∧ format py n = .error .intLimit := by
  unfold format Interpreter.Short
  split
  · next long => exact .inr ⟨by omega, rfl⟩
  · next short => exact .inl ⟨by omega, rfl⟩

theorem format_follows (below : n ≤ top) :
    Follows (Limited py top) (fun text _ => text = Nat.toDigits 10 n ∧ py.Short n) (format py n) (.ok ()) := by
  rcases format_eq n with ⟨short, is⟩ | ⟨long, is⟩
  · rw [is]
    exact .ok ⟨rfl, short⟩
  · rw [is]
    exact .own ⟨rfl, fun short => long (short.mono below)⟩

theorem isIn_of_short (short : py.Short j) (c : List Char) :
    isIn py j c = .ok (decide (Nat.toDigits 10 j ∈ words c)) := by
  rcases format_eq j with ⟨-, is⟩ | ⟨long, -⟩
  · rw [isIn, is]
    rfl
  · exact absurd short long

theorem isIn_of_long (long : ¬py.Short j) (c : List Char) : isIn py j c = .error .intLimit := by
  rcases format_eq j with ⟨short, -⟩ | ⟨-, is⟩
  · exact absurd short long
  · rw [isIn, is]
    rfl

theorem anyMentions_follows (items : List Item) (below : j ≤ top) :
    Follows (Limited py top) (fun found _ => found = decide (j ∈ used items)) (anyMentions py j (texts items))
      (.ok ()) := by
  by_cases short : py.Short j
  · have found : (texts items).mapM (isIn py j) = .ok _ := mapM_ok fun c _ => isIn_of_short short c
    rw [anyMentions, found, ok_bind]
    refine .ok ?_
    rw [Bool.eq_iff_iff, decide_eq_true_iff, mem_used_iff]
    simp
  · unfold anyMentions
    cases is : texts items with
    | nil =>
      refine .ok ?_
      have none : j ∉ used items := by simp [mem_used_iff, is]
      simp [none]
    | cons c rest =>
      rw [List.mapM_cons, isIn_of_long short]
      exact .own ⟨rfl, fun wide => short (wide.mono below)⟩

theorem kept_of_unused (unused : j ∉ used items) :
    Follows (fun e => e = .intLimit ∧ ¬py.Short j) (· = ·)
      ((texts items).filterM fun c => do return !(← isIn py j c)) (.ok (texts items)) := by
  by_cases short : py.Short j
  · have each : ∀ c ∈ texts items, (do return !(← isIn py j c)) = Except.ok (ε := Error) true := by
      intro c inside
      have absent : Nat.toDigits 10 j ∉ words c := fun found => unused (mem_used_iff.mpr ⟨c, inside, found⟩)
      rw [isIn_of_short short, ok_bind, decide_eq_false absent]
      rfl
    rw [filterM_ok each, List.filter_true]
    exact .ok rfl
  · cases texts items with
    | nil => exact .ok rfl
    | cons c rest =>
      rw [List.filterM, List.filterAuxM, isIn_of_long short]
      exact .own ⟨rfl, short⟩

theorem addPair_follows (unused : j ∉ used items) (left : i ≤ top) (right : j ≤ top) :
    Follows (Limited py top)
      (fun out item => out = texts (items ++ [item]) ∧ ∀ p ∈ item.params, py.Short p)
      (addPair py param.ptype i j (texts items)) (pairItem param i j) := by
  have written : ∀ (deref : Bool) (relation : List Char), relation = [' '] ++ relText deref .eq ++ [' '] →
      Follows (Limited py top) (fun out item => out = texts (items ++ [item]) ∧ ∀ p ∈ item.params, py.Short p)
        (do
          let buffer ← format py i
          let length ← format py j
          return texts items ++ [buffer ++ relation ++ length, length ++ " < r".toList])
        (.ok (.pair i j deref)) := by
    rintro deref _ rfl
    refine (format_follows left).bind (g := fun _ => .ok (Item.pair i j deref)) ?_
    rintro _ _ ⟨rfl, shortBuffer⟩
    refine (format_follows right).bind (g := fun _ => .ok (Item.pair i j deref)) ?_
    rintro _ _ ⟨rfl, shortLength⟩
    refine .ok ⟨?_, ?_⟩
    · simp [texts, Item.entries, Entry.print, Word.print, relText, relChar]
    · simpa [Item.params] using ⟨shortBuffer, shortLength⟩
  have kept := @kept_of_unused py items j unused
  unfold addPair
  generalize (texts items).filterM (m := Except Error) _ = x at kept ⊢
  cases kept with
  | own holds => exact .own ⟨holds.1, fun wide => holds.2 (wide.mono right)⟩
  | ok same =>
    subst same
    rw [ok_bind]
    unfold pairItem Param.levels
    by_cases one : param.ptype.count '*' = 1
    · have other : param.ptype.count '*' ≠ 2 := by omega
      rw [if_pos one, if_pos (.inl one), decide_eq_false other]
      exact written false _ rfl
    · rw [if_neg one]
      by_cases two : param.ptype.count '*' = 2
      · rw [if_pos two, if_pos (.inr two), decide_eq_true two]
        exact written true _ rfl
      · rw [if_neg two, if_neg (by omega)]
        exact .error _

theorem lengthAt_iff :
    lengthAt params param j = true ↔ ∃ next, params[j]? = some next ∧ next.isLengthOf param.pname = true := by
  unfold lengthAt
  cases params[j]? <;> simp

theorem findLength_found (unused : j ∉ used items) (length : lengthAt params param j = true)
    (left : i ≤ params.length) :
    Follows (Limited py params.length)
      (fun out item => out = some (texts (items ++ [item])) ∧ ∀ p ∈ item.params, py.Short p)
      (findLength py params param i j (texts items)) (pairItem param i j) := by
  obtain ⟨next, here, isLength⟩ := lengthAt_iff.mp length
  have right : j ≤ params.length := (List.getElem?_eq_some_iff.mp here).1.le
  unfold findLength
  rw [here]
  refine (anyMentions_follows items right).bind (g := fun _ => pairItem param i j) ?_
  rintro _ _ rfl
  rw [if_neg (by simpa using unused), if_pos isLength]
  rw [← bind_pure (pairItem param i j)]
  refine (addPair_follows unused left right).bind ?_
  rintro _ item ⟨rfl, short⟩
  exact .ok ⟨rfl, short⟩

theorem findLength_none (other : j ∈ used items ∨ lengthAt params param j = false) :
    Follows (Limited py params.length) (fun out _ => out = none) (findLength py params param i j (texts items))
      (.ok ()) := by
  unfold findLength
  cases here : params[j]? with
  | none => exact .ok rfl
  | some next =>
    have right : j ≤ params.length := (List.getElem?_eq_some_iff.mp here).1.le
    refine (anyMentions_follows items right).bind (g := Except.ok) ?_
    rintro _ _ rfl
    rcases other with inUse | no
    · rw [if_pos (by simpa using inUse)]
      exact .ok rfl
    · have isNone : next.isLengthOf param.pname = false := by simpa [lengthAt, here] using no
      rw [isNone]
      split <;> exact .ok rfl

/-- The items say of every parameter behind the scan whether it has a constraint, as far as the
scan will ask. -/
structure Known (items : List Item) (s : Scan) : Prop where
  below : ∀ p ∈ used items, p < s.i
  free : 0 < s.i → (s.i - 1 ∉ used items ↔ s.free = true)

/-- What the script makes of the constraints in one turn, given what the scan does. -/
def Written (py : Interpreter) (items : List Item) (out : Nat × List (List Char)) (next : List Item × Scan) : Prop :=
  out = (next.2.i, texts (items ++ next.1)) ∧ ∀ item ∈ next.1, ∀ p ∈ item.params, py.Short p

theorem search_follows (known : Known items s) (within : s.i ≤ params.length) :
    Follows (Limited py params.length) (Written py items) (search py params param s.i (texts items))
      (if lengthAt params param (s.i + 1) then do return ([← pairItem param s.i (s.i + 1)], ⟨s.i + 2, false⟩)
      else if 0 < s.i ∧ s.free ∧ lengthAt params param (s.i - 1) then do
        return ([← pairItem param s.i (s.i - 1)], ⟨s.i + 2, true⟩)
      else .ok ([], ⟨s.i + 1, true⟩)) := by
  have unused : s.i + 1 ∉ used items := fun inUse => by have := known.below _ inUse; omega
  unfold search
  cases ahead : lengthAt params param (s.i + 1) with
  | true =>
    refine (findLength_found unused ahead within).bind ?_
    rintro _ item ⟨rfl, short⟩
    exact .ok ⟨rfl, by simpa using short⟩
  | false =>
    refine (findLength_none (.inr ahead)).bind (g := fun _ => ite _ _ _) ?_
    rintro _ _ rfl
    by_cases some : 0 < s.i
    · by_cases back : s.free = true ∧ lengthAt params param (s.i - 1) = true
      · have free := (known.free some).mpr back.1
        rw [if_pos some, if_pos ⟨some, back⟩]
        refine (findLength_found free back.2 within).bind ?_
        rintro _ item ⟨rfl, short⟩
        exact .ok ⟨rfl, by simpa using short⟩
      · have other : s.i - 1 ∈ used items ∨ lengthAt params param (s.i - 1) = false := by
          by_contra neither
          push Not at neither
          exact back ⟨(known.free some).mp neither.1, by simpa using neither.2⟩
        rw [if_pos some, if_neg fun both => back both.2]
        refine (findLength_none other).bind (g := fun _ => Except.ok _) ?_
        rintro _ _ rfl
        exact .ok ⟨by simp, by simp⟩
    · rw [if_neg some, if_neg fun both => some both.1]
      exact .ok ⟨by simp, by simp⟩

/-- A turn at a buffer. -/
theorem turn_buffer (bytes : param.isBytes = true) (noFile : param.namesFile = false)
    (input : param.isOutput = false) (s : Scan) : turn params param s =
      if lengthAt params param (s.i + 1) then do return ([← pairItem param s.i (s.i + 1)], ⟨s.i + 2, false⟩)
      else if 0 < s.i ∧ s.free ∧ lengthAt params param (s.i - 1) then do
        return ([← pairItem param s.i (s.i - 1)], ⟨s.i + 2, true⟩)
      else .ok ([], ⟨s.i + 1, true⟩) := by
  unfold turn choose
  rw [bytes, noFile, input]
  by_cases ahead : lengthAt params param (s.i + 1) = true
  · simp [ahead]
  · by_cases back : 0 < s.i ∧ s.free = true ∧ lengthAt params param (s.i - 1) = true
    · simp [ahead, back]
    · simp [ahead, back]

theorem turn_file (bytes : param.isBytes = true) (file : param.namesFile = true) (s : Scan) :
    turn params param s = .ok ([.file s.i], ⟨s.i + 1, false⟩) := by
  unfold turn choose
  simp [bytes, file]

theorem turn_pass (plain : param.isBytes = false ∨ param.namesFile = false ∧ param.isOutput = true) (s : Scan) :
    turn params param s = .ok ([], ⟨s.i + 1, true⟩) := by
  unfold turn choose
  rcases plain with other | ⟨noFile, output⟩
  · simp [other]
  · cases bytes : param.isBytes <;> simp [noFile, output]

theorem examine_follows (known : Known items s) (here : params[s.i]? = some param) :
    Follows (Limited py params.length) (Written py items) (examine py params param s.i (texts items))
      (turn params param s) := by
  have within : s.i ≤ params.length := (List.getElem?_eq_some_iff.mp here).1.le
  unfold examine
  cases bytes : param.isBytes with
  | false =>
    rw [turn_pass (.inl bytes)]
    exact .ok ⟨by simp, by simp⟩
  | true =>
    cases file : param.namesFile with
    | true =>
      rw [turn_file bytes file]
      refine (format_follows within).bind (g := fun _ => .ok ([Item.file s.i], Scan.mk (s.i + 1) false)) ?_
      rintro _ _ ⟨rfl, short⟩
      refine .ok ⟨?_, by simpa [Item.params] using short⟩
      simp [texts, Item.entries, Entry.print, Word.print, relText, relChar]
    | false =>
      cases output : param.isOutput with
      | true =>
        rw [turn_pass (.inr ⟨file, output⟩)]
        exact .ok ⟨by simp, by simp⟩
      | false =>
        rw [turn_buffer bytes file output]
        exact search_follows known within

/-! ### What a turn does -/

theorem choose_pair (chosen : choose params param s = .pair j) :
    param.isBytes = true ∧ param.namesFile = false ∧ param.isOutput = false ∧ lengthAt params param j = true ∧
      (j = s.i + 1 ∨ j + 1 = s.i ∧ s.free = true) := by
  unfold choose at chosen
  split_ifs at chosen with other file output ahead back
  · obtain rfl := Move.pair.inj chosen
    simp_all
  · obtain rfl := Move.pair.inj chosen
    have before : s.i - 1 + 1 = s.i := by omega
    simp_all

theorem lengthAt_lt (length : lengthAt params param j = true) : j < params.length := by
  obtain ⟨next, here, -⟩ := lengthAt_iff.mp length
  exact (List.getElem?_eq_some_iff.mp here).1

/-- Everything a turn can do. -/
theorem turn_cases {first : List Item} {t : Scan} (turned : turn params param s = .ok (first, t)) :
    (choose params param s = .pass ∧ first = [] ∧ t = ⟨s.i + 1, true⟩) ∨
    (choose params param s = .file ∧ first = [.file s.i] ∧ t = ⟨s.i + 1, false⟩) ∨
    ∃ j deref, choose params param s = .pair j ∧ (param.levels = 1 ∨ param.levels = 2) ∧
      first = [.pair s.i j deref] ∧ t = ⟨s.i + 2, j < s.i⟩ := by
  unfold turn at turned
  split at turned
  · next chosen =>
    cases turned
    exact .inl ⟨chosen, rfl, rfl⟩
  · next chosen =>
    cases turned
    exact .inr (.inl ⟨chosen, rfl, rfl⟩)
  · next j chosen =>
    obtain ⟨item, made, rest⟩ := bind_eq_ok.mp turned
    unfold pairItem at made
    split at made
    · next levels =>
      cases made
      cases rest
      exact .inr (.inr ⟨j, _, chosen, levels, rfl, rfl⟩)
    · cases made

theorem turn_advances {first : List Item} {t : Scan} (turned : turn params param s = .ok (first, t)) :
    s.i < t.i ∧ t.i ≤ s.i + 2 := by
  obtain ⟨-, -, rfl⟩ | ⟨-, -, rfl⟩ | ⟨_, _, -, -, -, rfl⟩ := turn_cases turned <;> simp

theorem used_append (items more : List Item) : used (items ++ more) = used items ++ used more := List.flatMap_append

/-- What a turn says is about parameters it leaves behind. -/
theorem turn_below {first : List Item} {t : Scan} (turned : turn params param s = .ok (first, t)) :
    ∀ p ∈ used first, p < t.i := by
  intro p inside
  obtain ⟨-, rfl, rfl⟩ | ⟨-, rfl, rfl⟩ | ⟨j, deref, chosen, -, rfl, rfl⟩ := turn_cases turned
  · cases inside
  · obtain rfl : p = s.i := by simpa [used, Item.params] using inside
    exact Nat.lt_succ_self _
  · obtain ⟨-, -, -, -, place⟩ := choose_pair chosen
    have either : p = s.i ∨ p = j := by simpa [used, Item.params] using inside
    show p < s.i + 2
    omega

theorem Known.turn {first : List Item} {t : Scan} (known : Known items s)
    (turned : turn params param s = .ok (first, t)) : Known (items ++ first) t := by
  constructor
  · intro p inside
    rw [used_append] at inside
    rcases List.mem_append.mp inside with before | new
    · exact (known.below p before).trans (turn_advances turned).1
    · exact turn_below turned p new
  · intro _
    have unused : ∀ p, s.i ≤ p → p ∉ used items := fun p above inside => absurd (known.below p inside) (by omega)
    obtain ⟨-, rfl, rfl⟩ | ⟨-, rfl, rfl⟩ | ⟨j, deref, chosen, -, rfl, rfl⟩ := turn_cases turned
    · simp [unused]
    · simp [used, Item.params]
    · obtain ⟨-, -, -, -, place⟩ := choose_pair chosen
      rcases place with rfl | ⟨before, -⟩
      · simp [used, Item.params]
      · have apart : s.i + 1 ≠ j := by omega
        have less : j < s.i := by omega
        have new : s.i + 1 ∉ used [.pair s.i j deref] := by simp [used, Item.params, apart]
        simp [used_append, unused, new, less]

theorem loop_follows (fuel : Nat) (known : Known items s) :
    Follows (Limited py params.length)
      (fun out more => out = texts (items ++ more) ∧ ∀ item ∈ more, ∀ p ∈ item.params, py.Short p)
      (loop py params fuel s.i (texts items)) (scan params fuel s) := by
  induction fuel generalizing items s with
  | zero =>
    unfold loop scan
    split
    · exact .error _
    · exact .ok ⟨by simp, by simp⟩
  | succ fuel ih =>
    unfold loop scan
    cases here : params[s.i]? with
    | none => exact .ok ⟨by simp, by simp⟩
    | some param =>
      refine (examine_follows known here).known.bind ?_
      rintro _ ⟨first, t⟩ ⟨⟨rfl, short⟩, turned⟩
      dsimp only
      rw [← bind_pure (loop py params fuel _ _)]
      refine (ih (known.turn turned)).bind ?_
      rintro _ more ⟨rfl, shortMore⟩
      refine .ok ⟨by rw [List.append_assoc], fun item inside => ?_⟩
      rcases List.mem_append.mp inside with here | later
      · exact short item here
      · exact shortMore item later

end Follows

/-- The text of a scan. -/
def itemsText (items : List Item) : List Char := printList (items.flatMap Item.entries)

theorem getConstraintList_follows (py : Interpreter) (functionName paramString : List Char) :
    Follows (Limited py (splitParams py paramString).length)
      (fun text items => text = itemsText items ∧ ∀ item ∈ items, ∀ p ∈ item.params, py.Short p)
      (getConstraintList py functionName paramString)
      (scan (splitParams py paramString) (splitParams py paramString).length ⟨0, true⟩) := by
  have start : Known [] ⟨0, true⟩ := ⟨by simp [used], by simp⟩
  rw [← bind_pure (scan ..)]
  refine (loop_follows _ start).bind ?_
  rintro _ items ⟨rfl, short⟩
  exact .ok ⟨rfl, short⟩

end AflLive.ConfigGenerator.Derive
