import Mathlib

/-! Text as a script reads it: bytes in UTF-8, broken into lines, with the white space around
each line cut off and the empty lines left out. -/
namespace AflLive.Text

instance lawfulBEq : LawfulBEq (List Char) := inferInstance

def encode (text : List Char) : List UInt8 := text.flatMap String.utf8EncodeChar

/-- Strict decoding. -/
def decode (bytes : List UInt8) : Option (List Char) := bytes.toByteArray.utf8Decode?.map Array.toList

@[simp] theorem encode_nil : encode [] = [] := rfl

theorem encode_cons (c : Char) (text : List Char) : encode (c :: text) = String.utf8EncodeChar c ++ encode text := rfl

theorem encode_append (first second : List Char) : encode (first ++ second) = encode first ++ encode second := by
  simp [encode]

theorem decode_encode (text : List Char) : decode (encode text) = some text := by
  have decoded : (encode text).toByteArray.utf8Decode? = some text.toArray := List.utf8Decode?_utf8Encode
  simp [decode, decoded]

theorem decode_eq_some {bytes : List UInt8} {text : List Char} : decode bytes = some text ↔ bytes = encode text := by
  constructor
  · intro decoded
    obtain ⟨chars, is, rfl⟩ := Option.map_eq_some_iff.mp decoded
    have some : bytes.toByteArray.utf8Decode?.isSome := by simp [is]
    have back := ByteArray.utf8Encode_get_utf8Decode? (h := some)
    simp only [is, Option.get_some] at back
    exact (List.toByteArray_inj.mp back).symm
  · rintro rfl
    exact decode_encode text

theorem encode_ascii {text : List Char} (low : ∀ c ∈ text, c.toNat < 128) :
    encode text = text.map fun c => UInt8.ofNat c.toNat := by
  induction text with
  | nil => rfl
  | cons c text ih =>
    have single : String.utf8EncodeChar c = [UInt8.ofNat c.toNat] := by
      unfold String.utf8EncodeChar
      exact if_pos (Nat.le_of_lt_succ (low c (.head _)))
    rw [encode_cons, single, ih fun d inside => low d (.tail _ inside), List.map_cons, List.singleton_append]

/-- A byte of the first half stands for itself only. -/
theorem utf8EncodeChar_of_mem {b : UInt8} {c : Char} (low : b.toNat < 128) (inside : b ∈ String.utf8EncodeChar c) :
    String.utf8EncodeChar c = [b] ∧ c = Char.ofNat b.toNat := by
  have byte : ∀ k < 256, (UInt8.ofNat k).toNat = k := fun k small => UInt8.toNat_ofNat_of_lt' small
  unfold String.utf8EncodeChar at inside ⊢
  dsimp only at inside ⊢
  split at inside
  · next ascii =>
    rw [List.mem_singleton] at inside
    subst inside
    rw [if_pos ascii, byte _ (by omega)]
    exact ⟨rfl, (Char.ofNat_toNat c).symm⟩
  · -- The bytes of a longer code are at least 128.
    exfalso
    split at inside
    · simp only [List.mem_cons, List.not_mem_nil, or_false] at inside
      obtain rfl | rfl := inside <;> rw [byte _ (by omega)] at low <;> omega
    · split at inside
      · simp only [List.mem_cons, List.not_mem_nil, or_false] at inside
        obtain rfl | rfl | rfl := inside <;> rw [byte _ (by omega)] at low <;> omega
      · simp only [List.mem_cons, List.not_mem_nil, or_false] at inside
        obtain rfl | rfl | rfl | rfl := inside <;> rw [byte _ (by omega)] at low <;> omega

theorem encode_eq_split {b : UInt8} (low : b.toNat < 128) {first second : List UInt8} {text : List Char}
    (same : first ++ b :: second = encode text) :
    ∃ before after, text = before ++ Char.ofNat b.toNat :: after ∧ first = encode before ∧ second = encode after := by
  induction text generalizing first with
  | nil => simp at same
  | cons c rest ih =>
    have parts : encode (c :: rest) = String.utf8EncodeChar c ++ encode rest := rfl
    rw [parts, List.append_eq_append_iff] at same
    obtain ⟨tail, whole, last⟩ | ⟨tail, whole, last⟩ := same
    · cases tail with
      | nil =>
        rw [List.append_nil] at whole
        obtain ⟨before, after, split, start, rest⟩ := @ih [] last
        exact ⟨c :: before, after, by rw [split, List.cons_append], by simp [encode_cons, ← start, whole], rest⟩
      | cons d tail =>
        obtain ⟨rfl, behind⟩ := List.cons.inj last
        have inside : b ∈ String.utf8EncodeChar c := by simp [whole]
        obtain ⟨single, is⟩ := utf8EncodeChar_of_mem low inside
        obtain ⟨rfl, rfl⟩ : first = [] ∧ tail = [] := by
          have sizes := congrArg List.length (whole.symm.trans single)
          simp only [List.length_append, List.length_cons, List.length_nil] at sizes
          exact ⟨List.length_eq_zero_iff.mp (by omega), List.length_eq_zero_iff.mp (by omega)⟩
        exact ⟨[], rest, by rw [is, List.nil_append], rfl, behind⟩
    · obtain ⟨before, after, split, start, rest⟩ := ih last.symm
      exact ⟨c :: before, after, by rw [split, List.cons_append], by rw [whole, start]; rfl, rest⟩

/-- A byte of the first half divides the text where it divides the bytes. -/
theorem decode_split {b : UInt8} (low : b.toNat < 128) {first second : List UInt8} {text : List Char} :
    decode (first ++ b :: second) = some text ↔ ∃ before after,
      decode first = some before ∧ decode second = some after ∧ text = before ++ Char.ofNat b.toNat :: after := by
  simp only [decode_eq_some]
  constructor
  · intro same
    obtain ⟨before, after, split, start, rest⟩ := encode_eq_split low same
    exact ⟨before, after, start, rest, split⟩
  · rintro ⟨before, after, rfl, rfl, rfl⟩
    have value : (Char.ofNat b.toNat).val.toNat = b.toNat := by
      rw [Char.ofNat, dif_pos (.inl (by omega))]
      rfl
    have single : String.utf8EncodeChar (Char.ofNat b.toNat) = [b] := by
      unfold String.utf8EncodeChar
      dsimp only
      rw [value, if_pos (by omega), UInt8.ofNat_toNat]
    rw [encode_append, encode_cons, single, List.singleton_append]

/-- Strings that end in a line feed each are decoded one by one. -/
theorem decode_joined {strings : List (List UInt8)} {text : List Char} :
    decode (strings.flatMap (· ++ [10])) = some text ↔
      ∃ texts, strings.mapM decode = some texts ∧ text = texts.flatMap (· ++ ['\n']) := by
  induction strings generalizing text with
  | nil =>
    have empty : decode [] = some [] := decode_encode []
    simp [empty, eq_comm]
  | cons first strings ih =>
    have parts : (first :: strings).flatMap (· ++ [10]) = first ++ 10 :: strings.flatMap (· ++ [10]) := by simp
    rw [parts, decode_split (by decide)]
    simp only [ih, List.mapM_cons, Option.bind_eq_bind, Option.bind_eq_some_iff, Option.pure_def, Option.some.injEq]
    constructor
    · rintro ⟨before, _, start, ⟨texts, rest, rfl⟩, rfl⟩
      exact ⟨before :: texts, ⟨before, start, texts, rest, rfl⟩, by simp⟩
    · rintro ⟨_, ⟨before, start, texts, rest, rfl⟩, rfl⟩
      exact ⟨before, _, start, ⟨texts, rest, rfl⟩, by simp⟩

/-- The text starts with a character of the kind. -/
def Starts (p : Char → Bool) (text : List Char) : Prop := ∃ c rest, text = c :: rest ∧ p c = true

theorem not_starts_dropWhile (p : Char → Bool) (text : List Char) : ¬Starts p (text.dropWhile p) := by
  rintro ⟨c, rest, is, holds⟩
  have first := List.head?_dropWhile_not p text
  simp [is, holds] at first

/-- A loop that reads characters of one kind takes a text of them, up to a character of another
kind. -/
theorem span_iff {p : Char → Bool} {text first rest : List Char} :
    (text.takeWhile p = first ∧ text.dropWhile p = rest) ↔
      text = first ++ rest ∧ (∀ c ∈ first, p c = true) ∧ ¬Starts p rest := by
  constructor
  · rintro ⟨rfl, rfl⟩
    exact ⟨(List.takeWhile_append_dropWhile ..).symm, fun _ => List.mem_takeWhile_imp, not_starts_dropWhile p text⟩
  · rintro ⟨rfl, every, stops⟩
    rw [List.takeWhile_append_of_pos every, List.dropWhile_append_of_pos every]
    cases rest with
    | nil => simp
    | cons c rest =>
      have other : ¬p c = true := fun holds => stops ⟨c, rest, rfl, holds⟩
      simp [other]

/-- White space as `str.strip` knows it. -/
def isSpace (c : Char) : Bool :=
  9 ≤ c.toNat && c.toNat ≤ 13 || 28 ≤ c.toNat && c.toNat ≤ 32 || 0x2000 ≤ c.toNat && c.toNat ≤ 0x200a ||
    [0x85, 0xa0, 0x1680, 0x2028, 0x2029, 0x202f, 0x205f, 0x3000].contains c.toNat

def strip (line : List Char) : List Char := (line.dropWhile isSpace).rdropWhile isSpace

/-- Universal newlines. A carriage return before a line feed only adds an empty line. -/
def isBreak (c : Char) : Bool := c = '\n' || c = '\r'

def lines (text : List Char) : List (List Char) := ((text.splitOnP isBreak).map strip).filter (· ≠ [])

/-- A text that comes back from `lines` as it is. -/
structure IsLine (text : List Char) : Prop where
  nonempty : text ≠ []
  stripped : strip text = text
  unbroken : ∀ c ∈ text, isBreak c = false

theorem strip_eq_self_iff {line : List Char} :
    strip line = line ↔ line.dropWhile isSpace = line ∧ line.rdropWhile isSpace = line := by
  constructor
  · intro same
    have inner := (List.rdropWhile_prefix isSpace (line.dropWhile isSpace)).length_le
    have outer := List.dropWhile_suffix isSpace (l := line)
    rw [← strip, same] at inner
    have whole := outer.eq_of_length_le inner
    rw [strip, whole] at same
    exact ⟨whole, same⟩
  · rintro ⟨first, last⟩
    rw [strip, first, last]

theorem strip_strip (line : List Char) : strip (strip line) = strip line := by
  refine strip_eq_self_iff.mpr ⟨?_, List.rdropWhile_idempotent _ _⟩
  rw [List.dropWhile_eq_self_iff]
  intro long
  have start : strip line <+: line.dropWhile isSpace := List.rdropWhile_prefix _ _
  rw [start.getElem long]
  exact List.dropWhile_get_zero_not isSpace line _

theorem unbroken_of_mem_splitOnP {text line : List Char} (inside : line ∈ text.splitOnP isBreak) :
    ∀ c ∈ line, isBreak c = false := by
  induction text generalizing line with
  | nil => simp_all
  | cons c text ih =>
    rw [List.splitOnP_cons_eq_if_modifyHead] at inside
    split at inside
    · cases inside with
      | head => simp
      | tail _ inside => exact ih inside
    · next plain =>
      cases pieces : text.splitOnP isBreak with
      | nil => exact absurd pieces (List.splitOnP_ne_nil _ _)
      | cons first rest =>
        rw [pieces] at ih inside
        cases inside with
        | head => simpa using ⟨Bool.eq_false_iff.mpr plain, ih (.head _)⟩
        | tail _ inside => exact ih (.tail _ inside)

theorem strip_subset (line : List Char) : strip line ⊆ line :=
  List.Subset.trans (List.rdropWhile_prefix _ _).subset (List.dropWhile_suffix _).subset

theorem lines_append {c : Char} (sep : isBreak c = true) (first second : List Char) :
    lines (first ++ c :: second) = lines first ++ lines second := by
  simp [lines, List.splitOnP_append_cons first second sep]

theorem lines_joined (texts : List (List Char)) : lines (texts.flatMap (· ++ ['\n'])) = texts.flatMap lines := by
  induction texts with
  | nil => rfl
  | cons first texts ih =>
    have parts : (first :: texts).flatMap (· ++ ['\n']) = first ++ '\n' :: texts.flatMap (· ++ ['\n']) := by simp
    rw [parts, lines_append rfl, ih, List.flatMap_cons]

theorem IsLine.lines {text : List Char} (line : IsLine text) : lines text = [text] := by
  rw [Text.lines, List.splitOnP_eq_singleton line.unbroken]
  simp [line.stripped, line.nonempty]

theorem isLine_of_mem_lines {text line : List Char} (inside : line ∈ lines text) : IsLine line := by
  obtain ⟨inside, nonempty⟩ := List.mem_filter.mp inside
  obtain ⟨piece, split, rfl⟩ := List.mem_map.mp inside
  exact ⟨by simpa using nonempty, strip_strip piece,
    fun c here => unbroken_of_mem_splitOnP split c (strip_subset piece here)⟩

end AflLive.Text
