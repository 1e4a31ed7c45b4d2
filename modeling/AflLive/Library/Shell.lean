import Mathlib

/-! Words as a shell reads them: blanks separate them, single quotes keep everything up to the
next one. -/
namespace AflLive.Shell

def quote : UInt8 := 39

/-- A space, a tab or a line feed. -/
def isBlank (c : UInt8) : Bool := c = 32 || c = 9 || c = 10

/-- The words from a place on, inside quotes or not, and in the middle of a word or not. -/
def wordsFrom : Bool → Option (List UInt8) → List UInt8 → Option (List (List UInt8))
  | true, _, [] => none
  | false, none, [] => some []
  | false, some word, [] => some [word]
  | true, word, c :: text =>
    if c = quote then wordsFrom false (some (word.getD [])) text
    else wordsFrom true (some (word.getD [] ++ [c])) text
  | false, word, c :: text =>
    if c = quote then wordsFrom true (some (word.getD [])) text
    else if isBlank c then
      match word with
      | none => wordsFrom false none text
      | some word => (wordsFrom false none text).map (word :: ·)
    else wordsFrom false (some (word.getD [] ++ [c])) text

/-- Without a word if a quote is left open. -/
def words (text : List UInt8) : Option (List (List UInt8)) := wordsFrom false none text

/-- Each word in quotes, with a space between two. -/
def quoteAll (args : List (List UInt8)) : List UInt8 :=
  [32].intercalate (args.map fun arg => quote :: (arg ++ [quote]))

section
variable {arg text : List UInt8} {args out : List (List UInt8)}

theorem wordsFrom_quoted (free : quote ∉ arg) (word text : List UInt8) :
    wordsFrom true (some word) (arg ++ quote :: text) = wordsFrom false (some (word ++ arg)) text := by
  induction arg generalizing word with
  | nil => simp [wordsFrom]
  | cons c arg ih =>
    have plain : c ≠ quote := fun same => free (same ▸ List.mem_cons_self ..)
    rw [List.cons_append, wordsFrom, if_neg plain, ih fun inside => free (List.mem_cons_of_mem _ inside)]
    simp

/-- Words without a quote come back. -/
theorem words_quoteAll (free : ∀ arg ∈ args, quote ∉ arg) : words (quoteAll args) = some args := by
  unfold words
  induction args with
  | nil => rfl
  | cons arg args ih =>
    have rest := ih fun arg inside => free arg (List.mem_cons_of_mem _ inside)
    have first := fun text => wordsFrom_quoted (free arg (List.mem_cons_self ..)) [] text
    cases args with
    | nil =>
      have parts : quoteAll [arg] = quote :: (arg ++ quote :: []) := by simp [quoteAll]
      rw [parts, wordsFrom, if_pos rfl, Option.getD_none, first, List.nil_append]
      rfl
    | cons next args =>
      have parts : quoteAll (arg :: next :: args) = quote :: (arg ++ quote :: 32 :: quoteAll (next :: args)) := by
        simp [quoteAll]
      rw [parts, wordsFrom, if_pos rfl, Option.getD_none, first, List.nil_append, wordsFrom, if_neg (by decide),
        if_pos (by decide), rest]
      rfl

/-- No quote is ever part of a word. -/
theorem quote_notMem_of_wordsFrom {inside : Bool} {word : Option (List UInt8)} (free : ∀ w ∈ word, quote ∉ w)
    (read : wordsFrom inside word text = some out) : ∀ w ∈ out, quote ∉ w := by
  have start : quote ∉ word.getD [] := by
    cases word with
    | none => simp
    | some w => exact free w rfl
  fun_induction wordsFrom inside word text generalizing out with
  | case1 => cases read
  | case2 =>
    cases read
    simp
  | case3 =>
    cases read
    simpa using free
  | case4 word text ih => exact ih (by simpa using start) read (by simpa using start)
  | case5 word c text plain ih =>
    have longer : quote ∉ word.getD [] ++ [c] := by simpa [start] using Ne.symm plain
    exact ih (by simpa using longer) read longer
  | case6 word text ih => exact ih (by simpa using start) read (by simpa using start)
  | case7 c text _ _ ih => exact ih (by simp) read (by simp)
  | case8 c text _ _ word ih =>
    obtain ⟨rest, later, rfl⟩ := Option.map_eq_some_iff.mp read
    have others := ih (by simp) later (by simp)
    simpa using ⟨free word rfl, others⟩
  | case9 word c text plain _ ih =>
    have longer : quote ∉ word.getD [] ++ [c] := by simpa [start] using Ne.symm plain
    exact ih (by simpa using longer) read longer

theorem quote_notMem_of_words (read : words text = some out) : ∀ w ∈ out, quote ∉ w :=
  quote_notMem_of_wordsFrom (by simp) read

end

end AflLive.Shell
