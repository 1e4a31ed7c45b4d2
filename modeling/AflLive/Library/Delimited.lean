import Mathlib

/-! Words in a text that a delimiter separates. A word free of the delimiter
never reaches across one, so searching the text is searching its parts. -/
namespace AflLive.Delimited
variable {α : Type} {c : α} {word other first second : List α}

/-- The test with which a scan for the delimiter passes over a word. -/
theorem ne_of_free [DecidableEq α] (free : c ∉ word) : ∀ x ∈ word, decide (x ≠ c) = true := by
  intro x inside
  simpa using fun same : x = c => free (same ▸ inside)

theorem takeWhile_word [DecidableEq α] (free : c ∉ word) (rest : List α) :
    (word ++ c :: rest).takeWhile (· ≠ c) = word := by
  rw [List.takeWhile_append_of_pos (ne_of_free free), List.takeWhile_cons_of_neg (by simp), List.append_nil]

theorem prefix_split (free : c ∉ word) : word <+: first ++ c :: second ↔ word <+: first := by
  refine ⟨fun start => ?_, fun start => start.trans (List.prefix_append _ _)⟩
  induction first generalizing word with
  | nil =>
    cases word with
    | nil => exact List.nil_prefix
    | cons head tail =>
      obtain ⟨rfl, _⟩ := List.cons_prefix_cons.mp start
      exact absurd (List.mem_cons_self ..) free
  | cons x first ih =>
    cases word with
    | nil => exact List.nil_prefix
    | cons head tail =>
      obtain ⟨rfl, rest⟩ := List.cons_prefix_cons.mp start
      exact List.cons_prefix_cons.mpr ⟨rfl, ih (fun inside => free (List.mem_cons_of_mem _ inside)) rest⟩

/-- The plain search finds a word on one side of a delimiter or on the other. -/
theorem infix_split (free : c ∉ word) :
    word <:+: first ++ c :: second ↔ word <:+: first ∨ word <:+: second := by
  induction first with
  | nil =>
    have here : word <+: c :: second ↔ word <+: [] := @prefix_split α c word [] second free
    rw [List.nil_append, List.infix_cons_iff, here, List.infix_nil, List.prefix_nil]
  | cons x first ih =>
    have here : word <+: x :: (first ++ c :: second) ↔ word <+: x :: first :=
      @prefix_split α c word (x :: first) second free
    rw [List.cons_append, List.infix_cons_iff, List.infix_cons_iff, ih, here, or_assoc]

/-- A word up to the next delimiter is not longer than the text up to it. -/
theorem ended_prefix_split (free : c ∉ word) :
    word ++ [c] <+: first ++ c :: second ↔ word ++ [c] <+: first ++ [c] := by
  refine ⟨fun start => ?_, fun start => start.trans ⟨second, by simp⟩⟩
  induction word generalizing first with
  | nil =>
    cases first with
    | nil => exact List.prefix_rfl
    | cons x first =>
      obtain ⟨rfl, _⟩ := List.cons_prefix_cons.mp start
      exact List.cons_prefix_cons.mpr ⟨rfl, List.nil_prefix⟩
  | cons head tail ih =>
    cases first with
    | nil =>
      obtain ⟨rfl, _⟩ := List.cons_prefix_cons.mp start
      exact absurd (List.mem_cons_self ..) free
    | cons x first =>
      obtain ⟨rfl, rest⟩ := List.cons_prefix_cons.mp start
      exact List.cons_prefix_cons.mpr ⟨rfl, ih (fun inside => free (List.mem_cons_of_mem _ inside)) rest⟩

/-- Up to a delimiter, the search finds what some delimiter of the text stands behind. -/
theorem ended_infix_iff {text : List α} :
    word ++ [c] <:+: text ↔ ∃ front, front ++ [c] <+: text ∧ word <:+ front := by
  constructor
  · rintro ⟨before, after, rfl⟩
    exact ⟨before ++ word, ⟨after, by simp⟩, ⟨before, rfl⟩⟩
  · rintro ⟨front, ⟨after, rfl⟩, before, rfl⟩
    exact ⟨before, after, by simp⟩

/-- The delimiters of a text with a delimiter in it. -/
theorem front_split {front : List α} : front ++ [c] <+: first ++ c :: second ↔
    front ++ [c] <+: first ∨ front = first ∨ ∃ rest, front = first ++ c :: rest ∧ rest ++ [c] <+: second := by
  constructor
  · rintro ⟨after, whole⟩
    rw [List.append_assoc, List.singleton_append] at whole
    obtain ⟨middle, rfl, rest⟩ | ⟨middle, rfl, rest⟩ := List.append_eq_append_iff.mp whole
    · cases middle with
      | nil => exact .inr (.inl (by simp))
      | cons x middle =>
        obtain ⟨rfl, -⟩ := List.cons.inj rest
        exact .inl ⟨middle, by simp⟩
    · cases middle with
      | nil => exact .inr (.inl (by simp))
      | cons x middle =>
        obtain ⟨rfl, rfl⟩ := List.cons.inj rest
        exact .inr (.inr ⟨middle, rfl, ⟨after, by simp⟩⟩)
  · rintro (⟨after, rfl⟩ | rfl | ⟨rest, rfl, ⟨after, rfl⟩⟩)
    · exact ⟨after ++ c :: second, by simp⟩
    · exact ⟨second, by simp⟩
    · exact ⟨after, by simp⟩

theorem front_append_free {front : List α} (free : c ∉ second) :
    front ++ [c] <+: first ++ second ↔ front ++ [c] <+: first := by
  refine ⟨fun ⟨after, whole⟩ => ?_, fun start => start.trans (List.prefix_append ..)⟩
  rw [List.append_assoc, List.singleton_append] at whole
  obtain ⟨middle, rfl, rest⟩ | ⟨middle, rfl, rest⟩ := List.append_eq_append_iff.mp whole
  · cases middle with
    | nil =>
      rw [← show c :: after = second from rest] at free
      exact absurd (List.mem_cons_self ..) free
    | cons x middle =>
      obtain ⟨rfl, -⟩ := List.cons.inj rest
      exact ⟨middle, by simp⟩
  · rw [rest] at free
    exact absurd (by simp) free

/-- What ends a text begins in its second part, or is the second part with an end of the first. -/
theorem suffix_append_iff : c :: word <:+ first ++ second ↔
    c :: word <:+ second ∨ ∃ rest, c :: rest <:+ first ∧ word = rest ++ second := by
  constructor
  · rintro ⟨before, whole⟩
    obtain ⟨middle, rfl, rest⟩ | ⟨middle, rfl, rest⟩ := List.append_eq_append_iff.mp whole
    · cases middle with
      | nil => exact .inl ⟨[], by simpa using rest⟩
      | cons x middle =>
        obtain ⟨rfl, rfl⟩ := List.cons.inj rest
        exact .inr ⟨middle, ⟨before, rfl⟩, rfl⟩
    · exact .inl ⟨middle, rest.symm⟩
  · rintro (⟨before, rfl⟩ | ⟨rest, ⟨before, rfl⟩, rfl⟩)
    · exact ⟨first ++ before, by simp⟩
    · exact ⟨before, by simp⟩

theorem not_suffix_of_free (free : c ∉ second) : ¬c :: word <:+ second :=
  fun ending => free (ending.subset (List.mem_cons_self ..))

/-- The delimited search finds a word on one side of a delimiter or on the
other; the delimiter belongs to both. -/
theorem delimited_split (free : c ∉ word) :
    c :: (word ++ [c]) <:+: first ++ c :: second ↔
      c :: (word ++ [c]) <:+: first ++ [c] ∨ c :: (word ++ [c]) <:+: c :: second := by
  induction first with
  | nil =>
    refine ⟨.inr, ?_⟩
    rintro (short | found)
    · have := short.length_le
      simp at this
    · exact found
  | cons x first ih =>
    have here : c :: (word ++ [c]) <+: x :: (first ++ c :: second) ↔ c :: (word ++ [c]) <+: x :: (first ++ [c]) := by
      rw [List.cons_prefix_cons, List.cons_prefix_cons, ended_prefix_split free]
    rw [List.cons_append, List.cons_append, List.infix_cons_iff, List.infix_cons_iff, ih, here, or_assoc]

/-- Between two delimiters the delimited search finds only the whole word. -/
theorem delimited_word (free : c ∉ other) :
    c :: (word ++ [c]) <:+: c :: (other ++ [c]) ↔ word = other := by
  constructor
  · intro found
    rcases List.infix_cons_iff.mp found with start | inside
    · rcases List.prefix_concat_iff.mp (List.cons_prefix_cons.mp start).2 with same | shorter
      · exact List.append_cancel_right same
      · exact absurd (shorter.subset (by simp)) free
    · rw [← List.cons_append] at inside
      rcases List.infix_concat_iff.mp inside with ending | within
      · obtain ⟨before, whole⟩ := ending
        rw [← List.append_assoc] at whole
        rw [← List.append_cancel_right whole] at free
        exact absurd (by simp) free
      · exact absurd (within.subset (by simp)) free
  · rintro rfl
    exact List.infix_rfl

end AflLive.Delimited
