import AflLive.Libgen.GenValues
import AflLive.Library.Delimited

/-! `get_targets` and the blacklist. afl-fuzz searches `AH_BLACKLIST` for the name
between colons, libgen for the bare name. -/
namespace AflLive.Fuzz
open Delimited

/-- `MAX_TARGETS`. -/
def maxTargets : Nat := 256

/-- `":%s:"`. -/
def delimitedName (name : Name) : Name := colon :: (name ++ [colon])

/-- The loop over `targets` of the typeinfo file; `kept` is `targetNames` so far. -/
def getTargetNames (blacklist : Name) : List Name → List Name → List Name
  | kept, [] => kept
  | kept, name :: rest =>
    if kept.length < maxTargets then
      if contains blacklist (delimitedName name) then getTargetNames blacklist kept rest
      else getTargetNames blacklist (kept ++ [name]) rest
    else kept

theorem getTargetNames_eq (blacklist : Name) (kept targets : List Name) :
    getTargetNames blacklist kept targets =
      kept ++ (targets.filter fun name => !contains blacklist (delimitedName name)).take (maxTargets - kept.length) := by
  induction targets generalizing kept with
  | nil => simp [getTargetNames]
  | cons name rest ih =>
    unfold getTargetNames
    by_cases room : kept.length < maxTargets
    · cases listed : contains blacklist (delimitedName name) with
      | true => simp [room, listed, ih]
      | false =>
        have step : maxTargets - kept.length = maxTargets - (kept.length + 1) + 1 := by omega
        simp [room, listed, ih, step]
    · simp [room, show maxTargets - kept.length = 0 by omega]

/-- `':'.join(names)`. -/
def joinColon : List Name → Name
  | [] => []
  | [name] => name
  | name :: next :: rest => name ++ colon :: joinColon (next :: rest)

/-- The values of `AH_BLACKLIST`, with the names each one lists: not set, the form
the README asks for and `setup_fuzzers.py` joins, or one of these to which
`get_seeds_from_runtime` has appended a name. -/
inductive Lists : Name → List Name → Prop
  | unset : Lists [] []
  | joined (names : List Name) : Lists (colon :: (joinColon names ++ [colon])) names
  | appended {text : Name} {names : List Name} (name : Name) (before : Lists text names) :
      Lists (text ++ delimitedName name) (names ++ [name])

section Lists
variable {text f : Name} {names : List Name}

theorem delimitedName_split {first second : Name} (free : colon ∉ f) :
    delimitedName f <:+: first ++ colon :: second ↔
      delimitedName f <:+: first ++ [colon] ∨ delimitedName f <:+: colon :: second :=
  delimited_split free

theorem short_not_delimited (nonempty : f ≠ []) : ¬ delimitedName f <:+: [colon, colon] := by
  intro inside
  have bound := inside.length_le
  have positive := List.length_pos_iff.mpr nonempty
  simp only [delimitedName, List.length_cons, List.length_append, List.length_nil] at bound
  omega

theorem joined_delimited (free : colon ∉ f) (nonempty : f ≠ []) (names : List Name) (clean : ∀ n ∈ names, colon ∉ n) :
    delimitedName f <:+: colon :: (joinColon names ++ [colon]) ↔ f ∈ names := by
  induction names using joinColon.induct with
  | case1 => simpa [joinColon] using short_not_delimited nonempty
  | case2 name =>
    rw [joinColon, List.mem_singleton]
    exact delimited_word (clean name (by simp))
  | case3 name next rest ih =>
    have head : delimitedName f <:+: colon :: name ++ [colon] ↔ f = name := delimited_word (clean name (by simp))
    have tail := ih fun n member => clean n (List.mem_cons_of_mem _ member)
    rw [joinColon, List.append_assoc, List.cons_append, ← List.cons_append, delimitedName_split free, head, tail,
      List.mem_cons, List.mem_cons, List.mem_cons]

/-- Nothing is found at the seam behind a value that ends in a colon. -/
theorem Lists.seam (lists : Lists text names) (free : colon ∉ f) (nonempty : f ≠ []) :
    delimitedName f <:+: text ++ [colon] ↔ delimitedName f <:+: text := by
  have ended : ∀ t : Name, delimitedName f <:+: t ++ [colon] ++ [colon] ↔ delimitedName f <:+: t ++ [colon] := by
    intro t
    rw [List.append_assoc, List.singleton_append, delimitedName_split free]
    simp only [short_not_delimited nonempty, or_false]
  cases lists with
  | unset =>
    have empty : ¬ delimitedName f <:+: [] := fun short =>
      short_not_delimited nonempty (short.trans List.nil_infix)
    have one : ¬ delimitedName f <:+: [] ++ [colon] := fun short =>
      short_not_delimited nonempty (short.trans ⟨[], [colon], rfl⟩)
    simp only [empty, one]
  | joined names => exact ended (colon :: joinColon names)
  | @appended text _ name before =>
    have same : text ++ delimitedName name = text ++ colon :: name ++ [colon] := by simp [delimitedName]
    rw [same]
    exact ended _

/-- Between colons the value holds exactly the names it lists. -/
theorem Lists.delimited_iff (lists : Lists text names) (clean : ∀ n ∈ names, colon ∉ n) (free : colon ∉ f)
    (nonempty : f ≠ []) : delimitedName f <:+: text ↔ f ∈ names := by
  induction lists with
  | unset =>
    simpa using fun empty => short_not_delimited nonempty (List.IsInfix.trans empty List.nil_infix)
  | joined names => exact joined_delimited free nonempty names clean
  | @appended text names name before ih =>
    have last : delimitedName f <:+: delimitedName name ↔ f = name := delimited_word (clean name (by simp))
    rw [show text ++ delimitedName name = text ++ colon :: (name ++ [colon]) from rfl, delimitedName_split free,
      before.seam free nonempty, ih fun n member => clean n (List.mem_append_left _ member)]
    rw [show colon :: (name ++ [colon]) = delimitedName name from rfl, last, List.mem_append, List.mem_singleton]

theorem joined_occurs (free : colon ∉ f) (nonempty : f ≠ []) (names : List Name) :
    f <:+: joinColon names ↔ ∃ n ∈ names, f <:+: n := by
  induction names using joinColon.induct with
  | case1 => simpa [joinColon] using nonempty
  | case2 name => simp [joinColon]
  | case3 name next rest ih =>
    rw [joinColon, infix_split free, ih]
    simp

/-- Without the colons it holds every part of a listed name. -/
theorem Lists.occurs_iff (lists : Lists text names) (free : colon ∉ f) (nonempty : f ≠ []) :
    f <:+: text ↔ ∃ n ∈ names, f <:+: n := by
  have around : ∀ t : Name, f <:+: colon :: (t ++ [colon]) ↔ f <:+: t := by
    intro t
    have outer : f <:+: [] ++ colon :: (t ++ [colon]) ↔ _ := infix_split free
    rw [List.nil_append] at outer
    rw [outer, infix_split free]
    simp only [List.infix_nil, nonempty, false_or, or_false]
  induction lists with
  | unset => simpa using nonempty
  | joined names => rw [around, joined_occurs free nonempty]
  | @appended text names name before ih =>
    have tail : f <:+: name ++ [colon] ↔ f <:+: name ∨ f <:+: [] := infix_split free
    have cut : f <:+: text ++ delimitedName name ↔ f <:+: text ∨ f <:+: name ++ [colon] := infix_split free
    rw [cut, tail]
    simp only [ih, List.infix_nil, nonempty, or_false, List.mem_append, List.mem_singleton, or_and_right, exists_or,
      exists_eq_left]

theorem mem_getTargetNames {targets : List Name} (lists : Lists text names) (clean : ∀ n ∈ names, colon ∉ n)
    (wellFormed : ∀ t ∈ targets, t ≠ [] ∧ colon ∉ t) :
    f ∈ getTargetNames text [] targets ↔ f ∈ (targets.filter (· ∉ names)).take maxTargets := by
  have same : targets.filter (fun name => !contains text (delimitedName name)) = targets.filter (· ∉ names) := by
    refine List.filter_congr fun t member => ?_
    obtain ⟨nonempty, free⟩ := wellFormed t member
    have listed := lists.delimited_iff clean free nonempty
    rw [← contains_iff] at listed
    simp only [decide_not, Bool.not_inj_iff]
    rw [Bool.eq_iff_iff, listed, decide_eq_true_eq]
  rw [getTargetNames_eq, same]
  simp

/-- The two sides agree with the blacklist on a target exactly if it is listed,
or is no part of a listed name and still fits the table of targets. -/
theorem blacklist_agrees_iff {targets : List Name} {cfg : Libgen.Config} {s : Libgen.Process}
    (lists : Lists cfg.blacklist names) (clean : ∀ n ∈ names, colon ∉ n)
    (wellFormed : ∀ t ∈ targets, t ≠ [] ∧ colon ∉ t) (target : f ∈ targets)
    (recording : (cfg.userRecording || cfg.recording) = true) (fresh : f ∉ s.recordedFunctions) :
    ((f ∉ getTargetNames cfg.blacklist [] targets ↔ f ∈ names) ∧
      (Libgen.shouldRecord cfg f s = false ↔ f ∈ names)) ↔
    (f ∈ names ∨ (∀ n ∈ names, ¬ f <:+: n) ∧ f ∈ (targets.filter (· ∉ names)).take maxTargets) := by
  obtain ⟨nonempty, free⟩ := wellFormed f target
  have kept : f ∈ getTargetNames cfg.blacklist [] targets ↔ _ := mem_getTargetNames lists clean wellFormed
  have suppressed : Libgen.shouldRecord cfg f s = false ↔ ∃ n ∈ names, f <:+: n := by
    rw [← lists.occurs_iff free nonempty, ← contains_iff]
    simp [Libgen.shouldRecord, recording, fresh]
  rw [kept, suppressed]
  constructor
  · rintro ⟨drops, refuses⟩
    by_cases listed : f ∈ names
    · exact .inl listed
    · refine .inr ⟨fun n member inside => listed (refuses.mp ⟨n, member, inside⟩), ?_⟩
      by_contra dropped
      exact listed (drops.mp dropped)
  · rintro (listed | ⟨apart, fits⟩)
    · refine ⟨iff_of_true (fun inside => ?_) listed, iff_of_true ⟨f, listed, List.infix_rfl⟩ listed⟩
      have unlisted := List.mem_of_mem_take inside
      simp [listed] at unlisted
    · have unlisted : f ∉ names := fun listed => apart f listed List.infix_rfl
      refine ⟨iff_of_false (not_not_intro fits) unlisted, iff_of_false ?_ unlisted⟩
      rintro ⟨n, member, inside⟩
      exact apart n member inside

end Lists

/-- A process that records, under a given blacklist. -/
def recordingUnder (blacklist : Name) : Libgen.Config where
  userTarget := []
  userRecording := false
  recording := true
  currentTarget := none
  blacklist := blacklist
  exitOnMaxCalls := false
  maxCalls := 0
  maxFuzz := 1
  userConstraints := []

def freshProcess : Libgen.Process where
  inFuzz := false
  currentCalls := 0
  fuzzIdx := 0
  shadowName := none
  shadowRecurse := 0
  recordedFunctions := []
  record := ⟨fun _ => 0, 0, false, []⟩
  bufOffset := 0
  heap := ⟨fun _ => 0, fun _ => false, [], []⟩

theorem blacklist_agrees_on_put :
    (ascii "put" ∉ getTargetNames (recordingUnder (ascii ":get_value::put:")).blacklist []
          [ascii "get_value", ascii "put"] ↔ ascii "put" ∈ [ascii "get_value", ascii "put"]) ∧
      (Libgen.shouldRecord (recordingUnder (ascii ":get_value::put:")) (ascii "put") freshProcess = false ↔
        ascii "put" ∈ [ascii "get_value", ascii "put"]) := by
  have lists : Lists (recordingUnder (ascii ":get_value::put:")).blacklist [ascii "get_value", ascii "put"] :=
    .appended (ascii "put") (.joined [ascii "get_value"])
  refine (blacklist_agrees_iff lists ?_ ?_ ?_ rfl ?_).mpr (.inl ?_) <;> decide +kernel

/-- With `get_value` blacklisted, afl-fuzz waits for a seed of `get` that libgen
never records. -/
theorem infix_of_listed_name_suppressed :
    Lists (ascii ":get_value:") [ascii "get_value"] ∧ ascii "get" ∉ [ascii "get_value"] ∧
      ascii "get" ∈ getTargetNames (ascii ":get_value:") [] [ascii "get", ascii "get_value"] ∧
      Libgen.shouldRecord (recordingUnder (ascii ":get_value:")) (ascii "get") freshProcess = false :=
  ⟨.joined [ascii "get_value"], by decide +kernel, by decide +kernel, by decide +kernel⟩

end AflLive.Fuzz
