import AflLive.Libgen.GenValues
import AflLive.Library.Runs

/-! The shadow execution between `gen_values` and `__ah_epilogue`, over traces of entries and
returns of harnessed functions. -/
namespace AflLive.Libgen
open Control

def beforeLoop (s : Process) : Process := { s with inFuzz := false, currentCalls := 0, fuzzIdx := 0 }

/-- `__ah_epilogue`. -/
def epilogue (cfg : Config) (exitOnReturn : Bool) (fnName : Name) (s : Process) : Except Fault Process :=
  if exitOnReturn && !cfg.recording && s.inFuzz && s.shadowName == some fnName then
    let recurse := (s.shadowRecurse + 2 ^ 32 - 1) % 2 ^ 32
    if recurse = 0 then .error .exit else .ok { s with shadowRecurse := recurse }
  else .ok s

/-- What a call of `gen_values` may leave in memory. -/
structure Memory where
  record : Recording
  bufOffset : Nat
  heap : Heap

inductive Visit where
  | enter (fnName : Name) (memory : Memory)
  | leave (fnName : Name)

/-- The decisions of `gen_values`, with any outcome of its work on the arguments. -/
def enter (cfg : Config) (fnName : Name) (memory : Memory) (s : Process) : Except Fault Process := do
  let s ← countCall cfg fnName s
  let record := shouldRecord cfg fnName s
  let fuzz := shouldFuzz cfg fnName s
  let s := if fuzz then startFuzz fnName s else s
  let s := if record then startRecord fnName s else s
  return { s with record := memory.record, bufOffset := memory.bufOffset, heap := memory.heap }

/-- There is no state after an exit. -/
def visit (cfg : Config) (exitOnReturn : Bool) (s : Process) : Visit → Option Process
  | .enter fnName memory => (enter cfg fnName memory s).toOption
  | .leave fnName => (epilogue cfg exitOnReturn fnName s).toOption

/-- Only the memory differs. -/
def SameControl (s t : Process) : Prop :=
  t = { s with record := t.record, bufOffset := t.bufOffset, heap := t.heap }

section
variable {P : Platform} {structs : Nat → StructType} {types : List Ty} {setup : Setup} {fuel : Nat} {s t u : Process}

theorem SameControl.trans (first : SameControl s t) (second : SameControl t u) : SameControl s u := by
  rw [SameControl, second, first]

theorem recordArgs_control {previous : Nat} (ran : recordArgs P structs types setup fuel previous s = .ok t) :
    SameControl s t := by
  simp only [recordArgs, bind_eq_ok] at ran
  obtain ⟨r, _, done⟩ := ran
  split at done
  · exact Except.ok.inj done ▸ rfl
  · exact Except.ok.inj done ▸ rfl

theorem populateArgs_control {buffer : Image} {bufferSize : Nat}
    (ran : populateArgs P structs types setup fuel buffer bufferSize s = .ok t) : SameControl s t := by
  simp only [populateArgs, bind_eq_ok] at ran
  obtain ⟨r, _, done⟩ := ran
  exact Except.ok.inj done ▸ rfl

theorem finishRecord_control (previous : Nat) (s : Process) : SameControl s (finishRecord previous s) := by
  simp only [finishRecord]
  split
  · rfl
  · rfl

/-- A call that returns is an entry of the trace. -/
theorem genValues_enters {info : TypeInfo} {cfg : Config} {buffer : Image} {bufferSize : Nat} {fnName : Name}
    {slots : List Nat} (ran : genValues P info cfg fuel buffer bufferSize fnName slots s = .ok t) :
    enter cfg fnName ⟨t.record, t.bufOffset, t.heap⟩ s = .ok t := by
  simp only [genValues, bind_eq_ok] at ran
  obtain ⟨u, counted, rest⟩ := ran
  simp only [enter, counted, ok_bind]
  generalize (if shouldFuzz cfg fnName u = true then startFuzz fnName u else u) = v at *
  generalize (if shouldRecord cfg fnName u = true then startRecord fnName v else v) = w at *
  refine congrArg Except.ok (Eq.symm ?_)
  change SameControl w t
  split at rest
  · simp only [bind_eq_ok] at rest
    obtain ⟨setup, _, x, recorded, y, populated, done⟩ := rest
    have first : SameControl w x := by
      split at recorded
      · have moved : SameControl w
            { w with record := { w.record with offset := (w.record.offset + 4) % 2 ^ 32 } } := rfl
        exact moved.trans (recordArgs_control recorded)
      · exact Except.ok.inj recorded ▸ rfl
    have second : SameControl x y := by
      split at populated
      · exact populateArgs_control populated
      · exact Except.ok.inj populated ▸ rfl
    obtain rfl := Except.ok.inj done
    split
    · exact (first.trans second).trans (finishRecord_control _ y)
    · exact first.trans second
  · exact Except.ok.inj rest ▸ rfl

end

/-- Every entry is followed by its return. -/
inductive Balanced : List Visit → Prop where
  | nil : Balanced []
  | call : Balanced body → Balanced rest → Balanced (.enter fnName memory :: body ++ .leave fnName :: rest)

/-- An entry that leaves the shadow execution to the function that runs in it: it is neither
recorded nor gets new arguments, it is not one call too many, and it is no recursion
`2^32` deep. -/
def Quiet (cfg : Config) (s : Process) : Visit → Prop
  | .enter fnName _ => (countCall cfg fnName s).isOk = true ∧ shouldRecord cfg fnName s = false ∧
      shouldFuzz cfg fnName s = false ∧ (s.shadowName = some fnName → s.shadowRecurse ≠ 0)
  | .leave _ => True

/-- What an entry leaves, apart from memory. -/
structure Entered (fnName : Name) (s t : Process) : Prop where
  inFuzz : t.inFuzz = true
  shadowName : t.shadowName = s.shadowName
  shadowRecurse : t.shadowRecurse = if s.shadowName = some fnName then (s.shadowRecurse + 1) % 2 ^ 32 else s.shadowRecurse
  recordedFunctions : t.recordedFunctions = s.recordedFunctions

section
variable {cfg : Config} {s t : Process} {fnName : Name} {memory : Memory}

theorem Entered.small (entered : Entered fnName s t) (small : s.shadowRecurse < 2 ^ 32) : t.shadowRecurse < 2 ^ 32 := by
  rw [entered.shadowRecurse]
  split
  · exact Nat.mod_lt _ (by decide)
  · exact small

theorem countCall_entered (running : s.inFuzz = true) (counted : countCall cfg fnName s = .ok t) :
    Entered fnName s t := by
  simp only [countCall, running, if_true] at counted
  generalize (if cfg.exitOnMaxCalls then (s.currentCalls + 1) % 2 ^ 32 else s.currentCalls) = calls at counted
  split at counted
  · cases counted
  · obtain rfl := Except.ok.inj counted
    exact ⟨rfl, rfl, rfl, rfl⟩

theorem decisions_counted (counted : countCall cfg fnName s = .ok t) :
    shouldRecord cfg fnName t = shouldRecord cfg fnName s ∧ shouldFuzz cfg fnName t = shouldFuzz cfg fnName s := by
  have spec := countCall_ensures cfg fnName s
  rw [counted] at spec
  exact spec.2.2.2

/-- An entry during the shadow execution is quiet, or takes it over, to be fuzzed or to be
recorded. -/
theorem enter_cases (running : s.inFuzz = true) (ran : enter cfg fnName memory s = .ok t) :
    (countCall cfg fnName s).isOk = true ∧ t.inFuzz = true ∧ (s.shadowRecurse < 2 ^ 32 → t.shadowRecurse < 2 ^ 32) ∧
      ((shouldRecord cfg fnName s = false ∧ shouldFuzz cfg fnName s = false ∧ Entered fnName s t) ∨
        (t.shadowName = some fnName ∧ t.shadowRecurse = 1 ∧ t.recordedFunctions = s.recordedFunctions) ∨
        (shouldRecord cfg fnName s = true ∧ t.shadowName = some fnName ∧
          t.recordedFunctions = fnName :: s.recordedFunctions)) := by
  simp only [enter, bind_eq_ok] at ran
  obtain ⟨u, counted, done⟩ := ran
  have entered := countCall_entered running counted
  obtain ⟨record, fuzz⟩ := decisions_counted counted
  rw [record, fuzz] at done
  obtain rfl := Except.ok.inj done
  refine ⟨by rw [counted]; rfl, ?_⟩
  cases fuzzed : shouldFuzz cfg fnName s with
  | true =>
    have unrecorded := shouldFuzz_not_record fuzzed
    simp only [unrecorded, Bool.false_eq_true, if_false, if_true]
    exact ⟨rfl, fun _ => (by decide : 1 < 2 ^ 32), .inr (.inl ⟨rfl, rfl, entered.recordedFunctions⟩)⟩
  | false =>
    cases recorded : shouldRecord cfg fnName s with
    | true =>
      simp only [Bool.false_eq_true, if_false, if_true]
      refine ⟨entered.inFuzz, entered.small, .inr (.inr ⟨trivial, rfl, ?_⟩)⟩
      exact congrArg _ entered.recordedFunctions
    | false =>
      simp only [Bool.false_eq_true, if_false]
      exact ⟨entered.inFuzz, entered.small, .inl ⟨trivial, trivial, entered.inFuzz, entered.shadowName,
        entered.shadowRecurse, entered.recordedFunctions⟩⟩

theorem enter_quiet (running : s.inFuzz = true) (quiet : Quiet cfg s (.enter fnName memory)) :
    ∃ t, visit cfg true s (.enter fnName memory) = some t ∧ Entered fnName s t := by
  obtain ⟨counts, unrecorded, unfuzzed, _⟩ := quiet
  cases counted : countCall cfg fnName s with
  | error fault => simp [counted, Except.isOk, Except.toBool] at counts
  | ok u =>
    have entered := countCall_entered running counted
    obtain ⟨record, fuzz⟩ := decisions_counted counted
    refine ⟨{ u with record := memory.record, bufOffset := memory.bufOffset, heap := memory.heap }, ?_,
      entered.inFuzz, entered.shadowName, entered.shadowRecurse, entered.recordedFunctions⟩
    simp [visit, enter, counted, ok_bind, record, fuzz, unrecorded, unfuzzed, Except.toOption, pure, Except.pure]

theorem visit_enter : visit cfg true s (.enter fnName memory) = some t ↔ enter cfg fnName memory s = .ok t := by
  cases called : enter cfg fnName memory s <;> simp [visit, called, Except.toOption]

/-- A return of another function than the one that runs in the shadow. -/
theorem leave_other (other : s.shadowName ≠ some fnName) : visit cfg true s (.leave fnName) = some s := by
  simp [visit, epilogue, other, Except.toOption]

/-- A return of the function that runs in the shadow: one activation less, or the exit. -/
theorem leave_same (outside : cfg.recording = false) (running : s.inFuzz = true) (same : s.shadowName = some fnName) :
    visit cfg true s (.leave fnName) = if (s.shadowRecurse + 2 ^ 32 - 1) % 2 ^ 32 = 0 then none
      else some { s with shadowRecurse := (s.shadowRecurse + 2 ^ 32 - 1) % 2 ^ 32 } := by
  simp only [visit, epilogue, outside, running, same, Bool.not_false, Bool.and_self, beq_self_eq_true, if_true]
  split <;> rfl

/-- The return undoes what the entry did. -/
theorem recurse_restored {r : Nat} (small : r < 2 ^ 32) : ((r + 1) % 2 ^ 32 + 2 ^ 32 - 1) % 2 ^ 32 = r := by
  omega

/-- The same function runs in the shadow, in as many activations. -/
structure Kept (s t : Process) : Prop where
  inFuzz : t.inFuzz = true
  shadowName : t.shadowName = s.shadowName
  shadowRecurse : t.shadowRecurse = s.shadowRecurse
  recordedFunctions : t.recordedFunctions = s.recordedFunctions

theorem Kept.trans {u : Process} (first : Kept s t) (second : Kept t u) : Kept s u where
  inFuzz := second.inFuzz
  shadowName := second.shadowName.trans first.shadowName
  shadowRecurse := second.shadowRecurse.trans first.shadowRecurse
  recordedFunctions := second.recordedFunctions.trans first.recordedFunctions

/-- After a quiet entry and a body that keeps everything, the return does what it should. -/
theorem leave_kept {u : Process} (outside : cfg.recording = false) (small : s.shadowRecurse < 2 ^ 32)
    (entered : Entered fnName s t) (kept : Kept t u) :
    visit cfg true u (.leave fnName) = if s.shadowName = some fnName ∧ s.shadowRecurse = 0 then none
      else some { u with shadowRecurse := s.shadowRecurse } := by
  have name := kept.shadowName.trans entered.shadowName
  have recurse := kept.shadowRecurse.trans entered.shadowRecurse
  by_cases same : s.shadowName = some fnName
  · rw [if_pos same] at recurse
    rw [leave_same outside kept.inFuzz (name.trans same), recurse, recurse_restored small]
    simp [same]
  · rw [if_neg same] at recurse
    rw [leave_other (name ▸ same), if_neg (fun both => same both.1), ← recurse]

/-- Balanced visits that are quiet change nothing about the shadow execution. -/
theorem run_quiet {trace : List Visit} (outside : cfg.recording = false) (balanced : Balanced trace)
    (running : s.inFuzz = true) (small : s.shadowRecurse < 2 ^ 32)
    (quiet : Runs.Along (visit cfg true) (Quiet cfg) s trace) :
    ∃ t, Runs.run (visit cfg true) s trace = some t ∧ Kept s t := by
  induction balanced generalizing s with
  | nil => exact ⟨s, rfl, running, rfl, rfl, rfl⟩
  | @call body rest fnName memory _ _ first second =>
    rw [List.cons_append] at quiet ⊢
    obtain ⟨t, came, entered⟩ := enter_quiet running quiet.1
    have inner := quiet.2 t came
    rw [Runs.along_append] at inner
    obtain ⟨u, ran, kept⟩ := first entered.inFuzz (entered.small small) inner.1
    have left := leave_kept outside small entered kept
    rw [if_neg fun both => quiet.1.2.2.2 both.1 both.2] at left
    have whole : Kept s { u with shadowRecurse := s.shadowRecurse } :=
      ⟨kept.inFuzz, kept.shadowName.trans entered.shadowName, rfl,
        kept.recordedFunctions.trans entered.recordedFunctions⟩
    obtain ⟨v, last, kept'⟩ := second whole.inFuzz small ((inner.2 u ran).2 _ left)
    refine ⟨v, ?_, whole.trans kept'⟩
    exact Runs.run_cons.mpr ⟨t, came, Runs.run_append.mpr ⟨u, ran, Runs.run_cons.mpr ⟨_, left, last⟩⟩⟩

/-- Somebody recorded since then has the shadow execution. -/
def TakenOver (cfg : Config) (s t : Process) : Prop :=
  ∃ fnName, t.shadowName = some fnName ∧ shouldRecord cfg fnName s = true

/-- What holds after balanced visits that did not end the process. -/
structure Survived (cfg : Config) (s : Process) (trace : List Visit) (t : Process) : Prop where
  inFuzz : t.inFuzz = true
  small : t.shadowRecurse < 2 ^ 32
  recorded : s.recordedFunctions ⊆ t.recordedFunctions
  either : Runs.Along (visit cfg true) (Quiet cfg) s trace ∧ Kept s t ∨ TakenOver cfg s t

theorem shouldRecord_of_subset (grows : s.recordedFunctions ⊆ t.recordedFunctions)
    (later : shouldRecord cfg fnName t = true) : shouldRecord cfg fnName s = true := by
  simp only [shouldRecord, Bool.and_eq_true, Bool.not_eq_true', List.contains_eq_mem,
    decide_eq_false_iff_not] at later ⊢
  exact ⟨⟨later.1.1, fun inside => later.1.2 (grows inside)⟩, later.2⟩

theorem leave_frame (outside : cfg.recording = false) (running : s.inFuzz = true) (small : s.shadowRecurse < 2 ^ 32)
    (left : visit cfg true s (.leave fnName) = some t) :
    t.inFuzz = true ∧ t.shadowRecurse < 2 ^ 32 ∧ t.shadowName = s.shadowName ∧
      t.recordedFunctions = s.recordedFunctions := by
  by_cases same : s.shadowName = some fnName
  · rw [leave_same outside running same] at left
    split at left
    · cases left
    · obtain rfl := Option.some.inj left
      exact ⟨running, Nat.mod_lt _ (by decide), rfl, rfl⟩
  · rw [leave_other same] at left
    obtain rfl := Option.some.inj left
    exact ⟨running, small, rfl, rfl⟩

/-- What was taken over in the middle stays so. -/
theorem Survived.after {u : Process} {rest : List Visit} (later : Survived cfg t rest u)
    (grows : s.recordedFunctions ⊆ t.recordedFunctions) (taken : TakenOver cfg s t) : TakenOver cfg s u := by
  rcases later.either with ⟨_, kept⟩ | ⟨fnName, name, record⟩
  · obtain ⟨fnName, name, record⟩ := taken
    exact ⟨fnName, kept.shadowName.trans name, record⟩
  · exact ⟨fnName, name, shouldRecord_of_subset grows record⟩

/-- Balanced visits that do not end the process are quiet, or somebody recorded takes over: an
activation that gets new arguments would end it with its return. -/
theorem run_survived {trace : List Visit} (outside : cfg.recording = false) (balanced : Balanced trace)
    (running : s.inFuzz = true) (small : s.shadowRecurse < 2 ^ 32)
    (ran : Runs.run (visit cfg true) s trace = some t) : Survived cfg s trace t := by
  induction balanced generalizing s t with
  | nil =>
    obtain rfl := Option.some.inj ran
    exact ⟨running, small, List.Subset.refl _, .inl ⟨trivial, running, rfl, rfl, rfl⟩⟩
  | @call body rest fnName memory _ _ first second =>
    rw [List.cons_append] at ran
    obtain ⟨t₁, came, ran⟩ := Runs.run_cons.mp ran
    obtain ⟨t₂, inner, ran⟩ := Runs.run_append.mp ran
    obtain ⟨t₃, left, last⟩ := Runs.run_cons.mp ran
    obtain ⟨counts, inFuzz₁, small₁, entry⟩ := enter_cases running (visit_enter.mp came)
    have body := first inFuzz₁ (small₁ small) inner
    obtain ⟨inFuzz₃, small₃, name₃, recorded₃⟩ := leave_frame outside body.inFuzz body.small left
    have later := second inFuzz₃ small₃ last
    have grows₁ : s.recordedFunctions ⊆ t₁.recordedFunctions := by
      rcases entry with ⟨_, _, entered⟩ | ⟨_, _, same⟩ | ⟨_, _, added⟩
      · rw [entered.recordedFunctions]
        exact List.Subset.refl _
      · rw [same]
        exact List.Subset.refl _
      · rw [added]
        exact List.subset_cons_self _ _
    have grows₃ : s.recordedFunctions ⊆ t₃.recordedFunctions :=
      recorded₃ ▸ List.Subset.trans grows₁ body.recorded
    refine ⟨later.inFuzz, later.small, List.Subset.trans grows₃ later.recorded, ?_⟩
    have onward : TakenOver cfg s t₂ → TakenOver cfg s t := by
      rintro ⟨other, name, record⟩
      exact later.after grows₃ ⟨other, name₃.trans name, record⟩
    rcases body.either with ⟨quiet, kept⟩ | ⟨other, name, record⟩
    · rcases entry with ⟨unrecorded, unfuzzed, entered⟩ | ⟨name, one, _⟩ | ⟨record, name, _⟩
      · have returned := left
        rw [leave_kept outside small entered kept] at returned
        split at returned
        · cases returned
        · next deep =>
          obtain rfl := Option.some.inj returned
          have whole : Kept s { t₂ with shadowRecurse := s.shadowRecurse } :=
            ⟨kept.inFuzz, kept.shadowName.trans entered.shadowName, rfl,
              kept.recordedFunctions.trans entered.recordedFunctions⟩
          rcases later.either with ⟨quiet', kept'⟩ | ⟨other, name, record⟩
          · refine .inl ⟨⟨⟨counts, unrecorded, unfuzzed, fun same zero => deep ⟨same, zero⟩⟩, ?_⟩, whole.trans kept'⟩
            intro v is
            obtain rfl := Option.some.inj (came.symm.trans is)
            refine Runs.along_append.mpr ⟨quiet, fun w reached => ⟨trivial, fun x is => ?_⟩⟩
            obtain rfl := Option.some.inj (inner.symm.trans reached)
            obtain rfl := Option.some.inj (left.symm.trans is)
            exact quiet'
          · exact .inr ⟨other, name, shouldRecord_of_subset grows₃ record⟩
      · -- the return of an activation with new arguments would end the process
        rw [leave_same outside kept.inFuzz (kept.shadowName.trans name), kept.shadowRecurse, one] at left
        simp at left
      · exact .inr (onward ⟨fnName, kept.shadowName.trans name, record⟩)
    · exact .inr (onward ⟨other, name, shouldRecord_of_subset grows₁ record⟩)

end

/-- The process outlives the trace and ends with the return of the function. -/
def ExitsAtReturn (cfg : Config) (s : Process) (trace : List Visit) (fnName : Name) : Prop :=
  ∃ t, Runs.run (visit cfg true) s trace = some t ∧ visit cfg true t (.leave fnName) = none

/-- With `exit_on_ret`, outside the recording phase: the first activation that gets new
arguments ends the process with its return exactly if everything it calls is quiet. -/
theorem exits_at_return_iff {cfg : Config} (outside : cfg.recording = false) {s entered : Process}
    {before body : List Visit} {fnName : Name} {memory : Memory}
    (ran : Runs.run (visit cfg true) (beforeLoop s) before = some entered) (unfuzzed : entered.inFuzz = false)
    (fuzz : shouldFuzz cfg fnName entered = true) (balanced : Balanced body) :
    ExitsAtReturn cfg (beforeLoop s) (before ++ .enter fnName memory :: body) fnName ↔
      ∀ started ∈ visit cfg true entered (.enter fnName memory),
        Runs.Along (visit cfg true) (Quiet cfg) started body := by
  have unrecorded := shouldFuzz_not_record fuzz
  obtain ⟨started, came, inFuzz, name, one, recorded⟩ : ∃ started,
      visit cfg true entered (.enter fnName memory) = some started ∧ started.inFuzz = true ∧
      started.shadowName = some fnName ∧ started.shadowRecurse = 1 ∧
      started.recordedFunctions = entered.recordedFunctions := by
    refine ⟨{ startFuzz fnName entered with
      record := memory.record
      bufOffset := memory.bufOffset
      heap := memory.heap }, ?_, rfl, rfl, rfl, rfl⟩
    simp [visit_enter, enter, countCall, unfuzzed, ok_bind, fuzz, unrecorded, pure, Except.pure]
  have small : started.shadowRecurse < 2 ^ 32 := one ▸ (by decide)
  have whole : ∀ t, Runs.run (visit cfg true) (beforeLoop s) (before ++ .enter fnName memory :: body) = some t ↔
      Runs.run (visit cfg true) started body = some t := by
    intro t
    rw [Runs.run_append]
    constructor
    · rintro ⟨_, first, rest⟩
      obtain rfl := Option.some.inj (ran.symm.trans first)
      obtain ⟨_, is, rest⟩ := Runs.run_cons.mp rest
      obtain rfl := Option.some.inj (came.symm.trans is)
      exact rest
    · intro rest
      exact ⟨entered, ran, Runs.run_cons.mpr ⟨started, came, rest⟩⟩
  simp only [ExitsAtReturn, whole, came, Option.mem_def, Option.some.injEq, forall_eq']
  constructor
  · rintro ⟨t, reached, exited⟩
    have survived := run_survived outside balanced inFuzz small reached
    rcases survived.either with ⟨quiet, _⟩ | ⟨other, taken, record⟩
    · exact quiet
    · -- the exit needs the name of the function, which cannot have been recorded since
      have own : t.shadowName = some fnName := by
        by_contra differs
        rw [leave_other differs] at exited
        cases exited
      obtain rfl := Option.some.inj (taken.symm.trans own)
      have grows : entered.recordedFunctions ⊆ started.recordedFunctions := by
        rw [recorded]
        exact List.Subset.refl _
      have earlier := shouldRecord_of_subset grows record
      rw [unrecorded] at earlier
      cases earlier
  · intro quiet
    obtain ⟨t, reached, kept⟩ := run_quiet outside balanced inFuzz small quiet
    refine ⟨t, reached, ?_⟩
    rw [leave_same outside kept.inFuzz (kept.shadowName.trans name), kept.shadowRecurse, one]
    rfl

/-- By default, without `force_recording`, `max_fuzz` and `max_calls`, all visits are quiet. -/
theorem quiet_by_default {cfg : Config} (plain : cfg.userRecording = false) (outside : cfg.recording = false)
    (once : cfg.maxFuzz ≤ 1) (unlimited : cfg.exitOnMaxCalls = false) {s : Process} {trace : List Visit}
    (running : s.inFuzz = true) (begun : 1 ≤ s.fuzzIdx) (active : s.shadowRecurse ≠ 0)
    (short : s.shadowRecurse + trace.length < 2 ^ 32) : Runs.Along (visit cfg true) (Quiet cfg) s trace := by
  induction trace generalizing s with
  | nil => trivial
  | cons event trace ih =>
    rw [List.length_cons] at short
    cases event with
    | enter fnName memory =>
      have unrecorded : shouldRecord cfg fnName s = false := by simp [shouldRecord, plain, outside]
      have unfuzzed : shouldFuzz cfg fnName s = false := by
        simp only [shouldFuzz, running, Bool.not_true, Bool.false_or, Bool.and_eq_false_imp, decide_eq_false_iff_not]
        omega
      have counted : countCall cfg fnName s = .ok { s with
          shadowRecurse :=
            if s.shadowName = some fnName then (s.shadowRecurse + 1) % 2 ^ 32 else s.shadowRecurse } := by
        simp [countCall, running, unlimited]
      have quiet : Quiet cfg s (.enter fnName memory) := ⟨by rw [counted]; rfl, unrecorded, unfuzzed, fun _ => active⟩
      refine ⟨quiet, fun t came => ?_⟩
      have called := visit_enter.mp came
      simp only [enter, counted, ok_bind, (decisions_counted counted).1, (decisions_counted counted).2, unrecorded,
        unfuzzed, Bool.false_eq_true, if_false] at called
      obtain rfl := Except.ok.inj called
      apply ih
      · exact running
      · exact begun
      · dsimp only
        split <;> omega
      · dsimp only
        split <;> omega
    | leave fnName =>
      refine ⟨trivial, fun t left => ?_⟩
      by_cases same : s.shadowName = some fnName
      · rw [Option.mem_def, leave_same outside running same] at left
        split at left
        · cases left
        · next more =>
          obtain rfl := Option.some.inj left
          exact ih running begun more (by dsimp only; omega)
      · rw [Option.mem_def, leave_other same] at left
        obtain rfl := Option.some.inj left
        exact ih running begun active (by omega)

/-- An empty process, and memory nothing was written to. -/
def noMemory : Memory := ⟨⟨fun _ => 0, 0, false, []⟩, 0, ⟨fun _ => 0, fun _ => false, [], []⟩⟩

def freshProcess : Process where
  inFuzz := false
  currentCalls := 0
  fuzzIdx := 0
  shadowName := none
  shadowRecurse := 0
  recordedFunctions := []
  record := noMemory.record
  bufOffset := 0
  heap := noMemory.heap

/-- A config with a target, `force_recording` and `max_fuzz`. -/
def shadowConfig (target : Name) (userRecording : Bool) (maxFuzz : Nat) : Config where
  userTarget := target
  userRecording := userRecording
  recording := false
  currentTarget := none
  blacklist := []
  exitOnMaxCalls := false
  maxCalls := 5
  maxFuzz := maxFuzz
  userConstraints := []

/-- `f`, which calls itself and `g`, is fuzzed when it is called after `g`. -/
theorem exits_at_outer_return :
    ExitsAtReturn (shadowConfig (ascii "f") false 1) (beforeLoop freshProcess)
      ([.enter (ascii "g") noMemory, .leave (ascii "g")] ++ .enter (ascii "f") noMemory ::
        [.enter (ascii "f") noMemory, .enter (ascii "g") noMemory, .leave (ascii "g"), .leave (ascii "f")]) (ascii "f") := by
  have nested : Balanced
      [.enter (ascii "f") noMemory, .enter (ascii "g") noMemory, .leave (ascii "g"), .leave (ascii "f")] :=
    .call (.call .nil .nil) .nil
  have ran : Runs.run (visit (shadowConfig (ascii "f") false 1) true) (beforeLoop freshProcess)
      [.enter (ascii "g") noMemory, .leave (ascii "g")] = some (beforeLoop freshProcess) := rfl
  refine (exits_at_return_iff rfl ran rfl (by decide) nested).mpr fun started came => ?_
  obtain rfl := Option.some.inj came
  exact quiet_by_default rfl rfl (by decide) rfl rfl (by decide) (by decide) (by decide)

/-- With `max_fuzz` 2 the return of the inner call ends the process, and with
`force_recording` the return of a function that was called for the first time. -/
theorem exits_at_inner_return :
    Runs.run (visit (shadowConfig (ascii "f") false 2) true) (beforeLoop freshProcess)
        [.enter (ascii "f") noMemory, .enter (ascii "f") noMemory, .leave (ascii "f")] = none ∧
      Runs.run (visit (shadowConfig (ascii "f") true 1) true) (beforeLoop freshProcess)
        [.enter (ascii "f") noMemory, .leave (ascii "f"), .enter (ascii "f") noMemory, .enter (ascii "g") noMemory,
          .leave (ascii "g")] = none :=
  ⟨rfl, rfl⟩

end AflLive.Libgen
