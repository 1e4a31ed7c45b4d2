import AflLive.Fuzz.DryRun

/-! The averages that scores are computed from. They are kept for each target and grow with
every calibration that runs to its end; `calculate_score` and `show_init_stats` divide by them.
A run here goes from the seeds over the dry run to the main loop with its finds and imports. -/
namespace AflLive.Fuzz.Calibrate.Scoring

/-- A calibration as `afl_fsrv_run_target` can bring it about: no single execution reports
`FSRV_RUN_NOBITS`. -/
structure Measured (n : Nat) extends Calibration n where
  dummy_bits : dummy.fault ≠ .nobits
  exec_bits : ∀ k, (exec k).fault ≠ .nobits

/-- An execution with the result `crash_mode` asks for, or a hang that `AFL_KEEP_TIMEOUTS`
keeps, as `save_if_interesting` meets it. -/
structure Find (n : Nat) where
  len : Nat
  traceBits : Bitmap n
  keepTimeout : Bool := false
  calibration : Measured n

/-- `rest` are the seeds the dry run has not come to. -/
inductive Phase where
  | loading
  | dryRun (rest : List QueueEntry)
  | fuzzing
  | stopped
deriving DecidableEq

/-- `current` is the entry that `fuzz_one` works on, once it is past the calibration. -/
structure Fuzzer (n : Nat) where
  phase : Phase := .loading
  queue : List QueueEntry := []
  dry : DryRun n
  current : Option Nat := none

inductive Event (n : Nat) where
  | addSeed (len target : Nat)
  | startDryRun
  | drySeed (c : Measured n)
  | finishDryRun
  | showInitStats
  | createMultiAliasTable
  | createSingleAliasTable
  | fuzzOne (i : Nat) (c : Measured n)
  | calculateScore
  | find (f : Find n)
  | imported (target : Nat) (f : Find n)

def maxTargets : Nat := 256

namespace Fuzzer
variable (cfg : DryRunSettings n)

/-- The entry that `save_if_interesting` adds, with the globals it is calibrated in; nothing for
an input that is not kept. -/
def keeps (target : Nat) (f : Find n) (s : Fuzzer n) : Option (QueueEntry × Afl n) :=
  if f.len = 0 then none
  else
    let trace := classifyCounts f.traceBits
    let (newBits, virginBits) := hasNewBits trace s.dry.afl.virginBits
    if newBits = 0 ∧ f.keepTimeout = false then none
    else some ({ len := f.len, targetFunctionIdx := target, execCksum := cfg.hash64 trace, hasNewCov := newBits == 2 },
      { s.dry.afl with
        virginBits := virginBits
        traceBits := trace
        queuedWithCov := s.dry.afl.queuedWithCov + if newBits = 2 then 1 else 0 })

/-- The calibration of a new entry may be cut off by `stop_soon`, but nothing here tests it: after
an import the round goes on to the tables and to `fuzz_one`. -/
def saveIfInteresting (target : Nat) (f : Find n) (s : Fuzzer n) : Option (Fuzzer n) :=
  match s.keeps cfg target f with
  | none => some s
  | some (q, afl) =>
    let r := calibrateCase cfg.toSettings f.calibration.toCalibration q afl
    if r.fault = .error then none
    else some { s with queue := s.queue ++ [r.entry], dry := { s.dry with afl := r.afl } }

/-- One round of `perform_dry_run`, which returns at once on `stop_soon`. -/
def dryStep (c : Measured n) (q : QueueEntry) (rest : List QueueEntry) (s : Fuzzer n) : Option (Fuzzer n) :=
  match drySeed cfg q c.toCalibration s.dry with
  | .ok (q, d) => some { s with queue := s.queue ++ [q], dry := d, phase := .dryRun rest }
  | .error .stopped =>
    let r := calibrateCase cfg.toSettings c.toCalibration q s.dry.afl
    some { s with queue := s.queue ++ r.entry :: rest, dry := { s.dry with afl := r.afl }, phase := .stopped }
  | .error (.fatal _) => none

/-- `fuzz_one` up to the end of its calibration stage. -/
def beginOne (i : Nat) (c : Measured n) (s : Fuzzer n) : Option (Fuzzer n) := do
  let q ← s.queue[i]?
  if q.calFailed = 0 then return { s with current := some i }
  else if q.calFailed < calChances then
    let r := calibrateCase cfg.toSettings c.toCalibration { q with execCksum := 0 } s.dry.afl
    if r.fault = .error then none
    else
      let s := { s with queue := s.queue.set i r.entry, dry := { s.dry with afl := r.afl }, current := none }
      if r.ending.stopped || c.stopSoon then return { s with phase := .stopped }
      else if r.fault ≠ cfg.expected then return s
      else return { s with current := some i }
  else return { s with current := none }

def step (s : Fuzzer n) : Event n → Option (Fuzzer n)
  | .addSeed len target =>
    -- an empty file is passed over
    if s.phase = .loading ∧ len ≠ 0 then
      some { s with queue := s.queue ++ [{ len := len, targetFunctionIdx := target }] }
    else none
  | .startDryRun => if s.phase = .loading then some { s with phase := .dryRun s.queue, queue := [] } else none
  | .drySeed c =>
    match s.phase with
    | .dryRun (q :: rest) => s.dryStep cfg c q rest
    | _ => none
  | .finishDryRun =>
    if s.phase = .dryRun [] ∧ ¬(s.dry.calFailures ≠ 0 ∧ s.dry.calFailures = s.queue.length) then
      some { s with phase := .fuzzing, queue := removeDuplicates s.queue }
    else none
  | .showInitStats => if s.phase = .fuzzing ∨ s.phase = .stopped then some s else none
  | .createMultiAliasTable | .createSingleAliasTable => if s.phase = .fuzzing then some s else none
  | .fuzzOne i c => if s.phase = .fuzzing then s.beginOne cfg i c else none
  | .calculateScore => if s.phase = .fuzzing ∧ s.current ≠ none then some s else none
  | .find f => do
    let q ← s.current.bind (s.queue[·]?)
    if s.phase = .fuzzing then s.saveIfInteresting cfg q.targetFunctionIdx f else none
  | .imported target f =>
    if s.phase = .fuzzing then { s with current := none }.saveIfInteresting cfg target f else none

/-- The two divisions of `calculate_score`. -/
def averages (afl : Afl n) (q : QueueEntry) : List Nat :=
  [afl.totalCalCycles q.targetFunctionIdx, afl.totalBitmapEntries q.targetFunctionIdx]

/-- What an event divides by. -/
def divisors (s : Fuzzer n) : Event n → List Nat
  | .createMultiAliasTable => (List.range maxTargets).flatMap fun target =>
      (s.queue.filter fun q => !q.disabled && q.targetFunctionIdx = target).flatMap (averages s.dry.afl)
  | .createSingleAliasTable => (s.queue.filter fun q => !q.disabled).flatMap (averages s.dry.afl)
  | .calculateScore => ((s.current.bind (s.queue[·]?)).toList).flatMap (averages s.dry.afl)
  | .showInitStats => (s.queue.filter fun q => s.dry.targetActive q.targetFunctionIdx).map fun q =>
      s.dry.afl.totalCalCycles q.targetFunctionIdx
  | _ => []

end Fuzzer

/-- Some calibration of the target has run to its end. -/
def Calibrated (afl : Afl n) (target : Nat) : Prop :=
  afl.totalCalCycles target ≠ 0 ∧ afl.totalBitmapEntries target ≠ 0

instance (afl : Afl n) (target : Nat) : Decidable (Calibrated afl target) := inferInstanceAs (Decidable (_ ∧ _))

/-- An import that is kept runs through its calibration, unless its target is calibrated already. -/
def Careful (cfg : DryRunSettings n) (s : Fuzzer n) : Event n → Prop
  | .imported target f => ∀ kept ∈ s.keeps cfg target f,
      let r := calibrateCase cfg.toSettings f.calibration.toCalibration kept.1 kept.2
      Calibrated s.dry.afl target ∨ r.ending = .completed
  | _ => True

instance (cfg : DryRunSettings n) (s : Fuzzer n) (event : Event n) : Decidable (Careful cfg s event) :=
  match event with
  | .imported target f => inferInstanceAs (Decidable (∀ kept ∈ s.keeps cfg target f,
      Calibrated s.dry.afl target ∨
        (calibrateCase cfg.toSettings f.calibration.toCalibration kept.1 kept.2).ending = .completed))
  | .addSeed .. | .startDryRun | .drySeed _ | .finishDryRun | .showInitStats | .createMultiAliasTable
  | .createSingleAliasTable | .fuzzOne .. | .calculateScore | .find _ => .isTrue trivial

section
variable {cfg : DryRunSettings n} {q : QueueEntry} {afl : Afl n} {r : Result n} {target : Nat}

theorem sameTotals_calibrated {a b : Afl n} (same : SameTotals a b) : Calibrated b target ↔ Calibrated a target := by
  rw [Calibrated, same.calCycles, same.bitmapEntries]
  rfl

/-- A calibration leaves no target without one. -/
theorem calibrated_mono {settings : Settings n} (outcome : Outcome settings q afl r) (held : Calibrated afl target) :
    Calibrated r.afl target := by
  cases outcome with
  | completed _ _ _ _ charged _ =>
    obtain ⟨⟨k, positive, cycles⟩, entries⟩ := charged
    rw [Calibrated, cycles, entries, Function.update_apply, Function.update_apply]
    split
    · exact ⟨by omega, by omega⟩
    · exact held
  | aborted _ _ same _ => exact (sameTotals_calibrated same).mpr held

/-- One that runs to its end leaves the target of its entry with one. -/
theorem calibrated_of_completed {settings : Settings n} (outcome : Outcome settings q afl r)
    (ending : r.ending = .completed) : Calibrated r.afl q.targetFunctionIdx := by
  cases outcome with
  | completed _ _ _ _ charged _ =>
    obtain ⟨⟨k, positive, cycles⟩, entries⟩ := charged
    rw [Calibrated, cycles, entries, Function.update_self, Function.update_self]
    exact ⟨by omega, by omega⟩
  | aborted other => cases ending.symm.trans other

/-- The result that was asked for comes from a calibration that ran to its end or was stopped. -/
theorem completed_of_expected {settings : Settings n} (outcome : Outcome settings q afl r)
    (running : r.ending.stopped = false) (expected : r.fault = settings.expected) : r.ending = .completed := by
  cases outcome with
  | completed ending => exact ending
  | @aborted stopped ending cause =>
    exfalso
    rw [ending, Ending.stopped] at running
    obtain stop | noinst | ⟨_, other⟩ := cause
    · simp [running] at stop
    · rw [noinst, Settings.expected] at expected
      split at expected <;> cases expected
    · exact other expected

theorem runStages_faults {settings : Settings n} {exec : Nat → Execution n} {fuel stageCur : Nat} {st : Stages n} :
    ∀ fault ∈ (runStages settings exec fuel stageCur st).2.faults, fault ∈ st.faults ∨ ∃ k, fault = (exec k).fault := by
  induction fuel generalizing stageCur st with
  | zero => exact fun fault member => .inl member
  | succ fuel ih =>
    intro fault member
    have executed : ∀ fault ∈ (st.execute (exec stageCur)).faults, fault ∈ st.faults ∨ ∃ k, fault = (exec k).fault := by
      intro fault member
      rcases List.mem_append.mp member with earlier | now
      · exact .inl earlier
      · exact .inr ⟨stageCur, List.mem_singleton.mp now⟩
    unfold runStages at member
    split at member
    · split at member
      · exact executed fault member
      · rcases ih fault member with before | later
        · rw [Stages.compare_faults] at before
          exact executed fault before
        · exact .inr later
    · exact .inl member

theorem measured_fault (c : Measured n) (settings : Settings n) (q : QueueEntry) (afl : Afl n) :
    ∀ fault ∈ (calibrateCase settings c.toCalibration q afl).faults, fault ≠ .nobits := by
  have ran : (calibrateCase settings c.toCalibration q afl).faults =
      (execute settings c.toCalibration (begin settings q) afl).2.faults := by
    unfold calibrateCase
    dsimp only
    split <;> rfl
  intro fault member
  rw [ran] at member
  have stages : ∀ st : Stages n, (∀ fault ∈ st.faults, fault ≠ .nobits) →
      ∀ fault ∈ (runStages settings c.exec calCyclesLong 0 st).2.faults, fault ≠ .nobits := by
    intro st before fault member
    rcases runStages_faults fault member with earlier | ⟨k, rfl⟩
    · exact before fault earlier
    · exact c.exec_bits k
  have dummy : ∀ fault ∈ [c.dummy.fault], fault ≠ .nobits := by
    intro fault only
    rw [List.mem_singleton.mp only]
    exact c.dummy_bits
  unfold execute at member
  split at member
  · dsimp only at member
    split at member
    · exact dummy fault member
    · exact stages _ dummy fault member
  · refine stages _ ?_ fault member
    rw [(@startStages_spec n settings (begin settings q) afl).2.1]
    exact fun _ impossible => absurd impossible List.not_mem_nil

/-- An entry that can be scored, now or after `fuzz_one` has let it pass, has a target with
averages. -/
def Rated (afl : Afl n) (q : QueueEntry) : Prop :=
  q.disabled = false ∨ q.calFailed = 0 → Calibrated afl q.targetFunctionIdx

/-- A seed as it is loaded. -/
def Fresh (q : QueueEntry) : Prop := q.len ≠ 0 ∧ q.disabled = false

theorem Rated.mono {afl' : Afl n} (rated : Rated afl q)
    (grows : ∀ target, Calibrated afl target → Calibrated afl' target) : Rated afl' q :=
  fun scored => grows _ (rated scored)

/-- The dry run goes on with a seed that has averages, or has disabled it. -/
theorem goesOn_rated {d d' : DryRun n} {q' : QueueEntry} (outcome : Outcome cfg.toSettings q d.afl r)
    (bits : ∀ fault ∈ r.faults, fault ≠ .nobits) (running : r.ending.stopped = false)
    (here : r.entry.targetFunctionIdx = q.targetFunctionIdx) (goesOn : GoesOn cfg r d q' d') : Rated d'.afl q' := by
  intro scored
  rw [goesOn.afl, goesOn.target, here]
  cases outcome with
  | completed ending fault ran each charged calibrated =>
    exact calibrated_of_completed (.completed ending fault ran each charged calibrated) ending
  | @aborted stopped ending cause same failed =>
    exfalso
    rw [ending, Ending.stopped] at running
    have unexpected : r.fault ∈ r.faults ∧ r.fault ≠ cfg.toSettings.expected := by
      obtain stop | noinst | last := cause
      · exact absurd stop (by simp [running])
      · exact absurd noinst goesOn.instrumented
      · exact last
    rcases scored with enabled | passed
    · rcases goesOn.kept enabled with none | expected
      · exact bits _ unexpected.1 none
      · exact unexpected.2 expected
    · exact goesOn.failed (by omega) passed

end

/-- What every step keeps. -/
structure Sound (s : Fuzzer n) : Prop where
  active : ∀ target, s.dry.targetActive target = true → Calibrated s.dry.afl target
  loading : s.phase = .loading → s.current = none ∧ ∀ q ∈ s.queue, Fresh q
  dryRun : ∀ rest, s.phase = .dryRun rest → s.current = none ∧ (∀ q ∈ rest, Fresh q) ∧ ∀ q ∈ s.queue, Rated s.dry.afl q
  fuzzing : s.phase = .fuzzing → (∀ q ∈ s.queue, Rated s.dry.afl q) ∧
    ∀ i, s.current = some i → ∃ q, s.queue[i]? = some q ∧ Calibrated s.dry.afl q.targetFunctionIdx

section
variable {cfg : DryRunSettings n} {s t : Fuzzer n}

/-- A state the dry run or the main loop ends in. -/
theorem Sound.stop (active : ∀ target, s.dry.targetActive target = true → Calibrated s.dry.afl target)
    (stopped : s.phase = .stopped) : Sound s where
  active := active
  loading := fun phase => by cases stopped.symm.trans phase
  dryRun := fun rest phase => by cases stopped.symm.trans phase
  fuzzing := fun phase => by cases stopped.symm.trans phase

theorem Sound.fuzz (active : ∀ target, s.dry.targetActive target = true → Calibrated s.dry.afl target)
    (phase : s.phase = .fuzzing) (rated : ∀ q ∈ s.queue, Rated s.dry.afl q)
    (current : ∀ i, s.current = some i → ∃ q, s.queue[i]? = some q ∧ Calibrated s.dry.afl q.targetFunctionIdx) :
    Sound s where
  active := active
  loading := fun other => by cases phase.symm.trans other
  dryRun := fun rest other => by cases phase.symm.trans other
  fuzzing := fun _ => ⟨rated, current⟩

theorem keeps_spec {target : Nat} {f : Find n} {q : QueueEntry} {afl : Afl n}
    (kept : s.keeps cfg target f = some (q, afl)) :
    SameTotals s.dry.afl afl ∧ q.targetFunctionIdx = target ∧ q.disabled = false := by
  unfold Fuzzer.keeps at kept
  split at kept
  · cases kept
  · dsimp only at kept
    split at kept
    · cases kept
    · cases kept
      exact ⟨⟨rfl, rfl, rfl, rfl⟩, rfl, rfl⟩

/-- A test case that is kept leaves the averages as they should be if its calibration runs
through or its target has some. -/
theorem Sound.save {target : Nat} {f : Find n} (sound : Sound s) (phase : s.phase = .fuzzing)
    (careful : Careful cfg s (.imported target f)) (saved : s.saveIfInteresting cfg target f = some t) : Sound t := by
  obtain ⟨rated, current⟩ := sound.fuzzing phase
  unfold Fuzzer.saveIfInteresting at saved
  cases kept : s.keeps cfg target f with
  | none =>
    rw [kept] at saved
    cases saved
    exact sound
  | some pair =>
    obtain ⟨q, afl⟩ := pair
    rw [kept] at saved
    have condition := careful (q, afl) kept
    obtain ⟨same, here, enabled⟩ := keeps_spec kept
    have outcome := calibrateCase_outcome cfg.toSettings f.calibration.toCalibration q afl
    have entry := calibrateCase_keeps cfg.toSettings f.calibration.toCalibration q afl
    dsimp only at saved condition
    generalize calibrateCase cfg.toSettings f.calibration.toCalibration q afl = r at *
    have grows : ∀ target, Calibrated s.dry.afl target → Calibrated r.afl target := fun _ held =>
      calibrated_mono outcome ((sameTotals_calibrated same).mpr held)
    split at saved
    · cases saved
    · cases saved
      refine .fuzz (fun _ active => grows _ (sound.active _ active)) phase ?_ ?_
      · intro p member
        rcases List.mem_append.mp member with old | new
        · exact (rated p old).mono grows
        · rw [List.mem_singleton.mp new]
          intro _
          rw [entry.1, here]
          rcases condition with held | completed
          · exact grows _ held
          · rw [← here]
            exact calibrated_of_completed outcome completed
      · intro i index
        obtain ⟨p, found, held⟩ := current i index
        exact ⟨p, List.getElem?_append_left (List.getElem?_eq_some_iff.mp found).1 ▸ found, grows _ held⟩

theorem Sound.beginOne {i : Nat} {c : Measured n} (sound : Sound s) (phase : s.phase = .fuzzing)
    (begun : s.beginOne cfg i c = some t) : Sound t := by
  obtain ⟨rated, current⟩ := sound.fuzzing phase
  obtain ⟨q, found, rest⟩ := Option.bind_eq_some_iff.mp begun
  have member := List.mem_of_getElem? found
  split at rest
  · rename_i passed
    cases rest
    refine .fuzz sound.active phase rated fun j index => ?_
    cases index
    exact ⟨q, found, rated q member (.inr passed)⟩
  · split at rest
    · have outcome := calibrateCase_outcome cfg.toSettings c.toCalibration { q with execCksum := 0 } s.dry.afl
      have entry := calibrateCase_keeps cfg.toSettings c.toCalibration { q with execCksum := 0 } s.dry.afl
      dsimp only at rest
      generalize calibrateCase cfg.toSettings c.toCalibration { q with execCksum := 0 } s.dry.afl = r at *
      have grows : ∀ target, Calibrated s.dry.afl target → Calibrated r.afl target := fun _ held =>
        calibrated_mono outcome held
      have active : ∀ target, s.dry.targetActive target = true → Calibrated r.afl target := fun _ held =>
        grows _ (sound.active _ held)
      have again : Rated r.afl r.entry := by
        intro scored
        rw [entry.1]
        cases outcome with
        | completed ending fault ran each charged calibrated =>
          exact calibrated_of_completed (.completed ending fault ran each charged calibrated) ending
        | aborted _ _ _ failed =>
          have enabled : q.disabled = false := by
            rw [← entry.2.1]
            exact scored.resolve_right (by omega)
          exact grows _ (rated q member (.inl enabled))
      have every : ∀ p ∈ s.queue.set i r.entry, Rated r.afl p := by
        intro p there
        rcases List.mem_or_eq_of_mem_set there with old | rfl
        · exact (rated p old).mono grows
        · exact again
      split at rest
      · cases rest
      · split at rest
        · cases rest
          exact .stop active rfl
        · rename_i going
          simp only [Bool.or_eq_true, not_or, Bool.not_eq_true] at going
          split at rest
          · cases rest
            exact .fuzz active phase every nofun
          · rename_i expected
            cases rest
            refine .fuzz active phase every fun j index => ?_
            cases index
            refine ⟨r.entry, ?_, ?_⟩
            · exact List.getElem?_set_self (List.getElem?_eq_some_iff.mp found).1
            · rw [entry.1]
              exact calibrated_of_completed outcome (completed_of_expected outcome going.1 (not_not.mp expected))
    · cases rest
      exact .fuzz sound.active phase rated nofun

theorem Sound.dryStep {c : Measured n} {q : QueueEntry} {rest : List QueueEntry} (sound : Sound s)
    (phase : s.phase = .dryRun (q :: rest)) (stepped : s.dryStep cfg c q rest = some t) : Sound t := by
  obtain ⟨noCurrent, fresh, rated⟩ := sound.dryRun _ phase
  have seed := fresh q (List.mem_cons_self ..)
  have visited : q.skipped = false := by simp [QueueEntry.skipped, seed.1, seed.2]
  have outcome := calibrateCase_outcome cfg.toSettings c.toCalibration q s.dry.afl
  have entry := calibrateCase_keeps cfg.toSettings c.toCalibration q s.dry.afl
  have bits := measured_fault c cfg.toSettings q s.dry.afl
  unfold Fuzzer.dryStep drySeed at stepped
  rw [visited, if_neg Bool.false_ne_true] at stepped
  dsimp only at stepped
  generalize calibrateCase cfg.toSettings c.toCalibration q s.dry.afl = r at *
  have grows : ∀ target, Calibrated s.dry.afl target → Calibrated r.afl target := fun _ held =>
    calibrated_mono outcome held
  by_cases stop : (r.ending.stopped || c.stopSoon) = true
  · rw [if_pos stop] at stepped
    cases stepped
    exact .stop (fun _ active => grows _ (sound.active _ active)) rfl
  · rw [if_neg stop] at stepped
    simp only [Bool.or_eq_true, not_or, Bool.not_eq_true] at stop
    cases treated : treatSeed cfg r s.dry with
    | error e =>
      rw [treated] at stepped
      cases e with
      | stopped => exact absurd treated (treatSeed_not_stopped r s.dry)
      | fatal reason => cases stepped
    | ok pair =>
      obtain ⟨q', d'⟩ := pair
      rw [treated] at stepped
      cases stepped
      have goesOn := treatSeed_ok treated
      refine ⟨?_, nofun, ?_, nofun⟩
      · intro target active
        rw [goesOn.afl]
        rw [goesOn.active] at active
        by_cases ok : r.fault = .ok
        · rw [if_pos ok, Function.update_apply] at active
          split at active
          · rename_i same
            have expected : r.fault = cfg.toSettings.expected := by
              simp [ok, Settings.expected, goesOn.plain ok]
            rw [same, entry.1]
            exact calibrated_of_completed outcome (completed_of_expected outcome stop.1 expected)
          · exact grows _ (sound.active _ active)
        · rw [if_neg ok] at active
          exact grows _ (sound.active _ active)
      · intro rest' same
        cases same
        refine ⟨noCurrent, fun p member => fresh p (List.mem_cons_of_mem _ member), fun p member => ?_⟩
        rcases List.mem_append.mp member with old | new
        · exact (rated p old).mono fun target held => by
            rw [goesOn.afl]
            exact grows target held
        · rw [List.mem_singleton.mp new]
          exact goesOn_rated outcome bits stop.1 entry.1 goesOn

theorem removeDuplicates_rated {queue : List QueueEntry} {afl : Afl n} (rated : ∀ q ∈ queue, Rated afl q) :
    ∀ q ∈ removeDuplicates queue, Rated afl q := by
  intro p member
  obtain ⟨q, there, rfl | ⟨part, rfl⟩⟩ := Listing.exists_of_forall₂ (duplicateLoop_spec le_rfl).1.flip p member
  · exact rated _ there
  · intro _
    exact rated q there (.inl (by simp_all [QueueEntry.passed]))

/-- What every careful step keeps. -/
theorem Sound.step {event : Event n} (sound : Sound s) (careful : Careful cfg s event)
    (stepped : s.step cfg event = some t) : Sound t := by
  cases event with
  | addSeed len target =>
    simp only [Fuzzer.step] at stepped
    split at stepped
    · rename_i loading
      cases stepped
      obtain ⟨noCurrent, fresh⟩ := sound.loading loading.1
      refine ⟨sound.active, fun _ => ⟨noCurrent, fun q member => ?_⟩, ?_, ?_⟩
      · rcases List.mem_append.mp member with old | new
        · exact fresh q old
        · rw [List.mem_singleton.mp new]
          exact ⟨loading.2, rfl⟩
      · exact fun rest phase => by cases loading.1.symm.trans phase
      · exact fun phase => by cases loading.1.symm.trans phase
    · cases stepped
  | startDryRun =>
    simp only [Fuzzer.step] at stepped
    split at stepped
    · rename_i loading
      cases stepped
      obtain ⟨noCurrent, fresh⟩ := sound.loading loading
      refine ⟨sound.active, nofun, fun rest phase => ?_, nofun⟩
      cases phase
      exact ⟨noCurrent, fresh, nofun⟩
    · cases stepped
  | drySeed c =>
    simp only [Fuzzer.step] at stepped
    split at stepped
    · rename_i q rest phase
      exact sound.dryStep phase stepped
    · cases stepped
  | finishDryRun =>
    simp only [Fuzzer.step] at stepped
    split at stepped
    · rename_i ended
      cases stepped
      obtain ⟨noCurrent, _, rated⟩ := sound.dryRun _ ended.1
      refine .fuzz sound.active rfl (removeDuplicates_rated rated) fun i index => ?_
      cases noCurrent.symm.trans index
    · cases stepped
  | showInitStats | createMultiAliasTable | createSingleAliasTable | calculateScore =>
    simp only [Fuzzer.step] at stepped
    split at stepped
    · cases stepped
      exact sound
    · cases stepped
  | fuzzOne i c =>
    simp only [Fuzzer.step] at stepped
    split at stepped
    · exact sound.beginOne ‹_› stepped
    · cases stepped
  | find f =>
    obtain ⟨q, current, rest⟩ := Option.bind_eq_some_iff.mp stepped
    split at rest
    · rename_i phase
      obtain ⟨i, index, found⟩ := Option.bind_eq_some_iff.mp current
      obtain ⟨p, same, held⟩ := (sound.fuzzing phase).2 i index
      obtain rfl := Option.some.inj (same.symm.trans found)
      exact sound.save phase (fun _ _ => .inl held) rest
    · cases rest
  | imported target f =>
    simp only [Fuzzer.step] at stepped
    split at stepped
    · rename_i phase
      have idle : Sound { s with current := none } := .fuzz sound.active phase (sound.fuzzing phase).1 nofun
      have same : Careful cfg { s with current := none } (.imported target f) := careful
      exact idle.save phase same stepped
    · cases stepped

theorem averages_nonzero {afl : Afl n} {q : QueueEntry} (held : Calibrated afl q.targetFunctionIdx) :
    0 ∉ Fuzzer.averages afl q := by
  simp only [Fuzzer.averages, List.mem_cons, List.not_mem_nil, or_false, not_or]
  exact ⟨held.1.symm, held.2.symm⟩

theorem Sound.divisors {event : Event n} (sound : Sound s) (stepped : s.step cfg event = some t) :
    0 ∉ s.divisors event := by
  cases event with
  | createMultiAliasTable =>
    simp only [Fuzzer.step] at stepped
    split at stepped
    · rename_i phase
      intro zero
      obtain ⟨target, _, zero⟩ := List.mem_flatMap.mp zero
      obtain ⟨q, scored, zero⟩ := List.mem_flatMap.mp zero
      obtain ⟨member, enabled⟩ := List.mem_filter.mp scored
      simp only [Bool.and_eq_true, Bool.not_eq_true'] at enabled
      exact averages_nonzero ((sound.fuzzing phase).1 q member (.inl enabled.1)) zero
    · cases stepped
  | createSingleAliasTable =>
    simp only [Fuzzer.step] at stepped
    split at stepped
    · rename_i phase
      intro zero
      obtain ⟨q, scored, zero⟩ := List.mem_flatMap.mp zero
      obtain ⟨member, enabled⟩ := List.mem_filter.mp scored
      exact averages_nonzero ((sound.fuzzing phase).1 q member (.inl (by simpa using enabled))) zero
    · cases stepped
  | calculateScore =>
    simp only [Fuzzer.step] at stepped
    split at stepped
    · rename_i phase
      intro zero
      obtain ⟨q, current, zero⟩ := List.mem_flatMap.mp zero
      obtain ⟨i, index, found⟩ := Option.bind_eq_some_iff.mp (Option.mem_toList.mp current)
      obtain ⟨p, same, held⟩ := (sound.fuzzing phase.1).2 i index
      obtain rfl := Option.some.inj (same.symm.trans found)
      exact averages_nonzero held zero
    · cases stepped
  | showInitStats =>
    intro zero
    obtain ⟨q, member, zero⟩ := List.mem_map.mp zero
    exact (sound.active _ (List.mem_filter.mp member).2).1 zero
  | addSeed | startDryRun | drySeed | finishDryRun | fuzzOne | find | imported => exact List.not_mem_nil

/-- An import that is kept but not calibrated, of a target that never was, is divided for the
next time a table is made. -/
theorem imported_divides {target : Nat} {f : Find n} (stepped : s.step cfg (.imported target f) = some t)
    (careless : ¬Careful cfg s (.imported target f)) :
    t.phase = .fuzzing ∧ 0 ∈ t.divisors .createSingleAliasTable := by
  simp only [Careful, not_forall, not_or] at careless
  obtain ⟨⟨q, afl⟩, kept, uncalibrated, aborted⟩ := careless
  obtain ⟨same, here, enabled⟩ := keeps_spec kept
  have outcome := calibrateCase_outcome cfg.toSettings f.calibration.toCalibration q afl
  have entry := calibrateCase_keeps cfg.toSettings f.calibration.toCalibration q afl
  simp only [Fuzzer.step] at stepped
  split at stepped
  · rename_i phase
    have unchanged : Fuzzer.keeps cfg target f { s with current := none } = some (q, afl) := kept
    simp only [Fuzzer.saveIfInteresting, unchanged] at stepped
    dsimp only at aborted
    generalize calibrateCase cfg.toSettings f.calibration.toCalibration q afl = r at *
    split at stepped
    · cases stepped
    · cases stepped
      refine ⟨phase, ?_⟩
      have none : ¬Calibrated r.afl target := by
        cases outcome with
        | completed ending => exact absurd ending aborted
        | aborted _ _ kept _ =>
          rw [sameTotals_calibrated kept, sameTotals_calibrated same]
          exact uncalibrated
      refine List.mem_flatMap.mpr ⟨r.entry, ?_, ?_⟩
      · exact List.mem_filter.mpr ⟨by simp, by rw [entry.2.1, enabled]; rfl⟩
      · rw [Calibrated, not_and_or, not_not, not_not] at none
        simp only [Fuzzer.averages, entry.1, here, List.mem_cons, List.not_mem_nil, or_false]
        exact none.imp Eq.symm Eq.symm
  · cases stepped

theorem Sound.start {dry : DryRun n} (inactive : dry.targetActive = fun _ => false) :
    Sound ({ dry := dry } : Fuzzer n) where
  active := fun target active => by rw [inactive] at active; cases active
  loading := fun _ => ⟨rfl, nofun⟩
  dryRun := nofun
  fuzzing := nofun

/-- In a run whose imports are calibrated, or belong to targets that were, nothing is divided by
zero. The first import that is not makes the next table divide by zero. -/
theorem averages_exist {dry : DryRun n} {events : List (Event n)} (inactive : dry.targetActive = fun _ => false)
    (ran : Runs.run (Fuzzer.step cfg) { dry := dry } events = some s)
    (careful : Runs.Along (Fuzzer.step cfg) (Careful cfg) { dry := dry } events) :
    (∀ event t, s.step cfg event = some t → 0 ∉ s.divisors event) ∧
    ∀ target f t, s.step cfg (.imported target f) = some t → ¬Careful cfg s (.imported target f) →
      t.phase = .fuzzing ∧ 0 ∈ t.divisors .createSingleAliasTable := by
  have sound : Sound s := careful.invariant (fun _ _ _ sound careful stepped => sound.step careful stepped)
    (.start inactive) ran
  exact ⟨fun event t stepped => sound.divisors stepped, fun target f t => imported_divides⟩

end

/-- Executions that all end the same way and hit the byte once. -/
def measured (fault : FsrvResult) (bits : fault ≠ .nobits) : Measured 1 where
  toCalibration := steady fault
  dummy_bits := bits
  exec_bits := fun _ => bits

/-- An input that hits the byte four times and crashes when it is calibrated. -/
def flaky : Find 1 := { len := 4, traceBits := fun _ => 4, calibration := measured .crash (by decide) }

/-- The target of the import has a seed that runs. -/
theorem flaky_import_of_calibrated_target : ∃ s,
    Runs.run (Fuzzer.step (oneByte 1)) { dry := freshDryRun } [.addSeed 4 0, .startDryRun,
      .drySeed (measured .ok (by decide)), .finishDryRun, .imported 0 flaky] = some s ∧
    ∀ event t, s.step (oneByte 1) event = some t → 0 ∉ s.divisors event := by
  have careful : Runs.Along (Fuzzer.step (oneByte 1)) (Careful (oneByte 1)) { dry := freshDryRun } [.addSeed 4 0,
      .startDryRun, .drySeed (measured .ok (by decide)), .finishDryRun, .imported 0 flaky] := by decide +kernel
  have runs : (Runs.run (Fuzzer.step (oneByte 1)) { dry := freshDryRun } [.addSeed 4 0, .startDryRun,
      .drySeed (measured .ok (by decide)), .finishDryRun, .imported 0 flaky]).isSome = true := by decide +kernel
  obtain ⟨s, ran⟩ := Option.isSome_iff_exists.mp runs
  exact ⟨s, ran, (averages_exist rfl ran careful).1⟩

/-- The seed of the second target crashes in the dry run. An import for that target runs once but
not through its calibration, and stays enabled: the next table divides by zero. -/
theorem flaky_import_of_crashing_target :
    (Runs.run (Fuzzer.step (oneByte 2)) { dry := freshDryRun } [.addSeed 4 0, .addSeed 4 1, .startDryRun,
        .drySeed (measured .ok (by decide)), .drySeed (measured .crash (by decide)), .finishDryRun, .showInitStats,
        .createMultiAliasTable, .imported 1 flaky]).map
      (fun s => ((s.step (oneByte 2) .createMultiAliasTable).isSome, s.queue.map (·.disabled),
        decide (0 ∈ s.divisors .createMultiAliasTable))) = some (true, [false, true, false], true) := by
  decide +kernel

end AflLive.Fuzz.Calibrate.Scoring
