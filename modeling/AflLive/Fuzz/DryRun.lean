import AflLive.Fuzz.Duplicates
import AflLive.Fuzz.Rotation
import AflLive.Library.Control

/-! `perform_dry_run` in argument mode: every seed is calibrated, a seed that runs and brings new
bits makes its target active, and the first active target is looked for. -/
namespace AflLive.Fuzz.Calibrate
open Control

/-- The `FATAL` exits. -/
inductive DryRunFatal where
  | doesNotCrash | timeout | seedIssues | cannotExecute | noInstrumentation | allTimeOut
deriving DecidableEq, Repr

/-- Why the dry run does not come to its end; `stopped` is `stop_soon`. -/
inductive DryRunEnd where
  | fatal (reason : DryRunFatal)
  | stopped
deriving DecidableEq, Repr

structure DryRunSettings (n : Nat) extends Settings n where
  timeoutGiven : Bool
  exitOnSeedIssues : Bool
  amountOfTargets : Nat

structure DryRun (n : Nat) where
  afl : Afl n
  targetActive : Nat → Bool
  calFailures : Nat := 0
  uselessAtStart : Nat := 0

def calChances : Nat := 3

/-- The `switch` over the result of a calibration. -/
def treatSeed (cfg : DryRunSettings n) (r : Result n) (d : DryRun n) : Except DryRunEnd (QueueEntry × DryRun n) :=
  let d := { d with afl := r.afl }
  match r.fault with
  | .ok =>
    if cfg.crashMode then .error (.fatal .doesNotCrash)
    else .ok (r.entry, { d with targetActive := Function.update d.targetActive r.entry.targetFunctionIdx true })
  | .tmout =>
    if cfg.timeoutGiven && !cfg.exitOnSeedIssues then
      .ok ({ r.entry.disable with calFailed := calChances }, { d with calFailures := d.calFailures + 1 })
    else .error (.fatal .timeout)
  | .crash =>
    if cfg.crashMode then .ok (r.entry, d)
    else if cfg.exitOnSeedIssues then .error (.fatal .seedIssues)
    else .ok (r.entry.disable, d)
  | .error => .error (.fatal .cannotExecute)
  | .noinst => .error (.fatal .noInstrumentation)
  | .nobits => .ok (r.entry, { d with uselessAtStart := d.uselessAtStart + 1 })

def Ending.stopped : Ending → Bool
  | .aborted _ stopped => stopped
  | .completed => false

/-- Disabled and empty entries are not run. -/
def QueueEntry.skipped (q : QueueEntry) : Bool := q.disabled || decide (q.len = 0)

/-- One round of the loop over the queue. -/
def drySeed (cfg : DryRunSettings n) (q : QueueEntry) (c : Calibration n) (d : DryRun n) :
    Except DryRunEnd (QueueEntry × DryRun n) :=
  if q.skipped then .ok (q, d)
  else
    let r := calibrateCase cfg.toSettings c q d.afl
    if r.ending.stopped || c.stopSoon then .error .stopped else treatSeed cfg r d

def drySeeds (cfg : DryRunSettings n) :
    List (QueueEntry × Calibration n) → DryRun n → Except DryRunEnd (List QueueEntry × DryRun n)
  | [], d => .ok ([], d)
  | (q, c) :: rest, d => do
    let (q, d) ← drySeed cfg q c d
    let (queue, d) ← drySeeds cfg rest d
    return (q :: queue, d)

/-- Everything but the search for the first target, which `cycleTarget` does. -/
def performDryRun (cfg : DryRunSettings n) (seeds : List (QueueEntry × Calibration n)) (d : DryRun n) :
    Except DryRunEnd (List QueueEntry × DryRun n) := do
  let (queue, d) ← drySeeds cfg seeds d
  if d.calFailures ≠ 0 ∧ d.calFailures = queue.length then .error (.fatal .allTimeOut)
  else return (removeDuplicates queue, d)

/-- The seeds that are run, each with the result of its calibration in the state it is run in. -/
def visits (cfg : DryRunSettings n) : List (QueueEntry × Calibration n) → DryRun n → List (QueueEntry × Result n)
  | [], _ => []
  | (q, c) :: rest, d =>
    match drySeed cfg q c d with
    | .error _ => []
    | .ok (_, d') =>
      if q.skipped then visits cfg rest d' else (q, calibrateCase cfg.toSettings c q d.afl) :: visits cfg rest d'

/-- A seed that is run, its executions, and the globals it is run in. -/
structure Turn (n : Nat) where
  entry : QueueEntry
  calibration : Calibration n
  afl : Afl n

def Turn.result (cfg : DryRunSettings n) (t : Turn n) : Result n :=
  calibrateCase cfg.toSettings t.calibration t.entry t.afl

/-- The trace of one of its executions. -/
def Turn.trace (t : Turn n) (k : Nat) : Bitmap n := classifyCounts (t.calibration.exec k).traceBits

def turns (cfg : DryRunSettings n) : List (QueueEntry × Calibration n) → DryRun n → List (Turn n)
  | [], _ => []
  | (q, c) :: rest, d =>
    match drySeed cfg q c d with
    | .error _ => []
    | .ok (_, d') => if q.skipped then turns cfg rest d' else ⟨q, c, d.afl⟩ :: turns cfg rest d'

/-- None of the executions crashed, timed out or failed. -/
def Result.Clean (r : Result n) : Prop := ∀ fault ∈ r.faults, fault = .ok

instance (r : Result n) : Decidable r.Clean := inferInstanceAs (Decidable (∀ fault ∈ r.faults, fault = .ok))

section
variable {cfg : DryRunSettings n} {q : QueueEntry} {c : Calibration n} {d d' : DryRun n}
  {seeds : List (QueueEntry × Calibration n)} {queue : List QueueEntry}

/-- What the dry run makes of a result that it goes on after. -/
structure GoesOn (cfg : DryRunSettings n) (r : Result n) (d : DryRun n) (q' : QueueEntry) (d' : DryRun n) : Prop where
  instrumented : r.fault ≠ .noinst
  plain : r.fault = .ok → cfg.crashMode = false
  active : d'.targetActive = if r.fault = .ok then Function.update d.targetActive r.entry.targetFunctionIdx true
    else d.targetActive
  afl : d'.afl = r.afl
  target : q'.targetFunctionIdx = r.entry.targetFunctionIdx
  failed : r.entry.calFailed ≠ 0 → q'.calFailed ≠ 0
  kept : q'.disabled = false → r.fault = .nobits ∨ r.fault = cfg.toSettings.expected

theorem treatSeed_ok {r : Result n} {q' : QueueEntry} (treated : treatSeed cfg r d = .ok (q', d')) :
    GoesOn cfg r d q' d' := by
  unfold treatSeed at treated
  dsimp only at treated
  cases result : r.fault with
  | ok =>
    simp only [result] at treated
    split at treated
    · cases treated
    · rename_i plain
      cases treated
      have expected : r.fault = cfg.toSettings.expected := by simp [result, Settings.expected, plain]
      exact ⟨by simp [result], fun _ => by simpa using plain, by rw [result]; rfl, rfl, rfl, id, fun _ => .inr expected⟩
  | tmout =>
    simp only [result] at treated
    split at treated
    · cases treated
      exact ⟨by simp [result], by simp [result], by rw [result]; rfl, rfl, rfl, fun _ => Nat.succ_ne_zero 2, nofun⟩
    · cases treated
  | crash =>
    simp only [result] at treated
    split at treated
    · rename_i mode
      cases treated
      have expected : r.fault = cfg.toSettings.expected := by simp [result, Settings.expected, mode]
      exact ⟨by simp [result], by simp [result], by rw [result]; rfl, rfl, rfl, id, fun _ => .inr expected⟩
    · split at treated
      · cases treated
      · cases treated
        exact ⟨by simp [result], by simp [result], by rw [result]; rfl, rfl, rfl, id, nofun⟩
  | error =>
    simp only [result] at treated
    cases treated
  | noinst =>
    simp only [result] at treated
    cases treated
  | nobits =>
    simp only [result] at treated
    cases treated
    exact ⟨by simp [result], by simp [result], by rw [result]; rfl, rfl, rfl, id, fun _ => .inl result⟩

theorem treatSeed_not_stopped (r : Result n) (d : DryRun n) : treatSeed cfg r d ≠ .error .stopped := by
  unfold treatSeed
  dsimp only
  split
  · split <;> simp
  · split <;> simp
  · split
    · simp
    · split <;> simp
  · simp
  · simp
  · simp

/-- What a seed that was run brought about. -/
def Brings (cfg : DryRunSettings n) (q : QueueEntry) (r : Result n) : Prop :=
  r.newBits ≠ 0 ∨ cfg.nonInstrumentedMode = true ∨ q.execCksum ≠ 0

/-- The dry run goes on after a seed. Its target is active if the seed ran through and, unless
that does not matter, brought new bits. -/
theorem fault_ok_iff {r : Result n} (outcome : Outcome cfg.toSettings q d.afl r) (notStopped : r.ending.stopped = false)
    (instrumented : r.fault ≠ .noinst) (plain : r.fault = .ok → cfg.crashMode = false) :
    r.fault = .ok ↔ r.Clean ∧ Brings cfg q r := by
  cases outcome with
  | completed ending fault ran each charged calibrated =>
    rw [fault, verdict]
    by_cases mode : cfg.crashMode = true
    · have expected : cfg.toSettings.expected = .crash := by simp [Settings.expected, mode]
      have unclean : ¬r.Clean := by
        obtain ⟨f, member⟩ := List.exists_mem_of_ne_nil _ ran
        intro clean
        have both := (each f member).symm.trans (clean f member)
        rw [expected] at both
        cases both
      simp [expected, unclean]
    · have expected : cfg.toSettings.expected = .ok := by simp [Settings.expected, mode]
      rw [expected] at each
      have clean : r.Clean := each
      unfold Brings
      by_cases useless : cfg.nonInstrumentedMode = false ∧ q.execCksum = 0 ∧ r.newBits = 0
      · obtain ⟨instr, first, none⟩ := useless
        simp [expected, instr, first, none]
      · have some : r.newBits ≠ 0 ∨ cfg.nonInstrumentedMode = true ∨ q.execCksum ≠ 0 := by
          by_contra nothing
          push Not at nothing
          exact useless ⟨by simpa using nothing.2.1, nothing.2.2, nothing.1⟩
        rw [if_neg (by rintro ⟨a, b, _, c⟩; exact useless ⟨a, by simpa using b, c⟩)]
        simp [expected, clean, some]
  | @aborted stopped ending cause same failed =>
    have running : stopped = false := by simpa [ending, Ending.stopped] using notStopped
    obtain stop | none | ⟨last, other⟩ := cause
    · rw [running] at stop
      cases stop
    · exact absurd none instrumented
    · have unclean : ¬(r.Clean ∧ Brings cfg q r) := by
        rintro ⟨clean, _⟩
        have ok := clean _ last
        refine other ?_
        rw [ok, Settings.expected, plain ok]
        rfl
      refine iff_of_false (fun ok => other ?_) unclean
      rw [ok, Settings.expected, plain ok]
      rfl

/-- A clean calibration that the dry run goes on after has run to its end. -/
theorem completed_of_clean {r : Result n} (outcome : Outcome cfg.toSettings q d.afl r)
    (notStopped : r.ending.stopped = false) (instrumented : r.fault ≠ .noinst)
    (plain : r.fault = .ok → cfg.crashMode = false) (clean : r.Clean) : r.ending = .completed := by
  cases outcome with
  | completed ending => exact ending
  | @aborted stopped ending cause =>
    exfalso
    rw [ending, Ending.stopped] at notStopped
    obtain stop | none | ⟨last, other⟩ := cause
    · simp [notStopped] at stop
    · exact instrumented none
    · have ok := clean _ last
      refine other ?_
      rw [ok, Settings.expected, plain ok]
      rfl

/-- A round of the loop, seen from outside. -/
theorem drySeed_ok {q' : QueueEntry} (ran : drySeed cfg q c d = .ok (q', d')) :
    q.skipped = true ∧ d' = d ∨
      q.skipped = false ∧ ∃ r, r = calibrateCase cfg.toSettings c q d.afl ∧ d'.afl = r.afl ∧
        (r.fault = .ok ↔ r.Clean ∧ Brings cfg q r) ∧ (r.Clean → r.ending = .completed) ∧
        d'.targetActive = if r.fault = .ok then Function.update d.targetActive q.targetFunctionIdx true
          else d.targetActive := by
  unfold drySeed at ran
  split at ran
  · rename_i skipped
    cases ran
    exact .inl ⟨skipped, rfl⟩
  · rename_i visited
    dsimp only at ran
    split at ran
    · cases ran
    · rename_i going
      simp only [Bool.or_eq_true, not_or, Bool.not_eq_true] at going
      have goesOn := treatSeed_ok ran
      refine .inr ⟨by simpa using visited, _, rfl, goesOn.afl, ?_, ?_, ?_⟩
      · exact fault_ok_iff (calibrateCase_outcome _ _ _ _) going.1 goesOn.instrumented goesOn.plain
      · exact completed_of_clean (calibrateCase_outcome _ _ _ _) going.1 goesOn.instrumented goesOn.plain
      · rw [goesOn.active, (calibrateCase_keeps _ _ _ _).1]

/-- After the loop the active targets are those active before and those of the seeds that came
out as they should. -/
theorem drySeeds_active (ran : drySeeds cfg seeds d = .ok (queue, d')) (target : Nat) :
    d'.targetActive target = true ↔ d.targetActive target = true ∨
      ∃ v ∈ visits cfg seeds d, v.1.targetFunctionIdx = target ∧ v.2.fault = .ok := by
  induction seeds generalizing d queue with
  | nil =>
    cases ran
    simp [visits]
  | cons seed rest ih =>
    obtain ⟨q, c⟩ := seed
    obtain ⟨⟨q', mid⟩, first, ran⟩ := bind_eq_ok.mp ran
    obtain ⟨⟨queue', last⟩, later, ran⟩ := bind_eq_ok.mp ran
    cases ran
    rw [ih later]
    obtain ⟨skipped, rfl⟩ | ⟨visited, r, same, _, _, _, active⟩ := drySeed_ok first
    · simp only [visits, first, skipped, if_true]
    · simp only [visits, first, visited, Bool.false_eq_true, if_false, List.mem_cons, exists_eq_or_imp, ← same]
      rw [active]
      by_cases ok : r.fault = .ok
      · by_cases here : q.targetFunctionIdx = target
        · simp [ok, here]
        · simp [ok, here, Function.update_of_ne (Ne.symm here)]
      · simp [ok]

theorem visits_eq (ran : drySeeds cfg seeds d = .ok (queue, d')) :
    visits cfg seeds d = (turns cfg seeds d).map fun t => (t.entry, t.result cfg) := by
  induction seeds generalizing d queue with
  | nil => rfl
  | cons seed rest ih =>
    obtain ⟨q, c⟩ := seed
    obtain ⟨⟨q', mid⟩, first, ran⟩ := bind_eq_ok.mp ran
    obtain ⟨⟨queue', last⟩, later, ran⟩ := bind_eq_ok.mp ran
    cases ran
    simp only [visits, turns, first]
    split
    · exact ih later
    · rw [ih later]
      rfl

/-- What is known of each seed that was run. -/
structure Turn.Ran (cfg : DryRunSettings n) (seeds : List (QueueEntry × Calibration n)) (t : Turn n) : Prop where
  listed : (t.entry, t.calibration) ∈ seeds
  fault : (t.result cfg).fault = .ok ↔ (t.result cfg).Clean ∧ Brings cfg t.entry (t.result cfg)
  completed : (t.result cfg).Clean → (t.result cfg).ending = .completed

theorem turns_ran (ran : drySeeds cfg seeds d = .ok (queue, d')) : ∀ t ∈ turns cfg seeds d, t.Ran cfg seeds := by
  induction seeds generalizing d queue with
  | nil => simp [turns]
  | cons seed rest ih =>
    obtain ⟨q, c⟩ := seed
    obtain ⟨⟨q', mid⟩, first, ran⟩ := bind_eq_ok.mp ran
    obtain ⟨⟨queue', last⟩, later, ran⟩ := bind_eq_ok.mp ran
    cases ran
    have behind : ∀ t ∈ turns cfg rest mid, t.Ran cfg ((q, c) :: rest) := fun t member =>
      have known := ih later t member
      ⟨List.mem_cons_of_mem _ known.listed, known.fault, known.completed⟩
    obtain ⟨skipped, -⟩ | ⟨visited, r, rfl, _, result, completed, _⟩ := drySeed_ok first
    · simpa only [turns, first, skipped, if_true] using behind
    · simp only [turns, first, visited, Bool.false_eq_true, if_false]
      intro t member
      rcases List.mem_cons.mp member with rfl | member
      · exact ⟨List.mem_cons_self .., result, completed⟩
      · exact behind t member

/-- The map a stable seed meets: the bits of the first one, without those of the traces of the
seeds before it. -/
theorem turns_virginBits (ran : drySeeds cfg seeds d = .ok (queue, d')) (plain : cfg.cmplogMode = false)
    (stable : ∀ s ∈ seeds, Stable cfg.toSettings s.1 s.2) {before after : List (Turn n)} {t : Turn n}
    (split : turns cfg seeds d = before ++ t :: after) :
    t.afl.virginBits = before.foldl (fun virgin u => uncover virgin (taken cfg.toSettings u.calibration))
      d.afl.virginBits := by
  induction seeds generalizing d queue before with
  | nil => simp [turns] at split
  | cons seed rest ih =>
    obtain ⟨q, c⟩ := seed
    obtain ⟨⟨q', mid⟩, first, ran⟩ := bind_eq_ok.mp ran
    obtain ⟨⟨queue', last⟩, later, ran⟩ := bind_eq_ok.mp ran
    cases ran
    have behind := fun {before} => @ih mid queue' later (fun s member => stable s (List.mem_cons_of_mem _ member)) before
    obtain ⟨skipped, rfl⟩ | ⟨visited, r, rfl, after', _⟩ := drySeed_ok first
    · simp only [turns, first, skipped, if_true] at split
      exact behind split
    · simp only [turns, first, visited, Bool.false_eq_true, if_false] at split
      cases before with
      | nil =>
        obtain ⟨rfl, -⟩ := List.cons.inj split
        rfl
      | cons u before =>
        obtain ⟨rfl, tail⟩ := List.cons.inj split
        rw [behind tail, after', (stable (q, c) (List.mem_cons_self ..)).virginBits plain]
        rfl

theorem performDryRun_ok (ran : performDryRun cfg seeds d = .ok (queue, d')) :
    ∃ calibrated, drySeeds cfg seeds d = .ok (calibrated, d') ∧ queue = removeDuplicates calibrated := by
  obtain ⟨⟨calibrated, last⟩, seeded, rest⟩ := bind_eq_ok.mp ran
  dsimp only at rest
  split at rest
  · cases rest
  · cases rest
    exact ⟨calibrated, seeded, rfl⟩

/-- Each target that has a clean seed has one with the property. -/
def EachTarget (cfg : DryRunSettings n) (seeds : List (QueueEntry × Calibration n)) (d : DryRun n)
    (good : Turn n → Prop) : Prop :=
  ∀ target, (∃ v ∈ visits cfg seeds d, v.1.targetFunctionIdx = target ∧ v.2.Clean) →
    ∃ t ∈ turns cfg seeds d, t.entry.targetFunctionIdx = target ∧ (t.result cfg).Clean ∧ good t

theorem EachTarget.mono {good better : Turn n → Prop} (each : EachTarget cfg seeds d better)
    (weaker : ∀ t ∈ turns cfg seeds d, (t.result cfg).Clean → better t → good t) : EachTarget cfg seeds d good := by
  intro target clean
  obtain ⟨t, member, here, clean, holds⟩ := each target clean
  exact ⟨t, member, here, clean, weaker t member clean holds⟩

/-- New bits do not matter for the seed. -/
def Turn.Exempt (cfg : DryRunSettings n) (t : Turn n) : Prop :=
  cfg.nonInstrumentedMode = true ∨ t.entry.execCksum ≠ 0

theorem Turn.brings_of_hits {t : Turn n} (completed : (t.result cfg).ending = .completed)
    (good : t.Exempt cfg ∨ cfg.hash64 (t.trace 0) ≠ 0 ∧ Hits (t.trace 0) t.afl.virginBits) :
    Brings cfg t.entry (t.result cfg) := by
  by_cases first : t.entry.execCksum = 0
  · rcases good with exempt | ⟨checksum, hits⟩
    · exact .inr exempt
    · exact .inl (hits_newBits first completed checksum hits)
  · exact .inr (.inr first)

theorem Turn.hits_of_brings {t : Turn n} (brings : Brings cfg t.entry (t.result cfg)) :
    t.Exempt cfg ∨ ∃ k, Hits (t.trace k) t.afl.virginBits := by
  by_cases first : t.entry.execCksum = 0
  · exact brings.symm.imp_right (newBits_hits first)
  · exact .inl (.inr first)

/-- The targets with a seed that ran through are the active ones exactly if each of them has one
that also brings something new. -/
theorem active_iff_brings (inactive : d.targetActive = fun _ => false) (ran : drySeeds cfg seeds d = .ok (queue, d')) :
    (∀ target, d'.targetActive target = true ↔
        ∃ v ∈ visits cfg seeds d, v.1.targetFunctionIdx = target ∧ v.2.Clean) ↔
      EachTarget cfg seeds d fun t => Brings cfg t.entry (t.result cfg) := by
  have active : ∀ target, d'.targetActive target = true ↔ ∃ t ∈ turns cfg seeds d,
      t.entry.targetFunctionIdx = target ∧ (t.result cfg).Clean ∧ Brings cfg t.entry (t.result cfg) := by
    intro target
    rw [drySeeds_active ran, inactive, visits_eq ran]
    simp only [Bool.false_eq_true, false_or, List.mem_map, exists_exists_and_eq_and]
    exact exists_congr fun t => and_congr_right fun member => and_congr_right fun _ => (turns_ran ran t member).fault
  refine forall_congr' fun target => ?_
  rw [active]
  refine ⟨fun same => same.mpr, fun enough => ⟨?_, enough⟩⟩
  rintro ⟨t, member, here, clean, _⟩
  rw [visits_eq ran]
  exact ⟨_, List.mem_map_of_mem member, here, clean⟩

/-- A target is to be active after the dry run exactly if one of its seeds ran through. This is so
if each target with such a seed has one whose first trace has a bit that the shared map still
holds when it is run, and only if each has one with such a bit in some trace. For seeds that always
leave the same trace: exactly if each has one with a bit of the map at the start that none of the
seeds run before it has in its trace. -/
theorem active_iff_completed_iff (inactive : d.targetActive = fun _ => false)
    (ran : performDryRun cfg seeds d = .ok (queue, d')) :
    (EachTarget cfg seeds d (fun t => t.Exempt cfg ∨ cfg.hash64 (t.trace 0) ≠ 0 ∧ Hits (t.trace 0) t.afl.virginBits) →
      ∀ target, d'.targetActive target = true ↔
        ∃ v ∈ visits cfg seeds d, v.1.targetFunctionIdx = target ∧ v.2.Clean) ∧
    ((∀ target, d'.targetActive target = true ↔
        ∃ v ∈ visits cfg seeds d, v.1.targetFunctionIdx = target ∧ v.2.Clean) →
      EachTarget cfg seeds d (fun t => t.Exempt cfg ∨ ∃ k, Hits (t.trace k) t.afl.virginBits)) ∧
    (cfg.cmplogMode = false → (∀ s ∈ seeds, Stable cfg.toSettings s.1 s.2) →
      ((∀ target, d'.targetActive target = true ↔
          ∃ v ∈ visits cfg seeds d, v.1.targetFunctionIdx = target ∧ v.2.Clean) ↔
        EachTarget cfg seeds d fun t => cfg.nonInstrumentedMode = true ∨
          ∃ before after, turns cfg seeds d = before ++ t :: after ∧
            Hits (t.trace 0) (before.foldl (fun virgin u => uncover virgin (taken cfg.toSettings u.calibration))
              d.afl.virginBits))) := by
  obtain ⟨calibrated, seeded, _⟩ := performDryRun_ok ran
  have spec := turns_ran seeded
  rw [active_iff_brings inactive seeded]
  refine ⟨fun each => each.mono fun t member clean => Turn.brings_of_hits ((spec t member).completed clean),
    fun each => each.mono fun t _ _ => Turn.hits_of_brings, fun plain stable => ⟨fun each => ?_, fun each => ?_⟩⟩
  · refine each.mono fun t member clean brings => ?_
    have one := stable _ (spec t member).listed
    rcases Turn.hits_of_brings brings with (dumb | known) | ⟨k, hits⟩
    · exact .inl dumb
    · exact absurd one.first known
    · obtain ⟨before, after, split⟩ := List.append_of_mem member
      rw [turns_virginBits seeded plain stable split, Turn.trace, one.same k] at hits
      exact .inr ⟨before, after, split, hits⟩
  · refine each.mono fun t member clean good => Turn.brings_of_hits ((spec t member).completed clean) ?_
    rcases good with dumb | ⟨before, after, split, hits⟩
    · exact .inl (.inl dumb)
    · rw [← turns_virginBits seeded plain stable split] at hits
      exact .inr ⟨(stable _ (spec t member).listed).checksum, hits⟩

/-- `targetActive` as far as `cycleTarget` looks. -/
def activeList (cfg : DryRunSettings n) (d : DryRun n) : List Bool :=
  (List.range cfg.amountOfTargets).map d.targetActive

/-- Some number of rounds of the loop is enough. -/
def Leaves (targetActive : List Bool) (nextTarget : Nat) : Prop :=
  ∃ fuel target, cycleTarget targetActive fuel nextTarget = some target

/-- Every call of `cycleTarget` leaves its loop: the one at the end of the dry run, made if the
first target is not active, and those of the selections after it. A dry run that ends early
makes none. -/
def CallsLeave (cfg : DryRunSettings n) : Except DryRunEnd (List QueueEntry × DryRun n) → Prop
  | .error _ => True
  | .ok (_, d) =>
    (isActive (activeList cfg d) 0 = false → Leaves (activeList cfg d) 0) ∧
      ∀ calls r, Rotation.after (activeList cfg d) calls = some r → Leaves (activeList cfg d) r.nextTarget

theorem isActive_activeList {target : Nat} :
    isActive (activeList cfg d) target = true ↔ target < cfg.amountOfTargets ∧ d.targetActive target = true := by
  unfold isActive activeList
  by_cases inside : target < cfg.amountOfTargets
  · simp [List.getD, inside]
  · simp [List.getD, inside]

/-- With an active target every call leaves the loop; without one the first never does. -/
theorem callsLeave_iff (targets : 0 < cfg.amountOfTargets) (queue : List QueueEntry) (d : DryRun n) :
    CallsLeave cfg (.ok (queue, d)) ↔ ∃ target < cfg.amountOfTargets, d.targetActive target = true := by
  have length : (activeList cfg d).length = cfg.amountOfTargets := by simp [activeList]
  constructor
  · rintro ⟨first, _⟩
    by_cases zero : isActive (activeList cfg d) 0 = true
    · obtain ⟨inside, active⟩ := isActive_activeList.mp zero
      exact ⟨0, inside, active⟩
    · obtain ⟨fuel, target, found⟩ := first (by simpa using zero)
      obtain ⟨inside, active⟩ := isActive_activeList.mp (cycleTarget_active found)
      exact ⟨target, inside, active⟩
  · rintro ⟨target, inside, active⟩
    have listed : target ∈ activeTargets (activeList cfg d) :=
      mem_activeTargets.mpr (isActive_activeList.mpr ⟨inside, active⟩)
    have some_active := List.ne_nil_of_mem listed
    have leaves : ∀ next < cfg.amountOfTargets, Leaves (activeList cfg d) next := by
      intro next below
      obtain ⟨found, search, _⟩ := cycleTarget_follows (by rw [length]; exact below) some_active
      exact ⟨_, found, search⟩
    refine ⟨fun _ => leaves 0 targets, fun calls r ran => ?_⟩
    obtain ⟨start, begun, turning⟩ := Rotation.start_turning some_active
    rw [Rotation.after, begun, Option.bind_some] at ran
    have cycling : r.Cycling (activeList cfg d) := by
      refine Runs.run_invariant _ (fun s event t cycles stepped => ?_) turning.toCycling ran
      obtain ⟨t', moved, cycles', _⟩ := Rotation.Cycling.step some_active cycles event
      rw [stepped] at moved
      cases moved
      exact cycles'
    exact leaves _ (by rw [← length]; exact cycling.inside)

/-- Every call of `cycleTarget` leaves its loop exactly if the dry run ends early or some seed of
one of the targets comes out as it should. -/
theorem cycleTarget_leaves_iff (targets : 0 < cfg.amountOfTargets) (inactive : d.targetActive = fun _ => false) :
    CallsLeave cfg (performDryRun cfg seeds d) ↔ (∃ e, performDryRun cfg seeds d = .error e) ∨
      ∃ v ∈ visits cfg seeds d, v.1.targetFunctionIdx < cfg.amountOfTargets ∧ v.2.fault = .ok := by
  cases ran : performDryRun cfg seeds d with
  | error e => exact iff_of_true trivial (.inl ⟨e, rfl⟩)
  | ok pair =>
    obtain ⟨queue, d'⟩ := pair
    obtain ⟨calibrated, seeded, _⟩ := performDryRun_ok ran
    rw [callsLeave_iff targets]
    simp only [drySeeds_active seeded, inactive, Bool.false_eq_true, false_or, reduceCtorEq, exists_false]
    constructor
    · rintro ⟨target, inside, v, member, rfl, ok⟩
      exact ⟨v, member, inside, ok⟩
    · rintro ⟨v, member, inside, ok⟩
      exact ⟨_, inside, v, member, rfl, ok⟩

end

/-- One byte of coverage; the checksum is that byte. -/
def oneByte (amountOfTargets : Nat) : DryRunSettings 1 where
  crashMode := false
  nonInstrumentedMode := false
  calFast := true
  cmplogMode := false
  hash64 := fun trace => (trace 0).toNat
  timeoutGiven := false
  exitOnSeedIssues := false
  amountOfTargets := amountOfTargets

def freshAfl : Afl 1 where
  virginBits := fun _ => 0xff
  varBytes := fun _ => 0
  firstTrace := fun _ => 0
  traceBits := fun _ => 0
  totalCalUs := fun _ => 0
  totalCalCycles := fun _ => 0
  totalBitmapSize := fun _ => 0
  totalBitmapEntries := fun _ => 0
  queuedWithCov := 0
  queuedVariable := 0
  stageCur := 0

def freshDryRun : DryRun 1 := { afl := freshAfl, targetActive := fun _ => false }

/-- Executions of one result that hit the byte as often as they are told to. -/
def hitting (fault : FsrvResult) (hits : UInt8) : Calibration 1 :=
  ⟨⟨fault, fun _ => hits, false⟩, fun _ => ⟨fault, fun _ => hits, false⟩, 1, false⟩

/-- Executions that hit it once. -/
def steady (fault : FsrvResult) : Calibration 1 := hitting fault 1

def seedOf (target : Nat) : QueueEntry := { len := 4, targetFunctionIdx := target }

/-- The seed of the first target crashes, that of the second one runs. -/
theorem second_target_found : CallsLeave (oneByte 2)
    (performDryRun (oneByte 2) [(seedOf 0, steady .crash), (seedOf 1, steady .ok)] freshDryRun) :=
  (cycleTarget_leaves_iff (by decide) rfl).mpr (.inr (by decide +kernel))

/-- The only seed crashes: the dry run goes on without a usable seed, and `cycleTarget` never
comes back. -/
theorem only_seed_crashes_no_return : ∃ queue d,
    performDryRun (oneByte 1) [(seedOf 0, steady .crash)] freshDryRun = .ok (queue, d) ∧
      (∀ q ∈ queue, q.disabled = true) ∧ isActive (activeList (oneByte 1) d) 0 = false ∧
      ∀ fuel, cycleTarget (activeList (oneByte 1) d) fuel 0 = none := by
  have outcome : (performDryRun (oneByte 1) [(seedOf 0, steady .crash)] freshDryRun).map
      (fun r => (r.1.map QueueEntry.disabled, activeList (oneByte 1) r.2)) = .ok ([true], [false]) := by decide +kernel
  obtain ⟨⟨queue, d⟩, ran, shown⟩ := map_eq_ok.mp outcome
  obtain ⟨disabled, active⟩ := Prod.mk.inj shown
  refine ⟨queue, d, ran, fun q member => ?_, by rw [active]; rfl, fun fuel => ?_⟩
  · have there : q.disabled ∈ queue.map QueueEntry.disabled := List.mem_map_of_mem member
    rw [disabled] at there
    exact List.mem_singleton.mp there
  · cases found : cycleTarget (activeList (oneByte 1) d) fuel 0 with
    | none => rfl
    | some target =>
      have marked := mem_activeTargets.mpr (cycleTarget_active found)
      rw [active] at marked
      cases marked

/-- Two targets. Of the seeds of the second one the first crashes and the next hits the byte twice,
which the seed of the first target does not. -/
def twoTargetSeeds : List (QueueEntry × Calibration 1) :=
  [(seedOf 0, hitting .ok 1), (seedOf 1, hitting .crash 1), (seedOf 1, hitting .ok 2)]

theorem second_target_activated : ∃ queue d,
    performDryRun (oneByte 2) twoTargetSeeds freshDryRun = .ok (queue, d) ∧
      ∀ target, d.targetActive target = true ↔
        ∃ v ∈ visits (oneByte 2) twoTargetSeeds freshDryRun, v.1.targetFunctionIdx = target ∧ v.2.Clean := by
  have outcome : (performDryRun (oneByte 2) twoTargetSeeds freshDryRun).isOk = true := by decide +kernel
  have good : ∀ v ∈ visits (oneByte 2) twoTargetSeeds freshDryRun, v.2.Clean →
      ∃ t ∈ turns (oneByte 2) twoTargetSeeds freshDryRun,
        t.entry.targetFunctionIdx = v.1.targetFunctionIdx ∧ (t.result (oneByte 2)).Clean ∧
          (oneByte 2).hash64 (t.trace 0) ≠ 0 ∧ ∃ i, t.trace 0 i &&& t.afl.virginBits i ≠ 0 := by
    decide +kernel
  cases ran : performDryRun (oneByte 2) twoTargetSeeds freshDryRun with
  | error e =>
    rw [ran] at outcome
    cases outcome
  | ok pair =>
    obtain ⟨queue, d⟩ := pair
    refine ⟨queue, d, rfl, (active_iff_completed_iff rfl ran).1 ?_⟩
    rintro target ⟨v, member, rfl, clean⟩
    obtain ⟨t, run, here, clean, checksum, hits⟩ := good v member clean
    exact ⟨t, run, here, clean, .inr ⟨checksum, hits⟩⟩

/-- Two targets whose seeds run through with the same trace: the second one is not active. -/
theorem covered_seed_leaves_target_inactive :
    (performDryRun (oneByte 2) [(seedOf 0, steady .ok), (seedOf 1, steady .ok)] freshDryRun).map
        (fun r => (r.1.map QueueEntry.disabled, activeList (oneByte 2) r.2)) = .ok ([false, false], [true, false]) ∧
      ∃ v ∈ visits (oneByte 2) [(seedOf 0, steady .ok), (seedOf 1, steady .ok)] freshDryRun,
        v.1.targetFunctionIdx = 1 ∧ v.2.Clean := by
  constructor <;> decide +kernel

end AflLive.Fuzz.Calibrate
