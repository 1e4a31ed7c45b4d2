import Mathlib

/-! `calibrate_case`: a test case is executed several times, its traces are compared with each
other and with the map of bits never seen, and the averages of its target grow. What an
execution does is an input. The clock and `update_bitmap_score` are left out but for the time
that is charged. -/
namespace AflLive.Fuzz.Calibrate

/-- `fsrv_run_result_t`. -/
inductive FsrvResult where
  | ok | tmout | crash | error | noinst | nobits
deriving DecidableEq, Repr

abbrev Bitmap (n : Nat) := Fin n → UInt8

/-- One execution of the target, with `stop_soon` as it is read afterwards. -/
structure Execution (n : Nat) where
  fault : FsrvResult
  traceBits : Bitmap n
  stopSoon : Bool := false

/-- What one calibration meets: the dummy run of `cmplog_mode`, the execution of each stage, the
time they take, and `stop_soon` when it returns. -/
structure Calibration (n : Nat) where
  dummy : Execution n
  exec : Nat → Execution n
  elapsed : Nat
  stopSoon : Bool := false

structure Settings (n : Nat) where
  crashMode : Bool
  nonInstrumentedMode : Bool
  calFast : Bool
  cmplogMode : Bool
  hash64 : Bitmap n → Nat

/-- The result `crash_mode` asks for. -/
def Settings.expected (cfg : Settings n) : FsrvResult := if cfg.crashMode then .crash else .ok

structure QueueEntry where
  len : Nat
  targetFunctionIdx : Nat
  disabled : Bool := false
  wasFuzzed : Bool := false
  calFailed : Nat := 0
  execCksum : Nat := 0
  execUs : Nat := 0
  bitmapSize : Nat := 0
  hasNewCov : Bool := false
  varBehavior : Bool := false
  weight : ℚ := 0
  perfScore : ℚ := 0
deriving DecidableEq

/-- The globals a calibration reads and writes; the totals are kept for each target. -/
structure Afl (n : Nat) where
  virginBits : Bitmap n
  varBytes : Bitmap n
  firstTrace : Bitmap n
  traceBits : Bitmap n
  totalCalUs : Nat → Nat
  totalCalCycles : Nat → Nat
  totalBitmapSize : Nat → Nat
  totalBitmapEntries : Nat → Nat
  queuedWithCov : Nat
  queuedVariable : Nat
  stageCur : Nat

/-- `count_class_lookup8`. -/
def countClass (hits : UInt8) : UInt8 :=
  if hits ≤ 2 then hits
  else if hits = 3 then 4
  else if hits ≤ 7 then 8
  else if hits ≤ 15 then 16
  else if hits ≤ 31 then 32
  else if hits ≤ 127 then 64
  else 128

def classifyCounts (traceBits : Bitmap n) : Bitmap n := fun i => countClass (traceBits i)

def countBytes (mem : Bitmap n) : Nat := (List.finRange n).countP fun i => mem i ≠ 0

/-- `has_new_bits`: 2 for a byte never hit before, 1 for new bits only; what was hit is virgin no
more. -/
def hasNewBits (current virgin : Bitmap n) : Nat × Bitmap n :=
  (if ∃ i, current i ≠ 0 ∧ virgin i = 0xff then 2 else if ∃ i, current i &&& virgin i ≠ 0 then 1 else 0,
    fun i => virgin i &&& ~~~current i)

def calCycles : Nat := 8

def calCyclesLong : Nat := 20

/-- The locals of the loop over the stages. `faults` lists the results of the executions so far;
only the statements read it. -/
structure Stages (n : Nat) where
  afl : Afl n
  execCksum : Nat
  newBits : Nat
  varDetected : Bool
  stageMax : Nat
  faults : List FsrvResult

/-- `hnb = has_new_bits(afl, afl->virgin_bits)`. -/
def Stages.discover (st : Stages n) (trace : Bitmap n) : Stages n :=
  { st with
    afl := { st.afl with virginBits := (hasNewBits trace st.afl.virginBits).2 }
    newBits := max st.newBits (hasNewBits trace st.afl.virginBits).1 }

/-- A byte that differs from the first trace counts as discovered from now on. -/
def Stages.vary (st : Stages n) (calFast : Bool) (trace : Bitmap n) : Stages n :=
  { st with
    afl := { st.afl with
      varBytes := fun i => if st.afl.varBytes i = 0 ∧ st.afl.firstTrace i ≠ trace i then 1 else st.afl.varBytes i
      virginBits := fun i =>
        if st.afl.varBytes i = 0 ∧ st.afl.firstTrace i ≠ trace i then 0 else st.afl.virginBits i }
    varDetected := true
    stageMax := if calFast then calCycles else calCyclesLong }

/-- A stage that ran as it should: the trace is classified and compared. -/
def Stages.compare (cfg : Settings n) (st : Stages n) (trace : Bitmap n) : Stages n :=
  let cksum := cfg.hash64 trace
  if st.execCksum = cksum then st
  else if st.execCksum ≠ 0 then (st.discover trace).vary cfg.calFast trace
  else
    let st := st.discover trace
    { st with execCksum := cksum, afl := { st.afl with firstTrace := trace } }

/-- What an execution leaves behind before its result is looked at. -/
def Stages.execute (st : Stages n) (e : Execution n) : Stages n :=
  { st with afl := { st.afl with traceBits := e.traceBits }, faults := st.faults ++ [e.fault] }

def Stages.classify (st : Stages n) : Stages n :=
  { st with afl := { st.afl with traceBits := classifyCounts st.afl.traceBits } }

/-- How the loop is left: with `goto abort_calibration`, or at its end. -/
inductive Ending where
  | aborted (fault : FsrvResult) (stopped : Bool)
  | completed
deriving DecidableEq

/-- The two checks behind an execution. -/
def checkRun (cfg : Settings n) (stageCur : Nat) (e : Execution n) : Option Ending :=
  if e.stopSoon = true ∨ e.fault ≠ cfg.expected then some (.aborted e.fault e.stopSoon)
  else if cfg.nonInstrumentedMode = false ∧ stageCur = 0 ∧ countBytes e.traceBits = 0 then some (.aborted .noinst false)
  else none

/-- The loop over the stages. `stage_max` is at most `CAL_CYCLES_LONG`, which bounds it. -/
def runStages (cfg : Settings n) (exec : Nat → Execution n) : Nat → Nat → Stages n → Ending × Stages n
  | 0, _, st => (.completed, st)
  | fuel + 1, stageCur, st =>
    if stageCur < st.stageMax then
      match checkRun cfg stageCur (exec stageCur) with
      | some ending => (ending, st.execute (exec stageCur))
      | none =>
        let st := (st.execute (exec stageCur)).classify
        runStages cfg exec fuel (stageCur + 1) (st.compare cfg st.afl.traceBits)
    else (.completed, st)

/-- What `calibrate_case` returns and leaves behind. -/
structure Result (n : Nat) where
  fault : FsrvResult
  ending : Ending
  newBits : Nat
  faults : List FsrvResult
  entry : QueueEntry
  afl : Afl n

/-- The averages of the entry's target, after the loop has run to its end. -/
def Stages.charge (st : Stages n) (target elapsed : Nat) : Afl n :=
  { st.afl with
    totalCalUs := Function.update st.afl.totalCalUs target (st.afl.totalCalUs target + elapsed)
    totalCalCycles := Function.update st.afl.totalCalCycles target (st.afl.totalCalCycles target + st.stageMax)
    totalBitmapSize := Function.update st.afl.totalBitmapSize target
      (st.afl.totalBitmapSize target + countBytes st.afl.traceBits)
    totalBitmapEntries := Function.update st.afl.totalBitmapEntries target (st.afl.totalBitmapEntries target + 1) }

/-- Behind the label `abort_calibration`. -/
def Result.finish (r : Result n) (varDetected : Bool) : Result n :=
  let newCov := decide (r.newBits = 2) && !r.entry.hasNewCov
  let variable' := varDetected && !r.entry.varBehavior
  { r with
    entry := { r.entry with
      hasNewCov := r.entry.hasNewCov || newCov
      varBehavior := r.entry.varBehavior || variable' }
    afl := { r.afl with
      queuedWithCov := if newCov then r.afl.queuedWithCov + 1 else r.afl.queuedWithCov
      queuedVariable := if variable' then r.afl.queuedVariable + 1 else r.afl.queuedVariable } }

/-- The first trace of an entry with a checksum is the one of the last execution. -/
def startStages (cfg : Settings n) (q : QueueEntry) (afl : Afl n) : Stages n :=
  let st : Stages n := ⟨afl, q.execCksum, 0, false, if cfg.calFast then 3 else calCycles, []⟩
  if q.execCksum ≠ 0 then { st with afl := { afl with firstTrace := afl.traceBits } }.discover afl.traceBits else st

/-- The entry as the calibration begins: it counts as failed until the end is reached. -/
def begin (cfg : Settings n) (q : QueueEntry) : QueueEntry :=
  { q with execCksum := if cfg.cmplogMode then 0 else q.execCksum, calFailed := q.calFailed + 1 }

/-- The executions: a dummy run in `cmplog_mode`, then the stages. -/
def execute (cfg : Settings n) (c : Calibration n) (q : QueueEntry) (afl : Afl n) : Ending × Stages n :=
  if cfg.cmplogMode then
    let st : Stages n := Stages.execute ⟨afl, q.execCksum, 0, false, 0, []⟩ c.dummy
    match checkRun cfg afl.stageCur c.dummy with
    | some ending => (ending, st)
    | none => runStages cfg c.exec calCyclesLong 0 { startStages cfg q st.afl with faults := st.faults }
  else runStages cfg c.exec calCyclesLong 0 (startStages cfg q afl)

/-- What is returned once every stage has run. An entry without a checksum that brought no new
bits is reported as such. -/
def verdict (cfg : Settings n) (firstRun : Bool) (newBits : Nat) : FsrvResult :=
  if cfg.nonInstrumentedMode = false ∧ firstRun = true ∧ cfg.expected = .ok ∧ newBits = 0 then .nobits
  else cfg.expected

def calibrateCase (cfg : Settings n) (c : Calibration n) (q : QueueEntry) (afl : Afl n) : Result n :=
  let firstRun := decide (q.execCksum = 0)
  let entry := begin cfg q
  let (ending, st) := execute cfg c entry afl
  let entry := { entry with execCksum := st.execCksum }
  match ending with
  | .aborted fault _ => Result.finish ⟨fault, ending, st.newBits, st.faults, entry, st.afl⟩ st.varDetected
  | .completed =>
    let entry := { entry with
      execUs := c.elapsed / st.stageMax
      bitmapSize := countBytes st.afl.traceBits
      calFailed := 0 }
    Result.finish ⟨verdict cfg firstRun st.newBits, ending, st.newBits, st.faults, entry,
      st.charge q.targetFunctionIdx c.elapsed⟩ st.varDetected

section
variable {cfg : Settings n} {exec : Nat → Execution n} {st : Stages n}

/-- Same totals and counters; only maps differ. -/
structure SameTotals (a b : Afl n) : Prop where
  calUs : b.totalCalUs = a.totalCalUs
  calCycles : b.totalCalCycles = a.totalCalCycles
  bitmapSize : b.totalBitmapSize = a.totalBitmapSize
  bitmapEntries : b.totalBitmapEntries = a.totalBitmapEntries

theorem SameTotals.refl (a : Afl n) : SameTotals a a := ⟨rfl, rfl, rfl, rfl⟩

theorem SameTotals.trans {a b c : Afl n} (first : SameTotals a b) (second : SameTotals b c) : SameTotals a c :=
  ⟨second.calUs.trans first.calUs, second.calCycles.trans first.calCycles,
    second.bitmapSize.trans first.bitmapSize, second.bitmapEntries.trans first.bitmapEntries⟩

theorem Stages.compare_totals (st : Stages n) (trace : Bitmap n) : SameTotals st.afl (st.compare cfg trace).afl := by
  unfold Stages.compare
  dsimp only
  split
  · exact .refl _
  · split
    · exact ⟨rfl, rfl, rfl, rfl⟩
    · exact ⟨rfl, rfl, rfl, rfl⟩

@[simp] theorem Stages.compare_faults (st : Stages n) (trace : Bitmap n) :
    (st.compare cfg trace).faults = st.faults := by
  unfold Stages.compare
  dsimp only
  split
  · rfl
  · split <;> rfl

/-- The number of stages only changes to that of an unstable test case. -/
theorem Stages.compare_stageMax (st : Stages n) (trace : Bitmap n) :
    (st.compare cfg trace).stageMax = st.stageMax ∨
      (st.compare cfg trace).stageMax = if cfg.calFast then calCycles else calCyclesLong := by
  unfold Stages.compare
  dsimp only
  split
  · exact .inl rfl
  · split
    · exact .inr rfl
    · exact .inl rfl

theorem checkRun_none {stageCur : Nat} {e : Execution n} (passed : checkRun cfg stageCur e = none) :
    e.fault = cfg.expected := by
  unfold checkRun at passed
  split at passed
  · cases passed
  · rename_i good
    by_contra other
    exact good (.inr other)

theorem checkRun_some {stageCur : Nat} {e : Execution n} {ending : Ending}
    (failed : checkRun cfg stageCur e = some ending) :
    ending = .aborted e.fault true ∨ ending = .aborted .noinst false ∨
      ending = .aborted e.fault false ∧ e.fault ≠ cfg.expected := by
  unfold checkRun at failed
  split at failed
  · rename_i bad
    cases failed
    cases stop : e.stopSoon with
    | true => exact .inl rfl
    | false => exact .inr (.inr ⟨rfl, by simpa [stop] using bad⟩)
  · split at failed
    · cases failed
      exact .inr (.inl rfl)
    · cases failed

/-- How the executions end: every stage ran and each was as expected, or the last one was not. -/
inductive Ended (cfg : Settings n) (st : Stages n) : Ending → Prop
  | stopped (fault : FsrvResult) : Ended cfg st (.aborted fault true)
  | noinst : Ended cfg st (.aborted .noinst false)
  | unexpected {fault : FsrvResult} (last : fault ∈ st.faults) (other : fault ≠ cfg.expected) :
      Ended cfg st (.aborted fault false)
  | completed (positive : 0 < st.stageMax) (every : st.stageMax ≤ st.faults.length)
      (each : ∀ fault ∈ st.faults, fault = cfg.expected) : Ended cfg st .completed

theorem ended_of_checkRun {stageCur : Nat} {e : Execution n} {ending : Ending} (st : Stages n)
    (failed : checkRun cfg stageCur e = some ending) : Ended cfg (st.execute e) ending := by
  obtain rfl | rfl | ⟨rfl, other⟩ := checkRun_some failed
  · exact .stopped _
  · exact .noinst
  · exact .unexpected (by simp [Stages.execute]) other

/-- The loop leaves the totals alone, and the bound on its stages does not cut it short. -/
theorem runStages_spec {fuel stageCur : Nat} (each : ∀ fault ∈ st.faults, fault = cfg.expected)
    (ran : stageCur ≤ st.faults.length) (positive : 0 < st.stageMax) (bounded : st.stageMax ≤ calCyclesLong)
    (enough : calCyclesLong ≤ fuel + stageCur) :
    SameTotals st.afl (runStages cfg exec fuel stageCur st).2.afl ∧
      Ended cfg (runStages cfg exec fuel stageCur st).2 (runStages cfg exec fuel stageCur st).1 := by
  induction fuel generalizing stageCur st with
  | zero =>
    have every : st.stageMax ≤ st.faults.length := by omega
    exact ⟨.refl _, .completed positive every each⟩
  | succ fuel ih =>
    unfold runStages
    split
    · cases checked : checkRun cfg stageCur (exec stageCur) with
      | some ending => exact ⟨⟨rfl, rfl, rfl, rfl⟩, ended_of_checkRun st checked⟩
      | none =>
        dsimp only
        generalize traced : (st.execute (exec stageCur)).classify = next
        have totals : SameTotals st.afl next.afl := by
          subst traced
          exact ⟨rfl, rfl, rfl, rfl⟩
        have faults : next.faults = st.faults ++ [(exec stageCur).fault] := by
          subst traced
          rfl
        have stageMax : next.stageMax = st.stageMax := by
          subst traced
          rfl
        have bounds : 0 < (next.compare cfg next.afl.traceBits).stageMax ∧
            (next.compare cfg next.afl.traceBits).stageMax ≤ calCyclesLong := by
          rcases @Stages.compare_stageMax n cfg next next.afl.traceBits with same | long
          · rw [same, stageMax]
            exact ⟨positive, bounded⟩
          · rw [long]
            cases cfg.calFast <;> decide
        obtain ⟨rest, ended⟩ := @ih (next.compare cfg next.afl.traceBits) (stageCur + 1) (by
            intro fault member
            rw [Stages.compare_faults, faults] at member
            rcases List.mem_append.mp member with earlier | last
            · exact each fault earlier
            · rw [List.mem_singleton.mp last]
              exact checkRun_none checked)
          (by rw [Stages.compare_faults, faults, List.length_append, List.length_singleton]; omega)
          bounds.1 bounds.2 (by omega)
        exact ⟨totals.trans ((Stages.compare_totals _ _).trans rest), ended⟩
    · have every : st.stageMax ≤ st.faults.length := by omega
      exact ⟨.refl _, .completed positive every each⟩

theorem startStages_spec (q : QueueEntry) (afl : Afl n) :
    SameTotals afl (startStages cfg q afl).afl ∧ (startStages cfg q afl).faults = [] ∧
      0 < (startStages cfg q afl).stageMax ∧ (startStages cfg q afl).stageMax ≤ calCyclesLong := by
  have stages : 0 < (if cfg.calFast then 3 else calCycles) ∧
      (if cfg.calFast then 3 else calCycles) ≤ calCyclesLong := by
    cases cfg.calFast <;> decide
  unfold startStages
  dsimp only
  split
  · exact ⟨⟨rfl, rfl, rfl, rfl⟩, rfl, stages⟩
  · exact ⟨.refl _, rfl, stages⟩

theorem execute_spec (c : Calibration n) (q : QueueEntry) (afl : Afl n) :
    SameTotals afl (execute cfg c q afl).2.afl ∧ Ended cfg (execute cfg c q afl).2 (execute cfg c q afl).1 := by
  have loop : ∀ afl' faults, SameTotals afl afl' → (∀ fault ∈ faults, fault = cfg.expected) →
      SameTotals afl (runStages cfg c.exec calCyclesLong 0 { startStages cfg q afl' with faults := faults }).2.afl ∧
        Ended cfg (runStages cfg c.exec calCyclesLong 0 { startStages cfg q afl' with faults := faults }).2
          (runStages cfg c.exec calCyclesLong 0 { startStages cfg q afl' with faults := faults }).1 := by
    intro afl' faults same each
    obtain ⟨totals, _, positive, bounded⟩ := @startStages_spec n cfg q afl'
    obtain ⟨rest, ended⟩ := @runStages_spec n cfg c.exec { startStages cfg q afl' with faults := faults }
      calCyclesLong 0 each (Nat.zero_le _) positive bounded le_rfl
    exact ⟨same.trans (totals.trans rest), ended⟩
  unfold execute
  split
  · dsimp only
    split
    · rename_i ending checked
      exact ⟨⟨rfl, rfl, rfl, rfl⟩, ended_of_checkRun _ checked⟩
    · rename_i checked
      refine loop _ _ ⟨rfl, rfl, rfl, rfl⟩ fun fault member => ?_
      rw [List.mem_singleton.mp member]
      exact checkRun_none checked
  · have plain := loop afl [] (.refl _) (by simp)
    rwa [← (@startStages_spec n cfg q afl).2.1] at plain

end

/-- One more completed calibration of a target. -/
structure Charged (target : Nat) (a b : Afl n) : Prop where
  cycles : ∃ k, 0 < k ∧ b.totalCalCycles = Function.update a.totalCalCycles target (a.totalCalCycles target + k)
  entries : b.totalBitmapEntries = Function.update a.totalBitmapEntries target (a.totalBitmapEntries target + 1)

/-- What a calibration comes to: it runs to its end and is charged to the target, or it is
aborted, leaves the totals alone and counts as one more failure of the entry. -/
inductive Outcome (cfg : Settings n) (q : QueueEntry) (afl : Afl n) (r : Result n) : Prop
  | completed (ending : r.ending = .completed) (fault : r.fault = verdict cfg (q.execCksum = 0) r.newBits)
      (ran : r.faults ≠ []) (each : ∀ fault ∈ r.faults, fault = cfg.expected)
      (charged : Charged q.targetFunctionIdx afl r.afl) (calibrated : r.entry.calFailed = 0)
  | aborted {stopped : Bool} (ending : r.ending = .aborted r.fault stopped)
      (cause : stopped = true ∨ r.fault = .noinst ∨ r.fault ∈ r.faults ∧ r.fault ≠ cfg.expected)
      (same : SameTotals afl r.afl) (failed : r.entry.calFailed = q.calFailed + 1)

theorem calibrateCase_outcome (cfg : Settings n) (c : Calibration n) (q : QueueEntry) (afl : Afl n) :
    Outcome cfg q afl (calibrateCase cfg c q afl) := by
  obtain ⟨totals, ended⟩ := @execute_spec n cfg c (begin cfg q) afl
  unfold calibrateCase
  dsimp only
  generalize execute cfg c (begin cfg q) afl = run at totals ended
  obtain ⟨ending, st⟩ := run
  dsimp only at totals ended ⊢
  have same := fun (b : Afl n) (equal : SameTotals st.afl b) => totals.trans equal
  cases ended with
  | stopped fault => exact .aborted rfl (.inl rfl) (same _ ⟨rfl, rfl, rfl, rfl⟩) rfl
  | noinst => exact .aborted rfl (.inr (.inl rfl)) (same _ ⟨rfl, rfl, rfl, rfl⟩) rfl
  | unexpected last other => exact .aborted rfl (.inr (.inr ⟨last, other⟩)) (same _ ⟨rfl, rfl, rfl, rfl⟩) rfl
  | completed positive every each =>
    refine .completed rfl rfl ?_ each ⟨⟨st.stageMax, positive, ?_⟩, ?_⟩ rfl
    · exact List.ne_nil_of_length_pos (positive.trans_le every)
    · simp only [Result.finish, Stages.charge, totals.calCycles]
    · simp only [Result.finish, Stages.charge, totals.bitmapEntries]

/-- A calibration does not move an entry to another target, nor disable it. -/
theorem calibrateCase_keeps (cfg : Settings n) (c : Calibration n) (q : QueueEntry) (afl : Afl n) :
    (calibrateCase cfg c q afl).entry.targetFunctionIdx = q.targetFunctionIdx ∧
      (calibrateCase cfg c q afl).entry.disabled = q.disabled ∧ (calibrateCase cfg c q afl).entry.len = q.len := by
  unfold calibrateCase
  dsimp only
  split <;> exact ⟨rfl, rfl, rfl⟩

/-! ### New bits -/

/-- The trace has a bit that the map still holds. -/
def Hits (trace virgin : Bitmap n) : Prop := ∃ i, trace i &&& virgin i ≠ 0

theorem hasNewBits_pos {trace virgin : Bitmap n} : (hasNewBits trace virgin).1 ≠ 0 ↔ Hits trace virgin := by
  unfold hasNewBits Hits
  dsimp only
  split
  · rename_i fresh
    obtain ⟨i, hit, untouched⟩ := fresh
    refine iff_of_true (by decide) ⟨i, ?_⟩
    rw [untouched, show (0xff : UInt8) = -1 from rfl, UInt8.and_neg_one]
    exact hit
  · split
    · rename_i some
      exact iff_of_true (by decide) some
    · rename_i none
      exact iff_of_false (by simp) none

/-- Bits are only ever taken out of the map. -/
def Shrinks (before after : Bitmap n) : Prop := ∀ trace, Hits trace after → Hits trace before

theorem Shrinks.trans {a b c : Bitmap n} (first : Shrinks a b) (second : Shrinks b c) : Shrinks a c :=
  fun trace hits => first trace (second trace hits)

theorem hasNewBits_shrinks (trace virgin : Bitmap n) : Shrinks virgin (hasNewBits trace virgin).2 := by
  rintro other ⟨i, hit⟩
  refine ⟨i, fun none => hit ?_⟩
  simp only [hasNewBits]
  rw [← UInt8.and_assoc, none, UInt8.zero_and]

/-- What happened to the map of virgin bits between two states of the loop, when the traces
compared in between are among `traces`. -/
structure Explored (traces : Set (Bitmap n)) (a b : Stages n) : Prop where
  shrinks : Shrinks a.afl.virginBits b.afl.virginBits
  grows : a.newBits ≤ b.newBits
  found : b.newBits ≠ 0 → a.newBits ≠ 0 ∨ ∃ trace ∈ traces, Hits trace a.afl.virginBits

namespace Explored
variable {traces : Set (Bitmap n)} {a b c : Stages n}

theorem refl (a : Stages n) : Explored traces a a := ⟨fun _ => id, le_rfl, .inl⟩

theorem trans (first : Explored traces a b) (second : Explored traces b c) : Explored traces a c where
  shrinks := first.shrinks.trans second.shrinks
  grows := first.grows.trans second.grows
  found := fun new => by
    obtain earlier | ⟨trace, compared, hits⟩ := second.found new
    · exact first.found earlier
    · exact .inr ⟨trace, compared, first.shrinks trace hits⟩

theorem discover {trace : Bitmap n} (compared : trace ∈ traces) (st : Stages n) :
    Explored traces st (st.discover trace) where
  shrinks := hasNewBits_shrinks trace _
  grows := le_max_left _ _
  found := fun new => by
    simp only [Stages.discover] at new
    rcases Nat.eq_zero_or_pos (hasNewBits trace st.afl.virginBits).1 with none | some
    · rw [none, Nat.max_zero] at new
      exact .inl new
    · exact .inr ⟨trace, compared, hasNewBits_pos.mp (by omega)⟩

theorem vary (calFast : Bool) (trace : Bitmap n) (st : Stages n) : Explored traces st (st.vary calFast trace) where
  shrinks := by
    rintro other ⟨i, hit⟩
    refine ⟨i, fun none => hit ?_⟩
    simp only [Stages.vary]
    split
    · exact UInt8.and_zero
    · exact none
  grows := le_rfl
  found := .inl

theorem compare (cfg : Settings n) {trace : Bitmap n} (compared : trace ∈ traces) (st : Stages n) :
    Explored traces st (st.compare cfg trace) := by
  unfold Stages.compare
  dsimp only
  split
  · exact .refl st
  · split
    · exact (Explored.discover compared st).trans (.vary cfg.calFast trace _)
    · obtain ⟨shrinks, grows, found⟩ := Explored.discover compared st
      exact ⟨shrinks, grows, found⟩

end Explored

theorem runStages_explored (cfg : Settings n) (exec : Nat → Execution n) (fuel stageCur : Nat) (st : Stages n) :
    Explored {trace | ∃ k, trace = classifyCounts (exec k).traceBits} st (runStages cfg exec fuel stageCur st).2 := by
  induction fuel generalizing stageCur st with
  | zero => exact .refl st
  | succ fuel ih =>
    unfold runStages
    split
    · split
      · exact ⟨fun _ => id, le_rfl, .inl⟩
      · dsimp only
        generalize traced : (st.execute (exec stageCur)).classify = next
        have begun : Explored {trace | ∃ k, trace = classifyCounts (exec k).traceBits} st next := by
          subst traced
          exact ⟨fun _ => id, le_rfl, .inl⟩
        have compared : next.afl.traceBits ∈ {trace | ∃ k, trace = classifyCounts (exec k).traceBits} := by
          subst traced
          exact ⟨stageCur, rfl⟩
        exact begun.trans ((Explored.compare cfg compared next).trans (ih _ _))
    · exact .refl st

theorem checkRun_ne_completed {cfg : Settings n} {stageCur : Nat} {e : Execution n} :
    checkRun cfg stageCur e ≠ some .completed := by
  intro failed
  obtain other | other | ⟨other, _⟩ := checkRun_some failed <;> cases other

/-- The executions of an entry without a checksum: the dummy run has failed, or the stages begin
with the map as it was. -/
theorem execute_first {cfg : Settings n} {q : QueueEntry} (first : q.execCksum = 0) (c : Calibration n) (afl : Afl n) :
    (execute cfg c q afl).1 ≠ .completed ∧ (execute cfg c q afl).2.newBits = 0 ∨
      ∃ afl' faults, afl'.virginBits = afl.virginBits ∧ execute cfg c q afl = runStages cfg c.exec calCyclesLong 0
        ⟨afl', 0, 0, false, if cfg.calFast then 3 else calCycles, faults⟩ := by
  have start : ∀ afl' : Afl n, startStages cfg q afl' =
      ⟨afl', 0, 0, false, if cfg.calFast then 3 else calCycles, []⟩ := fun afl' => by
    simp only [startStages, first, ne_eq, not_true_eq_false, if_false]
  unfold execute
  split
  · dsimp only
    split
    · rename_i ending failed
      exact .inl ⟨fun same : ending = .completed => checkRun_ne_completed (same ▸ failed), rfl⟩
    · rw [start]
      exact .inr ⟨{ afl with traceBits := c.dummy.traceBits }, [c.dummy.fault], rfl, rfl⟩
  · rw [start]
    exact .inr ⟨afl, [], rfl, rfl⟩

theorem calibrateCase_execute (cfg : Settings n) (c : Calibration n) (q : QueueEntry) (afl : Afl n) :
    (calibrateCase cfg c q afl).ending = (execute cfg c (begin cfg q) afl).1 ∧
      (calibrateCase cfg c q afl).newBits = (execute cfg c (begin cfg q) afl).2.newBits ∧
      (calibrateCase cfg c q afl).afl.virginBits = (execute cfg c (begin cfg q) afl).2.afl.virginBits := by
  unfold calibrateCase
  dsimp only
  split <;> exact ⟨rfl, rfl, rfl⟩

theorem begin_first {cfg : Settings n} {q : QueueEntry} (first : q.execCksum = 0) : (begin cfg q).execCksum = 0 := by
  simp [begin, first]

/-- New bits reported for an entry without a checksum are bits of one of its traces that no
earlier calibration had taken out of the map. -/
theorem newBits_hits {cfg : Settings n} {c : Calibration n} {q : QueueEntry} {afl : Afl n} (first : q.execCksum = 0)
    (new : (calibrateCase cfg c q afl).newBits ≠ 0) :
    ∃ k, Hits (classifyCounts (c.exec k).traceBits) afl.virginBits := by
  rw [(calibrateCase_execute cfg c q afl).2.1] at new
  obtain ⟨-, none⟩ | ⟨afl', faults, same, ran⟩ := execute_first (begin_first first) c afl
  · exact absurd none new
  · rw [ran] at new
    obtain none | ⟨trace, ⟨k, rfl⟩, hits⟩ := (runStages_explored cfg c.exec calCyclesLong 0 _).found new
    · exact absurd rfl none
    · exact ⟨k, same ▸ hits⟩

/-- The first stage of a loop that runs to its end has passed the checks and is compared. -/
theorem runStages_first {cfg : Settings n} {exec : Nat → Execution n} {fuel : Nat} {st : Stages n}
    (positive : 0 < st.stageMax) (completed : (runStages cfg exec (fuel + 1) 0 st).1 = .completed) :
    runStages cfg exec (fuel + 1) 0 st = runStages cfg exec fuel 1
      ((st.execute (exec 0)).classify.compare cfg (classifyCounts (exec 0).traceBits)) := by
  rw [runStages, if_pos positive] at completed ⊢
  cases checked : checkRun cfg 0 (exec 0) with
  | none => rfl
  | some ending =>
    rw [checked] at completed
    exact absurd (checked.trans (congrArg some completed)) checkRun_ne_completed

/-- Conversely, in a calibration that runs to its end, bits of the first trace are reported if its
checksum is not 0. -/
theorem hits_newBits {cfg : Settings n} {c : Calibration n} {q : QueueEntry} {afl : Afl n} (first : q.execCksum = 0)
    (completed : (calibrateCase cfg c q afl).ending = .completed)
    (checksum : cfg.hash64 (classifyCounts (c.exec 0).traceBits) ≠ 0)
    (hits : Hits (classifyCounts (c.exec 0).traceBits) afl.virginBits) : (calibrateCase cfg c q afl).newBits ≠ 0 := by
  obtain ⟨ending, new, -⟩ := calibrateCase_execute cfg c q afl
  rw [ending] at completed
  obtain ⟨aborted, -⟩ | ⟨afl', faults, same, ran⟩ := execute_first (begin_first first) c afl
  · exact absurd completed aborted
  have positive : 0 < (if cfg.calFast then 3 else calCycles) := by cases cfg.calFast <;> decide
  rw [ran, show calCyclesLong = 19 + 1 from rfl] at completed
  rw [new, ran, show calCyclesLong = 19 + 1 from rfl, runStages_first positive completed]
  refine Nat.ne_of_gt (lt_of_lt_of_le ?_ (runStages_explored cfg c.exec 19 1 _).grows)
  rw [← same] at hits
  have found := hasNewBits_pos.mpr hits
  simp only [Stages.compare, Stages.classify, Stages.execute, checksum.symm, if_false, ne_eq, not_true_eq_false,
    Stages.discover]
  omega

/-! ### Test cases with one trace -/

/-- The map without the bits of a trace. -/
def uncover (virgin trace : Bitmap n) : Bitmap n := fun i => virgin i &&& ~~~trace i

/-- The entry has no checksum yet, and all its executions leave the same trace, with a checksum
that is not 0. -/
structure Stable (cfg : Settings n) (q : QueueEntry) (c : Calibration n) : Prop where
  first : q.execCksum = 0
  same : ∀ k, classifyCounts (c.exec k).traceBits = classifyCounts (c.exec 0).traceBits
  checksum : cfg.hash64 (classifyCounts (c.exec 0).traceBits) ≠ 0

/-- What its calibration takes out of the map: the bits of its trace, if the first execution
passes the checks. -/
def taken (cfg : Settings n) (c : Calibration n) : Bitmap n :=
  if checkRun cfg 0 (c.exec 0) = none then classifyCounts (c.exec 0).traceBits else fun _ => 0

/-- A trace with the checksum of the entry is not compared. -/
theorem runStages_known {cfg : Settings n} {exec : Nat → Execution n} {fuel stageCur : Nat} {st : Stages n}
    (known : ∀ k, cfg.hash64 (classifyCounts (exec k).traceBits) = st.execCksum) :
    (runStages cfg exec fuel stageCur st).2.afl.virginBits = st.afl.virginBits := by
  induction fuel generalizing stageCur st with
  | zero => rfl
  | succ fuel ih =>
    unfold runStages
    split
    · cases checkRun cfg stageCur (exec stageCur) with
      | some ending => rfl
      | none =>
        have unchanged : (st.execute (exec stageCur)).classify.compare cfg
            (classifyCounts (exec stageCur).traceBits) = (st.execute (exec stageCur)).classify := by
          simp only [Stages.compare, Stages.classify, Stages.execute, known, if_true]
        exact (congrArg (fun st => (runStages cfg exec fuel (stageCur + 1) st).2.afl.virginBits) unchanged).trans
          (ih known)
    · rfl

theorem Stable.virginBits {cfg : Settings n} {c : Calibration n} {q : QueueEntry} (stable : Stable cfg q c)
    (plain : cfg.cmplogMode = false) (afl : Afl n) :
    (calibrateCase cfg c q afl).afl.virginBits = uncover afl.virginBits (taken cfg c) := by
  have positive : 0 < (if cfg.calFast then 3 else calCycles) := by cases cfg.calFast <;> decide
  rw [(calibrateCase_execute cfg c q afl).2.2, execute, plain, if_neg Bool.false_ne_true, startStages]
  simp only [begin_first stable.first, ne_eq, not_true_eq_false, if_false]
  rw [show calCyclesLong = 19 + 1 from rfl, runStages, if_pos positive, taken]
  cases checked : checkRun cfg 0 (c.exec 0) with
  | some ending =>
    funext i
    simp [uncover, Stages.execute]
  | none =>
    dsimp only
    rw [runStages_known (fun k => ?_)]
    · simp only [Stages.compare, Stages.classify, Stages.execute, stable.checksum.symm, if_false, ne_eq,
        not_true_eq_false, Stages.discover, hasNewBits, if_true]
      rfl
    · simp only [Stages.compare, Stages.classify, Stages.execute, stable.checksum.symm, if_false, ne_eq,
        not_true_eq_false, Stages.discover, stable.same k]

end AflLive.Fuzz.Calibrate
