import AflLive.Fuzz.TopRated
import AflLive.Fuzz.WordCoverage

/-! `save_if_interesting`: what becomes of an input after its execution. New bits bring it into
the queue; hangs and crashes are kept if their simplified trace shows something no kept one
showed. What the executions do is an input. The maps have the bytes that `has_new_bits` looks at. -/
namespace AflLive.Fuzz.SaveIfInteresting
open Calibrate Runs

abbrev Input := List UInt8

structure Settings (n : Nat) extends Calibrate.Settings n where
  schedule : TopRated.Schedule
  execTmout : Nat
  hangTmout : Nat
  keepTimeouts : Bool

def keepUniqueHang : Nat := 500

def keepUniqueCrash : Nat := 10000

def nFuzzSize : Nat := 2 ^ 21

/-- A file of a hang or a crash. `hit` are the bytes of the trace that was compared; only the
statements read it. -/
structure Saved (n : Nat) where
  mem : Input
  hit : Fin n → Bool

structure Queued where
  entry : QueueEntry
  mem : Input
  nFuzzEntry : Nat

/-- The queue has the entries that `save_if_interesting` adds; the counters of hangs and crashes
are the numbers of their files. -/
structure State (n : Nat) where
  afl : Afl n
  virginTmout : Bitmap n := fun _ => 0xff
  virginCrash : Bitmap n := fun _ => 0xff
  queue : List Queued := []
  hangs : List (Saved n) := []
  crashes : List (Saved n) := []
  savedTmouts : Nat := 0
  totalTmouts : Nat := 0
  totalCrashes : Nat := 0
  nFuzz : Nat → Nat := fun _ => 0

/-- A hang run again with the longer timeout: the input as `write_to_testcase` leaves it, the
execution, and the calibration if the input is kept. -/
structure Rerun (n : Nat) where
  mem : Input
  exec : Calibrate.Execution n
  calibration : Calibration n

structure Call (n : Nat) where
  mem : Input
  fault : FsrvResult
  traceBits : Bitmap n
  target : Nat
  calibration : Calibration n
  again : Nat → Rerun n

/-- How a call fails to return: with `FATAL`, or it still runs after so many rounds. -/
inductive Stuck (n : Nat) where
  | fatal
  | running (s : State n)

section
variable {n : Nat}

def hit (trace : Bitmap n) : Fin n → Bool := fun i => decide (trace i ≠ 0)

/-- What `simplify_lookup` gives for a byte. -/
def sign (hit : Bool) : UInt8 := if hit then 128 else 1

def simplifyTrace (trace : Bitmap n) : Bitmap n := fun i => sign (hit trace i)

/-- The loop over the words of the map comes to the same. -/
theorem simplifyTrace_words (whole : 8 ∣ n) (trace : Bitmap n) :
    WordCoverage.simplifyTrace trace = simplifyTrace trace := by
  rw [WordCoverage.simplifyTrace_eq whole]
  funext i
  by_cases zero : trace i = 0 <;> simp [simplifyTrace, sign, hit, zero]

variable (cfg : Settings n)

def Settings.countsPaths : Bool :=
  cfg.schedule.num ≥ TopRated.Schedule.fast.num && cfg.schedule.num ≤ TopRated.Schedule.rare.num

def Settings.cksum (trace : Bitmap n) : Nat := if cfg.countsPaths then cfg.hash64 trace else 0

namespace State

def trace (s : State n) (traceBits : Bitmap n) : State n := { s with afl := { s.afl with traceBits } }

/-- The increment is saturated. -/
def countPath (cksum : Nat) (s : State n) : State n :=
  if cfg.countsPaths = true ∧ s.nFuzz (cksum % nFuzzSize) < 0xFFFFFFFF then
    { s with nFuzz := Function.update s.nFuzz (cksum % nFuzzSize) (s.nFuzz (cksum % nFuzzSize) + 1) }
  else s

/-- Behind the label `save_to_queue`. -/
def saveToQueue (target : Nat) (mem : Input) (cksum newBits : Nat) (c : Calibration n) (s : State n) :
    Except (Stuck n) (State n) :=
  let entry : QueueEntry :=
    { len := mem.length
      targetFunctionIdx := target
      execCksum := cfg.hash64 s.afl.traceBits
      hasNewCov := newBits == 2 }
  let r := calibrateCase cfg.toSettings c entry
    { s.afl with queuedWithCov := s.afl.queuedWithCov + if newBits = 2 then 1 else 0 }
  if r.fault = .error then .error .fatal
  else .ok { s with
    afl := r.afl
    nFuzz := if cksum ≠ 0 then Function.update s.nFuzz (cksum % nFuzzSize) 1 else s.nFuzz
    queue := s.queue ++ [⟨r.entry, mem, if cksum ≠ 0 then cksum % nFuzzSize else 0⟩] }

/-- Behind the label `keep_as_crash`. -/
def keepAsCrash (classified : Bool) (mem : Input) (s : State n) : State n :=
  let s := { s with totalCrashes := s.totalCrashes + 1 }
  let saved := s.crashes ++ [⟨mem, hit s.afl.traceBits⟩]
  if s.crashes.length ≥ keepUniqueCrash then s
  else if cfg.nonInstrumentedMode then { s with crashes := saved }
  else
    let trace := simplifyTrace (if classified then s.afl.traceBits else classifyCounts s.afl.traceBits)
    let (newBits, virginCrash) := hasNewBits trace s.virginCrash
    let t := { s.trace trace with virginCrash }
    if newBits = 0 then t else { t with crashes := saved }

/-- The check of a hang, before it is run again. -/
def newHang (classified : Bool) (s : State n) : Bool × State n :=
  if cfg.nonInstrumentedMode then (true, s)
  else
    let trace := simplifyTrace (if classified then s.afl.traceBits else classifyCounts s.afl.traceBits)
    let (newBits, virginTmout) := hasNewBits trace s.virginTmout
    (newBits != 0, { s.trace trace with virginTmout })

/-- What the second run says of a hang that shows something new. -/
inductive Judged (n : Nat) where
  | settled (s : State n)
  | inTime (s : State n)

/-- The second run, if there is one, and what is made of it but for the queue. -/
def judge (again : Rerun n) (classified : Bool) (mem : Input) (hits : Fin n → Bool) (s : State n) : Judged n :=
  if cfg.execTmout < cfg.hangTmout then
    let t := s.trace (classifyCounts again.exec.traceBits)
    if again.exec.stopSoon = false ∧ again.exec.fault = .crash then
      .settled (t.keepAsCrash cfg (classified || !cfg.nonInstrumentedMode) again.mem)
    else if again.exec.stopSoon = true ∨ again.exec.fault ≠ .tmout then
      if cfg.keepTimeouts then .inTime { t with savedTmouts := t.savedTmouts + 1 } else .settled t
    else .settled { t with hangs := t.hangs ++ [⟨again.mem, hits⟩] }
  else .settled { s with hangs := s.hangs ++ [⟨mem, hits⟩] }

end State

/-- The switch on the result. A hang that ends in time when it is run again goes to the queue
and comes back here. -/
def dispatch (call : Call n) (cksum : Nat) : Nat → Nat → Bool → Bool → Input → State n →
    Except (Stuck n) (Bool × State n)
  | 0, _, _, _, _, s => .error (.running s)
  | fuel + 1, round, classified, keeping, mem, s =>
    match call.fault with
    | .tmout =>
      if s.hangs.length ≥ keepUniqueHang then .ok (keeping, { s with totalTmouts := s.totalTmouts + 1 })
      else
        match { s with totalTmouts := s.totalTmouts + 1 }.newHang cfg classified with
        | (false, t) => .ok (keeping, t)
        | (true, t) =>
          match t.judge cfg (call.again round) classified mem (hit s.afl.traceBits) with
          | .settled u => .ok (keeping, u)
          | .inTime u =>
            match u.saveToQueue cfg call.target (call.again round).mem cksum 0 (call.again round).calibration with
            | .ok v =>
              dispatch call cksum fuel (round + 1) (classified || !cfg.nonInstrumentedMode) true (call.again round).mem v
            | .error e => .error e
    | .crash => .ok (keeping, s.keepAsCrash cfg classified mem)
    | .error => .error .fatal
    | _ => .ok (keeping, s)

def saveIfInteresting (fuel : Nat) (call : Call n) (s : State n) : Except (Stuck n) (Bool × State n) :=
  if call.mem.length = 0 then .ok (false, s)
  else
    let cksum := cfg.cksum call.traceBits
    let s := (s.trace call.traceBits).countPath cfg cksum
    if call.fault = cfg.expected then
      let trace := classifyCounts call.traceBits
      let (newBits, virginBits) := hasNewBits trace s.afl.virginBits
      if newBits = 0 then
        .ok (false, { s with totalCrashes := s.totalCrashes + if cfg.crashMode then 1 else 0 })
      else
        match { s with afl := { s.afl with traceBits := trace, virginBits } }.saveToQueue cfg call.target call.mem cksum
          newBits call.calibration with
        | .ok t => dispatch cfg call cksum fuel 0 true true call.mem t
        | .error e => .error e
    else dispatch cfg call cksum fuel 0 false false call.mem s

/-- An input that was executed, or an entry that is calibrated elsewhere. -/
inductive Event (n : Nat) where
  | save (call : Call n)
  | calibrate (q : QueueEntry) (c : Calibration n)

def State.step (s : State n) : Event n → Option (State n)
  | .save call =>
    match saveIfInteresting cfg (2 * n + 1) call s with
    | .ok (_, t) => some t
    | .error _ => none
  | .calibrate q c => some { s with afl := (calibrateCase cfg.toSettings c q s.afl).afl }

end

/-! ### Marks of a simplified trace -/

section
variable {n : Nat}

/-- Each byte of a map of hangs or crashes has two marks: that it was hit, that it was not. -/
theorem sign_and_wear (a b : Bool) (v : UInt8) : sign a &&& (v &&& ~~~sign b) ≠ 0 ↔ sign a &&& v ≠ 0 ∧ a ≠ b := by
  revert a b v
  decide +kernel

theorem hit_classifyCounts (trace : Bitmap n) : hit (classifyCounts trace) = hit trace := by
  funext i
  simp only [hit, classifyCounts, ne_eq, WordCoverage.countClass_eq_zero]

/-- Classified or not, a trace is simplified to the same. -/
theorem simplifyTrace_classified (classified : Bool) (trace : Bitmap n) :
    simplifyTrace (if classified then trace else classifyCounts trace) = simplifyTrace trace := by
  cases classified with
  | true => rfl
  | false =>
    funext i
    simp only [simplifyTrace, Bool.false_eq_true, if_false, hit_classifyCounts]

/-- The map once a trace with these hits has been compared. -/
def wear (hits : Fin n → Bool) (virgin : Bitmap n) : Bitmap n := fun i => virgin i &&& ~~~sign (hits i)

/-- Some mark of the trace has never been met. -/
def Unmet (hits : Fin n → Bool) (virgin : Bitmap n) : Prop := ∃ i, sign (hits i) &&& virgin i ≠ 0

theorem hasNewBits_simplified (trace virgin : Bitmap n) :
    (hasNewBits (simplifyTrace trace) virgin).2 = wear (hit trace) virgin ∧
      ((hasNewBits (simplifyTrace trace) virgin).1 ≠ 0 ↔ Unmet (hit trace) virgin) :=
  ⟨rfl, hasNewBits_pos⟩

theorem wear_met {hits : Fin n → Bool} {virgin : Bitmap n} (met : ¬ Unmet hits virgin) : wear hits virgin = virgin :=
  funext fun i => WordCoverage.and_not_of_disjoint (by_contra fun set => met ⟨i, set⟩)

/-- The marks a map still waits for. -/
def marks (virgin : Bitmap n) : Nat :=
  ∑ i, ((if sign true &&& virgin i ≠ 0 then 1 else 0) + if sign false &&& virgin i ≠ 0 then 1 else 0)

theorem marks_wear (hits : Fin n → Bool) (virgin : Bitmap n) :
    marks (wear hits virgin) + ∑ i, (if sign (hits i) &&& virgin i ≠ 0 then 1 else 0) = marks virgin := by
  unfold marks wear
  rw [← Finset.sum_add_distrib]
  refine Finset.sum_congr rfl fun i _ => ?_
  generalize hits i = b
  generalize virgin i = v
  revert b v
  decide +kernel

theorem marks_unmet {hits : Fin n → Bool} {virgin : Bitmap n} (unmet : Unmet hits virgin) :
    marks (wear hits virgin) < marks virgin := by
  obtain ⟨i, set⟩ := unmet
  have total := marks_wear hits virgin
  have one := Finset.single_le_sum (f := fun i => if sign (hits i) &&& virgin i ≠ 0 then 1 else 0)
    (fun _ _ => Nat.zero_le _) (Finset.mem_univ i)
  rw [if_pos set] at one
  omega

theorem marks_le (virgin : Bitmap n) : marks virgin ≤ 2 * n := by
  have bound : marks virgin ≤ ∑ _i : Fin n, 2 := by
    refine Finset.sum_le_sum fun i _ => ?_
    split <;> split <;> simp
  simpa [Nat.mul_comm] using bound

/-- The first trace leaves one mark for each byte. -/
theorem marks_first (hits : Fin n → Bool) : marks (wear hits fun _ => 0xff) = n := by
  have each (b : Bool) : ((if sign true &&& ((0xff : UInt8) &&& ~~~sign b) ≠ 0 then 1 else 0) +
      if sign false &&& ((0xff : UInt8) &&& ~~~sign b) ≠ 0 then 1 else 0) = 1 := by
    revert b
    decide
  have ones : marks (wear hits fun _ => 0xff) = ∑ _i : Fin n, 1 := Finset.sum_congr rfl fun i _ => each (hits i)
  simpa using ones

end

/-! ### Bits of the map of the queue -/

section
variable {n : Nat}

/-- The bits never seen. -/
def unseen (virgin : Bitmap n) : Finset (Fin n × Fin 8) :=
  Finset.univ.filter fun place => (virgin place.1).toBitVec.getLsbD place.2 = true

theorem mem_unseen {virgin : Bitmap n} {i : Fin n} {j : Fin 8} :
    (i, j) ∈ unseen virgin ↔ (virgin i).toBitVec.getLsbD j = true := by
  simp [unseen]

theorem unseen_card_le (virgin : Bitmap n) : (unseen virgin).card ≤ 8 * n := by
  have bound := Finset.card_le_univ (unseen virgin)
  rwa [Fintype.card_prod, Fintype.card_fin, Fintype.card_fin, Nat.mul_comm] at bound

theorem and_ne_zero_iff {x y : UInt8} :
    x &&& y ≠ 0 ↔ ∃ j : Fin 8, x.toBitVec.getLsbD j = true ∧ y.toBitVec.getLsbD j = true := by
  rw [ne_eq, ← WordCoverage.toBitVec_and_eq_zero]
  constructor
  · intro set
    by_contra none
    refine set (BitVec.eq_of_getLsbD_eq fun j low => ?_)
    rw [BitVec.getLsbD_and, BitVec.getLsbD_zero, Bool.and_eq_false_iff]
    by_contra both
    simp only [not_or, Bool.not_eq_false] at both
    exact none ⟨⟨j, low⟩, both⟩
  · rintro ⟨j, first, second⟩ zero
    have bit := congrArg (·.getLsbD j) zero
    simp only [BitVec.getLsbD_and, first, second, Bool.and_true, BitVec.getLsbD_zero] at bit
    cases bit

/-- Whatever a map has that only lost bits, it had before. -/
theorem unseen_shrinks {before after : Bitmap n} (shrinks : Shrinks before after) : unseen after ⊆ unseen before := by
  rintro ⟨i, j⟩ member
  rw [mem_unseen] at member ⊢
  -- a trace with this bit alone
  let trace : Bitmap n := Function.update (fun _ => 0) i ⟨BitVec.twoPow 8 j⟩
  have bit : (trace i).toBitVec = BitVec.twoPow 8 j := congrArg UInt8.toBitVec (Function.update_self ..)
  have hits : Hits trace after := ⟨i, and_ne_zero_iff.mpr ⟨j, by simp [bit], member⟩⟩
  obtain ⟨k, shared⟩ := shrinks trace hits
  by_cases at_ : k = i
  · subst at_
    obtain ⟨l, one, other⟩ := and_ne_zero_iff.mp shared
    rw [bit, BitVec.getLsbD_twoPow] at one
    have same : j = l := by
      simp only [Bool.and_eq_true, decide_eq_true_eq] at one
      exact Fin.ext one.2
    rwa [same]
  · rw [show trace k = 0 from Function.update_of_ne at_ .., UInt8.zero_and] at shared
    exact absurd rfl shared

/-- A trace with new bits takes some out of the map. -/
theorem unseen_found {trace virgin : Bitmap n} (found : (hasNewBits trace virgin).1 ≠ 0) :
    unseen (hasNewBits trace virgin).2 ⊂ unseen virgin := by
  refine (Finset.ssubset_iff_of_subset (unseen_shrinks (hasNewBits_shrinks trace virgin))).mpr ?_
  obtain ⟨i, shared⟩ := hasNewBits_pos.mp found
  obtain ⟨j, seen, new⟩ := and_ne_zero_iff.mp shared
  refine ⟨(i, j), mem_unseen.mpr new, fun still => ?_⟩
  have bit := mem_unseen.mp still
  simp only [hasNewBits, UInt8.toBitVec_and, UInt8.toBitVec_not, BitVec.getLsbD_and, BitVec.getLsbD_not, seen,
    Bool.not_true, Bool.and_false] at bit
  cases bit

end

/-! ### What a call can do -/

/-- The part of a state that the results are about. -/
structure Core (n : Nat) where
  virginBits : Bitmap n
  virginTmout : Bitmap n
  virginCrash : Bitmap n
  queued : Nat
  hangs : List (Saved n)
  crashes : List (Saved n)
  savedTmouts : Nat

def State.core {n : Nat} (s : State n) : Core n :=
  ⟨s.afl.virginBits, s.virginTmout, s.virginCrash, s.queue.length, s.hangs, s.crashes, s.savedTmouts⟩

/-- The moves a call is made of, in a fuzzer with instrumentation. -/
inductive Move {n : Nat} (c : Core n) : Core n → Prop where
  | found (virginBits : Bitmap n) (fewer : (unseen virginBits).card < (unseen c.virginBits).card) :
      Move c { c with virginBits, queued := c.queued + 1 }
  | calibrated (virginBits : Bitmap n) (fewer : unseen virginBits ⊆ unseen c.virginBits) : Move c { c with virginBits }
  | crash (mem : Input) (hits : Fin n → Bool) (room : c.crashes.length < keepUniqueCrash)
      (new : Unmet hits c.virginCrash) :
      Move c { c with virginCrash := wear hits c.virginCrash, crashes := c.crashes ++ [⟨mem, hits⟩] }
  | hang (mem : Input) (hits : Fin n → Bool) (room : c.hangs.length < keepUniqueHang) (new : Unmet hits c.virginTmout) :
      Move c { c with virginTmout := wear hits c.virginTmout, hangs := c.hangs ++ [⟨mem, hits⟩] }
  | dropped (hits : Fin n → Bool) (new : Unmet hits c.virginTmout) :
      Move c { c with virginTmout := wear hits c.virginTmout }
  | kept (hits : Fin n → Bool) (new : Unmet hits c.virginTmout) (virginBits : Bitmap n)
      (fewer : unseen virginBits ⊆ unseen c.virginBits) :
      Move c { c with
        virginTmout := wear hits c.virginTmout
        virginBits
        queued := c.queued + 1
        savedTmouts := c.savedTmouts + 1 }

abbrev Moves {n : Nat} (c d : Core n) : Prop := Relation.ReflTransGen Move c d

section
variable {n : Nat} {cfg : Settings n}

theorem calibrateCase_shrinks (settings : Calibrate.Settings n) (c : Calibration n) (q : QueueEntry) (afl : Afl n) :
    Shrinks afl.virginBits (calibrateCase settings c q afl).afl.virginBits := by
  have start (q : QueueEntry) (afl : Afl n) : Shrinks afl.virginBits (startStages settings q afl).afl.virginBits := by
    unfold startStages
    dsimp only
    split
    · exact hasNewBits_shrinks _ _
    · exact fun _ => id
  have stages (q : QueueEntry) (a : Afl n) (faults : List FsrvResult) : Shrinks a.virginBits
      (runStages settings c.exec calCyclesLong 0 { startStages settings q a with faults }).2.afl.virginBits :=
    (start q a).trans (runStages_explored settings c.exec calCyclesLong 0 { startStages settings q a with faults }).shrinks
  have executed : Shrinks afl.virginBits (execute settings c (begin settings q) afl).2.afl.virginBits := by
    unfold execute
    split
    · dsimp only
      split
      · exact fun _ => id
      · exact stages _ (Stages.execute ⟨afl, _, 0, false, 0, []⟩ c.dummy).afl _
    · exact stages _ afl (startStages settings (begin settings q) afl).faults
  unfold calibrateCase
  dsimp only
  split <;> exact executed

theorem saveToQueue_core {target : Nat} {mem : Input} {cksum newBits : Nat} {c : Calibration n} {s t : State n}
    (saved : s.saveToQueue cfg target mem cksum newBits c = .ok t) :
    unseen t.afl.virginBits ⊆ unseen s.afl.virginBits ∧
      t.core = { s.core with virginBits := t.afl.virginBits, queued := s.core.queued + 1 } := by
  unfold State.saveToQueue at saved
  dsimp only at saved
  generalize calibration : calibrateCase _ _ _ _ = r at saved
  have fewer : Shrinks s.afl.virginBits r.afl.virginBits := by
    rw [← calibration]
    exact calibrateCase_shrinks _ _ _ _
  by_cases fatal : r.fault = .error
  · rw [if_pos fatal] at saved
    cases saved
  · rw [if_neg fatal] at saved
    obtain rfl := Except.ok.inj saved
    exact ⟨unseen_shrinks fewer, by simp [State.core]⟩

/-- A crash is kept exactly if there is room and it shows something new. -/
theorem keepAsCrash_spec (instrumented : cfg.nonInstrumentedMode = false) (classified : Bool) (mem : Input)
    (s : State n) (t : State n) (is : s.keepAsCrash cfg classified mem = t) :
    (t.core = s.core ∧ (s.crashes.length < keepUniqueCrash → ¬ Unmet (hit s.afl.traceBits) s.virginCrash)) ∨
      (s.crashes.length < keepUniqueCrash ∧ Unmet (hit s.afl.traceBits) s.virginCrash ∧
        t.core = { s.core with
          virginCrash := wear (hit s.afl.traceBits) s.virginCrash
          crashes := s.crashes ++ [⟨mem, hit s.afl.traceBits⟩] }) := by
  obtain ⟨worn, new⟩ := hasNewBits_simplified s.afl.traceBits s.virginCrash
  unfold State.keepAsCrash at is
  simp only [instrumented, Bool.false_eq_true, if_false, simplifyTrace_classified] at is
  subst is
  by_cases full : s.crashes.length ≥ keepUniqueCrash
  · rw [if_pos full]
    exact .inl ⟨rfl, fun room => absurd full (Nat.not_le.mpr room)⟩
  · rw [if_neg full]
    by_cases unmet : Unmet (hit s.afl.traceBits) s.virginCrash
    · rw [if_neg (new.mpr unmet)]
      exact .inr ⟨Nat.not_le.mp full, unmet, by rw [← worn]; rfl⟩
    · rw [if_pos (not_not.mp fun some => unmet (new.mp some))]
      refine .inl ⟨?_, fun _ => unmet⟩
      have same := worn.trans (wear_met unmet)
      simp only [State.core, State.trace, same]

/-- The map of hangs after the check of one. -/
theorem newHang_spec (instrumented : cfg.nonInstrumentedMode = false) (classified : Bool) (s : State n) :
    ((s.newHang cfg classified).1 = true ↔ Unmet (hit s.afl.traceBits) s.virginTmout) ∧
      (s.newHang cfg classified).2.core = { s.core with virginTmout := wear (hit s.afl.traceBits) s.virginTmout } := by
  obtain ⟨worn, new⟩ := hasNewBits_simplified s.afl.traceBits s.virginTmout
  unfold State.newHang
  simp only [instrumented, Bool.false_eq_true, if_false, simplifyTrace_classified]
  refine ⟨?_, ?_⟩
  · rw [bne_iff_ne, new]
  · rw [← worn]
    rfl

variable {call : Call n} {cksum fuel round : Nat} {classified keeping kept : Bool} {mem : Input} {s t : State n}

/-- What a turn of the switch can come to. -/
inductive Turn (cfg : Settings n) (call : Call n) (cksum fuel round : Nat) (keeping : Bool) (s : State n) :
    Except (Stuck n) (Bool × State n) → Prop where
  | returned (t : State n) (moves : Moves s.core t.core) : Turn cfg call cksum fuel round keeping s (.ok (keeping, t))
  | fatal : Turn cfg call cksum fuel round keeping s (.error .fatal)
  | again (t : State n) (move : Move s.core t.core) (fewer : marks t.virginTmout < marks s.virginTmout) :
      Turn cfg call cksum fuel round keeping s
        (dispatch cfg call cksum fuel (round + 1) true true (call.again round).mem t)

theorem keepAsCrash_moves (instrumented : cfg.nonInstrumentedMode = false) (classified : Bool) (mem : Input)
    (s : State n) : Moves s.core (s.keepAsCrash cfg classified mem).core := by
  rcases keepAsCrash_spec instrumented classified mem s _ rfl with ⟨same, -⟩ | ⟨room, unmet, core⟩
  · rw [same]
  · rw [core]
    exact .single (.crash mem _ room unmet)

/-- A hang that shows something new is kept, dropped, kept as a crash, or ended in time. -/
theorem judge_moves (instrumented : cfg.nonInstrumentedMode = false) {again : Rerun n} {hits : Fin n → Bool} {u : State n}
    (room : s.hangs.length < keepUniqueHang) (unmet : Unmet hits s.virginTmout)
    (core : t.core = { s.core with virginTmout := wear hits s.virginTmout }) :
    (t.judge cfg again classified mem hits = .settled u → Moves s.core u.core) ∧
      (t.judge cfg again classified mem hits = .inTime u →
        u.core = { t.core with savedTmouts := t.core.savedTmouts + 1 }) := by
  have dropped : Move s.core t.core := core ▸ .dropped hits unmet
  have hang (mem : Input) : Move s.core { t.core with hangs := t.core.hangs ++ [⟨mem, hits⟩] } := by
    rw [core]
    exact .hang mem hits room unmet
  unfold State.judge
  dsimp only
  constructor
  · intro is
    split at is
    · split at is
      · obtain rfl := State.Judged.settled.inj is
        exact .head dropped (keepAsCrash_moves instrumented _ again.mem (t.trace (classifyCounts again.exec.traceBits)))
      · split at is
        · split at is
          · cases is
          · obtain rfl := State.Judged.settled.inj is
            exact .single dropped
        · obtain rfl := State.Judged.settled.inj is
          exact .single (hang again.mem)
    · obtain rfl := State.Judged.settled.inj is
      exact .single (hang mem)
  · intro is
    split at is
    · split at is
      · cases is
      · split at is
        · split at is
          · obtain rfl := State.Judged.inTime.inj is
            rfl
          · cases is
        · cases is
    · cases is

theorem saveToQueue_error {target newBits : Nat} {c : Calibration n} {e : Stuck n}
    (failed : s.saveToQueue cfg target mem cksum newBits c = .error e) : e = .fatal := by
  unfold State.saveToQueue at failed
  dsimp only at failed
  generalize calibrateCase _ _ _ _ = r at failed
  by_cases fatal : r.fault = .error
  · rw [if_pos fatal] at failed
    exact (Except.error.inj failed).symm
  · rw [if_neg fatal] at failed
    cases failed

theorem dispatch_turn (instrumented : cfg.nonInstrumentedMode = false) :
    Turn cfg call cksum fuel round keeping s
      (dispatch cfg call cksum (fuel + 1) round classified keeping mem s) := by
  unfold dispatch
  split
  · by_cases full : s.hangs.length ≥ keepUniqueHang
    · rw [if_pos full]
      exact .returned _ .refl
    · rw [if_neg full]
      have room : s.hangs.length < keepUniqueHang := Nat.not_le.mp full
      obtain ⟨fresh, core⟩ := newHang_spec instrumented classified { s with totalTmouts := s.totalTmouts + 1 }
      split
      · next t is =>
        rw [is] at fresh core
        have met : ¬ Unmet (hit s.afl.traceBits) s.virginTmout := fun unmet => Bool.false_ne_true (fresh.mpr unmet)
        have same : t.core = s.core := by
          rw [core, wear_met met]
          rfl
        exact .returned t (same ▸ .refl)
      · next t is =>
        rw [is] at fresh core
        have unmet : Unmet (hit s.afl.traceBits) s.virginTmout := fresh.mp rfl
        split
        · next u judged => exact .returned u ((judge_moves instrumented room unmet core).1 judged)
        · next u judged =>
          have inTime := (judge_moves instrumented (u := u) room unmet core).2 judged
          split
          · next v saved =>
            obtain ⟨fewer, queued⟩ := saveToQueue_core saved
            rw [instrumented, Bool.not_false, Bool.or_true]
            have worn : v.core = { s.core with
                virginTmout := wear (hit s.afl.traceBits) s.virginTmout
                virginBits := v.afl.virginBits
                queued := s.core.queued + 1
                savedTmouts := s.core.savedTmouts + 1 } := by
              rw [queued, inTime, core]
              rfl
            have bits : u.core.virginBits = s.core.virginBits := by
              rw [inTime, core]
              rfl
            have less : unseen v.afl.virginBits ⊆ unseen s.core.virginBits := by
              rw [← bits]
              exact fewer
            refine .again v (worn ▸ .kept _ unmet v.afl.virginBits less) ?_
            rw [show v.virginTmout = wear _ _ from congrArg Core.virginTmout worn]
            exact marks_unmet unmet
          · next e failed =>
            rw [saveToQueue_error failed]
            exact .fatal
  · exact .returned _ (keepAsCrash_moves instrumented classified mem s)
  · exact .fatal
  · exact .returned _ .refl

theorem dispatch_moves (instrumented : cfg.nonInstrumentedMode = false)
    (ran : dispatch cfg call cksum fuel round classified keeping mem s = .ok (kept, t)) : Moves s.core t.core := by
  induction fuel generalizing round classified keeping mem s with
  | zero => cases ran
  | succ fuel ih =>
    have turn : Turn cfg call cksum fuel round keeping s
      (dispatch cfg call cksum (fuel + 1) round classified keeping mem s) := dispatch_turn instrumented
    rw [ran] at turn
    generalize outcome : Except.ok (kept, t) = o at turn
    cases turn with
    | returned u moves =>
      cases outcome
      exact moves
    | fatal => cases outcome
    | again u move => exact .head move (ih outcome.symm)

/-- Every round that goes on takes a mark out of the map of hangs. -/
theorem dispatch_ends (instrumented : cfg.nonInstrumentedMode = false) (enough : marks s.virginTmout < fuel) :
    dispatch cfg call cksum fuel round classified keeping mem s ≠ .error (.running t) := by
  induction fuel generalizing round classified keeping mem s with
  | zero => exact absurd enough (Nat.not_lt_zero _)
  | succ fuel ih =>
    have turn : Turn cfg call cksum fuel round keeping s
      (dispatch cfg call cksum (fuel + 1) round classified keeping mem s) := dispatch_turn instrumented
    intro stuck
    rw [stuck] at turn
    generalize outcome : Except.error (Stuck.running t) = o at turn
    cases turn with
    | returned => cases outcome
    | fatal => cases outcome
    | again u _ fewer => exact ih (by omega) outcome.symm

@[simp] theorem countPath_core (s : State n) : (s.countPath cfg cksum).core = s.core := by
  unfold State.countPath
  split <;> rfl

/-- An input of the expected result that shows new bits, on its way to the switch. -/
theorem found_move {trace : Bitmap n} {target : Nat} {c : Calibration n}
    (new : (hasNewBits trace s.afl.virginBits).1 ≠ 0)
    (saved : { s with afl := { s.afl with
        traceBits := trace
        virginBits := (hasNewBits trace s.afl.virginBits).2 } }.saveToQueue
      cfg target mem cksum (hasNewBits trace s.afl.virginBits).1 c = .ok t) : Move s.core t.core := by
  obtain ⟨fewer, core⟩ := saveToQueue_core saved
  have less := (Finset.card_le_card fewer).trans_lt (Finset.card_lt_card (unseen_found new))
  rw [core]
  exact .found t.afl.virginBits less

theorem saveIfInteresting_moves (instrumented : cfg.nonInstrumentedMode = false)
    (ran : saveIfInteresting cfg fuel call s = .ok (kept, t)) : Moves s.core t.core := by
  have start : ((s.trace call.traceBits).countPath cfg (cfg.cksum call.traceBits)).core = s.core := countPath_core _
  unfold saveIfInteresting at ran
  dsimp only at ran
  split at ran
  · cases ran
    exact .refl
  · rw [← start]
    generalize (s.trace call.traceBits).countPath cfg (cfg.cksum call.traceBits) = u at ran
    split at ran
    · split at ran
      · cases ran
        exact .refl
      · next new =>
        split at ran
        · next v saved => exact .head (found_move new saved) (dispatch_moves instrumented ran)
        · cases ran
    · exact dispatch_moves instrumented ran

/-- With instrumentation every call comes to an end: `FATAL`, or it returns. Without the bound
on the rounds the source would loop as long as the second run of a hang ends in time. -/
theorem save_ends (instrumented : cfg.nonInstrumentedMode = false) (enough : 2 * n < fuel) (call : Call n) (s : State n) :
    (∃ kept t, saveIfInteresting cfg fuel call s = .ok (kept, t)) ∨ saveIfInteresting cfg fuel call s = .error .fatal := by
  have ends {classified keeping : Bool} {mem : Input} {u : State n} :
      (∃ kept t, dispatch cfg call (cfg.cksum call.traceBits) fuel 0 classified keeping mem u = .ok (kept, t)) ∨
        dispatch cfg call (cfg.cksum call.traceBits) fuel 0 classified keeping mem u = .error .fatal := by
    cases outcome : dispatch cfg call (cfg.cksum call.traceBits) fuel 0 classified keeping mem u with
    | ok result => exact .inl ⟨result.1, result.2, rfl⟩
    | error e =>
      cases e with
      | fatal => exact .inr rfl
      | running t => exact absurd outcome (dispatch_ends instrumented ((marks_le _).trans_lt enough))
  unfold saveIfInteresting
  dsimp only
  split
  · exact .inl ⟨_, _, rfl⟩
  · split
    · split
      · exact .inl ⟨_, _, rfl⟩
      · split
        · exact ends
        · next e failed =>
          rw [saveToQueue_error failed]
          exact .inr rfl
    · exact ends

/-- A map of one byte. -/
def plain : Settings 1 where
  crashMode := false
  nonInstrumentedMode := false
  calFast := true
  cmplogMode := false
  hash64 := fun _ => 1
  schedule := .explore
  execTmout := 20
  hangTmout := 1000
  keepTimeouts := false

def blank : Afl 1 where
  virginBits := fun _ => 0xff
  varBytes := fun _ => 0
  firstTrace := fun _ => 0
  traceBits := fun _ => 0
  totalCalUs := fun _ => 0
  totalCalCycles := fun _ => 0
  totalBitmapSize := fun _ => 0
  totalBitmapEntries := fun _ => 0
  queuedWithCov := 0
  queuedVariable := 0
  stageCur := 0

def calm : Calibration 1 := ⟨⟨.ok, fun _ => 1, false⟩, fun _ => ⟨.ok, fun _ => 1, false⟩, 10, false⟩

/-- An input that hits the byte so often and ends with this result, but in time in a second run. -/
def ending (fault : FsrvResult) (hits : UInt8) : Call 1 :=
  ⟨[1], fault, fun _ => hits, 0, calm, fun _ => ⟨[1], ⟨.ok, fun _ => 1, false⟩, calm⟩⟩

def lateOnly : Call 1 := ending .tmout 1

theorem lateOnly_ends :
    (∃ kept t, saveIfInteresting { plain with keepTimeouts := true } 3 lateOnly { afl := blank } = .ok (kept, t)) ∨
      saveIfInteresting { plain with keepTimeouts := true } 3 lateOnly { afl := blank } = .error .fatal :=
  save_ends rfl (by decide) lateOnly { afl := blank }

theorem step_moves (instrumented : cfg.nonInstrumentedMode = false) {event : Event n}
    (stepped : s.step cfg event = some t) : Moves s.core t.core := by
  cases event with
  | save call =>
    simp only [State.step] at stepped
    split at stepped
    · next kept u ran =>
      obtain rfl := Option.some.inj stepped
      exact saveIfInteresting_moves instrumented ran
    · cases stepped
  | calibrate q c =>
    obtain rfl := Option.some.inj stepped
    exact .single (.calibrated _ (unseen_shrinks (calibrateCase_shrinks _ _ _ _)))

/-- What every move keeps, every run keeps. -/
theorem run_core (instrumented : cfg.nonInstrumentedMode = false) {P : Core n → Prop} {events : List (Event n)}
    (kept : ∀ c d, P c → Move c d → P d) (start : P s.core) (ran : run (State.step cfg) s events = some t) : P t.core := by
  have along {c d : Core n} (moves : Moves c d) (holds : P c) : P d := by
    induction moves with
    | refl => exact holds
    | tail _ move ih => exact kept _ _ ih move
  exact run_invariant (fun s : State n => P s.core)
    (fun u event v holds stepped => along (step_moves instrumented stepped) holds) start ran

end

/-! ### Crashes are kept if they differ -/

section
variable {n : Nat}

/-- The map of crashes has the marks that no kept crash has. -/
def Marked (virgin : Bitmap n) (saved : List (Saved n)) : Prop :=
  ∀ i b, sign b &&& virgin i ≠ 0 ↔ ∀ file ∈ saved, file.hit i ≠ b

theorem Marked.empty : Marked (n := n) (fun _ => 0xff) [] := by
  intro i b
  refine iff_of_true (show sign b &&& 0xff ≠ 0 from ?_) nofun
  revert b
  decide

theorem Marked.append {virgin : Bitmap n} {saved : List (Saved n)} (marked : Marked virgin saved) (mem : Input)
    (hits : Fin n → Bool) : Marked (wear hits virgin) (saved ++ [⟨mem, hits⟩]) := by
  intro i b
  rw [wear, sign_and_wear, marked i b]
  simp only [List.mem_append, List.mem_singleton]
  constructor
  · rintro ⟨others, own⟩ file (earlier | rfl)
    · exact others file earlier
    · exact own.symm
  · intro all
    exact ⟨fun file member => all file (.inl member), (all ⟨mem, hits⟩ (.inr rfl)).symm⟩

theorem Marked.unmet_iff {virgin : Bitmap n} {saved : List (Saved n)} (marked : Marked virgin saved)
    {hits : Fin n → Bool} : Unmet hits virgin ↔ ∃ i, ∀ file ∈ saved, file.hit i ≠ hits i :=
  exists_congr fun i => marked i (hits i)

theorem Marked.move {c d : Core n} (marked : Marked c.virginCrash c.crashes) (move : Move c d) :
    Marked d.virginCrash d.crashes := by
  cases move with
  | crash mem hits => exact marked.append mem hits
  | found | calibrated | hang | dropped | kept => exact marked

/-- After any run: an input that crashes is kept as a crash exactly if some byte of its trace is
hit where every crash kept before has not hit it, or the other way round. -/
theorem crash_kept_iff {cfg : Settings n} (instrumented : cfg.nonInstrumentedMode = false)
    (normal : cfg.crashMode = false) {start : Afl n} {events : List (Event n)} {s : State n}
    (ran : run (State.step cfg) { afl := start } events = some s) {call : Call n} (nonempty : call.mem ≠ [])
    (crashed : call.fault = .crash) (room : s.crashes.length < keepUniqueCrash) (fuel : Nat) :
    ∃ t, saveIfInteresting cfg (fuel + 1) call s = .ok (false, t) ∧ t.crashes =
      if ∃ i, ∀ file ∈ s.crashes, file.hit i ≠ hit call.traceBits i then
        s.crashes ++ [⟨call.mem, hit call.traceBits⟩]
      else s.crashes := by
  have marked : Marked s.virginCrash s.crashes :=
    run_core (P := fun c => Marked c.virginCrash c.crashes) instrumented (fun c d => Marked.move) Marked.empty ran
  have other : call.fault ≠ cfg.expected := by
    rw [crashed, Settings.expected, normal]
    decide
  have same : ((s.trace call.traceBits).countPath cfg (cfg.cksum call.traceBits)).core = s.core := countPath_core _
  have trace : ((s.trace call.traceBits).countPath cfg (cfg.cksum call.traceBits)).afl.traceBits = call.traceBits := by
    unfold State.countPath
    split <;> rfl
  unfold saveIfInteresting
  dsimp only
  rw [if_neg (fun empty => nonempty (List.length_eq_zero_iff.mp empty)), if_neg other]
  generalize (s.trace call.traceBits).countPath cfg (cfg.cksum call.traceBits) = u at same trace
  have crashes : u.crashes = s.crashes := congrArg Core.crashes same
  have virgin : u.virginCrash = s.virginCrash := congrArg Core.virginCrash same
  unfold dispatch
  simp only [crashed]
  refine ⟨_, rfl, ?_⟩
  have spec := keepAsCrash_spec instrumented false call.mem u _ rfl
  rw [trace, crashes, virgin, marked.unmet_iff] at spec
  rcases spec with ⟨unchanged, met⟩ | ⟨-, unmet, core⟩
  · rw [if_neg (met room)]
    exact (congrArg Core.crashes unchanged).trans crashes
  · rw [if_pos unmet]
    exact congrArg Core.crashes core

/-- A crash that hits the byte as one before it did is not kept. -/
theorem same_crash_dropped : ∃ s t, run (State.step plain) { afl := blank } [.save (ending .crash 1)] = some s ∧
    saveIfInteresting plain 1 (ending .crash 5) s = .ok (false, t) ∧ t.crashes = s.crashes := by
  have one : (run (State.step plain) { afl := blank } [.save (ending .crash 1)]).map
      (fun s => s.crashes.map fun file => file.hit 0) = some [true] := by decide +kernel
  obtain ⟨s, ran, hits⟩ := Option.map_eq_some_iff.mp one
  have room : s.crashes.length < keepUniqueCrash := by
    have length := congrArg List.length hits
    rw [List.length_map] at length
    rw [length]
    decide
  obtain ⟨t, saved, crashes⟩ := crash_kept_iff rfl rfl ran (show (ending .crash 5).mem ≠ [] by decide) rfl room 0
  refine ⟨s, t, ran, saved, crashes.trans (if_neg ?_)⟩
  rintro ⟨i, differs⟩
  obtain ⟨file, member, same⟩ : ∃ file ∈ s.crashes, file.hit 0 = true := by
    have first : true ∈ s.crashes.map fun file => file.hit 0 := by simp [hits]
    exact List.mem_map.mp first
  obtain rfl : i = 0 := Subsingleton.elim i 0
  exact differs file member same

end

/-! ### How much is kept -/

section
variable {n : Nat} {virgin : Bitmap n} {count : Nat} {hits : Fin n → Bool}

/-- A map that so many finds were taken from: the first leaves one mark for each byte. -/
def Spent (virgin : Bitmap n) (count : Nat) : Prop :=
  (count = 0 ∧ virgin = fun _ => 0xff) ∨ count + marks virgin ≤ n + 1

theorem Spent.le (spent : Spent virgin count) : count ≤ n + 1 := by
  rcases spent with ⟨none, -⟩ | bound <;> omega

theorem Spent.next (spent : Spent virgin count) (new : Unmet hits virgin) : Spent (wear hits virgin) (count + 1) := by
  rcases spent with ⟨rfl, rfl⟩ | bound
  · exact .inr (by rw [marks_first]; omega)
  · have less := marks_unmet new
    exact .inr (by omega)

theorem Spent.fewer {less : Nat} (spent : Spent virgin count) (le : less ≤ count) : Spent virgin less := by
  rcases spent with ⟨none, untouched⟩ | bound
  · exact .inl ⟨by omega, untouched⟩
  · exact .inr (by omega)

structure Accounted (c : Core n) : Prop where
  crashes : Spent c.virginCrash c.crashes.length
  hangs : Spent c.virginTmout (c.hangs.length + c.savedTmouts)
  crashRoom : c.crashes.length ≤ keepUniqueCrash
  hangRoom : c.hangs.length ≤ keepUniqueHang
  queue : c.queued + (unseen c.virginBits).card ≤ 8 * n + c.savedTmouts

theorem Accounted.move {c d : Core n} (accounted : Accounted c) (move : Move c d) : Accounted d := by
  obtain ⟨crashes, hangs, crashRoom, hangRoom, queue⟩ := accounted
  cases move with
  | found virginBits fewer => exact ⟨crashes, hangs, crashRoom, hangRoom, by dsimp only; omega⟩
  | calibrated virginBits fewer =>
    have le := Finset.card_le_card fewer
    exact ⟨crashes, hangs, crashRoom, hangRoom, by dsimp only; omega⟩
  | crash mem hits room new =>
    exact ⟨by simpa using crashes.next new, hangs, by simpa using room, hangRoom, queue⟩
  | hang mem hits room new =>
    refine ⟨crashes, ?_, crashRoom, by simpa using room, queue⟩
    simpa [Nat.add_right_comm] using hangs.next new
  | dropped hits new => exact ⟨crashes, (hangs.next new).fewer (Nat.le_succ _), crashRoom, hangRoom, queue⟩
  | kept hits new virginBits fewer =>
    have le := Finset.card_le_card fewer
    exact ⟨crashes, hangs.next new, crashRoom, hangRoom, by dsimp only; omega⟩

/-- However long the fuzzer runs: the crashes it keeps, and the hangs together with the timeouts
it queues, are at most one more than the bytes of the map, and the rest of what it queues is at
most the bits of the map. -/
theorem saves_bounded {cfg : Settings n} (instrumented : cfg.nonInstrumentedMode = false) {start : Afl n}
    {events : List (Event n)} {s : State n} (ran : run (State.step cfg) { afl := start } events = some s) :
    s.crashes.length ≤ min keepUniqueCrash (n + 1) ∧ s.hangs.length ≤ keepUniqueHang ∧
      s.hangs.length + s.savedTmouts ≤ n + 1 ∧ s.queue.length ≤ 8 * n + s.savedTmouts := by
  have first : Accounted (State.core { afl := start }) :=
    ⟨.inl ⟨rfl, rfl⟩, .inl ⟨rfl, rfl⟩, Nat.zero_le _, Nat.zero_le _, by
      have bound := unseen_card_le start.virginBits
      simp only [State.core, List.length_nil]
      omega⟩
  have accounted : Accounted s.core := run_core instrumented (fun c d => Accounted.move) first ran
  refine ⟨le_min accounted.crashRoom accounted.crashes.le, accounted.hangRoom, accounted.hangs.le, ?_⟩
  exact (Nat.le_add_right _ _).trans accounted.queue

theorem crashes_bounded : ∃ s, run (State.step plain) { afl := blank }
    [.save (ending .crash 1), .save (ending .crash 5), .save (ending .crash 0)] = some s ∧
      s.crashes.length ≤ min keepUniqueCrash 2 := by
  have ran : (run (State.step plain) { afl := blank }
    [.save (ending .crash 1), .save (ending .crash 5), .save (ending .crash 0)]).isSome = true := by decide +kernel
  obtain ⟨s, ran⟩ := Option.isSome_iff_exists.mp ran
  exact ⟨s, ran, (saves_bounded rfl ran).1⟩

end

/-! ### Without instrumentation -/

section
variable {n : Nat}

theorem runStages_aborted {settings : Calibrate.Settings n} {exec : Nat → Calibrate.Execution n} {fuel stageCur : Nat}
    {st : Stages n} {fault : FsrvResult} {stopped : Bool}
    (aborted : (runStages settings exec fuel stageCur st).1 = .aborted fault stopped) :
    fault = .noinst ∨ ∃ k, fault = (exec k).fault := by
  induction fuel generalizing stageCur st with
  | zero => cases aborted
  | succ fuel ih =>
    unfold runStages at aborted
    split at aborted
    · split at aborted
      · next ending failed =>
        rcases checkRun_some failed with rfl | rfl | ⟨rfl, -⟩
        · cases aborted
          exact .inr ⟨stageCur, rfl⟩
        · cases aborted
          exact .inl rfl
        · cases aborted
          exact .inr ⟨stageCur, rfl⟩
      · exact ih aborted
    · cases aborted

/-- A calibration whose executions all work does not report that the target cannot be run. -/
theorem calibrateCase_works {settings : Calibrate.Settings n} {c : Calibration n} (dummy : c.dummy.fault ≠ .error)
    (exec : ∀ k, (c.exec k).fault ≠ .error) (q : QueueEntry) (afl : Afl n) :
    (calibrateCase settings c q afl).fault ≠ .error := by
  have stages {st : Stages n} {fault : FsrvResult} {stopped : Bool}
      (aborted : (runStages settings c.exec calCyclesLong 0 st).1 = .aborted fault stopped) : fault ≠ .error := by
    rcases runStages_aborted aborted with rfl | ⟨k, rfl⟩
    · decide
    · exact exec k
  have executed {fault : FsrvResult} {stopped : Bool}
      (aborted : (execute settings c (begin settings q) afl).1 = .aborted fault stopped) : fault ≠ .error := by
    unfold execute at aborted
    split at aborted
    · dsimp only at aborted
      split at aborted
      · next ending failed =>
        rcases checkRun_some failed with rfl | rfl | ⟨rfl, -⟩
        · cases aborted
          exact dummy
        · cases aborted
          decide
        · cases aborted
          exact dummy
      · exact stages aborted
    · exact stages aborted
  unfold calibrateCase
  dsimp only
  split
  · next fault stopped ending => exact executed ending
  · show verdict settings _ _ ≠ .error
    unfold verdict
    split
    · decide
    · unfold Calibrate.Settings.expected
      split <;> decide

variable {cfg : Settings n} {call : Call n}

/-- Nothing tells the second hang from the first: the input goes to the queue round after round. -/
theorem dispatch_spins (blind : cfg.nonInstrumentedMode = true) (keeps : cfg.keepTimeouts = true)
    (rerun : cfg.execTmout < cfg.hangTmout) (hung : call.fault = .tmout)
    (inTime : ∀ k, (call.again k).exec.stopSoon = true ∨ (call.again k).exec.fault = .ok)
    (works : ∀ k, (call.again k).calibration.dummy.fault ≠ .error ∧
      ∀ j, ((call.again k).calibration.exec j).fault ≠ .error)
    (cksum fuel round : Nat) (classified keeping : Bool) (mem : Input) {s : State n}
    (room : s.hangs.length < keepUniqueHang) :
    ∃ t, dispatch cfg call cksum fuel round classified keeping mem s = .error (.running t) ∧
      t.queue.length = s.queue.length + fuel := by
  induction fuel generalizing round classified keeping mem s with
  | zero => exact ⟨s, rfl, rfl⟩
  | succ fuel ih =>
    obtain ⟨v, judged, queue, hangs⟩ : ∃ v,
        { s with totalTmouts := s.totalTmouts + 1 }.judge cfg (call.again round) classified mem (hit s.afl.traceBits) =
          .inTime v ∧ v.queue = s.queue ∧ v.hangs = s.hangs := by
      have uncrashed : ¬ ((call.again round).exec.stopSoon = false ∧ (call.again round).exec.fault = .crash) := by
        rintro ⟨running, crash⟩
        rcases inTime round with stop | ok
        · exact Bool.false_ne_true (running.symm.trans stop)
        · cases crash.symm.trans ok
      have ended : (call.again round).exec.stopSoon = true ∨ (call.again round).exec.fault ≠ .tmout :=
        (inTime round).imp_right fun ok => by rw [ok]; decide
      unfold State.judge
      dsimp only
      rw [if_pos rerun, if_neg uncrashed, if_pos ended, if_pos keeps]
      exact ⟨_, rfl, rfl, rfl⟩
    obtain ⟨w, saved, longer, still⟩ : ∃ w,
        v.saveToQueue cfg call.target (call.again round).mem cksum 0 (call.again round).calibration = .ok w ∧
          w.queue.length = s.queue.length + 1 ∧ w.hangs = s.hangs := by
      unfold State.saveToQueue
      dsimp only
      rw [if_neg (calibrateCase_works (works round).1 (works round).2 _ _)]
      exact ⟨_, rfl, by simp [queue], hangs⟩
    obtain ⟨t, spins, length⟩ := ih (round + 1) (classified || !cfg.nonInstrumentedMode) true (call.again round).mem
      (still.symm ▸ room)
    refine ⟨t, ?_, by omega⟩
    unfold dispatch
    simp only [hung]
    rw [if_neg (Nat.not_le.mpr room)]
    simp only [State.newHang, blind, if_true, judged, saved]
    rw [blind] at spins
    exact spins

/-- Without instrumentation a hang that ends in time whenever it is run again, or whose second
run is interrupted, is queued once more in every round, and the call does not return. -/
theorem blind_call_spins (blind : cfg.nonInstrumentedMode = true) (keeps : cfg.keepTimeouts = true)
    (rerun : cfg.execTmout < cfg.hangTmout) (nonempty : call.mem ≠ []) (hung : call.fault = .tmout)
    (inTime : ∀ k, (call.again k).exec.stopSoon = true ∨ (call.again k).exec.fault = .ok)
    (works : ∀ k, (call.again k).calibration.dummy.fault ≠ .error ∧
      ∀ j, ((call.again k).calibration.exec j).fault ≠ .error)
    {s : State n} (room : s.hangs.length < keepUniqueHang) (fuel : Nat) :
    ∃ t, saveIfInteresting cfg fuel call s = .error (.running t) ∧ t.queue.length = s.queue.length + fuel := by
  have other : call.fault ≠ cfg.expected := by
    rw [hung, Settings.expected]
    split <;> decide
  have same : ((s.trace call.traceBits).countPath cfg (cfg.cksum call.traceBits)).core = s.core := countPath_core _
  unfold saveIfInteresting
  dsimp only
  rw [if_neg (fun empty => nonempty (List.length_eq_zero_iff.mp empty)), if_neg other]
  generalize (s.trace call.traceBits).countPath cfg (cfg.cksum call.traceBits) = u at same
  have hangs : u.hangs = s.hangs := congrArg Core.hangs same
  have queued : u.queue.length = s.queue.length := congrArg Core.queued same
  obtain ⟨t, spins, length⟩ := dispatch_spins blind keeps rerun hung inTime works (cfg.cksum call.traceBits) fuel 0 false
    false call.mem (hangs.symm ▸ room)
  exact ⟨t, spins, length.trans (congrArg (· + fuel) queued)⟩

/-- The hang of `lateOnly` again, in a fuzzer that does not look at traces. -/
theorem lateOnly_spins : ∃ t,
    saveIfInteresting { plain with nonInstrumentedMode := true, keepTimeouts := true } 7 lateOnly { afl := blank } =
      .error (.running t) ∧ t.queue.length = 7 :=
  blind_call_spins rfl rfl (by decide) (by decide) rfl (fun _ => .inr rfl)
    (fun _ => ⟨(by decide : FsrvResult.ok ≠ .error), fun _ => (by decide : FsrvResult.ok ≠ .error)⟩) (by decide) 7

end

end AflLive.Fuzz.SaveIfInteresting
