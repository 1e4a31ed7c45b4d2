import AflLive.Library.Runs
import AflLive.Fuzz.FileNames
import AflLive.Fuzz.Targets

/-! Which target an input belongs to: the queue entries with their target's name and
index, the files they are saved in, and the fork server that executes them. -/
namespace AflLive.Fuzz
open Runs

/-- A queue entry; `fname` without its directory. -/
structure Entry where
  fname : Name
  targetFunctionName : Name
  targetFunctionIdx : Nat
deriving DecidableEq

/-- An input of `attributed` on a server that was started for `running`; `none` is the
null pointer, sent as `__AH_NON_EXISTENT__`. -/
structure Execution where
  attributed : Name
  running : Option Name
deriving DecidableEq

/-- A file of the queue directory and the target it was saved for. -/
structure Written where
  target : Name
  file : Name
deriving DecidableEq

structure Fuzzer where
  outDir : Name
  oldSeedSelection : Bool
  targetNames : List Name
  fuzzing : Bool := false
  queue : List Entry := []
  queueCur : Option Entry := none
  fsrv : Option Name := none
  executions : List Execution := []
  written : List Written := []
  /-- afl-fuzz itself has died. -/
  crashed : Bool := false
deriving DecidableEq

/-- What a campaign is started with; `amountOfTargets` is what the recording run leaves. -/
structure Campaign where
  outDir : Name
  oldSeedSelection : Bool
  blacklist : Name
  targets : List Name
  amountOfTargets : Nat

def Campaign.targetNames (campaign : Campaign) : List Name :=
  (getTargetNames campaign.blacklist [] campaign.targets).take campaign.amountOfTargets

def Campaign.start (campaign : Campaign) : Fuzzer :=
  { outDir := campaign.outDir, oldSeedSelection := campaign.oldSeedSelection, targetNames := campaign.targetNames }

inductive Event where
  /-- `get_seeds_from_runtime` queues the recording of target `i`. -/
  | seed (i : Nat) (random : Name)
  /-- `read_testcases`, on in-place resume. -/
  | load (file : Name)
  | pivot (totalExecs : Nat)
  | dryRun (i : Nat)
  | enterLoop
  /-- `select_next_queue_entry` chose entry `i`. -/
  | selectAlias (i : Nat)
  /-- `-Z`: the next entry, or the end of the cycle. -/
  | selectOld (i : Option Nat)
  /-- `fuzz_one` calibrates the current entry again. -/
  | recalibrate
  /-- A run of the current entry or of a mutation of it; a find has a note. -/
  | fuzz (find : Option Name)
  /-- `sync_fuzzers` and `read_foreign_testcases`. -/
  | importFile (file : Name) (find : Option Name)
deriving DecidableEq

namespace Fuzzer

def addToQueue (s : Fuzzer) (q : Entry) : Fuzzer := { s with queue := s.queue ++ [q] }

def execute (s : Fuzzer) (target : Name) : Fuzzer :=
  { s with executions := s.executions ++ [⟨target, s.fsrv⟩] }

/-- `calibrate_case`: the server is started again unless it runs the entry's target. -/
def calibrateCase (s : Fuzzer) (q : Entry) : Fuzzer :=
  let restartNeeded := s.fsrv ≠ some q.targetFunctionName
  (if restartNeeded then { s with fsrv := some q.targetFunctionName } else s).execute q.targetFunctionName

/-- The part of `save_if_interesting` that keeps a find. -/
def saveToQueue (s : Fuzzer) (target : Name) (funIdx : Nat) (note : Name) : Fuzzer :=
  let queueFn := caseName target s.queue.length note
  let q : Entry := ⟨queueFn, target, funIdx⟩
  let s : Fuzzer := { s.addToQueue q with written := s.written ++ [⟨target, queueFn⟩] }
  s.calibrateCase q

def saveIfInteresting (s : Fuzzer) (target : Name) (funIdx : Nat) : Option Name → Fuzzer
  | none => s
  | some note => s.saveToQueue target funIdx note

end Fuzzer

/-- `strstr(rsl, ",orig:")`, and what stands behind it. -/
def useName (rsl : Name) : Name :=
  match rsl.tails.find? (ascii ",orig:").isPrefixOf with
  | some found => found.drop 6
  | none => rsl

/-- `pivot_inputs` for the entry with this number. A name keeps its form if it carries
the number already; every name here has a dash. -/
def pivotName (outDir : Name) (totalExecs id : Nat) (q : Entry) : Name :=
  let orsl := (q.fname.dropWhile (· ≠ dash)).drop 1
  if (ascii "id:").isPrefixOf orsl ∧ scan6 (orsl.drop 3) = some id then q.fname
  else
    let note := ascii "time:0,execs:" ++ digits totalExecs ++ ascii ",orig:"
    let nfn := caseName q.targetFunctionName id (note ++ useName q.fname)
    if 256 < (outDir ++ ascii "/queue/" ++ nfn).length then
      caseName q.targetFunctionName id (note ++ ascii "long")
    else nfn

namespace Fuzzer

def pivotInputs (s : Fuzzer) (totalExecs : Nat) : Fuzzer :=
  let queue := s.queue.mapIdx fun id q => { q with fname := pivotName s.outDir totalExecs id q }
  { s with queue, written := s.written ++ queue.map fun q => ⟨q.targetFunctionName, q.fname⟩ }

/-- The main loop's selection; without an entry before, the server is always restarted. -/
def selectAlias (s : Fuzzer) (q : Entry) : Fuzzer :=
  let prevIdx := (s.queueCur.map Entry.targetFunctionIdx).getD 0xffffffff
  let s := { s with queueCur := some q }
  if prevIdx ≠ q.targetFunctionIdx then { s with fsrv := some q.targetFunctionName } else s

/-- What is done with a file from outside. Its name decides on the target; without a dash in
it `getTargetName` copies from the null pointer on, and afl-fuzz dies. -/
def withFile (s : Fuzzer) (file : Name) (use : Name → Fuzzer) : Fuzzer :=
  match getTargetName file with
  | none => { s with crashed := true }
  | some name => use name

/-- One event of a process that is alive; there is no result where the event cannot happen. -/
def act (s : Fuzzer) : Event → Option Fuzzer
  | .seed i random =>
    if s.fuzzing then none
    else s.targetNames[i]?.map fun name =>
      s.addToQueue ⟨name ++ ascii "-initial" ++ random, name, getTargetIdx s.targetNames name⟩
  | .load file =>
    if s.fuzzing then none
    else some (s.withFile file fun name => s.addToQueue ⟨file, name, getTargetIdx s.targetNames name⟩)
  | .pivot totalExecs => if s.fuzzing then none else some (s.pivotInputs totalExecs)
  | .dryRun i => if s.fuzzing then none else s.queue[i]?.map s.calibrateCase
  | .enterLoop => if s.fuzzing then none else some { s with fuzzing := true }
  | .selectAlias i =>
    if ¬s.fuzzing ∨ s.oldSeedSelection then none else s.queue[i]?.map s.selectAlias
  | .selectOld i =>
    if ¬s.fuzzing ∨ ¬s.oldSeedSelection then none
    else match i with
      | none => some { s with queueCur := none }
      | some i => s.queue[i]?.map fun q => { s with queueCur := some q }
  | .recalibrate => if ¬s.fuzzing then none else s.queueCur.map s.calibrateCase
  | .fuzz find =>
    if ¬s.fuzzing then none
    else s.queueCur.map fun q =>
      (s.execute q.targetFunctionName).saveIfInteresting q.targetFunctionName q.targetFunctionIdx find
  | .importFile file find =>
    if ¬s.fuzzing then none
    else some (s.withFile file fun name =>
      (s.execute name).saveIfInteresting name (getTargetIdx s.targetNames name) find)

def step (s : Fuzzer) (event : Event) : Option Fuzzer := if s.crashed then none else s.act event

theorem calibrateCase_eq (s : Fuzzer) (q : Entry) :
    s.calibrateCase q = { s with
      fsrv := some q.targetFunctionName
      executions := s.executions ++ [⟨q.targetFunctionName, some q.targetFunctionName⟩] } := by
  cases s with
  | mk outDir old names fuzzing queue cur fsrv executions written crashed =>
    by_cases same : fsrv = some q.targetFunctionName <;> simp [calibrateCase, execute, same]

/-- The cases of `step`. -/
inductive Steps (s : Fuzzer) : Event → Fuzzer → Prop where
  | seed : s.fuzzing = false → s.targetNames[i]? = some name →
      Steps s (.seed i random)
        (s.addToQueue ⟨name ++ ascii "-initial" ++ random, name, getTargetIdx s.targetNames name⟩)
  | load : s.fuzzing = false → getTargetName file = some name →
      Steps s (.load file) (s.addToQueue ⟨file, name, getTargetIdx s.targetNames name⟩)
  | loadDies : s.fuzzing = false → getTargetName file = none → Steps s (.load file) { s with crashed := true }
  | pivot : s.fuzzing = false → Steps s (.pivot totalExecs) (s.pivotInputs totalExecs)
  | dryRun : s.fuzzing = false → s.queue[i]? = some q → Steps s (.dryRun i) (s.calibrateCase q)
  | enterLoop : s.fuzzing = false → Steps s .enterLoop { s with fuzzing := true }
  | selectAlias : s.fuzzing = true → s.oldSeedSelection = false → s.queue[i]? = some q →
      Steps s (.selectAlias i) (s.selectAlias q)
  | endCycle : s.fuzzing = true → s.oldSeedSelection = true →
      Steps s (.selectOld none) { s with queueCur := none }
  | selectOld : s.fuzzing = true → s.oldSeedSelection = true → s.queue[i]? = some q →
      Steps s (.selectOld (some i)) { s with queueCur := some q }
  | recalibrate : s.fuzzing = true → s.queueCur = some q → Steps s .recalibrate (s.calibrateCase q)
  | fuzz : s.fuzzing = true → s.queueCur = some q →
      Steps s (.fuzz find)
        ((s.execute q.targetFunctionName).saveIfInteresting q.targetFunctionName q.targetFunctionIdx find)
  | importFile : s.fuzzing = true → getTargetName file = some name →
      Steps s (.importFile file find)
        ((s.execute name).saveIfInteresting name (getTargetIdx s.targetNames name) find)
  | importDies : s.fuzzing = true → getTargetName file = none →
      Steps s (.importFile file find) { s with crashed := true }

theorem steps_of_step {s t : Fuzzer} {event : Event} (stepped : s.step event = some t) :
    s.crashed = false ∧ Steps s event t := by
  rw [step, Option.ite_none_left_eq_some, Bool.not_eq_true] at stepped
  refine ⟨stepped.1, ?_⟩
  replace stepped := stepped.2
  cases event with
  | seed i random =>
    simp only [act, Option.ite_none_left_eq_some, Option.map_eq_some_iff] at stepped
    obtain ⟨startup, name, listed, rfl⟩ := stepped
    exact .seed (by simpa using startup) listed
  | load file =>
    simp only [act, Option.ite_none_left_eq_some, Option.some.injEq, withFile] at stepped
    obtain ⟨startup, rfl⟩ := stepped
    cases parsed : getTargetName file with
    | none => exact .loadDies (by simpa using startup) parsed
    | some name => exact .load (by simpa using startup) parsed
  | pivot totalExecs =>
    simp only [act, Option.ite_none_left_eq_some, Option.some.injEq] at stepped
    obtain ⟨startup, rfl⟩ := stepped
    exact .pivot (by simpa using startup)
  | dryRun i =>
    simp only [act, Option.ite_none_left_eq_some, Option.map_eq_some_iff] at stepped
    obtain ⟨startup, q, listed, rfl⟩ := stepped
    exact .dryRun (by simpa using startup) listed
  | enterLoop =>
    simp only [act, Option.ite_none_left_eq_some, Option.some.injEq] at stepped
    obtain ⟨startup, rfl⟩ := stepped
    exact .enterLoop (by simpa using startup)
  | selectAlias i =>
    simp only [act, Option.ite_none_left_eq_some, Option.map_eq_some_iff, not_or, not_not] at stepped
    obtain ⟨⟨fuzzing, weighted⟩, q, listed, rfl⟩ := stepped
    exact .selectAlias fuzzing (by simpa using weighted) listed
  | selectOld i =>
    cases i with
    | none =>
      simp only [act, Option.ite_none_left_eq_some, Option.some.injEq, not_or, not_not] at stepped
      obtain ⟨⟨fuzzing, old⟩, rfl⟩ := stepped
      exact .endCycle fuzzing old
    | some i =>
      simp only [act, Option.ite_none_left_eq_some, Option.map_eq_some_iff, not_or, not_not] at stepped
      obtain ⟨⟨fuzzing, old⟩, q, listed, rfl⟩ := stepped
      exact .selectOld fuzzing old listed
  | recalibrate =>
    simp only [act, Option.ite_none_left_eq_some, Option.map_eq_some_iff, not_not] at stepped
    obtain ⟨fuzzing, q, current, rfl⟩ := stepped
    exact .recalibrate fuzzing current
  | fuzz find =>
    simp only [act, Option.ite_none_left_eq_some, Option.map_eq_some_iff, not_not] at stepped
    obtain ⟨fuzzing, q, current, rfl⟩ := stepped
    exact .fuzz fuzzing current
  | importFile file find =>
    simp only [act, Option.ite_none_left_eq_some, Option.some.injEq, not_not, withFile] at stepped
    obtain ⟨fuzzing, rfl⟩ := stepped
    cases parsed : getTargetName file with
    | none => exact .importDies fuzzing parsed
    | some name => exact .importFile fuzzing parsed

/-- A selection changes the current entry and, with it, the server. -/
theorem selectAlias_eq (s : Fuzzer) (q : Entry) :
    s.selectAlias q = { s with queueCur := some q, fsrv := (s.selectAlias q).fsrv } := by
  unfold selectAlias
  dsimp only
  split <;> rfl

theorem Steps.targetNames {s t : Fuzzer} {event : Event} (steps : Steps s event t) :
    t.targetNames = s.targetNames := by
  cases steps with
  | @fuzz _ find | @importFile _ _ find =>
    cases find <;> simp [saveIfInteresting, saveToQueue, calibrateCase_eq, addToQueue, execute]
  | selectAlias => rw [selectAlias_eq]
  | _ => simp [addToQueue, calibrateCase_eq, pivotInputs]

end Fuzzer

/-- The index and the name of an entry agree. -/
def Entry.Attributed (targetNames : List Name) (q : Entry) : Prop :=
  targetNames[q.targetFunctionIdx]? = some q.targetFunctionName

theorem getTargetIdx_attributed {targetNames : List Name} {name : Name} :
    targetNames[getTargetIdx targetNames name]? = some name ↔ name ∈ targetNames := by
  constructor
  · exact List.mem_of_getElem?
  · intro inside
    rw [getTargetIdx, if_pos inside]
    exact List.getElem?_idxOf inside

namespace Fuzzer

/-- The server runs the current entry's target, and everything so far ran as it should. -/
structure Agreeing (s : Fuzzer) : Prop where
  few : s.targetNames.length ≤ maxTargets
  entries : ∀ q ∈ s.queue, q.Attributed s.targetNames
  server : ∀ name, s.fsrv = some name → name ∈ s.targetNames
  startup : s.fuzzing = false → s.queueCur = none
  current : ∀ q, s.queueCur = some q → q.Attributed s.targetNames ∧ s.fsrv = some q.targetFunctionName
  agreed : ∀ e ∈ s.executions, e.running = some e.attributed

section
variable {s : Fuzzer} {q : Entry}

theorem Agreeing.addToQueue (agreeing : s.Agreeing) (attributed : q.Attributed s.targetNames) :
    (s.addToQueue q).Agreeing where
  few := agreeing.few
  entries := by simpa [Fuzzer.addToQueue, or_imp, forall_and] using ⟨agreeing.entries, attributed⟩
  server := agreeing.server
  startup := agreeing.startup
  current := agreeing.current
  agreed := agreeing.agreed

theorem Agreeing.execute (agreeing : s.Agreeing) {name : Name} (running : s.fsrv = some name) :
    (s.execute name).Agreeing where
  few := agreeing.few
  entries := agreeing.entries
  server := agreeing.server
  startup := agreeing.startup
  current := agreeing.current
  agreed := by simpa [Fuzzer.execute, or_imp, forall_and, running] using agreeing.agreed

theorem Agreeing.calibrateCase (agreeing : s.Agreeing) (attributed : q.Attributed s.targetNames)
    (same : ∀ c, s.queueCur = some c → c.targetFunctionName = q.targetFunctionName) :
    (s.calibrateCase q).Agreeing := by
  rw [calibrateCase_eq]
  exact {
    few := agreeing.few
    entries := agreeing.entries
    server := by
      intro name is
      obtain rfl := Option.some.inj is
      exact List.mem_of_getElem? attributed
    startup := agreeing.startup
    current := fun c is => ⟨(agreeing.current c is).1, by simp [same c is]⟩
    agreed := by simpa [or_imp, forall_and] using agreeing.agreed }

/-- Entries of one index are entries of one target, so the comparison of indices is enough. -/
theorem Agreeing.selectAlias_fsrv (agreeing : s.Agreeing) (attributed : q.Attributed s.targetNames) :
    (s.selectAlias q).fsrv = some q.targetFunctionName := by
  cases cur : s.queueCur with
  | none =>
    have bound := (List.getElem?_eq_some_iff.mp attributed).1
    have few := agreeing.few
    have restart : 0xffffffff ≠ q.targetFunctionIdx := by
      simp only [maxTargets] at few
      omega
    simp [Fuzzer.selectAlias, cur, restart]
  | some c =>
    obtain ⟨before, running⟩ := agreeing.current c cur
    by_cases same : c.targetFunctionIdx = q.targetFunctionIdx
    · have name : c.targetFunctionName = q.targetFunctionName := by
        rw [Entry.Attributed, same, attributed] at before
        exact (Option.some.inj before).symm
      simp [Fuzzer.selectAlias, cur, same, running, name]
    · simp [Fuzzer.selectAlias, cur, same]

/-- A find of the running target is kept and calibrated without a restart. -/
theorem Agreeing.save (agreeing : s.Agreeing) {name : Name} {funIdx : Nat} (running : s.fsrv = some name)
    (attributed : s.targetNames[funIdx]? = some name) (find : Option Name) :
    (s.saveIfInteresting name funIdx find).Agreeing := by
  cases find with
  | none => exact agreeing
  | some note =>
    have added := agreeing.addToQueue (q := ⟨caseName name s.queue.length note, name, funIdx⟩) attributed
    have noted : Agreeing { s.addToQueue ⟨caseName name s.queue.length note, name, funIdx⟩ with
        written := s.written ++ [⟨name, caseName name s.queue.length note⟩] } :=
      ⟨added.few, added.entries, added.server, added.startup, added.current, added.agreed⟩
    refine noted.calibrateCase attributed fun c is => ?_
    have runs := (agreeing.current c is).2
    rw [running] at runs
    exact (Option.some.inj runs).symm

end

/-- What the server's state asks of an event: files on resume name targets, and `-Z`
and the imports stay with the target that runs. -/
def Stays (s : Fuzzer) : Event → Prop
  | .load file => ∀ name ∈ getTargetName file, name ∈ s.targetNames
  | .selectOld (some i) => ∀ q ∈ s.queue[i]?, s.fsrv = some q.targetFunctionName
  | .importFile file _ => ∀ name ∈ getTargetName file, s.fsrv = some name
  | _ => True

instance (s : Fuzzer) : (event : Event) → Decidable (s.Stays event)
  | .load file => inferInstanceAs (Decidable (∀ name ∈ getTargetName file, name ∈ s.targetNames))
  | .selectOld (some i) => inferInstanceAs (Decidable (∀ q ∈ s.queue[i]?, s.fsrv = some q.targetFunctionName))
  | .importFile file _ => inferInstanceAs (Decidable (∀ name ∈ getTargetName file, s.fsrv = some name))
  | .seed .. | .pivot _ | .dryRun _ | .enterLoop | .selectAlias _ | .selectOld none | .recalibrate | .fuzz _ =>
    .isTrue trivial

theorem Agreeing.step {s t : Fuzzer} {event : Event} (agreeing : s.Agreeing) (stays : s.Stays event)
    (stepped : s.step event = some t) : t.Agreeing := by
  cases (steps_of_step stepped).2 with
  | loadDies | importDies =>
    exact ⟨agreeing.few, agreeing.entries, agreeing.server, agreeing.startup, agreeing.current, agreeing.agreed⟩
  | seed startup listed => exact agreeing.addToQueue (getTargetIdx_attributed.mpr (List.mem_of_getElem? listed))
  | load startup parsed => exact agreeing.addToQueue (getTargetIdx_attributed.mpr (stays _ parsed))
  | pivot startup =>
    exact ⟨agreeing.few, by
      intro q inside
      obtain ⟨i, listed⟩ := List.mem_iff_getElem?.mp inside
      simp only [pivotInputs, List.getElem?_mapIdx, Option.map_eq_some_iff] at listed
      obtain ⟨old, listed, rfl⟩ := listed
      exact agreeing.entries old (List.mem_of_getElem? listed), agreeing.server, agreeing.startup,
      agreeing.current, agreeing.agreed⟩
  | dryRun startup listed =>
    refine agreeing.calibrateCase (agreeing.entries _ (List.mem_of_getElem? listed)) fun c is => ?_
    rw [agreeing.startup startup] at is
    cases is
  | enterLoop startup =>
    exact ⟨agreeing.few, agreeing.entries, agreeing.server, (fun again => by cases again), agreeing.current,
      agreeing.agreed⟩
  | @selectAlias i q fuzzing weighted listed =>
    have attributed := agreeing.entries q (List.mem_of_getElem? listed)
    have running := agreeing.selectAlias_fsrv attributed
    rw [selectAlias_eq, running]
    refine ⟨agreeing.few, agreeing.entries, fun name is => ?_, fun startup => ?_, fun c is => ?_, agreeing.agreed⟩
    · obtain rfl := Option.some.inj is
      exact List.mem_of_getElem? attributed
    · simp [fuzzing] at startup
    · obtain rfl := Option.some.inj is
      exact ⟨attributed, rfl⟩
  | endCycle =>
    exact ⟨agreeing.few, agreeing.entries, agreeing.server, fun _ => rfl, fun q is => (by cases is), agreeing.agreed⟩
  | selectOld fuzzing old listed =>
    refine ⟨agreeing.few, agreeing.entries, agreeing.server, fun startup => ?_, fun c is => ?_, agreeing.agreed⟩
    · simp [fuzzing] at startup
    · obtain rfl := Option.some.inj is
      exact ⟨agreeing.entries _ (List.mem_of_getElem? listed), stays _ listed⟩
  | recalibrate fuzzing current =>
    refine agreeing.calibrateCase (agreeing.current _ current).1 fun c is => ?_
    rw [current] at is
    rw [Option.some.inj is]
  | fuzz fuzzing current =>
    obtain ⟨attributed, running⟩ := agreeing.current _ current
    exact (agreeing.execute running).save running attributed _
  | importFile fuzzing parsed =>
    have running := stays _ parsed
    have attributed := getTargetIdx_attributed.mpr (agreeing.server _ running)
    exact (agreeing.execute running).save running attributed _

theorem start_agreeing (campaign : Campaign) : campaign.start.Agreeing where
  few := by
    rw [Campaign.start, Campaign.targetNames, getTargetNames_eq]
    simp only [List.length_take, List.nil_append, List.length_nil, Nat.sub_zero]
    omega
  entries := by simp [Campaign.start]
  server := by simp [Campaign.start]
  startup := by simp [Campaign.start]
  current := by simp [Campaign.start]
  agreed := by simp [Campaign.start]

/-- Every input ran on a server of its own target, in every run that stays with the
targets the server is started for. -/
theorem executions_agree {campaign : Campaign} {events : List Event} {s : Fuzzer}
    (stays : Along step Stays campaign.start events) (ran : run step campaign.start events = some s) :
    ∀ e ∈ s.executions, e.running = some e.attributed := by
  have agreeing := stays.invariant (fun _ _ _ agreeing stays stepped => Agreeing.step agreeing stays stepped)
    (start_agreeing campaign) ran
  exact agreeing.agreed

/-- Two targets, their seeds and their dry runs. -/
def twoTargets (oldSeedSelection : Bool) : Campaign :=
  ⟨ascii "out", oldSeedSelection, [], [ascii "f", ascii "g"], 2⟩

def twoSeeds : List Event :=
  [.seed 0 (ascii "AbCdEf"), .seed 1 (ascii "GhIjKl"), .pivot 1, .dryRun 0, .dryRun 1, .enterLoop]

/-- Both targets in turn, with a find of each and an import of the running one. -/
def switches : List Event :=
  [.selectAlias 0, .fuzz (some (ascii "src:000000")), .selectAlias 1, .fuzz none,
    .importFile (ascii "g-id:000007,orig:x") (some (ascii "sync:peer")), .selectAlias 2, .recalibrate]

theorem executions_agree_on_switches :
    (run step (twoTargets false).start (twoSeeds ++ switches)).isSome ∧
      ∀ s, run step (twoTargets false).start (twoSeeds ++ switches) = some s →
        ∀ e ∈ s.executions, e.running = some e.attributed := by
  constructor
  · decide +kernel
  · exact fun s ran => executions_agree (by decide +kernel) ran

/-- Under `-Z` the first entry is fuzzed on the server of the entry calibrated last. -/
theorem old_selection_keeps_server :
    (run step (twoTargets true).start (twoSeeds ++ [.selectOld (some 0), .fuzz none])).map (·.executions.getLast?) =
      some (some ⟨ascii "f", some (ascii "g")⟩) := by
  decide +kernel

end Fuzzer

end AflLive.Fuzz
