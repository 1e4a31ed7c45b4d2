import AflLive.Library.Control
import AflLive.Fuzz.Attribution

/-! The output directory over the processes that use it: the files a session creates, and how
the next one recognises them when it starts over or resumes. -/
namespace AflLive.Fuzz.CleanUp
open Runs Control

def dot : UInt8 := 46

/-- `CASE_PREFIX`. -/
def casePrefix : Name := ascii "id:"

/-- The names in a directory, or `none` if there is no such directory. -/
abbrev Directory := Option (List Name)

def Directory.names (dir : Directory) : List Name := dir.getD []

/-- The text behind the first `after`. -/
def behind (after : UInt8) (name : Name) : Name := (name.dropWhile (· ≠ after)).drop 1

/-- `unlink` what is doomed, then `rmdir`; the result is what is left. -/
def deleteMatching (doomed : Name → Bool) (dir : Directory) : Directory :=
  (dir.map (·.filter fun name => !doomed name)).filter (· ≠ [])

def deleteFiles (start : Option Name) : Directory → Directory :=
  deleteMatching fun name => name.head? ≠ some dot && start.all (·.isPrefixOf name)

def deleteFilesWildcard (start : Option Name) (after : UInt8) : Directory → Directory :=
  deleteMatching fun name =>
    name.head? ≠ some dot && start.all fun start => name.contains after && start.isPrefixOf (behind after name)

/-- `queue` or `_resume` with the four directories of its `.state`. -/
structure QueueDir where
  deterministicDone : Directory := none
  autoExtras : Directory := none
  redundantEdges : Directory := none
  variableBehavior : Directory := none
  files : List Name := []
deriving DecidableEq

structure OutDir where
  queue : Option QueueDir := none
  resume : Option QueueDir := none
  synced : Directory := none
  crashes : Directory := none
  hangs : Directory := none
deriving DecidableEq

/-- The two `FATAL`s; the first one comes with the path. -/
inductive Abort where
  | outputDirectory (path : Name)
  | resumeDirectory
deriving DecidableEq

/-- The test behind every deletion. -/
def cleared (path : Name) (left : Directory) : Except Name Directory :=
  if left.isSome then .error path else .ok left

/-- What `nuke_resume_dir` and `handle_existing_out_dir` do alike. Once its four directories
are gone, `rmdir` does not fail on `.state`. -/
def cleanQueueDir (path : Name) : Option QueueDir → Except Name (Option QueueDir)
  | none => .ok none
  | some dir => do
    let deterministicDone ← cleared (path ++ ascii "/.state/deterministic_done")
      (deleteFiles (some casePrefix) dir.deterministicDone)
    let autoExtras ← cleared (path ++ ascii "/.state/auto_extras")
      (deleteFiles (some (ascii "auto_")) dir.autoExtras)
    let redundantEdges ← cleared (path ++ ascii "/.state/redundant_edges")
      (deleteFilesWildcard (some casePrefix) dash dir.redundantEdges)
    let variableBehavior ← cleared (path ++ ascii "/.state/variable_behavior")
      (deleteFilesWildcard (some casePrefix) dash dir.variableBehavior)
    let left ← cleared path (deleteFilesWildcard (some casePrefix) dash (some dir.files))
    return left.map fun files => { deterministicDone, autoExtras, redundantEdges, variableBehavior, files }

def nukeResumeDir (outDir : Name) (out : OutDir) : Except Abort OutDir :=
  match cleanQueueDir (outDir ++ ascii "/_resume") out.resume with
  | .ok resume => .ok { out with resume }
  | .error _ => .error .resumeDirectory

/-- `rename(orig_q, in_dir)`, which fails silently if there is a `_resume` already. -/
def renameQueue (out : OutDir) : OutDir :=
  if out.resume.isSome then out else { out with queue := none, resume := out.queue }

/-- A directory that is not empty is moved out of the way, under a name with the time. -/
def backUp (inPlaceResume : Bool) (dir : Directory) : Directory := if inPlaceResume then none else dir

def readme : Name := ascii "README.txt"

def cleanOutDir (outDir : Name) (inPlaceResume : Bool) (out : OutDir) : Except Name OutDir := do
  let out := if inPlaceResume then renameQueue out else out
  let synced ← if inPlaceResume then .ok out.synced
    else cleared (outDir ++ ascii "/.synced") (deleteFiles none out.synced)
  let queue ← cleanQueueDir (outDir ++ ascii "/queue") out.queue
  let crashes := if inPlaceResume then out.crashes else out.crashes.map (·.filter (· ≠ readme))
  let crashes ← cleared (outDir ++ ascii "/crashes")
    (deleteFilesWildcard (some casePrefix) dash (backUp inPlaceResume crashes))
  let hangs ← cleared (outDir ++ ascii "/hangs")
    (deleteFilesWildcard (some casePrefix) dash (backUp inPlaceResume out.hangs))
  return { out with synced, queue, crashes, hangs }

def handleExistingOutDir (outDir : Name) (inPlaceResume : Bool) (out : OutDir) : Except Abort OutDir :=
  (cleanOutDir outDir inPlaceResume out).mapError .outputDirectory

/-- `setup_dirs_fds`; `.synced` is only made for a fuzzer with a name, and kept on resume. -/
def setupDirs (syncId : Bool) (out : OutDir) : OutDir :=
  { queue := some ⟨some [], some [], some [], some [], []⟩
    resume := out.resume
    synced := if syncId then some out.synced.names else out.synced
    crashes := some []
    hangs := some [] }

/-- A queue entry with its marks. -/
structure Queued extends Entry where
  passedDet : Bool := false
  varBehavior : Bool := false
  fsRedundant : Bool := false
deriving DecidableEq

/-- A process and the directory it works in. -/
structure Session where
  outDir : Name
  syncId : Bool
  noCrashReadme : Bool
  targetNames : List Name
  inPlaceResume : Bool := false
  pivoted : Bool := false
  queue : List Queued := []
  savedCrashes : Nat := 0
  savedHangs : Nat := 0
  out : OutDir
deriving DecidableEq

/-- Where an input comes from: a mutation of an entry, or another fuzzer's file. -/
inductive Origin where
  | entry (i : Nat)
  | file (name : Name)
deriving DecidableEq

inductive SessionEvent where
  /-- Another process starts on the directory, with or without `-i -`. -/
  | start (inPlaceResume : Bool)
  /-- `get_seeds_from_runtime` queues the recording of target `i`. -/
  | seed (i : Nat) (random : Name)
  /-- `read_testcases` on `_resume`. -/
  | load (file : Name)
  | pivot (totalExecs : Nat)
  | find (origin : Origin) (note : Name)
  | crash (origin : Origin) (note : Name)
  | hang (origin : Origin) (note : Name)
  | detDone (i : Nat)
  | varying (i : Nat)
  | redundant (i : Nat) (state : Bool)
  | saveAuto (count : Nat)
  /-- `sync_fuzzers` on the directory of another fuzzer. -/
  | sync (name : Name) (hasQueue : Bool)
deriving DecidableEq

/-- `open` with `O_CREAT | O_EXCL`. -/
def create (name : Name) (dir : Directory) : Option Directory :=
  dir.bind fun files => if name ∈ files then none else some (some (name :: files))

def createAll (names : List Name) (dir : Directory) : Option Directory :=
  names.foldlM (fun dir name => create name dir) dir

/-- `open` with `O_CREAT` alone. -/
def touch (name : Name) (dir : Directory) : Directory :=
  dir.map fun files => if name ∈ files then files else name :: files

def unlink (name : Name) (dir : Directory) : Option Directory :=
  dir.bind fun files => if name ∈ files then some (some (files.erase name)) else none

def keepUniqueCrash : Nat := 10000

def keepUniqueHang : Nat := 500

def useAutoExtras : Nat := 4096

namespace Session

def target (s : Session) : Origin → Option Name
  | .entry i => s.queue[i]?.map fun q => q.targetFunctionName
  | .file name => getTargetName name

def start (s : Session) (inPlaceResume : Bool) : Option Session := do
  let out ← (handleExistingOutDir s.outDir inPlaceResume s.out).toOption
  return { s with
    inPlaceResume, pivoted := false, queue := [], savedCrashes := 0, savedHangs := 0
    out := setupDirs s.syncId out }

def addToQueue (s : Session) (fname : Name) (passedDet : Bool) (target : Name) : Session :=
  { s with queue := s.queue ++ [{
      fname, targetFunctionName := target, targetFunctionIdx := getTargetIdx s.targetNames target, passedDet }] }

/-- The queue directory after an event that writes to it. -/
def inQueueDir (s : Session) (write : QueueDir → Option QueueDir) : Option Session := do
  let dir ← s.out.queue
  let dir ← write dir
  return { s with out := { s.out with queue := some dir } }

/-- The end of `pivot_inputs`. -/
def dropResumeDir (s : Session) : Option Session :=
  if s.inPlaceResume then (nukeResumeDir s.outDir s.out).toOption.map fun out => { s with out } else some s

/-- Links every entry, and marks those that were marked in the session before. -/
def pivotInputs (s : Session) (totalExecs : Nat) : Option Session := do
  let queue := s.queue.mapIdx fun id q => { q with fname := pivotName s.outDir totalExecs id q.toEntry }
  let s ← inQueueDir { s with queue, pivoted := true } fun dir => do
    let files ← createAll (queue.map fun q => q.fname) (some dir.files)
    let deterministicDone ← createAll ((queue.filter fun q => q.passedDet).map fun q => q.fname) dir.deterministicDone
    return { dir with files := files.names, deterministicDone }
  s.dropResumeDir

def markAsDetDone (s : Session) (i : Nat) : Option Session := do
  let q ← s.queue[i]?
  if q.passedDet then none
  else
    inQueueDir { s with queue := s.queue.set i { q with passedDet := true } } fun dir => do
      let deterministicDone ← create q.fname dir.deterministicDone
      return { dir with deterministicDone }

/-- `calibrate_case` asks for `var_behavior` first. -/
def markAsVariable (s : Session) (i : Nat) : Option Session := do
  let q ← s.queue[i]?
  if q.varBehavior then none
  else
    inQueueDir { s with queue := s.queue.set i { q with varBehavior := true } } fun dir => do
      let variableBehavior ← create q.fname dir.variableBehavior
      return { dir with variableBehavior }

def markAsRedundant (s : Session) (i : Nat) (state : Bool) : Option Session := do
  let q ← s.queue[i]?
  if state = q.fsRedundant then return s
  else
    inQueueDir { s with queue := s.queue.set i { q with fsRedundant := state } } fun dir => do
      let redundantEdges ← if state then create q.fname dir.redundantEdges else unlink q.fname dir.redundantEdges
      return { dir with redundantEdges }

/-- The part of `save_if_interesting` that keeps a find. -/
def saveToQueue (s : Session) (target note : Name) : Option Session := do
  let queueFn := caseName target s.queue.length note
  inQueueDir (s.addToQueue queueFn false target) fun dir => do
    let files ← create queueFn (some dir.files)
    return { dir with files := files.names }

/-- `keep_as_crash`; the first crash comes with a `README.txt`. -/
def keepAsCrash (s : Session) (target note : Name) : Option Session := do
  if keepUniqueCrash ≤ s.savedCrashes then return s
  else
    let dir := if s.savedCrashes = 0 ∧ ¬s.noCrashReadme then touch readme s.out.crashes else s.out.crashes
    let crashes ← create (caseName target s.savedCrashes note) dir
    return { s with savedCrashes := s.savedCrashes + 1, out := { s.out with crashes } }

def keepAsHang (s : Session) (target note : Name) : Option Session := do
  if keepUniqueHang ≤ s.savedHangs then return s
  else
    let hangs ← create (caseName target s.savedHangs note) s.out.hangs
    return { s with savedHangs := s.savedHangs + 1, out := { s.out with hangs } }

def saveAuto (s : Session) (count : Nat) : Option Session :=
  s.inQueueDir fun dir => some { dir with
    autoExtras := (List.range (min useAutoExtras count)).foldl
      (fun dir i => touch (ascii "auto_" ++ pad6 i) dir) dir.autoExtras }

def syncFuzzer (s : Session) (name : Name) (hasQueue : Bool) : Session :=
  let synced := touch (name ++ ascii ".last") s.out.synced
  { s with out := { s.out with synced := if hasQueue then touch name synced else synced } }

/-- One event; there is no result where it cannot happen and where it ends the process. -/
def step (s : Session) : SessionEvent → Option Session
  | .start inPlaceResume => s.start inPlaceResume
  | .seed i random =>
    if s.pivoted ∨ s.inPlaceResume then none
    else s.targetNames[i]?.map fun name => s.addToQueue (name ++ ascii "-initial" ++ random) false name
  | .load file =>
    if s.pivoted ∨ ¬s.inPlaceResume then none
    else do
      let dir ← s.out.resume
      if file ∈ dir.files then
        let name ← getTargetName file
        return s.addToQueue file (file ∈ dir.deterministicDone.names) name
      else none
  | .pivot totalExecs => if s.pivoted then none else s.pivotInputs totalExecs
  | .find origin note => if ¬s.pivoted then none else (s.target origin).bind fun name => s.saveToQueue name note
  | .crash origin note => if ¬s.pivoted then none else (s.target origin).bind fun name => s.keepAsCrash name note
  | .hang origin note => if ¬s.pivoted then none else (s.target origin).bind fun name => s.keepAsHang name note
  | .detDone i => if ¬s.pivoted then none else s.markAsDetDone i
  | .varying i => if ¬s.pivoted then none else s.markAsVariable i
  | .redundant i state => if ¬s.pivoted then none else s.markAsRedundant i state
  | .saveAuto count => if ¬s.pivoted then none else s.saveAuto count
  | .sync name hasQueue =>
    if ¬s.pivoted ∨ name = [] ∨ name.head? = some dot then none else some (s.syncFuzzer name hasQueue)

/-- The first process on a directory that does not exist yet. -/
def fresh (outDir : Name) (syncId noCrashReadme : Bool) (targetNames : List Name) : Session :=
  { outDir, syncId, noCrashReadme, targetNames, out := setupDirs syncId {} }

end Session

/-- The name says what it is: behind its first dash stands `id:`. -/
def Labelled (name : Name) : Prop := dash ∈ name ∧ casePrefix <+: behind dash name

def Directory.All (p : Name → Prop) (dir : Directory) : Prop := ∀ name ∈ dir.names, p name

theorem behind_written {target : Name} (free : dash ∉ target) (rest : Name) :
    behind dash (target ++ dash :: rest) = rest := by
  rw [behind, List.dropWhile_append_of_pos (Delimited.ne_of_free free), List.dropWhile_cons_of_neg (by simp),
    List.drop_succ_cons, List.drop_zero]

theorem caseName_labelled {target : Name} (free : dash ∉ target) (id : Nat) (note : Name) :
    Labelled (caseName target id note) := by
  have form : caseName target id note = target ++ dash :: (casePrefix ++ (pad6 id ++ ascii "," ++ note)) := by
    simp only [caseName, List.append_assoc]
    rfl
  rw [form, Labelled, behind_written free]
  exact ⟨by simp, List.prefix_append _ _⟩

theorem mem_dash_of_behind {name : Name} (some : behind dash name ≠ []) : dash ∈ name := by
  by_contra free
  exact some (by rw [behind, List.dropWhile_eq_nil_iff.mpr (Delimited.ne_of_free free), List.drop_nil])

/-- A name that is kept has the label already. -/
theorem pivotName_labelled {q : Entry} (free : dash ∉ q.targetFunctionName) (outDir : Name) (totalExecs id : Nat) :
    Labelled (pivotName outDir totalExecs id q) := by
  unfold pivotName
  dsimp only
  split
  · next kept =>
    have label : casePrefix <+: behind dash q.fname := List.isPrefixOf_iff_prefix.mp kept.1
    refine ⟨mem_dash_of_behind fun empty => ?_, label⟩
    rw [empty, List.prefix_nil] at label
    exact absurd label (by decide)
  · split
    · exact caseName_labelled free _ _
    · exact caseName_labelled free _ _

section
variable {p : Name → Prop} {name : Name} {dir left : Directory}

theorem create_all (created : create name dir = some left) (holds : p name) (before : dir.All p) : left.All p := by
  cases dir with
  | none => simp [create] at created
  | some files =>
    simp only [create, Option.bind_some, Option.ite_none_left_eq_some, Option.some.injEq] at created
    obtain ⟨_, rfl⟩ := created
    simpa [Directory.All, Directory.names] using ⟨holds, before⟩

theorem createAll_all {names : List Name} (created : createAll names dir = some left) (holds : ∀ name ∈ names, p name)
    (before : dir.All p) : left.All p := by
  induction names generalizing dir with
  | nil =>
    obtain rfl := Option.some.inj created
    exact before
  | cons name names ih =>
    rw [createAll, List.foldlM_cons, Option.bind_eq_bind, Option.bind_eq_some_iff] at created
    obtain ⟨next, first, rest⟩ := created
    exact ih rest (fun name inside => holds name (.tail _ inside)) (create_all first (holds name (.head _)) before)

theorem touch_all (holds : p name) (before : dir.All p) : (touch name dir).All p := by
  cases dir with
  | none => exact before
  | some files =>
    by_cases inside : name ∈ files
    · simpa [touch, inside] using before
    · simpa [touch, inside, Directory.All, Directory.names] using ⟨holds, before⟩

theorem unlink_all (unlinked : unlink name dir = some left) (before : dir.All p) : left.All p := by
  cases dir with
  | none => simp [unlink] at unlinked
  | some files =>
    simp only [unlink, Option.bind_some, Option.ite_none_right_eq_some, Option.some.injEq] at unlinked
    obtain ⟨_, rfl⟩ := unlinked
    exact fun name inside => before name (List.mem_of_mem_erase inside)

theorem Directory.All.filter (before : Directory.All p (some files)) (keep : Name → Bool) :
    Directory.All p (some (files.filter keep)) :=
  fun name inside => before name (List.mem_of_mem_filter inside)

theorem deleteMatching_eq_none {doomed : Name → Bool} :
    deleteMatching doomed dir = none ↔ dir.All fun name => doomed name = true := by
  cases dir with
  | none => simp [deleteMatching, Directory.All, Directory.names]
  | some files => simp [deleteMatching, Directory.All, Directory.names, Option.filter]

theorem cleared_eq_ok {path : Name} {dir : Directory} : cleared path left = .ok dir ↔ left = none ∧ dir = none := by
  cases left with
  | none => simp [cleared, eq_comm]
  | some files => simp [cleared]

/-- A labelled name escapes the filter of its label only if it is hidden. -/
theorem deleteFilesWildcard_eq_none (labelled : dir.All Labelled) :
    deleteFilesWildcard (some casePrefix) dash dir = none ↔ dir.All fun name => name.head? ≠ some dot := by
  rw [deleteFilesWildcard, deleteMatching_eq_none]
  refine forall₂_congr fun name inside => ?_
  obtain ⟨marked, label⟩ := labelled name inside
  simp [marked, label]

theorem deleteFiles_eq_none {start : Name} (visible : start.head? ≠ some dot) (long : start ≠ []) :
    deleteFiles (some start) dir = none ↔ dir.All (start <+: ·) := by
  rw [deleteFiles, deleteMatching_eq_none]
  refine forall₂_congr fun name inside => ?_
  simp only [Option.all_some, Bool.and_eq_true, decide_eq_true_eq, List.isPrefixOf_iff_prefix, and_iff_right_iff_imp]
  rintro ⟨rest, rfl⟩
  rwa [List.head?_append_of_ne_nil _ long]

end

theorem head?_front_iff {name : Name} : (front name).head? = some dot ↔ name.head? = some dot := by
  cases name with
  | nil => rfl
  | cons c rest =>
    by_cases same : c = dash
    · subst same
      simp [front, dash, dot]
    · simp [front, same]

/-- A text without a dash that a name begins with ends in front of the dash. -/
theorem begins_front_iff {start name : Name} (free : dash ∉ start) : start <+: front name ↔ start <+: name := by
  constructor
  · intro begins
    exact begins.trans (List.takeWhile_prefix _)
  · rintro ⟨rest, rfl⟩
    rw [front, List.takeWhile_append_of_pos (Delimited.ne_of_free free)]
    exact List.prefix_append _ _

/-- What the sessions write there. -/
structure QueueDir.Recorded (dir : QueueDir) : Prop where
  deterministicDone : dir.deterministicDone.All Labelled
  autoExtras : dir.autoExtras.All (ascii "auto_" <+: ·)
  redundantEdges : dir.redundantEdges.All Labelled
  variableBehavior : dir.variableBehavior.All Labelled
  files : ∀ name ∈ dir.files, Labelled name

/-- Every mark of the deterministic stages belongs to a target whose name begins like a label
itself, and no other file to one whose name begins with a dot. -/
structure QueueDir.Recognised (dir : QueueDir) : Prop where
  deterministicDone : ∀ name ∈ dir.deterministicDone.names, casePrefix <+: front name
  visible : ∀ name ∈ dir.redundantEdges.names ++ dir.variableBehavior.names ++ dir.files,
    (front name).head? ≠ some dot

instance (dir : QueueDir) : Decidable dir.Recognised :=
  decidable_of_iff ((∀ name ∈ dir.deterministicDone.names, casePrefix <+: front name) ∧
    ∀ name ∈ dir.redundantEdges.names ++ dir.variableBehavior.names ++ dir.files, (front name).head? ≠ some dot)
    ⟨fun ⟨marks, visible⟩ => ⟨marks, visible⟩, fun recognised => ⟨recognised.1, recognised.2⟩⟩

theorem cleanQueueDir_eq_ok {path : Name} {dir : QueueDir} {left : Option QueueDir} (recorded : dir.Recorded) :
    cleanQueueDir path (some dir) = .ok left ↔ left = none ∧ dir.Recognised := by
  have marks : deleteFiles (some casePrefix) dir.deterministicDone = none ↔
      dir.deterministicDone.All (casePrefix <+: ·) :=
    deleteFiles_eq_none (by decide) (by decide)
  have extras : deleteFiles (some (ascii "auto_")) dir.autoExtras = none :=
    (deleteFiles_eq_none (by decide) (by decide)).mpr recorded.autoExtras
  have redundant := deleteFilesWildcard_eq_none recorded.redundantEdges
  have varying := deleteFilesWildcard_eq_none recorded.variableBehavior
  have files : deleteFilesWildcard (some casePrefix) dash (some dir.files) = none ↔ _ :=
    deleteFilesWildcard_eq_none recorded.files
  have label : dash ∉ casePrefix := by decide
  simp only [cleanQueueDir, bind_eq_ok, cleared_eq_ok, marks, extras, redundant, varying, files]
  constructor
  · rintro ⟨_, ⟨marked, rfl⟩, _, ⟨-, rfl⟩, _, ⟨redundant, rfl⟩, _, ⟨varying, rfl⟩, _, ⟨files, rfl⟩, done⟩
    refine ⟨(Except.ok.inj done).symm, fun name inside => (begins_front_iff label).mpr (marked name inside), ?_⟩
    simp only [List.mem_append, ne_eq, head?_front_iff]
    rintro name ((inside | inside) | inside)
    · exact redundant name inside
    · exact varying name inside
    · exact files name inside
  · rintro ⟨rfl, recognised⟩
    have visible := recognised.visible
    simp only [List.mem_append, ne_eq, head?_front_iff, or_imp, forall_and] at visible
    exact ⟨none, ⟨fun name inside => (begins_front_iff label).mp (recognised.deterministicDone name inside), rfl⟩,
      none, ⟨trivial, rfl⟩, none, ⟨visible.1.1, rfl⟩, none, ⟨visible.1.2, rfl⟩, none, ⟨visible.2, rfl⟩, rfl⟩

/-- What the sessions leave behind. -/
structure OutDir.Recorded (out : OutDir) : Prop where
  queue : ∀ dir ∈ out.queue, dir.Recorded
  resume : ∀ dir ∈ out.resume, dir.Recorded
  synced : out.synced.All fun name => name.head? ≠ some dot
  crashes : out.crashes.All fun name => name = readme ∨ Labelled name
  hangs : out.hangs.All Labelled

structure OutDir.Recognised (out : OutDir) : Prop where
  queue : ∀ dir ∈ out.queue, dir.Recognised
  resume : ∀ dir ∈ out.resume, dir.Recognised
  visible : ∀ name ∈ out.crashes.names ++ out.hangs.names, (front name).head? ≠ some dot

instance (out : OutDir) : Decidable out.Recognised :=
  decidable_of_iff ((∀ dir ∈ out.queue, dir.Recognised) ∧ (∀ dir ∈ out.resume, dir.Recognised) ∧
    ∀ name ∈ out.crashes.names ++ out.hangs.names, (front name).head? ≠ some dot)
    ⟨fun ⟨queue, resume, visible⟩ => ⟨queue, resume, visible⟩,
      fun recognised => ⟨recognised.1, recognised.2, recognised.3⟩⟩

/-- Starting over leaves nothing of a session, and resuming leaves nothing but the synced
positions once the inputs are taken over. -/
def OutDir.Recovers (outDir : Name) (out : OutDir) : Prop :=
  handleExistingOutDir outDir false out =
    .ok { out with queue := none, synced := none, crashes := none, hangs := none } ∧
  (handleExistingOutDir outDir true out >>= nukeResumeDir outDir) =
    .ok { out with queue := none, resume := none, crashes := none, hangs := none }

theorem cleanQueueDir_opt {path : Name} {queue left : Option QueueDir} (recorded : ∀ dir ∈ queue, dir.Recorded) :
    cleanQueueDir path queue = .ok left ↔ left = none ∧ ∀ dir ∈ queue, dir.Recognised := by
  cases queue with
  | none => simp [cleanQueueDir, eq_comm]
  | some dir => simpa using cleanQueueDir_eq_ok (recorded dir rfl)

theorem deleteFiles_synced {dir : Directory} (visible : dir.All fun name => name.head? ≠ some dot) :
    deleteFiles none dir = none := by
  rw [deleteFiles, deleteMatching_eq_none]
  intro name inside
  simpa using visible name inside

theorem mapError_eq_ok {ε δ α : Type} {x : Except ε α} {f : ε → δ} {a : α} : x.mapError f = .ok a ↔ x = .ok a := by
  cases x with
  | error e => simp [Except.mapError]
  | ok a => simp [Except.mapError]

section
variable {outDir : Name} {out left : OutDir}

/-- The crashes without their `README.txt`, which is removed by its name. -/
theorem deleteCrashes_eq_none {dir : Directory} (recorded : dir.All fun name => name = readme ∨ Labelled name) :
    deleteFilesWildcard (some casePrefix) dash (dir.map (·.filter (· ≠ readme))) = none ↔
      dir.All fun name => name.head? ≠ some dot := by
  cases dir with
  | none => simp [deleteFilesWildcard, deleteMatching, Directory.All, Directory.names]
  | some files =>
    have labelled : Directory.All Labelled (some (files.filter (· ≠ readme))) := by
      intro name inside
      obtain ⟨inside, other⟩ := List.mem_filter.mp inside
      exact (recorded name inside).resolve_left (by simpa using other)
    rw [Option.map_some, deleteFilesWildcard_eq_none labelled]
    constructor
    · intro visible name inside
      by_cases same : name = readme
      · exact same ▸ (by decide)
      · exact visible name (List.mem_filter.mpr ⟨inside, by simpa using same⟩)
    · exact fun visible => Directory.All.filter visible _

/-- Starting over; `_resume` is not looked at. -/
theorem restart_eq_ok (recorded : out.Recorded) :
    handleExistingOutDir outDir false out = .ok left ↔
      left = { out with queue := none, synced := none, crashes := none, hangs := none } ∧
      (∀ dir ∈ out.queue, dir.Recognised) ∧
      ∀ name ∈ out.crashes.names ++ out.hangs.names, (front name).head? ≠ some dot := by
  have queue : ∀ path left, cleanQueueDir path out.queue = .ok left ↔ _ := fun _ _ => cleanQueueDir_opt recorded.queue
  simp only [handleExistingOutDir, mapError_eq_ok, cleanOutDir, Bool.false_eq_true, if_false, bind_eq_ok, queue,
    cleared_eq_ok, backUp, deleteFiles_synced recorded.synced, deleteCrashes_eq_none recorded.crashes,
    deleteFilesWildcard_eq_none recorded.hangs, List.mem_append, or_imp, forall_and, ne_eq, head?_front_iff]
  constructor
  · rintro ⟨_, ⟨-, rfl⟩, _, ⟨rfl, queue⟩, _, ⟨crashes, rfl⟩, _, ⟨hangs, rfl⟩, done⟩
    exact ⟨(Except.ok.inj done).symm, queue, crashes, hangs⟩
  · rintro ⟨rfl, queue, crashes, hangs⟩
    exact ⟨none, ⟨trivial, rfl⟩, none, ⟨rfl, queue⟩, none, ⟨crashes, rfl⟩, none, ⟨hangs, rfl⟩, rfl⟩

theorem renameQueue_recorded (recorded : out.Recorded) : (renameQueue out).Recorded := by
  unfold renameQueue
  split
  · exact recorded
  · exact { recorded with queue := by simp, resume := recorded.queue }

/-- Resuming; crashes and hangs are out of the way. -/
theorem resume_eq_ok (recorded : out.Recorded) :
    handleExistingOutDir outDir true out = .ok left ↔
      left = { renameQueue out with queue := none, crashes := none, hangs := none } ∧
      ∀ dir ∈ (renameQueue out).queue, dir.Recognised := by
  have empty : deleteFilesWildcard (some casePrefix) dash none = none := rfl
  have queue : ∀ path left, cleanQueueDir path (renameQueue out).queue = .ok left ↔ _ :=
    fun _ _ => cleanQueueDir_opt (renameQueue_recorded recorded).queue
  simp only [handleExistingOutDir, mapError_eq_ok, cleanOutDir, if_true, bind_eq_ok, Except.ok.injEq, queue,
    cleared_eq_ok, backUp, empty]
  constructor
  · rintro ⟨_, rfl, _, ⟨rfl, queue⟩, _, ⟨-, rfl⟩, _, ⟨-, rfl⟩, done⟩
    exact ⟨(Except.ok.inj done).symm, queue⟩
  · rintro ⟨rfl, queue⟩
    exact ⟨_, rfl, none, ⟨rfl, queue⟩, none, ⟨trivial, rfl⟩, none, ⟨trivial, rfl⟩, rfl⟩

theorem nukeResumeDir_eq_ok (recorded : out.Recorded) :
    nukeResumeDir outDir out = .ok left ↔
      left = { out with resume := none } ∧ ∀ dir ∈ out.resume, dir.Recognised := by
  unfold nukeResumeDir
  split
  · next resume cleaned =>
    obtain ⟨rfl, recognised⟩ := (cleanQueueDir_opt recorded.resume).mp cleaned
    rw [Except.ok.injEq, eq_comm, and_iff_left recognised]
  · next path failed =>
    simp only [reduceCtorEq, false_iff, not_and]
    intro _ recognised
    rw [(cleanQueueDir_opt recorded.resume).mpr ⟨rfl, recognised⟩] at failed
    cases failed

theorem all_none (p : Name → Prop) : Directory.All p none := by simp [Directory.All, Directory.names]

theorem OutDir.Recorded.handleExistingOutDir {inPlaceResume : Bool} (recorded : out.Recorded)
    (handled : handleExistingOutDir outDir inPlaceResume out = .ok left) : left.Recorded := by
  cases inPlaceResume with
  | false =>
    obtain ⟨rfl, _⟩ := (restart_eq_ok recorded).mp handled
    exact ⟨by simp, recorded.resume, all_none _, all_none _, all_none _⟩
  | true =>
    obtain ⟨rfl, _⟩ := (resume_eq_ok recorded).mp handled
    have moved := renameQueue_recorded recorded
    exact ⟨by simp, moved.resume, moved.synced, all_none _, all_none _⟩

theorem OutDir.Recorded.recovers_iff_recognised (recorded : out.Recorded) : out.Recovers outDir ↔ out.Recognised := by
  have moved := renameQueue_recorded recorded
  have cleaned : ({ renameQueue out with queue := none, crashes := none, hangs := none } : OutDir).Recorded :=
    ⟨by simp, moved.resume, moved.synced, all_none _, all_none _⟩
  have dirs : (∀ dir ∈ (renameQueue out).queue, dir.Recognised) ∧ (∀ dir ∈ (renameQueue out).resume, dir.Recognised) ↔
      (∀ dir ∈ out.queue, dir.Recognised) ∧ ∀ dir ∈ out.resume, dir.Recognised := by
    unfold renameQueue
    split
    · rfl
    · next missing => simp [Option.not_isSome_iff_eq_none.mp missing]
  simp only [OutDir.Recovers, restart_eq_ok recorded, bind_eq_ok, resume_eq_ok recorded, true_and]
  constructor
  · rintro ⟨⟨queue, visible⟩, _, ⟨rfl, old⟩, nuked⟩
    exact ⟨queue, (dirs.mp ⟨old, ((nukeResumeDir_eq_ok cleaned).mp nuked).2⟩).2, visible⟩
  · intro recognised
    obtain ⟨old, resume⟩ := dirs.mpr ⟨recognised.queue, recognised.resume⟩
    refine ⟨⟨recognised.queue, recognised.visible⟩, _, ⟨rfl, old⟩, (nukeResumeDir_eq_ok cleaned).mpr ⟨?_, resume⟩⟩
    unfold renameQueue
    split <;> rfl

end

namespace Session

structure Recorded (s : Session) : Prop where
  names : ∀ name ∈ s.targetNames, dash ∉ name
  targets : ∀ q ∈ s.queue, dash ∉ q.targetFunctionName
  linked : s.pivoted = true → ∀ q ∈ s.queue, Labelled q.fname
  out : s.out.Recorded

section
variable {s t : Session} {name : Name} {i : Nat} {q : Queued}

theorem Recorded.inQueueDir {write : QueueDir → Option QueueDir} (recorded : s.Recorded)
    (wrote : s.inQueueDir write = some t) (kept : ∀ dir left, dir.Recorded → write dir = some left → left.Recorded) :
    t.Recorded := by
  simp only [Session.inQueueDir, Option.bind_eq_bind, Option.bind_eq_some_iff, Option.pure_def,
    Option.some.injEq] at wrote
  obtain ⟨dir, is, left, written, rfl⟩ := wrote
  have after := kept dir left (recorded.out.queue dir is) written
  exact { recorded with out := { recorded.out with queue := by simpa using after } }

/-- A mark leaves the names of an entry alone. -/
theorem Recorded.mark (recorded : s.Recorded) {marked : Queued} {write : QueueDir → Option QueueDir}
    (listed : s.queue[i]? = some q) (wrote : Session.inQueueDir { s with queue := s.queue.set i marked } write = some t)
    (same : marked.toEntry = q.toEntry) (kept : ∀ dir left, dir.Recorded → write dir = some left → left.Recorded) :
    t.Recorded := by
  have names : Recorded { s with queue := s.queue.set i marked } := {
    names := recorded.names
    targets := by
      intro r inside
      cases List.mem_or_eq_of_mem_set inside with
      | inl inside => exact recorded.targets r inside
      | inr is => exact is ▸ same ▸ recorded.targets q (List.mem_of_getElem? listed)
    linked := by
      intro pivoted r inside
      cases List.mem_or_eq_of_mem_set inside with
      | inl inside => exact recorded.linked pivoted r inside
      | inr is => exact is ▸ same ▸ recorded.linked pivoted q (List.mem_of_getElem? listed)
    out := recorded.out }
  exact names.inQueueDir wrote kept

theorem Recorded.addToQueue (recorded : s.Recorded) {fname : Name} (free : dash ∉ name)
    (label : s.pivoted = true → Labelled fname) (passedDet : Bool) : (s.addToQueue fname passedDet name).Recorded where
  names := recorded.names
  targets := by simpa [Session.addToQueue, or_imp, forall_and] using ⟨recorded.targets, free⟩
  linked := by
    intro pivoted
    simpa [Session.addToQueue, or_imp, forall_and] using ⟨recorded.linked pivoted, label pivoted⟩
  out := recorded.out

theorem Recorded.target (recorded : s.Recorded) {origin : Origin} (is : s.target origin = some name) : dash ∉ name := by
  cases origin with
  | entry i =>
    obtain ⟨q, listed, rfl⟩ := Option.map_eq_some_iff.mp is
    exact recorded.targets q (List.mem_of_getElem? listed)
  | file file => exact getTargetName_eq_some is

theorem setupDirs_recorded {out : OutDir} (recorded : out.Recorded) (syncId : Bool) :
    (setupDirs syncId out).Recorded where
  queue := by
    rintro _ ⟨⟩
    constructor <;> simp [Directory.All, Directory.names]
  resume := recorded.resume
  synced := by
    cases syncId with
    | false => exact recorded.synced
    | true => exact recorded.synced
  crashes := by simp [setupDirs, Directory.All, Directory.names]
  hangs := by simp [setupDirs, Directory.All, Directory.names]

theorem Recorded.start (recorded : s.Recorded) {inPlaceResume : Bool} (started : s.start inPlaceResume = some t) :
    t.Recorded := by
  cases handled : handleExistingOutDir s.outDir inPlaceResume s.out with
  | error abort => simp [Session.start, handled, Except.toOption] at started
  | ok out =>
    simp only [Session.start, handled, Except.toOption, Option.bind_eq_bind, Option.bind_some, Option.pure_def,
      Option.some.injEq] at started
    obtain rfl := started
    exact {
      names := recorded.names
      targets := by simp
      linked := by simp
      out := setupDirs_recorded (recorded.out.handleExistingOutDir handled) _ }

theorem Recorded.dropResumeDir (recorded : s.Recorded) (dropped : s.dropResumeDir = some t) : t.Recorded := by
  unfold Session.dropResumeDir at dropped
  split at dropped
  · obtain ⟨out, nuked, rfl⟩ := Option.map_eq_some_iff.mp dropped
    cases cleaned : nukeResumeDir s.outDir s.out with
    | error abort =>
      rw [cleaned] at nuked
      cases nuked
    | ok left =>
      obtain ⟨rfl, _⟩ := (nukeResumeDir_eq_ok recorded.out).mp cleaned
      rw [cleaned] at nuked
      obtain rfl := Option.some.inj nuked
      exact { recorded with out := { recorded.out with resume := by simp } }
  · obtain rfl := Option.some.inj dropped
    exact recorded

theorem Recorded.pivotInputs (recorded : s.Recorded) {totalExecs : Nat}
    (pivoted : s.pivotInputs totalExecs = some t) : t.Recorded := by
  have linked : ∀ r ∈ s.queue.mapIdx fun id q => { q with fname := pivotName s.outDir totalExecs id q.toEntry },
      dash ∉ r.targetFunctionName ∧ Labelled r.fname := by
    intro r inside
    obtain ⟨id, bound, rfl⟩ := List.mem_mapIdx.mp inside
    have free := recorded.targets _ (List.getElem_mem bound)
    exact ⟨free, pivotName_labelled free _ _ _⟩
  simp only [Session.pivotInputs, Option.bind_eq_bind, Option.bind_eq_some_iff] at pivoted
  generalize s.queue.mapIdx (fun id q => { q with fname := pivotName s.outDir totalExecs id q.toEntry }) = queue
    at pivoted linked
  obtain ⟨u, wrote, dropped⟩ := pivoted
  have renamed : Recorded { s with queue, pivoted := true } :=
    ⟨recorded.names, fun r inside => (linked r inside).1, fun _ r inside => (linked r inside).2, recorded.out⟩
  refine Recorded.dropResumeDir (renamed.inQueueDir wrote ?_) dropped
  intro dir left before wrote
  simp only [Option.bind_eq_some_iff] at wrote
  obtain ⟨files, first, marks, second, done⟩ := wrote
  obtain rfl := Option.some.inj done
  have labelled : files.All Labelled := by
    refine createAll_all first ?_ before.files
    intro name inside
    obtain ⟨r, queued, rfl⟩ := List.mem_map.mp inside
    exact (linked r queued).2
  have marked : marks.All Labelled := by
    refine createAll_all second ?_ before.deterministicDone
    intro name inside
    obtain ⟨r, queued, rfl⟩ := List.mem_map.mp inside
    exact (linked r (List.mem_of_mem_filter queued)).2
  exact { before with files := labelled, deterministicDone := marked }

theorem Recorded.markAsDetDone (recorded : s.Recorded) (pivoted : s.pivoted = true)
    (marked : s.markAsDetDone i = some t) : t.Recorded := by
  simp only [Session.markAsDetDone, Option.bind_eq_bind, Option.bind_eq_some_iff,
    Option.ite_none_left_eq_some] at marked
  obtain ⟨q, listed, _, wrote⟩ := marked
  refine recorded.mark listed wrote rfl ?_
  intro dir left before wrote
  obtain ⟨marks, created, done⟩ := Option.bind_eq_some_iff.mp wrote
  obtain rfl := Option.some.inj done
  have label := recorded.linked pivoted q (List.mem_of_getElem? listed)
  exact { before with deterministicDone := create_all created label before.deterministicDone }

theorem Recorded.markAsVariable (recorded : s.Recorded) (pivoted : s.pivoted = true)
    (marked : s.markAsVariable i = some t) : t.Recorded := by
  simp only [Session.markAsVariable, Option.bind_eq_bind, Option.bind_eq_some_iff,
    Option.ite_none_left_eq_some] at marked
  obtain ⟨q, listed, _, wrote⟩ := marked
  refine recorded.mark listed wrote rfl ?_
  intro dir left before wrote
  obtain ⟨marks, created, done⟩ := Option.bind_eq_some_iff.mp wrote
  obtain rfl := Option.some.inj done
  have label := recorded.linked pivoted q (List.mem_of_getElem? listed)
  exact { before with variableBehavior := create_all created label before.variableBehavior }

theorem Recorded.markAsRedundant (recorded : s.Recorded) (pivoted : s.pivoted = true) {state : Bool}
    (marked : s.markAsRedundant i state = some t) : t.Recorded := by
  obtain ⟨q, listed, marked⟩ := Option.bind_eq_some_iff.mp marked
  split at marked
  · obtain rfl := Option.some.inj marked
    exact recorded
  · refine recorded.mark listed marked rfl ?_
    intro dir left before wrote
    have label := recorded.linked pivoted q (List.mem_of_getElem? listed)
    cases state with
    | true =>
      obtain ⟨marks, created, done⟩ := Option.bind_eq_some_iff.mp wrote
      obtain rfl := Option.some.inj done
      exact { before with redundantEdges := create_all created label before.redundantEdges }
    | false =>
      obtain ⟨marks, unlinked, done⟩ := Option.bind_eq_some_iff.mp wrote
      obtain rfl := Option.some.inj done
      exact { before with redundantEdges := unlink_all unlinked before.redundantEdges }

theorem Recorded.saveToQueue (recorded : s.Recorded) (free : dash ∉ name) {note : Name}
    (saved : s.saveToQueue name note = some t) : t.Recorded := by
  have label := caseName_labelled free s.queue.length note
  refine (recorded.addToQueue free (fun _ => label) false).inQueueDir saved ?_
  intro dir left before wrote
  obtain ⟨files, created, done⟩ := Option.bind_eq_some_iff.mp wrote
  obtain rfl := Option.some.inj done
  have labelled : files.All Labelled := create_all created label before.files
  exact { before with files := labelled }

theorem Recorded.keepAsCrash (recorded : s.Recorded) (free : dash ∉ name) {note : Name}
    (kept : s.keepAsCrash name note = some t) : t.Recorded := by
  unfold Session.keepAsCrash at kept
  split at kept
  · obtain rfl := Option.some.inj kept
    exact recorded
  · obtain ⟨crashes, created, done⟩ := Option.bind_eq_some_iff.mp kept
    obtain rfl := Option.some.inj done
    have label := caseName_labelled free s.savedCrashes note
    refine { recorded with out := { recorded.out with crashes := create_all created (.inr label) ?_ } }
    split
    · exact touch_all (.inl rfl) recorded.out.crashes
    · exact recorded.out.crashes

theorem Recorded.keepAsHang (recorded : s.Recorded) (free : dash ∉ name) {note : Name}
    (kept : s.keepAsHang name note = some t) : t.Recorded := by
  unfold Session.keepAsHang at kept
  split at kept
  · obtain rfl := Option.some.inj kept
    exact recorded
  · obtain ⟨hangs, created, done⟩ := Option.bind_eq_some_iff.mp kept
    obtain rfl := Option.some.inj done
    have label := caseName_labelled free s.savedHangs note
    exact { recorded with out := { recorded.out with hangs := create_all created label recorded.out.hangs } }

theorem Recorded.saveAuto (recorded : s.Recorded) {count : Nat} (saved : s.saveAuto count = some t) : t.Recorded := by
  refine recorded.inQueueDir saved ?_
  intro dir left before wrote
  obtain rfl := Option.some.inj wrote
  have named : ∀ (l : List Nat) (dir : Directory), dir.All (ascii "auto_" <+: ·) →
      (l.foldl (fun dir i => touch (ascii "auto_" ++ pad6 i) dir) dir).All (ascii "auto_" <+: ·) := by
    intro l
    induction l with
    | nil => exact fun dir before => before
    | cons i l ih => exact fun dir before => ih _ (touch_all (List.prefix_append _ _) before)
  exact { before with autoExtras := named _ _ before.autoExtras }

theorem Recorded.syncFuzzer (recorded : s.Recorded) (named : name ≠ []) (visible : name.head? ≠ some dot)
    (hasQueue : Bool) : (s.syncFuzzer name hasQueue).Recorded := by
  have last : (name ++ ascii ".last").head? ≠ some dot := by rwa [List.head?_append_of_ne_nil _ named]
  have first := touch_all last recorded.out.synced
  cases hasQueue with
  | false => exact { recorded with out := { recorded.out with synced := first } }
  | true => exact { recorded with out := { recorded.out with synced := touch_all visible first } }

theorem Recorded.step (recorded : s.Recorded) {event : SessionEvent} (stepped : s.step event = some t) :
    t.Recorded := by
  cases event with
  | start inPlaceResume => exact recorded.start stepped
  | seed i random =>
    simp only [Session.step, Option.ite_none_left_eq_some, not_or, Option.map_eq_some_iff] at stepped
    obtain ⟨⟨early, _⟩, name, listed, rfl⟩ := stepped
    exact recorded.addToQueue (recorded.names name (List.mem_of_getElem? listed))
      (fun pivoted => absurd pivoted early) _
  | load file =>
    simp only [Session.step, Option.ite_none_left_eq_some, not_or, Option.bind_eq_bind, Option.bind_eq_some_iff,
      Option.ite_none_right_eq_some] at stepped
    obtain ⟨⟨early, _⟩, dir, _, _, name, parsed, done⟩ := stepped
    obtain rfl := Option.some.inj done
    exact recorded.addToQueue (getTargetName_eq_some parsed) (fun pivoted => absurd pivoted early) _
  | pivot totalExecs =>
    exact recorded.pivotInputs (Option.ite_none_left_eq_some.mp stepped).2
  | find origin note =>
    simp only [Session.step, Option.ite_none_left_eq_some, Option.bind_eq_some_iff] at stepped
    obtain ⟨_, name, is, saved⟩ := stepped
    exact recorded.saveToQueue (recorded.target is) saved
  | crash origin note =>
    simp only [Session.step, Option.ite_none_left_eq_some, Option.bind_eq_some_iff] at stepped
    obtain ⟨_, name, is, kept⟩ := stepped
    exact recorded.keepAsCrash (recorded.target is) kept
  | hang origin note =>
    simp only [Session.step, Option.ite_none_left_eq_some, Option.bind_eq_some_iff] at stepped
    obtain ⟨_, name, is, kept⟩ := stepped
    exact recorded.keepAsHang (recorded.target is) kept
  | detDone i =>
    simp only [Session.step, Option.ite_none_left_eq_some, not_not] at stepped
    exact recorded.markAsDetDone stepped.1 stepped.2
  | varying i =>
    simp only [Session.step, Option.ite_none_left_eq_some, not_not] at stepped
    exact recorded.markAsVariable stepped.1 stepped.2
  | redundant i state =>
    simp only [Session.step, Option.ite_none_left_eq_some, not_not] at stepped
    exact recorded.markAsRedundant stepped.1 stepped.2
  | saveAuto count => exact recorded.saveAuto (Option.ite_none_left_eq_some.mp stepped).2
  | sync name hasQueue =>
    simp only [Session.step, Option.ite_none_left_eq_some, not_or, Option.some.injEq] at stepped
    obtain ⟨⟨_, named, visible⟩, rfl⟩ := stepped
    exact recorded.syncFuzzer named visible hasQueue

theorem fresh_recorded (outDir : Name) (syncId noCrashReadme : Bool) {targetNames : List Name}
    (dashFree : ∀ name ∈ targetNames, dash ∉ name) : (fresh outDir syncId noCrashReadme targetNames).Recorded where
  names := dashFree
  targets := by simp [fresh]
  linked := by simp [fresh]
  out := setupDirs_recorded ⟨by simp, by simp, all_none _, all_none _, all_none _⟩ syncId

end

end Session

/-- However many processes have worked in an output directory: the next one can start over and
resume exactly if no deterministic stage was marked as done, targets named like a label
apart, and no file belongs to a target whose name begins with a dot. -/
theorem recovers_iff {outDir : Name} {syncId noCrashReadme : Bool} {targetNames : List Name}
    (dashFree : ∀ name ∈ targetNames, dash ∉ name) {events : List SessionEvent} {s : Session}
    (ran : run Session.step (.fresh outDir syncId noCrashReadme targetNames) events = some s) :
    s.out.Recovers outDir ↔ s.out.Recognised := by
  have recorded : s.Recorded := run_invariant Session.Recorded (fun _ _ _ before stepped => before.step stepped)
    (Session.fresh_recorded outDir syncId noCrashReadme dashFree) ran
  exact recorded.out.recovers_iff_recognised

/-- Two processes that find, crash and mark, but for the deterministic stages. -/
def withoutDetDone : List SessionEvent :=
  [.seed 0 (ascii "AAAAAA"), .pivot 0, .find (.entry 0) (ascii "op"), .crash (.entry 0) (ascii "sig:11"),
    .hang (.entry 1) (ascii "op"), .varying 1, .redundant 0 true, .saveAuto 2, .start true,
    .load (ascii "f-id:000001,op"), .load (ascii "f-id:000000,time:0,execs:0,orig:f-initialAAAAAA"), .pivot 7,
    .find (.entry 1) (ascii "op")]

theorem recovers_without_detDone :
    (run Session.step (.fresh (ascii "out") false false [ascii "f"]) withoutDetDone).isSome ∧
      ∀ s ∈ run Session.step (.fresh (ascii "out") false false [ascii "f"]) withoutDetDone,
        s.out.Recovers (ascii "out") := by
  have recognised : ∀ s ∈ run Session.step (.fresh (ascii "out") false false [ascii "f"]) withoutDetDone,
      s.out.Recognised := by decide +kernel
  exact ⟨by decide +kernel, fun s ran => (recovers_iff (by decide) ran).mpr (recognised s ran)⟩

/-- One seed through its deterministic stages, and the directory can neither be used again nor
resumed: the mark is `f-id:…`, and `id:…` is looked for. -/
theorem detDone_blocks :
    (run Session.step (.fresh (ascii "out") false false [ascii "f"]) [.seed 0 [], .pivot 0, .detDone 0]).isSome ∧
      ∀ s ∈ run Session.step (.fresh (ascii "out") false false [ascii "f"]) [.seed 0 [], .pivot 0, .detDone 0],
        handleExistingOutDir (ascii "out") false s.out =
          .error (.outputDirectory (ascii "out/queue/.state/deterministic_done")) ∧
        (handleExistingOutDir (ascii "out") true s.out >>= nukeResumeDir (ascii "out")) = .error .resumeDirectory := by
  decide +kernel

end AflLive.Fuzz.CleanUp
