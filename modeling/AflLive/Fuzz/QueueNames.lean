import AflLive.Fuzz.Attribution

/-! The target of a queue entry over whole campaigns: what the queue says, what the names
of its files give back, and what happens to files of other targets. -/
namespace AflLive.Fuzz
open Runs

/-- What an entry says about its target. -/
def Entry.target (q : Entry) : Name × Nat := (q.targetFunctionName, q.targetFunctionIdx)

/-- The targets of the entries an event adds. -/
def Event.added (s : Fuzzer) : Event → List (Name × Nat)
  | .seed i _ => (s.targetNames[i]?.map fun name => (name, getTargetIdx s.targetNames name)).toList
  | .load file | .importFile file (some _) =>
    ((getTargetName file).map fun name => (name, getTargetIdx s.targetNames name)).toList
  | .fuzz (some _) => (s.queueCur.map Entry.target).toList
  | _ => []

/-- The file an event brings in from outside. -/
def Event.file : Event → Option Name
  | .load file | .importFile file _ => some file
  | _ => none

/-- The event queues no file of an unknown target. -/
def Event.Known (targetNames : List Name) : Event → Prop
  | .load file | .importFile file (some _) => ∀ name ∈ getTargetName file, name ∈ targetNames
  | _ => True

instance (targetNames : List Name) : (event : Event) → Decidable (event.Known targetNames)
  | .load file | .importFile file (some _) =>
    inferInstanceAs (Decidable (∀ name ∈ getTargetName file, name ∈ targetNames))
  | .importFile _ none | .seed .. | .pivot _ | .dryRun _ | .enterLoop | .selectAlias _ | .selectOld _
  | .recalibrate | .fuzz _ => .isTrue trivial

namespace Fuzzer

def targets (s : Fuzzer) : List (Name × Nat) := s.queue.map Entry.target

/-- A step renames entries and appends new ones. -/
theorem Steps.targets {s t : Fuzzer} {event : Event} (steps : Steps s event t) :
    t.targets = s.targets ++ event.added s := by
  cases steps with
  | seed _ listed => simp [Fuzzer.targets, addToQueue, Event.added, listed, Entry.target]
  | load _ parsed => simp [Fuzzer.targets, addToQueue, Event.added, parsed, Entry.target]
  | loadDies _ parsed => simp [Fuzzer.targets, Event.added, parsed]
  | @importDies _ find _ parsed => cases find <;> simp [Fuzzer.targets, Event.added, parsed]
  | pivot =>
    apply List.ext_getElem?
    intro i
    simp only [Fuzzer.targets, pivotInputs, Event.added, List.append_nil, List.getElem?_map, List.getElem?_mapIdx,
      Option.map_map]
    rfl
  | selectAlias =>
    rw [selectAlias_eq]
    simp [Fuzzer.targets, Event.added]
  | @fuzz q find _ current =>
    cases find <;> simp [Fuzzer.targets, Event.added, saveIfInteresting, saveToQueue, calibrateCase_eq, addToQueue,
      execute, current, Entry.target]
  | @importFile _ _ find _ parsed =>
    cases find <;> simp [Fuzzer.targets, Event.added, saveIfInteresting, saveToQueue, calibrateCase_eq, addToQueue,
      execute, parsed, Entry.target]
  | _ => simp [Fuzzer.targets, calibrateCase_eq, Event.added]

theorem Steps.queueCur {s t : Fuzzer} {event : Event} (steps : Steps s event t) :
    ∀ q, t.queueCur = some q → s.queueCur = some q ∨ q ∈ s.queue := by
  intro q is
  cases steps with
  | selectAlias _ _ listed =>
    rw [selectAlias_eq] at is
    exact .inr (Option.some.inj is ▸ List.mem_of_getElem? listed)
  | endCycle => cases is
  | selectOld _ _ listed => exact .inr (Option.some.inj is ▸ List.mem_of_getElem? listed)
  | @fuzz _ find | @importFile _ _ find =>
    left
    cases find <;> simpa [saveIfInteresting, saveToQueue, calibrateCase_eq, addToQueue, execute] using is
  | _ =>
    left
    simpa [addToQueue, calibrateCase_eq, pivotInputs] using is

/-- The current entry is one of the queue. -/
def CurrentListed (s : Fuzzer) : Prop := ∀ q, s.queueCur = some q → q.target ∈ s.targets

theorem CurrentListed.step {s t : Fuzzer} {event : Event} (listed : s.CurrentListed) (steps : Steps s event t) :
    t.CurrentListed := by
  intro q is
  rw [steps.targets, List.mem_append]
  cases steps.queueCur q is with
  | inl before => exact .inl (listed q before)
  | inr inside => exact .inl (List.mem_map_of_mem inside)

/-- A name and an index that belong together. -/
def Paired (targetNames : List Name) (target : Name × Nat) : Prop := targetNames[target.2]? = some target.1

/-- Only files from outside can bring in a wrong index, and only with an unknown name. -/
theorem Steps.paired_iff {s t : Fuzzer} {event : Event} (listed : s.CurrentListed) (steps : Steps s event t) :
    (∀ p ∈ t.targets, Paired s.targetNames p) ↔
      (∀ p ∈ s.targets, Paired s.targetNames p) ∧ event.Known s.targetNames := by
  rw [steps.targets, List.forall_mem_append]
  apply and_congr_right
  intro paired
  cases steps with
  | seed _ named =>
    have inside := List.mem_of_getElem? named
    simp [Event.added, Event.Known, named, Paired, getTargetIdx_attributed, inside]
  | load _ parsed => simp [Event.added, Event.Known, parsed, Paired, getTargetIdx_attributed]
  | loadDies _ parsed => simp [Event.added, Event.Known, parsed]
  | @importDies _ find _ parsed => cases find <;> simp [Event.added, Event.Known, parsed]
  | @fuzz q find _ current =>
    have here := paired _ (listed q current)
    cases find <;> simp [Event.added, Event.Known, current, here]
  | @importFile _ _ find _ parsed =>
    cases find <;> simp [Event.added, Event.Known, parsed, Paired, getTargetIdx_attributed]
  | _ => simp [Event.added, Event.Known]

theorem run_paired_iff {s t : Fuzzer} {events : List Event} (listed : s.CurrentListed)
    (ran : run step s events = some t) :
    (∀ p ∈ t.targets, Paired s.targetNames p) ↔
      (∀ p ∈ s.targets, Paired s.targetNames p) ∧ ∀ event ∈ events, event.Known s.targetNames := by
  induction events generalizing s with
  | nil =>
    obtain rfl := Option.some.inj ran
    simp
  | cons event events ih =>
    obtain ⟨u, first, last⟩ := run_cons.mp ran
    have steps := (steps_of_step first).2
    have rest := ih (listed.step steps) last
    rw [steps.targetNames] at rest
    rw [rest, steps.paired_iff listed, List.forall_mem_cons, and_assoc]

/-- The file's name gives back the target, up to the first dash in it. -/
def Traces (file target : Name) : Prop := getTargetName file = some (front target)

structure Traced (s : Fuzzer) : Prop where
  queued : ∀ q ∈ s.queue, Traces q.fname q.targetFunctionName
  written : ∀ w ∈ s.written, Traces w.file w.target ∧ w.target ∈ s.targets.map Prod.fst

/-- Files are written under the names of the entries they hold. -/
theorem Traced.grow {s t : Fuzzer} (traced : s.Traced) (queued : ∀ q ∈ t.queue, Traces q.fname q.targetFunctionName)
    (kept : s.targets ⊆ t.targets)
    (written : ∀ w ∈ t.written, w ∈ s.written ∨ ∃ q ∈ t.queue, w = ⟨q.targetFunctionName, q.fname⟩) : t.Traced where
  queued := queued
  written := by
    intro w inside
    rcases written w inside with before | ⟨q, listed, rfl⟩
    · exact ⟨(traced.written w before).1, List.map_subset _ kept (traced.written w before).2⟩
    · exact ⟨queued q listed, List.mem_map_of_mem (List.mem_map_of_mem listed)⟩

theorem pivotName_traces {outDir : Name} {totalExecs id : Nat} {q : Entry}
    (traces : Traces q.fname q.targetFunctionName) :
    Traces (pivotName outDir totalExecs id q) q.targetFunctionName := by
  unfold pivotName
  dsimp only
  split
  · exact traces
  · split <;> exact getTargetName_caseName _ _ _

theorem Traced.saves {s : Fuzzer} (traced : s.Traced) (target : Name) (funIdx : Nat) (find : Option Name) :
    (s.saveIfInteresting target funIdx find).Traced := by
  cases find with
  | none => exact traced
  | some note =>
    have name : Traces (caseName target s.queue.length note) target := getTargetName_caseName _ _ _
    simp only [saveIfInteresting, saveToQueue, calibrateCase_eq, addToQueue]
    apply traced.grow
    · simpa [or_imp, forall_and, name] using traced.queued
    · simp [Fuzzer.targets]
    · intro w inside
      simp only [List.mem_append, List.mem_singleton] at inside ⊢
      exact inside.imp_right fun is => ⟨_, .inr rfl, is⟩

theorem Traced.step {s t : Fuzzer} {event : Event} (traced : s.Traced) (steps : Steps s event t) : t.Traced := by
  have kept : s.targets ⊆ t.targets := by simp [steps.targets]
  cases steps with
  | @seed i name random =>
    have traces : Traces (name ++ ascii "-initial" ++ random) name := by
      rw [List.append_assoc]
      exact getTargetName_written _ _
    refine traced.grow ?_ kept fun w inside => .inl inside
    simp only [addToQueue, List.forall_mem_append, List.forall_mem_singleton]
    exact ⟨traced.queued, traces⟩
  | @load file name _ parsed =>
    have traces : Traces file name := by rw [Traces, parsed, front_eq_self_iff.mpr (getTargetName_eq_some parsed)]
    refine traced.grow ?_ kept fun w inside => .inl inside
    simp only [addToQueue, List.forall_mem_append, List.forall_mem_singleton]
    exact ⟨traced.queued, traces⟩
  | pivot =>
    refine traced.grow ?_ kept ?_
    · intro q inside
      obtain ⟨i, listed⟩ := List.mem_iff_getElem?.mp inside
      simp only [pivotInputs, List.getElem?_mapIdx, Option.map_eq_some_iff] at listed
      obtain ⟨old, listed, rfl⟩ := listed
      exact pivotName_traces (traced.queued old (List.mem_of_getElem? listed))
    · intro w inside
      simp only [pivotInputs, List.mem_append] at inside ⊢
      refine inside.imp_right fun inside => ?_
      obtain ⟨q, inside, is⟩ := List.mem_map.mp inside
      exact ⟨q, inside, is.symm⟩
  | selectAlias =>
    rw [selectAlias_eq]
    exact ⟨traced.queued, traced.written⟩
  | fuzz | importFile =>
    have executed : ∀ name, (s.execute name).Traced := fun _ => ⟨traced.queued, traced.written⟩
    exact (executed _).saves _ _ _
  | dryRun | recalibrate =>
    rw [calibrateCase_eq]
    exact ⟨traced.queued, traced.written⟩
  | enterLoop | endCycle | selectOld | loadDies | importDies => exact ⟨traced.queued, traced.written⟩

theorem Steps.written_subset {s t : Fuzzer} {event : Event} (steps : Steps s event t) : s.written ⊆ t.written := by
  cases steps with
  | selectAlias => rw [selectAlias_eq]; simp
  | @fuzz _ find | @importFile _ _ find =>
    cases find <;> simp [saveIfInteresting, saveToQueue, calibrateCase_eq, addToQueue, execute]
  | _ => simp [addToQueue, calibrateCase_eq, pivotInputs]

/-- What is known about every state of a campaign. -/
theorem run_start {campaign : Campaign} {events : List Event} {s : Fuzzer}
    (ran : run step campaign.start events = some s) :
    s.Traced ∧ ((∀ q ∈ s.queue, q.Attributed campaign.targetNames) ↔
      ∀ event ∈ events, event.Known campaign.targetNames) := by
  constructor
  · refine run_invariant Traced (fun _ _ _ traced stepped => traced.step (steps_of_step stepped).2) ?_ ran
    constructor <;> simp [Campaign.start]
  · have paired := run_paired_iff (by simp [CurrentListed, Campaign.start]) ran
    simpa [Fuzzer.targets, Campaign.start, Paired, Entry.Attributed, Entry.target] using paired

end Fuzzer

/-- The contract of a campaign: in every state on the way each entry's index names its
target, each saved file is read back as what it was saved for, and a file that names no
current target is left out of the queue by a fuzzer that goes on. -/
structure AttributionKept (campaign : Campaign) (events : List Event) : Prop where
  entries : ∀ before after s, events = before ++ after → run Fuzzer.step campaign.start before = some s →
    ∀ q ∈ s.queue, q.Attributed campaign.targetNames
  files : ∀ before after s, events = before ++ after → run Fuzzer.step campaign.start before = some s →
    ∀ w ∈ s.written, getTargetName w.file = some w.target ∧
      campaign.targetNames[getTargetIdx campaign.targetNames w.target]? = some w.target
  rejected : ∀ before event after s t, events = before ++ event :: after →
    run Fuzzer.step campaign.start before = some s → s.step event = some t →
      ∀ file ∈ event.file, (∀ name ∈ getTargetName file, name ∉ campaign.targetNames) →
        t.queue = s.queue ∧ t.crashed = false

/-- A file without a dash in its name is not survived. -/
theorem Fuzzer.step_undashed {s t : Fuzzer} {event : Event} {file : Name} (stepped : s.step event = some t)
    (brought : event.file = some file) (undashed : dash ∉ file) : t.crashed = true := by
  have unnamed : getTargetName file = none := by rw [getTargetName, if_neg undashed]
  cases (Fuzzer.steps_of_step stepped).2 with
  | load _ parsed | importFile _ parsed =>
    obtain rfl := Option.some.inj brought
    rw [unnamed] at parsed
    cases parsed
  | loadDies | importDies => rfl
  | _ => simp [Event.file] at brought

/-- An import that is not kept leaves the queue alone, and a file with a dash the fuzzer. -/
theorem Fuzzer.step_rejects {campaign : Campaign} {s t : Fuzzer} {event : Event} {file : Name}
    (stepped : s.step event = some t) (known : event.Known campaign.targetNames) (brought : event.file = some file)
    (dashed : dash ∈ file) (unknown : ∀ name ∈ getTargetName file, name ∉ campaign.targetNames) :
    t.queue = s.queue ∧ t.crashed = false := by
  have named : getTargetName file = some (front file) := by rw [getTargetName, if_pos dashed]
  obtain ⟨alive, steps⟩ := Fuzzer.steps_of_step stepped
  cases steps with
  | load _ parsed =>
    obtain rfl := Option.some.inj brought
    exact absurd (known _ parsed) (unknown _ parsed)
  | @importFile _ _ find _ parsed =>
    obtain rfl := Option.some.inj brought
    cases find with
    | none => exact ⟨rfl, alive⟩
    | some note => exact absurd (known _ parsed) (unknown _ parsed)
  | loadDies _ parsed | importDies _ parsed =>
    obtain rfl := Option.some.inj brought
    rw [named] at parsed
    cases parsed
  | _ => simp [Event.file] at brought

/-- The contract holds exactly in the campaigns in which every file from outside has a dash in
its name, only files of current targets are queued, and files are written only for
targets without a dash in their name. -/
theorem attribution_kept_iff {campaign : Campaign} {events : List Event} {s : Fuzzer}
    (ran : run Fuzzer.step campaign.start events = some s) :
    AttributionKept campaign events ↔
      (∀ event ∈ events, event.Known campaign.targetNames ∧ ∀ file ∈ event.file, dash ∈ file) ∧
        ∀ w ∈ s.written, dash ∉ w.target := by
  constructor
  · intro kept
    obtain ⟨traced, known⟩ := Fuzzer.run_start ran
    have entries := known.mp (kept.entries events [] s (by simp) ran)
    refine ⟨fun event inside => ⟨entries event inside, ?_⟩, fun w inside => ?_⟩
    · intro file brought
      by_contra undashed
      obtain ⟨before, after, split⟩ := List.append_of_mem inside
      rw [split] at ran
      obtain ⟨u, first, rest⟩ := run_append.mp ran
      obtain ⟨v, stepped, -⟩ := run_cons.mp rest
      have unnamed : ∀ name ∈ getTargetName file, name ∉ campaign.targetNames := by
        simp [getTargetName, undashed]
      have alive := (kept.rejected before event after u v split first stepped file brought unnamed).2
      rw [Fuzzer.step_undashed stepped brought undashed] at alive
      cases alive
    · have parsed := (kept.files events [] s (by simp) ran w inside).1
      rw [(traced.written w inside).1] at parsed
      exact front_eq_self_iff.mp (Option.some.inj parsed)
  · rintro ⟨known, free⟩
    have entries : ∀ before after u, events = before ++ after → run Fuzzer.step campaign.start before = some u →
        ∀ q ∈ u.queue, q.Attributed campaign.targetNames := by
      intro before after u split ran
      refine (Fuzzer.run_start ran).2.mpr fun event inside => (known event ?_).1
      simp [split, inside]
    refine ⟨entries, ?_, ?_⟩
    · intro before after u split ranBefore w inside
      obtain ⟨traces, listed⟩ := (Fuzzer.run_start ranBefore).1.written w inside
      have last : w ∈ s.written := by
        subst split
        obtain ⟨v, first, rest⟩ := run_append.mp ran
        obtain rfl : u = v := Option.some.inj (ranBefore.symm.trans first)
        exact run_invariant (w ∈ Fuzzer.written ·)
          (fun _ _ _ inside stepped => (Fuzzer.steps_of_step stepped).2.written_subset inside) inside rest
      refine ⟨by rw [traces, front_eq_self_iff.mpr (free w last)], getTargetIdx_attributed.mpr ?_⟩
      simp only [Fuzzer.targets, List.map_map, List.mem_map] at listed
      obtain ⟨q, queued, same⟩ := listed
      exact same ▸ List.mem_of_getElem? (entries before after u split ranBefore q queued)
    · intro before event after u t split ranBefore stepped file brought unknown
      obtain ⟨here, dashed⟩ := known event (by simp [split])
      exact Fuzzer.step_rejects stepped here brought (dashed file brought) unknown

/-- A resumed file, a find of it, and a file of another target that is not interesting. -/
def resumed : List Event :=
  [.load (ascii "g-id:000000,orig:x"), .pivot 3, .dryRun 0, .enterLoop, .selectAlias 0,
    .fuzz (some (ascii "src:000000")), .importFile (ascii "h-id:000009,src:1") none]

theorem attribution_kept_on_resume :
    (run Fuzzer.step (Fuzzer.twoTargets false).start resumed).isSome ∧
      AttributionKept (Fuzzer.twoTargets false) resumed := by
  have runs : (run Fuzzer.step (Fuzzer.twoTargets false).start resumed).isSome := by decide +kernel
  refine ⟨runs, (attribution_kept_iff (Option.some_get runs).symm).mpr ⟨?_, ?_⟩⟩
  · decide +kernel
  · revert runs
    decide +kernel

/-- On resume a file of a function that is no target any more becomes one of target 0, and a
file without a dash in its name ends the campaign. -/
theorem unknown_target_queued_as_first :
    (run Fuzzer.step (Fuzzer.twoTargets false).start [.load (ascii "h-id:000000,orig:x")]).map Fuzzer.targets =
        some [(ascii "h", 0)] ∧
      ¬AttributionKept (Fuzzer.twoTargets false) [.load (ascii "h-id:000000,orig:x")] ∧
    (run Fuzzer.step (Fuzzer.twoTargets false).start [.load (ascii "seed")]).map Fuzzer.crashed = some true := by
  refine ⟨by decide +kernel, fun kept => ?_, by decide +kernel⟩
  have attributed := kept.entries [.load (ascii "h-id:000000,orig:x")] []
    ((Fuzzer.twoTargets false).start.addToQueue ⟨ascii "h-id:000000,orig:x", ascii "h", 0⟩) rfl (by decide +kernel)
    ⟨ascii "h-id:000000,orig:x", ascii "h", 0⟩ (by simp [Fuzzer.addToQueue])
  rw [Entry.Attributed] at attributed
  exact absurd attributed (by decide +kernel)

end AflLive.Fuzz
