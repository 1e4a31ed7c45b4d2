import AflLive.Library.Runs

/-! The counters `pending_not_fuzzed`, `pending_favored` and `queued_favored`, and everything
that changes them outside MOpt mode. -/
namespace AflLive.Fuzz.Pending

/-- The fields of a `queue_entry` the counters depend on. -/
structure Item where
  wasFuzzed : Bool := false
  favored : Bool := false
  disabled : Bool := false
  calFailed : Bool := false
  fuzzLevel : Nat := 0
  traceMini : List Bool := []
deriving DecidableEq

inductive Phase where
  | starting
  | looping
  | fuzzing (queueCur : Nat)
deriving DecidableEq

/-- The counters are `u32` in the source; here they are integers, so that one that goes
below zero shows, and `wentBelow` remembers it. -/
structure State where
  queue : List Item := []
  pendingNotFuzzed : Int := 0
  pendingFavored : Int := 0
  queuedFavored : Int := 0
  topRated : List (Option Nat) := []
  scoreChanged : Bool := false
  firstCycleDone : Bool := false
  amountOfTargets : Nat
  nonInstrumented : Bool
  phase : Phase := .starting
  wentBelow : Bool := false
deriving DecidableEq

inductive Event where
  | addToQueue
  | addFavoredToQueue
  /-- A dry run that crashes or times out, or a duplicate of another entry's trace. -/
  | disable (i : Nat) (calFailed : Bool)
  | calibrate (i : Nat) (calFailed : Bool)
  /-- `update_bitmap_score`: the places the entry wins, and its trace. -/
  | rate (i : Nat) (wins : List Bool) (trace : List Bool)
  /-- The cull after the dry run and the check for valid seeds. -/
  | enterLoop
  | cullQueue
  | closeFirstCycle
  | fuzzOne (i : Nat)
  | skip (customMutator : Bool)
  | abandonEntry (stopSoon : Bool)
deriving DecidableEq

namespace State

def modify (s : State) (i : Nat) (f : Item → Item) : State := { s with queue := s.queue.modify i f }

def addToQueue (s : State) : State :=
  { s with queue := s.queue ++ [{}], pendingNotFuzzed := s.pendingNotFuzzed + 1 }

def addFavoredToQueue (s : State) : State :=
  let s := s.addToQueue
  { s.modify (s.queue.length - 1) fun q => { q with favored := true } with
    queuedFavored := s.queuedFavored + 1
    pendingFavored := s.pendingFavored + 1 }

def decrementNotFuzzed (s : State) : State :=
  { s with pendingNotFuzzed := s.pendingNotFuzzed - 1, wentBelow := s.wentBelow || s.pendingNotFuzzed ≤ 0 }

def decrementFavored (s : State) : State :=
  { s with pendingFavored := s.pendingFavored - 1, wentBelow := s.wentBelow || s.pendingFavored ≤ 0 }

/-- An entry counts as fuzzed from now on. -/
def finish (s : State) (i : Nat) : State := (s.modify i fun q => { q with wasFuzzed := true }).decrementNotFuzzed

/-- How `perform_dry_run` takes an entry out of the queue. -/
def disable (s : State) (i : Nat) (q : Item) (calFailed : Bool) : State :=
  let s := s.modify i fun q => { q with disabled := true, calFailed := q.calFailed || calFailed }
  if q.wasFuzzed then s else s.finish i

/-- The winner takes the places; its trace is made anew if it had none left. -/
def rate (s : State) (i : Nat) (wins trace : List Bool) : State :=
  let s := if some i ∈ s.topRated then s else s.modify i fun q => { q with traceMini := trace }
  { s with
    topRated := s.topRated.mapIdx fun j top => if wins.getD j false then some i else top
    scoreChanged := s.scoreChanged || (wins.take s.topRated.length).any id }

/-- An entry becomes favored, unless it is. -/
def favor (s : State) (i : Nat) : State :=
  match s.queue[i]? with
  | none => s
  | some q =>
    if q.favored then s
    else { s.modify i fun q => { q with favored := true } with
      queuedFavored := s.queuedFavored + 1
      pendingFavored := if q.wasFuzzed then s.pendingFavored else s.pendingFavored + 1 }

/-- The loop over `top_rated`; `tempV` has the places no favored entry covers yet. -/
def favorWinners : List (Option Nat) → Nat → List Bool → State → State
  | [], _, _, s => s
  | none :: rest, place, tempV, s => favorWinners rest (place + 1) tempV s
  | some i :: rest, place, tempV, s =>
    if tempV.getD place false then
      let trace := (s.queue.getD i {}).traceMini
      favorWinners rest (place + 1) (tempV.mapIdx fun j open_ => open_ && !trace.getD j false) (s.favor i)
    else favorWinners rest (place + 1) tempV s

/-- An early entry is to be fuzzed again. -/
def renew (s : State) (i : Nat) : State :=
  (s.modify i fun q => { q with fuzzLevel := 0, wasFuzzed := false }).favor i

/-- `cull_queue` does something. -/
def Culls (s : State) : Prop := s.scoreChanged = true ∧ s.nonInstrumented = false

instance (s : State) : Decidable s.Culls := inferInstanceAs (Decidable (_ ∧ _))

/-- The start of `cull_queue`: nothing is favored. -/
def unfavor (s : State) : State :=
  { s with
    scoreChanged := false
    queuedFavored := 0
    pendingFavored := 0
    queue := s.queue.map fun q => { q with favored := false } }

/-- The early entries, the initial seeds. -/
def early (s : State) : Nat := min s.amountOfTargets s.queue.length

def cullQueue (s : State) : State :=
  if s.Culls then
    let s := favorWinners s.topRated 0 (List.replicate s.topRated.length true) s.unfavor
    if s.firstCycleDone then s else (List.range s.early).foldl renew s
  else s

/-- The skip policy of `fuzz_one`, whatever its dice show. -/
def Skippable (s : State) (q : Item) : Prop :=
  if s.pendingFavored ≠ 0 then s.firstCycleDone = true ∧ (q.fuzzLevel ≠ 0 ∨ q.favored = false)
  else s.nonInstrumented = false ∧ q.favored = false ∧ s.queue.length > 10

instance (s : State) (q : Item) : Decidable (s.Skippable q) := by
  unfold Skippable
  infer_instance

/-- The end of `fuzz_one`. -/
def abandonEntry (s : State) (i : Nat) (q : Item) (stopSoon : Bool) : State :=
  let s :=
    if stopSoon || q.calFailed || q.wasFuzzed || q.disabled then s
    else
      let s := s.finish i
      if q.favored then s.decrementFavored else s
  { s.modify i fun q => { q with fuzzLevel := q.fuzzLevel + 1 } with phase := .looping }

/-- An event, where the run of the program allows it. -/
def step (s : State) : Event → Option State
  | .addToQueue => some s.addToQueue
  | .addFavoredToQueue => if s.phase = .starting then some s.addFavoredToQueue else none
  | .disable i calFailed => if s.phase = .starting then s.queue[i]?.map (s.disable i · calFailed) else none
  | .calibrate i calFailed => some (s.modify i fun q => { q with calFailed := calFailed })
  | .rate i wins trace => if i < s.queue.length then some (s.rate i wins trace) else none
  | .enterLoop =>
    let t := s.cullQueue
    if s.phase = .starting ∧ t.pendingNotFuzzed ≠ 0 ∧ t.queue.any (!·.disabled) then some { t with phase := .looping }
    else none
  | .cullQueue => if s.phase = .looping then some s.cullQueue else none
  | .closeFirstCycle => if s.phase = .looping then some { s with firstCycleDone := true } else none
  | .fuzzOne i => if s.phase = .looping ∧ i < s.queue.length then some { s with phase := .fuzzing i } else none
  | .skip customMutator =>
    match s.phase with
    | .fuzzing i => s.queue[i]?.bind fun q =>
      if customMutator ∨ s.Skippable q then some { s with phase := .looping } else none
    | _ => none
  | .abandonEntry stopSoon =>
    match s.phase with
    | .fuzzing i => s.queue[i]?.map (s.abandonEntry i · stopSoon)
    | _ => none

def start (amountOfTargets : Nat) (nonInstrumented : Bool) (mapSize : Nat) : State :=
  { amountOfTargets := amountOfTargets, nonInstrumented := nonInstrumented, topRated := List.replicate mapSize none }

def notFuzzed (s : State) : Nat := s.queue.countP fun q => !q.wasFuzzed

def favored (s : State) : Nat := s.queue.countP Item.favored

def favoredNotFuzzed (s : State) : Nat := s.queue.countP fun q => q.favored && !q.wasFuzzed

/-- The counters count what they are named after. -/
structure Exact (s : State) : Prop where
  pendingNotFuzzed : s.pendingNotFuzzed = s.notFuzzed
  pendingFavored : s.pendingFavored = s.favoredNotFuzzed
  queuedFavored : s.queuedFavored = s.favored
  neverBelow : s.wentBelow = false

/-- Before the loop: a favored entry that is disabled stays pending. -/
structure Begun (s : State) : Prop where
  pendingNotFuzzed : s.pendingNotFuzzed = s.notFuzzed
  pendingFavored : s.pendingFavored = s.favored
  queuedFavored : s.queuedFavored = s.favored
  neverBelow : s.wentBelow = false

def Good (s : State) : Prop := if s.phase = .starting then s.Begun else s.Exact

/-- The early entries are not fuzzed yet, or the first cycle is over. -/
def Calm (s : State) : Prop := s.firstCycleDone = true ∨ ∀ q ∈ s.queue.take s.amountOfTargets, q.wasFuzzed = false

instance (s : State) : Decidable s.Calm := inferInstanceAs (Decidable (_ ∨ _))

/-- Where the counters stay exact: no cull of the first cycle finds an early entry fuzzed
already, and if the first cull does nothing, no favored entry was disabled. -/
def Allowed (s : State) : Event → Prop
  | .enterLoop => if s.Culls then s.Calm else ∀ q ∈ s.queue, q.favored = true → q.wasFuzzed = false
  | .cullQueue => s.Culls → s.Calm
  | _ => True

instance (s : State) : (event : Event) → Decidable (s.Allowed event)
  | .enterLoop => inferInstanceAs (Decidable (if s.Culls then s.Calm else _))
  | .cullQueue => inferInstanceAs (Decidable (s.Culls → s.Calm))
  | .addToQueue | .addFavoredToQueue | .disable .. | .calibrate .. | .rate .. | .closeFirstCycle | .fuzzOne _
  | .skip _ | .abandonEntry _ => inferInstanceAs (Decidable True)

end State

section
variable {s t : State} {i : Nat} {q : Item} {f : Item → Item}

/-- A change of one entry changes a count by what it does to that entry. -/
theorem countP_modify {p : Item → Bool} {queue : List Item} (there : queue[i]? = some q) :
    (queue.modify i f).countP p + (if p q then 1 else 0) = queue.countP p + if p (f q) then 1 else 0 := by
  induction queue generalizing i with
  | nil => simp at there
  | cons head queue ih =>
    cases i with
    | zero =>
      obtain rfl : head = q := by simpa using there
      simp only [List.modify_zero_cons, List.countP_cons]
      omega
    | succ i =>
      have rest := ih (i := i) (by simpa using there)
      simp only [List.modify_succ_cons, List.countP_cons]
      omega

theorem countP_modify_same {p : Item → Bool} (same : ∀ q, p (f q) = p q) (queue : List Item) :
    (queue.modify i f).countP p = queue.countP p := by
  cases there : queue[i]? with
  | none => rw [List.modify_eq_self (List.getElem?_eq_none_iff.mp there)]
  | some q =>
    have counted := countP_modify (p := p) (f := f) there
    rw [same] at counted
    omega

theorem countP_and_eq_iff (p r : Item → Bool) (queue : List Item) :
    queue.countP (fun q => p q && r q) = queue.countP p ↔ ∀ q ∈ queue, p q = true → r q = true := by
  induction queue with
  | nil => simp
  | cons q queue ih =>
    have le : queue.countP (fun q => p q && r q) ≤ queue.countP p :=
      List.countP_mono_left fun q _ both => (Bool.and_eq_true_iff.mp both).1
    rw [List.forall_mem_cons, ← ih, List.countP_cons, List.countP_cons]
    cases p q <;> cases r q <;> simp
    omega

namespace State

/-- Which entries were fuzzed. -/
def fuzzed (s : State) : List Bool := s.queue.map Item.wasFuzzed

theorem notFuzzed_eq (s : State) : s.notFuzzed = s.fuzzed.count false := by
  simp only [notFuzzed, fuzzed, List.count, List.countP_map]
  congr 1
  funext q
  cases same : q.wasFuzzed <;> simp [same]

/-- What a cull leaves alone. -/
structure Framed (s t : State) : Prop where
  pendingNotFuzzed : t.pendingNotFuzzed = s.pendingNotFuzzed
  wentBelow : t.wentBelow = s.wentBelow
  firstCycleDone : t.firstCycleDone = s.firstCycleDone
  amountOfTargets : t.amountOfTargets = s.amountOfTargets
  phase : t.phase = s.phase

theorem Framed.trans {u : State} (first : s.Framed t) (second : t.Framed u) : s.Framed u where
  pendingNotFuzzed := second.pendingNotFuzzed.trans first.pendingNotFuzzed
  wentBelow := second.wentBelow.trans first.wentBelow
  firstCycleDone := second.firstCycleDone.trans first.firstCycleDone
  amountOfTargets := second.amountOfTargets.trans first.amountOfTargets
  phase := second.phase.trans first.phase

/-- The favored entries are counted. -/
structure Favored (s : State) : Prop where
  pending : s.pendingFavored = s.favoredNotFuzzed
  queued : s.queuedFavored = s.favored

theorem fuzzed_modify (s : State) (i : Nat) {h : Bool → Bool} (acts : ∀ q, (f q).wasFuzzed = h q.wasFuzzed) :
    (s.modify i f).fuzzed = s.fuzzed.modify i h := by
  apply List.ext_getElem?
  intro j
  simp only [fuzzed, modify, List.getElem?_map, List.getElem?_modify]
  cases s.queue[j]? with
  | none => rfl
  | some q => by_cases here : i = j <;> simp [here, acts]

theorem favor_spec (s : State) (i : Nat) :
    s.Framed (s.favor i) ∧ (s.favor i).fuzzed = s.fuzzed ∧ (s.Favored → (s.favor i).Favored) := by
  unfold favor
  cases there : s.queue[i]? with
  | none => exact ⟨⟨rfl, rfl, rfl, rfl, rfl⟩, rfl, fun counted => counted⟩
  | some q =>
    dsimp only
    split
    · exact ⟨⟨rfl, rfl, rfl, rfl, rfl⟩, rfl, fun counted => counted⟩
    · next unfavored =>
      refine ⟨⟨rfl, rfl, rfl, rfl, rfl⟩, ?_, fun counted => ⟨?_, ?_⟩⟩
      · exact (s.fuzzed_modify i fun _ => rfl).trans (List.modify_id i s.fuzzed)
      · have changed := countP_modify (p := fun q => q.favored && !q.wasFuzzed)
          (f := fun q => { q with favored := true }) there
        have before := counted.pending
        simp only [favoredNotFuzzed] at before ⊢
        cases fuzzed : q.wasFuzzed <;> simp_all [modify]
      · have changed := countP_modify (p := Item.favored) (f := fun q => { q with favored := true }) there
        have before := counted.queued
        simp only [favored] at before ⊢
        simp_all [modify]

theorem unfavor_spec (s : State) : s.Framed s.unfavor ∧ s.unfavor.fuzzed = s.fuzzed ∧ s.unfavor.Favored := by
  refine ⟨⟨rfl, rfl, rfl, rfl, rfl⟩, by simp [unfavor, fuzzed], ?_, ?_⟩
  · simp [unfavor, favoredNotFuzzed, List.countP_map, Function.comp_def]
  · simp [unfavor, favored, List.countP_map, Function.comp_def]

theorem favorWinners_spec (winners : List (Option Nat)) (place : Nat) (tempV : List Bool) (s : State) :
    s.Framed (favorWinners winners place tempV s) ∧ (favorWinners winners place tempV s).fuzzed = s.fuzzed ∧
      (s.Favored → (favorWinners winners place tempV s).Favored) := by
  induction winners generalizing place tempV s with
  | nil => exact ⟨⟨rfl, rfl, rfl, rfl, rfl⟩, rfl, fun counted => counted⟩
  | cons winner winners ih =>
    cases winner with
    | none => exact ih _ _ _
    | some i =>
      simp only [favorWinners]
      split
      · obtain ⟨framed, fuzzed, counted⟩ := s.favor_spec i
        obtain ⟨framed', fuzzed', counted'⟩ := ih (place + 1) _ (s.favor i)
        exact ⟨framed.trans framed', fuzzed'.trans fuzzed, fun before => counted' (counted before)⟩
      · exact ih _ _ _

/-- An early entry is not fuzzed afterwards; the favored ones stay counted if it was not before. -/
theorem renew_spec (s : State) (i : Nat) :
    s.Framed (s.renew i) ∧ (s.renew i).fuzzed = s.fuzzed.set i false ∧
      (s.fuzzed[i]? = some false → s.Favored → (s.renew i).Favored) := by
  obtain ⟨framed, fuzzed, counted⟩ := (s.modify i fun q => { q with fuzzLevel := 0, wasFuzzed := false }).favor_spec i
  refine ⟨⟨framed.1, framed.2, framed.3, framed.4, framed.5⟩, ?_, ?_⟩
  · rw [renew, fuzzed, List.set_eq_modify]
    exact s.fuzzed_modify i fun _ => rfl
  · intro not_yet before
    apply counted
    have same : ∀ (p : Item → Bool),
        (∀ q, q.wasFuzzed = false → p { q with fuzzLevel := 0, wasFuzzed := false } = p q) →
        (s.queue.modify i fun q => { q with fuzzLevel := 0, wasFuzzed := false }).countP p = s.queue.countP p := by
      intro p alike
      simp only [State.fuzzed, List.getElem?_map, Option.map_eq_some_iff] at not_yet
      obtain ⟨q, there, unfuzzed⟩ := not_yet
      have changed := countP_modify (p := p) (f := fun q => { q with fuzzLevel := 0, wasFuzzed := false }) there
      rw [alike q unfuzzed] at changed
      exact Nat.add_right_cancel changed
    refine ⟨before.pending.trans ?_, before.queued.trans ?_⟩
    · exact congrArg _ (same _ fun q unfuzzed => by simp [unfuzzed]).symm
    · exact congrArg _ (same _ fun q unfuzzed => rfl).symm

theorem length_fuzzed (s : State) : s.fuzzed.length = s.queue.length := List.length_map _

theorem renewAll_spec {m : Nat} (fits : m ≤ s.fuzzed.length) :
    s.Framed ((List.range m).foldl renew s) ∧
      ((List.range m).foldl renew s).fuzzed = List.replicate m false ++ s.fuzzed.drop m ∧
      ((∀ was ∈ s.fuzzed.take m, was = false) → s.Favored → ((List.range m).foldl renew s).Favored) := by
  induction m with
  | zero => exact ⟨⟨rfl, rfl, rfl, rfl, rfl⟩, rfl, fun _ counted => counted⟩
  | succ m ih =>
    obtain ⟨framed, fuzzed, counted⟩ := ih (by omega)
    rw [List.range_succ, List.foldl_append]
    generalize (List.range m).foldl renew s = u at *
    obtain ⟨framed', fuzzed', counted'⟩ := u.renew_spec m
    have split : s.fuzzed.drop m = s.fuzzed[m] :: s.fuzzed.drop (m + 1) := List.drop_eq_getElem_cons (by omega)
    refine ⟨framed.trans framed', ?_, fun none before => ?_⟩
    · rw [List.foldl_cons, List.foldl_nil, fuzzed', fuzzed, split, List.set_append_right _ _ (by simp),
        List.length_replicate, Nat.sub_self, List.set_cons_zero, List.replicate_succ', List.append_assoc,
        List.singleton_append]
    · have here : s.fuzzed[m] = false := none _ (List.mem_take_iff_getElem.mpr ⟨m, by omega, rfl⟩)
      refine counted' ?_ (counted (fun was inside => none was ?_) before)
      · rw [fuzzed, split, List.getElem?_append_right (by simp)]
        simp [here]
      · exact List.take_subset_take_left _ (Nat.le_succ m) inside

theorem take_early (s : State) : s.fuzzed.take s.early = (s.queue.take s.amountOfTargets).map Item.wasFuzzed := by
  rw [fuzzed, ← List.map_take, early, ← List.take_eq_take_min]

/-- A cull counts the favored entries anew. It leaves the entries that are not fuzzed as many
as they were exactly if it finds none of the early ones fuzzed. -/
theorem cullQueue_spec (culls : s.Culls) :
    s.Framed s.cullQueue ∧ (s.cullQueue.notFuzzed = s.notFuzzed ↔ s.Calm) ∧ (s.Calm → s.cullQueue.Favored) := by
  obtain ⟨framed₁, fuzzed₁, counted₁⟩ := s.unfavor_spec
  obtain ⟨framed₂, fuzzed₂, counted₂⟩ :=
    favorWinners_spec s.topRated 0 (List.replicate s.topRated.length true) s.unfavor
  rw [cullQueue, if_pos culls]
  generalize favorWinners s.topRated 0 (List.replicate s.topRated.length true) s.unfavor = u at *
  have framed := framed₁.trans framed₂
  have fuzzed := fuzzed₂.trans fuzzed₁
  have early : u.early = s.early := by
    rw [State.early, State.early, framed.amountOfTargets, ← length_fuzzed, ← length_fuzzed, fuzzed]
  dsimp only
  cases done : s.firstCycleDone with
  | true =>
    rw [framed.firstCycleDone, done, if_pos rfl, notFuzzed_eq, notFuzzed_eq, fuzzed]
    simp [Calm, done, framed, counted₂ counted₁]
  | false =>
    have fits : s.early ≤ u.fuzzed.length := by
      rw [fuzzed, length_fuzzed]
      exact Nat.min_le_right _ _
    obtain ⟨framed₃, fuzzed₃, counted₃⟩ := renewAll_spec fits
    have calm : s.Calm ↔ ∀ was ∈ s.fuzzed.take s.early, was = false := by
      rw [take_early, List.forall_mem_map]
      simp [Calm, done]
    rw [framed.firstCycleDone, done, if_neg (by simp), early, calm]
    refine ⟨framed.trans framed₃, ?_, fun none => counted₃ (fuzzed ▸ none) (counted₂ counted₁)⟩
    rw [fuzzed] at fits fuzzed₃
    have whole : s.fuzzed.count false = (s.fuzzed.take s.early).count false + (s.fuzzed.drop s.early).count false := by
      rw [← List.count_append, List.take_append_drop]
    have length : (s.fuzzed.take s.early).length = s.early := List.length_take_of_le fits
    rw [notFuzzed_eq, notFuzzed_eq, fuzzed₃, List.count_append, List.count_replicate_self, whole,
      Nat.add_right_cancel_iff]
    constructor
    · intro same was inside
      exact (List.count_eq_length.mp (same.symm.trans length.symm) was inside).symm
    · intro none
      exact ((List.count_eq_length.mpr fun was inside => (none was inside).symm).trans length).symm

/-- Nothing the counters are about has changed. -/
structure Alike (s t : State) : Prop where
  pendingNotFuzzed : t.pendingNotFuzzed = s.pendingNotFuzzed
  pendingFavored : t.pendingFavored = s.pendingFavored
  queuedFavored : t.queuedFavored = s.queuedFavored
  wentBelow : t.wentBelow = s.wentBelow
  notFuzzed : t.notFuzzed = s.notFuzzed
  favored : t.favored = s.favored
  favoredNotFuzzed : t.favoredNotFuzzed = s.favoredNotFuzzed

theorem Alike.exact (alike : s.Alike t) (exact_ : s.Exact) : t.Exact where
  pendingNotFuzzed := by rw [alike.pendingNotFuzzed, alike.notFuzzed, exact_.pendingNotFuzzed]
  pendingFavored := by rw [alike.pendingFavored, alike.favoredNotFuzzed, exact_.pendingFavored]
  queuedFavored := by rw [alike.queuedFavored, alike.favored, exact_.queuedFavored]
  neverBelow := by rw [alike.wentBelow, exact_.neverBelow]

theorem Alike.begun (alike : s.Alike t) (begun : s.Begun) : t.Begun where
  pendingNotFuzzed := by rw [alike.pendingNotFuzzed, alike.notFuzzed, begun.pendingNotFuzzed]
  pendingFavored := by rw [alike.pendingFavored, alike.favored, begun.pendingFavored]
  queuedFavored := by rw [alike.queuedFavored, alike.favored, begun.queuedFavored]
  neverBelow := by rw [alike.wentBelow, begun.neverBelow]

theorem Alike.good (alike : s.Alike t) (phase : t.phase = s.phase) (good : s.Good) : t.Good := by
  unfold Good at good ⊢
  rw [phase]
  split at good
  · rw [if_pos ‹_›]
    exact alike.begun good
  · rw [if_neg ‹_›]
    exact alike.exact good

theorem alike_modify (s : State) (i : Nat) (keeps : ∀ q, (f q).wasFuzzed = q.wasFuzzed ∧ (f q).favored = q.favored) :
    s.Alike (s.modify i f) where
  pendingNotFuzzed := rfl
  pendingFavored := rfl
  queuedFavored := rfl
  wentBelow := rfl
  notFuzzed := countP_modify_same (fun q => by simp [keeps q]) s.queue
  favored := countP_modify_same (fun q => (keeps q).2) s.queue
  favoredNotFuzzed := countP_modify_same (fun q => by simp [keeps q]) s.queue

theorem addToQueue_counts (s : State) : s.addToQueue.notFuzzed = s.notFuzzed + 1 ∧
    s.addToQueue.favored = s.favored ∧ s.addToQueue.favoredNotFuzzed = s.favoredNotFuzzed := by
  simp [addToQueue, notFuzzed, favored, favoredNotFuzzed]

theorem addToQueue_good (good : s.Good) : s.addToQueue.Good := by
  obtain ⟨notFuzzed, favored, favoredNotFuzzed⟩ := s.addToQueue_counts
  unfold Good at good ⊢
  split at good
  · rw [if_pos ‹_›]
    exact ⟨by rw [notFuzzed]; simp [addToQueue, good.pendingNotFuzzed], by rw [favored]; exact good.pendingFavored,
      by rw [favored]; exact good.queuedFavored, good.neverBelow⟩
  · rw [if_neg ‹_›]
    exact ⟨by rw [notFuzzed]; simp [addToQueue, good.pendingNotFuzzed],
      by rw [favoredNotFuzzed]; exact good.pendingFavored, by rw [favored]; exact good.queuedFavored, good.neverBelow⟩

theorem addFavoredToQueue_begun (begun : s.Begun) : s.addFavoredToQueue.Begun := by
  have queue : s.addFavoredToQueue.queue = s.queue ++ [{ favored := true }] := by
    simp [addFavoredToQueue, addToQueue, modify, List.modify_eq_take_cons_drop]
  have notFuzzed : s.addFavoredToQueue.notFuzzed = s.notFuzzed + 1 := by simp [State.notFuzzed, queue]
  have favored : s.addFavoredToQueue.favored = s.favored + 1 := by simp [State.favored, queue]
  refine ⟨?_, ?_, ?_, begun.neverBelow⟩
  · rw [notFuzzed, Nat.cast_succ, ← begun.pendingNotFuzzed]
    rfl
  · rw [favored, Nat.cast_succ, ← begun.pendingFavored]
    rfl
  · rw [favored, Nat.cast_succ, ← begun.queuedFavored]
    rfl

theorem finish_counts (there : s.queue[i]? = some q) (unfuzzed : q.wasFuzzed = false) :
    (s.finish i).notFuzzed + 1 = s.notFuzzed ∧ (s.finish i).favored = s.favored ∧
      (s.finish i).favoredNotFuzzed + (if q.favored then 1 else 0) = s.favoredNotFuzzed := by
  refine ⟨?_, ?_, ?_⟩
  · have changed := countP_modify (p := fun q => !q.wasFuzzed) (f := fun q => { q with wasFuzzed := true }) there
    simpa [unfuzzed, finish, decrementNotFuzzed, modify, notFuzzed] using changed
  · exact countP_modify_same (f := fun q => { q with wasFuzzed := true }) (fun _ => rfl) s.queue
  · have changed := countP_modify (p := fun q => q.favored && !q.wasFuzzed) (f := fun q => { q with wasFuzzed := true })
      there
    simpa [unfuzzed, finish, decrementNotFuzzed, modify, favoredNotFuzzed] using changed

theorem disable_begun (begun : s.Begun) (there : s.queue[i]? = some q) (calFailed : Bool) :
    (s.disable i q calFailed).Begun := by
  have alike := s.alike_modify i (f := fun q => { q with disabled := true, calFailed := q.calFailed || calFailed })
    fun _ => ⟨rfl, rfl⟩
  have begun := alike.begun begun
  have there' : (s.modify i fun q => { q with disabled := true, calFailed := q.calFailed || calFailed }).queue[i]? =
      some { q with disabled := true, calFailed := q.calFailed || calFailed } := by
    simp [modify, there]
  rw [disable]
  generalize (s.modify i fun q => { q with disabled := true, calFailed := q.calFailed || calFailed }) = u at *
  split
  · exact begun
  · next unfuzzed =>
    obtain ⟨notFuzzed, favored, _⟩ := finish_counts there' (by simpa using unfuzzed)
    refine ⟨?_, ?_, ?_, ?_⟩
    · have before := begun.pendingNotFuzzed
      simp only [finish, decrementNotFuzzed, modify] at notFuzzed ⊢
      omega
    · rw [favored]
      exact begun.pendingFavored
    · rw [favored]
      exact begun.queuedFavored
    · have before := begun.pendingNotFuzzed
      have positive : 0 < u.pendingNotFuzzed := by omega
      simp [finish, decrementNotFuzzed, modify, begun.neverBelow, positive]

theorem abandonEntry_exact {stopSoon : Bool} (exact_ : s.Exact) (there : s.queue[i]? = some q) :
    (s.abandonEntry i q stopSoon).Exact := by
  have level : ∀ u : State, u.Exact →
      Exact { u.modify i fun q => { q with fuzzLevel := q.fuzzLevel + 1 } with phase := .looping } := by
    intro u exact_
    have alike := u.alike_modify i (f := fun q => { q with fuzzLevel := q.fuzzLevel + 1 }) fun _ => ⟨rfl, rfl⟩
    obtain ⟨notFuzzed, favoredNotFuzzed, favored, below⟩ := alike.exact exact_
    exact ⟨notFuzzed, favoredNotFuzzed, favored, below⟩
  rw [abandonEntry]
  apply level
  split
  · exact exact_
  · next counts =>
    simp only [Bool.or_eq_true, not_or, Bool.not_eq_true] at counts
    obtain ⟨notFuzzed, favored, favoredNotFuzzed⟩ := finish_counts there counts.1.2
    have pending := exact_.pendingNotFuzzed
    have pendingFavored := exact_.pendingFavored
    have positive : 0 < s.pendingNotFuzzed := by omega
    have queued : (s.finish i).queuedFavored = (s.finish i).favored := by
      rw [favored]
      exact exact_.queuedFavored
    have below : (s.finish i).wentBelow = false := by
      simp [finish, decrementNotFuzzed, modify, exact_.neverBelow, positive]
    have left : (s.finish i).pendingNotFuzzed = (s.finish i).notFuzzed := by
      have one : (s.finish i).pendingNotFuzzed = s.pendingNotFuzzed - 1 := rfl
      omega
    have same : (s.finish i).pendingFavored = s.pendingFavored := rfl
    dsimp only
    split
    · next favored =>
      rw [if_pos favored] at favoredNotFuzzed
      refine ⟨left, ?_, queued, ?_⟩
      · have one : (s.finish i).decrementFavored.pendingFavored = (s.finish i).pendingFavored - 1 := rfl
        have count : (s.finish i).decrementFavored.favoredNotFuzzed = (s.finish i).favoredNotFuzzed := rfl
        omega
      · have positive : 0 < (s.finish i).pendingFavored := by omega
        simp [decrementFavored, below, positive]
    · next unfavored =>
      rw [if_neg unfavored] at favoredNotFuzzed
      exact ⟨left, by omega, queued, below⟩

theorem culled_exact_iff (culls : s.Culls) (pending : s.pendingNotFuzzed = s.notFuzzed) (below : s.wentBelow = false) :
    s.cullQueue.Exact ↔ s.Calm := by
  obtain ⟨framed, notFuzzed, favored⟩ := cullQueue_spec culls
  constructor
  · intro exact_
    have after := exact_.pendingNotFuzzed
    rw [framed.pendingNotFuzzed, pending] at after
    exact notFuzzed.mp (by omega)
  · intro calm
    have favored := favored calm
    refine ⟨?_, favored.pending, favored.queued, framed.wentBelow.trans below⟩
    rw [framed.pendingNotFuzzed, pending, notFuzzed.mpr calm]

theorem cullQueue_exact_iff (exact_ : s.Exact) : s.cullQueue.Exact ↔ (s.Culls → s.Calm) := by
  by_cases culls : s.Culls
  · rw [culled_exact_iff culls exact_.pendingNotFuzzed exact_.neverBelow]
    exact ⟨fun calm _ => calm, fun calm => calm culls⟩
  · rw [cullQueue, if_neg culls]
    exact ⟨fun _ does => absurd does culls, fun _ => exact_⟩

theorem enterLoop_exact_iff (begun : s.Begun) : s.cullQueue.Exact ↔ s.Allowed .enterLoop := by
  simp only [Allowed]
  by_cases culls : s.Culls
  · rw [if_pos culls]
    exact culled_exact_iff culls begun.pendingNotFuzzed begun.neverBelow
  · rw [if_neg culls, cullQueue, if_neg culls]
    have counts : s.favoredNotFuzzed = s.favored ↔ ∀ q ∈ s.queue, q.favored = true → q.wasFuzzed = false := by
      simpa [favoredNotFuzzed, favored] using countP_and_eq_iff Item.favored (fun q => !q.wasFuzzed) s.queue
    rw [← counts]
    have pending := begun.pendingFavored
    constructor
    · intro exact_
      have same := exact_.pendingFavored
      omega
    · intro same
      exact ⟨begun.pendingNotFuzzed, by omega, begun.queuedFavored, begun.neverBelow⟩

theorem phase_cullQueue (s : State) : s.cullQueue.phase = s.phase := by
  by_cases culls : s.Culls
  · exact (cullQueue_spec culls).1.phase
  · rw [cullQueue, if_neg culls]

theorem good_iff_exact (phase : s.phase ≠ .starting) : s.Good ↔ s.Exact := by
  rw [Good, if_neg phase]

theorem good_iff_begun (phase : s.phase = .starting) : s.Good ↔ s.Begun := by
  rw [Good, if_pos phase]

theorem phase_disable (s : State) (i : Nat) (q : Item) (calFailed : Bool) :
    (s.disable i q calFailed).phase = s.phase := by
  rw [disable]
  split <;> rfl

theorem alike_rate (s : State) (i : Nat) (wins trace : List Bool) :
    s.Alike (s.rate i wins trace) ∧ (s.rate i wins trace).phase = s.phase := by
  rw [rate]
  split
  · exact ⟨⟨rfl, rfl, rfl, rfl, rfl, rfl, rfl⟩, rfl⟩
  · obtain ⟨a, b, c, d, e, f, g⟩ := s.alike_modify i (f := fun q => { q with traceMini := trace }) fun _ => ⟨rfl, rfl⟩
    exact ⟨⟨a, b, c, d, e, f, g⟩, rfl⟩

/-- A step from exact counters leaves them exact exactly if it is allowed. -/
theorem step_good_iff {event : Event} (good : s.Good) (ran : s.step event = some t) : t.Good ↔ s.Allowed event := by
  cases event with
  | addToQueue =>
    obtain rfl := Option.some.inj ran
    exact iff_of_true (addToQueue_good good) trivial
  | addFavoredToQueue =>
    simp only [step, Option.ite_none_right_eq_some, Option.some.injEq] at ran
    obtain ⟨phase, rfl⟩ := ran
    have begun := addFavoredToQueue_begun ((good_iff_begun phase).mp good)
    exact iff_of_true ((good_iff_begun (s := s.addFavoredToQueue) phase).mpr begun) trivial
  | disable i calFailed =>
    simp only [step, Option.ite_none_right_eq_some, Option.map_eq_some_iff] at ran
    obtain ⟨phase, q, there, rfl⟩ := ran
    have begun := disable_begun ((good_iff_begun phase).mp good) there calFailed
    exact iff_of_true ((good_iff_begun ((s.phase_disable i q calFailed).trans phase)).mpr begun) trivial
  | calibrate i calFailed =>
    obtain rfl := Option.some.inj ran
    have alike := s.alike_modify i (f := fun q => { q with calFailed := calFailed }) fun _ => ⟨rfl, rfl⟩
    exact iff_of_true (alike.good rfl good) trivial
  | rate i wins trace =>
    simp only [step, Option.ite_none_right_eq_some, Option.some.injEq] at ran
    obtain ⟨_, rfl⟩ := ran
    obtain ⟨alike, phase⟩ := s.alike_rate i wins trace
    exact iff_of_true (alike.good phase good) trivial
  | enterLoop =>
    simp only [step, Option.ite_none_right_eq_some, Option.some.injEq] at ran
    obtain ⟨⟨phase, _⟩, rfl⟩ := ran
    rw [good_iff_exact (by simp), ← enterLoop_exact_iff ((good_iff_begun phase).mp good)]
    exact ⟨fun ⟨a, b, c, d⟩ => ⟨a, b, c, d⟩, fun ⟨a, b, c, d⟩ => ⟨a, b, c, d⟩⟩
  | cullQueue =>
    simp only [step, Option.ite_none_right_eq_some, Option.some.injEq] at ran
    obtain ⟨phase, rfl⟩ := ran
    have exact_ := (good_iff_exact (by simp [phase])).mp good
    rw [good_iff_exact (by simp [phase_cullQueue, phase])]
    exact cullQueue_exact_iff exact_
  | closeFirstCycle =>
    simp only [step, Option.ite_none_right_eq_some, Option.some.injEq] at ran
    obtain ⟨_, rfl⟩ := ran
    have alike : s.Alike { s with firstCycleDone := true } := ⟨rfl, rfl, rfl, rfl, rfl, rfl, rfl⟩
    exact iff_of_true (alike.good rfl good) trivial
  | fuzzOne i =>
    simp only [step, Option.ite_none_right_eq_some, Option.some.injEq] at ran
    obtain ⟨⟨phase, _⟩, rfl⟩ := ran
    have exact_ := (good_iff_exact (by simp [phase])).mp good
    have alike : s.Alike { s with phase := .fuzzing i } := ⟨rfl, rfl, rfl, rfl, rfl, rfl, rfl⟩
    exact iff_of_true ((good_iff_exact (by simp)).mpr (alike.exact exact_)) trivial
  | skip customMutator =>
    cases phase : s.phase with
    | starting | looping => simp [step, phase] at ran
    | fuzzing i =>
      simp only [step, phase, Option.bind_eq_some_iff, Option.ite_none_right_eq_some, Option.some.injEq] at ran
      obtain ⟨q, _, _, rfl⟩ := ran
      have exact_ := (good_iff_exact (by simp [phase])).mp good
      have alike : s.Alike { s with phase := .looping } := ⟨rfl, rfl, rfl, rfl, rfl, rfl, rfl⟩
      exact iff_of_true ((good_iff_exact (by simp)).mpr (alike.exact exact_)) trivial
  | abandonEntry stopSoon =>
    cases phase : s.phase with
    | starting | looping => simp [step, phase] at ran
    | fuzzing i =>
      simp only [step, phase, Option.map_eq_some_iff] at ran
      obtain ⟨q, there, rfl⟩ := ran
      have exact_ := (good_iff_exact (by simp [phase])).mp good
      exact iff_of_true ((good_iff_exact (by simp [abandonEntry])).mpr (abandonEntry_exact exact_ there)) trivial

/-- Nothing leads back before the loop, least of all a cull. -/
theorem allowed_of_starting {event : Event} (ran : s.step event = some t) (phase : t.phase = .starting) :
    s.Allowed event := by
  cases event with
  | enterLoop =>
    simp only [step, Option.ite_none_right_eq_some, Option.some.injEq] at ran
    obtain ⟨_, rfl⟩ := ran
    cases phase
  | cullQueue =>
    simp only [step, Option.ite_none_right_eq_some, Option.some.injEq] at ran
    obtain ⟨looping, rfl⟩ := ran
    rw [phase_cullQueue, looping] at phase
    cases phase
  | _ => trivial

theorem start_good (amountOfTargets : Nat) (nonInstrumented : Bool) (mapSize : Nat) :
    (start amountOfTargets nonInstrumented mapSize).Good :=
  (good_iff_begun rfl).mpr ⟨rfl, rfl, rfl, rfl⟩

end State

end

/-- The counters are exact throughout the loop exactly if every cull is allowed. -/
theorem counters_exact_iff (amountOfTargets : Nat) (nonInstrumented : Bool) (mapSize : Nat) {events : List Event}
    {s : State} (ran : Runs.run State.step (State.start amountOfTargets nonInstrumented mapSize) events = some s) :
    (∀ early u, early <+: events →
      Runs.run State.step (State.start amountOfTargets nonInstrumented mapSize) early = some u →
      u.phase ≠ .starting → u.Exact) ↔
      Runs.Along State.step State.Allowed (State.start amountOfTargets nonInstrumented mapSize) events := by
  rw [Runs.along_iff (fun _ _ _ good ran => State.step_good_iff good ran)
    (State.start_good amountOfTargets nonInstrumented mapSize) ran]
  constructor
  · intro exact_ early
    -- from the good state before: a step that stays before the loop is allowed, and one in
    -- the loop has exact counters by assumption
    induction early using List.reverseRecOn with
    | nil =>
      rintro u - reached
      obtain rfl := Option.some.inj reached
      exact State.start_good amountOfTargets nonInstrumented mapSize
    | append_singleton early event ih =>
      intro u begins reached
      obtain ⟨before, first, last⟩ := Runs.run_snoc.mp reached
      have good := ih before ((List.prefix_append _ _).trans begins) first
      by_cases phase : u.phase = .starting
      · exact (State.step_good_iff good last).mpr (State.allowed_of_starting last phase)
      · exact (State.good_iff_exact phase).mpr (exact_ _ u begins reached phase)
  · intro good early u begins reached phase
    exact (State.good_iff_exact phase).mp (good early u begins reached)

/-- Two targets with good seeds, and a third test case that crashes in the dry run. The first
cull of the loop has nothing to do, the second comes after the first cycle. -/
theorem counters_exact_in_first_slot :
    let events := [.addFavoredToQueue, .addFavoredToQueue, .addToQueue, .disable 2 false,
      .rate 0 [true, false] [true, false],
      .rate 1 [false, true] [true, true], .enterLoop, .fuzzOne 0, .addToQueue, .abandonEntry false, .cullQueue,
      .closeFirstCycle, .rate 3 [true, true] [true, true], .cullQueue, .fuzzOne 3, .abandonEntry false]
    (∃ s, Runs.run State.step (State.start 2 false 2) events = some s ∧ s.pendingNotFuzzed = 1) ∧
      ∀ early u, early <+: events → Runs.run State.step (State.start 2 false 2) early = some u →
        u.phase ≠ .starting → u.Exact := by
  intro events
  have ends : (Runs.run State.step (State.start 2 false 2) events).isSome := by decide +kernel
  obtain ⟨s, ran⟩ := Option.isSome_iff_exists.mp ends
  have value : ∀ s ∈ Runs.run State.step (State.start 2 false 2) events, s.pendingNotFuzzed = 1 := by decide +kernel
  exact ⟨⟨s, ran, value s ran⟩, (counters_exact_iff 2 false 2 ran).mpr (by decide +kernel)⟩

/-- One target, one seed: the cull after the first find resets the seed, and two completions
later `pending_not_fuzzed` is below zero. -/
theorem seed_counted_twice :
    let events := [.addFavoredToQueue, .rate 0 [true, false] [true, false], .enterLoop, .fuzzOne 0, .addToQueue,
      .rate 1 [false, true] [true, true], .abandonEntry false, .cullQueue, .fuzzOne 0]
    (∃ s ∈ Runs.run State.step (State.start 1 false 2) events,
      s.phase = .fuzzing 0 ∧ s.pendingNotFuzzed = 1 ∧ s.notFuzzed = 2 ∧ s.pendingFavored = 1 ∧ s.favoredNotFuzzed = 2) ∧
      ∃ s ∈ Runs.run State.step (State.start 1 false 2)
          (events ++ [.abandonEntry false, .fuzzOne 1, .abandonEntry false]),
        s.pendingNotFuzzed = -1 ∧ s.notFuzzed = 0 ∧ s.pendingFavored = -1 ∧ s.wentBelow = true := by
  decide +kernel

end AflLive.Fuzz.Pending
