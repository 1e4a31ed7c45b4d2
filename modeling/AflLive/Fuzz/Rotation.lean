import AflLive.Library.Cyclic
import AflLive.Library.Runs

/-! The first cycle: `select_next_queue_entry` gives each active target a slot of a minute
before the common selection takes over. -/
namespace AflLive.Fuzz
open Cyclic

def isActive (targetActive : List Bool) (target : Nat) : Bool := targetActive.getD target false

/-- The active targets in index order. -/
def activeTargets (targetActive : List Bool) : List Nat :=
  (List.range targetActive.length).filter (isActive targetActive)

/-- `cycleTarget`; the fuel bounds the search in the model, which without an active target
does not end. -/
def cycleTarget (targetActive : List Bool) : Nat → Nat → Option Nat
  | 0, _ => none
  | fuel + 1, nextTarget =>
    let nextTarget := (nextTarget + 1) % targetActive.length
    if isActive targetActive nextTarget then some nextTarget else cycleTarget targetActive fuel nextTarget

/-- The statics of the selection, `firstCycleDone`, and for the statements the target of
every slot so far. -/
structure Rotation where
  nextTarget : Nat := 0
  lastTargetSwitch : Option Int := none
  firstCycleDone : Bool := false
  slots : List Nat
deriving DecidableEq

/-- The end of `perform_dry_run`, which alone has set `targetActive`. -/
def dryRunTarget (targetActive : List Bool) : Option Rotation :=
  if isActive targetActive 0 then some { slots := [0] }
  else (cycleTarget targetActive targetActive.length 0).map fun target => { nextTarget := target, slots := [target] }

/-- What a call reads: the clock (up to three times), the random slot of the alias table
with whether the draw is below its probability, the tables, and the targets of the queue. -/
structure Call where
  initialized : Int
  now : Int
  switched : Int
  s : Nat
  below : Bool
  multiAliasTable : List (List Nat)
  aliasTable : List Nat
  targetFunctionIdx : List Nat
deriving DecidableEq

/-- The loop over the queue for the `res`-th entry of a target. -/
def entryOfTarget (target : Nat) : List Nat → Nat → Option Nat
  | [], _ => none
  | index :: rest, res =>
    if index = target then
      if res = 0 then some 0 else (entryOfTarget target rest (res - 1)).map (· + 1)
    else (entryOfTarget target rest res).map (· + 1)

namespace Rotation

/-- The first half of `select_next_queue_entry_from_next_target`: a slot that lasted more
than a minute ends. -/
def passTime (targetActive : List Bool) (call : Call) (r : Rotation) : Option Rotation :=
  let last := r.lastTargetSwitch.getD call.initialized
  if call.now - last > 60 then do
    let next ← cycleTarget targetActive targetActive.length r.nextTarget
    return { nextTarget := next
             lastTargetSwitch := some call.switched
             firstCycleDone := r.firstCycleDone || decide (r.nextTarget > next)
             slots := r.slots ++ [next] }
  else some { r with lastTargetSwitch := some last }

def selectFromNextTarget (targetActive : List Bool) (call : Call) (r : Rotation) : Option (Nat × Rotation) := do
  let r ← r.passTime targetActive call
  let res := if call.below then call.s else (call.multiAliasTable.getD r.nextTarget []).getD call.s 0
  return ((entryOfTarget r.nextTarget call.targetFunctionIdx res).getD res, r)

def selectFromAllTargets (call : Call) (r : Rotation) : Nat × Rotation :=
  (if call.below then call.s else call.aliasTable.getD call.s 0, r)

def selectNextQueueEntry (targetActive : List Bool) (call : Call) (r : Rotation) : Option (Nat × Rotation) :=
  if !r.firstCycleDone then r.selectFromNextTarget targetActive call else some (r.selectFromAllTargets call)

def step (targetActive : List Bool) (r : Rotation) (call : Call) : Option Rotation :=
  (r.selectNextQueueEntry targetActive call).map Prod.snd

/-- A run of the selection after the dry run. -/
def after (targetActive : List Bool) (calls : List Call) : Option Rotation :=
  (dryRunTarget targetActive).bind (Runs.run (step targetActive) · calls)

end Rotation

section
variable {targetActive : List Bool} {r r' : Rotation} {call : Call}

theorem mem_activeTargets {target : Nat} :
    target ∈ activeTargets targetActive ↔ isActive targetActive target = true := by
  simp only [activeTargets, List.mem_filter, List.mem_range, and_iff_right_iff_imp]
  intro active
  by_contra beyond
  simp [isActive, List.getD, List.getElem?_eq_none (Nat.le_of_not_lt beyond)] at active

theorem lt_of_isActive {target : Nat} (active : isActive targetActive target = true) :
    target < targetActive.length := by
  have listed := mem_activeTargets.mpr active
  exact List.mem_range.mp (List.mem_filter.mp listed).1

theorem cycleTarget_eq {fuel target d : Nat} (positive : 0 < d) (enough : d ≤ fuel)
    (active : isActive targetActive ((target + d) % targetActive.length) = true)
    (none : ∀ e, 0 < e → e < d → isActive targetActive ((target + e) % targetActive.length) = false) :
    cycleTarget targetActive fuel target = some ((target + d) % targetActive.length) := by
  induction fuel generalizing target d with
  | zero => omega
  | succ fuel ih =>
    by_cases one : d = 1
    · subst one
      simp [cycleTarget, active]
    · have inactive := none 1 (by omega) (by omega)
      simp only [cycleTarget, inactive, Bool.false_eq_true, if_false]
      have shift : ∀ e, ((target + 1) % targetActive.length + e) % targetActive.length =
          (target + (e + 1)) % targetActive.length := by
        intro e
        rw [Nat.mod_add_mod, Nat.add_right_comm, Nat.add_assoc]
      rw [show target + d = target + ((d - 1) + 1) by omega, ← shift (d - 1)] at active ⊢
      refine ih (by omega) (by omega) active fun e low high => ?_
      rw [shift]
      exact none (e + 1) (by omega) (by omega)

theorem cycleTarget_active {fuel nextTarget target : Nat}
    (found : cycleTarget targetActive fuel nextTarget = some target) :
    isActive targetActive target = true := by
  induction fuel generalizing nextTarget with
  | zero => cases found
  | succ fuel ih =>
    unfold cycleTarget at found
    dsimp only at found
    split at found
    · cases found
      assumption
    · exact ih found

/-- `cycleTarget` finds the next active target in cyclic order. -/
theorem cycleTarget_follows {target : Nat} (inside : target < targetActive.length)
    (some_active : activeTargets targetActive ≠ []) :
    ∃ next, cycleTarget targetActive targetActive.length target = some next ∧
      Follows (isActive targetActive) targetActive.length target next := by
  obtain ⟨m, listed⟩ := List.exists_mem_of_ne_nil _ some_active
  have active := mem_activeTargets.mp listed
  obtain ⟨next, follows⟩ := exists_follows inside (lt_of_isActive active) active
  refine ⟨next, ?_, follows⟩
  obtain ⟨d, positive, bounded, rfl, marked, none⟩ := follows
  exact cycleTarget_eq positive bounded marked none

namespace Rotation

/-- A call leaves the slot running, or ends it for the next target in cyclic order. -/
theorem step_cases (some_active : activeTargets targetActive ≠ []) (inside : r.nextTarget < targetActive.length)
    (call : Call) :
    (∃ last, r.step targetActive call = some { r with lastTargetSwitch := last }) ∨
      r.firstCycleDone = false ∧ ∃ next,
        Follows (isActive targetActive) targetActive.length r.nextTarget next ∧
        r.step targetActive call = some { nextTarget := next
                                          lastTargetSwitch := some call.switched
                                          firstCycleDone := decide (r.nextTarget > next)
                                          slots := r.slots ++ [next] } := by
  by_cases running : r.firstCycleDone = true
  · have same : r.step targetActive call = some r := by
      simp [step, selectNextQueueEntry, selectFromAllTargets, running]
    exact .inl ⟨r.lastTargetSwitch, same⟩
  · rw [Bool.not_eq_true] at running
    by_cases ended : call.now - r.lastTargetSwitch.getD call.initialized > 60
    · obtain ⟨next, found, follows⟩ := cycleTarget_follows inside some_active
      refine .inr ⟨running, next, follows, ?_⟩
      simp [step, selectNextQueueEntry, selectFromNextTarget, passTime, running, ended, found]
    · refine .inl ⟨some (r.lastTargetSwitch.getD call.initialized), ?_⟩
      simp [step, selectNextQueueEntry, selectFromNextTarget, passTime, running, ended]

/-- The slots lead from one active target to the next, the last one to the current target. -/
structure Cycling (targetActive : List Bool) (r : Rotation) : Prop where
  last : r.slots.getLast? = some r.nextTarget
  active : ∀ target ∈ r.slots, isActive targetActive target = true
  order : r.slots.IsChain (Follows (isActive targetActive) targetActive.length)

theorem Cycling.inside (cycling : r.Cycling targetActive) : r.nextTarget < targetActive.length :=
  lt_of_isActive (cycling.active _ (List.mem_of_getLast? cycling.last))

theorem Cycling.next {next : Nat} {last : Option Int} {done : Bool} (cycling : r.Cycling targetActive)
    (follows : Follows (isActive targetActive) targetActive.length r.nextTarget next) :
    Cycling targetActive { nextTarget := next
                           lastTargetSwitch := last
                           firstCycleDone := done
                           slots := r.slots ++ [next] } := by
  refine ⟨by simp, ?_, ?_⟩
  · intro target inside
    rcases List.mem_append.mp inside with old | new
    · exact cycling.active target old
    · rw [List.mem_singleton.mp new]
      exact follows.marked
  · rw [List.isChain_append]
    refine ⟨cycling.order, by simp, ?_⟩
    rintro t is u first
    rw [cycling.last] at is
    obtain rfl := Option.some.inj is
    obtain rfl := Option.some.inj first
    exact follows

theorem Cycling.step (some_active : activeTargets targetActive ≠ []) (cycling : r.Cycling targetActive) (call : Call) :
    ∃ r', r.step targetActive call = some r' ∧ r'.Cycling targetActive ∧ r.slots <+: r'.slots := by
  rcases step_cases some_active cycling.inside call with ⟨last, same⟩ | ⟨-, next, follows, moved⟩
  · exact ⟨_, same, ⟨cycling.last, cycling.active, cycling.order⟩, List.prefix_refl _⟩
  · exact ⟨_, moved, cycling.next follows, List.prefix_append _ _⟩

/-- With two targets or more: the slots are the active targets up to the current one, and
after the last of them comes the first again. -/
structure Turning (targetActive : List Bool) (r : Rotation) : Prop extends Cycling targetActive r where
  running : r.firstCycleDone = false →
    r.slots = (List.range (r.nextTarget + 1)).filter (isActive targetActive)
  closed : r.firstCycleDone = true → ∃ first, r.slots = activeTargets targetActive ++ [first]

theorem Turning.step (several : 2 ≤ (activeTargets targetActive).length) (turning : r.Turning targetActive)
    (ran : r.step targetActive call = some r') : r'.Turning targetActive := by
  have some_active : activeTargets targetActive ≠ [] := by
    intro none
    simp [none] at several
  rcases step_cases some_active turning.inside call with ⟨last, same⟩ | ⟨running, next, follows, moved⟩
  · obtain rfl := Option.some.inj (same.symm.trans ran)
    exact ⟨⟨turning.last, turning.active, turning.order⟩, turning.running, turning.closed⟩
  · obtain rfl := Option.some.inj (moved.symm.trans ran)
    have slots := turning.running running
    refine ⟨turning.toCycling.next follows, ?_, ?_⟩
    · intro onward
      have ahead : r.nextTarget ≤ next := by simpa using onward
      rcases follows.cases turning.inside with ⟨above, _, none⟩ | ⟨below, behind, before⟩
      · dsimp only
        rw [slots, filter_range_succ follows.marked above fun v low high => none v low high]
      · -- then it is the only active target
        obtain rfl : next = r.nextTarget := by omega
        have all : activeTargets targetActive = (List.range (r.nextTarget + 1)).filter (isActive targetActive) :=
          filter_range_of_unmarked turning.inside fun v low high => behind v low high
        rw [all, filter_range_succ follows.marked (Nat.zero_le _) fun v _ high => before v high] at several
        simp at several
    · intro back
      have below : next < r.nextTarget := by simpa using back
      rcases follows.cases turning.inside with ⟨above, _⟩ | ⟨_, behind, _⟩
      · omega
      · refine ⟨next, ?_⟩
        dsimp only
        rw [slots, activeTargets, filter_range_of_unmarked turning.inside fun v low high => behind v low high]

/-- The dry run leaves the first active target. -/
theorem dryRunTarget_eq (some_active : activeTargets targetActive ≠ []) :
    ∃ target, dryRunTarget targetActive = some { nextTarget := target, slots := [target] } ∧
      isActive targetActive target = true ∧ ∀ v, v < target → isActive targetActive v = false := by
  by_cases zero : isActive targetActive 0 = true
  · exact ⟨0, by simp [dryRunTarget, zero], zero, by simp⟩
  · rw [Bool.not_eq_true] at zero
    obtain ⟨m, listed⟩ := List.exists_mem_of_ne_nil _ some_active
    have inside : 0 < targetActive.length := (Nat.zero_le m).trans_lt (lt_of_isActive (mem_activeTargets.mp listed))
    obtain ⟨target, found, follows⟩ := cycleTarget_follows inside some_active
    refine ⟨target, by simp [dryRunTarget, zero, found], follows.marked, ?_⟩
    intro v below
    rcases follows.cases inside with ⟨_, _, none⟩ | ⟨_, _, none⟩
    · rcases Nat.eq_zero_or_pos v with rfl | positive
      · exact zero
      · exact none v positive below
    · exact none v below

theorem start_turning (some_active : activeTargets targetActive ≠ []) :
    ∃ target, dryRunTarget targetActive = some ⟨target, none, false, [target]⟩ ∧
      Turning targetActive ⟨target, none, false, [target]⟩ := by
  obtain ⟨target, is, active, none⟩ := dryRunTarget_eq some_active
  refine ⟨target, is, ⟨rfl, by simpa using active, by simp⟩, ?_, nofun⟩
  intro _
  rw [filter_range_succ active (Nat.zero_le _) fun v _ high => none v high]
  rfl

/-- What the first cycle promises after any number of calls. -/
structure Rotated (targetActive : List Bool) (r : Rotation) : Prop where
  active : ∀ target ∈ r.slots, isActive targetActive target = true
  order : r.slots.IsChain (Follows (isActive targetActive) targetActive.length)
  once : ∀ target, isActive targetActive target = true →
    (r.slots.take (activeTargets targetActive).length).count target ≤ 1 ∧
      (r.firstCycleDone = true → (r.slots.take (activeTargets targetActive).length).count target = 1)
  closes : r.firstCycleDone = true ↔ (activeTargets targetActive).length ≤ r.slots.length - 1

theorem nodup_activeTargets : (activeTargets targetActive).Nodup := List.nodup_range.filter _

theorem Turning.rotated (some_active : activeTargets targetActive ≠ []) (turning : r.Turning targetActive) :
    r.Rotated targetActive := by
  have positive := List.length_pos_iff.mpr some_active
  refine ⟨turning.active, turning.order, ?_, ?_⟩
  · intro target active
    by_cases done : r.firstCycleDone = true
    · obtain ⟨first, slots⟩ := turning.closed done
      have one : (activeTargets targetActive).count target = 1 :=
        List.count_eq_one_of_mem nodup_activeTargets (mem_activeTargets.mpr active)
      simp [slots, one]
    · rw [Bool.not_eq_true] at done
      refine ⟨?_, fun closed => by simp [done] at closed⟩
      rw [turning.running done]
      exact List.nodup_iff_count_le_one.mp ((List.nodup_range.filter _).sublist (List.take_sublist _ _)) target
  · constructor
    · intro done
      obtain ⟨first, slots⟩ := turning.closed done
      simp [slots]
    · intro many
      by_contra running
      rw [Bool.not_eq_true] at running
      have few : r.slots.length ≤ (activeTargets targetActive).length := by
        rw [turning.running running]
        exact ((List.range_sublist.mpr turning.inside).filter _).length_le
      omega

/-- The clock never shows more than a minute after the first call. -/
def Quiet (calls : List Call) : Prop := ∀ first ∈ calls.head?, ∀ call ∈ calls, call.now - first.initialized ≤ 60

section
variable {target : Nat} {last : Int} {slots : List Nat} {calls : List Call}

theorem step_short (short : call.now - last ≤ 60) :
    step targetActive ⟨target, some last, false, slots⟩ call = some ⟨target, some last, false, slots⟩ := by
  simp [step, selectNextQueueEntry, selectFromNextTarget, passTime, not_lt.mpr short]

/-- A slot that does not end. -/
theorem run_quiet (quiet : ∀ call ∈ calls, call.now - last ≤ 60) :
    Runs.run (step targetActive) ⟨target, some last, false, slots⟩ calls = some ⟨target, some last, false, slots⟩ := by
  induction calls with
  | nil => rfl
  | cons call calls ih =>
    exact Runs.run_cons.mpr ⟨_, step_short (quiet call (by simp)), ih fun call inside => quiet call (by simp [inside])⟩

theorem run_cycling (some_active : activeTargets targetActive ≠ []) (cycling : r.Cycling targetActive)
    (calls : List Call) :
    ∃ r', Runs.run (step targetActive) r calls = some r' ∧ r'.Cycling targetActive ∧ r.slots <+: r'.slots := by
  induction calls generalizing r with
  | nil => exact ⟨r, rfl, cycling, List.prefix_refl _⟩
  | cons call calls ih =>
    obtain ⟨middle, first, cycling, grows⟩ := cycling.step some_active call
    obtain ⟨r', rest, cycling, grows'⟩ := ih cycling
    exact ⟨r', Runs.run_cons.mpr ⟨middle, first, rest⟩, cycling, grows.trans grows'⟩

/-- A slot that is over is followed by another. -/
theorem run_switches (some_active : activeTargets targetActive ≠ [])
    (cycling : Cycling targetActive ⟨target, some last, false, slots⟩)
    (ends : ∃ call ∈ calls, call.now - last > 60)
    (ran : Runs.run (step targetActive) ⟨target, some last, false, slots⟩ calls = some r) :
    slots.length < r.slots.length := by
  induction calls with
  | nil => simp at ends
  | cons call calls ih =>
    obtain ⟨middle, first, rest⟩ := Runs.run_cons.mp ran
    by_cases ended : call.now - last > 60
    · obtain ⟨next, found, follows⟩ := cycleTarget_follows cycling.inside some_active
      have moved : step targetActive ⟨target, some last, false, slots⟩ call =
          some ⟨next, some call.switched, decide (target > next), slots ++ [next]⟩ := by
        simp only at found
        simp [step, selectNextQueueEntry, selectFromNextTarget, passTime, ended, found]
      obtain rfl := Option.some.inj (moved.symm.trans first)
      obtain ⟨r', again, _, grows⟩ := run_cycling some_active (cycling.next follows) calls
      obtain rfl := Option.some.inj (again.symm.trans rest)
      have longer := grows.length_le
      simp at longer
      omega
    · rw [step_short (not_lt.mp ended)] at first
      obtain rfl := Option.some.inj first
      obtain ⟨late, inside, passed⟩ := ends
      refine ih ⟨late, ?_, passed⟩ rest
      rcases List.mem_cons.mp inside with rfl | later
      · exact absurd passed ended
      · exact later

/-- The first call starts the clock. -/
theorem run_first : Runs.run (step targetActive) ⟨target, none, false, slots⟩ (call :: calls) =
    Runs.run (step targetActive) ⟨target, some call.initialized, false, slots⟩ (call :: calls) := rfl

end

/-- With a single target nothing ever closes the cycle. -/
theorem only_step {only : Nat} (single : activeTargets targetActive = [only]) (cycling : r.Cycling targetActive)
    (running : r.firstCycleDone = false) (ran : r.step targetActive call = some r') :
    r'.Cycling targetActive ∧ r'.firstCycleDone = false := by
  have is_only : ∀ target, isActive targetActive target = true → target = only := by
    intro target active
    simpa [single] using mem_activeTargets.mpr active
  have some_active : activeTargets targetActive ≠ [] := by simp [single]
  rcases step_cases some_active cycling.inside call with ⟨last, same⟩ | ⟨-, next, follows, moved⟩
  · obtain rfl := Option.some.inj (same.symm.trans ran)
    exact ⟨⟨cycling.last, cycling.active, cycling.order⟩, running⟩
  · obtain rfl := Option.some.inj (moved.symm.trans ran)
    have here := is_only _ (cycling.active _ (List.mem_of_getLast? cycling.last))
    refine ⟨cycling.next follows, ?_⟩
    simp [here, is_only next follows.marked]

end Rotation

/-- Of several targets each gets its slot, whatever the clock shows; of a single one only
the first slot is as promised, since the index that comes next is not smaller. -/
theorem first_cycle_iff (some_active : activeTargets targetActive ≠ []) (calls : List Call) :
    (∀ early, early <+: calls →
      ∃ r, Rotation.after targetActive early = some r ∧ r.Rotated targetActive) ↔
      2 ≤ (activeTargets targetActive).length ∨ Rotation.Quiet calls := by
  obtain ⟨target, start, turning⟩ := Rotation.start_turning some_active
  simp only [Rotation.after, start, Option.bind_some]
  constructor
  · intro promised
    by_contra neither
    push Not at neither
    obtain ⟨few, loud⟩ := neither
    obtain ⟨only, single⟩ : ∃ only, activeTargets targetActive = [only] := by
      rw [← List.length_eq_one_iff]
      have positive := List.length_pos_iff.mpr some_active
      omega
    simp only [Rotation.Quiet, not_forall] at loud
    obtain ⟨first, head, call, inside, late⟩ := loud
    obtain ⟨r, ran, rotated⟩ := promised calls (List.prefix_refl _)
    have running : r.Cycling targetActive ∧ r.firstCycleDone = false :=
      Runs.run_invariant (fun r => r.Cycling targetActive ∧ r.firstCycleDone = false)
        (fun _ _ _ inv ran => Rotation.only_step single inv.1 inv.2 ran) ⟨turning.toCycling, rfl⟩ ran
    cases calls with
    | nil => simp at head
    | cons _ calls =>
      obtain rfl := Option.some.inj head
      rw [Rotation.run_first] at ran
      have switched := Rotation.run_switches some_active ⟨turning.last, turning.active, turning.order⟩
        ⟨call, inside, not_le.mp late⟩ ran
      have closed := rotated.closes.mpr (by rw [single]; exact Nat.le_sub_of_add_le switched)
      simp [running.2] at closed
  · rintro (several | quiet) early begins
    · obtain ⟨r, ran, _⟩ := Rotation.run_cycling some_active turning.toCycling early
      have turned : r.Turning targetActive :=
        Runs.run_invariant (Rotation.Turning targetActive)
          (fun _ _ _ turning ran => turning.step several ran) turning ran
      exact ⟨r, ran, turned.rotated some_active⟩
    · cases early with
      | nil => exact ⟨_, rfl, turning.rotated some_active⟩
      | cons first early =>
        obtain ⟨rest, rfl⟩ := begins
        refine ⟨⟨target, some first.initialized, false, [target]⟩, ?_, ?_⟩
        · rw [Rotation.run_first]
          exact Rotation.run_quiet fun call inside => quiet first rfl call (List.mem_append_left rest inside)
        · have turned : Rotation.Turning targetActive ⟨target, some first.initialized, false, [target]⟩ :=
            ⟨⟨turning.last, turning.active, turning.order⟩, turning.running, turning.closed⟩
          exact turned.rotated some_active

/-- A call that reads one time only, for a queue with an entry for each of five targets. -/
def tick (now : Int) : Call where
  initialized := now
  now := now
  switched := now
  s := 0
  below := true
  multiAliasTable := []
  aliasTable := []
  targetFunctionIdx := [0, 1, 2, 3, 4]

theorem first_cycle_of_three :
    let calls := [tick 5, tick 66, tick 100, tick 127, tick 300, tick 400]
    Rotation.after [false, true, false, true, true] calls = some ⟨1, some 300, true, [1, 3, 4, 1]⟩ ∧
      ∀ early, early <+: calls → ∃ r, Rotation.after [false, true, false, true, true] early = some r ∧
        r.Rotated [false, true, false, true, true] :=
  ⟨by decide, (first_cycle_iff (by decide) _).mpr (.inl (by decide))⟩

/-- A single target: the first switch leads from index 0 to index 0. -/
theorem single_target_never_closes :
    Rotation.after [true] [tick 0, tick 61] = some ⟨0, some 61, false, [0, 0]⟩ ∧
      ¬Rotation.Rotated [true] ⟨0, some 61, false, [0, 0]⟩ := by
  refine ⟨by decide, fun rotated => ?_⟩
  exact absurd (rotated.closes.mpr (by decide)) (by decide)

theorem entryOfTarget_spec {target : Nat} {queue : List Nat} {res : Nat} (enough : res < queue.count target) :
    ∃ i, entryOfTarget target queue res = some i ∧ queue[i]? = some target := by
  induction queue generalizing res with
  | nil => simp at enough
  | cons index queue ih =>
    by_cases same : index = target
    · subst same
      rcases Nat.eq_zero_or_pos res with rfl | positive
      · exact ⟨0, by simp [entryOfTarget], by simp⟩
      · rw [List.count_cons_self] at enough
        obtain ⟨i, found, is⟩ := @ih (res - 1) (by omega)
        exact ⟨i + 1, by simp [entryOfTarget, Nat.ne_of_gt positive, found], by simpa using is⟩
    · rw [List.count_cons_of_ne same] at enough
      obtain ⟨i, found, is⟩ := ih enough
      exact ⟨i + 1, by simp [entryOfTarget, same, found], by simpa using is⟩

/-- During the first cycle the entry that is selected is one of the current target. -/
theorem selected_of_current {res : Nat} (ran : r.selectFromNextTarget targetActive call = some (res, r'))
    (drawn : call.s < call.targetFunctionIdx.count r'.nextTarget)
    (tables : ∀ entry ∈ call.multiAliasTable.getD r'.nextTarget [],
      entry < call.targetFunctionIdx.count r'.nextTarget) :
    call.targetFunctionIdx[res]? = some r'.nextTarget := by
  simp only [Rotation.selectFromNextTarget, Option.bind_eq_bind, Option.bind_eq_some_iff, Option.pure_def,
    Option.some.injEq, Prod.mk.injEq] at ran
  obtain ⟨middle, _, rfl, rfl⟩ := ran
  have small : (if call.below then call.s else (call.multiAliasTable.getD middle.nextTarget []).getD call.s 0) <
      call.targetFunctionIdx.count middle.nextTarget := by
    split
    · exact drawn
    · rw [List.getD]
      cases found : (call.multiAliasTable.getD middle.nextTarget [])[call.s]? with
      | none => exact (Nat.zero_le _).trans_lt drawn
      | some entry => exact tables entry (List.mem_of_getElem? found)
  obtain ⟨i, found, is⟩ := entryOfTarget_spec small
  rw [found]
  exact is

end

end AflLive.Fuzz
