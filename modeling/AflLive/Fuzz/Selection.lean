import AflLive.Fuzz.Rotation
import AflLive.Library.Alias

/-! The weighted choice of a queue entry during the first cycle. `create_multi_alias_table`
numbers the entries of each target in queue order and builds an alias table over these
numbers; the selection draws a number and finds its entry again. Doubles are rationals. -/
namespace AflLive.Fuzz
open Alias

/-- The power schedules in the order of their enumeration. -/
inductive Schedule where
  | explore
  | mmopt
  | exploit
  | fast
  | coe
  | lin
  | quad
  | rare
  | seek
deriving DecidableEq, Repr

/-- The fields of a queue entry that the tables are built from. -/
structure RatedEntry where
  targetFunctionIdx : Nat
  disabled : Bool := false
  weight : ℚ := 0
  perfScore : ℚ := 0
deriving DecidableEq, Repr

/-- From `RARE` on the performance score is used in place of the weight. -/
def Schedule.rating : Schedule → RatedEntry → ℚ
  | .rare, q | .seek, q => q.perfScore
  | _, q => q.weight

/-- The queue with the counters that `add_to_queue` keeps beside it. -/
structure TargetQueue where
  entries : List RatedEntry
  entriesForTarget : Nat → Nat
  counted : ∀ target, entriesForTarget target = entries.countP (·.targetFunctionIdx = target)

namespace TargetQueue

def empty : TargetQueue := ⟨[], fun _ => 0, fun _ => rfl⟩

def addToQueue (queue : TargetQueue) (funIdx : Nat) : TargetQueue where
  entries := queue.entries ++ [{ targetFunctionIdx := funIdx }]
  entriesForTarget := fun target => queue.entriesForTarget target + if target = funIdx then 1 else 0
  counted := by
    intro target
    by_cases same : target = funIdx
    · simp [queue.counted, same]
    · simp [queue.counted, same, Ne.symm same]

/-- The `sum` of `create_multi_alias_table`: the enabled entries of the target. -/
def sumFor (queue : TargetQueue) (schedule : Schedule) (target : Nat) : ℚ :=
  queue.entries.foldl (fun sum q =>
    if !q.disabled && decide (target = q.targetFunctionIdx) then sum + schedule.rating q else sum) 0

/-- The array `P`, over all entries of the target. -/
def sharesFor (queue : TargetQueue) (schedule : Schedule) (target : Nat) : List ℚ :=
  (queue.entries.filter fun q => target = q.targetFunctionIdx).map fun q =>
    schedule.rating q * queue.entriesForTarget target / queue.sumFor schedule target

def aliasFor (queue : TargetQueue) (schedule : Schedule) (target : Nat) : State ℚ :=
  table (fun j => (queue.sharesFor schedule target).getD j 0) (queue.entriesForTarget target)

end TargetQueue

/-- `multi_alias_table` and `multi_alias_probability`. -/
structure MultiAlias where
  table : List (List Nat)
  probability : List (List ℚ)
deriving DecidableEq, Repr

def createMultiAliasTable (queue : TargetQueue) (schedule : Schedule) (maxTargets : Nat) : MultiAlias where
  table := (List.range maxTargets).map fun target =>
    (List.range (queue.entriesForTarget target)).map (queue.aliasFor schedule target).partner
  probability := (List.range maxTargets).map fun target =>
    (List.range (queue.entriesForTarget target)).map (queue.aliasFor schedule target).prob

/-- A call that draws the index `s` and the fraction `p` when the slot of a target is on. -/
noncomputable def Call.drawing (call : Call) (queue : TargetQueue) (tables : MultiAlias) (target s : Nat) (p : ℝ) :
    Call :=
  open Classical in
  { call with
    s := s
    below := decide (p < (((tables.probability.getD target []).getD s 0 : ℚ) : ℝ))
    multiAliasTable := tables.table
    targetFunctionIdx := queue.entries.map (·.targetFunctionIdx) }

section
variable {queue : TargetQueue} {schedule : Schedule} {target : Nat}

theorem sum_range_getD (l : List ℚ) : ∑ j ∈ Finset.range l.length, l.getD j 0 = l.sum := by
  induction l with
  | nil => rfl
  | cons x l ih =>
    rw [List.length_cons, Finset.sum_range_succ', List.sum_cons, ← ih, add_comm]
    rfl

theorem sharesFor_length : (queue.sharesFor schedule target).length = queue.entriesForTarget target := by
  rw [TargetQueue.sharesFor, List.length_map, queue.counted, List.countP_eq_length_filter]
  simp only [eq_comm]

/-- Disabled entries have no part in the sum; nor do they add to it when they are rated 0. -/
theorem sumFor_eq (unrated : ∀ q ∈ queue.entries, q.disabled = true → schedule.rating q = 0) :
    queue.sumFor schedule target =
      ((queue.entries.filter fun q => target = q.targetFunctionIdx).map schedule.rating).sum := by
  have loop : ∀ (entries : List RatedEntry) (sum : ℚ), (∀ q ∈ entries, q.disabled = true → schedule.rating q = 0) →
      entries.foldl (fun sum q =>
        if !q.disabled && decide (target = q.targetFunctionIdx) then sum + schedule.rating q else sum) sum =
      sum + ((entries.filter fun q => target = q.targetFunctionIdx).map schedule.rating).sum := by
    intro entries
    induction entries with
    | nil => simp
    | cons q entries ih =>
      intro sum unrated
      rw [List.foldl_cons, ih _ fun q member => unrated q (List.mem_cons_of_mem _ member)]
      by_cases member : target = q.targetFunctionIdx
      · cases off : q.disabled with
        | true => simp [member, unrated q (List.mem_cons_self ..) off]
        | false => simp [member, add_assoc]
      · simp [member]
  exact (loop queue.entries 0 unrated).trans (zero_add _)

theorem sharesFor_sum (unrated : ∀ q ∈ queue.entries, q.disabled = true → schedule.rating q = 0)
    (positive : 0 < queue.sumFor schedule target) :
    (queue.sharesFor schedule target).sum = queue.entriesForTarget target := by
  have scaled : (queue.sharesFor schedule target).sum = queue.entriesForTarget target / queue.sumFor schedule target *
      ((queue.entries.filter fun q => target = q.targetFunctionIdx).map schedule.rating).sum := by
    rw [TargetQueue.sharesFor, ← List.sum_map_mul_left]
    congr 1
    refine List.map_congr_left fun q _ => ?_
    ring
  rw [scaled, ← sumFor_eq unrated, div_mul_cancel₀ _ positive.ne']

/-- The position of an entry among those of its target is found again. -/
theorem entryOfTarget_eq_some {idxs : List Nat} {res i : Nat} :
    entryOfTarget target idxs res = some i ↔ idxs[i]? = some target ∧ (idxs.take i).count target = res := by
  induction idxs generalizing res i with
  | nil => simp [entryOfTarget]
  | cons index idxs ih =>
    rw [entryOfTarget]
    cases i with
    | zero =>
      by_cases same : index = target
      · rcases Nat.eq_zero_or_pos res with rfl | positive
        · simp [same]
        · simp [same, positive.ne', Nat.ne_of_lt positive]
      · simp [same]
    | succ i =>
      by_cases same : index = target
      · subst same
        rcases Nat.eq_zero_or_pos res with rfl | positive
        · simp
        · rw [if_pos rfl, if_neg positive.ne', List.getElem?_cons_succ, List.take_succ_cons, List.count_cons_self]
          have shifted : ∀ k, k + 1 = res ↔ k = res - 1 := by omega
          simp [ih, shifted]
      · rw [if_neg same, List.getElem?_cons_succ, List.take_succ_cons, List.count_cons_of_ne same]
        simp [ih]

theorem sharesFor_getD {i : Nat} {q : RatedEntry} (found : queue.entries[i]? = some q)
    (same : q.targetFunctionIdx = target) :
    (queue.sharesFor schedule target).getD (((queue.entries.map (·.targetFunctionIdx)).take i).count target) 0 =
      schedule.rating q * queue.entriesForTarget target / queue.sumFor schedule target := by
  have kept : (queue.entries.filter fun q => target = q.targetFunctionIdx)[
      ((queue.entries.map (·.targetFunctionIdx)).take i).count target]? = some q := by
    generalize queue.entries = entries at found
    induction entries generalizing i with
    | nil => simp at found
    | cons first entries ih =>
      cases i with
      | zero =>
        obtain rfl : first = q := by simpa using found
        simp [same]
      | succ i =>
        have rest := ih found
        by_cases here : first.targetFunctionIdx = target
        · simp [here, rest]
        · simp [here, Ne.symm here, rest]
  rw [List.getD, TargetQueue.sharesFor, List.getElem?_map, kept]
  rfl

theorem createMultiAliasTable_table {maxTargets : Nat} (known : target < maxTargets) :
    (createMultiAliasTable queue schedule maxTargets).table.getD target [] =
      (List.range (queue.entriesForTarget target)).map (queue.aliasFor schedule target).partner := by
  simp [createMultiAliasTable, List.getD, known]

theorem createMultiAliasTable_probability {maxTargets s : Nat} (known : target < maxTargets)
    (below : s < queue.entriesForTarget target) :
    ((createMultiAliasTable queue schedule maxTargets).probability.getD target []).getD s 0 =
      (queue.aliasFor schedule target).prob s := by
  simp [createMultiAliasTable, List.getD, known, below]

theorem count_map_target : (queue.entries.map (·.targetFunctionIdx)).count target = queue.entriesForTarget target := by
  rw [queue.counted, List.count, List.countP_map]
  rfl

/-- The tables of a target give each of its entries its part of the sum. -/
theorem aliasFor_shares (nonneg : ∀ q ∈ queue.entries, q.targetFunctionIdx = target → 0 ≤ schedule.rating q)
    (unrated : ∀ q ∈ queue.entries, q.disabled = true → schedule.rating q = 0)
    (positive : 0 < queue.sumFor schedule target) :
    (∀ s < queue.entriesForTarget target,
      (queue.aliasFor schedule target).partner s < queue.entriesForTarget target) ∧
    (∀ s < queue.entriesForTarget target,
      0 ≤ (queue.aliasFor schedule target).prob s ∧ (queue.aliasFor schedule target).prob s ≤ 1) ∧
    ∀ j < queue.entriesForTarget target, (queue.aliasFor schedule target).prob j +
      ∑ s ∈ Finset.range (queue.entriesForTarget target),
        (if (queue.aliasFor schedule target).partner s = j then 1 - (queue.aliasFor schedule target).prob s else 0) =
      (queue.sharesFor schedule target).getD j 0 := by
  refine table_shares ?_ ?_
  · intro s below
    rw [← @sharesFor_length queue schedule target] at below
    rw [List.getD, List.getElem?_eq_getElem below, Option.getD_some]
    obtain ⟨q, member, is⟩ := List.mem_map.mp (List.getElem_mem below)
    obtain ⟨inQueue, same⟩ := List.mem_filter.mp member
    rw [← is]
    have rated := nonneg q inQueue (of_decide_eq_true same).symm
    positivity
  · have total := sum_range_getD (queue.sharesFor schedule target)
    rwa [sharesFor_length, sharesFor_sum unrated positive] at total

theorem rank_lt {i : Nat} {q : RatedEntry} (found : queue.entries[i]? = some q) (same : q.targetFunctionIdx = target) :
    ((queue.entries.map (·.targetFunctionIdx)).take i).count target < queue.entriesForTarget target := by
  have here : (queue.entries.map (·.targetFunctionIdx))[i]? = some target := by simp [found, same]
  obtain ⟨inside, is⟩ := List.getElem?_eq_some_iff.mp here
  have upTo := List.Sublist.count_le target (List.take_sublist (i + 1) (queue.entries.map (·.targetFunctionIdx)))
  rw [count_map_target, List.take_succ_eq_append_getElem inside, is, List.count_append,
    List.count_singleton_self] at upTo
  omega

/-- A draw during the slot of a target leads to an entry of that target. -/
theorem selectFromNextTarget_drawing {targetActive : List Bool} {maxTargets : Nat} {call : Call} {r r' : Rotation}
    (passed : r.passTime targetActive call = some r') (known : r'.nextTarget < maxTargets) {s i : Nat} {p : ℝ}
    (below : s < queue.entriesForTarget r'.nextTarget)
    (partnerLt : ∀ s < queue.entriesForTarget r'.nextTarget,
      (queue.aliasFor schedule r'.nextTarget).partner s < queue.entriesForTarget r'.nextTarget) :
    (∃ after, r.selectFromNextTarget targetActive (call.drawing queue
      (createMultiAliasTable queue schedule maxTargets) r'.nextTarget s p) = some (i, after)) ↔
    entryOfTarget r'.nextTarget (queue.entries.map (·.targetFunctionIdx))
      (pick (fun s => ((queue.aliasFor schedule r'.nextTarget).prob s : ℝ))
        (queue.aliasFor schedule r'.nextTarget).partner s p) = some i := by
  have drawn : pick (fun s => ((queue.aliasFor schedule r'.nextTarget).prob s : ℝ))
      (queue.aliasFor schedule r'.nextTarget).partner s p < queue.entriesForTarget r'.nextTarget := by
    unfold pick
    split
    · exact below
    · exact partnerLt s below
  obtain ⟨j, entry, _⟩ := entryOfTarget_spec (drawn.trans_eq count_map_target.symm)
  let drawing := call.drawing queue (createMultiAliasTable queue schedule maxTargets) r'.nextTarget s p
  have selected : r.selectFromNextTarget targetActive drawing = some (j, r') := by
    have clock : r.passTime targetActive drawing = some r' := passed
    have res : (if drawing.below then drawing.s else (drawing.multiAliasTable.getD r'.nextTarget []).getD drawing.s 0) =
        pick (fun s => ((queue.aliasFor schedule r'.nextTarget).prob s : ℝ))
          (queue.aliasFor schedule r'.nextTarget).partner s p := by
      simp only [drawing, Call.drawing, createMultiAliasTable_probability known below, decide_eq_true_eq,
        createMultiAliasTable_table known, pick]
      simp [List.getD, below]
    have listed : drawing.targetFunctionIdx = queue.entries.map (·.targetFunctionIdx) := rfl
    simp only [Rotation.selectFromNextTarget, clock, Option.bind_eq_bind, Option.bind_some, res, listed, entry,
      Option.getD_some, Option.pure_def]
  rw [selected, entry]
  simp

/-- During the slot of a target each of its entries is selected with its part of the sum of
the target's ratings, and nothing else is. -/
theorem selectFromNextTarget_exact {targetActive : List Bool} {maxTargets : Nat} {call : Call} {r r' : Rotation}
    (passed : r.passTime targetActive call = some r') (known : r'.nextTarget < maxTargets)
    (nonneg : ∀ q ∈ queue.entries, q.targetFunctionIdx = r'.nextTarget → 0 ≤ schedule.rating q)
    (unrated : ∀ q ∈ queue.entries, q.disabled = true → schedule.rating q = 0)
    (positive : 0 < queue.sumFor schedule r'.nextTarget) :
    (∀ entry ∈ (createMultiAliasTable queue schedule maxTargets).table.getD r'.nextTarget [],
      entry < queue.entriesForTarget r'.nextTarget) ∧
    ∀ i, draw (queue.entriesForTarget r'.nextTarget) {x | ∃ after, r.selectFromNextTarget targetActive
        (call.drawing queue (createMultiAliasTable queue schedule maxTargets) r'.nextTarget x.1 x.2) =
          some (i, after)} =
      match queue.entries[i]? with
      | some q => if q.targetFunctionIdx = r'.nextTarget then
          ENNReal.ofReal ((schedule.rating q / queue.sumFor schedule r'.nextTarget : ℚ) : ℝ) else 0
      | none => 0 := by
  obtain ⟨partnerLt, unit, shares⟩ := aliasFor_shares nonneg unrated positive
  refine ⟨?_, fun i => ?_⟩
  · intro entry member
    rw [createMultiAliasTable_table known] at member
    obtain ⟨s, below, rfl⟩ := List.mem_map.mp member
    exact partnerLt s (List.mem_range.mp below)
  · have chosen : ∀ x : Fin (queue.entriesForTarget r'.nextTarget) × ℝ,
        (∃ after, r.selectFromNextTarget targetActive (call.drawing queue
          (createMultiAliasTable queue schedule maxTargets) r'.nextTarget x.1 x.2) = some (i, after)) ↔
        (queue.entries.map (·.targetFunctionIdx))[i]? = some r'.nextTarget ∧
          pick (fun s => ((queue.aliasFor schedule r'.nextTarget).prob s : ℝ))
            (queue.aliasFor schedule r'.nextTarget).partner x.1 x.2 =
          ((queue.entries.map (·.targetFunctionIdx)).take i).count r'.nextTarget := by
      intro x
      rw [selectFromNextTarget_drawing passed known x.1.isLt partnerLt, entryOfTarget_eq_some,
        eq_comm (a := List.count _ _)]
    simp only [chosen]
    cases found : queue.entries[i]? with
    | none => simp [found]
    | some q =>
      by_cases same : q.targetFunctionIdx = r'.nextTarget
      · have rank := rank_lt found same
        simp only [List.getElem?_map, found, Option.map_some, same, true_and, if_true]
        rw [draw_pick (fun s below => by exact_mod_cast unit s below) rank]
        congr 1
        have share := shares _ rank
        rw [sharesFor_getD found same] at share
        have real := congrArg (fun x : ℚ => (x : ℝ)) share
        have some : (queue.entriesForTarget r'.nextTarget : ℝ) ≠ 0 := by
          exact_mod_cast (Nat.zero_lt_of_lt rank).ne'
        push_cast [apply_ite (Rat.cast : ℚ → ℝ)] at real ⊢
        rw [real, div_right_comm, mul_div_cancel_right₀ _ some]
      · simp [found, same]

/-- Two targets; the first has entries rated 1 and 3 and a disabled one. -/
def ratedQueue : TargetQueue where
  entries := [⟨0, false, 1, 0⟩, ⟨1, false, 5, 0⟩, ⟨0, true, 0, 0⟩, ⟨0, false, 3, 0⟩]
  entriesForTarget := fun target =>
    [⟨0, false, 1, 0⟩, ⟨1, false, 5, 0⟩, ⟨0, true, 0, 0⟩, (⟨0, false, 3, 0⟩ : RatedEntry)].countP
      (·.targetFunctionIdx = target)
  counted := fun _ => rfl

theorem ratedQueue_last :
    ratedQueue.sumFor .explore 0 = 4 ∧
    draw 3 {x | ∃ after, ({ slots := [0] } : Rotation).selectFromNextTarget [true, true]
        ((tick 0).drawing ratedQueue (createMultiAliasTable ratedQueue .explore 2) 0 x.1 x.2) = some (3, after)} =
      ENNReal.ofReal (((3 : ℚ) / 4 : ℚ) : ℝ) := by
  have sum : ratedQueue.sumFor .explore 0 = 4 := by decide +kernel
  have passed : ({ slots := [0] } : Rotation).passTime [true, true] (tick 0) =
      some { slots := [0], lastTargetSwitch := some 0 } := by decide
  refine ⟨sum, ?_⟩
  have exactly := (@selectFromNextTarget_exact ratedQueue .explore [true, true] 2 (tick 0) { slots := [0] } _ passed
    (by decide) (by decide +kernel) (by decide +kernel) (by rw [sum]; norm_num)).2 3
  refine exactly.trans ?_
  show ENNReal.ofReal (((3 : ℚ) / ratedQueue.sumFor .explore 0 : ℚ) : ℝ) = _
  rw [sum]

end
end AflLive.Fuzz
