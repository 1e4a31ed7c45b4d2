import Mathlib

/-! The alias method for drawing from a weighted set with one uniform index and
one uniform fraction. Masses are scaled so that their mean is 1. Each round
pairs an index with less than its share and one with at least its share; the
first is then settled and the second gives up what the first was short of. -/
namespace AflLive.Alias
open Finset Function

/-- The work arrays. Stacks are lists with their top first. -/
structure State (K : Type) where
  mass : Nat → K
  small : List Nat
  large : List Nat
  prob : Nat → K
  partner : Nat → Nat

variable {K : Type} [Field K] [LinearOrder K] {n : Nat} {share : Nat → K} {st st' : State K}

namespace State

def push (st : State K) (s : Nat) : State K :=
  if st.mass s < 1 then { st with small := s :: st.small } else { st with large := s :: st.large }

/-- The indices below a bound go onto the stacks, the highest first. -/
def fill : Nat → State K → State K
  | 0, st => st
  | s + 1, st => fill s (st.push s)

/-- One round of the main loop. -/
def pair (st : State K) : Option (State K) :=
  match st.small, st.large with
  | a :: small, g :: large =>
    some (push { mass := update st.mass g (st.mass g + st.mass a - 1)
                 small, large
                 prob := update st.prob a (st.mass a)
                 partner := update st.partner a g } g)
  | _, _ => none

/-- The main loop for at most so many rounds. -/
def balance : Nat → State K → State K
  | 0, st => st
  | rounds + 1, st =>
    match st.pair with
    | some next => balance rounds next
    | none => st

/-- What is left on a stack keeps all of its share. -/
def finish (st : State K) : State K :=
  { st with prob := (st.large ++ st.small).foldl (fun prob s => update prob s 1) st.prob }

/-- The indices that are not settled yet. -/
def waiting (st : State K) : Finset Nat := (st.small ++ st.large).toFinset

/-- What the settled indices have taken from an index. -/
def taken (st : State K) (n i : Nat) : K :=
  ∑ s ∈ range n, if s ∉ st.waiting ∧ st.partner s = i then 1 - st.prob s else 0

end State

/-- The whole construction; each round settles an index, so `n` rounds suffice. -/
def table (share : Nat → K) (n : Nat) : State K :=
  (State.balance n (State.fill n ⟨share, [], [], fun _ => 0, fun _ => 0⟩)).finish

namespace State

@[simp] theorem push_mass (st : State K) (s : Nat) : (st.push s).mass = st.mass := by
  unfold push
  split <;> rfl

@[simp] theorem push_prob (st : State K) (s : Nat) : (st.push s).prob = st.prob := by
  unfold push
  split <;> rfl

@[simp] theorem push_partner (st : State K) (s : Nat) : (st.push s).partner = st.partner := by
  unfold push
  split <;> rfl

theorem mem_small_push {s t : Nat} : t ∈ (st.push s).small ↔ t ∈ st.small ∨ t = s ∧ st.mass s < 1 := by
  unfold push
  split <;> rename_i less <;> simp [less, or_comm]

theorem mem_large_push {s t : Nat} : t ∈ (st.push s).large ↔ t ∈ st.large ∨ t = s ∧ 1 ≤ st.mass s := by
  unfold push
  split <;> rename_i less
  · simp [less.not_ge]
  · simp [not_lt.mp less, or_comm]

theorem push_perm (st : State K) (s : Nat) :
    ((st.push s).small ++ (st.push s).large).Perm (s :: (st.small ++ st.large)) := by
  unfold push
  split
  · exact .refl _
  · exact List.perm_middle

/-- Pushing puts each index on the stack its mass belongs to. -/
theorem fill_spec (n : Nat) (st : State K) :
    (fill n st).mass = st.mass ∧ (fill n st).prob = st.prob ∧ (fill n st).partner = st.partner ∧
      ((fill n st).small ++ (fill n st).large).Perm (List.range n ++ (st.small ++ st.large)) ∧
      (∀ t, t ∈ (fill n st).small ↔ t ∈ st.small ∨ t < n ∧ st.mass t < 1) ∧
      ∀ t, t ∈ (fill n st).large ↔ t ∈ st.large ∨ t < n ∧ 1 ≤ st.mass t := by
  induction n generalizing st with
  | zero => simp [fill]
  | succ s ih =>
    obtain ⟨mass, prob, partner, perm, small, large⟩ := ih (st.push s)
    rw [push_mass] at mass small large
    rw [push_prob] at prob
    rw [push_partner] at partner
    have next : ∀ (t : Nat) (old : Prop) (belongs : Nat → Prop),
        (old ∨ t = s ∧ belongs s) ∨ t < s ∧ belongs t ↔ old ∨ t < s + 1 ∧ belongs t := by
      intro t old belongs
      rw [Nat.lt_succ_iff_lt_or_eq]
      constructor
      · rintro ((old | ⟨rfl, here⟩) | ⟨lt, here⟩)
        · exact .inl old
        · exact .inr ⟨.inr rfl, here⟩
        · exact .inr ⟨.inl lt, here⟩
      · rintro (old | ⟨lt | rfl, here⟩)
        · exact .inl (.inl old)
        · exact .inr ⟨lt, here⟩
        · exact .inl (.inr ⟨rfl, here⟩)
    refine ⟨mass, prob, partner, ?_, ?_, ?_⟩
    · refine perm.trans (((push_perm st s).append_left _).trans ?_)
      rw [List.range_succ, List.append_assoc]
      exact .refl _
    · intro t
      rw [fill, small, mem_small_push]
      exact next t _ (st.mass · < 1)
    · intro t
      rw [fill, large, mem_large_push]
      exact next t _ (1 ≤ st.mass ·)

end State

/-- What holds between the rounds: every index keeps its share, either still on
a stack or split between its own slot and the slots that lead to it. -/
structure Balanced (share : Nat → K) (n : Nat) (st : State K) : Prop where
  nodup : (st.small ++ st.large).Nodup
  below : ∀ s ∈ st.waiting, s < n
  partner_lt : ∀ s < n, st.partner s < n
  less : ∀ s ∈ st.small, 0 ≤ st.mass s ∧ st.mass s < 1
  more : ∀ s ∈ st.large, 1 ≤ st.mass s
  settled : ∀ s < n, s ∉ st.waiting → 0 ≤ st.prob s ∧ st.prob s ≤ 1
  total : ∑ s ∈ st.waiting, st.mass s = st.waiting.card
  conserved : ∀ i < n, (if i ∈ st.waiting then st.mass i else st.prob i) + st.taken n i = share i

theorem fill_balanced (nonneg : ∀ s < n, 0 ≤ share s) (total : ∑ s ∈ range n, share s = n) :
    Balanced share n (State.fill n ⟨share, [], [], fun _ => 0, fun _ => 0⟩) := by
  obtain ⟨mass, prob, partner, perm, small, large⟩ :=
    State.fill_spec n (⟨share, [], [], fun _ => 0, fun _ => 0⟩ : State K)
  generalize State.fill n (⟨share, [], [], fun _ => 0, fun _ => 0⟩ : State K) = st at *
  simp only [List.append_nil, List.not_mem_nil, false_or] at perm small large
  have waiting : st.waiting = range n := by
    rw [State.waiting, List.toFinset_eq_of_perm _ _ perm]
    ext s
    simp
  refine ⟨perm.nodup_iff.mpr List.nodup_range, ?_, ?_, ?_, ?_, ?_, ?_, ?_⟩
  · intro s member
    rwa [waiting, mem_range] at member
  · intro s lt
    rw [partner]
    exact Nat.zero_lt_of_lt lt
  · intro s member
    obtain ⟨lt, less⟩ := (small s).mp member
    rw [mass]
    exact ⟨nonneg s lt, less⟩
  · intro s member
    rw [mass]
    exact ((large s).mp member).2
  · intro s lt outside
    rw [waiting, mem_range] at outside
    exact absurd lt outside
  · rw [waiting, mass, card_range]
    exact total
  · intro i lt
    have nothing : st.taken n i = 0 := by
      refine sum_eq_zero fun s member => if_neg fun both => ?_
      rw [waiting] at both
      exact both.1 member
    rw [waiting, if_pos (mem_range.mpr lt), mass, nothing, add_zero]

/-- What a round does: the top of one stack is settled with the top of the
other as its partner, which goes back onto the stack of its new mass. -/
theorem State.pair_eq_some (paired : st.pair = some st') : ∃ a g small large,
    st.small = a :: small ∧ st.large = g :: large ∧
      st' = State.push ⟨update st.mass g (st.mass g + st.mass a - 1), small, large,
        update st.prob a (st.mass a), update st.partner a g⟩ g := by
  unfold State.pair at paired
  split at paired
  · rename_i a small g large smallIs largeIs
    exact ⟨a, g, small, large, smallIs, largeIs, (Option.some.inj paired).symm⟩
  · cases paired

theorem State.pair_eq_none (ended : st.pair = none) : st.small = [] ∨ st.large = [] := by
  unfold State.pair at ended
  split at ended
  · cases ended
  · rename_i other
    cases small : st.small with
    | nil => exact .inl rfl
    | cons a rest =>
      cases large : st.large with
      | nil => exact .inr rfl
      | cons g rest' => exact absurd large (other a rest g rest' small)

theorem State.pair_length (paired : st.pair = some st') :
    (st'.small ++ st'.large).length + 1 = (st.small ++ st.large).length := by
  obtain ⟨a, g, small, large, smallIs, largeIs, rfl⟩ := State.pair_eq_some paired
  rw [(State.push_perm _ _).length_eq, smallIs, largeIs]
  simp
  omega

/-- A round, as far as the indices are concerned: one of the first stack is
settled, with one of the second as its partner. -/
structure Round (st : State K) (a g : Nat) (st' : State K) : Prop where
  mass : st'.mass = update st.mass g (st.mass g + st.mass a - 1)
  prob : st'.prob = update st.prob a (st.mass a)
  partner : st'.partner = update st.partner a g
  from_small : a ∈ st.small
  from_large : g ∈ st.large
  waiting : st.waiting = insert a st'.waiting
  settles : a ∉ st'.waiting
  back : g ∈ st'.waiting
  nodup : (st'.small ++ st'.large).Nodup
  small : ∀ s ∈ st'.small, s ∈ st.small ∧ s ≠ g ∨ s = g ∧ st'.mass g < 1
  large : ∀ s ∈ st'.large, s ∈ st.large ∧ s ≠ g ∨ s = g ∧ 1 ≤ st'.mass g

theorem State.pair_round (nodup : (st.small ++ st.large).Nodup) (paired : st.pair = some st') :
    ∃ a g, Round st a g st' := by
  obtain ⟨a, g, small, large, smallIs, largeIs, same⟩ := State.pair_eq_some paired
  have mass := congrArg State.mass same
  have prob := congrArg State.prob same
  have partner := congrArg State.partner same
  rw [State.push_mass] at mass
  rw [State.push_prob] at prob
  rw [State.push_partner] at partner
  have perm : (st.small ++ st.large).Perm (a :: (st'.small ++ st'.large)) := by
    rw [smallIs, largeIs, same, List.cons_append]
    refine (List.perm_middle.trans (List.Perm.symm ?_)).cons a
    exact State.push_perm _ g
  have fresh := perm.nodup_iff.mp nodup
  rw [smallIs, largeIs] at nodup
  have apart := List.disjoint_of_nodup_append nodup
  have waiting : st.waiting = insert a st'.waiting := by
    rw [State.waiting, List.toFinset_eq_of_perm _ _ perm, List.toFinset_cons]
    rfl
  refine ⟨a, g, mass, prob, partner, by simp [smallIs], by simp [largeIs], waiting, ?_, ?_,
    (List.nodup_cons.mp fresh).2, ?_, ?_⟩
  · rw [State.waiting, List.mem_toFinset]
    exact (List.nodup_cons.mp fresh).1
  · rw [State.waiting, List.mem_toFinset, same, (State.push_perm _ g).mem_iff]
    exact List.mem_cons_self ..
  · intro s member
    rw [same, State.mem_small_push] at member
    rcases member with old | ⟨rfl, less⟩
    · refine .inl ⟨by simp [smallIs, old], ?_⟩
      rintro rfl
      exact apart (List.mem_cons_of_mem _ old) (List.mem_cons_self ..)
    · exact .inr ⟨rfl, by rwa [mass]⟩
  · intro s member
    rw [same, State.mem_large_push] at member
    rcases member with old | ⟨rfl, more⟩
    · refine .inl ⟨by simp [largeIs, old], ?_⟩
      rintro rfl
      exact (List.nodup_cons.mp nodup.of_append_right).1 old
    · exact .inr ⟨rfl, by rwa [mass]⟩

/-- The partner is charged with what the settled index was short of. -/
theorem Round.taken (round : Round st a g st') (below : a < n) (i : Nat) :
    st'.taken n i = st.taken n i + if i = g then 1 - st.mass a else 0 := by
  have each : ∀ s ∈ range n, (if s ∉ st'.waiting ∧ st'.partner s = i then 1 - st'.prob s else 0) =
      (if s ∉ st.waiting ∧ st.partner s = i then 1 - st.prob s else 0) +
        if s = a then (if i = g then 1 - st.mass a else 0) else 0 := by
    intro s _
    rw [round.waiting, round.partner, round.prob]
    by_cases same : s = a
    · subst same
      simp [round.settles, eq_comm]
    · simp [same]
  rw [State.taken, sum_congr rfl each, sum_add_distrib, sum_ite_eq', if_pos (mem_range.mpr below)]
  rfl

theorem Round.total (round : Round st a g st') :
    ∑ s ∈ st'.waiting, st'.mass s + 1 = ∑ s ∈ st.waiting, st.mass s := by
  rw [round.waiting, sum_insert round.settles, round.mass, sum_update_of_mem round.back,
    ← add_sum_erase _ _ round.back, sdiff_singleton_eq_erase]
  ring

/-- Every round settles an index, so the loop ends. -/
theorem State.balance_ends {rounds : Nat} (enough : (st.small ++ st.large).length ≤ rounds) :
    (State.balance rounds st).pair = none := by
  induction rounds generalizing st with
  | zero =>
    obtain ⟨small, _⟩ := List.append_eq_nil_iff.mp (List.eq_nil_of_length_eq_zero (Nat.le_zero.mp enough))
    simp only [State.balance, State.pair, small]
  | succ rounds ih =>
    rw [State.balance]
    split
    · rename_i next paired
      have shorter := State.pair_length paired
      exact ih (by omega)
    · assumption

omit [LinearOrder K] in
theorem State.finish_prob (st : State K) (s : Nat) :
    st.finish.prob s = if s ∈ st.waiting then 1 else st.prob s := by
  have settle : ∀ (stack : List Nat) (prob : Nat → K), stack.foldl (fun prob s => update prob s 1) prob s =
      if s ∈ stack then 1 else prob s := by
    intro stack
    induction stack with
    | nil => simp
    | cons t stack ih =>
      intro prob
      rw [List.foldl_cons, ih, update_apply]
      by_cases later : s ∈ stack <;> by_cases now : s = t <;> simp [later, now]
  refine (settle _ st.prob).trans ?_
  simp [State.waiting, or_comm]

section
variable [IsStrictOrderedRing K]

theorem Balanced.pair (held : Balanced share n st) (paired : st.pair = some st') : Balanced share n st' := by
  obtain ⟨a, g, round⟩ := State.pair_round held.nodup paired
  have aWaits : a ∈ st.waiting := by rw [round.waiting]; exact mem_insert_self _ _
  have gWaits : g ∈ st.waiting := by rw [round.waiting]; exact mem_insert_of_mem round.back
  have aLess := held.less a round.from_small
  have gMore := held.more g round.from_large
  have massG : st'.mass g = st.mass g + st.mass a - 1 := by rw [round.mass, update_self]
  have massOther : ∀ s, s ≠ g → st'.mass s = st.mass s := fun s other => by rw [round.mass, update_of_ne other]
  refine ⟨round.nodup, ?_, ?_, ?_, ?_, ?_, ?_, ?_⟩
  · intro s member
    exact held.below s (by rw [round.waiting]; exact mem_insert_of_mem member)
  · intro s lt
    rw [round.partner, update_apply]
    split
    · exact held.below g gWaits
    · exact held.partner_lt s lt
  · intro s member
    rcases round.small s member with ⟨old, other⟩ | ⟨rfl, less⟩
    · rw [massOther s other]
      exact held.less s old
    · refine ⟨?_, less⟩
      rw [massG]
      linarith
  · intro s member
    rcases round.large s member with ⟨old, other⟩ | ⟨rfl, more⟩
    · rw [massOther s other]
      exact held.more s old
    · exact more
  · intro s lt outside
    by_cases same : s = a
    · rw [round.prob, same, update_self]
      exact ⟨aLess.1, aLess.2.le⟩
    · rw [round.prob, update_of_ne same]
      exact held.settled s lt (by rw [round.waiting]; simp [same, outside])
  · have before := held.total
    rw [← round.total, round.waiting, card_insert_of_notMem round.settles] at before
    push_cast at before
    linarith
  · intro i lt
    have before := held.conserved i lt
    rw [round.taken (held.below a aWaits)]
    by_cases isG : i = g
    · rw [isG] at before ⊢
      rw [if_pos gWaits] at before
      rw [if_pos round.back, if_pos rfl, massG]
      linarith
    · rw [if_neg isG, add_zero]
      by_cases isA : i = a
      · rw [isA] at before ⊢
        rw [if_pos aWaits] at before
        rw [if_neg round.settles, round.prob, update_self]
        exact before
      · have sameSide : i ∈ st'.waiting ↔ i ∈ st.waiting := by rw [round.waiting, mem_insert]; simp [isA]
        simp only [sameSide, massOther i isG, round.prob, update_of_ne isA]
        exact before

theorem Balanced.balance (held : Balanced share n st) (rounds : Nat) :
    Balanced share n (State.balance rounds st) := by
  induction rounds generalizing st with
  | zero => exact held
  | succ rounds ih =>
    rw [State.balance]
    split
    · rename_i next paired
      exact ih (held.pair paired)
    · exact held

/-- After the loop whatever is left has exactly its share. -/
theorem Balanced.left (held : Balanced share n st) (ended : st.pair = none) : ∀ s ∈ st.waiting, st.mass s = 1 := by
  have total : ∑ s ∈ st.waiting, st.mass s = ∑ s ∈ st.waiting, 1 := by
    rw [held.total, sum_const, nsmul_eq_mul, mul_one]
  rcases State.pair_eq_none ended with none | none
  · have large : ∀ s ∈ st.waiting, 1 ≤ st.mass s := by
      intro s member
      rw [State.waiting, none, List.nil_append, List.mem_toFinset] at member
      exact held.more s member
    exact fun s member => ((sum_eq_sum_iff_of_le large).mp total.symm s member).symm
  · have small : ∀ s ∈ st.waiting, st.mass s ≤ 1 := by
      intro s member
      rw [State.waiting, none, List.append_nil, List.mem_toFinset] at member
      exact (held.less s member).2.le
    exact (sum_eq_sum_iff_of_le small).mp total

/-- Drawing an index below `n` and taking it with its probability, or its
partner otherwise, gives each index its share. -/
theorem table_shares (nonneg : ∀ s < n, 0 ≤ share s) (total : ∑ s ∈ range n, share s = n) :
    (∀ s < n, (table share n).partner s < n) ∧
    (∀ s < n, 0 ≤ (table share n).prob s ∧ (table share n).prob s ≤ 1) ∧
    ∀ i < n, (table share n).prob i +
      ∑ s ∈ range n, (if (table share n).partner s = i then 1 - (table share n).prob s else 0) = share i := by
  have start := fill_balanced nonneg total
  have ended : ((State.fill n ⟨share, [], [], fun _ => 0, fun _ => 0⟩).balance n).pair = none := by
    refine State.balance_ends ?_
    obtain ⟨-, -, -, perm, -, -⟩ := State.fill_spec n (⟨share, [], [], fun _ => 0, fun _ => 0⟩ : State K)
    rw [perm.length_eq]
    simp
  have held := start.balance n
  have left := held.left ended
  rw [table]
  generalize (State.fill n ⟨share, [], [], fun _ => 0, fun _ => 0⟩).balance n = st at *
  refine ⟨held.partner_lt, ?_, ?_⟩
  · intro s lt
    rw [State.finish_prob]
    split
    · exact ⟨zero_le_one, le_rfl⟩
    · exact held.settled s lt ‹_›
  · intro i lt
    have each : ∀ s ∈ range n, (if st.finish.partner s = i then 1 - st.finish.prob s else 0) =
        if s ∉ st.waiting ∧ st.partner s = i then 1 - st.prob s else 0 := by
      intro s _
      rw [State.finish_prob]
      by_cases waits : s ∈ st.waiting <;> simp [waits, State.finish]
    rw [sum_congr rfl each, ← held.conserved i lt, State.finish_prob, State.taken]
    congr 1
    split
    · exact (left i ‹_›).symm
    · rfl

end

section Draw
open MeasureTheory ProbabilityTheory

/-- A uniform index below `n` and, independently, a uniform fraction. -/
noncomputable def draw (n : Nat) : Measure (Fin n × ℝ) :=
  (uniformOn Set.univ).prod (volume.restrict (Set.Ico 0 1))

variable {prob : Nat → ℝ} {partner : Nat → Nat}

/-- The index that a draw leads to. -/
noncomputable def pick (prob : Nat → ℝ) (partner : Nat → Nat) (s : Nat) (p : ℝ) : Nat :=
  if p < prob s then s else partner s

theorem measurable_pick (s : Nat) : Measurable (pick prob partner s) :=
  Measurable.ite measurableSet_Iio measurable_const measurable_const

theorem volume_below (unit : 0 ≤ x ∧ x ≤ 1) : volume.restrict (Set.Ico 0 1) (Set.Iio x) = ENNReal.ofReal x := by
  have range : Set.Iio x ∩ Set.Ico 0 1 = Set.Ico 0 x := by
    ext p
    simp only [Set.mem_inter_iff, Set.mem_Iio, Set.mem_Ico]
    constructor
    · exact fun both => ⟨both.2.1, both.1⟩
    · exact fun both => ⟨both.2, both.1, lt_of_lt_of_le both.2 unit.2⟩
  rw [Measure.restrict_apply measurableSet_Iio, range, Real.volume_Ico, sub_zero]

theorem volume_above (unit : 0 ≤ x ∧ x ≤ 1) :
    volume.restrict (Set.Ico 0 1) (Set.Ici x) = ENNReal.ofReal (1 - x) := by
  have range : Set.Ici x ∩ Set.Ico 0 1 = Set.Ico x 1 := by
    ext p
    simp only [Set.mem_inter_iff, Set.mem_Ici, Set.mem_Ico]
    constructor
    · exact fun both => ⟨both.1, both.2.2⟩
    · exact fun both => ⟨both.1, unit.1.trans both.1, both.2⟩
  rw [Measure.restrict_apply measurableSet_Ici, range, Real.volume_Ico]

theorem pick_eq_iff {s j : Nat} {p : ℝ} :
    pick prob partner s p = j ↔ s = j ∧ p < prob s ∨ partner s = j ∧ prob s ≤ p := by
  unfold pick
  split <;> rename_i below
  · simp [below, below.not_ge]
  · simp [below, not_lt.mp below]

/-- The fractions with which one index leads to another. -/
theorem volume_pick {s : Nat} (unit : 0 ≤ prob s ∧ prob s ≤ 1) (j : Nat) :
    volume.restrict (Set.Ico 0 1) {p | pick prob partner s p = j} =
      ENNReal.ofReal ((if s = j then prob s else 0) + if partner s = j then 1 - prob s else 0) := by
  simp only [pick_eq_iff]
  generalize prob s = x at unit ⊢
  generalize partner s = t
  by_cases own : s = j <;> by_cases other : t = j <;>
    simp only [own, other, true_and, false_and, or_false, false_or, if_true, if_false, zero_add, add_zero]
  · have all : {p | p < x ∨ x ≤ p} = Set.univ := Set.eq_univ_of_forall fun p => lt_or_ge p x
    rw [all, Measure.restrict_apply MeasurableSet.univ, Set.univ_inter, Real.volume_Ico]
    congr 1
    ring
  · exact volume_below unit
  · exact volume_above unit
  · exact measure_empty.trans ENNReal.ofReal_zero.symm

theorem draw_pick (unit : ∀ s < n, 0 ≤ prob s ∧ prob s ≤ 1) {j : Nat} (below : j < n) :
    draw n {x | pick prob partner x.1 x.2 = j} =
      ENNReal.ofReal ((prob j + ∑ s ∈ range n, if partner s = j then 1 - prob s else 0) / n) := by
  have measurable : Measurable fun x : Fin n × ℝ => pick prob partner x.1 x.2 :=
    measurable_from_prod_countable_right fun s => measurable_pick s
  have positive : (0 : ℝ) < n := by exact_mod_cast Nat.zero_lt_of_lt below
  have single : ∀ s : Fin n, uniformOn Set.univ ({s} : Set (Fin n)) = ENNReal.ofReal (1 / n) := by
    intro s
    rw [uniformOn_univ, Measure.count_singleton, Fintype.card_fin, ENNReal.ofReal_div_of_pos positive,
      ENNReal.ofReal_one, ENNReal.ofReal_natCast]
  have each : ∀ s : Fin n, volume.restrict (Set.Ico 0 1) {p | pick prob partner s p = j} *
      uniformOn Set.univ ({s} : Set (Fin n)) = ENNReal.ofReal
        (((if s.val = j then prob s else 0) + if partner s = j then 1 - prob s else 0) / n) := by
    intro s
    rw [volume_pick (unit s s.isLt), single, ← ENNReal.ofReal_mul' (by positivity), mul_one_div]
  have nonneg : ∀ s ∈ univ, (0 : ℝ) ≤
      ((if (s : Fin n).val = j then prob s else 0) + if partner s = j then 1 - prob s else 0) / n := by
    intro s _
    obtain ⟨low, high⟩ := unit s s.isLt
    refine div_nonneg (add_nonneg ?_ ?_) positive.le <;> split <;> linarith
  refine (Measure.prod_apply (measurable (measurableSet_singleton j))).trans ?_
  rw [lintegral_fintype]
  refine (sum_congr rfl fun s _ => each s).trans ?_
  rw [← ENNReal.ofReal_sum_of_nonneg nonneg, ← sum_div, sum_add_distrib]
  congr 3
  · rw [Fin.sum_univ_eq_sum_range (fun s => if s = j then prob s else 0) n, sum_ite_eq',
      if_pos (mem_range.mpr below)]
  · exact Fin.sum_univ_eq_sum_range (fun s => if partner s = j then 1 - prob s else 0) n

end Draw
end AflLive.Alias
