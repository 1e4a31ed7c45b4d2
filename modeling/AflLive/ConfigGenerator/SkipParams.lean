import AflLive.ConfigGenerator.ConstraintListParser
import AflLive.Library.Listing

/-! Parameters that no constraint mentions are skipped, and the indices of the others are
counted anew. The new index of a parameter is its place among those that stay. -/
namespace AflLive.ConfigGenerator

def addParam (referencedParams : List Nat) (param : Nat) : List Nat :=
  if param ∈ referencedParams then referencedParams else referencedParams ++ [param]

/-- The first loop, for one constraint. -/
def collect (referencedParams : List Nat) (c : Constraint) : List Nat :=
  match c.rhs with
  | some (.param rhs) => addParam (addParam referencedParams c.lhs) rhs
  | _ => addParam referencedParams c.lhs

def referencedParams (cs : List Constraint) : List Nat := (cs.foldl collect []).insertionSort (· ≤ ·)

/-- The second loop: the dictionary and the number of keys it has. -/
def enter (s : (Nat → Option Nat) × Nat) (param : Nat) : (Nat → Option Nat) × Nat :=
  (Function.update s.1 param (some s.2), s.2 + 1)

def paramMap (referencedParams : List Nat) : Nat → Option Nat := (referencedParams.foldl enter (fun _ => none, 0)).1

/-- A constraint about other parameters; its other fields stay. -/
def Constraint.renumber (f : Nat → Nat) (c : Constraint) : Constraint where
  lhs := f c.lhs
  rel := c.rel
  deref := c.deref
  isFile := c.isFile
  rhs := c.rhs.map fun
    | .param rhs => .param (f rhs)
    | .constant value => .constant value
    | .recorded => .recorded

/-- The skip list, and the constraints as the last loop leaves them. -/
def getSkipParamsAndTransformConstraints (paramsNum : Nat) (cs : List Constraint) : List Nat × List Constraint :=
  let referenced := referencedParams cs
  let map := paramMap referenced
  ((List.range paramsNum).filter (· ∉ referenced), cs.map (Constraint.renumber fun p => (map p).getD p))

/-! ### The parameters in use -/

def Constraint.Mentions (c : Constraint) (p : Nat) : Prop := p = c.lhs ∨ c.rhs = some (.param p)

theorem mem_addParam : p ∈ addParam params param ↔ p ∈ params ∨ p = param := by
  unfold addParam
  split
  · next known =>
    constructor
    · exact .inl
    · rintro (inside | rfl)
      · exact inside
      · exact known
  · simp

theorem nodup_addParam (distinct : params.Nodup) : (addParam params param).Nodup := by
  unfold addParam
  split
  · exact distinct
  · next fresh =>
    refine List.nodup_append.mpr ⟨distinct, by simp, ?_⟩
    rintro p inside q only rfl
    rw [List.mem_singleton.mp only] at inside
    exact fresh inside

theorem mem_collect : p ∈ collect params c ↔ p ∈ params ∨ c.Mentions p := by
  unfold collect Constraint.Mentions
  split
  · next rhs is => simp [mem_addParam, is, or_assoc, eq_comm]
  · next other =>
    have none : c.rhs ≠ some (.param p) := fun is => other p is
    simp [mem_addParam, none]

theorem nodup_collect (distinct : params.Nodup) : (collect params c).Nodup := by
  unfold collect
  split
  · exact nodup_addParam (nodup_addParam distinct)
  · exact nodup_addParam distinct

theorem foldl_collect (cs : List Constraint) (distinct : params.Nodup) :
    (cs.foldl collect params).Nodup ∧ ∀ p, p ∈ cs.foldl collect params ↔ p ∈ params ∨ ∃ c ∈ cs, c.Mentions p := by
  induction cs generalizing params with
  | nil => simpa using distinct
  | cons c cs ih =>
    obtain ⟨distinct', mem⟩ := ih (nodup_collect (c := c) distinct)
    refine ⟨distinct', fun p => ?_⟩
    rw [List.foldl_cons, mem, mem_collect]
    simp [or_assoc]

theorem mem_referencedParams : p ∈ referencedParams cs ↔ ∃ c ∈ cs, Constraint.Mentions c p := by
  rw [referencedParams, List.mem_insertionSort, (foldl_collect cs List.nodup_nil).2]
  simp

theorem referencedParams_sorted (cs : List Constraint) : (referencedParams cs).SortedLT := by
  have distinct : (referencedParams cs).Nodup :=
    (List.perm_insertionSort _ _).nodup_iff.mpr (foldl_collect cs List.nodup_nil).1
  have ordered : (referencedParams cs).SortedLE := (List.pairwise_insertionSort _ _).sortedLE
  exact ordered.sortedLT_of_nodup distinct

/-! ### The new indices -/

theorem foldl_enter {params : List Nat} (distinct : params.Nodup) (s : (Nat → Option Nat) × Nat) (p : Nat) :
    (params.foldl enter s).1 p = if p ∈ params then some (s.2 + params.idxOf p) else s.1 p := by
  induction params generalizing s with
  | nil => simp
  | cons param params ih =>
    obtain ⟨fresh, distinct⟩ := List.nodup_cons.mp distinct
    rw [List.foldl_cons, ih distinct]
    by_cases own : p = param
    · subst own
      simp [enter, fresh]
    · by_cases inside : p ∈ params
      · have order : (param :: params).idxOf p = params.idxOf p + 1 := List.idxOf_cons_ne _ (Ne.symm own)
        simp only [enter, inside, if_true, List.mem_cons, or_true, order]
        congr 1
        omega
      · simp [enter, inside, own]

theorem paramMap_eq {params : List Nat} (sorted : params.SortedLT) (p : Nat) :
    paramMap params p = if p ∈ params then some (params.idxOf p) else none := by
  rw [paramMap, foldl_enter sorted.nodup]
  simp

/-- The parameters below `n` that are not skipped. -/
def keptParams (n : Nat) (skip : List Nat) : List Nat := (List.range n).filter (· ∉ skip)

theorem mem_skip {n : Nat} {cs : List Constraint} :
    p ∈ (getSkipParamsAndTransformConstraints n cs).1 ↔ p < n ∧ ∀ c ∈ cs, ¬c.Mentions p := by
  simp [getSkipParamsAndTransformConstraints, mem_referencedParams]

theorem sortedLT_filter_range (n : Nat) (q : Nat → Bool) : ((List.range n).filter q).SortedLT :=
  (List.pairwise_lt_range.filter q).sortedLT

section
variable {n : Nat} {cs : List Constraint} (bounded : ∀ c ∈ cs, ∀ p, c.Mentions p → p < n)
include bounded

theorem keptParams_eq : keptParams n (getSkipParamsAndTransformConstraints n cs).1 = referencedParams cs := by
  refine (sortedLT_filter_range n _).eq_of_mem_iff (referencedParams_sorted cs) fun p => ?_
  simp only [List.mem_filter, List.mem_range, decide_eq_true_eq, mem_skip, mem_referencedParams, not_and, not_forall,
    not_not]
  constructor
  · rintro ⟨below, used⟩
    obtain ⟨c, inside, mentions⟩ := used below
    exact ⟨c, inside, mentions⟩
  · rintro ⟨c, inside, mentions⟩
    exact ⟨bounded c inside p mentions, fun _ => ⟨c, inside, mentions⟩⟩

/-- A parameter in use keeps its place among those that stay. -/
theorem keptParams_count (used : ∃ c ∈ cs, c.Mentions p) :
    (keptParams n (getSkipParamsAndTransformConstraints n cs).1)[
      Nat.count (· ∉ (getSkipParamsAndTransformConstraints n cs).1) p]? = some p := by
  obtain ⟨c, inside, mentions⟩ := used
  refine Listing.getElem?_filter_range _ (fun skipped => ?_) (bounded c inside p mentions)
  exact (mem_skip.mp skipped).2 c inside mentions

theorem paramMap_count (used : ∃ c ∈ cs, c.Mentions p) :
    paramMap (referencedParams cs) p = some (Nat.count (· ∉ (getSkipParamsAndTransformConstraints n cs).1) p) := by
  have place := keptParams_count bounded used
  rw [keptParams_eq bounded] at place
  obtain ⟨below, is⟩ := List.getElem?_eq_some_iff.mp place
  have index := (referencedParams_sorted cs).nodup.idxOf_getElem _ below
  rw [is] at index
  rw [paramMap_eq (referencedParams_sorted cs), if_pos (mem_referencedParams.mpr used), index]

end

theorem length_keptParams {n : Nat} {cs : List Constraint} {skip : List Nat}
    (isSkip : (getSkipParamsAndTransformConstraints n cs).1 = skip) : n - skip.length = (keptParams n skip).length := by
  have parts := List.length_eq_length_filter_add (l := List.range n) (· ∈ skip)
  have skipped : (List.range n).filter (· ∈ skip) = skip := by
    rw [← isSkip]
    refine List.filter_congr fun p inside => ?_
    simp [getSkipParamsAndTransformConstraints, List.mem_range.mp inside]
  rw [List.length_range, skipped] at parts
  have others : (List.range n).filter (fun p => !decide (p ∈ skip)) = keptParams n skip := by
    simp [keptParams]
  rw [others] at parts
  omega

namespace Constraint

theorem renumber_congr {f g : Nat → Nat} {c : Constraint} (same : ∀ p, c.Mentions p → f p = g p) :
    c.renumber f = c.renumber g := by
  have left := same c.lhs (.inl rfl)
  cases is : c.rhs with
  | none => simp [renumber, left, is]
  | some rhs =>
    cases rhs with
    | param p => simp [renumber, left, is, same p (.inr is)]
    | constant _ => simp [renumber, left, is]
    | recorded => simp [renumber, left, is]

theorem renumber_id (c : Constraint) : c.renumber id = c := by
  obtain ⟨lhs, rel, deref, isFile, rhs⟩ := c
  cases rhs with
  | none => rfl
  | some rhs => cases rhs <;> rfl

theorem mentions_renumber {f : Nat → Nat} {c : Constraint} :
    (c.renumber f).Mentions q ↔ ∃ p, c.Mentions p ∧ q = f p := by
  constructor
  · rintro (rfl | right)
    · exact ⟨c.lhs, .inl rfl, rfl⟩
    · simp only [renumber, Option.map_eq_some_iff] at right
      obtain ⟨rhs, is, becomes⟩ := right
      cases rhs with
      | param p => exact ⟨p, .inr is, by cases becomes; rfl⟩
      | constant _ => cases becomes
      | recorded => cases becomes
  · rintro ⟨p, rfl | right, rfl⟩
    · exact .inl rfl
    · exact .inr (by simp [renumber, right])

end Constraint

/-- With every parameter in use there is nothing to skip or to renumber. -/
theorem getSkipParamsAndTransformConstraints_of_dense {m : Nat} {cs : List Constraint}
    (dense : ∀ p, (∃ c ∈ cs, c.Mentions p) ↔ p < m) : getSkipParamsAndTransformConstraints m cs = ([], cs) := by
  have referenced : referencedParams cs = List.range m := by
    refine (referencedParams_sorted cs).eq_of_mem_iff List.pairwise_lt_range.sortedLT fun p => ?_
    rw [mem_referencedParams, dense, List.mem_range]
  simp only [getSkipParamsAndTransformConstraints, referenced, Prod.mk.injEq]
  constructor
  · simp
  · refine (List.map_congr_left fun c inside => ?_).trans (List.map_id cs)
    refine Eq.trans (Constraint.renumber_congr fun p mentions => ?_) (Constraint.renumber_id c)
    have below := (dense p).mp ⟨c, inside, mentions⟩
    have place := (List.nodup_range (n := m)).idxOf_getElem p (by rwa [List.length_range])
    rw [List.getElem_range] at place
    simp [paramMap_eq List.pairwise_lt_range.sortedLT, below, place]

/-- The skip list is the increasing list of the parameters without a constraint; every index
becomes the number of parameters before it that stay, so it still means the same parameter; and
nothing is left to do for the result. -/
theorem getSkipParamsAndTransformConstraints_renumbers (n : Nat) (cs : List Constraint)
    (bounded : ∀ c ∈ cs, ∀ p, c.Mentions p → p < n) (skip : List Nat) (out : List Constraint)
    (result : getSkipParamsAndTransformConstraints n cs = (skip, out)) :
    skip.SortedLT ∧ (∀ p, p ∈ skip ↔ p < n ∧ ∀ c ∈ cs, ¬c.Mentions p) ∧
      out = cs.map (Constraint.renumber (Nat.count (· ∉ skip))) ∧
      (∀ c ∈ cs, ∀ p, c.Mentions p → (keptParams n skip)[Nat.count (· ∉ skip) p]? = some p) ∧
      getSkipParamsAndTransformConstraints (n - skip.length) out = ([], out) := by
  have isSkip : (getSkipParamsAndTransformConstraints n cs).1 = skip := congrArg Prod.fst result
  have isOut : (getSkipParamsAndTransformConstraints n cs).2 = out := congrArg Prod.snd result
  have count : ∀ p, (∃ c ∈ cs, c.Mentions p) → (keptParams n skip)[Nat.count (· ∉ skip) p]? = some p := by
    intro p used
    have place := keptParams_count bounded used
    simpa only [isSkip] using place
  have rewritten : out = cs.map (Constraint.renumber (Nat.count (· ∉ skip))) := by
    rw [← isOut]
    refine List.map_congr_left fun c inside => Constraint.renumber_congr fun p mentions => ?_
    have index := paramMap_count bounded ⟨c, inside, mentions⟩
    simp only [isSkip] at index
    rw [index, Option.getD_some]
  refine ⟨?_, ?_, rewritten, fun c inside p mentions => count p ⟨c, inside, mentions⟩, ?_⟩
  · rw [← isSkip]
    exact sortedLT_filter_range n _
  · intro p
    rw [← isSkip]
    exact mem_skip
  · rw [length_keptParams isSkip]
    refine getSkipParamsAndTransformConstraints_of_dense fun q => ?_
    have distinct : (keptParams n skip).Nodup := List.nodup_range.filter _
    simp only [rewritten, List.mem_map, exists_exists_and_eq_and, Constraint.mentions_renumber]
    constructor
    · rintro ⟨c, inside, p, mentions, rfl⟩
      exact (List.getElem?_eq_some_iff.mp (count p ⟨c, inside, mentions⟩)).1
    · intro below
      -- The parameter at place `q` is in use, and two places do not hold the same one.
      have stays := List.getElem_mem below
      simp only [keptParams, List.mem_filter, List.mem_range, decide_eq_true_eq] at stays
      obtain ⟨c, inside, mentions⟩ : ∃ c ∈ cs, c.Mentions (keptParams n skip)[q] := by
        by_contra unused
        push Not at unused
        have skipped := mem_skip.mpr ⟨stays.1, unused⟩
        rw [isSkip] at skipped
        exact stays.2 skipped
      obtain ⟨below', same⟩ := List.getElem?_eq_some_iff.mp (count _ ⟨c, inside, mentions⟩)
      exact ⟨c, inside, _, mentions, ((distinct.getElem_inj_iff).mp same).symm⟩

/-- Of four parameters the second and the fourth are in use. -/
theorem second_and_fourth_renumbered :
    (∀ c ∈ [({ lhs := 1, rel := .le, rhs := some (.param 3) } : Constraint)], ∀ p, c.Mentions p → p < 4) ∧
      getSkipParamsAndTransformConstraints 4 [{ lhs := 1, rel := .le, rhs := some (.param 3) }] =
        ([0, 2], [{ lhs := 0, rel := .le, rhs := some (.param 1) }]) ∧
      getSkipParamsAndTransformConstraints 2 [{ lhs := 0, rel := .le, rhs := some (.param 1) }] =
        ([], [{ lhs := 0, rel := .le, rhs := some (.param 1) }]) := by
  have bounded : ∀ c ∈ [({ lhs := 1, rel := .le, rhs := some (.param 3) } : Constraint)],
      ∀ p, c.Mentions p → p < 4 := by
    simp [Constraint.Mentions]
  have result : getSkipParamsAndTransformConstraints 4 [{ lhs := 1, rel := .le, rhs := some (.param 3) }] =
      ([0, 2], [{ lhs := 0, rel := .le, rhs := some (.param 1) }]) := by
    decide +kernel
  exact ⟨bounded, result, (getSkipParamsAndTransformConstraints_renumbers 4 _ bounded _ _ result).2.2.2.2⟩

end AflLive.ConfigGenerator
