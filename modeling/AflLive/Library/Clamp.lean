import Mathlib

/-! Bounds on a linear order, applied one after another. Each application
overwrites the value or clamps it; nothing remembers the earlier bounds. -/
namespace AflLive.Clamp

inductive Rel where
  | eq | le | ge
deriving DecidableEq, Repr

structure Bound (α : Type) where
  rel : Rel
  rhs : α

variable {α : Type} [LinearOrder α] {b c : Bound α} {bounds : List (Bound α)} {x y w : α}

def Bound.Holds (b : Bound α) (x : α) : Prop :=
  match b.rel with
  | .eq => x = b.rhs
  | .le => x ≤ b.rhs
  | .ge => b.rhs ≤ x

def Bound.apply (b : Bound α) (x : α) : α :=
  match b.rel with
  | .eq => b.rhs
  | .le => min x b.rhs
  | .ge => max x b.rhs

theorem Bound.apply_holds (b : Bound α) (x : α) : b.Holds (b.apply x) := by
  obtain ⟨rel, rhs⟩ := b
  cases rel with
  | eq => rfl
  | le => exact min_le_right _ _
  | ge => exact le_max_right _ _

/-- A later bound keeps an earlier one, provided some value meets both. -/
theorem Bound.apply_keeps (meetsB : b.Holds w) (meetsC : c.Holds w) (holds : c.Holds x) :
    c.Holds (b.apply x) := by
  obtain ⟨rel, rhs⟩ := b
  obtain ⟨rel', rhs'⟩ := c
  cases rel <;> cases rel' <;> simp only [Bound.Holds, Bound.apply] at * <;> grind

def applyAll (bounds : List (Bound α)) (x : α) : α :=
  bounds.foldl (fun y b => b.apply y) x

theorem Bound.apply_mono (b : Bound α) (le : x ≤ y) : b.apply x ≤ b.apply y := by
  obtain ⟨rel, rhs⟩ := b
  cases rel with
  | eq => exact le_rfl
  | le => exact min_le_min_right rhs le
  | ge => exact max_le_max_right rhs le

theorem applyAll_mono (bounds : List (Bound α)) (le : x ≤ y) : applyAll bounds x ≤ applyAll bounds y := by
  induction bounds generalizing x y with
  | nil => exact le
  | cons head rest ih => exact ih (head.apply_mono le)

/-- Jointly satisfiable bounds all hold of the result, in whatever order they
are applied and whatever the starting value was. -/
theorem applyAll_holds (meets : ∀ b ∈ bounds, b.Holds w) (x : α) :
    ∀ b ∈ bounds, b.Holds (applyAll bounds x) := by
  suffices every : ∀ done : List (Bound α), (∀ b ∈ done, b.Holds w) →
      (∀ b ∈ done, b.Holds x) → ∀ b ∈ done ++ bounds, b.Holds (applyAll bounds x) by
    simpa using every [] (by simp) (by simp)
  induction bounds generalizing x with
  | nil => intro done _ holds b member; simpa [applyAll] using holds b (by simpa using member)
  | cons head rest ih =>
    intro done meetsDone holds
    have meetsHead := meets head (by simp)
    have earlier : ∀ b ∈ done ++ [head], b.Holds (head.apply x) := by
      intro b member
      rcases List.mem_append.mp member with old | new
      · exact Bound.apply_keeps meetsHead (meetsDone b old) (holds b old)
      · obtain rfl := List.mem_singleton.mp new
        exact b.apply_holds x
    have next := ih (fun b member => meets b (by simp [member])) (head.apply x) (done ++ [head])
      (by intro b member
          rcases List.mem_append.mp member with old | new
          · exact meetsDone b old
          · obtain rfl := List.mem_singleton.mp new; exact meetsHead) earlier
    simpa [applyAll] using next

/-- On the values from `lo` to `hi`, applying `b` leaves those that meet `c` alone and makes
the others meet it, provided any value does. -/
structure Bound.Serves (b c : Bound α) (lo hi : α) : Prop where
  keeps : ∀ x, lo ≤ x → x ≤ hi → c.Holds x → b.apply x = x
  meets : ∀ x, lo ≤ x → x ≤ hi → ¬c.Holds x → (∃ y, lo ≤ y ∧ y ≤ hi ∧ c.Holds y) → c.Holds (b.apply x)

/-- A bound with another right-hand side serves exactly if that is the wanted one, brought
into the range; or if no value in it would do. -/
theorem Bound.serves_iff {rel : Rel} {lo hi r s : α} (lower : lo ≤ s) (upper : s ≤ hi) :
    Bound.Serves ⟨rel, s⟩ ⟨rel, r⟩ lo hi ↔
      ((∃ y, lo ≤ y ∧ y ≤ hi ∧ Bound.Holds ⟨rel, r⟩ y) → s = max lo (min r hi)) := by
  have range : lo ≤ hi := lower.trans upper
  cases rel with
  | eq =>
    simp only [Bound.Holds]
    constructor
    · rintro ⟨keeps, _⟩ ⟨y, above, below, rfl⟩
      have same : s = y := keeps y above below rfl
      rw [min_eq_left below, max_eq_right above, same]
    · intro nearest
      refine ⟨?_, ?_⟩
      · rintro x above below rfl
        have same := nearest ⟨x, above, below, rfl⟩
        rwa [min_eq_left below, max_eq_right above] at same
      · rintro x _ _ _ ⟨y, above, below, rfl⟩
        have same := nearest ⟨y, above, below, rfl⟩
        rwa [min_eq_left below, max_eq_right above] at same
  | le =>
    simp only [Bound.Holds]
    constructor
    · rintro ⟨keeps, meets⟩ ⟨y, above, below, holds⟩
      have wide : lo ≤ min r hi := le_min (above.trans holds) range
      rw [max_eq_right wide]
      refine le_antisymm (le_min ?_ upper) ?_
      · by_cases all : hi ≤ r
        · exact upper.trans all
        · have cut : min hi s ≤ r := meets hi range le_rfl all ⟨y, above, below, holds⟩
          rwa [min_eq_right upper] at cut
      · have kept : min (min r hi) s = min r hi := keeps _ wide (min_le_right _ _) (min_le_left _ _)
        exact min_eq_left_iff.mp kept
    · intro nearest
      have bound : ∀ y, lo ≤ y → y ≤ hi → y ≤ r → s = min r hi := by
        intro y above below holds
        rw [nearest ⟨y, above, below, holds⟩, max_eq_right (le_min (above.trans holds) range)]
      refine ⟨?_, ?_⟩
      · intro x above below holds
        exact min_eq_left (bound x above below holds ▸ le_min holds below)
      · rintro x _ _ _ ⟨y, above, below, holds⟩
        exact (min_le_right _ _).trans (bound y above below holds ▸ min_le_left _ _)
  | ge =>
    simp only [Bound.Holds]
    constructor
    · rintro ⟨keeps, meets⟩ ⟨y, above, below, holds⟩
      rw [min_eq_left (holds.trans below)]
      refine le_antisymm ?_ (max_le lower ?_)
      · have kept : max (max lo r) s = max lo r :=
          keeps _ (le_max_left _ _) (max_le range (holds.trans below)) (le_max_right _ _)
        exact max_eq_left_iff.mp kept
      · by_cases all : r ≤ lo
        · exact all.trans lower
        · have raised : r ≤ max lo s := meets lo le_rfl range all ⟨y, above, below, holds⟩
          rwa [max_eq_right lower] at raised
    · intro nearest
      have bound : ∀ y, lo ≤ y → y ≤ hi → r ≤ y → s = max lo r := by
        intro y above below holds
        rw [nearest ⟨y, above, below, holds⟩, min_eq_left (holds.trans below)]
      refine ⟨?_, ?_⟩
      · intro x above below holds
        exact max_eq_left (bound x above below holds ▸ max_le above holds)
      · rintro x _ _ _ ⟨y, above, below, holds⟩
        exact (bound y above below holds ▸ le_max_right lo r).trans (le_max_right _ _)

/-- Bounds that act alike on a range they lie in are the same. -/
theorem Bound.rhs_unique {rel : Rel} {lo hi r s : α} (lower : lo ≤ r ∧ lo ≤ s) (upper : r ≤ hi ∧ s ≤ hi)
    (same : ∀ x, lo ≤ x → x ≤ hi → Bound.apply ⟨rel, r⟩ x = Bound.apply ⟨rel, s⟩ x) : r = s := by
  have range : lo ≤ hi := lower.1.trans upper.1
  cases rel with
  | eq => exact same lo le_rfl range
  | le =>
    have cut : min hi r = min hi s := same hi range le_rfl
    rwa [min_eq_right upper.1, min_eq_right upper.2] at cut
  | ge =>
    have raised : max lo r = max lo s := same lo le_rfl range
    rwa [max_eq_right lower.1, max_eq_right lower.2] at raised

end AflLive.Clamp
