import Mathlib

/-! The marked positions below a bound, in cyclic order. -/
namespace AflLive.Cyclic

variable {p : Nat → Bool} {n t u : Nat}

/-- The first marked position behind `t`, around the end if need be; at most one turn away. -/
def Follows (p : Nat → Bool) (n t u : Nat) : Prop :=
  ∃ d, 0 < d ∧ d ≤ n ∧ (t + d) % n = u ∧ p u = true ∧ ∀ e, 0 < e → e < d → p ((t + e) % n) = false

theorem Follows.marked (follows : Follows p n t u) : p u = true := by
  obtain ⟨d, _, _, _, marked, _⟩ := follows
  exact marked

theorem exists_follows {m : Nat} (inside : t < n) (below : m < n) (marked : p m = true) : ∃ u, Follows p n t u := by
  have there : ∃ d, 0 < d ∧ d ≤ n ∧ p ((t + d) % n) = true := by
    by_cases behind : t < m
    · refine ⟨m - t, by omega, by omega, ?_⟩
      rwa [Nat.add_sub_cancel' behind.le, Nat.mod_eq_of_lt below]
    · refine ⟨n - t + m, by omega, by omega, ?_⟩
      rwa [show t + (n - t + m) = m + n by omega, Nat.add_mod_right, Nat.mod_eq_of_lt below]
  classical
  obtain ⟨positive, bounded, first⟩ := Nat.find_spec there
  refine ⟨_, Nat.find there, positive, bounded, rfl, first, ?_⟩
  intro e later before
  have none := Nat.find_min there before
  simpa [later, before.le.trans bounded] using none

/-- The next position is ahead, or everything from here to the end and from the start to it
is unmarked. -/
theorem Follows.cases (inside : t < n) (follows : Follows p n t u) :
    (t < u ∧ u < n ∧ ∀ v, t < v → v < u → p v = false) ∨
      (u ≤ t ∧ (∀ v, t < v → v < n → p v = false) ∧ ∀ v, v < u → p v = false) := by
  obtain ⟨d, positive, bounded, rfl, _, none⟩ := follows
  by_cases ahead : t + d < n
  · rw [Nat.mod_eq_of_lt ahead]
    refine .inl ⟨by omega, ahead, fun v low high => ?_⟩
    have unmarked := none (v - t) (by omega) (by omega)
    rwa [Nat.add_sub_cancel' low.le, Nat.mod_eq_of_lt (by omega)] at unmarked
  · rw [Nat.mod_eq_sub_mod (by omega), Nat.mod_eq_of_lt (by omega)]
    refine .inr ⟨by omega, fun v low high => ?_, fun v high => ?_⟩
    · have unmarked := none (v - t) (by omega) (by omega)
      rwa [Nat.add_sub_cancel' low.le, Nat.mod_eq_of_lt high] at unmarked
    · have unmarked := none (n - t + v) (by omega) (by omega)
      rwa [show t + (n - t + v) = v + n by omega, Nat.add_mod_right, Nat.mod_eq_of_lt (by omega)] at unmarked

/-- Unmarked positions do not count. -/
theorem filter_range_of_unmarked (le : t ≤ u) (none : ∀ v, t ≤ v → v < u → p v = false) :
    (List.range u).filter p = (List.range t).filter p := by
  induction u, le using Nat.le_induction with
  | base => rfl
  | succ u le ih =>
    rw [List.range_succ, List.filter_append, ih fun v low high => none v low (by omega)]
    simp [none u le (by omega)]

theorem filter_range_succ (marked : p u = true) (le : t ≤ u) (none : ∀ v, t ≤ v → v < u → p v = false) :
    (List.range (u + 1)).filter p = (List.range t).filter p ++ [u] := by
  rw [List.range_succ, List.filter_append, filter_range_of_unmarked le none]
  simp [marked]

end AflLive.Cyclic
