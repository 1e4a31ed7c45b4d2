import Mathlib

/-! Bit vectors as sequences of lanes of equal width, the lowest first. -/
namespace AflLive.Lanes

variable {n w : Nat} {x y : BitVec n} {i j : Nat}

def lane (w : Nat) (x : BitVec n) (j : Nat) : BitVec w := x.extractLsb' (w * j) w

def join (n : Nat) (f : Nat → BitVec w) : BitVec n := BitVec.ofFnLE fun i => (f (i / w)).getLsbD (i % w)

theorem getLsbD_lane (w : Nat) (x : BitVec n) (j i : Nat) :
    (lane w x j).getLsbD i = (decide (i < w) && x.getLsbD (w * j + i)) :=
  BitVec.getLsbD_extractLsb' ..

theorem getLsbD_join (n : Nat) (f : Nat → BitVec w) (i : Nat) :
    (join n f).getLsbD i = (decide (i < n) && (f (i / w)).getLsbD (i % w)) := by
  rw [join, BitVec.getLsbD_ofFnLE]
  split <;> simp [*]

/-- Vectors with the same lanes are the same. -/
theorem lane_ext (wide : 0 < w) (same : ∀ j, w * j < n → lane w x j = lane w y j) : x = y := by
  apply BitVec.eq_of_getLsbD_eq
  intro i inside
  have split : w * (i / w) + i % w = i := Nat.div_add_mod i w
  have low : i % w < w := Nat.mod_lt i wide
  have bits := congrArg (·.getLsbD (i % w)) (same (i / w) (by omega))
  simpa only [getLsbD_lane, low, split, decide_true, Bool.true_and] using bits

theorem lane_join (f : Nat → BitVec w) (inside : w * (j + 1) ≤ n) : lane w (join n f) j = f j := by
  apply BitVec.eq_of_getLsbD_eq
  intro i low
  rw [Nat.mul_succ] at inside
  have place : (w * j + i) / w = j := by
    rw [Nat.mul_add_div (by omega), Nat.div_eq_of_lt low, Nat.add_zero]
  have rest : (w * j + i) % w = i := by rw [Nat.mul_add_mod, Nat.mod_eq_of_lt low]
  rw [getLsbD_lane, getLsbD_join, place, rest]
  simp [low, show w * j + i < n by omega]

@[simp] theorem lane_zero (w j : Nat) : lane w (0#n) j = 0#w := by
  apply BitVec.eq_of_getLsbD_eq
  simp [getLsbD_lane]

theorem eq_zero_iff (wide : 0 < w) : x = 0#n ↔ ∀ j, w * j < n → lane w x j = 0#w := by
  constructor
  · rintro rfl j _
    exact lane_zero w j
  · intro zero
    exact lane_ext wide fun j inside => (zero j inside).trans (lane_zero w j).symm

@[simp] theorem lane_and (w : Nat) (x y : BitVec n) (j : Nat) : lane w (x &&& y) j = lane w x j &&& lane w y j := by
  apply BitVec.eq_of_getLsbD_eq
  intro i low
  simp only [getLsbD_lane, BitVec.getLsbD_and, low, decide_true, Bool.true_and]

theorem lane_not (inside : w * (j + 1) ≤ n) : lane w (~~~x) j = ~~~lane w x j := by
  apply BitVec.eq_of_getLsbD_eq
  intro i low
  rw [Nat.mul_succ] at inside
  simp only [getLsbD_lane, BitVec.getLsbD_not, low, show w * j + i < n by omega, decide_true, Bool.true_and]

/-- A lane of a lane is a lane of the whole. -/
theorem lane_lane {a b : Nat} (inside : i < b) : lane a (lane (a * b) x j) i = lane a x (b * j + i) := by
  apply BitVec.eq_of_getLsbD_eq
  intro k low
  have within : a * i + k < a * b :=
    calc a * i + k < a * i + a := by omega
      _ = a * (i + 1) := (Nat.mul_succ a i).symm
      _ ≤ a * b := Nat.mul_le_mul_left a inside
  have place : a * b * j + (a * i + k) = a * (b * j + i) + k := by ring
  simp only [getLsbD_lane, low, within, place, decide_true, Bool.true_and]

end AflLive.Lanes
