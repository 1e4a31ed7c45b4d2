import Mathlib

/-! Rounding of rational numbers to doubles, to nearest with ties to even. Overflow is left out:
the numbers are below `2 ^ 1024`. -/
namespace AflLive.Binary64

def roundHalfEven (q : ℚ) : ℤ :=
  if 2 * Int.fract q < 1 ∨ 2 * Int.fract q = 1 ∧ ⌊q⌋ % 2 = 0 then ⌊q⌋ else ⌊q⌋ + 1

/-- The distance of two doubles next to each other, where `q` lies. -/
def ulp (q : ℚ) : ℚ := 2 ^ (max (Int.log 2 q) (-1022) - 52)

def round (q : ℚ) : ℚ := roundHalfEven (q / ulp q) * ulp q

variable {q : ℚ} {n : ℤ} {p k : Nat}

theorem le_roundHalfEven (below : n ≤ q) : n ≤ roundHalfEven q := by
  have floor : n ≤ ⌊q⌋ := Int.le_floor.mpr below
  unfold roundHalfEven
  split <;> omega

theorem roundHalfEven_le (above : q ≤ n) : roundHalfEven q ≤ n := by
  have floor : ⌊q⌋ ≤ n := Int.cast_le.mp ((Int.floor_le q).trans above)
  unfold roundHalfEven
  split
  · exact floor
  · next up =>
    -- An integer is not rounded up.
    have proper : 0 < Int.fract q := by
      refine lt_of_le_of_ne (Int.fract_nonneg q) fun zero => up (.inl ?_)
      rw [← zero]
      norm_num
    have strict : (⌊q⌋ : ℚ) < n := by
      have parts := Int.floor_add_fract q
      linarith
    exact Int.cast_lt.mp strict

theorem lt_roundHalfEven (half : n + 1 / 2 < q) : n < roundHalfEven q := by
  have floor : n ≤ ⌊q⌋ := Int.le_floor.mpr (by linarith)
  unfold roundHalfEven
  split
  · next down =>
    refine lt_of_le_of_ne floor fun same => ?_
    have parts := Int.floor_add_fract q
    rw [← same] at parts
    rcases down with less | ⟨tie, -⟩ <;> linarith
  · omega

theorem roundHalfEven_eq (below : n ≤ q) (half : q < n + 1 / 2) : roundHalfEven q = n := by
  have floor : ⌊q⌋ = n := Int.floor_eq_iff.mpr ⟨below, by linarith⟩
  have parts := Int.floor_add_fract q
  rw [floor] at parts
  rw [roundHalfEven, if_pos (.inl (by linarith)), floor]

/-- Up to `2 ^ (53 - p)` the doubles have at least `p` binary places. -/
theorem exists_ulp (positive : 0 < q) (small : p ≤ 52) (below : q < 2 ^ (53 - p)) :
    ∃ places, p ≤ places ∧ ulp q = ((2 : ℚ) ^ places)⁻¹ := by
  have exponent : Int.log 2 q < (53 - p : Nat) := by
    refine (Int.lt_zpow_iff_log_lt (by decide) positive).mp ?_
    rw [zpow_natCast]
    exact_mod_cast below
  refine ⟨(52 - max (Int.log 2 q) (-1022)).toNat, by omega, ?_⟩
  have places : max (Int.log 2 q) (-1022) - 52 = -((52 - max (Int.log 2 q) (-1022)).toNat : ℤ) := by omega
  rw [ulp, places, zpow_neg, zpow_natCast]

theorem div_ulp {places : Nat} (is : ulp q = ((2 : ℚ) ^ places)⁻¹) : q / ulp q = q * 2 ^ places := by
  rw [is, div_inv_eq_mul]

theorem round_eq {places : Nat} (is : ulp q = ((2 : ℚ) ^ places)⁻¹) :
    round q = roundHalfEven (q * 2 ^ places) / 2 ^ places := by
  rw [round, div_ulp is, is, div_eq_mul_inv]

section
variable (positive : 0 < q)
include positive

theorem round_le (below : q < 2 ^ 53) (above : q ≤ k) : round q ≤ k := by
  obtain ⟨places, -, is⟩ := exists_ulp (p := 0) positive (by decide) below
  have scaled : q * 2 ^ places ≤ ((k * 2 ^ places : ℤ) : ℚ) := by
    push_cast
    gcongr
  have rounded : (roundHalfEven (q * 2 ^ places) : ℚ) ≤ ((k * 2 ^ places : ℤ) : ℚ) :=
    Int.cast_le.mpr (roundHalfEven_le scaled)
  rw [round_eq is, div_le_iff₀ (by positivity)]
  exact_mod_cast rounded

theorem le_round (below : q < 2 ^ 53) (above : k ≤ q) : k ≤ round q := by
  obtain ⟨places, -, is⟩ := exists_ulp (p := 0) positive (by decide) below
  have scaled : ((k * 2 ^ places : ℤ) : ℚ) ≤ q * 2 ^ places := by
    push_cast
    gcongr
  have rounded : ((k * 2 ^ places : ℤ) : ℚ) ≤ (roundHalfEven (q * 2 ^ places) : ℚ) :=
    Int.cast_le.mpr (le_roundHalfEven scaled)
  rw [round_eq is, le_div_iff₀ (by positivity)]
  exact_mod_cast rounded

/-- More than half a place above an integer a number stays above it. -/
theorem lt_round (small : p ≤ 52) (below : q < 2 ^ (53 - p)) (above : k + 1 / 2 ^ (p + 1) < q) : k < round q := by
  obtain ⟨places, more, is⟩ := exists_ulp positive small below
  have half : (1 : ℚ) / 2 ≤ 1 / 2 ^ (p + 1) * 2 ^ places := by
    obtain ⟨extra, rfl⟩ := Nat.exists_eq_add_of_le more
    have least : (1 : ℚ) ≤ 2 ^ extra := one_le_pow₀ (by norm_num)
    rw [pow_succ, pow_add]
    field_simp
    exact least
  have scaled : ((k * 2 ^ places : ℤ) : ℚ) + 1 / 2 < q * 2 ^ places := by
    push_cast
    have larger : (k + 1 / 2 ^ (p + 1)) * 2 ^ places < q * 2 ^ places := by gcongr
    linarith
  have rounded : ((k * 2 ^ places : ℤ) : ℚ) < (roundHalfEven (q * 2 ^ places) : ℚ) :=
    Int.cast_lt.mpr (lt_roundHalfEven scaled)
  rw [round_eq is, lt_div_iff₀ (by positivity)]
  exact_mod_cast rounded

/-- Less than half a place above an integer a number is rounded down to it. -/
theorem round_eq_of_lt (small : p ≤ 52) (low : 2 ^ (52 - p) ≤ q) (high : q < 2 ^ (53 - p)) (above : k ≤ q)
    (near : q < k + 1 / 2 ^ (p + 1)) : round q = k := by
  have exponent : Int.log 2 q = (52 - p : Nat) := by
    apply le_antisymm
    · refine Int.lt_add_one_iff.mp ((Int.lt_zpow_iff_log_lt (by decide) positive).mp ?_)
      have next : ((52 - p : Nat) : ℤ) + 1 = (53 - p : Nat) := by omega
      rw [next, zpow_natCast]
      exact_mod_cast high
    · refine (Int.zpow_le_iff_le_log (by decide) positive).mp ?_
      rw [zpow_natCast]
      exact_mod_cast low
  have is : ulp q = ((2 : ℚ) ^ p)⁻¹ := by
    have places : max (Int.log 2 q) (-1022) - 52 = -(p : ℤ) := by omega
    rw [ulp, places, zpow_neg, zpow_natCast]
  have rounded : roundHalfEven (q * 2 ^ p) = k * 2 ^ p := by
    refine roundHalfEven_eq ?_ ?_
    · push_cast
      gcongr
    · push_cast
      calc q * 2 ^ p < (k + 1 / 2 ^ (p + 1)) * 2 ^ p := by gcongr
        _ = k * 2 ^ p + 1 / 2 := by
          rw [pow_succ]
          field_simp
  rw [round_eq is, rounded]
  push_cast
  field_simp

end

end AflLive.Binary64
