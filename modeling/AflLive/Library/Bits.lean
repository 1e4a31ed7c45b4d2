import Mathlib

/-! Sets of numbers packed into bytes. -/
namespace AflLive.Bits

abbrev Byte := BitVec 8

def get (bits : List Byte) (i : Nat) : Bool := (bits.getD (i / 8) 0#8).getLsbD (i % 8)

def insert (bits : List Byte) (i : Nat) : List Byte := bits.modify (i / 8) (· ||| 1#8 <<< (i % 8))

/-- Byte by byte, where the second set has something. -/
def diff (bits other : List Byte) : List Byte :=
  bits.zipWith (fun byte mask => if mask ≠ 0 then byte &&& ~~~mask else byte) other

variable {bits other : List Byte} {i j : Nat}

theorem get_replicate_zero (n i : Nat) : get (List.replicate n 0#8) i = false := by
  simp [get, List.getD_eq_getElem?_getD, List.getElem?_replicate]
  split <;> simp

theorem get_replicate_full {n : Nat} (inside : i < 8 * n) : get (List.replicate n 255#8) i = true := by
  have byte : i / 8 < n := by omega
  have bit : i % 8 < 8 := Nat.mod_lt _ (by omega)
  simp only [get, List.getD_eq_getElem?_getD, List.getElem?_replicate, byte, if_true, Option.getD_some]
  have ones : 255#8 = BitVec.allOnes 8 := rfl
  rw [ones, BitVec.getLsbD_allOnes, decide_eq_true_iff]
  exact bit

@[simp] theorem length_insert (bits : List Byte) (i : Nat) : (insert bits i).length = bits.length := by
  simp [insert]

theorem get_insert (inside : i < 8 * bits.length) : get (insert bits i) j = (get bits j || decide (j = i)) := by
  have bit : i % 8 < 8 := Nat.mod_lt _ (by omega)
  have other : j % 8 < 8 := Nat.mod_lt _ (by omega)
  unfold get insert
  rw [List.getD_eq_getElem?_getD, List.getD_eq_getElem?_getD, List.getElem?_modify]
  by_cases same : i / 8 = j / 8
  · have there : j / 8 < bits.length := by omega
    have equal : j = i ↔ j % 8 = i % 8 := by omega
    rw [List.getElem?_eq_getElem there]
    simp only [same, if_true, Option.map_eq_map, Option.map_some, Option.getD_some, BitVec.getLsbD_or]
    congr 1
    rw [BitVec.getLsbD_shiftLeft, Bool.eq_iff_iff]
    simp only [BitVec.getLsbD_one, Bool.and_eq_true, decide_eq_true_eq, Bool.not_eq_true', decide_eq_false_iff_not, equal]
    omega
  · have different : j ≠ i := fun eq => same (by rw [eq])
    simp [same, different]

theorem get_diff (same : bits.length = other.length) : get (diff bits other) i = (get bits i && !get other i) := by
  unfold get diff
  rw [List.getD_eq_getElem?_getD, List.getD_eq_getElem?_getD, List.getD_eq_getElem?_getD, List.getElem?_zipWith]
  by_cases inside : i / 8 < bits.length
  · have bit : i % 8 < 8 := Nat.mod_lt _ (by omega)
    rw [List.getElem?_eq_getElem inside, List.getElem?_eq_getElem (same ▸ inside)]
    simp only [Option.getD_some]
    split
    · simp [bit]
    · next none =>
      rw [not_not] at none
      simp [none]
  · rw [List.getElem?_eq_none (by omega)]
    simp

@[simp] theorem length_diff (same : bits.length = other.length) : (diff bits other).length = bits.length := by
  simp [diff, same]

end AflLive.Bits
