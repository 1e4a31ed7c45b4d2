import Mathlib

/-! Little-endian numbers and flat byte images. An image is total: what an
address holds before anything is written there stays observable, so reads of
memory nobody initialised are not excluded by the type. -/
namespace AflLive.Bytes

/-- The low `width` bytes of a value, least significant byte first. -/
def number : Nat → Nat → List UInt8
  | 0, _ => []
  | width + 1, value => UInt8.ofNat value :: number width (value / 256)

def value : List UInt8 → Nat
  | [] => 0
  | byte :: rest => byte.toNat + 256 * value rest

@[simp] theorem number_length (width n : Nat) : (number width n).length = width := by
  induction width generalizing n with
  | zero => rfl
  | succ width ih => simp only [number, List.length_cons, ih]

theorem value_lt (bytes : List UInt8) : value bytes < 256 ^ bytes.length := by
  induction bytes with
  | nil => simp [value]
  | cons byte rest ih =>
    have small := byte.toNat_lt
    simp only [value, List.length_cons, Nat.pow_succ]
    omega

theorem value_number (width n : Nat) : value (number width n) = n % 256 ^ width := by
  induction width generalizing n with
  | zero => simp [number, value, Nat.mod_one]
  | succ width ih =>
    have byte : (UInt8.ofNat n).toNat = n % 256 := UInt8.toNat_ofNat'
    simp only [number, value, ih, byte]
    rw [Nat.pow_succ', Nat.mod_mul]

theorem number_value (bytes : List UInt8) : number bytes.length (value bytes) = bytes := by
  induction bytes with
  | nil => rfl
  | cons byte rest ih =>
    have small := byte.toNat_lt
    simp only [value, List.length_cons, number]
    have head : UInt8.ofNat (byte.toNat + 256 * value rest) = byte := by
      apply UInt8.toNat_inj.mp
      simp only [UInt8.toNat_ofNat']
      omega
    have tail : (byte.toNat + 256 * value rest) / 256 = value rest := by omega
    rw [head, tail, ih]

theorem number_mod (width n : Nat) : number width (n % 256 ^ width) = number width n := by
  have same := number_value (number width n)
  rwa [number_length, value_number] at same

theorem number_eq_iff {bytes : List UInt8} {n : Nat} :
    number bytes.length n = bytes ↔ n % 256 ^ bytes.length = value bytes := by
  constructor
  · intro same
    rw [← value_number, same]
  · intro same
    rw [← number_mod, same, number_value]

theorem value_append (first second : List UInt8) :
    value (first ++ second) = value first + 256 ^ first.length * value second := by
  induction first with
  | nil => simp [value]
  | cons byte rest ih =>
    simp only [List.cons_append, value, ih, List.length_cons, Nat.pow_succ']
    ring

end AflLive.Bytes

namespace AflLive

/-- What a flat address space holds, byte by byte. -/
abbrev Image := Nat → UInt8

namespace Image
variable {m : Image} {a n : Nat} {bytes : List UInt8}

def peek (m : Image) (a : Nat) : Nat → List UInt8
  | 0 => []
  | n + 1 => m a :: peek m (a + 1) n

def poke (m : Image) (a : Nat) (bytes : List UInt8) : Image := fun x =>
  if x < a then m x else bytes[x - a]?.getD (m x)

@[simp] theorem peek_length (m : Image) (a n : Nat) : (peek m a n).length = n := by
  induction n generalizing a with
  | zero => rfl
  | succ n ih => simp only [peek, List.length_cons, ih]

theorem peek_get (m : Image) (a : Nat) {i n : Nat} (inside : i < n) :
    (peek m a n)[i]? = some (m (a + i)) := by
  induction n generalizing a i with
  | zero => omega
  | succ n ih =>
    cases i with
    | zero => rfl
    | succ i =>
      simp only [peek, List.getElem?_cons_succ, ih (a + 1) (show i < n by omega)]
      congr 2
      omega

theorem peek_congr {m m' : Image} (same : ∀ x, a ≤ x → x < a + n → m x = m' x) :
    peek m a n = peek m' a n := by
  induction n generalizing a with
  | zero => rfl
  | succ n ih =>
    simp only [peek]
    rw [same a (by omega) (by omega), ih (fun x lower upper => same x (by omega) (by omega))]

theorem peek_eq_iff {m m' : Image} :
    peek m a n = peek m' a n ↔ ∀ x, a ≤ x → x < a + n → m x = m' x := by
  refine ⟨fun same x lower upper => ?_, peek_congr⟩
  have left := peek_get m a (show x - a < n by omega)
  have right := peek_get m' a (show x - a < n by omega)
  rw [show a + (x - a) = x by omega] at left right
  exact Option.some.inj (left.symm.trans ((congrArg (·[x - a]?) same).trans right))

theorem peek_const {v : UInt8} (same : ∀ x, a ≤ x → x < a + n → m x = v) : peek m a n = List.replicate n v := by
  induction n generalizing a with
  | zero => rfl
  | succ n ih =>
    rw [peek, same a le_rfl (by omega), ih (fun x lower upper => same x (by omega) (by omega)), List.replicate_succ]

theorem peek_add (m : Image) (a k n : Nat) : peek m a (k + n) = peek m a k ++ peek m (a + k) n := by
  induction k generalizing a with
  | zero => simp [peek]
  | succ k ih =>
    rw [show k + 1 + n = k + n + 1 by omega]
    simp only [peek, ih, List.cons_append]
    rw [show a + 1 + k = a + (k + 1) by omega]

/-- Reading a concatenation is reading its parts one after the other. -/
theorem peek_append {first second : List UInt8} (read : peek m a (first ++ second).length = first ++ second) :
    peek m a first.length = first ∧ peek m (a + first.length) second.length = second := by
  rw [List.length_append, peek_add] at read
  exact List.append_inj read (peek_length m a first.length)

theorem poke_outside (m : Image) (bytes : List UInt8) {a x : Nat}
    (outside : x < a ∨ a + bytes.length ≤ x) : poke m a bytes x = m x := by
  unfold poke
  split
  · rfl
  · rw [List.getElem?_eq_none (by omega), Option.getD_none]

theorem poke_inside (m : Image) {bytes : List UInt8} {a i : Nat} (inside : i < bytes.length) :
    poke m a bytes (a + i) = bytes[i] := by
  rw [poke, if_neg (by omega), Nat.add_sub_cancel_left, List.getElem?_eq_getElem inside,
    Option.getD_some]

@[simp] theorem poke_nil (m : Image) (a : Nat) : poke m a [] = m := by
  funext x
  exact poke_outside m [] (by simp only [List.length_nil]; omega)

@[simp] theorem peek_poke (m : Image) (a : Nat) (bytes : List UInt8) :
    peek (poke m a bytes) a bytes.length = bytes := by
  apply List.ext_getElem?
  intro i
  by_cases inside : i < bytes.length
  · rw [peek_get _ _ inside, poke_inside m inside, List.getElem?_eq_getElem inside]
  · rw [List.getElem?_eq_none (by rw [peek_length]; omega), List.getElem?_eq_none (by omega)]

theorem poke_eq_iff {m' : Image} : poke m a bytes = m' ↔
    peek m' a bytes.length = bytes ∧ ∀ x, x < a ∨ a + bytes.length ≤ x → m x = m' x := by
  constructor
  · rintro rfl
    exact ⟨peek_poke m a bytes, fun x outside => (poke_outside m bytes outside).symm⟩
  · rintro ⟨read, same⟩
    funext x
    by_cases outside : x < a ∨ a + bytes.length ≤ x
    · rw [poke_outside m bytes outside, same x outside]
    · have both : peek (poke m a bytes) a bytes.length = peek m' a bytes.length := (peek_poke m a bytes).trans read.symm
      exact peek_eq_iff.mp both x (by omega) (by omega)

theorem poke_append (m : Image) (a : Nat) (first second : List UInt8) :
    poke m a (first ++ second) = poke (poke m a first) (a + first.length) second := by
  funext x
  by_cases below : x < a
  · simp only [poke, below, if_true, show x < a + first.length by omega]
  by_cases low : x < a + first.length
  · simp only [poke, below, low, if_true, if_false,
      List.getElem?_append_left (show x - a < first.length by omega)]
  · simp only [poke, below, low, if_false,
      List.getElem?_append_right (show first.length ≤ x - a by omega),
      List.getElem?_eq_none (show first.length ≤ x - a by omega), Option.getD_none]
    rw [show x - a - first.length = x - (a + first.length) by omega]

/-- Writes to separate places commute. -/
theorem poke_comm (m : Image) {a b : Nat} {first second : List UInt8} (apart : a + first.length ≤ b) :
    poke (poke m b second) a first = poke (poke m a first) b second := by
  funext x
  by_cases low : x < b
  · rw [poke_outside (poke m a first) second (.inl low)]
    simp only [poke, low, if_true]
  · have above : first.length ≤ x - a := by omega
    have notBelow : ¬ x < a := by omega
    rw [poke_outside (poke m b second) first (.inr (by omega))]
    simp only [poke, low, notBelow, if_false, List.getElem?_eq_none above, Option.getD_none]

theorem poke_const {source : Image} {v : UInt8} (same : ∀ x, m x = v) (copied : ∀ x, source x = v)
    (a b n x : Nat) : poke m a (peek source b n) x = v := by
  unfold poke
  split
  · exact same x
  · by_cases inside : x - a < n
    · rw [peek_get source b inside, Option.getD_some, copied]
    · rw [List.getElem?_eq_none (by rw [peek_length]; omega), Option.getD_none, same]

end Image
end AflLive
