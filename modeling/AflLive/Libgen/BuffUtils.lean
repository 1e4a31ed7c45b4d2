import AflLive.Libgen.Heap

/-! The byte readers of `buff_utils.cc`. Each wider reader calls the narrower
one twice; clang evaluates the operands of `|` left to right. The buffer is
what the address space holds from the start of the test case on, so that bytes
behind its end exist and can differ from run to run. -/
namespace AflLive.Libgen
open Bytes

def getBuffOne (buffer : Image) (bufferSize offset : Nat) : Nat × Nat :=
  if offset < bufferSize then ((buffer offset).toNat, offset + 1) else (0, offset)

def getBuffTwo (buffer : Image) (bufferSize offset : Nat) : Nat × Nat :=
  let low := getBuffOne buffer bufferSize offset
  let high := getBuffOne buffer bufferSize low.2
  (low.1 ||| high.1 <<< 8, high.2)

def getBuffFour (buffer : Image) (bufferSize offset : Nat) : Nat × Nat :=
  let low := getBuffTwo buffer bufferSize offset
  let high := getBuffTwo buffer bufferSize low.2
  (low.1 ||| high.1 <<< 16, high.2)

/-- The definition returns `unsigned int`; the caller, which sees another
declaration, takes the upper half from the register. -/
def getBuffEight (P : Platform) (buffer : Image) (bufferSize offset : Nat) : Nat × Nat :=
  let low := getBuffFour buffer bufferSize offset
  let high := getBuffFour buffer bufferSize low.2
  ((low.1 ||| high.1 <<< 32) % 2 ^ 32 + P.eightUpper low.1 high.1 % 2 ^ 32 * 2 ^ 32, high.2)

/-- The next `n` bytes of the input, with zeros behind its end. -/
def window (buffer : Image) (bufferSize : Nat) : Nat → Nat → List UInt8
  | _, 0 => []
  | offset, n + 1 =>
    (if offset < bufferSize then buffer offset else 0) :: window buffer bufferSize (offset + 1) n

/-- The offset after reading `n` bytes: it stops at the end of the input. -/
def advance (bufferSize offset n : Nat) : Nat :=
  if offset < bufferSize then min (offset + n) bufferSize else offset

@[simp] theorem window_length (buffer : Image) (bufferSize offset n : Nat) :
    (window buffer bufferSize offset n).length = n := by
  induction n generalizing offset with
  | zero => rfl
  | succ n ih => simp only [window, List.length_cons, ih]

theorem window_get (buffer : Image) (bufferSize offset : Nat) {i n : Nat} (inside : i < n) :
    (window buffer bufferSize offset n)[i]? =
      some (if offset + i < bufferSize then buffer (offset + i) else 0) := by
  induction n generalizing offset i with
  | zero => omega
  | succ n ih =>
    cases i with
    | zero => rfl
    | succ i =>
      have next := ih (offset + 1) (show i < n by omega)
      rw [show offset + 1 + i = offset + (i + 1) by omega] at next
      simpa only [window, List.getElem?_cons_succ] using next

theorem window_add (buffer : Image) (bufferSize offset k n : Nat) :
    window buffer bufferSize offset (k + n) =
      window buffer bufferSize offset k ++ window buffer bufferSize (offset + k) n := by
  induction k generalizing offset with
  | zero => simp [window]
  | succ k ih =>
    rw [show k + 1 + n = k + n + 1 by omega]
    simp only [window, ih, List.cons_append]
    rw [show offset + 1 + k = offset + (k + 1) by omega]

theorem window_advance (buffer : Image) (bufferSize offset k n : Nat) :
    window buffer bufferSize (advance bufferSize offset k) n =
      window buffer bufferSize (offset + k) n := by
  apply List.ext_getElem?
  intro i
  by_cases inside : i < n
  · rw [window_get _ _ _ inside, window_get _ _ _ inside]
    unfold advance
    split
    · rename_i before
      by_cases reached : offset + k ≤ bufferSize
      · rw [Nat.min_eq_left reached]
      · rw [Nat.min_eq_right (by omega), if_neg (by omega), if_neg (by omega)]
    · rw [if_neg (by omega), if_neg (by omega)]
  · rw [List.getElem?_eq_none (by simpa using inside), List.getElem?_eq_none (by simpa using inside)]

theorem advance_add (bufferSize offset k n : Nat) :
    advance bufferSize (advance bufferSize offset k) n = advance bufferSize offset (k + n) := by
  unfold advance
  split
  · split <;> omega
  · rfl

/-- Inside the input the window is the buffer and the offset moves by `n`. -/
theorem window_inside (buffer : Image) {bufferSize offset n : Nat} (inside : offset + n ≤ bufferSize) :
    window buffer bufferSize offset n = buffer.peek offset n := by
  induction n generalizing offset with
  | zero => rfl
  | succ n ih => simp only [window, Image.peek, if_pos (show offset < bufferSize by omega),
      ih (show offset + 1 + n ≤ bufferSize by omega)]

theorem advance_inside {bufferSize offset n : Nat} (inside : offset + n ≤ bufferSize) :
    advance bufferSize offset n = offset + n := by
  unfold advance
  split <;> omega

/-- A reader takes the next `n` bytes as a little-endian number. -/
def Reads (n : Nat) (reader : Image → Nat → Nat → Nat × Nat) : Prop :=
  ∀ buffer bufferSize offset, reader buffer bufferSize offset =
    (value (window buffer bufferSize offset n), advance bufferSize offset n)

theorem reads_one : Reads 1 getBuffOne := by
  intro buffer bufferSize offset
  unfold getBuffOne advance
  split
  · rename_i before
    simp only [window, before, if_true, value]
    rw [Nat.min_eq_left (by omega)]
    simp
  · rename_i past
    simp [window, past, value]

theorem join_eq {k low : Nat} (small : low < 2 ^ k) (high : Nat) :
    low ||| high <<< k = low + 2 ^ k * high := by
  rw [Nat.shiftLeft_eq, Nat.mul_comm high, Nat.or_comm, ← Nat.two_pow_add_eq_or_of_lt small,
    Nat.add_comm]

/-- Two calls of an `n`-byte reader, joined by shift and or, read `2 * n` bytes. -/
theorem Reads.twice {n : Nat} {reader : Image → Nat → Nat → Nat × Nat} (reads : Reads n reader)
    (buffer : Image) (bufferSize offset : Nat) :
    let low := reader buffer bufferSize offset
    let high := reader buffer bufferSize low.2
    (low.1 ||| high.1 <<< (8 * n), high.2) =
      (value (window buffer bufferSize offset (n + n)), advance bufferSize offset (n + n)) := by
  intro low high
  have power : (256 : Nat) ^ n = 2 ^ (8 * n) := by rw [Nat.pow_mul]
  have small := value_lt (window buffer bufferSize offset n)
  rw [window_length, power] at small
  simp only [low, high, reads _ _ _, window_advance, advance_add, join_eq small,
    window_add buffer bufferSize offset n n, value_append, window_length, power]

theorem reads_two : Reads 2 getBuffTwo := fun buffer bufferSize offset =>
  reads_one.twice buffer bufferSize offset

theorem reads_four : Reads 4 getBuffFour := fun buffer bufferSize offset =>
  reads_two.twice buffer bufferSize offset

theorem getBuffFour_lt (buffer : Image) (bufferSize offset : Nat) :
    (getBuffFour buffer bufferSize offset).1 < 2 ^ 32 := by
  have bound := value_lt (window buffer bufferSize offset 4)
  rw [window_length] at bound
  rw [reads_four]
  exact bound

end AflLive.Libgen
