import AflLive.Libgen.BulkCopy
import AflLive.Libgen.Serialize

/-! The scalar codec: what `serializeToBuffer` writes for an integer or a floating-point number,
and what `populateFromBuffer` makes of it. -/
namespace AflLive.Libgen
open Bytes Control

/-- The scalars read with `getBuffEight`. -/
def Ty.Wide : Ty → Prop
  | .integer bitWidth => bitWidth = 64
  | .floating bitWidth => bitWidth = 64
  | _ => False

/-- The bit widths of the two `switch` statements. -/
def Ty.Scalar : Ty → Prop
  | .integer bitWidth => bitWidth = 8 ∨ bitWidth = 16 ∨ bitWidth = 32 ∨ bitWidth = 64
  | .floating bitWidth => bitWidth = 32 ∨ bitWidth = 64
  | _ => False

theorem Ty.Scalar.narrow_or_wide {type : Ty} (scalar : type.Scalar) : type.Narrow ∨ type.Wide := by
  cases type with
  | integer bitWidth =>
    rcases scalar with width | width | width | width
    · exact .inl (.inl width)
    · exact .inl (.inr (.inl width))
    · exact .inl (.inr (.inr width))
    · exact .inr width
  | floating bitWidth => exact scalar
  | pointer | struct | array | unsupported => exact scalar.elim

section
variable {P : Platform} {structs : Nat → StructType} {buffer : Image} {bufferSize fuel offset addr size : Nat}
  {type : Ty} {h : Heap}

/-- The bytes the caller of `getBuffEight` gets. The upper half is not the second number that was
read, but what the platform makes of the missing conversion. -/
def eightBytes (P : Platform) (buffer : Image) (bufferSize offset : Nat) : List UInt8 :=
  window buffer bufferSize offset 4 ++ number 4 (P.eightUpper (value (window buffer bufferSize offset 4))
    (value (window buffer bufferSize (offset + 4) 4)))

theorem getBuffEight_eq : getBuffEight P buffer bufferSize offset =
    (value (eightBytes P buffer bufferSize offset), advance bufferSize offset 8) := by
  have small := value_lt (window buffer bufferSize offset 4)
  rw [window_length] at small
  have low : (value (window buffer bufferSize offset 4) +
      2 ^ 32 * value (window buffer bufferSize (offset + 4) 4)) % 2 ^ 32 =
        value (window buffer bufferSize offset 4) := by
    omega
  simp only [getBuffEight, eightBytes, reads_four _ _ _, window_advance, advance_add, join_eq (k := 32) small, low,
    value_append, value_number, window_length]
  rw [Nat.mul_comm]
  norm_num

theorem populate_wide (wide : type.Wide) :
    populateFromBuffer P structs buffer bufferSize (fuel + 1) type offset addr [] h =
      (h.store addr (eightBytes P buffer bufferSize offset)).map (advance bufferSize offset 8, ·) := by
  have bytes : number 8 (value (eightBytes P buffer bufferSize offset)) = eightBytes P buffer bufferSize offset := by
    have same := number_value (eightBytes P buffer bufferSize offset)
    rwa [eightBytes, List.length_append, window_length, number_length] at same
  have scalar : ∀ lhsType : LhsType, lhsType.copySize = 8 →
      populateScalar (.ok (getBuffEight P buffer bufferSize offset)) lhsType addr [] h =
        (h.store addr (eightBytes P buffer bufferSize offset)).map (advance bufferSize offset 8, ·) := by
    intro lhsType width
    have unchanged : ∀ lhs, runConstraints h lhsType [] lhs = .ok lhs := fun _ => rfl
    simp only [populateScalar, getBuffEight_eq, ok_bind, unchanged, width, bytes]
    cases h.store addr (eightBytes P buffer bufferSize offset) <;> rfl
  cases type with
  | integer bitWidth =>
    obtain rfl : bitWidth = 64 := wide
    exact scalar _ rfl
  | floating bitWidth =>
    obtain rfl : bitWidth = 64 := wide
    exact scalar _ rfl
  | pointer | struct | array | unsupported => exact wide.elim

/-- Inside the input, the bytes are those of the buffer up to the upper half. -/
theorem eightBytes_inside (inside : offset + 8 ≤ bufferSize) :
    eightBytes P buffer bufferSize offset = buffer.peek offset 8 ↔
      P.eightUpper (value (buffer.peek offset 4)) (value (buffer.peek (offset + 4) 4)) % 2 ^ 32 =
        value (buffer.peek (offset + 4) 4) := by
  have upper := @number_eq_iff (buffer.peek (offset + 4) 4)
  have power : (256 : Nat) ^ 4 = 2 ^ 32 := by norm_num
  rw [Image.peek_length, power] at upper
  rw [eightBytes, window_inside buffer (by omega), window_inside buffer (by omega), Image.peek_add buffer offset 4 4,
    List.append_cancel_left_eq, upper]

/-- What comes back of the scalar at `addr`: it is written at the offset of `r`, and read from there
to `dest`, whatever else is in the buffer by then. -/
def RoundTrips (P : Platform) (structs : Nat → StructType) (type : Ty) (size : Nat) (cs : List Constraint)
    (host : Heap) (addr : Nat) (r : Recording) (bufferSize : Nat) (h : Heap) (dest : Nat) : Prop :=
  ∃ s, serializeToBuffer P structs host 1 type addr cs r = .ok s ∧ s.offset = r.offset + size ∧
    ∀ buffer : Image, buffer.peek r.offset size = s.buffer.peek r.offset size →
      ∃ t, populateFromBuffer P structs buffer bufferSize 1 type r.offset dest [] h = .ok (r.offset + size, t) ∧
        t.bytes.peek dest size = host.bytes.peek addr size

theorem serialize_scalar (scalar : type.Scalar) (known : getSize structs type = .ok size) (cs : List Constraint)
    (readable : h.readable addr size = true) (r : Recording) :
    serializeToBuffer P structs h (fuel + 1) type addr cs r = .ok (r.emit (h.bytes.peek addr size)) := by
  have emitted : serializeScalar h addr size r = .ok (r.emit (h.bytes.peek addr size)) := by
    rw [serializeScalar, Heap.load_eq_ok.mpr ⟨readable, rfl⟩]
    rfl
  cases type with
  | integer bitWidth =>
    cases known
    exact emitted
  | floating bitWidth =>
    cases known
    exact emitted
  | pointer | struct | array | unsupported => exact scalar.elim

/-- A decoder that stores `bytes` and advances by their number. -/
theorem stores_iff {buffer : Image} {bytes expected : List UInt8} {dest : Nat} (length : bytes.length = size)
    (writable : h.readable dest size = true)
    (decodes : populateFromBuffer P structs buffer bufferSize 1 type offset dest [] h =
      (h.store dest bytes).map (offset + size, ·)) :
    (∃ t, populateFromBuffer P structs buffer bufferSize 1 type offset dest [] h = .ok (offset + size, t) ∧
      t.bytes.peek dest size = expected) ↔ bytes = expected := by
  have stored := Heap.store_eq_ok.mpr ⟨length.symm ▸ writable, rfl⟩
  have back : (h.bytes.poke dest bytes).peek dest size = bytes := length ▸ Image.peek_poke _ _ _
  rw [decodes, stored]
  constructor
  · rintro ⟨t, same, read⟩
    cases same
    exact back.symm.trans read
  · rintro rfl
    exact ⟨_, rfl, back⟩

end

theorem Ty.Wide.size_eq {structs : Nat → StructType} {type : Ty} {size : Nat} (wide : type.Wide)
    (known : getSize structs type = .ok size) : size = 8 := by
  cases type with
  | integer bitWidth | floating bitWidth =>
    obtain rfl : bitWidth = 64 := wide
    cases known
    rfl
  | pointer | struct | array | unsupported => exact wide.elim

theorem Ty.Narrow.not_wide {type : Ty} (narrow : type.Narrow) : ¬type.Wide := by
  cases type with
  | integer bitWidth | floating bitWidth =>
    rintro rfl
    simp [Ty.Narrow] at narrow
  | pointer | struct | array | unsupported => exact narrow.elim

/-- A scalar comes back exactly if it is at most 32 bits wide or the caller of `getBuffEight` happens
to find the upper half of the value in the register. -/
theorem scalar_round_trips_iff {P : Platform} {structs : Nat → StructType} {type : Ty} {size addr dest bufferSize : Nat}
    {host h : Heap} {r : Recording} (scalar : type.Scalar) (known : getSize structs type = .ok size)
    (cs : List Constraint) (readable : host.readable addr size = true) (writable : h.readable dest size = true)
    (room : r.offset + size ≤ bufferSize) (small : bufferSize < 2 ^ 32) :
    RoundTrips P structs type size cs host addr r bufferSize h dest ↔
      (type.Wide → P.eightUpper (value (host.bytes.peek addr 4)) (value (host.bytes.peek (addr + 4) 4)) % 2 ^ 32 =
        value (host.bytes.peek (addr + 4) 4)) := by
  have written : (r.emit (host.bytes.peek addr size)).buffer.peek r.offset size = host.bytes.peek addr size := by
    have back := Image.peek_poke r.buffer r.offset (host.bytes.peek addr size)
    rwa [Image.peek_length] at back
  have moved : (r.emit (host.bytes.peek addr size)).offset = r.offset + size := by
    rw [Recording.emit, Image.peek_length]
    exact Nat.mod_eq_of_lt (by omega)
  have serialized := @serialize_scalar P structs 0 addr size type host scalar known cs readable r
  -- What the decoder does with any buffer that holds the value there.
  have decoded : ∀ buffer : Image, buffer.peek r.offset size = host.bytes.peek addr size →
      ((∃ t, populateFromBuffer P structs buffer bufferSize 1 type r.offset dest [] h = .ok (r.offset + size, t) ∧
        t.bytes.peek dest size = host.bytes.peek addr size) ↔
      (type.Wide → P.eightUpper (value (host.bytes.peek addr 4)) (value (host.bytes.peek (addr + 4) 4)) % 2 ^ 32 =
        value (host.bytes.peek (addr + 4) 4))) := by
    intro buffer holds
    cases scalar.narrow_or_wide with
    | inl narrow =>
      have plain := @populate_narrow_plain P structs buffer bufferSize 0 r.offset dest type size h narrow known
      rw [window_inside buffer room, advance_inside room] at plain
      rw [stores_iff (Image.peek_length _ _ _) writable plain]
      exact ⟨fun _ wide => absurd wide narrow.not_wide, fun _ => holds⟩
    | inr wide =>
      obtain rfl := wide.size_eq known
      have plain := @populate_wide P structs buffer bufferSize 0 r.offset dest type h wide
      rw [advance_inside room] at plain
      have halves := holds
      rw [Image.peek_add buffer _ 4 4, Image.peek_add host.bytes _ 4 4] at halves
      obtain ⟨low, high⟩ := List.append_inj halves (by simp)
      rw [stores_iff (by simp [eightBytes]) writable plain, ← holds, eightBytes_inside room, low, high]
      exact ⟨fun upper _ => upper, fun upper => upper wide⟩
  constructor
  · rintro ⟨s, same, _, back⟩
    rw [serialized] at same
    cases same
    exact (decoded _ written).mp (back _ rfl)
  · intro upper
    exact ⟨_, serialized, moved, fun buffer holds => (decoded buffer (holds.trans written)).mpr upper⟩

/-- A host with eight bytes at 0, and a recording of nothing. -/
def wordHost (word : Nat) : Heap where
  bytes := Image.poke (fun _ => 0) 0 (number 8 word)
  mapped := fun x => decide (x < 8)
  blocks := []
  file := []

def emptyRecording : Recording := ⟨fun _ => 0, 0, false, []⟩

theorem word_round_trips : RoundTrips (bumpPlatform 0 []) (fun _ => ⟨0, []⟩) (.integer 32) 4 [] (wordHost 0x12345678) 0
    emptyRecording 4 (wordHost 0) 0 :=
  (scalar_round_trips_iff (by simp [Ty.Scalar]) rfl [] (by decide) (by decide) (by decide) (by decide)).mpr
    fun wide => absurd wide (by simp [Ty.Wide])

/-- Where the upper half of the register is clear, 2³² comes back as 0. -/
theorem upper_half_lost : ∃ s, serializeToBuffer (bumpPlatform 0 []) (fun _ => ⟨0, []⟩) (wordHost (2 ^ 32)) 1
      (.integer 64) 0 [] emptyRecording = .ok s ∧ s.buffer.peek 0 8 = number 8 (2 ^ 32) ∧
    ∃ t, populateFromBuffer (bumpPlatform 0 []) (fun _ => ⟨0, []⟩) s.buffer 8 1 (.integer 64) 0 0 [] (wordHost 1) =
      .ok (8, t) ∧ t.bytes.peek 0 8 = number 8 0 := by
  refine ⟨_, rfl, ?_, _, rfl, ?_⟩
  · decide +kernel
  · decide +kernel

end AflLive.Libgen
