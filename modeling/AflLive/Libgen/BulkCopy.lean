import AflLive.Libgen.Populate
import AflLive.Common

/-! The two ways `PointerType::populateFromBuffer` fills a buffer of scalars. The
element loop reads zeros behind the end of the input; the copy reads whatever
the test-case memory holds there. -/
namespace AflLive.Libgen
open Bytes Control

/-- The scalars whose value fits the 32-bit readers. -/
def Ty.Narrow : Ty → Prop
  | .integer bitWidth => bitWidth = 8 ∨ bitWidth = 16 ∨ bitWidth = 32
  | .floating bitWidth => bitWidth = 32
  | _ => False

/-- The loop the source takes for every other pointee, on a scalar one. -/
def perElement (P : Platform) (structs : Nat → StructType) (buffer : Image) (bufferSize fuel : Nat) (pointee : Ty)
    (count pointeeSize res : Nat) (s : Nat × Heap) : Except Fault (Nat × Heap) :=
  forTo (fun i s => populateFromBuffer P structs buffer bufferSize fuel pointee s.1
    (res + i * pointeeSize % 2 ^ 32) [] s.2) count s

/-- What a caller sees of a filled buffer: the final offset and the elements. -/
def elements (res n : Nat) (r : Except Fault (Nat × Heap)) : Except Fault (Nat × List UInt8) :=
  r.map fun s => (s.1, s.2.bytes.peek res n)

section
variable {P : Platform} {structs : Nat → StructType} {buffer : Image} {bufferSize fuel offset addr res count : Nat}
  {type : Ty} {size : Nat} {h : Heap} {cs : List Constraint}

theorem populateScalar_reads {n : Nat} {reader : Image → Nat → Nat → Nat × Nat} {lhsType : LhsType}
    (reads : Reads n reader) (width : lhsType.copySize = n)
    (passes : runConstraints h lhsType cs (value (window buffer bufferSize offset n)) =
      .ok (value (window buffer bufferSize offset n))) :
    populateScalar (.ok (reader buffer bufferSize offset)) lhsType addr cs h =
      (h.store addr (window buffer bufferSize offset n)).map (advance bufferSize offset n, ·) := by
  have bytes : number n (value (window buffer bufferSize offset n)) = window buffer bufferSize offset n := by
    have same := number_value (window buffer bufferSize offset n)
    rwa [window_length] at same
  simp only [populateScalar, reads buffer bufferSize offset, ok_bind, passes, width, bytes]
  cases h.store addr (window buffer bufferSize offset n) <;> rfl

/-- Populating a narrow scalar stores the next bytes of the input, unless a
constraint changes them. -/
theorem populate_narrow (narrow : type.Narrow) (known : getSize structs type = .ok size)
    (passes : runConstraints h type.lhsType cs (value (window buffer bufferSize offset size)) =
      .ok (value (window buffer bufferSize offset size))) :
    populateFromBuffer P structs buffer bufferSize (fuel + 1) type offset addr cs h =
      (h.store addr (window buffer bufferSize offset size)).map (advance bufferSize offset size, ·) := by
  cases type with
  | integer bitWidth =>
    cases known
    rcases narrow with rfl | rfl | rfl
    · exact populateScalar_reads reads_one rfl passes
    · exact populateScalar_reads reads_two rfl passes
    · exact populateScalar_reads reads_four rfl passes
  | floating bitWidth =>
    cases known
    obtain rfl : bitWidth = 32 := narrow
    exact populateScalar_reads reads_four rfl passes
  | pointer | struct | array | unsupported => exact narrow.elim

theorem populate_narrow_plain (narrow : type.Narrow) (known : getSize structs type = .ok size) :
    populateFromBuffer P structs buffer bufferSize (fuel + 1) type offset addr [] h =
      (h.store addr (window buffer bufferSize offset size)).map (advance bufferSize offset size, ·) :=
  populate_narrow narrow known rfl

theorem bulkCopy_eq (writable : h.readable res (count * size % 2 ^ 32) = true) :
    bulkCopy buffer count size res (offset, h) =
      .ok ((offset + count * size % 2 ^ 32) % 2 ^ 32,
        { h with bytes := h.bytes.poke res (buffer.peek offset (count * size % 2 ^ 32)) }) := by
  have stored : h.store res (buffer.peek offset (count * size % 2 ^ 32)) =
      .ok { h with bytes := h.bytes.poke res (buffer.peek offset (count * size % 2 ^ 32)) } :=
    Heap.store_eq_ok.mpr ⟨by rw [Image.peek_length]; exact writable, rfl⟩
  simp only [bulkCopy, stored, ok_bind]
  rfl

/-- Inside the input both ways copy the bytes of the buffer. -/
theorem perElement_inside (narrow : type.Narrow) (known : getSize structs type = .ok size)
    (region : h.Region res (res + count * size)) (inside : offset + count * size ≤ bufferSize)
    (small : bufferSize < 2 ^ 32) :
    perElement P structs buffer bufferSize (fuel + 1) type count size res (offset, h) =
      .ok (offset + count * size, { h with bytes := h.bytes.poke res (buffer.peek offset (count * size)) }) := by
  refine Ensures.eq_ok (forTo_ensures (I := fun i s => s = (offset + i * size,
    { h with bytes := h.bytes.poke res (buffer.peek offset (i * size)) })) count (by simp [Image.peek]) ?_)
  rintro i before _ rfl
  have next : i * size + size ≤ count * size := by nlinarith
  have unwrapped : i * size % 2 ^ 32 = i * size := Nat.mod_eq_of_lt (by omega)
  have stored : ({ h with bytes := h.bytes.poke res (buffer.peek offset (i * size)) } : Heap).store
      (res + i * size) (buffer.peek (offset + i * size) size) =
      .ok { h with bytes := h.bytes.poke res (buffer.peek offset ((i + 1) * size)) } := by
    refine Heap.store_eq_ok.mpr ⟨?_, ?_⟩
    · rw [Image.peek_length]
      exact region.readable (by omega) (by omega)
    · rw [Nat.succ_mul, Image.peek_add, Image.poke_append, Image.peek_length]
  have fits : offset + i * size + size ≤ bufferSize := by omega
  simp only [populate_narrow_plain narrow known, unwrapped, window_inside buffer fits, advance_inside fits, stored]
  simp only [Except.map, Ensures, Nat.succ_mul, Nat.add_assoc]

/-- While the input lasts, the copy does what the loop would do. -/
theorem bulkCopy_eq_perElement (scalar : 0 < count → type.Narrow ∧ 0 < fuel)
    (known : getSize structs type = .ok size) (region : h.Region res (res + count * size))
    (inside : offset + count * size ≤ bufferSize) (small : bufferSize < 2 ^ 32) :
    bulkCopy buffer count size res (offset, h) =
      perElement P structs buffer bufferSize fuel type count size res (offset, h) := by
  have unwrapped : count * size % 2 ^ 32 = count * size := Nat.mod_eq_of_lt (by omega)
  have total : (offset + count * size) % 2 ^ 32 = offset + count * size := Nat.mod_eq_of_lt (by omega)
  rw [bulkCopy_eq (region.readable le_rfl (by omega)), unwrapped, total]
  cases count with
  | zero => simp [perElement, forTo, Image.peek]
  | succ n =>
    obtain ⟨narrow, positive⟩ := scalar (Nat.succ_pos n)
    cases fuel with
    | zero => omega
    | succ fuel => rw [perElement_inside narrow known region inside small]

theorem size_pos (narrow : type.Narrow) (known : getSize structs type = .ok size) : 0 < size := by
  cases type with
  | integer bitWidth =>
    cases known
    rcases narrow with rfl | rfl | rfl <;> norm_num
  | floating bitWidth =>
    cases known
    obtain rfl : bitWidth = 32 := narrow
    norm_num
  | pointer | struct | array | unsupported => exact narrow.elim

/-- The loop always returns, with the offset of that many reads. -/
theorem perElement_ensures (narrow : type.Narrow) (known : getSize structs type = .ok size)
    (region : h.Region res (res + count * size)) {n : Nat} (below : n ≤ count) :
    Ensures (fun _ => False) (fun s => s.1 = advance bufferSize offset (n * size) ∧
        s.2.Region res (res + count * size))
      (perElement P structs buffer bufferSize (fuel + 1) type n size res (offset, h)) := by
  refine forTo_ensures (I := fun i (s : Nat × Heap) => s.1 = advance bufferSize offset (i * size) ∧
    s.2.Region res (res + count * size)) n ⟨?_, region⟩ ?_
  · rw [Nat.zero_mul]
    unfold advance
    split <;> omega
  · rintro i before ⟨position, t⟩ ⟨rfl, kept⟩
    have wrapped : i * size % 2 ^ 32 ≤ i * size := Nat.mod_le _ _
    have within : i * size + size ≤ count * size := by nlinarith
    have writable : t.readable (res + i * size % 2 ^ 32)
        (window buffer bufferSize (advance bufferSize offset (i * size)) size).length = true := by
      rw [window_length]
      exact kept.readable (by omega) (by omega)
    have stored := Heap.store_eq_ok.mpr ⟨writable, rfl⟩
    simp only [populate_narrow_plain narrow known, stored]
    refine ⟨?_, kept.canonical, kept.mapped⟩
    rw [advance_add, Nat.succ_mul]

/-- Behind the end of the input the loop stores a zero where the last element
ends. -/
theorem perElement_past (narrow : type.Narrow) (known : getSize structs type = .ok size)
    (region : h.Region res (res + count * size)) (start : offset ≤ bufferSize)
    (past : bufferSize < offset + count * size) :
    Ensures (fun _ => False) (fun s => ∃ pos < count * size, s.2.bytes (res + pos) = 0)
      (perElement P structs buffer bufferSize (fuel + 1) type count size res (offset, h)) := by
  have positive := size_pos narrow known
  cases count with
  | zero => omega
  | succ n =>
    have total : (n + 1) * size = n * size + size := Nat.succ_mul n size
    refine Ensures.bind (perElement_ensures narrow known region (Nat.le_succ n)) ?_
    rintro ⟨position, t⟩ ⟨rfl, kept⟩
    have wrapped : n * size % 2 ^ 32 ≤ n * size := Nat.mod_le _ _
    have writable : t.readable (res + n * size % 2 ^ 32)
        (window buffer bufferSize (advance bufferSize offset (n * size)) size).length = true := by
      rw [window_length]
      exact kept.readable (by omega) (by omega)
    have stored := Heap.store_eq_ok.mpr ⟨writable, rfl⟩
    simp only [populate_narrow_plain narrow known, stored]
    refine ⟨n * size % 2 ^ 32 + (size - 1), by omega, ?_⟩
    have last : (window buffer bufferSize (advance bufferSize offset (n * size)) size)[size - 1]? = some 0 := by
      rw [window_advance, window_get buffer bufferSize _ (show size - 1 < size by omega), if_neg (by omega)]
    have place : res + (n * size % 2 ^ 32 + (size - 1)) - (res + n * size % 2 ^ 32) = size - 1 := by omega
    simp only [Image.poke, place, last, Option.getD_some]
    exact if_neg (by omega)

/-- With more elements than input, the copy ends in bytes nobody wrote: of the
test-case memory, or of the fresh block where the 32-bit length wrapped. -/
theorem bulkCopy_past {stale : UInt8} (positive : 0 < count * size)
    (past : bufferSize < offset + count * size) (unread : ∀ x, bufferSize ≤ x → buffer x = stale)
    (fresh : ∀ x, h.bytes x = stale) (writable : h.readable res (count * size % 2 ^ 32) = true) :
    ∃ offset', ∃ bytes : Image, bulkCopy buffer count size res (offset, h) = .ok (offset', { h with bytes }) ∧
      bytes (res + (count * size - 1)) = stale := by
  refine ⟨_, _, bulkCopy_eq writable, ?_⟩
  have place : res + (count * size - 1) - res = count * size - 1 := by omega
  simp only [Image.poke, place, if_neg (show ¬ res + (count * size - 1) < res by omega)]
  by_cases short : count * size < 2 ^ 32
  · rw [Nat.mod_eq_of_lt short, Image.peek_get buffer offset (show count * size - 1 < count * size by omega),
      Option.getD_some]
    exact unread _ (by omega)
  · have wrapped : count * size % 2 ^ 32 < 2 ^ 32 := Nat.mod_lt _ (by norm_num)
    rw [List.getElem?_eq_none (by rw [Image.peek_length]; omega), Option.getD_none]
    exact fresh _

/-- The copy and the element loop return the same thing. -/
def CopyAgrees (P : Platform) (structs : Nat → StructType) (fuel : Nat) (type : Ty) (size count res offset bufferSize : Nat)
    (h : Heap) : Prop :=
  ∀ (buffer bytes : Image),
    elements res (count * size) (bulkCopy buffer count size res (offset, { h with bytes })) =
      elements res (count * size) (perElement P structs buffer bufferSize fuel type count size res
        (offset, { h with bytes }))

/-- Memories that hold the same input give the same buffer. -/
def CopyDetermined (size count res offset bufferSize : Nat) (h : Heap) : Prop :=
  ∀ buffer buffer' bytes bytes' : Image, (∀ x < bufferSize, buffer x = buffer' x) →
    elements res (count * size) (bulkCopy buffer count size res (offset, { h with bytes })) =
      elements res (count * size) (bulkCopy buffer' count size res (offset, { h with bytes := bytes' }))

theorem copyAgrees_iff (narrow : type.Narrow) (known : getSize structs type = .ok size)
    (start : offset ≤ bufferSize) (small : bufferSize < 2 ^ 32) (region : h.Region res (res + count * size)) :
    CopyAgrees P structs (fuel + 1) type size count res offset bufferSize h ↔
      offset + count * size ≤ bufferSize := by
  have writable : ∀ bytes : Image, ({ h with bytes } : Heap).readable res (count * size % 2 ^ 32) = true :=
    fun _ => region.readable le_rfl (by have := Nat.mod_le (count * size) (2 ^ 32); omega)
  constructor
  · intro agrees
    by_contra past
    -- with ones everywhere the copy has no zero to show for the last read
    have same := agrees (fun _ => 1) (fun _ => 1)
    have loop : Ensures (fun _ => False) _ (perElement P structs (fun _ => 1) bufferSize (fuel + 1) type count size
        res (offset, { h with bytes := fun _ => 1 })) :=
      perElement_past narrow known ⟨region.canonical, region.mapped⟩ start (by omega)
    cases ran : perElement P structs (fun _ => 1) bufferSize (fuel + 1) type count size res
        (offset, { h with bytes := fun _ => 1 }) with
    | error e =>
      rw [ran] at loop
      exact loop
    | ok s =>
      rw [ran] at loop same
      obtain ⟨pos, inside, zero⟩ := loop
      rw [bulkCopy_eq (writable _)] at same
      simp only [elements, Except.map, Except.ok.injEq, Prod.mk.injEq, Image.peek_eq_iff] at same
      have one := same.2 (res + pos) (by omega) (by omega)
      rw [zero, Image.poke_const (fun _ => rfl) (fun _ => rfl)] at one
      exact absurd one (by decide)
  · intro inside buffer bytes
    have kept : ({ h with bytes } : Heap).Region res (res + count * size) := ⟨region.canonical, region.mapped⟩
    rw [bulkCopy_eq_perElement (fun _ => ⟨narrow, Nat.succ_pos fuel⟩) known kept inside small]

theorem copyDetermined_iff (start : offset ≤ bufferSize) (small : bufferSize < 2 ^ 32)
    (region : h.Region res (res + count * size)) :
    CopyDetermined size count res offset bufferSize h ↔ offset + count * size ≤ bufferSize := by
  have writable : ∀ bytes : Image, ({ h with bytes } : Heap).readable res (count * size % 2 ^ 32) = true :=
    fun _ => region.readable le_rfl (by have := Nat.mod_le (count * size) (2 ^ 32); omega)
  constructor
  · intro determined
    by_contra past
    have some : 0 < count * size := by omega
    have beyond : bufferSize < offset + count * size := by omega
    -- two memories that differ behind the input and in the fresh block
    have same := determined (fun x => if x < bufferSize then 0 else 1) (fun _ => 0) (fun _ => 1) (fun _ => 0)
      (fun x below => if_pos below)
    obtain ⟨_, b, left, one⟩ : ∃ o, ∃ b : Image, bulkCopy (fun x => if x < bufferSize then 0 else 1) count size res
        (offset, { h with bytes := fun _ => 1 }) = .ok (o, { h with bytes := b }) ∧
        b (res + (count * size - 1)) = 1 :=
      bulkCopy_past some beyond (fun x above => if_neg (by omega)) (fun _ => rfl) (writable fun _ => 1)
    obtain ⟨_, b', right, zero⟩ : ∃ o, ∃ b : Image, bulkCopy (fun _ => 0) count size res
        (offset, { h with bytes := fun _ => 0 }) = .ok (o, { h with bytes := b }) ∧
        b (res + (count * size - 1)) = 0 :=
      bulkCopy_past some beyond (fun x above => rfl) (fun _ => rfl) (writable fun _ => 0)
    rw [left, right] at same
    simp only [elements, Except.map, Except.ok.injEq, Prod.mk.injEq, Image.peek_eq_iff] at same
    have last := same.2 (res + (count * size - 1)) (by omega) (by omega)
    rw [one, zero] at last
    exact absurd last (by decide)
  · intro inside buffer buffer' bytes bytes' agree
    have unwrapped : count * size % 2 ^ 32 = count * size := Nat.mod_eq_of_lt (by omega)
    have input : buffer.peek offset (count * size) = buffer'.peek offset (count * size) :=
      Image.peek_congr fun x lower upper => agree x (by omega)
    have filled : ∀ bytes : Image, (bytes.poke res (buffer'.peek offset (count * size))).peek res (count * size) =
        buffer'.peek offset (count * size) := by
      intro bytes
      have wrote := Image.peek_poke bytes res (buffer'.peek offset (count * size))
      rwa [Image.peek_length] at wrote
    rw [bulkCopy_eq (writable _), bulkCopy_eq (writable _), unwrapped, input]
    simp only [elements, Except.map, filled]

/-- The memcpy branch agrees with the element loop, and depends on the input
only, exactly when the input holds all the bytes the count asks for. -/
theorem bulkCopy_faithful_iff (narrow : type.Narrow) (known : getSize structs type = .ok size)
    (start : offset ≤ bufferSize) (small : bufferSize < 2 ^ 32) (region : h.Region res (res + count * size)) :
    (CopyAgrees P structs (fuel + 1) type size count res offset bufferSize h ↔
      offset + count * size ≤ bufferSize) ∧
    (CopyDetermined size count res offset bufferSize h ↔ offset + count * size ≤ bufferSize) :=
  ⟨copyAgrees_iff narrow known start small region, copyDetermined_iff start small region⟩

end

theorem bulkCopy_faithful_at_six_bytes :
    (CopyAgrees (bumpPlatform 0x2000 []) (fun _ => ⟨0, []⟩) 1 (.integer 16) 2 3 0x1000 4 10
      ⟨fun _ => 0, fun _ => true, [], []⟩ ↔ 4 + 3 * 2 ≤ 10) ∧
    (CopyDetermined 2 3 0x1000 4 10 ⟨fun _ => 0, fun _ => true, [], []⟩ ↔ 4 + 3 * 2 ≤ 10) :=
  bulkCopy_faithful_iff (.inr (.inl rfl)) rfl (by norm_num) (by norm_num) ⟨by norm_num, fun _ _ _ => rfl⟩

/-- `afl_fsrv_write_to_testcase` on the shared memory: the new input overwrites
as much of the old one as it is long. -/
def writeToTestcase (shmem : Image) (input : List UInt8) : Image × Nat :=
  (shmem.poke 0 (input.take maxFile), (input.take maxFile).length)

/-- The memory after an input of five bytes and then one of four. -/
def afterLongerInput (last : UInt8) : Image × Nat :=
  writeToTestcase (writeToTestcase (fun _ => 0) [7, 7, 7, 7, last]).1 [1, 0, 0, 0]

/-- The byte behind the pointer stored at an address. -/
def firstElement (slot : Nat) (r : Except Fault (Nat × Heap)) : Except Fault (List UInt8) :=
  r.map fun s => s.2.bytes.peek (value (s.2.bytes.peek slot 8)) 1

/-- One element is asked for and none is left: the argument is the last byte of
the previous input, where the element loop reads zero. -/
theorem stale_byte_reaches_argument :
    (∀ x < (afterLongerInput 65).2, (afterLongerInput 65).1 x = (afterLongerInput 66).1 x) ∧
    firstElement 0x1000 (populateFromBuffer (bumpPlatform 0x2000 []) (fun _ => ⟨0, []⟩) (afterLongerInput 65).1
      (afterLongerInput 65).2 2 (.pointer (.integer 8)) 0 0x1000 [] ⟨fun _ => 0, fun _ => true, [], []⟩) = .ok [65] ∧
    firstElement 0x1000 (populateFromBuffer (bumpPlatform 0x2000 []) (fun _ => ⟨0, []⟩) (afterLongerInput 66).1
      (afterLongerInput 66).2 2 (.pointer (.integer 8)) 0 0x1000 [] ⟨fun _ => 0, fun _ => true, [], []⟩) = .ok [66] ∧
    elements 0x2010 1 (perElement (bumpPlatform 0x2000 []) (fun _ => ⟨0, []⟩) (afterLongerInput 65).1
      (afterLongerInput 65).2 1 (.integer 8) 1 1 0x2010 (4, ⟨fun _ => 0, fun _ => true, [], []⟩)) = .ok (4, [0]) := by
  decide +kernel

end AflLive.Libgen
