import AflLive.Libgen.BuffUtils
import AflLive.Libgen.ConstraintFactory
import AflLive.Libgen.Frame

/-! `populateFromBuffer` of the five type classes. Addresses carry two tags set
by `gen_values`: bit 0 marks a dereferenced constraint list, bit 63 a file name.
Index products are taken in the 32-bit arithmetic of the source. -/
namespace AflLive.Libgen
open Bytes Control

def isDeref (addr : Nat) : Bool := addr % 2 == 1

def isFile (addr : Nat) : Bool := decide (addr >>> 63 ≠ 0)

def untag (addr : Nat) : Nat := addr &&& 0x7ffffffffffffffe

/-- The `switch` on the bit width in `IntegerType::populateFromBuffer`. -/
def readInteger (P : Platform) (buffer : Image) (bufferSize offset : Nat) : Nat → Except Fault (Nat × Nat)
  | 8 => .ok (getBuffOne buffer bufferSize offset)
  | 16 => .ok (getBuffTwo buffer bufferSize offset)
  | 32 => .ok (getBuffFour buffer bufferSize offset)
  | 64 => .ok (getBuffEight P buffer bufferSize offset)
  | _ => .error .abort

def readFloating (P : Platform) (buffer : Image) (bufferSize offset : Nat) : Nat → Except Fault (Nat × Nat)
  | 32 => .ok (getBuffFour buffer bufferSize offset)
  | 64 => .ok (getBuffEight P buffer bufferSize offset)
  | _ => .error .abort

/-- What `IntegerType` and `FloatingType` do with the value they read. -/
def populateScalar (read : Except Fault (Nat × Nat)) (lhsType : LhsType) (addr : Nat)
    (cs : List Constraint) (h : Heap) : Except Fault (Nat × Heap) := do
  let (res, offset) ← read
  let res ← runConstraints h lhsType cs res
  let h ← h.store addr (number lhsType.copySize res)
  return (offset, h)

/-- The `memcpy` branch of `PointerType::populateFromBuffer`. -/
def bulkCopy (buffer : Image) (count pointeeSize res : Nat) (s : Nat × Heap) : Except Fault (Nat × Heap) := do
  let bytes := count * pointeeSize % 2 ^ 32
  let h ← s.2.store res (buffer.peek s.1 bytes)
  return ((s.1 + bytes) % 2 ^ 32, h)

/-- The rest of the input goes to a fresh file, whose name is the argument. -/
def populateFile (P : Platform) (buffer : Image) (bufferSize offset slot : Nat) (h : Heap) :
    Except Fault (Nat × Heap) := do
  let contents := if offset < bufferSize then buffer.peek offset (bufferSize - offset) else []
  let (res, h) ← { h with file := contents }.malloc P (P.filein.length + 1) P.filein.length
  let h ← h.store res (P.filein ++ [0])
  let h ← h.store slot (number 8 res)
  return (bufferSize, h)

/-- The second half of `PointerType::populateFromBuffer`: allocate, fill by one
copy or element by element, clear the null element, publish the block. -/
def buildBlock (P : Platform) (buffer : Image) (element : Nat → Nat → Heap → Except Fault (Nat × Heap))
    (bulk : Bool) (pointeeSize numElems slot offset : Nat) (h : Heap) : Except Fault (Nat × Heap) := do
  -- one element more than asked for: the null element behind the last one
  let (res, h) ← h.malloc P (pointeeSize * (numElems + 1)) numElems
  let (offset, h) ←
    (if bulk then bulkCopy buffer numElems pointeeSize res (offset, h)
    else forTo (fun i s => element s.1 (res + i * pointeeSize % 2 ^ 32) s.2) numElems (offset, h))
  let h ← h.store (res + numElems * pointeeSize) (List.replicate pointeeSize 0)
  let h ← h.store slot (number 8 res)
  return (offset, h)

def populateFromBuffer (P : Platform) (structs : Nat → StructType) (buffer : Image) (bufferSize : Nat) :
    Nat → Ty → Nat → Nat → List Constraint → Heap → Except Fault (Nat × Heap)
  | 0, _, _, _, _, _ => .error .fuel
  | _ + 1, .unsupported, _, _, _, _ => .error .nullType
  | _ + 1, .integer bitWidth, offset, addr, cs, h =>
    populateScalar (readInteger P buffer bufferSize offset bitWidth) (.integer (bitWidth / 8)) addr cs h
  | _ + 1, .floating bitWidth, offset, addr, cs, h =>
    populateScalar (readFloating P buffer bufferSize offset bitWidth) (.floating (bitWidth / 8)) addr cs h
  | fuel + 1, .struct name, offset, addr, _, h =>
    (structs name).fields.foldlM (fun (s : Nat × Heap) field =>
      populateFromBuffer P structs buffer bufferSize fuel field.1 s.1 (addr + field.2) [] s.2) (offset, h)
  | fuel + 1, .array elem numElems, offset, addr, _, h =>
    forTo (fun i (s : Nat × Heap) => do
      let size ← getSize structs elem
      populateFromBuffer P structs buffer bufferSize fuel elem s.1 (addr + i * size % 2 ^ 32) [] s.2)
      numElems (offset, h)
  | fuel + 1, .pointer pointee, offset, addr, cs, h =>
    if isFile addr then
      populateFile P buffer bufferSize offset (untag addr) h
    else do
      let (read, offset) := getBuffFour buffer bufferSize offset
      let numElems ← (if isDeref addr then .ok 1 else runConstraints h .pointer cs read)
      let pointeeSize ← getSize structs pointee
      buildBlock P buffer (fun offset addr' h =>
          populateFromBuffer P structs buffer bufferSize fuel pointee offset addr'
            (if isDeref addr then cs else []) h)
        ((!isDeref addr || cs.isEmpty) && pointee.isScalar) pointeeSize numElems (untag addr) offset h

/-- The type object a constraint on a place of this type is invoked with. -/
def Ty.lhsType : Ty → LhsType
  | .integer bitWidth => .integer (bitWidth / 8)
  | .floating bitWidth => .floating (bitWidth / 8)
  | _ => .pointer

theorem isFile_eq_false {addr : Nat} (canonical : addr < 2 ^ 63) : isFile addr = false := by
  have high : addr >>> 63 = 0 := by
    rw [Nat.shiftRight_eq_div_pow]
    exact Nat.div_eq_of_lt canonical
  simp [isFile, high]

theorem untag_eq {addr : Nat} (canonical : addr < 2 ^ 63) : untag addr = addr - addr % 2 := by
  have half : untag addr / 2 = addr / 2 := by
    have mask : (0x7ffffffffffffffe : Nat) / 2 = 2 ^ 62 - 1 := by norm_num
    rw [untag, Nat.and_div_two, mask, Nat.and_two_pow_sub_one_eq_mod]
    exact Nat.mod_eq_of_lt (by omega)
  have low : untag addr % 2 = 0 := by
    have bit : (untag addr).testBit 0 = false := by simp [untag]
    simpa [Nat.testBit_zero] using bit
  omega

/-- A pointer without tags: read the length, let the constraints settle it,
build the block. -/
theorem populate_pointer_eq {P : Platform} {structs : Nat → StructType} {buffer : Image} {pointee : Ty}
    {bufferSize fuel offset offset' addr size read numElems : Nat} {cs : List Constraint} {h : Heap}
    (canonical : addr < 2 ^ 63) (even : addr % 2 = 0) (known : getSize structs pointee = .ok size)
    (input : getBuffFour buffer bufferSize offset = (read, offset'))
    (counted : runConstraints h .pointer cs read = .ok numElems) :
    populateFromBuffer P structs buffer bufferSize (fuel + 1) (.pointer pointee) offset addr cs h =
      buildBlock P buffer (fun offset addr' h =>
          populateFromBuffer P structs buffer bufferSize fuel pointee offset addr' [] h)
        pointee.isScalar size numElems addr offset' h := by
  have slot : untag addr = addr := by rw [untag_eq canonical]; omega
  have noDeref : isDeref addr = false := by simp [isDeref, even]
  simp only [populateFromBuffer, isFile_eq_false canonical, slot, noDeref, input, counted, known, ok_bind,
    Bool.false_eq_true, if_false, Bool.not_false, Bool.true_or, Bool.true_and]

/-- The slot at an address holds the base of a block built for `numElems`
elements. -/
def Heap.Points (h : Heap) (slot numElems : Nat) : Prop :=
  ∃ b ∈ h.blocks, b.numElems = numElems ∧ h.bytes.peek slot 8 = number 8 b.base

section Frame
variable {P : Platform} {held : List (Nat × Nat)} {buffer : Image} {h : Heap}

theorem bulkCopy_ensures {count pointeeSize res offset : Nat} {allowed : Fault → Prop}
    (laid : h.Laid held) (region : h.Region res hi) (room : res + count * pointeeSize ≤ hi) :
    Ensures allowed (fun r => r.2.Laid held ∧ Extends res hi h r.2)
      (bulkCopy buffer count pointeeSize res (offset, h)) := by
  have short : count * pointeeSize % 2 ^ 32 ≤ count * pointeeSize := Nat.mod_le _ _
  unfold bulkCopy
  refine (Heap.store_ensures (region.readable le_rfl (by rw [Image.peek_length]; omega))).bind ?_
  intro t stored
  exact ⟨Heap.store_laid stored laid,
    Heap.store_extends stored le_rfl (by rw [Image.peek_length]; omega)⟩

/-- What is left after the block at `res` has been filled: the null element and
the pointer to it. -/
def published (pointeeSize numElems slot res : Nat) (filled : Heap) : Heap :=
  let cleared := filled.bytes.poke (res + numElems * pointeeSize) (List.replicate pointeeSize 0)
  { filled with bytes := cleared.poke slot (number 8 res) }

theorem published_peek {pointeeSize numElems slot res : Nat} {filled : Heap}
    (apart : Apart res (pointeeSize * (numElems + 1)) slot 8) :
    (published pointeeSize numElems slot res filled).bytes.peek res (numElems * pointeeSize) =
      filled.bytes.peek res (numElems * pointeeSize) := by
  have total : pointeeSize * (numElems + 1) = numElems * pointeeSize + pointeeSize := by ring
  refine Image.peek_congr fun x lower upper => ?_
  simp only [published]
  rw [Image.poke_outside _ _ (by rw [number_length]; rcases apart with left | right <;> omega),
    Image.poke_outside _ _ (by omega)]

theorem buildBlock_ok {element : Nat → Nat → Heap → Except Fault (Nat × Heap)} {bulk : Bool}
    {pointeeSize numElems slot offset : Nat} {r : Nat × Heap}
    (built : buildBlock P buffer element bulk pointeeSize numElems slot offset h = .ok r) :
    ∃ res first filled, h.malloc P (pointeeSize * (numElems + 1)) numElems = .ok (res, first) ∧
      (if bulk then bulkCopy buffer numElems pointeeSize res (offset, first)
        else forTo (fun i s => element s.1 (res + i * pointeeSize % 2 ^ 32) s.2) numElems (offset, first)) =
          .ok (r.1, filled) ∧ r.2 = published pointeeSize numElems slot res filled := by
  unfold buildBlock at built
  obtain ⟨⟨res, first⟩, allocated, built⟩ := bind_eq_ok.mp built
  obtain ⟨⟨offset', filled⟩, done, built⟩ := bind_eq_ok.mp built
  obtain ⟨cleared, clear, built⟩ := bind_eq_ok.mp built
  obtain ⟨stored, store, built⟩ := bind_eq_ok.mp built
  cases built
  obtain ⟨_, rfl⟩ := Heap.store_eq_ok.mp clear
  obtain ⟨_, rfl⟩ := Heap.store_eq_ok.mp store
  exact ⟨res, first, filled, allocated, done, rfl⟩

/-- Only what the filling does with the fresh block matters. -/
theorem buildBlock_congr {element element' : Nat → Nat → Heap → Except Fault (Nat × Heap)}
    {pointeeSize numElems slot offset : Nat}
    (same : ∀ res first, h.malloc P (pointeeSize * (numElems + 1)) numElems = .ok (res, first) →
      forTo (fun i (s : Nat × Heap) => element s.1 (res + i * pointeeSize % 2 ^ 32) s.2) numElems (offset, first) =
      forTo (fun i (s : Nat × Heap) => element' s.1 (res + i * pointeeSize % 2 ^ 32) s.2) numElems (offset, first)) :
    buildBlock P buffer element false pointeeSize numElems slot offset h =
      buildBlock P buffer element' false pointeeSize numElems slot offset h := by
  unfold buildBlock
  cases allocated : h.malloc P (pointeeSize * (numElems + 1)) numElems with
  | error e => rfl
  | ok made =>
    simp only [ok_bind, Bool.false_eq_true, if_false]
    rw [same made.1 made.2 allocated]

/-- The block comes on top of those that were there, and the filling only adds more. -/
theorem buildBlock_grows {element : Nat → Nat → Heap → Except Fault (Nat × Heap)} {bulk : Bool}
    {pointeeSize numElems slot offset : Nat} {r : Nat × Heap}
    (each : ∀ offset addr t r, element offset addr t = .ok r → t.blocks <:+ r.2.blocks)
    (built : buildBlock P buffer element bulk pointeeSize numElems slot offset h = .ok r) :
    ∃ base, (⟨base, pointeeSize * (numElems + 1), numElems⟩ :: h.blocks) <:+ r.2.blocks := by
  obtain ⟨res, first, filled, allocated, done, same⟩ := buildBlock_ok built
  refine ⟨res, ?_⟩
  have blocks : r.2.blocks = filled.blocks := by rw [same]; rfl
  rw [blocks, ← Heap.malloc_blocks allocated]
  cases bulk with
  | true =>
    obtain ⟨stored, store, last⟩ := bind_eq_ok.mp done
    obtain rfl : stored = filled := (Prod.mk.inj (Except.ok.inj last)).2
    rw [Heap.store_blocks store]
  | false =>
    have loop : Ensures (fun _ => True) (fun r : Nat × Heap => first.blocks <:+ r.2.blocks)
        (forTo (fun i s => element s.1 (res + i * pointeeSize % 2 ^ 32) s.2) numElems (offset, first)) := by
      refine forTo_ensures (I := fun _ (s : Nat × Heap) => first.blocks <:+ s.2.blocks) numElems
        (List.suffix_refl _) ?_
      intro i _ s sofar
      exact Ensures.of_result fun r step => sofar.trans (each _ _ _ _ step)
    exact loop.result done

/-- Building a block is filling it and publishing it. Whatever the filling
establishes can be used after it. -/
theorem buildBlock_rule {element : Nat → Nat → Heap → Except Fault (Nat × Heap)} {bulk : Bool}
    {pointeeSize numElems slot offset lo hi : Nat} {allowed : Fault → Prop} {Q : Nat → Heap → Nat × Heap → Prop}
    (alloc : P.Allocates held)
    (null : h.malloc P (pointeeSize * (numElems + 1)) numElems = .error .noMemory → allowed .noMemory)
    (region : h.Region lo hi) (lower : lo ≤ slot) (upper : slot + 8 ≤ hi)
    (fill : ∀ res first, h.malloc P (pointeeSize * (numElems + 1)) numElems = .ok (res, first) →
      Ensures allowed (fun r => Extends res (res + pointeeSize * (numElems + 1)) first r.2 ∧ Q res first r)
        (if bulk then bulkCopy buffer numElems pointeeSize res (offset, first)
          else forTo (fun i s => element s.1 (res + i * pointeeSize % 2 ^ 32) s.2) numElems (offset, first))) :
    Ensures allowed (fun r => Extends lo hi h r.2 ∧ ∃ res first filled,
        h.malloc P (pointeeSize * (numElems + 1)) numElems = .ok (res, first) ∧
        Extends res (res + pointeeSize * (numElems + 1)) first filled ∧ Q res first (r.1, filled) ∧
        r.2 = published pointeeSize numElems slot res filled)
      (buildBlock P buffer element bulk pointeeSize numElems slot offset h) := by
  unfold buildBlock
  refine (Heap.malloc_ensures null).bind ?_
  rintro ⟨res, first⟩ allocated
  have block := Heap.malloc_region alloc allocated
  have total : pointeeSize * (numElems + 1) = numElems * pointeeSize + pointeeSize := by ring
  refine (fill res first allocated).bind ?_
  rintro ⟨offset', filled⟩ ⟨inBlock, holds⟩
  refine (Heap.store_ensures ((inBlock.region block).readable (by omega)
    (by rw [List.length_replicate]; omega))).bind ?_
  intro third cleared
  have whole := inBlock.trans (Heap.store_extends cleared (by omega) (by rw [List.length_replicate]; omega))
  have outer : Extends lo hi h third := Heap.malloc_extends lo hi allocated whole
  refine (Heap.store_ensures ((outer.region region).readable lower (by simpa using upper))).bind ?_
  intro last stored
  refine ⟨outer.trans (Heap.store_extends stored lower (by simpa using upper)), res, first, filled, allocated,
    inBlock, holds, ?_⟩
  obtain ⟨_, rfl⟩ := Heap.store_eq_ok.mp stored
  obtain ⟨_, rfl⟩ := Heap.store_eq_ok.mp cleared
  rfl

theorem published_points {pointeeSize numElems slot res size : Nat} {first filled : Heap}
    (allocated : h.malloc P size numElems = .ok (res, first)) (inBlock : Extends lo hi first filled) :
    (published pointeeSize numElems slot res filled).Points slot numElems := by
  obtain ⟨_, _, rfl⟩ := Heap.malloc_eq_ok.mp allocated
  obtain ⟨_, new, blocks, _⟩ := inBlock
  refine ⟨⟨res, size, numElems⟩, ?_, rfl, ?_⟩
  · simp only [published, blocks]
    exact List.mem_append_right _ (List.mem_cons_self ..)
  · have wrote := Image.peek_poke
      (filled.bytes.poke (res + numElems * pointeeSize) (List.replicate pointeeSize 0)) slot (number 8 res)
    rwa [number_length] at wrote

theorem buildBlock_ensures {element : Nat → Nat → Heap → Except Fault (Nat × Heap)} {bulk : Bool}
    {pointeeSize numElems slot offset lo hi : Nat} {allowed : Fault → Prop} (alloc : P.Allocates held)
    (null : allowed .noMemory) (laid : h.Laid held) (region : h.Region lo hi) (lower : lo ≤ slot)
    (upper : slot + 8 ≤ hi)
    (each : ∀ offset addr t lo hi, t.Laid held → t.Region lo hi → lo % 2 = 0 → lo ≤ addr →
      addr + pointeeSize ≤ hi → Ensures allowed (fun r => r.2.Laid held ∧ Extends lo hi t r.2)
        (element offset addr t)) :
    Ensures allowed (fun r => r.2.Laid held ∧ Extends lo hi h r.2 ∧ r.2.Points slot numElems)
      (buildBlock P buffer element bulk pointeeSize numElems slot offset h) := by
  refine Ensures.weaken (buildBlock_rule (Q := fun _ _ r => r.2.Laid held) alloc (fun _ => null) region lower
    upper ?_) ?_
  · intro res first allocated
    have block := Heap.malloc_region alloc allocated
    have firstLaid := Heap.malloc_laid alloc laid allocated
    have total : pointeeSize * (numElems + 1) = numElems * pointeeSize + pointeeSize := by ring
    split
    · exact (bulkCopy_ensures firstLaid block (by omega)).weaken fun r done => done.symm
    · refine forTo_ensures (I := fun _ (r : Nat × Heap) =>
        Extends res (res + pointeeSize * (numElems + 1)) first r.2 ∧ r.2.Laid held) numElems
        ⟨.refl _ _ _, firstLaid⟩ ?_
      rintro i inside ⟨offset', t⟩ ⟨sofar, laid'⟩
      have wrapped : i * pointeeSize % 2 ^ 32 ≤ i * pointeeSize := Nat.mod_le _ _
      have within : i * pointeeSize + pointeeSize ≤ numElems * pointeeSize := by nlinarith
      refine (each _ _ t res _ laid' (sofar.region block) (Heap.malloc_even alloc allocated) (by omega)
        (by omega)).weaken ?_
      exact fun r next => ⟨sofar.trans next.2, next.1⟩
  · rintro r ⟨outer, res, first, filled, allocated, inBlock, filledLaid, same⟩
    rw [same]
    exact ⟨filledLaid.of_blocks rfl, by rwa [← same], published_points allocated inBlock⟩

theorem populateScalar_ok {read : Except Fault (Nat × Nat)} {lhsType : LhsType} {addr : Nat}
    {cs : List Constraint} {r : Nat × Heap} (done : populateScalar read lhsType addr cs h = .ok r) :
    ∃ value settled, read = .ok (value, r.1) ∧ runConstraints h lhsType cs value = .ok settled ∧
      r.2 = { h with bytes := h.bytes.poke addr (number lhsType.copySize settled) } := by
  unfold populateScalar at done
  obtain ⟨⟨value, offset⟩, input, done⟩ := bind_eq_ok.mp done
  obtain ⟨settled, ran, done⟩ := bind_eq_ok.mp done
  obtain ⟨stored, store, done⟩ := bind_eq_ok.mp done
  cases done
  exact ⟨value, settled, input, ran, (Heap.store_eq_ok.mp store).2⟩

theorem populateFile_blocks {bufferSize offset slot : Nat} {r : Nat × Heap}
    (done : populateFile P buffer bufferSize offset slot h = .ok r) :
    ∃ base, r.2.blocks = ⟨base, P.filein.length + 1, P.filein.length⟩ :: h.blocks := by
  unfold populateFile at done
  obtain ⟨⟨res, first⟩, allocated, done⟩ := bind_eq_ok.mp done
  obtain ⟨named, store, done⟩ := bind_eq_ok.mp done
  obtain ⟨last, store', done⟩ := bind_eq_ok.mp done
  cases done
  exact ⟨res, by rw [Heap.store_blocks store', Heap.store_blocks store, Heap.malloc_blocks allocated]⟩

theorem populateFromBuffer_grows {bufferSize fuel : Nat} {type : Ty} {offset addr : Nat} {cs : List Constraint} :
    Ensures (fun _ => True) (fun r => h.blocks <:+ r.2.blocks)
      (populateFromBuffer P structs buffer bufferSize fuel type offset addr cs h) := by
  induction fuel generalizing type offset addr cs h with
  | zero => trivial
  | succ fuel ih =>
    cases type with
    | unsupported => trivial
    | integer bitWidth =>
      refine Ensures.of_result fun r done => ?_
      obtain ⟨_, _, _, _, same⟩ := populateScalar_ok done
      rw [same]
    | floating bitWidth =>
      refine Ensures.of_result fun r done => ?_
      obtain ⟨_, _, _, _, same⟩ := populateScalar_ok done
      rw [same]
    | struct name =>
      refine foldlM_ensures (I := fun _ (s : Nat × Heap) => h.blocks <:+ s.2.blocks) _ (List.suffix_refl _) ?_
      intro _ field _ _ s sofar
      exact ih.weaken fun r step => sofar.trans step
    | array elem numElems =>
      refine forTo_ensures (I := fun _ (s : Nat × Heap) => h.blocks <:+ s.2.blocks) numElems (List.suffix_refl _) ?_
      intro i _ s sofar
      refine Ensures.of_result fun r step => ?_
      obtain ⟨size, _, step⟩ := bind_eq_ok.mp step
      exact sofar.trans (ih.result step)
    | pointer pointee =>
      refine Ensures.of_result fun r done => ?_
      rw [populateFromBuffer] at done
      split at done
      · obtain ⟨base, added⟩ := populateFile_blocks done
        rw [added]
        exact List.suffix_cons ..
      · obtain ⟨numElems, _, done⟩ := bind_eq_ok.mp done
        obtain ⟨size, _, done⟩ := bind_eq_ok.mp done
        obtain ⟨base, added⟩ := buildBlock_grows (fun _ _ _ _ step => ih.result step) done
        exact (List.suffix_cons ..).trans added

/-- The type unfolds within `fuel` levels into scalars the readers know. A
recursive struct does not, however large the bound. -/
def Supported (structs : Nat → StructType) : Nat → Ty → Prop
  | 0, _ => False
  | _ + 1, .unsupported => False
  | _ + 1, .integer bitWidth => bitWidth = 8 ∨ bitWidth = 16 ∨ bitWidth = 32 ∨ bitWidth = 64
  | _ + 1, .floating bitWidth => bitWidth = 32 ∨ bitWidth = 64
  | fuel + 1, .struct name => ∀ field ∈ (structs name).fields, Supported structs fuel field.1
  | fuel + 1, .array elem _ => Supported structs fuel elem
  | fuel + 1, .pointer pointee => Supported structs fuel pointee

/-- The ways a supported type can fail to be built: only for want of memory. -/
def Fails (structs : Nat → StructType) (fuel : Nat) (type : Ty) (e : Fault) : Prop :=
  e = .noMemory ∨ ¬ Supported structs fuel type

theorem readInteger_ensures (bufferSize offset bitWidth : Nat) :
    Ensures (fun _ => ¬ (bitWidth = 8 ∨ bitWidth = 16 ∨ bitWidth = 32 ∨ bitWidth = 64)) (fun _ => True)
      (readInteger P buffer bufferSize offset bitWidth) := by
  unfold readInteger
  split <;> simp_all [Ensures]

theorem readFloating_ensures (bufferSize offset bitWidth : Nat) :
    Ensures (fun _ => ¬ (bitWidth = 32 ∨ bitWidth = 64)) (fun _ => True)
      (readFloating P buffer bufferSize offset bitWidth) := by
  unfold readFloating
  split <;> simp_all [Ensures]

theorem getSize_ensures (structs : Nat → StructType) (fuel : Nat) (type : Ty) :
    Ensures (fun _ => ¬ Supported structs fuel type) (fun size => getSize structs type = .ok size)
      (getSize structs type) := by
  induction type generalizing fuel with
  | integer | floating | pointer | struct => exact rfl
  | unsupported => cases fuel <;> exact not_false
  | array elem numElems ih =>
    cases fuel with
    | zero => cases getSize structs (.array elem numElems) <;> simp [Ensures, Supported]
    | succ fuel =>
      have known := ih fuel
      cases found : getSize structs elem with
      | error e =>
        rw [found] at known
        simpa [getSize, found, bind, Except.bind, Ensures, Supported] using known
      | ok size => simp [getSize, found, bind, Except.bind, pure, Except.pure, Ensures]

theorem populateScalar_ensures {read : Except Fault (Nat × Nat)} {lhsType : LhsType} {addr : Nat}
    {allowed : Fault → Prop} (reads : Ensures allowed (fun _ => True) read) (laid : h.Laid held)
    (region : h.Region lo hi) (lower : lo ≤ addr) (upper : addr + lhsType.copySize ≤ hi) :
    Ensures allowed (fun r => r.2.Laid held ∧ Extends lo hi h r.2) (populateScalar read lhsType addr [] h) := by
  unfold populateScalar
  refine reads.bind ?_
  rintro ⟨res, offset⟩ -
  refine (Heap.store_ensures (region.readable lower (by simpa using upper))).bind ?_
  intro t stored
  exact ⟨Heap.store_laid stored laid, Heap.store_extends stored lower (by simpa using upper)⟩

/-- Populating a place without constraints writes that place and fresh blocks,
and stops early only for want of memory or at a type it cannot build. -/
theorem populateFromBuffer_ensures {info : TypeInfo} (alloc : P.Allocates held) (bufferSize : Nat)
    {fuel : Nat} {type : Ty} {offset addr lo hi : Nat} (sized : Sized info.structs type)
    (laid : h.Laid held) (region : h.Region lo hi) (even : lo % 2 = 0) (lower : lo ≤ addr)
    (upper : ∀ size, getSize info.structs type = .ok size → addr + size ≤ hi) :
    Ensures (Fails info.structs fuel type) (fun r => r.2.Laid held ∧ Extends lo hi h r.2)
      (populateFromBuffer P info.structs buffer bufferSize fuel type offset addr [] h) := by
  induction fuel generalizing type offset addr h lo hi with
  | zero => exact .inr not_false
  | succ fuel ih =>
    cases type with
    | unsupported => exact .inr not_false
    | integer bitWidth =>
      refine populateScalar_ensures ((readInteger_ensures bufferSize offset bitWidth).allow ?_) laid region
        lower (upper _ rfl)
      exact fun e odd => .inr odd
    | floating bitWidth =>
      refine populateScalar_ensures ((readFloating_ensures bufferSize offset bitWidth).allow ?_) laid region
        lower (upper _ rfl)
      exact fun e odd => .inr odd
    | struct name =>
      refine foldlM_ensures (I := fun _ (r : Nat × Heap) => r.2.Laid held ∧ Extends lo hi h r.2) _
        ⟨laid, .refl _ _ _⟩ ?_
      rintro before field after split ⟨offset', t⟩ ⟨laid', sofar⟩
      have member : field ∈ (info.structs name).fields := by simp [split]
      have within := upper _ rfl
      have next : Ensures (Fails info.structs fuel field.1) (fun r => r.2.Laid held ∧ Extends lo hi t r.2)
          (populateFromBuffer P info.structs buffer bufferSize fuel field.1 offset' (addr + field.2) [] t) :=
        ih (info.fields_sized name field member) laid' (sofar.region region) even (by omega) (fun size known => by
          have := info.inside name field member size known
          omega)
      refine (next.weaken (fun r done => ⟨done.1, sofar.trans done.2⟩)).allow ?_
      exact fun e failed => failed.imp_right fun odd all => odd (all field member)
    | array elem numElems =>
      refine forTo_ensures (I := fun _ (r : Nat × Heap) => r.2.Laid held ∧ Extends lo hi h r.2) numElems
        ⟨laid, .refl _ _ _⟩ ?_
      rintro i inside ⟨offset', t⟩ ⟨laid', sofar⟩
      refine ((getSize_ensures info.structs fuel elem).allow fun e odd => .inr odd).bind ?_
      intro size known
      have below := sized.2 size known
      have whole := upper (size * numElems % 2 ^ 32) (by simp [getSize, known, bind, Except.bind, pure, Except.pure])
      rw [Nat.mod_eq_of_lt below] at whole
      have wrapped : i * size % 2 ^ 32 ≤ i * size := Nat.mod_le _ _
      have within : i * size + size ≤ size * numElems := by nlinarith
      have next : Ensures (Fails info.structs fuel elem) (fun r => r.2.Laid held ∧ Extends lo hi t r.2)
          (populateFromBuffer P info.structs buffer bufferSize fuel elem offset' (addr + i * size % 2 ^ 32) [] t) :=
        ih sized.1 laid' (sofar.region region) even (by omega) (fun size' known' => by
          have same : size = size' := Except.ok.inj (known.symm.trans known')
          omega)
      exact (next.weaken (fun r done => ⟨done.1, sofar.trans done.2⟩)).allow fun e failed => failed
    | pointer pointee =>
      have room := upper 8 rfl
      have canonical := region.canonical
      have small : addr < 2 ^ 63 := by omega
      have slot := untag_eq small
      have noFile : isFile addr = false := isFile_eq_false small
      simp only [populateFromBuffer, noFile, Bool.false_eq_true, if_false, ite_self]
      have counted : Ensures (Fails info.structs (fuel + 1) (.pointer pointee)) (fun _ => True)
          (if isDeref addr then .ok 1 else runConstraints h .pointer [] (getBuffFour buffer bufferSize offset).1) := by
        split <;> exact trivial
      refine counted.bind ?_
      intro numElems _
      refine ((getSize_ensures info.structs fuel pointee).allow fun e odd => .inr odd).bind ?_
      intro pointeeSize known
      refine (buildBlock_ensures alloc (.inl rfl) laid region (by omega) (by omega) ?_).weaken
        fun r done => ⟨done.1, done.2.1⟩
      intro offset' addr' t lo' hi' laid' region' even' lower' upper'
      have next : Ensures (Fails info.structs fuel pointee) (fun r => r.2.Laid held ∧ Extends lo' hi' t r.2)
          (populateFromBuffer P info.structs buffer bufferSize fuel pointee offset' addr' [] t) :=
        ih sized laid' region' even' lower' (fun size' known' => by
          have same : pointeeSize = size' := Except.ok.inj (known.symm.trans known')
          omega)
      exact next.allow fun e failed => failed

end Frame
end AflLive.Libgen
