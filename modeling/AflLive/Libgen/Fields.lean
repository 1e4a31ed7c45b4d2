import AflLive.Libgen.Serialize

/-! Where the fields of a struct lie and what decides how they are read. A
struct is worked through field by field, down to the scalars and pointers it
is made of; the address of a pointer doubles as a pair of flags. -/
namespace AflLive.Libgen
open Bytes Control

/-- A part of an object that `populateFromBuffer` and `serializeToBuffer` treat
as a whole, with the recursion depth left for it. -/
structure Field where
  fuel : Nat
  type : Ty
  addr : Nat
deriving DecidableEq, Repr

/-- The parts of an object, nested structs and arrays taken apart. -/
def fieldsOf (structs : Nat → StructType) : Nat → Ty → Nat → List Field
  | fuel + 1, .struct name, addr =>
    (structs name).fields.flatMap fun field => fieldsOf structs fuel field.1 (addr + field.2)
  | fuel + 1, .array elem numElems, addr =>
    match getSize structs elem with
    | .ok size => (List.range numElems).flatMap fun i => fieldsOf structs fuel elem (addr + i * size % 2 ^ 32)
    | .error _ => [⟨fuel + 1, .array elem numElems, addr⟩]
  | fuel, type, addr => [⟨fuel, type, addr⟩]

namespace Field
variable (P : Platform) (structs : Nat → StructType) (buffer : Image) (bufferSize : Nat)

def populate (field : Field) (offset : Nat) (h : Heap) : Except Fault (Nat × Heap) :=
  populateFromBuffer P structs buffer bufferSize field.fuel field.type offset field.addr [] h

def serialize (field : Field) (h : Heap) (r : Recording) : Except Fault Recording :=
  serializeToBuffer P structs h field.fuel field.type field.addr [] r

/-- What the type of a field asks for: a scalar is stored at the address of the
field, a pointer is the length in the input, a block of that length, and the
base of the block stored at the address. What is left has no value. -/
def populatePlain : Field → Nat → Heap → Except Fault (Nat × Heap)
  | ⟨_ + 1, .integer bitWidth, addr⟩, offset, h =>
    populateScalar (readInteger P buffer bufferSize offset bitWidth) (.integer (bitWidth / 8)) addr [] h
  | ⟨_ + 1, .floating bitWidth, addr⟩, offset, h =>
    populateScalar (readFloating P buffer bufferSize offset bitWidth) (.floating (bitWidth / 8)) addr [] h
  | ⟨fuel + 1, .pointer pointee, addr⟩, offset, h => do
    let (numElems, offset) := getBuffFour buffer bufferSize offset
    let pointeeSize ← getSize structs pointee
    buildBlock P buffer (fun offset addr' h =>
        populateFromBuffer P structs buffer bufferSize fuel pointee offset addr' [] h)
      pointee.isScalar pointeeSize numElems addr offset h
  | field, offset, h => field.populate P structs buffer bufferSize offset h

/-- The same for recording: the bytes of a scalar, or the length behind the
pointer stored at the address and then the elements. -/
def serializePlain (h : Heap) : Field → Recording → Except Fault Recording
  | ⟨_ + 1, .integer bitWidth, addr⟩, r => serializeScalar h addr (bitWidth / 8) r
  | ⟨_ + 1, .floating bitWidth, addr⟩, r => serializeScalar h addr (bitWidth / 8) r
  | ⟨fuel + 1, .pointer pointee, addr⟩, r => do
    let numElems ← recordedLength h pointee addr false []
    let pointeeSize ← getSize structs pointee
    let stored ← h.load addr 8
    forTo (fun i r => serializeToBuffer P structs h fuel pointee (value stored + i * pointeeSize) [] r)
      numElems (r.emit (number 4 numElems))
  | field, r => field.serialize P structs h r

/-- The bytes a field ends up with: the scalar read from the input, or the base
of a block of the length read from it. -/
def Filled (field : Field) (offset : Nat) (r : Nat × Heap) : Prop :=
  match field.type with
  | .integer bitWidth => ∃ v, readInteger P buffer bufferSize offset bitWidth = .ok (v, r.1) ∧
      r.2.bytes.peek field.addr (bitWidth / 8) = number (bitWidth / 8) v
  | .floating bitWidth => ∃ v, readFloating P buffer bufferSize offset bitWidth = .ok (v, r.1) ∧
      r.2.bytes.peek field.addr (bitWidth / 8) = number (bitWidth / 8) v
  | .pointer _ => r.2.Points field.addr (getBuffFour buffer bufferSize offset).1
  | _ => True

end Field

/-- The field is treated as its type says, its bytes are all written, no
others are, and all of them are read. -/
structure Field.Placed (structs : Nat → StructType) (field : Field) : Prop where
  populates : ∀ P buffer bufferSize offset h, field.populate P structs buffer bufferSize offset h =
    field.populatePlain P structs buffer bufferSize offset h
  serializes : ∀ P h r, field.serialize P structs h r = field.serializePlain P structs h r
  writes : ∀ P held buffer bufferSize offset h r size, P.Allocates held → h.Laid held →
    getSize structs field.type = .ok size → h.Region field.addr (field.addr + size) →
    field.populate P structs buffer bufferSize offset h = .ok r →
    Extends field.addr (field.addr + size) h r.2 ∧ field.Filled P buffer bufferSize offset r
  reads : ∀ P h r r' size, getSize structs field.type = .ok size → field.serialize P structs h r = .ok r' →
    h.readable field.addr size = true

section Parts
variable {P : Platform} {structs : Nat → StructType} {buffer : Image} {bufferSize : Nat}

theorem populateFromBuffer_fieldsOf (fuel : Nat) (type : Ty) (offset addr : Nat) (h : Heap) :
    populateFromBuffer P structs buffer bufferSize fuel type offset addr [] h =
      (fieldsOf structs fuel type addr).foldlM
        (fun (s : Nat × Heap) field => field.populate P structs buffer bufferSize s.1 s.2) (offset, h) := by
  induction fuel generalizing type offset addr h with
  | zero => simp [fieldsOf, Field.populate]
  | succ fuel ih =>
    cases type with
    | unsupported | integer | floating | pointer => simp [fieldsOf, Field.populate]
    | struct name =>
      simp only [fieldsOf, foldlM_flatMap, ← ih]
      rfl
    | array elem numElems =>
      cases known : getSize structs elem with
      | error e => simp [fieldsOf, known, Field.populate]
      | ok size =>
        simp only [fieldsOf, known, foldlM_flatMap, ← ih]
        simp only [populateFromBuffer, forTo_eq_foldlM, known, ok_bind]

theorem serializeToBuffer_fieldsOf {h : Heap} (fuel : Nat) (type : Ty) (addr : Nat) (r : Recording) :
    serializeToBuffer P structs h fuel type addr [] r =
      (fieldsOf structs fuel type addr).foldlM (fun r field => field.serialize P structs h r) r := by
  induction fuel generalizing type addr r with
  | zero => simp [fieldsOf, Field.serialize]
  | succ fuel ih =>
    cases type with
    | unsupported | integer | floating | pointer => simp [fieldsOf, Field.serialize]
    | struct name =>
      simp only [fieldsOf, foldlM_flatMap, ← ih]
      rfl
    | array elem numElems =>
      cases known : getSize structs elem with
      | error e => simp [fieldsOf, known, Field.serialize]
      | ok size =>
        simp only [fieldsOf, known, foldlM_flatMap, ← ih]
        simp only [serializeToBuffer, forTo_eq_foldlM, known, ok_bind]

/-- A part that is not taken apart further. -/
def Field.Whole (structs : Nat → StructType) : Field → Prop
  | ⟨_ + 1, .struct _, _⟩ => False
  | ⟨_ + 1, .array elem _, _⟩ => ∃ e, getSize structs elem = .error e
  | _ => True

theorem fieldsOf_whole {info : TypeInfo} {fuel : Nat} {type : Ty} {addr : Nat} (sized : Sized info.structs type) :
    ∀ field ∈ fieldsOf info.structs fuel type addr, field.Whole info.structs ∧ Sized info.structs field.type := by
  induction fuel generalizing type addr with
  | zero =>
    intro field member
    obtain rfl : field = ⟨0, type, addr⟩ := by simpa [fieldsOf] using member
    exact ⟨trivial, sized⟩
  | succ fuel ih =>
    intro field member
    cases type with
    | unsupported | integer | floating | pointer =>
      obtain rfl := List.mem_singleton.mp member
      exact ⟨trivial, sized⟩
    | struct name =>
      obtain ⟨part, inStruct, member⟩ := List.mem_flatMap.mp member
      exact ih (info.fields_sized name part inStruct) field member
    | array elem numElems =>
      rw [fieldsOf] at member
      cases known : getSize info.structs elem with
      | error e =>
        rw [known] at member
        obtain rfl := List.mem_singleton.mp member
        exact ⟨⟨e, known⟩, sized⟩
      | ok size =>
        rw [known] at member
        obtain ⟨i, _, member⟩ := List.mem_flatMap.mp member
        exact ih sized.1 field member

end Parts

section Tags
variable {structs : Nat → StructType} {fuel addr : Nat} {pointee : Ty}

theorem untag_lt (tagged : ¬(addr % 2 = 0 ∧ addr < 2 ^ 63)) : untag addr < addr := by
  by_cases canonical : addr < 2 ^ 63
  · rw [untag_eq canonical]
    omega
  · have masked : untag addr ≤ 0x7ffffffffffffffe := Nat.and_le_right
    omega

theorem getSize_error {type : Ty} {e : Fault} (failed : getSize structs type = .error e) : e = .nullType := by
  induction type with
  | integer | floating | pointer | struct => cases failed
  | unsupported => exact (Except.error.inj failed).symm
  | array elem numElems ih =>
    cases known : getSize structs elem with
    | error e' =>
      rw [getSize, known] at failed
      obtain rfl : e' = e := Except.error.inj failed
      exact ih known
    | ok size =>
      rw [getSize, known] at failed
      cases failed

/-- Eight zero bytes at one address and nothing else. -/
def nullSlot (slot : Nat) : Heap where
  bytes := fun _ => 0
  mapped := fun x => decide (slot ≤ x ∧ x < slot + 8)
  blocks := []
  file := []

theorem nullSlot_load (slot : Nat) : (nullSlot slot).load slot 8 = .ok [0, 0, 0, 0, 0, 0, 0, 0] := by
  refine Heap.load_eq_ok.mpr ⟨Heap.readable_iff.mpr fun x lower upper => ?_, rfl⟩
  simp [nullSlot, lower, upper]

theorem nullSlot_segv {slot : Nat} (above : slot < addr) : (nullSlot slot).load addr 8 = .error .segv := by
  rw [Heap.load, if_neg]
  intro readable
  have last := Heap.readable_iff.mp readable (addr + 7) (by omega) (by omega)
  simp only [nullSlot, decide_eq_true_eq] at last
  omega

/-- A null pointer is recorded as of length 0, whatever flags its address
carries. -/
theorem serialize_nullSlot (P : Platform) (r : Recording) :
    Ensures (· = .nullType) (fun _ => True)
      (serializeToBuffer P structs (nullSlot (untag addr)) (fuel + 1) (.pointer pointee) addr [] r) := by
  rw [serializeToBuffer]
  split
  · rw [serializeFile, nullSlot_load, ok_bind]
    split <;> trivial
  · have counted : ∀ deref, recordedLength (nullSlot (untag addr)) pointee (untag addr) deref [] = .ok 0 := by
      intro deref
      rw [recordedLength, nullSlot_load, ok_bind]
      cases deref <;> cases pointee.isByte <;> rfl
    rw [counted, ok_bind, nullSlot_load]
    cases known : getSize structs pointee with
    | error e => exact getSize_error known
    | ok size => trivial

/-- Only an address without flags lets a pointer be recorded from where it is. -/
theorem Field.Placed.untagged (placed : Field.Placed structs ⟨fuel + 1, .pointer pointee, addr⟩) :
    addr % 2 = 0 ∧ addr < 2 ^ 63 := by
  by_contra tagged
  let r : Recording := ⟨fun _ => 0, 0, false, []⟩
  have same := placed.serializes (bumpPlatform 0 []) (nullSlot (untag addr)) r
  have outcome := @serialize_nullSlot structs fuel addr pointee (bumpPlatform 0 []) r
  have faults : Field.serializePlain (bumpPlatform 0 []) structs (nullSlot (untag addr))
      ⟨fuel + 1, .pointer pointee, addr⟩ r = .error .segv := by
    rw [Field.serializePlain, recordedLength, nullSlot_segv (untag_lt tagged)]
    rfl
  rw [Field.serialize, faults] at same
  rw [same] at outcome
  cases outcome

/-- An address without flags leaves a pointer to its type. -/
theorem Field.plain_of_untagged (even : addr % 2 = 0) (canonical : addr < 2 ^ 63) :
    (∀ P buffer bufferSize offset h, Field.populate P structs buffer bufferSize ⟨fuel + 1, .pointer pointee, addr⟩
      offset h = Field.populatePlain P structs buffer bufferSize ⟨fuel + 1, .pointer pointee, addr⟩ offset h) ∧
    ∀ P h r, Field.serialize P structs ⟨fuel + 1, .pointer pointee, addr⟩ h r =
      Field.serializePlain P structs h ⟨fuel + 1, .pointer pointee, addr⟩ r := by
  have slot : untag addr = addr := by rw [untag_eq canonical]; omega
  have noDeref : isDeref addr = false := by simp [isDeref, even]
  have noFile := isFile_eq_false canonical
  constructor
  · intro P buffer bufferSize offset h
    simp only [Field.populate, Field.populatePlain, populateFromBuffer, noFile, slot, noDeref, Bool.false_eq_true,
      if_false, Bool.not_false, Bool.true_or, Bool.true_and]
    rfl
  · intro P h r
    simp only [Field.serialize, Field.serializePlain, serializeToBuffer, noFile, slot, noDeref, Bool.false_eq_true,
      if_false]

end Tags

section Exact
variable {info : TypeInfo} {fuel addr : Nat}

theorem populateScalar_writes {held : List (Nat × Nat)} {read : Except Fault (Nat × Nat)}
    {lhsType : LhsType} {h : Heap} {r : Nat × Heap} (laid : h.Laid held)
    (region : h.Region addr (addr + lhsType.copySize)) (done : populateScalar read lhsType addr [] h = .ok r) :
    Extends addr (addr + lhsType.copySize) h r.2 ∧ ∃ v, read = .ok (v, r.1) ∧
      r.2.bytes.peek addr lhsType.copySize = number lhsType.copySize v := by
  have frame : Ensures (fun _ => True) (fun r => r.2.Laid held ∧ Extends addr (addr + lhsType.copySize) h r.2)
      (populateScalar read lhsType addr [] h) :=
    populateScalar_ensures (Ensures.of_result fun _ _ => trivial) laid region le_rfl le_rfl
  obtain ⟨v, settled, input, ran, same⟩ := populateScalar_ok done
  obtain rfl : v = settled := Except.ok.inj ran
  refine ⟨(frame.result done).2, v, input, ?_⟩
  have wrote := Image.peek_poke h.bytes addr (number lhsType.copySize v)
  rw [same]
  rwa [number_length] at wrote

theorem pointer_writes {pointee : Ty} {P : Platform} {held : List (Nat × Nat)} {buffer : Image} {h : Heap}
    {bufferSize offset : Nat} {r : Nat × Heap} (sized : Sized info.structs pointee) (alloc : P.Allocates held)
    (laid : h.Laid held) (region : h.Region addr (addr + 8))
    (done : Field.populatePlain P info.structs buffer bufferSize ⟨fuel + 1, .pointer pointee, addr⟩ offset h = .ok r) :
    Extends addr (addr + 8) h r.2 ∧ r.2.Points addr (getBuffFour buffer bufferSize offset).1 := by
  rw [Field.populatePlain] at done
  obtain ⟨size, known, built⟩ := bind_eq_ok.mp done
  have each : ∀ offset addr t lo hi, t.Laid held → t.Region lo hi → lo % 2 = 0 → lo ≤ addr → addr + size ≤ hi →
      Ensures (fun _ => True) (fun r => r.2.Laid held ∧ Extends lo hi t r.2)
        (populateFromBuffer P info.structs buffer bufferSize fuel pointee offset addr [] t) := by
    intro offset' addr' t lo hi laid' region' even lower upper
    refine (populateFromBuffer_ensures alloc bufferSize sized laid' region' even lower ?_).allow fun _ _ => trivial
    intro size' known'
    obtain rfl : size = size' := Except.ok.inj (known.symm.trans known')
    exact upper
  exact ((buildBlock_ensures alloc trivial laid region le_rfl le_rfl each).result built).2

theorem pointer_reads {pointee : Ty} {P : Platform} {h : Heap} {r r' : Recording}
    (done : Field.serializePlain P info.structs h ⟨fuel + 1, .pointer pointee, addr⟩ r = .ok r') :
    h.readable addr 8 = true := by
  rw [Field.serializePlain] at done
  obtain ⟨_, counted, _⟩ := bind_eq_ok.mp done
  obtain ⟨_, loaded, _⟩ := bind_eq_ok.mp counted
  exact (Heap.load_eq_ok.mp loaded).1

theorem serializeScalar_reads {h : Heap} {size : Nat} {r r' : Recording}
    (done : serializeScalar h addr size r = .ok r') : h.readable addr size = true := by
  obtain ⟨_, loaded, _⟩ := bind_eq_ok.mp done
  exact (Heap.load_eq_ok.mp loaded).1

/-- A whole part is placed unless it is a pointer whose address carries flags. -/
theorem Field.Whole.placed {field : Field} (whole : field.Whole info.structs)
    (sized : Sized info.structs field.type)
    (untagged : ∀ fuel pointee addr, field = ⟨fuel + 1, .pointer pointee, addr⟩ → addr % 2 = 0 ∧ addr < 2 ^ 63) :
    field.Placed info.structs := by
  obtain ⟨fuel, type, addr⟩ := field
  cases fuel with
  | zero =>
    refine ⟨fun _ _ _ _ _ => rfl, fun _ _ _ => rfl, ?_, ?_⟩
    · intro P held buffer bufferSize offset h r size _ _ _ _ done
      cases done
    · intro P h r r' size _ done
      cases done
  | succ fuel =>
    cases type with
    | unsupported =>
      refine ⟨fun _ _ _ _ _ => rfl, fun _ _ _ => rfl, ?_, ?_⟩
      · intro P held buffer bufferSize offset h r size _ _ _ _ done
        cases done
      · intro P h r r' size _ done
        cases done
    | struct name => exact whole.elim
    | array elem numElems =>
      -- only an array whose elements have no size is left in one piece
      obtain ⟨e, failed⟩ := whole
      have unsized : getSize info.structs (.array elem numElems) = .error e := by rw [getSize, failed]; rfl
      refine ⟨fun _ _ _ _ _ => rfl, fun _ _ _ => rfl, ?_, ?_⟩
      · intro P held buffer bufferSize offset h r size _ _ known
        cases unsized.symm.trans known
      · intro P h r r' size known
        cases unsized.symm.trans known
    | integer | floating =>
      refine ⟨fun _ _ _ _ _ => rfl, fun _ _ _ => rfl, ?_, ?_⟩
      · intro P held buffer bufferSize offset h r size _ laid known region done
        obtain rfl := Except.ok.inj known
        exact populateScalar_writes laid region done
      · intro P h r r' size known done
        obtain rfl := Except.ok.inj known
        exact serializeScalar_reads done
    | pointer pointee =>
      obtain ⟨even, canonical⟩ := untagged fuel pointee addr rfl
      obtain ⟨populates, serializes⟩ :=
        @Field.plain_of_untagged info.structs fuel addr pointee even canonical
      have pointeeSized : Sized info.structs pointee := sized
      refine ⟨populates, serializes, ?_, ?_⟩
      · intro P held buffer bufferSize offset h r size alloc laid known region done
        obtain rfl := Except.ok.inj known
        rw [populates] at done
        exact pointer_writes pointeeSized alloc laid region done
      · intro P h r r' size known done
        obtain rfl := Except.ok.inj known
        rw [serializes] at done
        exact pointer_reads done

/-- A struct at an address is populated and recorded part by part, each where
it is and as its type says. -/
structure StructExact (info : TypeInfo) (name base : Nat) : Prop where
  populates : ∀ P buffer bufferSize fuel offset h,
    populateFromBuffer P info.structs buffer bufferSize fuel (.struct name) offset base [] h =
      (fieldsOf info.structs fuel (.struct name) base).foldlM
        (fun (s : Nat × Heap) field => field.populate P info.structs buffer bufferSize s.1 s.2) (offset, h)
  serializes : ∀ P h fuel r, serializeToBuffer P info.structs h fuel (.struct name) base [] r =
    (fieldsOf info.structs fuel (.struct name) base).foldlM (fun r field => field.serialize P info.structs h r) r
  placed : ∀ fuel, ∀ field ∈ fieldsOf info.structs fuel (.struct name) base, field.Placed info.structs

/-- A struct is handled in place exactly if no pointer in it, at any depth of
nesting, lies at an odd address or in the upper half of the address space. -/
theorem structExact_iff (info : TypeInfo) (name base : Nat) :
    StructExact info name base ↔ ∀ fuel left pointee addr,
      ⟨left + 1, .pointer pointee, addr⟩ ∈ fieldsOf info.structs fuel (.struct name) base →
        addr % 2 = 0 ∧ addr < 2 ^ 63 := by
  constructor
  · intro exactly fuel left pointee addr member
    exact (exactly.placed fuel _ member).untagged
  · intro untagged
    refine ⟨fun P buffer bufferSize fuel offset h => populateFromBuffer_fieldsOf fuel _ offset base h,
      fun P h fuel r => serializeToBuffer_fieldsOf fuel _ base r, ?_⟩
    intro fuel field member
    have structSized : Sized info.structs (.struct name) := trivial
    obtain ⟨whole, sized⟩ := fieldsOf_whole structSized field member
    refine whole.placed sized fun left pointee addr same => ?_
    rw [same] at member
    exact untagged fuel left pointee addr member

end Exact

/-- `struct __attribute__((packed)) { char tag; char *name; }` -/
def taggedNameStructs : Nat → StructType
  | 0 => ⟨9, [(.integer 8, 0), (.pointer (.integer 8), 1)]⟩
  | _ => ⟨0, []⟩

def taggedNameTypes : TypeInfo where
  structs := taggedNameStructs
  argTypes := fun _ => []
  inside := by
    intro name field member size known
    cases name with
    | zero =>
      simp only [taggedNameStructs, List.mem_cons, List.not_mem_nil, or_false] at member
      rcases member with rfl | rfl <;> (obtain rfl := Except.ok.inj known; decide)
    | succ name => simp [taggedNameStructs] at member
  separate := by
    intro name
    cases name with
    | zero => 
      simp only [taggedNameStructs, List.pairwise_cons, List.mem_singleton, forall_eq, List.not_mem_nil, false_imp_iff,
        implies_true, List.Pairwise.nil, and_true]
      intro n k first _
      obtain rfl := Except.ok.inj first
      exact .inl (by decide)
    | succ name => simp [taggedNameStructs]
  fields_sized := by
    intro name field member
    cases name with
    | zero =>
      simp only [taggedNameStructs, List.mem_cons, List.not_mem_nil, or_false] at member
      rcases member with rfl | rfl <;> trivial
    | succ name => simp [taggedNameStructs] at member
  args_sized := by simp

/-- The input holds the tag `A`, the length 3 and three characters. -/
def taggedNameInput : Image := Image.poke (fun _ => 0) 0 [65, 3, 0, 0, 0, 97, 98, 99]

/-- The pointer is written one byte too low, over the tag, and its block holds
one character of the three. -/
theorem packed_pointer_misplaced :
    ⟨1, .pointer (.integer 8), 0x1001⟩ ∈ fieldsOf taggedNameStructs 2 (.struct 0) 0x1000 ∧
    ¬StructExact taggedNameTypes 0 0x1000 ∧
    (populateFromBuffer (bumpPlatform 0x2000 []) taggedNameStructs taggedNameInput 8 2 (.struct 0) 0 0x1000 []
        ⟨fun _ => 0, fun x => decide (0x1000 ≤ x) && decide (x < 0x1010), [], []⟩).map
      (fun r => (r.2.bytes.peek 0x1000 9, r.2.blocks)) =
      .ok ([16, 32, 0, 0, 0, 0, 0, 0, 0], [⟨0x2010, 2, 1⟩]) := by
  refine ⟨by decide, fun exactly => ?_, by decide +kernel⟩
  have placed := exactly.placed 2 ⟨1, .pointer (.integer 8), 0x1001⟩ (by decide)
  exact absurd placed.untagged (by decide)

end AflLive.Libgen
