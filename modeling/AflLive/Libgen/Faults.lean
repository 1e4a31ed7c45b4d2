import AflLive.Libgen.Serialize

/-! The faults each function of the codec can end in. A null type object and an abort are always
due to a part of the type that a walk comes to and the run time does not handle, or to a string
without an end. -/
namespace AflLive.Libgen
open Bytes Control Relation

/-- A part of a type: a field, an element, or what a pointer points to. -/
inductive Component (structs : Nat → StructType) : Ty → Ty → Prop where
  | field {name field} (member : field ∈ (structs name).fields) : Component structs (.struct name) field.1
  | element {elem numElems} : Component structs (.array elem numElems) elem
  | pointee {pointee} : Component structs (.pointer pointee) pointee

/-- The scalars that have a reader, and everything that is made of types. -/
def Ty.Handled : Ty → Prop
  | .integer bitWidth => bitWidth = 8 ∨ bitWidth = 16 ∨ bitWidth = 32 ∨ bitWidth = 64
  | .floating bitWidth => bitWidth = 32 ∨ bitWidth = 64
  | .unsupported => False
  | .pointer _ | .struct _ | .array _ _ => True

/-- The types `getSize` has no answer for: the null object, and arrays of it, empty ones included. -/
def Ty.Sizeless : Ty → Prop
  | .unsupported => True
  | .array elem _ => elem.Sizeless
  | .integer _ | .floating _ | .pointer _ | .struct _ => False

/-- What a walk can come to a fault at. It visits the fields of a struct and the elements of an array
that has some; the size of what a pointer points to is asked for in any case, and what it points to
is visited unless it is a scalar, which is copied. -/
inductive Faulty (structs : Nat → StructType) : Ty → Prop where
  | own {type} (odd : ¬type.Handled) : Faulty structs type
  | field {name field} (member : field ∈ (structs name).fields) (part : Faulty structs field.1) :
      Faulty structs (.struct name)
  | sizelessElement {elem numElems} (some : numElems ≠ 0) (sizeless : elem.Sizeless) :
      Faulty structs (.array elem numElems)
  | element {elem numElems} (some : numElems ≠ 0) (part : Faulty structs elem) : Faulty structs (.array elem numElems)
  | sizelessPointee {pointee} (sizeless : pointee.Sizeless) : Faulty structs (.pointer pointee)
  | pointee {pointee} (compound : pointee.isScalar = false) (part : Faulty structs pointee) :
      Faulty structs (.pointer pointee)

/-- A scan for the end of a string gives up. -/
def Overlong (h : Heap) : Prop := ∃ ptr, getStringLength h ptr = .error .abort

/-- The faults of `populateFromBuffer`. -/
def BuildFault (structs : Nat → StructType) (type : Ty) (e : Fault) : Prop :=
  e = .segv ∨ e = .noMemory ∨ (e = .nullType ∨ e = .abort) ∧ Faulty structs type

/-- The faults of `serializeToBuffer`. Scalars of any width are recorded. -/
def RecordFault (structs : Nat → StructType) (h : Heap) (type : Ty) (e : Fault) : Prop :=
  e = .segv ∨ e = .abort ∧ Overlong h ∨ e = .nullType ∧ Faulty structs type ∧ type.isScalar = false

section
variable {P : Platform} {structs : Nat → StructType} {buffer : Image} {h : Heap} {type part : Ty} {e : Fault}

theorem BuildFault.ne_fuel (fault : BuildFault structs type e) : e ≠ .fuel := by
  rintro rfl
  simp [BuildFault] at fault

theorem RecordFault.ne_fuel (fault : RecordFault structs h type e) : e ≠ .fuel := by
  rintro rfl
  simp [RecordFault] at fault

/-! ### Memory -/

theorem load_faults (a n : Nat) : Ensures (· = Fault.segv) (fun _ => True) (h.load a n) := by
  unfold Heap.load
  split
  · trivial
  · exact rfl

theorem store_faults (a : Nat) (bytes : List UInt8) : Ensures (· = Fault.segv) (fun _ => True) (h.store a bytes) := by
  unfold Heap.store
  split
  · trivial
  · exact rfl

theorem malloc_faults (size numElems : Nat) :
    Ensures (· = Fault.noMemory) (fun _ => True) (h.malloc P size numElems) := by
  unfold Heap.malloc
  simp only
  split
  · exact rfl
  · trivial

/-! ### Types -/

theorem getSize_faults (type : Ty) :
    Ensures (fun e => e = Fault.nullType ∧ type.Sizeless) (fun _ => True) (getSize structs type) := by
  induction type with
  | integer | floating | pointer | struct => trivial
  | unsupported => exact ⟨rfl, trivial⟩
  | array elem numElems ih => exact Ensures.bind ih fun size _ => trivial

theorem getSize_sizeless (sizeless : type.Sizeless) : getSize structs type = .error .nullType := by
  induction type with
  | integer | floating | pointer | struct => exact sizeless.elim
  | unsupported => rfl
  | array elem numElems ih =>
    rw [getSize, ih sizeless]
    rfl

/-! ### Constraints -/

theorem rhs_faults (rhs : Rhs) (n : Nat) : Ensures (· = Fault.segv) (fun _ => True) (rhs.load h n) := by
  cases rhs with
  | constant c => trivial
  | arg ptr => exact load_faults ptr n

theorem clampWith_faults (less : Nat → Nat → Bool) (n : Nat) (kind : Kind) (rhs : Rhs) (lhs : Nat) :
    Ensures (· = Fault.segv) (fun _ => True) (clampWith less n h kind rhs lhs) :=
  (rhs_faults rhs n).bind fun _ _ => trivial

theorem constraint_faults (c : Constraint) (lhsType : LhsType) (lhs : Nat) :
    Ensures (· = Fault.segv) (fun _ => True) (c.run h lhsType lhs) := by
  unfold Constraint.run
  cases c.kind with
  | EQ => exact (rhs_faults c.rhs _).bind fun _ _ => trivial
  | LE | GE =>
    simp only
    unfold constrain
    split
    all_goals first
      | exact clampWith_faults _ _ _ _ _
      | trivial

theorem runConstraints_faults (lhsType : LhsType) (cs : List Constraint) (lhs : Nat) :
    Ensures (· = Fault.segv) (fun _ => True) (runConstraints h lhsType cs lhs) :=
  foldlM_ensures (I := fun _ _ => True) cs trivial fun _ c _ _ value _ => constraint_faults c lhsType value

/-! ### Recording -/

theorem scanString_faults (room ptr : Nat) :
    Ensures (fun e => e = .segv ∨ e = .abort) (fun _ => True) (scanString h room ptr) := by
  induction room generalizing ptr with
  | zero => exact .inr rfl
  | succ room ih =>
    refine ((load_faults ptr 1).allow fun _ => .inl).bind fun byte _ => ?_
    split
    · trivial
    · exact (ih (ptr + 1)).bind fun rest _ => trivial

theorem getStringLength_faults (ptr : Nat) :
    Ensures (fun e => e = .segv ∨ e = .abort ∧ Overlong h) (fun _ => True) (getStringLength h ptr) := by
  have scan := scanString_faults (h := h) 0xffffffff ptr
  cases outcome : getStringLength h ptr with
  | ok n => trivial
  | error e =>
    rw [getStringLength] at outcome
    rw [outcome] at scan
    rcases scan with rfl | rfl
    · exact .inl rfl
    · exact .inr ⟨rfl, ptr, outcome⟩

theorem recordedLength_faults (pointee : Ty) (slot : Nat) (deref : Bool) (cs : List Constraint) :
    Ensures (fun e => e = .segv ∨ e = .abort ∧ Overlong h) (fun _ => True)
      (recordedLength h pointee slot deref cs) := by
  refine ((load_faults slot 8).allow fun _ => .inl).bind fun stored _ => ?_
  have equality : Ensures (· = Fault.segv) (fun _ => True) (constraintsImplyEquality h .pointer cs) :=
    (mapM_ensures fun v _ => runConstraints_faults .pointer cs v).bind fun results _ => trivial
  refine (equality.allow fun _ => .inl).bind fun equal _ => ?_
  generalize (if value stored = 0 then 0 else 1) = start
  split
  · exact getStringLength_faults _
  split
  · trivial
  · refine ((runConstraints_faults .pointer cs _).allow fun _ => .inl).bind fun numElems _ => ?_
    split
    · exact getStringLength_faults _
    · trivial

theorem serializeScalar_faults (addr size : Nat) (r : Recording) :
    Ensures (· = Fault.segv) (fun _ => True) (serializeScalar h addr size r) :=
  (load_faults addr size).bind fun _ _ => trivial

theorem serializeFile_faults (slot : Nat) (r : Recording) :
    Ensures (· = Fault.segv) (fun _ => True) (serializeFile P h slot r) := by
  refine (load_faults slot 8).bind fun stored _ => ?_
  split <;> trivial

/-! ### Building -/

/-- What is left of the input does not grow. -/
def Shrinks (bufferSize offset : Nat) (r : Nat × Heap) : Prop := bufferSize - r.1 ≤ bufferSize - offset

theorem advance_remaining (bufferSize offset n : Nat) :
    bufferSize - advance bufferSize offset n ≤ bufferSize - offset := by
  unfold advance
  split <;> omega

theorem getBuffFour_remaining (buffer : Image) (bufferSize offset : Nat) :
    bufferSize - (getBuffFour buffer bufferSize offset).2 ≤ bufferSize - offset := by
  rw [reads_four]
  exact advance_remaining _ _ _

theorem getBuffEight_remaining (P : Platform) (buffer : Image) (bufferSize offset : Nat) :
    bufferSize - (getBuffEight P buffer bufferSize offset).2 ≤ bufferSize - offset :=
  le_trans (getBuffFour_remaining buffer bufferSize _) (getBuffFour_remaining buffer bufferSize offset)

theorem readInteger_faults (bufferSize offset bitWidth : Nat) :
    Ensures (fun e => e = .abort ∧ ¬ (Ty.integer bitWidth).Handled) (fun r => bufferSize - r.2 ≤ bufferSize - offset)
      (readInteger P buffer bufferSize offset bitWidth) := by
  unfold readInteger
  split
  · exact le_of_eq_of_le (by rw [reads_one]) (advance_remaining bufferSize offset 1)
  · exact le_of_eq_of_le (by rw [reads_two]) (advance_remaining bufferSize offset 2)
  · exact getBuffFour_remaining buffer bufferSize offset
  · exact getBuffEight_remaining P buffer bufferSize offset
  · exact ⟨rfl, by simp_all [Ty.Handled]⟩

theorem readFloating_faults (bufferSize offset bitWidth : Nat) :
    Ensures (fun e => e = .abort ∧ ¬ (Ty.floating bitWidth).Handled) (fun r => bufferSize - r.2 ≤ bufferSize - offset)
      (readFloating P buffer bufferSize offset bitWidth) := by
  unfold readFloating
  split
  · exact getBuffFour_remaining buffer bufferSize offset
  · exact getBuffEight_remaining P buffer bufferSize offset
  · exact ⟨rfl, by simp_all [Ty.Handled]⟩

theorem populateScalar_faults {read : Except Fault (Nat × Nat)} {lhsType : LhsType} {addr bufferSize offset : Nat}
    {cs : List Constraint} (reads : Ensures (fun e => e = .abort ∧ ¬ type.Handled)
      (fun r => bufferSize - r.2 ≤ bufferSize - offset) read) :
    Ensures (BuildFault structs type) (Shrinks bufferSize offset) (populateScalar read lhsType addr cs h) := by
  refine (reads.allow ?_).bind fun r left => ?_
  · exact fun e fault => .inr (.inr ⟨.inr fault.1, .own fault.2⟩)
  refine ((runConstraints_faults lhsType cs r.1).allow fun _ => .inl).bind fun value _ => ?_
  exact ((store_faults addr _).allow fun _ => .inl).bind fun t _ => left

theorem populateFile_faults (bufferSize offset slot : Nat) :
    Ensures (BuildFault structs type) (Shrinks bufferSize offset) (populateFile P buffer bufferSize offset slot h) := by
  refine ((malloc_faults _ _).allow fun _ null => .inr (.inl null)).bind fun block _ => ?_
  refine ((store_faults _ _).allow fun _ => .inl).bind fun named _ => ?_
  refine ((store_faults _ _).allow fun _ => .inl).bind fun t _ => ?_
  simp [Ensures, Shrinks, pure, Except.pure]

theorem bulkCopy_faults {count size res offset bufferSize : Nat} (fits : offset + count * size % 2 ^ 32 < 2 ^ 32) :
    Ensures (· = Fault.segv) (Shrinks bufferSize offset) (bulkCopy buffer count size res (offset, h)) := by
  refine (store_faults _ _).bind fun t _ => ?_
  simp only [Ensures, Shrinks, pure, Except.pure, Nat.mod_eq_of_lt fits]
  omega

end
end AflLive.Libgen
