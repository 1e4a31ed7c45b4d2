import AflLive.Libgen.PopulateEnds

/-! The arguments at which the codec aborts or follows a null type object. Such a fault comes from a
part of the type that a walk can come to; and if the values are laid out without odd pointers, there
is an input that leads to each such part. -/
namespace AflLive.Libgen
open Bytes Control Recursion Relation

/-- An argument. With constraints on what it points to, the one element of a pointer is visited, a
scalar as well. -/
def FaultyArgument (structs : Nat → StructType) (deref : Bool) (type : Ty) : Prop :=
  Faulty structs type ∨ deref = true ∧ ∃ pointee, type = .pointer pointee ∧ Faulty structs pointee

/-- The codec never dereferences a null type object and never aborts: populating from any buffer,
with constraints on what the argument points to or without such, and recording from any memory whose
strings end. -/
def NeverAborts (structs : Nat → StructType) (deref : Bool) (type : Ty) : Prop :=
  (∀ P buffer bufferSize fuel offset addr cs h, P.Even → (isDeref addr = true → cs ≠ [] → deref = true) →
    Ensures (fun e => e ≠ .nullType ∧ e ≠ .abort) (fun _ => True)
      (populateFromBuffer P structs buffer bufferSize fuel type offset addr cs h)) ∧
  ∀ P h fuel addr cs r, ¬ Overlong h → Ensures (fun e => e ≠ .nullType ∧ e ≠ .abort) (fun _ => True)
    (serializeToBuffer P structs h fuel type addr cs r)

/-- Types among which a walk stays, all of them handled, are not faulty. -/
theorem not_faulty_of_closed {structs : Nat → StructType} (closed : Ty → Prop) {deref : Bool} {type : Ty}
    (handled : ∀ type, closed type → type.Handled)
    (fields : ∀ name, closed (.struct name) → ∀ field ∈ (structs name).fields, closed field.1)
    (elements : ∀ elem numElems, closed (.array elem numElems) → numElems ≠ 0 → ¬elem.Sizeless ∧ closed elem)
    (pointees : ∀ pointee, closed (.pointer pointee) → ¬pointee.Sizeless ∧ closed pointee) (member : closed type) :
    ¬FaultyArgument structs deref type := by
  have inner : ∀ type, Faulty structs type → ¬closed type := by
    intro type faulty
    induction faulty with
    | own odd => exact fun member => odd (handled _ member)
    | field inside _ ih => exact fun member => ih (fields _ member _ inside)
    | sizelessElement some sizeless => exact fun member => (elements _ _ member some).1 sizeless
    | element some _ ih => exact fun member => ih (elements _ _ member some).2
    | sizelessPointee sizeless => exact fun member => (pointees _ member).1 sizeless
    | pointee _ _ ih => exact fun member => ih (pointees _ member).2
  rintro (faulty | ⟨-, pointee, rfl, faulty⟩)
  · exact inner _ faulty member
  · exact inner _ faulty (pointees _ member).2

/-! ### Faults come from parts that are visited -/

/-- A pointer that hands constraints on to its element. -/
def Build.Tagged (c : Build) : Prop := isDeref c.addr = true ∧ c.cs ≠ []

/-- The faults of a call with what it leads to. -/
def CallFault (structs : Nat → StructType) (c : Build) (e : Fault) : Prop :=
  e = .segv ∨ e = .noMemory ∨ (e = .nullType ∨ e = .abort) ∧
    (Faulty structs c.type ∨ c.Tagged ∧ ∃ pointee, c.type = .pointer pointee ∧ Faulty structs pointee)

section Faults
variable {P : Platform} {structs : Nat → StructType} {buffer : Image} {bufferSize : Nat}

theorem Leads.fault {keeps : Nat → Nat × Heap → Prop} {c d : Build} {e : Fault} (even : P.Even)
    (leads : Leads P structs buffer bufferSize keeps c d) (fault : CallFault structs d e) : CallFault structs c e := by
  refine fault.imp_right (Or.imp_right (And.imp_right ?_))
  cases leads with
  | field member left =>
    rintro (faulty | ⟨⟨-, constrained⟩, -⟩)
    · exact .inl (.field member faulty)
    · exact absurd rfl constrained
  | element inside known left =>
    rintro (faulty | ⟨⟨-, constrained⟩, -⟩)
    · exact .inl (.element (by omega) faulty)
    · exact absurd rfl constrained
  | @pointee pointee offset addr cs h numElems i size s counted each inside known left =>
    rintro (faulty | ⟨⟨odd, constrained⟩, -⟩)
    · cases scalar : pointee.isScalar with
      | false => exact .inl (.pointee scalar faulty)
      | true =>
        have visited : isDeref addr = true ∧ cs ≠ [] := by simpa [Build.bulk, scalar] using each
        exact .inr ⟨visited, pointee, rfl, faulty⟩
    · -- the only element of a dereferenced pointer is where its block begins
      have deref : isDeref addr = true := by
        by_contra plain
        simp [plain] at constrained
      have one : numElems = 1 := by simpa [Build.count, deref, eq_comm] using counted
      obtain rfl : i = 0 := by omega
      have start := even h.blocks (size * (numElems + 1))
      simp [isDeref, start] at odd

theorem populateFromBuffer_faults (even : P.Even) (fuel : Nat) (c : Build) :
    Ensures (fun e => e = .fuel ∨ CallFault structs c e) (fun _ => True)
      (populateFromBuffer P structs buffer bufferSize fuel c.type c.offset c.addr c.cs c.heap) := by
  rw [populateFromBuffer_calls]
  refine eval_faults (CallFault structs) (fun c => ?_) fuel c
  exact (populateCalls_spec (Keeps.unknown bufferSize) (.inl fun _ _ => trivial)).mono
    (fun d leads e fault => leads.fault even fault) (fun _ => Or.imp_right (Or.imp_right (And.imp_right .inl)))
    fun _ given => given

theorem Nested.fault {h : Heap} {p q : Place} {e : Fault} (nested : Nested structs h p q)
    (fault : RecordFault structs h q.type e) : RecordFault structs h p.type e := by
  refine fault.imp_right (Or.imp_right (And.imp_right ?_))
  rintro ⟨faulty, compound⟩
  cases nested with
  | field member => exact ⟨.field member faulty, rfl⟩
  | element inside known => exact ⟨.element (by omega) faulty, rfl⟩
  | pointee counted inside known loaded => exact ⟨.pointee compound faulty, rfl⟩

theorem serializeToBuffer_faults (fuel : Nat) (type : Ty) (addr : Nat) (cs : List Constraint) (h : Heap)
    (r : Recording) :
    Ensures (fun e => e = .fuel ∨ RecordFault structs h type e) (fun _ => True)
      (serializeToBuffer P structs h fuel type addr cs r) := by
  have walk : Ensures (fun e => e = .fuel ∨ RecordFault structs h type e) (fun _ => True)
      (eval .fuel (serializeCalls P structs h) fuel ⟨type, addr, cs⟩) := by
    refine eval_faults (fun p : Place => RecordFault structs h p.type) (fun p => ?_) fuel _
    exact (serializeCalls_spec p).mono (fun q nested e fault => nested.fault fault)
      (fun _ fault => fault) fun _ given => given
  rw [← serializeToBuffer_walk fuel type addr cs r] at walk
  cases outcome : serializeToBuffer P structs h fuel type addr cs r with
  | error e =>
    rw [outcome] at walk
    exact walk
  | ok s => trivial

theorem neverAborts_of_not_faulty {deref : Bool} {type : Ty} (sane : ¬FaultyArgument structs deref type) :
    NeverAborts structs deref type := by
  constructor
  · intro P buffer bufferSize fuel offset addr cs h even tags
    refine (populateFromBuffer_faults even fuel ⟨type, offset, addr, cs, h⟩).allow ?_
    rintro e (rfl | rfl | rfl | ⟨_, faulty | ⟨tagged, faulty⟩⟩)
    · exact ⟨nofun, nofun⟩
    · exact ⟨nofun, nofun⟩
    · exact ⟨nofun, nofun⟩
    · exact absurd (.inl faulty) sane
    · exact absurd (.inr ⟨tags tagged.1 tagged.2, faulty⟩) sane
  · intro P h fuel addr cs r ends
    refine (serializeToBuffer_faults fuel type addr cs h r).allow ?_
    rintro e (rfl | rfl | ⟨_, overlong⟩ | ⟨_, faulty, _⟩)
    · exact ⟨nofun, nofun⟩
    · exact ⟨nofun, nofun⟩
    · exact absurd overlong ends
    · exact absurd (.inl faulty) sane

end Faults

/-! ### Pointers inside values -/

/-- A value of the type has a pointer at the offset. -/
inductive Slot (structs : Nat → StructType) : Ty → Nat → Prop where
  | here {pointee} : Slot structs (.pointer pointee) 0
  | field {name field offset} (member : field ∈ (structs name).fields) (slot : Slot structs field.1 offset) :
      Slot structs (.struct name) (field.2 + offset)
  | element {elem numElems i size offset} (inside : i < numElems) (known : getSize structs elem = .ok size)
      (slot : Slot structs elem offset) : Slot structs (.array elem numElems) (i * size % 2 ^ 32 + offset)

/-- At this address, no pointer of the value looks like a tagged one. -/
def Placed (structs : Nat → StructType) (type : Ty) (addr : Nat) : Prop :=
  ∀ offset, Slot structs type offset → (addr + offset) % 2 = 0 ∧ addr + offset < 2 ^ 63

section Placed
variable {structs : Nat → StructType} {addr : Nat}

theorem Placed.field {name : Nat} {field : Ty × Nat} (placed : Placed structs (.struct name) addr)
    (member : field ∈ (structs name).fields) : Placed structs field.1 (addr + field.2) := by
  intro offset slot
  rw [Nat.add_assoc]
  exact placed _ (.field member slot)

theorem Placed.element {elem : Ty} {numElems i size : Nat} (placed : Placed structs (.array elem numElems) addr)
    (inside : i < numElems) (known : getSize structs elem = .ok size) :
    Placed structs elem (addr + i * size % 2 ^ 32) := by
  intro offset slot
  rw [Nat.add_assoc]
  exact placed _ (.element inside known slot)

end Placed

/-! ### Input that fills a value with empty pointers -/

/-- The bytes of input that a value takes when its pointers are empty. -/
def filler (structs : Nat → StructType) : Nat → Ty → Nat
  | 0, _ => 0
  | _ + 1, .integer bitWidth | _ + 1, .floating bitWidth => bitWidth / 8
  | _ + 1, .pointer _ => 4
  | _ + 1, .unsupported => 0
  | depth + 1, .struct name => ((structs name).fields.map fun field => filler structs depth field.1).sum
  | depth + 1, .array elem numElems => numElems * filler structs depth elem

/-- The input goes on with these bytes. -/
structure Ahead (buffer : Image) (bufferSize offset : Nat) (input : List UInt8) : Prop where
  bytes : buffer.peek offset input.length = input
  inside : offset + input.length ≤ bufferSize

theorem Ahead.append {buffer : Image} {bufferSize offset : Nat} {first second : List UInt8}
    (holds : Ahead buffer bufferSize offset (first ++ second)) :
    Ahead buffer bufferSize offset first ∧ Ahead buffer bufferSize (offset + first.length) second := by
  obtain ⟨front, back⟩ := Image.peek_append holds.bytes
  have inside := holds.inside
  rw [List.length_append] at inside
  exact ⟨⟨front, by omega⟩, ⟨back, by omega⟩⟩

/-- A memory in which nothing is out of bounds. -/
def Heap.Boundless (h : Heap) : Prop := ∀ x, h.mapped x = true

/-- A null type object, or an abort. -/
def Fault.Dead (e : Fault) : Prop := e = .nullType ∨ e = .abort

section Boundless
variable {P : Platform} {structs : Nat → StructType} {h : Heap}

theorem Heap.Boundless.store (boundless : h.Boundless) (a : Nat) (bytes : List UInt8) :
    Ensures Fault.Dead Heap.Boundless (h.store a bytes) := by
  have writable : h.readable a bytes.length = true := Heap.readable_iff.mpr fun x _ _ => boundless x
  rw [Heap.store_eq_ok.mpr ⟨writable, rfl⟩]
  exact boundless

theorem Heap.Boundless.malloc (boundless : h.Boundless) (endless : Endless P) (size numElems : Nat) :
    Ensures Fault.Dead (fun r => r.1 = P.malloc h.blocks size ∧ r.2.Boundless) (h.malloc P size numElems) := by
  rw [Heap.malloc_eq_ok.mpr ⟨rfl, (endless h.blocks size).1, rfl⟩]
  exact ⟨rfl, fun x => by simp [boundless x]⟩

theorem getSize_dead (type : Ty) : Ensures Fault.Dead (fun size => getSize structs type = .ok size)
    (getSize structs type) :=
  ((getSize_faults type).allow fun _ fault => .inl fault.1).known

end Boundless

/-- The walk passes over that much input, unless it is dead. -/
def Skips (buffer : Image) (bufferSize k : Nat) (walk : Nat × Heap → Except Fault (Nat × Heap)) : Prop :=
  ∀ s, Ahead buffer bufferSize s.1 (List.replicate k 0) → s.2.Boundless →
    Ensures Fault.Dead (fun r => r.1 = s.1 + k ∧ r.2.Boundless) (walk s)

section Skips
variable {buffer : Image} {bufferSize k n : Nat}

theorem Skips.bind {first second : Nat × Heap → Except Fault (Nat × Heap)} (skips : Skips buffer bufferSize k first)
    (later : Skips buffer bufferSize n second) : Skips buffer bufferSize (k + n) fun s => first s >>= second := by
  intro s zeros boundless
  rw [List.replicate_add] at zeros
  obtain ⟨front, back⟩ := zeros.append
  refine (skips s front boundless).bind fun t passed => ?_
  rw [List.length_replicate, ← passed.1] at back
  refine (later t back passed.2).weaken fun r done => ⟨?_, done.2⟩
  rw [done.1, passed.1, Nat.add_assoc]

theorem Skips.foldlM {ι : Type} {walk : Nat × Heap → ι → Except Fault (Nat × Heap)} {takes : ι → Nat} {parts : List ι}
    (each : ∀ part ∈ parts, Skips buffer bufferSize (takes part) fun s => walk s part) :
    Skips buffer bufferSize (parts.map takes).sum fun s => parts.foldlM walk s := by
  induction parts with
  | nil => exact fun s _ boundless => ⟨rfl, boundless⟩
  | cons part parts ih =>
    simp only [List.map_cons, List.sum_cons, List.foldlM_cons]
    exact (each part (by simp)).bind (ih fun other member => each other (by simp [member]))

theorem Skips.forTo {walk : Nat → Nat × Heap → Except Fault (Nat × Heap)}
    (each : ∀ i < n, Skips buffer bufferSize k (walk i)) :
    Skips buffer bufferSize (n * k) fun s => forTo walk n s := by
  induction n with
  | zero =>
    rw [Nat.zero_mul]
    exact fun s _ boundless => ⟨rfl, boundless⟩
  | succ n ih =>
    rw [Nat.succ_mul]
    exact (ih fun i lt => each i (by omega)).bind (each n (by omega))

end Skips

section Values
variable {P : Platform} {structs : Nat → StructType} {buffer : Image} {bufferSize : Nat}

theorem readInteger_skips {offset bitWidth : Nat} (inside : offset + bitWidth / 8 ≤ bufferSize) :
    Ensures Fault.Dead (fun r => r.2 = offset + bitWidth / 8) (readInteger P buffer bufferSize offset bitWidth) := by
  unfold readInteger
  split
  · exact (congrArg Prod.snd (reads_one ..)).trans (advance_inside inside)
  · exact (congrArg Prod.snd (reads_two ..)).trans (advance_inside inside)
  · exact (congrArg Prod.snd (reads_four ..)).trans (advance_inside inside)
  · simp only [Ensures, getBuffEight, reads_four _, advance_add]
    exact advance_inside inside
  · exact .inr rfl

theorem readFloating_skips {offset bitWidth : Nat} (inside : offset + bitWidth / 8 ≤ bufferSize) :
    Ensures Fault.Dead (fun r => r.2 = offset + bitWidth / 8) (readFloating P buffer bufferSize offset bitWidth) := by
  unfold readFloating
  split
  · exact (congrArg Prod.snd (reads_four ..)).trans (advance_inside inside)
  · simp only [Ensures, getBuffEight, reads_four _, advance_add]
    exact advance_inside inside
  · exact .inr rfl

theorem populateScalar_skips {read : Except Fault (Nat × Nat)} {lhsType : LhsType} {addr k : Nat} {s : Nat × Heap}
    (reads : Ensures Fault.Dead (fun r => r.2 = s.1 + k) read) (boundless : s.2.Boundless) :
    Ensures Fault.Dead (fun r => r.1 = s.1 + k ∧ r.2.Boundless) (populateScalar read lhsType addr [] s.2) := by
  refine reads.bind fun r passed => ?_
  exact (boundless.store addr _).bind fun t stays => ⟨passed, stays⟩

/-- The number of elements is the next number of the input. -/
theorem getBuffFour_ahead {offset count : Nat} (low : count < 2 ^ 32)
    (holds : Ahead buffer bufferSize offset (number 4 count)) :
    getBuffFour buffer bufferSize offset = (count, offset + 4) := by
  obtain ⟨bytes, inside⟩ := holds
  rw [number_length] at bytes inside
  rw [reads_four, window_inside buffer inside, bytes, value_number, advance_inside inside]
  exact congrArg (·, offset + 4) (Nat.mod_eq_of_lt low)

/-- A pointer that is not tagged. -/
theorem populate_slot {fuel offset addr count : Nat} {pointee : Ty} {h : Heap}
    (placed : Placed structs (.pointer pointee) addr) (low : count < 2 ^ 32)
    (holds : Ahead buffer bufferSize offset (number 4 count)) :
    populateFromBuffer P structs buffer bufferSize (fuel + 1) (.pointer pointee) offset addr [] h =
      getSize structs pointee >>= fun size => buildBlock P buffer (fun offset addr' h =>
        populateFromBuffer P structs buffer bufferSize fuel pointee offset addr' [] h)
        pointee.isScalar size count addr (offset + 4) h := by
  obtain ⟨even, canonical⟩ := placed 0 .here
  rw [Nat.add_zero] at even canonical
  cases known : getSize structs pointee with
  | ok size => exact populate_pointer_eq canonical even known (getBuffFour_ahead low holds) rfl
  | error e =>
    have plain : isDeref addr = false := by simp [isDeref, even]
    simp only [populateFromBuffer, isFile_eq_false canonical, plain, known, Bool.false_eq_true, if_false]
    rfl

/-- An empty block takes no input. -/
theorem buildBlock_empty {element : Nat → Nat → Heap → Except Fault (Nat × Heap)} {bulk : Bool}
    {size slot offset : Nat} {h : Heap} (endless : Endless P) (short : offset < 2 ^ 32) (boundless : h.Boundless) :
    Ensures Fault.Dead (fun r => r.1 = offset ∧ r.2.Boundless)
      (buildBlock P buffer element bulk size 0 slot offset h) := by
  unfold buildBlock
  refine (boundless.malloc endless _ _).bind fun made first => ?_
  have fill : Ensures Fault.Dead (fun r : Nat × Heap => r.1 = offset ∧ r.2.Boundless)
      (if bulk then bulkCopy buffer 0 size made.1 (offset, made.2)
        else forTo (fun i s => element s.1 (made.1 + i * size % 2 ^ 32) s.2) 0 (offset, made.2)) := by
    cases bulk with
    | false => exact ⟨rfl, first.2⟩
    | true =>
      refine (first.2.store _ _).bind fun t stays => ⟨?_, stays⟩
      rw [Nat.zero_mul, Nat.zero_mod, Nat.add_zero]
      exact Nat.mod_eq_of_lt short
  refine fill.bind fun s filled => ?_
  refine (filled.2.store _ _).bind fun cleared stays => ?_
  exact (stays.store _ _).bind fun last done => ⟨filled.1, done⟩

/-- On zeros a value is filled with zeros and empty pointers, or the walk is dead. -/
theorem Layered.skips {rank : Nat → Nat} (layered : Layered structs rank) (endless : Endless P)
    (short : bufferSize < 2 ^ 32) {type : Ty} {fuel depth addr : Nat} (deep : valueRank rank type < depth)
    (enough : valueRank rank type < fuel) (placed : Placed structs type addr) :
    Skips buffer bufferSize (filler structs depth type) fun s =>
      populateFromBuffer P structs buffer bufferSize fuel type s.1 addr [] s.2 := by
  -- by the nesting of the value; pointers end it
  induction fuel generalizing type depth addr with
  | zero => omega
  | succ fuel ih =>
    obtain ⟨depth, rfl⟩ : ∃ d, depth = d + 1 := ⟨depth - 1, by omega⟩
    cases type with
    | unsupported => exact fun s _ _ => .inl rfl
    | integer bitWidth =>
      intro s zeros boundless
      have inside := zeros.inside
      rw [List.length_replicate] at inside
      exact populateScalar_skips (readInteger_skips inside) boundless
    | floating bitWidth =>
      intro s zeros boundless
      have inside := zeros.inside
      rw [List.length_replicate] at inside
      exact populateScalar_skips (readFloating_skips inside) boundless
    | struct name =>
      refine Skips.foldlM fun field member => ?_
      have lower : valueRank rank field.1 < rank name := layered name field member
      simp only [valueRank] at deep enough
      exact ih (by omega) (by omega) (placed.field member)
    | array elem numElems =>
      refine Skips.forTo fun i inside s zeros boundless => ?_
      refine (getSize_dead elem).bind fun size known => ?_
      simp only [valueRank] at deep enough
      exact ih (by omega) (by omega) (placed.element inside known) s zeros boundless
    | pointer pointee =>
      intro s zeros boundless
      have four : List.replicate 4 0 = number 4 0 := rfl
      have inside := zeros.inside
      simp only [filler] at zeros inside ⊢
      rw [List.length_replicate] at inside
      rw [four] at zeros
      rw [populate_slot placed (by norm_num) zeros]
      refine (getSize_dead pointee).bind fun size _ => ?_
      exact buildBlock_empty endless (by omega) boundless

end Values

/-! ### Input that leads to a fault -/

/-- The input that leads to a part: empty pointers and zeros on the way, one element behind the
pointers that have to be followed. -/
inductive Provokes (structs : Nat → StructType) (rank : Nat → Nat) : Ty → List UInt8 → Prop where
  | own {type} (odd : ¬type.Handled) : Provokes structs rank type []
  | field {name before field after input} (split : (structs name).fields = before ++ field :: after)
      (part : Provokes structs rank field.1 input) : Provokes structs rank (.struct name)
        (List.replicate (before.map fun field => filler structs (rank name) field.1).sum 0 ++ input)
  | sizelessElement {elem numElems} (some : numElems ≠ 0) (sizeless : elem.Sizeless) :
      Provokes structs rank (.array elem numElems) []
  | element {elem numElems input} (some : numElems ≠ 0) (part : Provokes structs rank elem input) :
      Provokes structs rank (.array elem numElems) input
  | sizelessPointee {pointee} (sizeless : pointee.Sizeless) : Provokes structs rank (.pointer pointee) (number 4 0)
  | pointee {pointee input} (compound : pointee.isScalar = false) (part : Provokes structs rank pointee input) :
      Provokes structs rank (.pointer pointee) (number 4 1 ++ input)

theorem faulty_iff_provoked {structs : Nat → StructType} (rank : Nat → Nat) {type : Ty} :
    Faulty structs type ↔ ∃ input, Provokes structs rank type input := by
  constructor
  · intro faulty
    induction faulty with
    | own odd => exact ⟨_, .own odd⟩
    | field member _ ih =>
      obtain ⟨before, after, split⟩ := List.append_of_mem member
      obtain ⟨input, part⟩ := ih
      exact ⟨_, .field split part⟩
    | sizelessElement some sizeless => exact ⟨_, .sizelessElement some sizeless⟩
    | element some _ ih =>
      obtain ⟨input, part⟩ := ih
      exact ⟨_, .element some part⟩
    | sizelessPointee sizeless => exact ⟨_, .sizelessPointee sizeless⟩
    | pointee compound _ ih =>
      obtain ⟨input, part⟩ := ih
      exact ⟨_, .pointee compound part⟩
  · rintro ⟨input, provokes⟩
    induction provokes with
    | own odd => exact .own odd
    | field split _ ih => exact .field (by simp [split]) ih
    | sizelessElement some sizeless => exact .sizelessElement some sizeless
    | element some _ ih => exact .element some ih
    | sizelessPointee sizeless => exact .sizelessPointee sizeless
    | pointee compound _ ih => exact .pointee compound ih

/-- Types whose values are laid out so that no pointer looks tagged, as those of structs that are not
packed are; where any input leads to a fault, one does that the offset can count. -/
structure Regular (structs : Nat → StructType) (rank : Nat → Nat) (type : Ty) : Prop where
  layered : Layered structs rank
  straight : ∀ part, ReflTransGen (Component structs) type part → ∀ offset, Slot structs part offset →
    offset % 2 = 0 ∧ offset < 2 ^ 62
  near : ∀ input, Provokes structs rank type input →
    ∃ short, Provokes structs rank type short ∧ short.length < 2 ^ 32

section Provoke
variable {P : Platform} {structs : Nat → StructType} {rank : Nat → Nat} {buffer : Image} {bufferSize : Nat} {type : Ty}

/-- The call is dead. -/
def Dies (x : Except Fault (Nat × Heap)) : Prop := Ensures Fault.Dead (fun _ => False) x

theorem Dies.bind {x : Except Fault (Nat × Heap)} {f : Nat × Heap → Except Fault (Nat × Heap)} (dies : Dies x) :
    Dies (x >>= f) :=
  Ensures.bind dies fun _ impossible => impossible.elim

theorem Dies.forTo {walk : Nat → Nat × Heap → Except Fault (Nat × Heap)} {n : Nat} {s : Nat × Heap} (some : n ≠ 0)
    (first : Dies (walk 0 s)) : Dies (forTo walk n s) := by
  induction n with
  | zero => exact absurd rfl some
  | succ n ih =>
    cases n with
    | zero => exact first
    | succ n => exact (ih (Nat.succ_ne_zero n)).bind

theorem dies_of_odd {fuel offset addr : Nat} {cs : List Constraint} {h : Heap} (odd : ¬type.Handled) :
    Dies (populateFromBuffer P structs buffer bufferSize (fuel + 1) type offset addr cs h) := by
  cases type with
  | pointer | struct | array => exact absurd trivial odd
  | unsupported => exact .inl rfl
  | integer bitWidth =>
    simp only [Ty.Handled, not_or] at odd
    rw [populateFromBuffer, readInteger]
    · exact .inr rfl
    all_goals omega
  | floating bitWidth =>
    simp only [Ty.Handled, not_or] at odd
    rw [populateFromBuffer, readFloating]
    · exact .inr rfl
    all_goals omega

theorem placed_of_straight {addr : Nat}
    (straight : ∀ offset, Slot structs type offset → offset % 2 = 0 ∧ offset < 2 ^ 62) (even : addr % 2 = 0)
    (low : addr < 2 ^ 62) : Placed structs type addr := by
  intro offset slot
  obtain ⟨parity, bound⟩ := straight offset slot
  omega

/-- One element that is visited. -/
theorem buildBlock_dies {element : Nat → Nat → Heap → Except Fault (Nat × Heap)} {size slot offset : Nat} {h : Heap}
    (endless : Endless P) (boundless : h.Boundless)
    (first : ∀ res t, res % 2 = 0 → res < 2 ^ 62 → t.Boundless → Dies (element offset res t)) :
    Dies (buildBlock P buffer element false size 1 slot offset h) := by
  unfold buildBlock
  refine Ensures.bind (boundless.malloc endless _ _) fun made start => ?_
  obtain ⟨-, even, low⟩ := endless h.blocks (size * (1 + 1))
  rw [← start.1] at even low
  refine Dies.bind (Dies.forTo Nat.one_ne_zero ?_)
  rw [Nat.zero_mul, Nat.zero_mod, Nat.add_zero]
  exact first made.1 made.2 even low start.2

/-- On that input the walk comes to the fault. -/
theorem Provokes.dies {input : List UInt8} (provokes : Provokes structs rank type input)
    (layered : Layered structs rank)
    (straight : ∀ part, ReflTransGen (Component structs) type part → ∀ offset, Slot structs part offset →
      offset % 2 = 0 ∧ offset < 2 ^ 62)
    (endless : Endless P) (short : bufferSize < 2 ^ 32) :
    ∃ enough, ∀ fuel offset addr h, enough ≤ fuel → Placed structs type addr → Ahead buffer bufferSize offset input →
      h.Boundless → Dies (populateFromBuffer P structs buffer bufferSize fuel type offset addr [] h) := by
  induction provokes with
  | own odd =>
    refine ⟨1, fun fuel offset addr h enough _ _ _ => ?_⟩
    obtain ⟨fuel, rfl⟩ : ∃ f, fuel = f + 1 := ⟨fuel - 1, by omega⟩
    exact dies_of_odd odd
  | @field name before field after input split _ ih =>
    have member : field ∈ (structs name).fields := by simp [split]
    obtain ⟨enough, reached⟩ := ih fun part path => straight part (path.head (.field member))
    refine ⟨max (rank name) enough + 1, fun fuel offset addr h plenty placed holds boundless => ?_⟩
    obtain ⟨fuel, rfl⟩ : ∃ f, fuel = f + 1 := ⟨fuel - 1, by omega⟩
    obtain ⟨zeros, rest⟩ := holds.append
    have skips : Skips buffer bufferSize (before.map fun field => filler structs (rank name) field.1).sum fun s =>
        before.foldlM (fun s field =>
          populateFromBuffer P structs buffer bufferSize fuel field.1 s.1 (addr + field.2) [] s.2) s := by
      refine Skips.foldlM fun earlier inside => ?_
      have there : earlier ∈ (structs name).fields := by simp [split, inside]
      have lower := layered name earlier there
      exact layered.skips endless short lower (by omega) (placed.field there)
    simp only [populateFromBuffer, split, List.foldlM_append, List.foldlM_cons]
    refine Ensures.bind (skips (offset, h) zeros boundless) fun s passed => Dies.bind ?_
    rw [List.length_replicate, ← passed.1] at rest
    exact reached fuel s.1 _ s.2 (by omega) (placed.field member) rest passed.2
  | @sizelessElement elem numElems some sizeless =>
    refine ⟨1, fun fuel offset addr h enough _ _ _ => ?_⟩
    obtain ⟨fuel, rfl⟩ : ∃ f, fuel = f + 1 := ⟨fuel - 1, by omega⟩
    rw [populateFromBuffer]
    refine Dies.forTo some ?_
    rw [getSize_sizeless sizeless]
    exact .inl rfl
  | @element elem numElems input some _ ih =>
    obtain ⟨enough, reached⟩ := ih fun part path => straight part (path.head .element)
    refine ⟨enough + 1, fun fuel offset addr h plenty placed holds boundless => ?_⟩
    obtain ⟨fuel, rfl⟩ : ∃ f, fuel = f + 1 := ⟨fuel - 1, by omega⟩
    rw [populateFromBuffer]
    refine Dies.forTo some (Ensures.bind (getSize_dead elem) fun size known => ?_)
    exact reached fuel offset _ h (by omega) (placed.element (Nat.pos_of_ne_zero some) known) holds boundless
  | @sizelessPointee pointee sizeless =>
    refine ⟨1, fun fuel offset addr h enough placed holds _ => ?_⟩
    obtain ⟨fuel, rfl⟩ : ∃ f, fuel = f + 1 := ⟨fuel - 1, by omega⟩
    rw [populate_slot placed (by norm_num) holds, getSize_sizeless sizeless]
    exact .inl rfl
  | @pointee pointee input compound _ ih =>
    have inner : ∀ part, ReflTransGen (Component structs) pointee part → _ :=
      fun part path => straight part (path.head .pointee)
    obtain ⟨enough, reached⟩ := ih inner
    refine ⟨enough + 1, fun fuel offset addr h plenty placed holds boundless => ?_⟩
    obtain ⟨fuel, rfl⟩ : ∃ f, fuel = f + 1 := ⟨fuel - 1, by omega⟩
    obtain ⟨count, rest⟩ := holds.append
    rw [number_length] at rest
    rw [populate_slot placed (by norm_num) count, compound]
    refine Ensures.bind (getSize_dead pointee) fun size _ => ?_
    refine buildBlock_dies endless boundless fun res t even low stays => ?_
    exact reached fuel _ res t (by omega) (placed_of_straight (inner pointee .refl) even low) rest stays

/-- A platform whose memory does not run out. -/
def endlessPlatform : Platform := ⟨fun _ _ => 0x2000, fun _ _ => 0, fun _ _ => [], fun _ => none, []⟩

theorem endlessPlatform_endless : Endless endlessPlatform := fun _ _ => by norm_num [endlessPlatform]

theorem endlessPlatform_even : endlessPlatform.Even := fun _ _ => by norm_num [endlessPlatform]

theorem Dies.not_lives {x : Except Fault (Nat × Heap)} (dies : Dies x) :
    ¬Ensures (fun e => e ≠ .nullType ∧ e ≠ .abort) (fun _ => True) x := by
  intro lives
  cases x with
  | ok r => exact dies
  | error e => exact dies.elim lives.1 lives.2

/-- A dereferenced pointer with a constraint visits what it points to, a scalar as well. -/
theorem tagged_dies {h : Heap} (endless : Endless P) (boundless : h.Boundless) (odd : ¬type.Handled) :
    Dies (populateFromBuffer P structs buffer bufferSize 2 (.pointer type) 0 0x1001 [⟨.EQ, .constant 0, false⟩] h) := by
  have file : isFile 0x1001 = false := rfl
  have deref : isDeref 0x1001 = true := rfl
  simp only [populateFromBuffer, file, deref, Bool.false_eq_true, if_false, if_true, ok_bind]
  refine Ensures.bind (getSize_dead type) fun size _ => ?_
  exact buildBlock_dies endless boundless fun res t _ _ _ => dies_of_odd odd

/-- The codec aborts, or follows a null type object, exactly if a walk can come to a part that it
does not handle. -/
theorem Regular.neverAborts_iff (regular : Regular structs rank type) (deref : Bool) :
    NeverAborts structs deref type ↔ ¬FaultyArgument structs deref type := by
  let memory : Heap := ⟨fun _ => 0, fun _ => true, [], []⟩
  have boundless : memory.Boundless := fun _ => rfl
  have dead (faulty : Faulty structs type) : ¬NeverAborts structs deref type := by
    intro never
    obtain ⟨long, leads⟩ := (faulty_iff_provoked rank).mp faulty
    obtain ⟨input, provokes, short⟩ := regular.near long leads
    have holds : Ahead (Image.poke (fun _ => 0) 0 input) input.length 0 input := ⟨by simp, by simp⟩
    obtain ⟨enough, reached⟩ := @Provokes.dies endlessPlatform structs rank (Image.poke (fun _ => 0) 0 input)
      input.length type input provokes regular.layered regular.straight endlessPlatform_endless short
    have placed : Placed structs type 0x1000 :=
      placed_of_straight (regular.straight type .refl) (by norm_num) (by norm_num)
    have lives := never.1 endlessPlatform (Image.poke (fun _ => 0) 0 input) input.length enough 0 0x1000 [] memory
      endlessPlatform_even fun _ constrained => absurd rfl constrained
    exact (reached enough 0 0x1000 memory le_rfl placed holds boundless).not_lives lives
  refine ⟨?_, neverAborts_of_not_faulty⟩
  rintro never (faulty | ⟨allowed, pointee, rfl, faulty⟩)
  · exact dead faulty never
  · cases scalar : pointee.isScalar with
    | false => exact dead (.pointee scalar faulty) never
    | true =>
      have odd : ¬pointee.Handled := by
        cases faulty with
        | own odd => exact odd
        | field | sizelessElement | element | sizelessPointee | pointee => cases scalar
      have dies := @tagged_dies endlessPlatform structs (fun _ => 0) 0 pointee memory endlessPlatform_endless
        boundless odd
      exact dies.not_lives (never.1 _ _ _ _ _ _ _ _ endlessPlatform_even fun _ _ => allowed)

end Provoke
end AflLive.Libgen
