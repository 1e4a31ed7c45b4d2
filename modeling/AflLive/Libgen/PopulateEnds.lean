import AflLive.Libgen.RecordEnds
import AflLive.Libgen.Wrap

/-! Termination of `populateFromBuffer`. Every pointer takes its count from the input, so the
nesting ends when the input does, unless a level takes none: a pointer taken for a dereferenced one
has one element whatever the input says, and a copy can move the offset back. -/
namespace AflLive.Libgen
open Bytes Control Recursion Relation

/-- One call of `populateFromBuffer`. -/
structure Build where
  type : Ty
  offset : Nat
  addr : Nat
  cs : List Constraint
  heap : Heap

/-- The number of elements a pointer is built with. -/
def Build.count (buffer : Image) (bufferSize : Nat) (c : Build) : Except Fault Nat :=
  if isDeref c.addr then .ok 1 else runConstraints c.heap .pointer c.cs (getBuffFour buffer bufferSize c.offset).1

/-- Whether the elements are copied as a whole. -/
def Build.bulk (c : Build) (pointee : Ty) : Bool := (!isDeref c.addr || c.cs.isEmpty) && pointee.isScalar

/-- The body of `populateFromBuffer`. -/
def populateCalls (P : Platform) (structs : Nat → StructType) (buffer : Image) (bufferSize : Nat) (c : Build) :
    Proc Fault Build (Nat × Heap) (Nat × Heap) :=
  match c.type with
  | .unsupported => .done (.error .nullType)
  | .integer bitWidth => .done (populateScalar (readInteger P buffer bufferSize c.offset bitWidth)
      (.integer (bitWidth / 8)) c.addr c.cs c.heap)
  | .floating bitWidth => .done (populateScalar (readFloating P buffer bufferSize c.offset bitWidth)
      (.floating (bitWidth / 8)) c.addr c.cs c.heap)
  | .struct name => (structs name).fields.foldlM (fun s field =>
      .ask ⟨field.1, s.1, c.addr + field.2, [], s.2⟩) (c.offset, c.heap)
  | .array elem numElems =>
    .forTo (fun i s => do
      let size ← .done (getSize structs elem)
      .ask ⟨elem, s.1, c.addr + i * size % 2 ^ 32, [], s.2⟩) numElems (c.offset, c.heap)
  | .pointer pointee =>
    if isFile c.addr then .done (populateFile P buffer bufferSize c.offset (untag c.addr) c.heap)
    else do
      let numElems ← .done (c.count buffer bufferSize)
      let pointeeSize ← .done (getSize structs pointee)
      let (res, h) ← .done (c.heap.malloc P (pointeeSize * (numElems + 1)) numElems)
      let offset := (getBuffFour buffer bufferSize c.offset).2
      let (offset, h) ←
        (if c.bulk pointee then .done (bulkCopy buffer numElems pointeeSize res (offset, h))
        else .forTo (fun i s => .ask ⟨pointee, s.1, res + i * pointeeSize % 2 ^ 32,
          if isDeref c.addr then c.cs else [], s.2⟩) numElems (offset, h))
      let h ← .done (h.store (res + numElems * pointeeSize) (List.replicate pointeeSize 0))
      let h ← .done (h.store (untag c.addr) (number 8 res))
      return (offset, h)

section Calls
variable {P : Platform} {structs : Nat → StructType} {buffer : Image} {bufferSize : Nat}

theorem populateFromBuffer_calls (fuel : Nat) (type : Ty) (offset addr : Nat) (cs : List Constraint) (h : Heap) :
    populateFromBuffer P structs buffer bufferSize fuel type offset addr cs h =
      eval .fuel (populateCalls P structs buffer bufferSize) fuel ⟨type, offset, addr, cs, h⟩ := by
  induction fuel generalizing type offset addr cs h with
  | zero => rfl
  | succ fuel ih =>
    rw [eval, populateCalls]
    cases type with
    | unsupported => rfl
    | integer bitWidth | floating bitWidth => rfl
    | struct name => simp only [populateFromBuffer, ih, Proc.run_foldlM, Proc.run_ask]
    | array elem numElems =>
      simp only [populateFromBuffer, ih, Proc.run_forTo, Proc.run_bind, Proc.run_done, Proc.run_ask]
    | pointer pointee =>
      simp only [populateFromBuffer, ih]
      split
      · rfl
      · simp only [buildBlock, Build.count, Build.bulk, Proc.run_bind, Proc.run_done, Proc.run_pure]
        rcases Bool.eq_false_or_eq_true ((!isDeref addr || cs.isEmpty) && pointee.isScalar) with bulk | bulk <;>
          simp only [bulk, Bool.false_eq_true, if_true, if_false, Proc.run_done, Proc.run_forTo, Proc.run_ask]

end Calls

section Input
variable {buffer : Image}

/-- A count that is not zero was read from the input. -/
theorem getBuffFour_consumes {bufferSize offset : Nat} (some : (getBuffFour buffer bufferSize offset).1 ≠ 0) :
    bufferSize - (getBuffFour buffer bufferSize offset).2 < bufferSize - offset := by
  rw [reads_four] at some ⊢
  have inside : offset < bufferSize := by
    by_contra behind
    apply some
    simp [window, behind, show ¬ offset + 1 < bufferSize by omega, show ¬ offset + 1 + 1 < bufferSize by omega,
      show ¬ offset + 1 + 1 + 1 < bufferSize by omega, value]
  simp only [advance, if_pos inside]
  omega

theorem count_faults (bufferSize : Nat) (c : Build) :
    Ensures (· = Fault.segv) (fun _ => True) (c.count buffer bufferSize) := by
  unfold Build.count
  split
  · trivial
  · exact runConstraints_faults _ _ _

end Input

/-! ### Nested calls -/

/-- What may be known of the offset a call leaves behind: something that holds of every call that
leaves no more input than it found, and adds up. -/
structure Keeps (bufferSize : Nat) (keeps : Nat → Nat × Heap → Prop) : Prop where
  shrinks : ∀ offset r, Shrinks bufferSize offset r → keeps offset r
  trans : ∀ offset s r, keeps offset s → keeps s.1 r → keeps offset r

theorem Shrinks.keeps (bufferSize : Nat) : Keeps bufferSize (Shrinks bufferSize) :=
  ⟨fun _ _ left => left, fun _ _ _ first second => le_trans second first⟩

theorem Keeps.unknown (bufferSize : Nat) : Keeps bufferSize fun _ _ => True :=
  ⟨fun _ _ _ => trivial, fun _ _ _ _ _ => trivial⟩

/-- The calls a call leads to, as far as the earlier ones are known. -/
inductive Leads (P : Platform) (structs : Nat → StructType) (buffer : Image) (bufferSize : Nat)
    (keeps : Nat → Nat × Heap → Prop) : Build → Build → Prop where
  | field {name offset addr cs h field s} (member : field ∈ (structs name).fields) (left : keeps offset s) :
      Leads P structs buffer bufferSize keeps ⟨.struct name, offset, addr, cs, h⟩
        ⟨field.1, s.1, addr + field.2, [], s.2⟩
  | element {elem numElems offset addr cs h i size s} (inside : i < numElems) (known : getSize structs elem = .ok size)
      (left : keeps offset s) :
      Leads P structs buffer bufferSize keeps ⟨.array elem numElems, offset, addr, cs, h⟩
        ⟨elem, s.1, addr + i * size % 2 ^ 32, [], s.2⟩
  | pointee {pointee offset addr cs h numElems i size s}
      (counted : Build.count buffer bufferSize ⟨.pointer pointee, offset, addr, cs, h⟩ = .ok numElems)
      (each : Build.bulk ⟨.pointer pointee, offset, addr, cs, h⟩ pointee = false) (inside : i < numElems)
      (known : getSize structs pointee = .ok size) (left : keeps (getBuffFour buffer bufferSize offset).2 s) :
      Leads P structs buffer bufferSize keeps ⟨.pointer pointee, offset, addr, cs, h⟩
        ⟨pointee, s.1, P.malloc h.blocks (size * (numElems + 1)) + i * size % 2 ^ 32,
          if isDeref addr then cs else [], s.2⟩

/-- Copying the elements does not wrap the offset. -/
def CopyFits (structs : Nat → StructType) (buffer : Image) (bufferSize : Nat) (c : Build) : Prop :=
  ∀ pointee numElems size, c.type = .pointer pointee → isFile c.addr = false → c.bulk pointee = true →
    c.count buffer bufferSize = .ok numElems → getSize structs pointee = .ok size →
    (getBuffFour buffer bufferSize c.offset).2 + numElems * size % 2 ^ 32 < 2 ^ 32

section Orderly
variable {P : Platform} {structs : Nat → StructType} {buffer : Image} {bufferSize : Nat}

theorem populateCalls_spec {keeps : Nat → Nat × Heap → Prop} {c : Build} (order : Keeps bufferSize keeps)
    (fits : (∀ offset r, keeps offset r) ∨ CopyFits structs buffer bufferSize c) :
    (populateCalls P structs buffer bufferSize c).Spec (Leads P structs buffer bufferSize keeps c)
      (fun d r => keeps d.offset r) (BuildFault structs c.type) (keeps c.offset) := by
  obtain ⟨type, offset, addr, cs, h⟩ := c
  have stays (offset : Nat) (h : Heap) : keeps offset (offset, h) := order.shrinks _ _ le_rfl
  rw [populateCalls]
  cases type with
  | unsupported => exact .inr (.inr ⟨.inl rfl, .own not_false⟩)
  | integer bitWidth =>
    exact (populateScalar_faults (readInteger_faults bufferSize offset bitWidth)).weaken (order.shrinks offset)
  | floating bitWidth =>
    exact (populateScalar_faults (readFloating_faults bufferSize offset bitWidth)).weaken (order.shrinks offset)
  | struct name =>
    refine Proc.Spec.foldlM (I := keeps offset) (stays _ _) fun field member s left => ?_
    exact .ask (.field member left) fun r next => order.trans _ _ _ left next
  | array elem numElems =>
    refine Proc.Spec.forTo (I := fun _ => keeps offset) numElems (stays _ _) fun i inside s left => ?_
    have size : Ensures (BuildFault structs (.array elem numElems)) (fun _ => True) (getSize structs elem) :=
      (getSize_faults elem).allow fun e fault => .inr (.inr ⟨.inl fault.1, .sizelessElement (by omega) fault.2⟩)
    refine Proc.Spec.bind size.known fun size known => ?_
    exact .ask (.element inside known left) fun r next => order.trans _ _ _ left next
  | pointer pointee =>
    simp only
    split
    · exact (populateFile_faults bufferSize offset _).weaken (order.shrinks offset)
    · rename_i noFile
      have size : Ensures (BuildFault structs (.pointer pointee)) (fun _ => True) (getSize structs pointee) :=
        (getSize_faults pointee).allow fun e fault => .inr (.inr ⟨.inl fault.1, .sizelessPointee fault.2⟩)
      refine Proc.Spec.bind ((count_faults bufferSize _).allow fun _ => .inl).known fun numElems counted => ?_
      refine Proc.Spec.bind size.known fun size known => ?_
      refine Proc.Spec.bind ((malloc_faults _ _).allow fun _ null => .inr (.inl null)).known fun block allocated => ?_
      obtain ⟨res, first⟩ := block
      obtain ⟨rfl, -, rfl⟩ := Heap.malloc_eq_ok.mp allocated
      refine Proc.Spec.bind (?_ : Proc.Spec _ _ _ (keeps (getBuffFour buffer bufferSize offset).2) _) fun s left => ?_
      · split
        · rename_i bulk
          rcases fits with always | fits
          · exact ((store_faults _ _).allow fun _ => .inl).bind fun _ _ => always _ _
          · have room := fits pointee numElems size rfl (by simpa using noFile) bulk counted known
            exact ((bulkCopy_faults room).allow fun _ => .inl).weaken (order.shrinks _)
        · rename_i each
          refine Proc.Spec.forTo (I := fun _ => keeps (getBuffFour buffer bufferSize offset).2) numElems (stays _ _)
            fun i inside s left => ?_
          exact .ask (.pointee counted (by simpa using each) inside known left) fun r next =>
            order.trans _ _ _ left next
      · refine Proc.Spec.bind ((store_faults _ _).allow fun _ => .inl) fun cleared _ => ?_
        refine Proc.Spec.bind ((store_faults _ _).allow fun _ => .inl) fun stored _ => ?_
        have read := order.shrinks offset (_, stored) (getBuffFour_remaining buffer bufferSize offset)
        exact order.trans _ _ _ (order.trans _ _ _ read left) (stays s.1 stored)

theorem populateCalls_settles : Settles .fuel (populateCalls P structs buffer bufferSize) := fun _ =>
  (populateCalls_spec (Keeps.unknown bufferSize) (.inl fun _ _ => trivial)).mono (fun _ _ => trivial)
    (fun _ fault => fault.ne_fuel) fun _ _ => trivial

/-- No copy a call comes to wraps the offset, and no pointer it comes to below the argument lies at
an odd address. -/
def Orderly (P : Platform) (structs : Nat → StructType) (buffer : Image) (bufferSize : Nat) (c : Build) : Prop :=
  ∀ d, ReflTransGen (Calls .fuel (populateCalls P structs buffer bufferSize)) c d →
    CopyFits structs buffer bufferSize d ∧
    ∀ e pointee, Calls .fuel (populateCalls P structs buffer bufferSize) d e → e.type = .pointer pointee →
      isDeref e.addr = false

theorem Orderly.reached {c d : Build} (orderly : Orderly P structs buffer bufferSize c)
    (calls : Calls .fuel (populateCalls P structs buffer bufferSize) c d) : Orderly P structs buffer bufferSize d :=
  fun e reached => orderly e (reached.head calls)

theorem Orderly.shrinks {n : Nat} {c : Build} (orderly : Orderly P structs buffer bufferSize c) :
    Ensures (fun _ => True) (Shrinks bufferSize c.offset)
      (eval .fuel (populateCalls P structs buffer bufferSize) n c) := by
  induction n generalizing c with
  | zero => trivial
  | succ n ih =>
    have spec := (populateCalls_spec (P := P) (Shrinks.keeps bufferSize) (.inr (orderly c .refl).1)).mono
      (fun _ leads => leads) (fun _ _ => (trivial : True)) (fun _ left => left)
    exact spec.outcome fun d makes => ih (orderly.reached (makes.mono fun a b answered => ⟨n, answered⟩))

theorem Orderly.leads {c d : Build} (orderly : Orderly P structs buffer bufferSize c)
    (calls : Calls .fuel (populateCalls P structs buffer bufferSize) c d) :
    Leads P structs buffer bufferSize (Shrinks bufferSize) c d := by
  refine (populateCalls_spec (Shrinks.keeps bufferSize) (.inr (orderly c .refl).1)).asked calls ?_
  rintro a b makes ⟨n, answered⟩
  exact ((orderly.reached makes).shrinks (n := n)).result answered

/-- The levels at which a call has constraints of its own: a dereferenced pointer hands them on to
its element, which has them as a pointer of its own or drops them. -/
def stage (c : Build) : Nat :=
  match c.type with
  | .pointer _ => if isDeref c.addr then 2 else if c.cs.isEmpty then 0 else 1
  | _ => 0

def measure (bufferSize : Nat) (rank : Nat → Nat) (c : Build) : Nat × Nat × Nat :=
  (stage c, bufferSize - c.offset, valueRank rank c.type)

theorem Leads.down {rank : Nat → Nat} {c d : Build} (layered : Layered structs rank)
    (leads : Leads P structs buffer bufferSize (Shrinks bufferSize) c d)
    (aligned : ∀ pointee, d.type = .pointer pointee → isDeref d.addr = false) :
    Prod.Lex (· < ·) (Prod.Lex (· < ·) (· < ·)) (measure bufferSize rank d) (measure bufferSize rank c) := by
  have below : stage d ≤ 1 ∧ (d.cs = [] → stage d = 0) := by
    obtain ⟨type, offset, addr, cs, h⟩ := d
    cases type with
    | pointer pointee =>
      have even : isDeref addr = false := aligned pointee rfl
      cases cs <;> simp [stage, even]
    | integer | floating | struct | array | unsupported => simp [stage]
  -- a part of a value: the same stage, no more input, a lower rank
  have part (stages : stage d = stage c) (left : bufferSize - d.offset ≤ bufferSize - c.offset)
      (ranks : valueRank rank d.type < valueRank rank c.type) :
      Prod.Lex (· < ·) (Prod.Lex (· < ·) (· < ·)) (measure bufferSize rank d) (measure bufferSize rank c) := by
    refine Prod.lex_def.mpr (.inr ⟨stages, Prod.lex_def.mpr ?_⟩)
    rcases Nat.lt_or_eq_of_le left with less | equal
    · exact .inl less
    · exact .inr ⟨equal, ranks⟩
  cases leads with
  | field member left => exact part (below.2 rfl) left (layered _ _ member)
  | element inside known left => exact part (below.2 rfl) left (Nat.lt_succ_self _)
  | @pointee pointee offset addr cs h numElems i size s counted each inside known left =>
    rcases Bool.eq_false_or_eq_true (isDeref addr) with deref | deref
    · have two : stage ⟨.pointer pointee, offset, addr, cs, h⟩ = 2 := by simp [stage, deref]
      exact Prod.Lex.left _ _ (show stage _ < stage _ by omega)
    · have zero : stage _ = 0 := below.2 (by simp [deref])
      cases cs with
      | cons c cs =>
        have one : stage ⟨.pointer pointee, offset, addr, c :: cs, h⟩ = 1 := by simp [stage, deref]
        exact Prod.Lex.left _ _ (show stage _ < stage _ by omega)
      | nil =>
        have same : stage ⟨.pointer pointee, offset, addr, [], h⟩ = 0 := by simp [stage, deref]
        have read : (getBuffFour buffer bufferSize offset).1 = numElems := by
          simpa [Build.count, deref, runConstraints, pure, Except.pure] using counted
        have consumed : bufferSize - (getBuffFour buffer bufferSize offset).2 < bufferSize - offset :=
          getBuffFour_consumes (by omega)
        refine Prod.lex_def.mpr (.inr ⟨zero.trans same.symm, Prod.Lex.left _ _ ?_⟩)
        exact lt_of_le_of_lt left consumed

/-- Every populate call that is orderly makes finitely many recursive calls: recursive structs,
buffers, sizes, offsets and constraints are arbitrary. -/
theorem populateFromBuffer_finishes {rank : Nat → Nat} {type : Ty} {offset addr : Nat} {cs : List Constraint} {h : Heap}
    (layered : Layered structs rank) (orderly : Orderly P structs buffer bufferSize ⟨type, offset, addr, cs, h⟩) :
    ∃ fuel, populateFromBuffer P structs buffer bufferSize fuel type offset addr cs h ≠ .error .fuel := by
  have acc : Acc (fun d c => Calls .fuel (populateCalls P structs buffer bufferSize) c d)
      ⟨type, offset, addr, cs, h⟩ := by
    have lex := Nat.lt_wfRel.wf.prod_lex (Nat.lt_wfRel.wf.prod_lex Nat.lt_wfRel.wf)
    refine acc_of_measure lex (measure bufferSize rank) fun d reached e calls => ?_
    have here : Orderly P structs buffer bufferSize d := fun f later => orderly f (reached.trans later)
    exact (here.leads calls).down layered fun pointee is => (orderly d reached).2 e pointee calls is
  obtain ⟨fuel, settled⟩ := (terminates_iff_acc populateCalls_settles).mpr acc
  exact ⟨fuel, by rwa [populateFromBuffer_calls]⟩

theorem calls_leads {c d : Build} (calls : Calls .fuel (populateCalls P structs buffer bufferSize) c d) :
    Leads P structs buffer bufferSize (fun _ _ => True) c d :=
  (populateCalls_spec (Keeps.unknown bufferSize) (.inl fun _ _ => trivial)).asked calls fun _ _ _ _ => trivial

/-- Blocks start at even addresses. -/
def Platform.Even (P : Platform) : Prop := ∀ blocks size, P.malloc blocks size % 2 = 0

theorem bump_even (floor : Nat) (order : List Nat) : (bumpPlatform floor order).Even := by
  intro blocks size
  simp only [bumpPlatform, bump]
  split <;> omega

/-- The list of one link per node is laid out without odd addresses: each block of nodes starts at
an even one, and so does each node. -/
theorem list_orderly {offset addr : Nat} {h : Heap} (even : P.Even) (slot : addr % 2 = 0) :
    Orderly P listStructs buffer bufferSize ⟨.pointer (.struct 0), offset, addr, [], h⟩ := by
  have laid : ∀ d, ReflTransGen (Calls .fuel (populateCalls P listStructs buffer bufferSize))
      ⟨.pointer (.struct 0), offset, addr, [], h⟩ d →
      (d.type = .pointer (.struct 0) ∨ d.type = .struct 0) ∧ d.addr % 2 = 0 := by
    intro d reached
    induction reached with
    | refl => exact ⟨.inl rfl, slot⟩
    | tail _ calls ih =>
      cases calls_leads calls with
      | field member left =>
        obtain rfl := List.mem_singleton.mp member
        exact ⟨.inl rfl, ih.2⟩
      | element => simp at ih
      | @pointee _ _ _ _ h numElems _ _ _ counted each inside known left =>
        obtain ⟨is | is, -⟩ := ih
        · obtain rfl := Ty.pointer.inj is
          obtain rfl := Except.ok.inj known
          have start := even h.blocks ((listStructs 0).size * (numElems + 1))
          refine ⟨.inr rfl, ?_⟩
          simp only [listStructs] at start ⊢
          omega
        · cases is
  intro d reached
  refine ⟨?_, fun e pointee calls _ => ?_⟩
  · intro pointee numElems size is _ bulk
    obtain ⟨same | same, -⟩ := laid d reached
    · obtain rfl := Ty.pointer.inj (is.symm.trans same)
      simp [Build.bulk, Ty.isScalar] at bulk
    · cases is.symm.trans same
  · have parity := (laid e (reached.tail calls)).2
    simp [isDeref, parity]

end Orderly

/-- One node, whose link has one node behind it, whose link is empty. -/
def twoNodes : Image := Image.poke (fun _ => 0) 0 (number 4 1 ++ number 4 1)

/-- A list of two nodes: four calls nested in the first one. -/
theorem two_nodes_finish :
    (∃ fuel, populateFromBuffer (bumpPlatform 0x2000 []) listStructs twoNodes 12 fuel (.pointer (.struct 0)) 0
      0x1000 [] slotHeap ≠ .error .fuel) ∧
    (populateFromBuffer (bumpPlatform 0x2000 []) listStructs twoNodes 12 4 (.pointer (.struct 0)) 0 0x1000 []
      slotHeap).map (fun r => r.2.blocks.map Block.numElems) = .error .fuel ∧
    (populateFromBuffer (bumpPlatform 0x2000 []) listStructs twoNodes 12 5 (.pointer (.struct 0)) 0 0x1000 []
      slotHeap).map (fun r => r.2.blocks.map Block.numElems) = .ok [0, 1, 1] := by
  refine ⟨?_, by decide +kernel, by decide +kernel⟩
  exact populateFromBuffer_finishes listStructs_layered (list_orderly (bump_even 0x2000 []) rfl)

/-! ### A list that never ends -/

/-- `struct __attribute__((packed)) node { char tag; struct node *next; }` -/
def packedStructs (_ : Nat) : StructType := ⟨9, [(.integer 8, 0), (.pointer (.struct 0), 1)]⟩

/-- An allocator that is never out of memory. -/
def Endless (P : Platform) : Prop :=
  ∀ blocks size, P.malloc blocks size ≠ 0 ∧ P.malloc blocks size % 2 = 0 ∧ P.malloc blocks size < 2 ^ 62

section Packed
variable {P : Platform} {buffer : Image} {bufferSize : Nat}

/-- The pointer behind the tag is at an odd address and is built with one node, whatever the input. -/
theorem packed_next {fuel offset base : Nat} {h : Heap} (endless : Endless P) (even : base % 2 = 0)
    (low : base < 2 ^ 62)
    (node : ∀ offset base h, base % 2 = 0 → base < 2 ^ 62 → (∀ x, base ≤ x → x < base + 9 → h.mapped x = true) →
      populateFromBuffer P packedStructs buffer bufferSize fuel (.struct 0) offset base [] h = .error .fuel) :
    populateFromBuffer P packedStructs buffer bufferSize (fuel + 1) (.pointer (.struct 0)) offset (base + 1) [] h =
      .error .fuel := by
  have noFile : isFile (base + 1) = false := isFile_eq_false (by omega)
  have deref : isDeref (base + 1) = true := by simp [isDeref]; omega
  obtain ⟨nonnull, evenNew, lowNew⟩ := endless h.blocks (9 * 2)
  have allocated : h.malloc P (9 * 2) 1 = .ok _ := Heap.malloc_eq_ok.mpr ⟨rfl, nonnull, rfl⟩
  have known : getSize packedStructs (.struct 0) = .ok 9 := rfl
  have inner := node (getBuffFour buffer bufferSize offset).2 (P.malloc h.blocks (9 * 2))
    { h with
      mapped := fun x => h.mapped x ||
        (decide (P.malloc h.blocks (9 * 2) ≤ x) && decide (x < P.malloc h.blocks (9 * 2) + 9 * 2))
      blocks := ⟨P.malloc h.blocks (9 * 2), 9 * 2, 1⟩ :: h.blocks } evenNew lowNew
    (fun x lower upper => by simp [lower, show x < P.malloc h.blocks (9 * 2) + 9 * 2 by omega])
  simp only [populateFromBuffer, noFile, deref, known, Bool.false_eq_true, if_false, if_true, ok_bind, buildBlock,
    allocated, forTo_one, Nat.zero_mul, Nat.zero_mod, Nat.add_zero, Ty.isScalar, Bool.and_false, inner]
  rfl

/-- Every node has a successor. -/
theorem packed_node (endless : Endless P) (fuel : Nat) : ∀ offset base h, base % 2 = 0 → base < 2 ^ 62 →
    (∀ x, base ≤ x → x < base + 9 → h.mapped x = true) →
      populateFromBuffer P packedStructs buffer bufferSize fuel (.struct 0) offset base [] h = .error .fuel := by
  induction fuel using Nat.twoStepInduction with
  | zero => exact fun _ _ _ _ _ _ => rfl
  | one => exact fun _ _ _ _ _ _ => rfl
  | more fuel ih _ =>
    intro offset base h even low mapped
    have writable : h.readable base (number 1 (getBuffOne buffer bufferSize offset).1).length = true := by
      rw [number_length]
      exact Heap.readable_iff.mpr fun x lower upper => mapped x lower (by omega)
    have tag : populateFromBuffer P packedStructs buffer bufferSize (fuel + 1) (.integer 8) offset base [] h =
        .ok ((getBuffOne buffer bufferSize offset).2,
          { h with bytes := h.bytes.poke base (number 1 (getBuffOne buffer bufferSize offset).1) }) := by
      have stored := Heap.store_eq_ok.mpr ⟨writable, rfl⟩
      simp only [populateFromBuffer, readInteger, populateScalar, ok_bind]
      exact bind_eq_ok.mpr ⟨_, rfl, bind_eq_ok.mpr ⟨_, stored, rfl⟩⟩
    have fields : (packedStructs 0).fields = [(.integer 8, 0), (.pointer (.struct 0), 1)] := rfl
    rw [populateFromBuffer, fields]
    simp only [List.foldlM_cons, Nat.add_zero, tag, ok_bind, packed_next endless even low ih]
    rfl

/-- A packed list is built for ever, on every platform whose memory does not run out. -/
theorem packed_list_built_forever :
    (∃ P, Endless P) ∧ ∀ P, Endless P → ∀ fuel, populateFromBuffer P packedStructs (countBuffer 1) 4 fuel
      (.pointer (.struct 0)) 0 0x1000 [] slotHeap = .error .fuel := by
  refine ⟨⟨⟨fun _ _ => 0x2000, fun _ _ => 0, fun _ _ => [], fun _ => none, []⟩, fun _ _ => by norm_num⟩, ?_⟩
  intro P endless fuel
  cases fuel with
  | zero => rfl
  | succ fuel =>
    have count : getBuffFour (countBuffer 1) 4 0 = (1, 4) := by decide +kernel
    have known : getSize packedStructs (.struct 0) = .ok 9 := rfl
    obtain ⟨nonnull, even, low⟩ := endless slotHeap.blocks (9 * 2)
    have allocated : slotHeap.malloc P (9 * 2) 1 = .ok _ := Heap.malloc_eq_ok.mpr ⟨rfl, nonnull, rfl⟩
    rw [populate_pointer_eq (by norm_num) (by norm_num) known count rfl]
    simp only [buildBlock, allocated, ok_bind, Ty.isScalar, Bool.false_eq_true, if_false, forTo_one, Nat.zero_mul,
      Nat.zero_mod, Nat.add_zero]
    rw [packed_node endless fuel _ _ _ even low fun x lower upper => by
      simp [lower, show x < P.malloc slotHeap.blocks (9 * 2) + 9 * 2 by omega]]
    rfl

end Packed
end AflLive.Libgen
