import AflLive.Libgen.Arguments
import AflLive.Libgen.Rebuild

/-! Record and replay. The record round of a host call writes the encodings of
the arguments in visiting order; the populate round of the same call, fed those
bytes, rebuilds the arguments. -/
namespace AflLive.Libgen
open Bytes Control Topological

/-- Bytes a constraint on a place of this type reads from its right-hand side. -/
def Ty.readSize : Ty → Nat
  | .integer bitWidth | .floating bitWidth => bitWidth / 8
  | .pointer _ => 4
  | .struct _ | .array _ _ | .unsupported => 0

/-- The host's value, or the length recorded for it, meets a constraint. -/
def Constraint.MetBy (h : Heap) (c : Constraint) (type : Ty) (v : Value) : Prop :=
  match type, v with
  | .integer bitWidth, .scalar bytes =>
    c.Met (.integer (bitWidth / 8)) (value bytes) (value (c.rhs.bytes h (bitWidth / 8)))
  | .floating bitWidth, .scalar bytes =>
    c.Met (.floating (bitWidth / 8)) (value bytes) (value (c.rhs.bytes h (bitWidth / 8)))
  | .pointer _, .sequence items => c.Met .pointer items.length (value (c.rhs.bytes h 4))
  | _, _ => True

/-- The right-hand side the set-up makes of a user constraint. -/
def resolvedRhs (types : List Ty) (slots : List Nat) (h : Heap) (c : UserConstraint) : Rhs :=
  match makeRhs types slots h c with
  | .ok (rhs, _) => rhs
  | .error _ => .constant 0

/-- A host call that can be recorded: its arguments hold values, and those meet
the constraints, which are plain and read no more than their right-hand
argument has. -/
structure HostCall (info : TypeInfo) (types : List Ty) (slots : List Nat) (ucs : List UserConstraint) (host : Heap)
    (limit depth : Nat) (vals : Nat → Value) : Prop where
  slotsOk : Slots info.structs types slots host
  laid : host.Laid (places info.structs types slots)
  sized : ∀ type ∈ types, Sized info.structs type
  plain : ∀ c ∈ ucs, c.Plain
  inRange : ∀ c ∈ ucs, c.lhs < types.length
  evaluated : ∀ c ∈ ucs, ∃ edges, makeRhs types slots host c = .ok (resolvedRhs types slots host c, edges)
  wide : ∀ c ∈ ucs, ∀ type, types[c.lhs]? = some type → ∀ index, c.rhs = .arg index →
    ∃ bitWidth, types[index]? = some (.integer bitWidth) ∧ type.readSize ≤ bitWidth / 8
  holds : ∀ (arg : Nat) type addr, types[arg]? = some type → slots[arg]? = some addr →
    Holds info.structs host limit depth (constraintsOf ucs (resolvedRhs types slots host) arg) type addr addr (vals arg)
  met : ∀ (arg : Nat) type, types[arg]? = some type →
    ∀ c ∈ constraintsOf ucs (resolvedRhs types slots host) arg, c.MetBy host type (vals arg)

/-- The encodings of the arguments in a given order. -/
def encodeArgs (vals : Nat → Value) (order : List Nat) : List UInt8 := Value.encodeAll (order.map vals)

section Replay
variable {P : Platform} {info : TypeInfo} {types : List Ty} {slots : List Nat} {ucs : List UserConstraint}
  {host t : Heap} {limit depth fuel : Nat} {vals : Nat → Value} {out : List Nat}

/-- The set-up both rounds work with. -/
def HostCall.setup (types : List Ty) (slots : List Nat) (ucs : List UserConstraint) (host : Heap) : Setup :=
  ⟨slots, (List.range types.length).map (constraintsOf ucs (resolvedRhs types slots host)), dependencies ucs⟩

theorem HostCall.setup_eq (call : HostCall info types slots ucs host limit depth vals) :
    setupArgs types slots ucs host = .ok (HostCall.setup types slots ucs host) :=
  setupArgs_plain call.slotsOk.length call.plain call.inRange call.evaluated

theorem resolvedRhs_arg {c : UserConstraint} {index addr : Nat} {type : Ty} (rhs : c.rhs = .arg index)
    (hasSlot : slots[index]? = some addr) (hasType : types[index]? = some type) :
    resolvedRhs types slots host c = .arg addr := by
  simp [resolvedRhs, makeRhs, rhs, getAt, hasSlot, hasType, bind, Except.bind, pure, Except.pure]

theorem resolvedRhs_constant {c : UserConstraint} (rhs : ∀ index, c.rhs ≠ .arg index) :
    ∃ n, resolvedRhs types slots host c = .constant n := by
  unfold resolvedRhs
  split
  · rename_i r edges made
    unfold makeRhs at made
    split at made
    · rename_i index same
      exact absurd same (rhs index)
    · obtain ⟨_, _, rest⟩ := bind_eq_ok.mp made
      obtain ⟨_, _, rest⟩ := bind_eq_ok.mp rest
      obtain ⟨bound, _, rest⟩ := bind_eq_ok.mp rest
      cases rest
      exact ⟨bound, rfl⟩
    · cases made
      exact ⟨_, rfl⟩
  · exact ⟨0, rfl⟩

/-- Recording the call writes the encodings in visiting order. -/
theorem HostCall.records_round (call : HostCall info types slots ucs host limit depth vals) (enough : depth ≤ fuel)
    (order : ReverseTopological (List.range types.length) (dependencies ucs) (P.topologicalSort types.length (dependencies ucs)))
    {r : Recording} (small : r.offset < 2 ^ 32) :
    Ensures (fun _ => False)
      (fun s => r.Grew s (encodeArgs vals (P.topologicalSort types.length (dependencies ucs)).reverse))
      (recordRound P info.structs types (HostCall.setup types slots ucs host) fuel host r) := by
  unfold recordRound visitInOrder
  refine visit_ensures (I := fun done s => r.Grew s (encodeArgs vals done)) order List.nodup_range
    ⟨.refl small, rfl⟩ ?_
  intro done arg _ _ inside _ _ s sofar
  obtain ⟨type, hasType⟩ : ∃ type, types[arg]? = some type :=
    ⟨_, List.getElem?_eq_getElem (List.mem_range.mp inside)⟩
  obtain ⟨addr, hasSlot⟩ := slot_of_type call.slotsOk.length hasType
  simp only [HostCall.setup, visitArg_eq hasType hasSlot, ok_bind]
  refine Ensures.weaken ((call.holds arg type addr hasType hasSlot).serializes
    (call.sized type (List.mem_of_getElem? hasType)) enough sofar.1.small) ?_
  intro u grown
  simp only [encodeArgs, List.map_append, Value.encodeAll_append, List.map_cons, List.map_nil, Value.encodeAll,
    List.append_nil]
  exact sofar.trans grown

theorem HostCall.records (call : HostCall info types slots ucs host limit depth vals) (enough : depth ≤ fuel)
    (order : ReverseTopological (List.range types.length) (dependencies ucs)
      (P.topologicalSort types.length (dependencies ucs))) {r : Recording} (small : r.offset < 2 ^ 32) :
    ∃ s, recordRound P info.structs types (HostCall.setup types slots ucs host) fuel host r = .ok s ∧
      r.Grew s (encodeArgs vals (P.topologicalSort types.length (dependencies ucs)).reverse) := by
  have recorded := call.records_round enough order small
  cases outcome : recordRound P info.structs types (HostCall.setup types slots ucs host) fuel host r with
  | error e =>
    rw [outcome] at recorded
    exact recorded.elim
  | ok s =>
    rw [outcome] at recorded
    exact ⟨s, rfl, recorded⟩

/-- While the arguments it depends on are as in the host, a constraint reads
what it read there. -/
theorem HostCall.loads (call : HostCall info types slots ucs host limit depth vals) {arg : Nat} {type : Ty}
    (hasType : types[arg]? = some type) (slotsOk : Slots info.structs types slots t)
    (agree : ∀ index bitWidth addr, (index, arg) ∈ dependencies ucs → types[index]? = some (.integer bitWidth) →
      slots[index]? = some addr → t.bytes.peek addr (bitWidth / 8) = host.bytes.peek addr (bitWidth / 8)) :
    ∀ d ∈ constraintsOf ucs (resolvedRhs types slots host) arg,
      d.rhs.load t type.readSize = .ok (d.rhs.bytes host type.readSize) := by
  intro d member
  obtain ⟨c, listed, rfl⟩ := List.mem_map.mp member
  obtain ⟨given, lhs⟩ := List.mem_filter.mp listed
  obtain rfl : c.lhs = arg := by simpa using lhs
  by_cases fromArg : ∃ index, c.rhs = .arg index
  · obtain ⟨index, rhs⟩ := fromArg
    obtain ⟨bitWidth, hasRhs, fits⟩ := call.wide c given type hasType index rhs
    obtain ⟨addr, hasSlot⟩ := slot_of_type slotsOk.length hasRhs
    have same := Image.peek_eq_iff.mp (agree index bitWidth addr (mem_dependencies given rhs) hasRhs hasSlot)
    have region : t.Region addr (addr + bitWidth / 8) := slotsOk.region_at hasRhs hasSlot
    simp only [resolvedRhs_arg rhs hasSlot hasRhs, Rhs.load, Rhs.bytes]
    refine Heap.load_eq_ok.mpr ⟨region.readable le_rfl (by omega), ?_⟩
    exact Image.peek_congr fun x lower upper => (same x lower (by omega)).symm
  · obtain ⟨n, constant⟩ : ∃ n, resolvedRhs types slots host c = .constant n :=
      resolvedRhs_constant fun index rhs => fromArg ⟨index, rhs⟩
    simp only [constant, Rhs.load, Rhs.bytes]

/-- Then the constraints leave the argument as the host had it. -/
theorem HostCall.passes (call : HostCall info types slots ucs host limit depth vals) {arg addr : Nat} {type : Ty}
    (hasType : types[arg]? = some type) (hasSlot : slots[arg]? = some addr)
    (slotsOk : Slots info.structs types slots t)
    (agree : ∀ index bitWidth addr, (index, arg) ∈ dependencies ucs → types[index]? = some (.integer bitWidth) →
      slots[index]? = some addr → t.bytes.peek addr (bitWidth / 8) = host.bytes.peek addr (bitWidth / 8)) :
    Passes t (constraintsOf ucs (resolvedRhs types slots host) arg) type (vals arg) := by
  have loads := call.loads hasType slotsOk agree
  have met := call.met arg type hasType
  have holds := call.holds arg type addr hasType hasSlot
  generalize vals arg = v at met holds ⊢
  have scalar : ∀ n, value (host.bytes.peek addr n) % 256 ^ n = value (host.bytes.peek addr n) := by
    intro n
    have small := value_lt (host.bytes.peek addr n)
    rw [Image.peek_length] at small
    exact Nat.mod_eq_of_lt small
  cases holds with
  | @integer _ _ bitWidth _ _ width readable =>
    have comparable : (LhsType.integer (bitWidth / 8)).Comparable := by
      rcases width with rfl | rfl | rfl <;> simp [LhsType.Comparable]
    refine runConstraints_met comparable fun d member => ⟨_, loads d member, ?_⟩
    simp only [LhsType.copySize, scalar]
    exact met d member
  | floating readable =>
    refine runConstraints_met (.inl rfl) fun d member => ⟨_, loads d member, ?_⟩
    simp only [LhsType.copySize, scalar]
    exact met d member
  | struct | array => trivial
  | @pointer _ _ pointee size _ _ items even canonical aligned readable known length short each =>
    refine runConstraints_met (show LhsType.pointer.Comparable from trivial) fun d member => ⟨_, loads d member, ?_⟩
    have small := recordedLength_lt length
    simp only [LhsType.copySize]
    rw [Nat.mod_eq_of_lt (show items.length < 256 ^ 4 by omega)]
    exact met d member

/-- The type and the slot of the `i`-th argument visited. -/
def argPlace (types : List Ty) (slots order : List Nat) (i : Nat) : Ty × Nat :=
  (types.getD (order.getD i 0) .unsupported, slots.getD (order.getD i 0) 0)

theorem argPlace_eq {order : List Nat} {i arg addr : Nat} {type : Ty} (here : order[i]? = some arg)
    (hasType : types[arg]? = some type) (hasSlot : slots[arg]? = some addr) :
    argPlace types slots order i = (type, addr) := by
  simp only [argPlace, List.getD, here, Option.getD_some, hasType, hasSlot]

section Order
variable {order : List Nat} (call : HostCall info types slots ucs host limit depth vals)
  (nodup : order.Nodup) (inside : ∀ arg ∈ order, arg < types.length)
include call inside

theorem HostCall.visited {i : Nat} (below : i < order.length) : ∃ arg type addr, order[i]? = some arg ∧
    types[arg]? = some type ∧ slots[arg]? = some addr ∧ argPlace types slots order i = (type, addr) := by
  have here : order[i]? = some order[i] := List.getElem?_eq_getElem below
  have hasType : types[order[i]]? = some _ := List.getElem?_eq_getElem (inside _ (List.getElem_mem below))
  obtain ⟨addr, hasSlot⟩ := slot_of_type call.slotsOk.length hasType
  exact ⟨_, _, _, here, hasType, hasSlot, argPlace_eq here hasType hasSlot⟩

include nodup in
theorem HostCall.layout : Layout info.structs 0 (2 ^ 63) (argPlace types slots order) order.length := by
  refine ⟨?_, ?_, ?_⟩
  · intro i below
    obtain ⟨arg, type, addr, _, hasType, _, place⟩ := call.visited inside below
    rw [place]
    exact call.sized type (List.mem_of_getElem? hasType)
  · intro i below size known
    obtain ⟨arg, type, addr, _, hasType, hasSlot, place⟩ := call.visited inside below
    rw [place] at known ⊢
    have region := call.slotsOk.region_at hasType hasSlot
    rw [placeSize_eq known] at region
    exact ⟨Nat.zero_le _, region.canonical⟩
  · intro i j before below k m known known'
    obtain ⟨arg, type, addr, here, hasType, hasSlot, place⟩ := call.visited inside (show i < order.length by omega)
    obtain ⟨arg', type', addr', here', hasType', hasSlot', place'⟩ := call.visited inside below
    rw [place] at known ⊢
    rw [place'] at known' ⊢
    have different : arg ≠ arg' := by
      rintro rfl
      have same : i = j := (List.getElem?_inj (show i < order.length by omega) nodup).mp (here.trans here'.symm)
      omega
    have apart := call.slotsOk.apart_at hasType hasSlot hasType' hasSlot' different
    rwa [placeSize_eq known, placeSize_eq known'] at apart

theorem HostCall.owned :
    Owned info.structs (places info.structs types slots) host (argPlace types slots order) order.length := by
  intro i below size known
  obtain ⟨arg, type, addr, _, hasType, hasSlot, place⟩ := call.visited inside below
  rw [place] at known ⊢
  refine .inl ⟨_, List.mem_of_getElem? (places_get hasType hasSlot), le_rfl, ?_⟩
  rw [placeSize_eq known]

end Order

theorem encodeArgs_length (vals : Nat → Value) (order : List Nat) :
    (encodeArgs vals order).length = (order.map fun arg => (vals arg).encode.length).sum := by
  induction order with
  | nil => rfl
  | cons arg rest ih =>
    simp only [encodeArgs, List.map_cons, Value.encodeAll, List.length_append, List.sum_cons] at ih ⊢
    rw [ih]

theorem encodeArgs_single (vals : Nat → Value) (arg : Nat) : encodeArgs vals [arg] = (vals arg).encode := by
  simp [encodeArgs, Value.encodeAll]

/-- A rebuilt integer argument has the bytes it had in the host. -/
theorem HostCall.agrees (call : HostCall info types slots ucs host limit depth vals) {index bitWidth addr : Nat}
    {blocks : List Block} (hasType : types[index]? = some (.integer bitWidth)) (hasSlot : slots[index]? = some addr)
    (built : Built info.structs t.bytes blocks (.integer bitWidth) addr (vals index)) :
    t.bytes.peek addr (bitWidth / 8) = host.bytes.peek addr (bitWidth / 8) := by
  have holds := call.holds index _ addr hasType hasSlot
  generalize vals index = v at holds built
  cases holds with
  | integer width readable =>
    generalize stored : host.bytes.peek addr (bitWidth / 8) = bytes at built
    cases built
    rfl

/-- Fed the recorded bytes, the populate round consumes them exactly and
rebuilds every argument. -/
theorem HostCall.replays (call : HostCall info types slots ucs host (2 ^ 32) depth vals) (enough : depth ≤ fuel)
    (alloc : P.Allocates (places info.structs types slots))
    (order : ReverseTopological (List.range types.length) (dependencies ucs)
      (P.topologicalSort types.length (dependencies ucs)))
    {bytes : List UInt8} (encoded : bytes = encodeArgs vals (P.topologicalSort types.length (dependencies ucs)).reverse)
    (small : bytes.length < 2 ^ 32) {buffer : Image} (input : buffer.peek 0 bytes.length = bytes) :
    Ensures (· = Fault.noMemory) (fun r => r.1 = bytes.length ∧
        ∀ (arg : Nat) type addr, types[arg]? = some type → slots[arg]? = some addr →
          ∃ blocks ⊆ r.2.blocks, Built info.structs r.2.bytes blocks type addr (vals arg))
      (populateRound P info.structs types (HostCall.setup types slots ucs host) fuel buffer bytes.length host) := by
  obtain ⟨visits, sorted⟩ : ∃ visits, (P.topologicalSort types.length (dependencies ucs)).reverse = visits := ⟨_, rfl⟩
  rw [sorted] at encoded
  have nodup : visits.Nodup := by
    rw [← sorted, List.nodup_reverse]
    exact order.all.nodup_iff.mpr List.nodup_range
  have inside : ∀ arg ∈ visits, arg < types.length := by
    intro arg member
    rw [← sorted, List.mem_reverse] at member
    exact List.mem_range.mp (order.all.subset member)
  have layout := call.layout nodup inside
  have owned := call.owned inside
  have whole : buffer.peek 0 (Value.encodeAll (visits.map vals)).length = Value.encodeAll (visits.map vals) := by
    rw [encoded] at input
    exact input
  have total : 0 + (Value.encodeAll (visits.map vals)).length ≤ bytes.length := by
    rw [encoded, Nat.zero_add]
    exact le_rfl
  simp only [populateRound, visitInOrder, HostCall.setup]
  refine Ensures.weaken (visit_ensures (I := fun done r => Reached info.structs (places info.structs types slots) host
    0 (2 ^ 63) (argPlace types slots visits) (visits.map vals) 0 done.length r) order List.nodup_range
    ⟨by simp [Value.encodeAll], .start call.laid⟩ ?_) ?_
  · rintro done arg after split _ _ earlier ⟨position, t⟩ sofar
    rw [sorted] at split
    have here : visits[done.length]? = some arg := by simp [split]
    have below : done.length < visits.length := by rw [split]; simp
    obtain ⟨_, type, addr, again, hasType, hasSlot, place⟩ := call.visited inside below
    obtain rfl := Option.some.inj (here.symm.trans again)
    have chosen : (visits.map vals)[done.length]? = some (vals arg) := by simp [here]
    have grown := sofar.2.grown
    have agree : ∀ index bitWidth addr, (index, arg) ∈ dependencies ucs → types[index]? = some (.integer bitWidth) →
        slots[index]? = some addr → t.bytes.peek addr (bitWidth / 8) = host.bytes.peek addr (bitWidth / 8) := by
      intro index bitWidth addr edge hasRhs hasSlot'
      obtain ⟨i, before, at_i⟩ := List.mem_iff_getElem.mp (earlier index edge)
      have there : visits[i]? = some index := by
        rw [split, List.getElem?_append_left before, List.getElem?_eq_getElem before, at_i]
      obtain ⟨new, _, built⟩ := sofar.2.built
      have one := built i (vals index) before (by simp [there])
      rw [argPlace_eq there hasRhs hasSlot'] at one
      exact call.agrees hasRhs hasSlot' one
    have stream := input_at chosen whole total
    have start : position = 0 + (Value.encodeAll ((visits.map vals).take done.length)).length := sofar.1
    simp only [visitArg_eq hasType hasSlot, ok_bind]
    refine Ensures.weaken ((call.holds arg type addr hasType hasSlot).rebuilds alloc
      (call.sized type (List.mem_of_getElem? hasType)) enough small sofar.2.laid
      (grown.region (call.slotsOk.region_at hasType hasSlot)) rfl ?_
      (call.passes hasType hasSlot (call.slotsOk.extends grown) agree) (by rw [start]; exact stream.1)
      (by rw [start]; exact stream.2)) ?_
    · exact .inl ⟨_, List.mem_of_getElem? (places_get hasType hasSlot), le_rfl, le_rfl⟩
    · intro r done'
      rw [List.length_append, List.length_singleton]
      refine sofar.next layout below owned chosen done'.1 ?_
      rw [place]
      exact done'.2
  · rintro r ⟨position, progress⟩
    rw [sorted, List.take_of_length_le (by simp)] at position
    refine ⟨by rw [encoded]; simpa [encodeArgs] using position, fun arg type addr hasType hasSlot => ?_⟩
    have member : arg ∈ visits := by
      rw [← sorted, List.mem_reverse, order.all.mem_iff]
      exact List.mem_range.mpr (List.getElem?_eq_some_iff.mp hasType).1
    obtain ⟨i, below, here⟩ := List.mem_iff_getElem.mp member
    obtain ⟨new, blocks, built⟩ := progress.built
    have one := built i (vals arg) (by rw [sorted]; exact below) (by simp [below, here])
    rw [argPlace_eq (List.getElem?_eq_some_iff.mpr ⟨below, here⟩) hasType hasSlot] at one
    exact ⟨new, by rw [blocks]; exact List.subset_append_left _ _, one⟩

/-- Recorded seeds replay the host call, as long as no element behind a pointer
lies 4 GiB or more behind the first. -/
theorem recorded_call_replays (call : HostCall info types slots ucs host (2 ^ 32) depth vals) (enough : depth ≤ fuel)
    (alloc : P.Allocates (places info.structs types slots)) (acyclic : Acyclic (dependencies ucs))
    (boost : Acyclic (dependencies ucs) → ReverseTopological (List.range types.length) (dependencies ucs)
      (P.topologicalSort types.length (dependencies ucs)))
    (total : ((List.range types.length).map fun arg => (vals arg).encode.length).sum < 2 ^ 32)
    {r : Recording} (small : r.offset < 2 ^ 32) :
    ∃ setup s bytes, setupArgs types slots ucs host = .ok setup ∧
      recordRound P info.structs types setup fuel host r = .ok s ∧ r.Grew s bytes ∧
      ∀ buffer : Image, buffer.peek 0 bytes.length = bytes →
        Ensures (· = Fault.noMemory) (fun result => result.1 = bytes.length ∧
            ∀ (arg : Nat) type addr, types[arg]? = some type → slots[arg]? = some addr →
              ∃ blocks ⊆ result.2.blocks, Built info.structs result.2.bytes blocks type addr (vals arg))
          (populateRound P info.structs types setup fuel buffer bytes.length host) := by
  have order := boost acyclic
  have size : (encodeArgs vals (P.topologicalSort types.length (dependencies ucs)).reverse).length < 2 ^ 32 := by
    have same := ((List.reverse_perm _).trans order.all).map fun arg => (vals arg).encode.length
    rw [encodeArgs_length, same.sum_eq]
    exact total
  obtain ⟨s, returned, grew⟩ := call.records enough order small
  exact ⟨_, s, _, call.setup_eq, returned, grew, fun buffer input => call.replays enough alloc order rfl size input⟩

end Replay

theorem Holds.of_integer {structs : Nat → StructType} {bitWidth addr place : Nat} {cs : List Constraint}
    {bytes : List UInt8} (width : bitWidth = 8 ∨ bitWidth = 16 ∨ bitWidth = 32)
    (loaded : host.load addr (bitWidth / 8) = .ok bytes) :
    Holds structs host limit (depth + 1) cs (.integer bitWidth) addr place (.scalar bytes) := by
  obtain ⟨readable, rfl⟩ := Heap.load_eq_ok.mp loaded
  exact .integer width readable

/-- A target of scalars and pointers only. -/
def flatInfo (types : List Ty) (sized : ∀ type ∈ types, Sized (fun _ => ⟨0, []⟩) type) : TypeInfo where
  structs := fun _ => ⟨0, []⟩
  argTypes := fun _ => types
  inside := noFields_inside
  separate := noFields_separate
  fields_sized := noFields_sized
  args_sized := fun _ => sized

/-- `f(buf, 2)` with `buf` pointing to the two bytes `AB`, and `buf eq n`. -/
def pairTypes : List Ty := [.pointer (.integer 8), .integer 32]

def pairInfo : TypeInfo := flatInfo pairTypes (by simp [pairTypes, Sized])

def pairConstraints : List UserConstraint := [{ lhs := 0, rel := .EQ, rhs := .arg 1 }]

def pairHost : Heap where
  bytes := ((Image.poke (fun _ => 0) 16 (number 8 64)).poke 32 (number 4 2)).poke 64 [65, 66]
  mapped := fun x => decide (x < 128)
  blocks := []
  file := []

def pairVals : Nat → Value
  | 0 => .sequence [.scalar [65], .scalar [66]]
  | _ => .scalar (number 4 2)

theorem pairCall : HostCall pairInfo pairTypes [16, 32] pairConstraints pairHost (2 ^ 32) 2 pairVals where
  slotsOk := by
    have held : places pairInfo.structs pairTypes [16, 32] = [(16, 8), (32, 4)] := rfl
    refine ⟨rfl, by simp [held, Apart], ?_⟩
    intro place member
    rw [held] at member
    refine ⟨?_, fun x lower upper => ?_⟩
    · fin_cases member <;> norm_num
    · fin_cases member <;> simp only [pairHost, decide_eq_true_eq] at * <;> omega
  laid := .of_empty rfl
  sized := by simp [pairTypes, Sized]
  plain := by simp [pairConstraints, UserConstraint.Plain]
  inRange := by decide
  evaluated := by
    intro c member
    fin_cases member
    exact ⟨[(1, 0)], rfl⟩
  wide := by
    intro c member type hasType index rhs
    fin_cases member
    cases hasType
    cases rhs
    exact ⟨32, rfl, by decide⟩
  holds := by
    rintro (_ | _ | arg) type addr hasType hasSlot
    · cases hasType
      cases hasSlot
      refine .pointer (by decide) (by decide) (by decide) (by decide +kernel) rfl (by decide +kernel) (by decide) ?_
      rintro (_ | _ | i) item chosen
      · cases chosen
        exact .of_integer (.inl rfl) (by decide +kernel)
      · cases chosen
        exact .of_integer (.inl rfl) (by decide +kernel)
      · cases chosen
    · cases hasType
      cases hasSlot
      exact .of_integer (.inr (.inr rfl)) (by decide +kernel)
    · cases hasType
  met := by
    rintro (_ | _ | arg) type hasType d member
    · cases hasType
      fin_cases member
      exact (by decide +kernel : (2 : Nat) = value (pairHost.bytes.peek 32 4))
    · cases member
    · cases hasType

theorem pair_call_replays :
    ∃ setup s bytes, setupArgs pairTypes [16, 32] pairConstraints pairHost = .ok setup ∧
      recordRound (bumpPlatform 128 [0, 1]) pairInfo.structs pairTypes setup 2 pairHost ⟨fun _ => 0, 0, false, []⟩ =
        .ok s ∧ Recording.Grew ⟨fun _ => 0, 0, false, []⟩ s bytes ∧
      ∀ buffer : Image, buffer.peek 0 bytes.length = bytes →
        Ensures (· = Fault.noMemory) (fun result => result.1 = bytes.length ∧
            ∀ (arg : Nat) type addr, pairTypes[arg]? = some type → [16, 32][arg]? = some addr →
              ∃ blocks ⊆ result.2.blocks, Built pairInfo.structs result.2.bytes blocks type addr (pairVals arg))
          (populateRound (bumpPlatform 128 [0, 1]) pairInfo.structs pairTypes setup 2 buffer bytes.length pairHost) :=
  recorded_call_replays pairCall le_rfl (bump_allocates rfl (by decide))
    (acyclic_of_rank (fun arg => 1 - arg) (by decide)) (fun _ => ⟨by decide, by decide⟩) (by decide) (by decide)

/-! ### Elements 4 GiB behind the first

`populateFromBuffer` computes an element's address from a 32-bit product, the
recorder from a 64-bit one. -/

/-- `f(table)` with `table` pointing to 2^29 + 1 null pointers, and a constant
length. Memory above 2^33 is heap that no one has written yet. -/
@[irreducible] def tableLength : Nat := 2 ^ 29 + 1

def tableTypes : List Ty := [.pointer (.pointer (.integer 8))]

def tableInfo : TypeInfo := flatInfo tableTypes (by simp [tableTypes, Sized])

def tableConstraints : List UserConstraint := [{ lhs := 0, rel := .EQ, rhs := .constant 536870913 }]

def tableHost : Heap where
  bytes := Image.poke (fun x => if x < 2 ^ 33 then 0 else 0xff) 16 (number 8 4096)
  mapped := fun x => decide (x < 2 ^ 33)
  blocks := []
  file := []

def tableVals (_ : Nat) : Value := .sequence (List.replicate tableLength (.sequence []))

theorem recordedLength_null {h : Heap} {pointee : Ty} {slot : Nat} (readable : h.readable slot 8 = true)
    (null : value (h.bytes.peek slot 8) = 0) : recordedLength h pointee slot false [] = .ok 0 := by
  have undecided : constraintsImplyEquality h .pointer [] = .ok false := rfl
  simp [recordedLength, Heap.load_eq_ok.mpr ⟨readable, rfl⟩, null, undecided, runConstraints, bind, Except.bind,
    pure, Except.pure]

theorem table_entry {i : Nat} (below : i < tableLength) :
    tableHost.readable (4096 + i * 8) 8 = true ∧ value (tableHost.bytes.peek (4096 + i * 8) 8) = 0 := by
  unfold tableLength at below
  refine ⟨Heap.readable_iff.mpr fun x lower upper => ?_, ?_⟩
  · simp only [tableHost, decide_eq_true_eq]
    omega
  · have zero : tableHost.bytes.peek (4096 + i * 8) 8 = Image.peek (fun _ => 0) (4096 + i * 8) 8 := by
      refine Image.peek_congr fun x lower upper => ?_
      simp only [tableHost]
      rw [Image.poke_outside _ _ (by rw [number_length]; omega), if_pos (by omega)]
    rw [zero]
    rfl

theorem tableCall : HostCall tableInfo tableTypes [16] tableConstraints tableHost (2 ^ 64) 2 tableVals where
  slotsOk := by
    have held : places tableInfo.structs tableTypes [16] = [(16, 8)] := rfl
    refine ⟨rfl, by simp [held], ?_⟩
    intro place member
    rw [held] at member
    refine ⟨?_, fun x lower upper => ?_⟩
    · fin_cases member
      norm_num
    · fin_cases member
      simp only [tableHost, decide_eq_true_eq] at *
      omega
  laid := .of_empty rfl
  sized := by simp [tableTypes, Sized]
  plain := by simp [tableConstraints, UserConstraint.Plain]
  inRange := by decide
  evaluated := by
    intro c member
    fin_cases member
    exact ⟨[], rfl⟩
  wide := by
    intro c member type hasType index rhs
    fin_cases member
    cases rhs
  holds := by
    rintro (_ | arg) type addr hasType hasSlot
    · cases hasType
      cases hasSlot
      refine .pointer (by decide) (by decide) (by decide) (by decide +kernel) rfl ?_ ?_ ?_
      · rw [List.length_replicate]
        decide +kernel
      · intro i below
        rw [List.length_replicate, tableLength] at below
        omega
      · intro i item chosen
        obtain ⟨below, rfl⟩ := List.getElem?_eq_some_iff.mp chosen
        rw [List.length_replicate] at below
        obtain ⟨readable, null⟩ := table_entry below
        have base : value (tableHost.bytes.peek 16 8) = 4096 := by decide +kernel
        unfold tableLength at below
        rw [List.getElem_replicate, base]
        exact .pointer (by omega) (by omega) (by omega) readable rfl (recordedLength_null readable null)
          (by simp) (by simp)
    · cases hasType
  met := by
    rintro (_ | arg) type hasType d member
    · cases hasType
      fin_cases member
      simp only [Constraint.MetBy, tableVals, Constraint.Met, List.length_replicate]
      decide +kernel
    · cases hasType

/-- Rebuilding a null pointer takes one block of one byte. -/
theorem rebuild_null {P : Platform} {structs : Nat → StructType} {buffer : Image} {t : Heap}
    {held : List (Nat × Nat)} {bufferSize fuel floor offset addr : Nat} (alloc : P.Allocates held)
    (allocator : P.malloc = bump floor) (laid : t.Laid held) (region : t.Region addr (addr + 8)) (even : addr % 2 = 0)
    (input : buffer.peek offset 4 = number 4 0) (inside : offset + 4 ≤ bufferSize) (small : bufferSize < 2 ^ 32)
    (room : top floor t.blocks + 17 ≤ 2 ^ 63) :
    Ensures (fun _ => False) (fun r => r.1 = offset + 4 ∧ r.2.Laid held ∧ Extends addr (addr + 8) t r.2 ∧
        top floor r.2.blocks ≤ top floor t.blocks + 17)
      (populateFromBuffer P structs buffer bufferSize (fuel + 1) (.pointer (.integer 8)) offset addr [] t) := by
  have base : P.malloc t.blocks (1 * (0 + 1)) = 16 * (top floor t.blocks / 16 + 1) := bump_malloc allocator room
  have known : getSize structs (.integer 8) = .ok 1 := rfl
  have read : getBuffFour buffer bufferSize offset = (0, offset + 4) := by
    rw [reads_four, window_inside buffer inside, advance_inside inside, input]
    rfl
  have canonical := region.canonical
  rw [populate_pointer_eq (by omega) even known read rfl]
  refine Ensures.weaken (buildBlock_rule (Q := fun _ first r => r = (offset + 4, first)) alloc ?_ region le_rfl
    le_rfl ?_) ?_
  · intro failed
    have null := (Heap.malloc_eq_error.mp failed).1
    omega
  · intro res first allocated
    simp only [Ty.isScalar, if_true]
    rw [bulkCopy_eq (by simp [Heap.readable])]
    refine ⟨?_, ?_⟩
    · simpa [Image.peek] using Extends.refl _ _ first
    · simp [Image.peek, Nat.mod_eq_of_lt (show offset + 4 < 4294967296 by omega)]
  · rintro ⟨position, filled⟩ ⟨outer, res, first, _, allocated, _, done, same⟩
    obtain ⟨rfl, rfl⟩ := Prod.mk.inj done
    obtain ⟨rfl, _, rfl⟩ := Heap.malloc_eq_ok.mp allocated
    refine ⟨rfl, ?_, outer, ?_⟩
    · rw [same]
      exact (Heap.malloc_laid alloc laid allocated).of_blocks rfl
    · rw [same]
      simp only [published, top_cons]
      omega

theorem nulls_length (count : Nat) :
    (Value.encodeAll (List.replicate count (.sequence []))).length = 4 * count := by
  have each : ∀ (i : Nat) item, (List.replicate count (Value.sequence []))[i]? = some item →
      item.encode.length = 4 := by
    intro i item chosen
    obtain ⟨_, rfl⟩ := List.getElem?_eq_some_iff.mp chosen
    simp [Value.encode, Value.encodeAll]
  rw [encodeAll_length each, List.length_replicate, Nat.mul_comm]

theorem nulls_at {buffer : Image} {i count : Nat} (below : i < count)
    (input : buffer.peek 4 (4 * count) = Value.encodeAll (List.replicate count (.sequence []))) :
    buffer.peek (4 + 4 * i) 4 = number 4 0 := by
  have chosen : (List.replicate count (Value.sequence []))[i]? = some (.sequence []) := by simp [below]
  rw [← nulls_length] at input
  have stream := (input_at chosen input (le_refl _)).1
  rw [List.take_replicate, Nat.min_eq_left (by omega), nulls_length] at stream
  simpa [Value.encode, Value.encodeAll] using stream

theorem nulls_input {buffer : Image} {count : Nat} (small : count < 256 ^ 4)
    (input : buffer.peek 0 (4 + 4 * count) = (Value.sequence (List.replicate count (.sequence []))).encode) :
    getBuffFour buffer (4 + 4 * count) 0 = (count, 4) ∧
      buffer.peek 4 (4 * count) = Value.encodeAll (List.replicate count (.sequence [])) := by
  rw [Image.peek_add, Value.encode, List.length_replicate] at input
  obtain ⟨prefixed, items⟩ := List.append_inj input (by rw [Image.peek_length, number_length])
  refine ⟨?_, items⟩
  rw [reads_four, window_inside buffer (by omega), advance_inside (by omega), prefixed, value_number,
    Nat.mod_eq_of_lt small]

/-- Of a table with more than 2^29 entries, entry 2^29 is written over the first
one, and its own place is never written. -/
theorem table_populates {buffer : Image} {cs : List Constraint} {count : Nat} (long : 2 ^ 29 < count)
    (short : count < 2 ^ 29 + 16)
    (input : buffer.peek 0 (4 + 4 * count) = (Value.sequence (List.replicate count (.sequence []))).encode)
    (counted : runConstraints tableHost .pointer cs count = .ok count) :
    Ensures (fun _ => False) (fun r => r.2.Laid [(16, 8)] ∧ ∃ res < 2 ^ 63, r.2.bytes.peek 16 8 = number 8 res ∧
        value (r.2.bytes.peek (res + 2 ^ 32) 8) = 2 ^ 64 - 1)
      (populateFromBuffer (bumpPlatform (2 ^ 33) [0]) tableInfo.structs buffer (4 + 4 * count) 2
        (.pointer (.pointer (.integer 8))) 0 16 cs tableHost) := by
  have alloc : (bumpPlatform (2 ^ 33) [0]).Allocates [(16, 8)] := bump_allocates rfl (by decide)
  have laid : tableHost.Laid [(16, 8)] := .of_empty rfl
  have region : tableHost.Region 16 (16 + 8) := tableCall.slotsOk.region_at (i := 0) rfl rfl
  have known : getSize tableInfo.structs (.pointer (.integer 8)) = .ok 8 := rfl
  have base : (bumpPlatform (2 ^ 33) [0]).malloc tableHost.blocks (8 * (count + 1)) = 2 ^ 33 + 16 := by
    have empty : top (2 ^ 33) tableHost.blocks = 2 ^ 33 := rfl
    rw [bump_malloc (show (bumpPlatform (2 ^ 33) [0]).malloc = bump (2 ^ 33) from rfl) (by omega), empty]
    norm_num
  obtain ⟨read, items⟩ := nulls_input (by omega) input
  rw [populate_pointer_eq (by norm_num) (by norm_num) known read counted]
  refine Ensures.weaken (buildBlock_rule (Q := fun res first r => r.2.Laid [(16, 8)] ∧
    Extends res (res + 2 ^ 32) first r.2) alloc ?_ region le_rfl le_rfl ?_) ?_
  · intro failed
    have null := (Heap.malloc_eq_error.mp failed).1
    omega
  · intro res first allocated
    have block := Heap.malloc_region alloc allocated
    have firstLaid := Heap.malloc_laid alloc laid allocated
    have even := Heap.malloc_even alloc allocated
    have above : top (2 ^ 33) first.blocks ≤ 2 ^ 35 := by
      obtain ⟨rfl, _, rfl⟩ := Heap.malloc_eq_ok.mp allocated
      rw [base, top_cons]
      simp only [tableHost, top, List.foldr_nil]
      omega
    simp only [Ty.isScalar, Bool.false_eq_true, if_false]
    refine Ensures.weaken (forTo_ensures (I := fun i (r : Nat × Heap) => r.1 = 4 + 4 * i ∧ r.2.Laid [(16, 8)] ∧
      Extends res (res + 2 ^ 32) first r.2 ∧ top (2 ^ 33) r.2.blocks ≤ 2 ^ 35 + 17 * i) count
      ⟨rfl, firstLaid, .refl _ _ _, above⟩ ?_) ?_
    · rintro i below ⟨position, t⟩ ⟨here, laid', sofar, bound⟩
      obtain rfl : position = 4 + 4 * i := here
      simp only at laid' sofar bound ⊢
      have wrapped : i * 8 % 2 ^ 32 + 8 ≤ 2 ^ 32 := by omega
      refine Ensures.weaken (rebuild_null alloc rfl laid' ((sofar.region block).narrow (by omega) (by omega))
        (by omega) (nulls_at below items) (by omega) (by omega) (by omega)) ?_
      rintro r ⟨moved, laid'', grown, bound'⟩
      exact ⟨by omega, laid'', sofar.trans (grown.widen (by omega) (by omega)), by omega⟩
    · rintro r ⟨_, laid', sofar, _⟩
      exact ⟨sofar.widen le_rfl (by omega), laid', sofar⟩
  · rintro r ⟨_, res, first, filled, allocated, _, ⟨laid', sofar⟩, same⟩
    obtain ⟨rfl, _, rfl⟩ := Heap.malloc_eq_ok.mp allocated
    rw [base] at same sofar
    rw [same]
    refine ⟨laid'.of_blocks rfl, 2 ^ 33 + 16, by norm_num, ?_, ?_⟩
    · have wrote := Image.peek_poke (filled.bytes.poke (2 ^ 33 + 16 + count * 8) (List.replicate 8 0)) 16
        (number 8 (2 ^ 33 + 16))
      rwa [number_length] at wrote
    · obtain ⟨_, new, blocks, kept⟩ := sofar
      have pairs := laid'.apart
      rw [blocks, List.pairwise_append] at pairs
      -- no block of an entry lies in the table
      have unwritten : ∀ x, 2 ^ 33 + 16 + 2 ^ 32 ≤ x → x < 2 ^ 33 + 16 + 2 ^ 32 + 8 → filled.bytes x = 0xff := by
        intro x lower upper
        rw [kept x (.inr lower) ?_]
        · simp only [tableHost]
          rw [Image.poke_outside _ _ (by rw [number_length]; omega), if_neg (by omega)]
        · intro b member
          have away := pairs.2.2 b member _ (List.mem_cons_self ..)
          simp only [Apart] at away
          rcases away with left | right <;> omega
      have clear : (published 8 count 16 (2 ^ 33 + 16) filled).bytes.peek (2 ^ 33 + 16 + 2 ^ 32) 8 =
          Image.peek (fun _ => 0xff) (2 ^ 33 + 16 + 2 ^ 32) 8 := by
        refine Image.peek_congr fun x lower upper => ?_
        simp only [published]
        rw [Image.poke_outside _ _ (by rw [number_length]; omega),
          Image.poke_outside _ _ (by rw [List.length_replicate]; omega), unwritten x lower upper]
      rw [clear]
      rfl

/-- A rebuilt table would have the base of a block in every entry. -/
theorem table_not_built {t : Heap} {blocks : List Block} {res : Nat} (laid : t.Laid held) (sub : blocks ⊆ t.blocks)
    (canonical : res < 2 ^ 63) (stored : t.bytes.peek 16 8 = number 8 res)
    (entry : value (t.bytes.peek (res + 2 ^ 32) 8) = 2 ^ 64 - 1) :
    ¬ Built tableInfo.structs t.bytes blocks (.pointer (.pointer (.integer 8))) 16 (tableVals 0) := by
  have number_inj : ∀ a b : Nat, a < 256 ^ 8 → b < 256 ^ 8 → number 8 a = number 8 b → a = b := by
    intro a b small small' same
    have values := congrArg value same
    rwa [value_number, value_number, Nat.mod_eq_of_lt small, Nat.mod_eq_of_lt small'] at values
  intro built
  generalize whole : tableVals 0 = v at built
  cases built with
  | @pointer _ size _ items b member count room pointed known each =>
    cases whole
    cases known
    have small := laid.canonical b (sub member)
    obtain rfl : b.base = res := number_inj _ _ (by omega) (by omega) (pointed.symm.trans stored)
    have last := each (2 ^ 29) (.sequence []) (by
      rw [List.getElem?_replicate, if_pos (by unfold tableLength; norm_num)])
    cases last with
    | @pointer _ _ _ _ c inside _ _ leads _ _ =>
      have below := laid.canonical c (sub inside)
      rw [show b.base + 2 ^ 29 * 8 = b.base + 2 ^ 32 by omega] at leads
      rw [leads, value_number, Nat.mod_eq_of_lt (by omega)] at entry
      omega

theorem populateRound_single {P : Platform} {structs : Nat → StructType} {type : Ty} {addr fuel bufferSize : Nat}
    {cs : List Constraint} {edges : List (Nat × Nat)} {buffer : Image} {h : Heap}
    (sorted : P.topologicalSort 1 edges = [0]) :
    populateRound P structs [type] ⟨[addr], [cs], edges⟩ fuel buffer bufferSize h =
      populateFromBuffer P structs buffer bufferSize fuel type 0 addr cs h := by
  simp [populateRound, visitInOrder, sorted, visitArg, getAt, bind, Except.bind, pure, Except.pure]
  split <;> simp_all

theorem table_vals (arg : Nat) : tableVals arg = .sequence (List.replicate tableLength (.sequence [])) := rfl

theorem table_encode_length : (tableVals 0).encode.length = 4 + 4 * tableLength := by
  rw [table_vals, Value.encode, List.length_append, number_length, nulls_length]

theorem table_not_rebuilt {buffer : Image}
    (input : buffer.peek 0 (tableVals 0).encode.length = (tableVals 0).encode) :
    ∃ result, populateRound (bumpPlatform (2 ^ 33) [0]) tableInfo.structs tableTypes
        (HostCall.setup tableTypes [16] tableConstraints tableHost) 2 buffer (tableVals 0).encode.length tableHost =
        .ok result ∧
      ¬ ∃ blocks ⊆ result.2.blocks, Built tableInfo.structs result.2.bytes blocks
          (.pointer (.pointer (.integer 8))) 16 (tableVals 0) := by
  have setup : HostCall.setup tableTypes [16] tableConstraints tableHost =
      ⟨[16], [constraintsOf tableConstraints (resolvedRhs tableTypes [16] tableHost) 0], []⟩ := rfl
  have counted : runConstraints tableHost .pointer
      (constraintsOf tableConstraints (resolvedRhs tableTypes [16] tableHost) 0) tableLength = .ok tableLength := by
    decide +kernel
  generalize constraintsOf tableConstraints (resolvedRhs tableTypes [16] tableHost) 0 = cs at setup counted
  rw [table_encode_length, table_vals] at input
  have bounds : 2 ^ 29 < tableLength ∧ tableLength < 2 ^ 29 + 16 := by
    unfold tableLength
    norm_num
  have populated := table_populates bounds.1 bounds.2 input counted
  rw [table_encode_length, setup, tableTypes, populateRound_single rfl]
  cases outcome : populateFromBuffer (bumpPlatform (2 ^ 33) [0]) tableInfo.structs buffer (4 + 4 * tableLength) 2
      (.pointer (.pointer (.integer 8))) 0 16 cs tableHost with
  | error e =>
    rw [outcome] at populated
    exact populated.elim
  | ok result =>
    rw [outcome] at populated
    obtain ⟨laid, res, canonical, stored, entry⟩ := populated
    refine ⟨result, rfl, ?_⟩
    rintro ⟨blocks, sub, built⟩
    exact table_not_built laid sub canonical stored entry built

theorem table_recorded : ∃ s, recordRound (bumpPlatform (2 ^ 33) [0]) tableInfo.structs tableTypes
      (HostCall.setup tableTypes [16] tableConstraints tableHost) 2 tableHost ⟨fun _ => 0, 0, false, []⟩ = .ok s ∧
      s.written = (tableVals 0).encode := by
  have order : ReverseTopological (List.range tableTypes.length) (dependencies tableConstraints)
      ((bumpPlatform (2 ^ 33) [0]).topologicalSort tableTypes.length (dependencies tableConstraints)) :=
    ⟨by decide, by decide⟩
  have sorted : ((bumpPlatform (2 ^ 33) [0]).topologicalSort tableTypes.length
      (dependencies tableConstraints)).reverse = [0] := rfl
  obtain ⟨s, returned, ⟨written, _⟩, _⟩ := tableCall.records le_rfl order
    (show (Recording.mk (fun _ => 0) 0 false []).offset < 2 ^ 32 by norm_num)
  rw [sorted, encodeArgs_single, List.nil_append] at written
  exact ⟨s, returned, written⟩

theorem wide_table_not_replayed :
    HostCall tableInfo tableTypes [16] tableConstraints tableHost (2 ^ 64) 2 tableVals ∧
    (bumpPlatform (2 ^ 33) [0]).Allocates (places tableInfo.structs tableTypes [16]) ∧
    ReverseTopological (List.range tableTypes.length) (dependencies tableConstraints) [0] ∧
    (tableVals 0).encode.length < 2 ^ 32 ∧
    ∃ setup s, setupArgs tableTypes [16] tableConstraints tableHost = .ok setup ∧
      recordRound (bumpPlatform (2 ^ 33) [0]) tableInfo.structs tableTypes setup 2 tableHost
        ⟨fun _ => 0, 0, false, []⟩ = .ok s ∧
      ∃ result, populateRound (bumpPlatform (2 ^ 33) [0]) tableInfo.structs tableTypes setup 2
          (Image.poke (fun _ => 0) 0 s.written) s.written.length tableHost = .ok result ∧
        ¬ ∃ blocks ⊆ result.2.blocks, Built tableInfo.structs result.2.bytes blocks
            (.pointer (.pointer (.integer 8))) 16 (tableVals 0) := by
  obtain ⟨s, returned, written⟩ := table_recorded
  obtain ⟨result, populated, notBuilt⟩ := table_not_rebuilt (Image.peek_poke (fun _ => 0) 0 (tableVals 0).encode)
  refine ⟨tableCall, bump_allocates rfl (by decide), ⟨by decide, by decide⟩, ?_, _, s, tableCall.setup_eq, returned,
    result, ?_, notBuilt⟩
  · rw [table_encode_length]
    unfold tableLength
    norm_num
  · rw [written]
    exact populated

end AflLive.Libgen
