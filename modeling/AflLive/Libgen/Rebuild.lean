import AflLive.Libgen.Arguments
import AflLive.Libgen.BulkCopy
import AflLive.Libgen.Value

/-! Rebuilding a value from its encoding. `populateFromBuffer`, reading the
encoding of a value the recorder found in the host's memory, builds memory that
holds the same value. -/
namespace AflLive.Libgen
open Bytes Control

/-- Rebuilt memory holds a value. The pointers in it lead to the given blocks. -/
inductive Built (structs : Nat → StructType) (bytes : Image) (blocks : List Block) : Ty → Nat → Value → Prop
  | integer {bitWidth addr : Nat} :
      Built structs bytes blocks (.integer bitWidth) addr (.scalar (bytes.peek addr (bitWidth / 8)))
  | floating {bitWidth addr : Nat} :
      Built structs bytes blocks (.floating bitWidth) addr (.scalar (bytes.peek addr (bitWidth / 8)))
  | struct {name addr : Nat} {items : List Value} (count : items.length = (structs name).fields.length)
      (each : ∀ (i : Nat) field item, (structs name).fields[i]? = some field → items[i]? = some item →
        Built structs bytes blocks field.1 (addr + field.2) item) :
      Built structs bytes blocks (.struct name) addr (.parts items)
  | array {elem : Ty} {numElems size addr : Nat} {items : List Value} (known : getSize structs elem = .ok size)
      (count : items.length = numElems)
      (each : ∀ (i : Nat) item, items[i]? = some item → Built structs bytes blocks elem (addr + i * size) item) :
      Built structs bytes blocks (.array elem numElems) addr (.parts items)
  | pointer {pointee : Ty} {size addr : Nat} {items : List Value} {b : Block} (member : b ∈ blocks)
      (count : b.numElems = items.length) (room : items.length * size ≤ b.size)
      (stored : bytes.peek addr 8 = number 8 b.base) (known : getSize structs pointee = .ok size)
      (each : ∀ (i : Nat) item, items[i]? = some item → Built structs bytes blocks pointee (b.base + i * size) item) :
      Built structs bytes blocks (.pointer pointee) addr (.sequence items)

section Frame
variable {info : TypeInfo} {held : List (Nat × Nat)} {bytes bytes' : Image} {blocks blocks' new : List Block}
  {type : Ty} {addr lo hi : Nat} {v : Value} {h t : Heap}

theorem Built.sized (built : Built info.structs bytes blocks type addr v) :
    ∃ size, getSize info.structs type = .ok size := by
  cases built with
  | integer | floating | struct | pointer => exact ⟨_, rfl⟩
  | array known => exact ⟨_, by simp only [getSize, known, ok_bind]; rfl⟩

theorem Built.of_narrow {size : Nat} {stored : List UInt8} (narrow : type.Narrow)
    (known : getSize info.structs type = .ok size) (same : bytes.peek addr size = stored) :
    Built info.structs bytes blocks type addr (.scalar stored) := by
  subst same
  cases type with
  | integer bitWidth =>
    cases known
    exact .integer
  | floating bitWidth =>
    cases known
    exact .floating
  | pointer | struct | array | unsupported => exact narrow.elim

theorem item_room {items : List Value} {item : Value} {i size total : Nat} (here : items[i]? = some item)
    (room : items.length * size ≤ total) : i * size + size ≤ total := by
  obtain ⟨inside, _⟩ := List.getElem?_eq_some_iff.mp here
  nlinarith

/-- A rebuilt value depends on its own place and on its own blocks only. -/
theorem Built.frame (built : Built info.structs bytes blocks type addr v) (wellSized : Sized info.structs type)
    (kept : ∀ size, getSize info.structs type = .ok size → ∀ x, addr ≤ x → x < addr + size → bytes' x = bytes x)
    (sub : blocks ⊆ blocks')
    (inBlocks : ∀ b ∈ blocks, ∀ x, b.base ≤ x → x < b.base + b.size → bytes' x = bytes x) :
    Built info.structs bytes' blocks' type addr v := by
  induction built with
  | @integer bitWidth addr =>
    have same : bytes'.peek addr (bitWidth / 8) = bytes.peek addr (bitWidth / 8) := Image.peek_congr (kept _ rfl)
    exact same ▸ .integer
  | @floating bitWidth addr =>
    have same : bytes'.peek addr (bitWidth / 8) = bytes.peek addr (bitWidth / 8) := Image.peek_congr (kept _ rfl)
    exact same ▸ .floating
  | @struct name addr items count each ih =>
    refine .struct count fun i field item here chosen => ?_
    have member : field ∈ (info.structs name).fields := List.mem_of_getElem? here
    refine ih i field item here chosen (info.fields_sized name field member) fun size known x lower upper => ?_
    have inside := info.inside name field member size known
    exact kept _ rfl x (by omega) (by omega)
  | @array elem numElems size addr items known count each ih =>
    subst count
    refine .array known rfl fun i item chosen => ?_
    refine ih i item chosen wellSized.1 fun size' known' x lower upper => ?_
    obtain rfl : size = size' := Except.ok.inj (known.symm.trans known')
    have below := wellSized.2 size known
    have room := item_room chosen (Nat.le_of_eq (Nat.mul_comm items.length size))
    have whole : getSize info.structs (.array elem items.length) = .ok (size * items.length) := by
      simp only [getSize, known, ok_bind, Nat.mod_eq_of_lt below]
      rfl
    exact kept _ whole x (by omega) (by omega)
  | @pointer pointee size addr items b member count room stored known each ih =>
    have same : bytes'.peek addr 8 = bytes.peek addr 8 := Image.peek_congr (kept 8 rfl)
    refine .pointer (sub member) count room (same.trans stored) known fun i item chosen => ?_
    refine ih i item chosen wellSized fun size' known' x lower upper => ?_
    obtain rfl : size = size' := Except.ok.inj (known.symm.trans known')
    have within := item_room chosen room
    exact inBlocks b member x (by omega) (by omega)

/-- The region lies in a range the program holds or in a block. -/
def Heap.Owns (h : Heap) (held : List (Nat × Nat)) (lo hi : Nat) : Prop :=
  (∃ range ∈ held, range.1 ≤ lo ∧ hi ≤ range.1 + range.2) ∨
    ∃ b ∈ h.blocks, b.base ≤ lo ∧ hi ≤ b.base + b.size

theorem Heap.Owns.narrow (owned : h.Owns held lo hi) (lower : lo ≤ lo') (upper : hi' ≤ hi) :
    h.Owns held lo' hi' := by
  rcases owned with ⟨range, member, start, finish⟩ | ⟨b, member, start, finish⟩
  · exact .inl ⟨range, member, by omega, by omega⟩
  · exact .inr ⟨b, member, by omega, by omega⟩

theorem Heap.Owns.grow (owned : h.Owns held lo hi) (grown : t.blocks = new ++ h.blocks) : t.Owns held lo hi := by
  rcases owned with ranged | ⟨b, member, start, finish⟩
  · exact .inl ranged
  · exact .inr ⟨b, by rw [grown]; exact List.mem_append_right _ member, start, finish⟩

/-- Blocks handed out later do not touch it. -/
theorem Heap.Owns.apart (owned : h.Owns held lo hi) (laid : t.Laid held) (grown : t.blocks = new ++ h.blocks) :
    ∀ b ∈ new, ∀ x, lo ≤ x → x < hi → x < b.base ∨ b.base + b.size ≤ x := by
  intro b fresh x lower upper
  rcases owned with ⟨range, member, start, finish⟩ | ⟨old, member, start, finish⟩
  · have away := laid.reserved b (by rw [grown]; exact List.mem_append_left _ fresh) range member
    rcases away with left | right <;> omega
  · have pairs := laid.apart
    rw [grown, List.pairwise_append] at pairs
    rcases pairs.2.2 b fresh old member with left | right <;> omega

/-- One place has been rebuilt. -/
structure Rebuilt (structs : Nat → StructType) (held : List (Nat × Nat)) (h : Heap) (type : Ty) (addr : Nat) (v : Value)
    (t : Heap) : Prop where
  laid : t.Laid held
  grown : Extends addr (addr + placeSize structs type) h t
  built : ∃ new, t.blocks = new ++ h.blocks ∧ Built structs t.bytes new type addr v

/-- Places for consecutive items, separate and inside one region. -/
structure Layout (structs : Nat → StructType) (lo hi : Nat) (place : Nat → Ty × Nat) (n : Nat) : Prop where
  sized : ∀ i < n, Sized structs (place i).1
  inside : ∀ i < n, ∀ size, getSize structs (place i).1 = .ok size → lo ≤ (place i).2 ∧ (place i).2 + size ≤ hi
  apart : ∀ i j, i < j → j < n → ∀ k m, getSize structs (place i).1 = .ok k →
    getSize structs (place j).1 = .ok m → Apart (place i).2 k (place j).2 m

/-- The program or a block owns every place. -/
def Owned (structs : Nat → StructType) (held : List (Nat × Nat)) (h : Heap) (place : Nat → Ty × Nat) (n : Nat) : Prop :=
  ∀ i < n, ∀ size, getSize structs (place i).1 = .ok size → h.Owns held (place i).2 ((place i).2 + size)

theorem Layout.owned {place : Nat → Ty × Nat} {n : Nat} (layout : Layout info.structs lo hi place n)
    (region : h.Owns held lo hi) : Owned info.structs held h place n := by
  intro i below size known
  have within := layout.inside i below size known
  exact region.narrow within.1 within.2

/-- The first `n` items have been rebuilt in their places. -/
structure Progress (structs : Nat → StructType) (held : List (Nat × Nat)) (h : Heap) (lo hi : Nat)
    (place : Nat → Ty × Nat) (items : List Value) (n : Nat) (t : Heap) : Prop where
  laid : t.Laid held
  grown : Extends lo hi h t
  built : ∃ new, t.blocks = new ++ h.blocks ∧ ∀ (i : Nat) item, i < n → items[i]? = some item →
    Built structs t.bytes new (place i).1 (place i).2 item

theorem Progress.start {place : Nat → Ty × Nat} {items : List Value} (laid : h.Laid held) :
    Progress info.structs held h lo hi place items 0 h :=
  ⟨laid, .refl _ _ _, [], rfl, fun _ _ below => absurd below (Nat.not_lt_zero _)⟩

/-- Rebuilding the next item keeps the items before it. -/
theorem Progress.next {place : Nat → Ty × Nat} {items : List Value} {item : Value} {n count : Nat} {u : Heap}
    (sofar : Progress info.structs held h lo hi place items n t) (layout : Layout info.structs lo hi place count)
    (below : n < count) (owned : Owned info.structs held h place count) (chosen : items[n]? = some item)
    (step : Rebuilt info.structs held t (place n).1 (place n).2 item u) :
    Progress info.structs held h lo hi place items (n + 1) u := by
  obtain ⟨laid, grown, new, blocks, built⟩ := sofar
  obtain ⟨laid', grown', new', blocks', built'⟩ := step
  obtain ⟨size, known⟩ := built'.sized
  rw [placeSize_eq known] at grown'
  have within := layout.inside n below size known
  have all : u.blocks = (new' ++ new) ++ h.blocks := by rw [blocks', blocks, List.append_assoc]
  have pairs := laid'.apart
  rw [blocks', blocks, List.pairwise_append] at pairs
  have kept : ∀ x, x < (place n).2 ∨ (place n).2 + size ≤ x →
      (∀ b ∈ new', x < b.base ∨ b.base + b.size ≤ x) → u.bytes x = t.bytes x := by
    obtain ⟨_, fresh, same, unchanged⟩ := grown'
    obtain rfl : fresh = new' := List.append_cancel_right (same.symm.trans blocks')
    exact unchanged
  refine ⟨laid', grown.trans (grown'.widen within.1 within.2), new' ++ new, all, ?_⟩
  intro i other before here
  rcases Nat.lt_succ_iff_lt_or_eq.mp before with earlier | rfl
  · have old := built i other earlier here
    refine old.frame (layout.sized i (by omega)) ?_ (List.subset_append_right _ _) ?_
    · intro size' known' x lower upper
      have apart := layout.apart i n earlier below size' size known' known
      have place := layout.inside i (by omega) size' known'
      refine kept x (by rcases apart with left | right <;> omega) ?_
      have mine := owned i (by omega) size' known'
      exact fun b fresh => (mine.grow blocks).apart laid' blocks' b fresh x (by omega) (by omega)
    · intro b member x lower upper
      have clear := (owned n below size known).apart laid blocks b member
      refine kept x ?_ fun c fresh => ?_
      · by_contra touching
        have := clear x (by omega) (by omega)
        omega
      · rcases pairs.2.2 c fresh b (List.mem_append_left _ member) with left | right <;> omega
  · obtain rfl : item = other := Option.some.inj (chosen.symm.trans here)
    exact built'.frame (layout.sized i below) (fun _ _ _ _ _ => rfl) (List.subset_append_left _ _)
      (fun _ _ _ _ _ => rfl)

end Frame
/-- The constraints leave the value as it is. -/
def Passes (h : Heap) (cs : List Constraint) : Ty → Value → Prop
  | .integer bitWidth, .scalar bytes =>
    runConstraints h (.integer (bitWidth / 8)) cs (value bytes) = .ok (value bytes)
  | .floating bitWidth, .scalar bytes =>
    runConstraints h (.floating (bitWidth / 8)) cs (value bytes) = .ok (value bytes)
  | .pointer _, .sequence items => runConstraints h .pointer cs items.length = .ok items.length
  | _, _ => True

theorem Passes.nil (h : Heap) (type : Ty) (v : Value) : Passes h [] type v := by
  unfold Passes
  split <;> first | rfl | trivial

section Rebuild
variable {P : Platform} {info : TypeInfo} {held : List (Nat × Nat)} {host h : Heap} {buffer : Image}
  {bufferSize offset addr lo hi : Nat} {type : Ty} {items : List Value}

/-- A narrow scalar is rebuilt where its bytes come next in the input. -/
theorem rebuild_scalar {size fuel : Nat} {cs : List Constraint} (narrow : type.Narrow)
    (known : getSize info.structs type = .ok size) (laid : h.Laid held) (region : h.Region addr (addr + size))
    (inside : offset + size ≤ bufferSize)
    (passes : runConstraints h type.lhsType cs (value (buffer.peek offset size)) =
      .ok (value (buffer.peek offset size))) :
    Ensures (· = Fault.noMemory) (fun r => r.1 = offset + size ∧
        Rebuilt info.structs held h type addr (.scalar (buffer.peek offset size)) r.2)
      (populateFromBuffer P info.structs buffer bufferSize (fuel + 1) type offset addr cs h) := by
  rw [← window_inside buffer inside] at passes ⊢
  rw [populate_narrow narrow known passes]
  have writable : h.readable addr (window buffer bufferSize offset size).length = true := by
    rw [window_length]
    exact region.readable le_rfl le_rfl
  have stored := Heap.store_eq_ok.mpr ⟨writable, rfl⟩
  rw [stored]
  refine ⟨advance_inside inside, Heap.store_laid stored laid, ?_, [], rfl, ?_⟩
  · rw [placeSize_eq known]
    exact Heap.store_extends stored le_rfl (by rw [window_length])
  · have wrote := Image.peek_poke h.bytes addr (window buffer bufferSize offset size)
    rw [window_length] at wrote
    exact .of_narrow narrow known wrote

/-- The state of a loop over items: the offset behind the encodings read so far,
and the items rebuilt. -/
def Reached (structs : Nat → StructType) (held : List (Nat × Nat)) (h : Heap) (lo hi : Nat)
    (place : Nat → Ty × Nat) (items : List Value) (offset n : Nat) (r : Nat × Heap) : Prop :=
  r.1 = offset + (Value.encodeAll (items.take n)).length ∧ Progress structs held h lo hi place items n r.2

theorem Reached.next {place : Nat → Ty × Nat} {item : Value} {n count : Nat} {r u : Nat × Heap}
    (sofar : Reached info.structs held h lo hi place items offset n r)
    (layout : Layout info.structs lo hi place count) (below : n < count)
    (owned : Owned info.structs held h place count) (chosen : items[n]? = some item)
    (moved : u.1 = r.1 + item.encode.length)
    (step : Rebuilt info.structs held r.2 (place n).1 (place n).2 item u.2) :
    Reached info.structs held h lo hi place items offset (n + 1) u := by
  refine ⟨?_, sofar.2.next layout below owned chosen step⟩
  rw [moved, sofar.1, Value.encodeAll_take chosen, List.length_append, Nat.add_assoc]

/-- Where the encoding of an item stands in the encoding of all of them. -/
theorem input_at {item : Value} {n : Nat} (chosen : items[n]? = some item)
    (input : buffer.peek offset (Value.encodeAll items).length = Value.encodeAll items)
    (inside : offset + (Value.encodeAll items).length ≤ bufferSize) :
    buffer.peek (offset + (Value.encodeAll (items.take n)).length) item.encode.length = item.encode ∧
      offset + (Value.encodeAll (items.take n)).length + item.encode.length ≤ bufferSize := by
  rw [Value.encodeAll_split chosen] at input inside
  have tail := (Image.peek_append input).2
  refine ⟨(Image.peek_append tail).1, ?_⟩
  simp only [List.length_append] at inside
  omega

theorem encodeAll_length {size : Nat} (each : ∀ (i : Nat) item, items[i]? = some item → item.encode.length = size) :
    (Value.encodeAll items).length = items.length * size := by
  induction items with
  | nil => simp [Value.encodeAll]
  | cons item rest ih =>
    have first := each 0 item rfl
    have others := ih fun i other here => each (i + 1) other here
    simp only [Value.encodeAll, List.length_append, List.length_cons, first, others]
    ring

/-- Places one after another. -/
theorem Layout.of_stride {elem : Ty} {size count base : Nat} (sized : Sized info.structs elem)
    (known : getSize info.structs elem = .ok size) (room : base + count * size ≤ hi) :
    Layout info.structs base hi (fun i => (elem, base + i * size)) count := by
  refine ⟨fun _ _ => sized, ?_, ?_⟩
  · intro i below size' known'
    obtain rfl : size = size' := Except.ok.inj (known.symm.trans known')
    refine ⟨Nat.le_add_right _ _, ?_⟩
    simp only
    nlinarith
  · intro i j before below k m known' known''
    obtain rfl : size = k := Except.ok.inj (known.symm.trans known')
    refine .inl ?_
    simp only
    nlinarith

/-- The type and the address of a field; there is none behind the last one. -/
def fieldPlace (fields : List (Ty × Nat)) (addr i : Nat) : Ty × Nat :=
  ((fields.getD i (.unsupported, 0)).1, addr + (fields.getD i (.unsupported, 0)).2)

theorem fieldPlace_eq {fields : List (Ty × Nat)} {field : Ty × Nat} {i : Nat} (here : fields[i]? = some field)
    (addr : Nat) : fieldPlace fields addr i = (field.1, addr + field.2) := by
  simp only [fieldPlace, List.getD, here, Option.getD_some]

theorem Layout.of_fields (name addr : Nat) :
    Layout info.structs addr (addr + (info.structs name).size) (fieldPlace (info.structs name).fields addr)
      (info.structs name).fields.length := by
  have field : ∀ i < (info.structs name).fields.length, ∃ field,
      (info.structs name).fields[i]? = some field ∧ field ∈ (info.structs name).fields := fun i below =>
    ⟨_, List.getElem?_eq_getElem below, List.getElem_mem below⟩
  refine ⟨?_, ?_, ?_⟩
  · intro i below
    obtain ⟨one, here, member⟩ := field i below
    rw [fieldPlace_eq here]
    exact info.fields_sized name one member
  · intro i below size known
    obtain ⟨one, here, member⟩ := field i below
    rw [fieldPlace_eq here] at known ⊢
    have inside := info.inside name one member size known
    simp only
    omega
  · intro i j before below k m known known'
    obtain ⟨one, here, _⟩ := field i (by omega)
    obtain ⟨two, there, _⟩ := field j below
    rw [fieldPlace_eq here] at known ⊢
    rw [fieldPlace_eq there] at known' ⊢
    obtain ⟨inOne, isOne⟩ := List.getElem?_eq_some_iff.mp here
    obtain ⟨inTwo, isTwo⟩ := List.getElem?_eq_some_iff.mp there
    have apart := List.pairwise_iff_getElem.mp (info.separate name) i j inOne inTwo before
    rw [isOne, isTwo] at apart
    simp only [Apart]
    rcases apart k m known known' with left | right <;> omega

/-- Publishing a block whose items have been rebuilt completes the pointer. -/
theorem Progress.publish {pointee : Ty} {size res : Nat} {first filled : Heap}
    (allocated : h.malloc P (size * (items.length + 1)) items.length = .ok (res, first))
    (sofar : Progress info.structs held first res (res + size * (items.length + 1)) (fun i => (pointee, res + i * size))
      items items.length filled)
    (sized : Sized info.structs pointee) (known : getSize info.structs pointee = .ok size)
    (owned : h.Owns held addr (addr + 8)) :
    ∃ new, (published size items.length addr res filled).blocks = new ++ h.blocks ∧
      Built info.structs (published size items.length addr res filled).bytes new (.pointer pointee) addr
        (.sequence items) := by
  obtain ⟨laid, _, new, blocks, built⟩ := sofar
  obtain ⟨_, _, rfl⟩ := Heap.malloc_eq_ok.mp allocated
  have all : filled.blocks = (new ++ [⟨res, size * (items.length + 1), items.length⟩]) ++ h.blocks := by
    rw [blocks]
    simp
  have total : size * (items.length + 1) = items.length * size + size := by ring
  have slot := owned.apart laid all
  have pairs := laid.apart
  rw [blocks, List.pairwise_append] at pairs
  -- the two stores miss every item and every block behind one
  have kept : ∀ x, (∃ b ∈ new ++ [⟨res, size * (items.length + 1), items.length⟩], b.base ≤ x ∧ x < b.base + b.size) →
      x < res + items.length * size ∨ res + size * (items.length + 1) ≤ x →
      (published size items.length addr res filled).bytes x = filled.bytes x := by
    rintro x ⟨b, member, start, finish⟩ outside
    have clear : x < addr ∨ addr + 8 ≤ x := by
      by_contra touching
      have := slot b member x (by omega) (by omega)
      omega
    simp only [published]
    rw [Image.poke_outside _ _ (by rw [number_length]; omega),
      Image.poke_outside _ _ (by rw [List.length_replicate]; omega)]
  refine ⟨_, all, .pointer (b := ⟨res, size * (items.length + 1), items.length⟩) (by simp) rfl
    (show items.length * size ≤ size * (items.length + 1) by omega) ?_ known ?_⟩
  · have wrote := Image.peek_poke
      (filled.bytes.poke (res + items.length * size) (List.replicate size 0)) addr (number 8 res)
    rwa [number_length] at wrote
  · intro i item chosen
    obtain ⟨inside, _⟩ := List.getElem?_eq_some_iff.mp chosen
    have within := item_room chosen (le_refl (items.length * size))
    refine (built i item inside chosen).frame sized ?_ (List.subset_append_left _ _) ?_
    · intro size' known' x lower upper
      obtain rfl : size = size' := Except.ok.inj (known.symm.trans known')
      simp only at lower upper
      exact kept x ⟨⟨res, size * (items.length + 1), items.length⟩, by simp, show res ≤ x by omega,
        show x < res + size * (items.length + 1) by omega⟩ (.inl (by omega))
    · intro b member x lower upper
      have away := pairs.2.2 b member _ (List.mem_cons_self ..)
      refine kept x ⟨b, List.mem_append_left _ member, lower, upper⟩ ?_
      simp only [Apart] at away
      rcases away with left | right <;> omega

/-- A pointer is rebuilt when each of its items is, wherever it is placed. -/
theorem rebuild_pointer {pointee : Ty} {size fuel : Nat} {cs : List Constraint} (alloc : P.Allocates held)
    (sized : Sized info.structs pointee) (known : getSize info.structs pointee = .ok size) (laid : h.Laid held)
    (region : h.Region addr (addr + 8)) (even : addr % 2 = 0) (owned : h.Owns held addr (addr + 8))
    (small : bufferSize < 2 ^ 32) (count : items.length < 2 ^ 32) (short : ∀ i < items.length, i * size < 2 ^ 32)
    (passes : runConstraints h .pointer cs items.length = .ok items.length)
    (input : buffer.peek offset (Value.sequence items).encode.length = (Value.sequence items).encode)
    (inside : offset + (Value.sequence items).encode.length ≤ bufferSize)
    (scalars : pointee.isScalar = true → ∀ (i : Nat) item, items[i]? = some item →
      pointee.Narrow ∧ 0 < fuel ∧ item.encode.length = size)
    (each : ∀ (i : Nat) item, items[i]? = some item → ∀ offset' addr' t, t.Laid held →
      t.Region addr' (addr' + size) → addr' % 2 = i * size % 2 → t.Owns held addr' (addr' + size) →
      buffer.peek offset' item.encode.length = item.encode → offset' + item.encode.length ≤ bufferSize →
      Ensures (· = Fault.noMemory) (fun r => r.1 = offset' + item.encode.length ∧
          Rebuilt info.structs held t pointee addr' item r.2)
        (populateFromBuffer P info.structs buffer bufferSize fuel pointee offset' addr' [] t)) :
    Ensures (· = Fault.noMemory) (fun r => r.1 = offset + (Value.sequence items).encode.length ∧
        Rebuilt info.structs held h (.pointer pointee) addr (.sequence items) r.2)
      (populateFromBuffer P info.structs buffer bufferSize (fuel + 1) (.pointer pointee) offset addr cs h) := by
  have canonical : addr < 2 ^ 63 := by
    have := region.canonical
    omega
  simp only [Value.encode] at input
  have split := Image.peek_append input
  simp only [Value.encode, List.length_append, number_length] at split inside ⊢
  have read : getBuffFour buffer bufferSize offset = (items.length, offset + 4) := by
    rw [reads_four, window_inside buffer (show offset + 4 ≤ bufferSize by omega),
      advance_inside (show offset + 4 ≤ bufferSize by omega), split.1, value_number,
      Nat.mod_eq_of_lt (show items.length < 256 ^ 4 by omega)]
  rw [populate_pointer_eq canonical even known read passes]
  refine Ensures.weaken (buildBlock_rule (Q := fun res first r =>
    Reached info.structs held first res (res + size * (items.length + 1)) (fun i => (pointee, res + i * size)) items
      (offset + 4) items.length r) alloc (fun _ => rfl) region le_rfl le_rfl ?_) ?_
  · intro res first allocated
    have block := Heap.malloc_region alloc allocated
    have total : size * (items.length + 1) = items.length * size + size := by ring
    have mine : first.Owns held res (res + size * (items.length + 1)) := by
      obtain ⟨_, _, rfl⟩ := Heap.malloc_eq_ok.mp allocated
      exact .inr ⟨_, List.mem_cons_self .., le_rfl, le_rfl⟩
    have layout : Layout info.structs res (res + size * (items.length + 1)) (fun i => (pointee, res + i * size))
        items.length := .of_stride sized known (by omega)
    have loop : Ensures (· = Fault.noMemory) (Reached info.structs held first res (res + size * (items.length + 1))
        (fun i => (pointee, res + i * size)) items (offset + 4) items.length)
        (perElement P info.structs buffer bufferSize fuel pointee items.length size res (offset + 4, first)) := by
      refine forTo_ensures (I := fun n r => Reached info.structs held first res (res + size * (items.length + 1))
        (fun i => (pointee, res + i * size)) items (offset + 4) n r) items.length
        ⟨by simp [Value.encodeAll], .start (Heap.malloc_laid alloc laid allocated)⟩ ?_
      rintro i below ⟨position, t⟩ sofar
      obtain ⟨item, chosen⟩ : ∃ item, items[i]? = some item := ⟨_, List.getElem?_eq_getElem below⟩
      have unwrapped : i * size % 2 ^ 32 = i * size := Nat.mod_eq_of_lt (short i below)
      have within := item_room chosen (le_refl (items.length * size))
      have stream := input_at chosen split.2 (show offset + 4 + _ ≤ bufferSize by omega)
      have here : position = offset + 4 + (Value.encodeAll (items.take i)).length := sofar.1
      have base := Heap.malloc_even alloc allocated
      obtain ⟨_, new, blocks, _⟩ := sofar.2.grown
      simp only [unwrapped]
      refine Ensures.weaken (each i item chosen position (res + i * size) t sofar.2.laid
        ((sofar.2.grown.region block).narrow (by omega) (by omega)) (by omega)
        ((mine.grow blocks).narrow (by omega) (by omega)) (by rw [here]; exact stream.1)
        (by rw [here]; exact stream.2)) ?_
      intro r done
      exact sofar.next layout below (layout.owned mine) chosen done.1 done.2
    refine Ensures.weaken ?_ fun r done => (⟨done.2.grown, done⟩ : _ ∧ _)
    split
    · rename_i scalar
      have widths := encodeAll_length fun i item here => (scalars scalar i item here).2.2
      have same : bulkCopy buffer items.length size res (offset + 4, first) =
          perElement P info.structs buffer bufferSize fuel pointee items.length size res (offset + 4, first) := by
        refine bulkCopy_eq_perElement (fun some => ?_) known (block.narrow le_rfl (by omega)) (by omega) small
        obtain ⟨narrow, positive, _⟩ := scalars scalar 0 items[0] (List.getElem?_eq_getElem some)
        exact ⟨narrow, positive⟩
      rw [same]
      exact loop
    · exact loop
  · rintro r ⟨outer, res, first, filled, allocated, inBlock, ⟨position, progress⟩, same⟩
    rw [List.take_length] at position
    refine ⟨by omega, ?_⟩
    rw [same] at outer ⊢
    exact ⟨progress.laid.of_blocks rfl, outer, progress.publish allocated sized known owned⟩

/-- A value the recorder found in memory is rebuilt from its encoding, at every
place of the same parity, as long as no element lies 4 GiB behind the first. -/
theorem Holds.rebuilds {depth fuel place hostAddr : Nat} {cs : List Constraint} {v : Value}
    (holds : Holds info.structs host (2 ^ 32) depth cs type hostAddr place v) (alloc : P.Allocates held)
    (sized : Sized info.structs type) (enough : depth ≤ fuel) (small : bufferSize < 2 ^ 32) (laid : h.Laid held)
    (region : h.Region addr (addr + placeSize info.structs type)) (parity : addr % 2 = place % 2)
    (owned : h.Owns held addr (addr + placeSize info.structs type)) (passes : Passes h cs type v)
    (input : buffer.peek offset v.encode.length = v.encode) (inside : offset + v.encode.length ≤ bufferSize) :
    Ensures (· = Fault.noMemory) (fun r => r.1 = offset + v.encode.length ∧
        Rebuilt info.structs held h type addr v r.2)
      (populateFromBuffer P info.structs buffer bufferSize fuel type offset addr cs h) := by
  induction holds generalizing fuel addr offset h with
  | @integer depth cs bitWidth hostAddr place width readable =>
    simp only [Value.encode, Image.peek_length] at input inside ⊢
    cases fuel with
    | zero => omega
    | succ fuel =>
      rw [← input]
      have narrow : (Ty.integer bitWidth).Narrow := width
      exact rebuild_scalar narrow rfl laid region inside (by rw [input]; exact passes)
  | @floating depth cs hostAddr place readable =>
    simp only [Value.encode, Image.peek_length] at input inside ⊢
    cases fuel with
    | zero => omega
    | succ fuel =>
      rw [← input]
      exact rebuild_scalar (show (Ty.floating 32).Narrow from rfl) rfl laid region inside (by rw [input]; exact passes)
  | @struct depth cs name hostAddr place items count each ih =>
    cases fuel with
    | zero => omega
    | succ fuel =>
      simp only [Value.encode] at input inside ⊢
      have layout : Layout info.structs addr (addr + (info.structs name).size)
          (fieldPlace (info.structs name).fields addr) (info.structs name).fields.length := .of_fields name addr
      have loop : Ensures (· = Fault.noMemory) (Reached info.structs held h addr (addr + (info.structs name).size)
          (fieldPlace (info.structs name).fields addr) items offset (info.structs name).fields.length)
          (populateFromBuffer P info.structs buffer bufferSize (fuel + 1) (.struct name) offset addr cs h) := by
        refine foldlM_ensures (I := fun done r => Reached info.structs held h addr (addr + (info.structs name).size)
          (fieldPlace (info.structs name).fields addr) items offset done.length r) _
          ⟨by simp [Value.encodeAll], .start laid⟩ ?_
        rintro before field after split ⟨position, t⟩ sofar
        have here : (info.structs name).fields[before.length]? = some field := by simp [split]
        have below : before.length < (info.structs name).fields.length := by rw [split]; simp
        have member : field ∈ (info.structs name).fields := List.mem_of_getElem? here
        obtain ⟨item, chosen⟩ : ∃ item, items[before.length]? = some item :=
          ⟨_, List.getElem?_eq_getElem (by omega)⟩
        have stream := input_at chosen input inside
        have start : position = offset + (Value.encodeAll (items.take before.length)).length := sofar.1
        obtain ⟨size, known⟩ := (each before.length field item here chosen).sized
        have same := placeSize_eq known
        have room := info.inside name field member size known
        obtain ⟨_, new, blocks, _⟩ := sofar.2.grown
        refine Ensures.weaken (ih before.length field item here chosen (info.fields_sized name field member)
          (show depth ≤ fuel by omega) sofar.2.laid
          ((sofar.2.grown.region region).narrow (by omega)
            (show addr + field.2 + _ ≤ addr + (info.structs name).size by omega))
          (by omega) ((owned.grow blocks).narrow (by omega)
            (show addr + field.2 + _ ≤ addr + (info.structs name).size by omega))
          (.nil _ _ _) (by rw [start]; exact stream.1) (by rw [start]; exact stream.2)) ?_
        intro r done
        rw [List.length_append, List.length_singleton]
        refine sofar.next layout below (layout.owned owned) chosen done.1 ?_
        rw [fieldPlace_eq here]
        exact done.2
      refine Ensures.weaken loop ?_
      rintro r ⟨position, progress⟩
      rw [← count, List.take_length] at position
      obtain ⟨new, blocks, built⟩ := progress.built
      refine ⟨position, progress.laid, progress.grown, new, blocks, .struct count ?_⟩
      intro i field item here chosen
      obtain ⟨below, _⟩ := List.getElem?_eq_some_iff.mp here
      have one := built i item below chosen
      rwa [fieldPlace_eq here] at one
  | @array depth cs elem numElems size hostAddr place items known count each ih =>
    subst count
    cases fuel with
    | zero => omega
    | succ fuel =>
      simp only [Value.encode] at input inside ⊢
      have below := sized.2 size known
      have whole : placeSize info.structs (.array elem items.length) = size * items.length := by
        refine placeSize_eq ?_
        simp only [getSize, known, ok_bind, Nat.mod_eq_of_lt below]
        rfl
      rw [whole, Nat.mul_comm] at region owned
      have layout : Layout info.structs addr (addr + items.length * size) (fun i => (elem, addr + i * size))
          items.length := .of_stride sized.1 known le_rfl
      have loop : Ensures (· = Fault.noMemory) (Reached info.structs held h addr (addr + items.length * size)
          (fun i => (elem, addr + i * size)) items offset items.length)
          (populateFromBuffer P info.structs buffer bufferSize (fuel + 1) (.array elem items.length) offset addr cs
            h) := by
        refine forTo_ensures (I := fun n r => Reached info.structs held h addr (addr + items.length * size)
          (fun i => (elem, addr + i * size)) items offset n r) items.length
          ⟨by simp [Value.encodeAll], .start laid⟩ ?_
        rintro i inRange ⟨position, t⟩ sofar
        obtain ⟨item, chosen⟩ : ∃ item, items[i]? = some item := ⟨_, List.getElem?_eq_getElem inRange⟩
        have room := item_room chosen (le_refl (items.length * size))
        have unwrapped : i * size % 2 ^ 32 = i * size := Nat.mod_eq_of_lt (by nlinarith)
        have stream := input_at chosen input inside
        have start : position = offset + (Value.encodeAll (items.take i)).length := sofar.1
        have same := placeSize_eq known
        obtain ⟨_, new, blocks, _⟩ := sofar.2.grown
        simp only [known, ok_bind, unwrapped]
        refine Ensures.weaken (ih i item chosen sized.1 (show depth ≤ fuel by omega) sofar.2.laid
          ((sofar.2.grown.region region).narrow (by omega) (by omega)) (by omega)
          ((owned.grow blocks).narrow (by omega) (by omega))
          (.nil _ _ _) (by rw [start]; exact stream.1) (by rw [start]; exact stream.2)) ?_
        intro r done
        exact sofar.next layout inRange (layout.owned owned) chosen done.1 done.2
      refine Ensures.weaken loop ?_
      rintro r ⟨position, progress⟩
      rw [List.take_length] at position
      obtain ⟨new, blocks, built⟩ := progress.built
      refine ⟨position, progress.laid, ?_, new, blocks, .array known rfl ?_⟩
      · rw [whole, Nat.mul_comm]
        exact progress.grown
      · intro i item chosen
        obtain ⟨inRange, _⟩ := List.getElem?_eq_some_iff.mp chosen
        exact built i item inRange chosen
  | @pointer depth cs pointee size hostAddr place items even canonical aligned readable known length short each ih =>
    cases fuel with
    | zero => omega
    | succ fuel =>
      refine rebuild_pointer alloc sized known laid region (by omega) owned small (recordedLength_lt length) short
        passes input inside ?_ ?_
      · intro scalar i item chosen
        cases each i item chosen with
        | integer width _ => 
          cases known
          exact ⟨width, by omega, by simp [Value.encode]⟩
        | floating _ => 
          cases known
          exact ⟨rfl, by omega, by simp [Value.encode]⟩
        | struct | array | pointer => cases scalar
      · intro i item chosen offset' addr' t laid' region' parity' owned' input' inside'
        have same := placeSize_eq known
        exact ih i item chosen sized (show depth ≤ fuel by omega) laid' (by rwa [same]) parity' (by rwa [same])
          (.nil _ _ _) input' inside'

end Rebuild
end AflLive.Libgen
