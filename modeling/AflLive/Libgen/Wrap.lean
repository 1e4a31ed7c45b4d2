import AflLive.Libgen.BulkCopy

/-! The 32-bit products and sums of `PointerType::populateFromBuffer` against the same computation
over unbounded numbers. The elements are a parameter: what matters is where each one is put and
where in the input it is read. -/
namespace AflLive.Libgen
open Bytes Control

/-- `buildBlock` with nothing reduced modulo `2 ^ 32`. -/
def buildBlockExact (P : Platform) (buffer : Image) (element : Nat → Nat → Heap → Except Fault (Nat × Heap))
    (bulk : Bool) (pointeeSize numElems slot offset : Nat) (h : Heap) : Except Fault (Nat × Heap) := do
  let (res, h) ← h.malloc P (pointeeSize * (numElems + 1)) numElems
  let (offset, h) ←
    (if bulk then do
      let h ← h.store res (buffer.peek offset (numElems * pointeeSize))
      return (offset + numElems * pointeeSize, h)
    else forTo (fun i s => element s.1 (res + i * pointeeSize) s.2) numElems (offset, h))
  let h ← h.store (res + numElems * pointeeSize) (List.replicate pointeeSize 0)
  let h ← h.store slot (number 8 res)
  return (offset, h)

/-- An element that reads its input from `offset` on and not before it. -/
def Forward (element : Nat → Nat → Heap → Except Fault (Nat × Heap)) : Prop :=
  ∀ offset addr h r, element offset addr h = .ok r → offset ≤ r.1

/-- All elements are initialised, each at its place, whatever the elements are, and the offset does not
go back unless an element itself moves it back. -/
def Unwrapped (P : Platform) (buffer : Image) (bulk : Bool) (pointeeSize numElems slot offset : Nat) (h : Heap) :
    Prop :=
  ∀ element,
    buildBlock P buffer element bulk pointeeSize numElems slot offset h =
      buildBlockExact P buffer element bulk pointeeSize numElems slot offset h ∧
    (Forward element →
      ∀ r, buildBlock P buffer element bulk pointeeSize numElems slot offset h = .ok r → offset ≤ r.1)

/-- The end of a copy, or the start of the last element, is below `2 ^ 32`. -/
def FitsWord (bulk : Bool) (pointeeSize numElems offset : Nat) : Prop :=
  if bulk then offset + numElems * pointeeSize < 2 ^ 32 else (numElems - 1) * pointeeSize < 2 ^ 32

section
variable {P : Platform} {buffer : Image} {element : Nat → Nat → Heap → Except Fault (Nat × Heap)} {bulk : Bool}
  {pointeeSize numElems slot offset res : Nat} {h first : Heap}

theorem bulkCopy_exact (fits : offset + numElems * pointeeSize < 2 ^ 32) :
    bulkCopy buffer numElems pointeeSize res (offset, h) = (do
      let h ← h.store res (buffer.peek offset (numElems * pointeeSize))
      return (offset + numElems * pointeeSize, h)) := by
  have bytes : numElems * pointeeSize % 2 ^ 32 = numElems * pointeeSize := Nat.mod_eq_of_lt (by omega)
  simp only [bulkCopy, bytes, Nat.mod_eq_of_lt fits]

theorem element_exact (fits : (numElems - 1) * pointeeSize < 2 ^ 32) {i : Nat} (inside : i < numElems) :
    i * pointeeSize % 2 ^ 32 = i * pointeeSize := by
  have before : i * pointeeSize ≤ (numElems - 1) * pointeeSize := Nat.mul_le_mul_right _ (by omega)
  exact Nat.mod_eq_of_lt (by omega)

theorem buildBlock_exact (fits : FitsWord bulk pointeeSize numElems offset) :
    buildBlock P buffer element bulk pointeeSize numElems slot offset h =
      buildBlockExact P buffer element bulk pointeeSize numElems slot offset h := by
  cases bulk with
  | true => simp only [buildBlock, buildBlockExact, if_true, bulkCopy_exact fits]
  | false =>
    have loop (res : Nat) (s : Nat × Heap) :
        forTo (fun i s => element s.1 (res + i * pointeeSize % 2 ^ 32) s.2) numElems s =
          forTo (fun i s => element s.1 (res + i * pointeeSize) s.2) numElems s :=
      forTo_congr fun i inside t => by rw [element_exact fits inside]
    simp only [buildBlock, buildBlockExact, Bool.false_eq_true, if_false, loop]

theorem buildBlock_forward (forward : Forward element) (fits : FitsWord bulk pointeeSize numElems offset)
    {r : Nat × Heap} (built : buildBlock P buffer element bulk pointeeSize numElems slot offset h = .ok r) :
    offset ≤ r.1 := by
  obtain ⟨res, first, filled, _, fill, _⟩ := buildBlock_ok built
  cases bulk with
  | true =>
    rw [if_pos rfl, bulkCopy_exact fits] at fill
    obtain ⟨stored, _, last⟩ := bind_eq_ok.mp fill
    have moved : offset + numElems * pointeeSize = r.1 := (Prod.mk.inj (Except.ok.inj last)).1
    omega
  | false =>
    have loop : Ensures (fun _ => True) (fun s : Nat × Heap => offset ≤ s.1)
        (forTo (fun i s => element s.1 (res + i * pointeeSize % 2 ^ 32) s.2) numElems (offset, first)) := by
      refine forTo_ensures (I := fun _ (s : Nat × Heap) => offset ≤ s.1) numElems le_rfl ?_
      intro i _ s sofar
      exact Ensures.of_result fun t step => le_trans sofar (forward _ _ _ _ step)
    have result : offset ≤ (r.1, filled).1 := loop.result fill
    exact result

/-- A block that could be allocated and filled is published. -/
theorem buildBlock_returns {filled : Heap} {offset' : Nat}
    (allocated : h.malloc P (pointeeSize * (numElems + 1)) numElems = .ok (res, first))
    (fill : (if bulk then bulkCopy buffer numElems pointeeSize res (offset, first)
      else forTo (fun i s => element s.1 (res + i * pointeeSize % 2 ^ 32) s.2) numElems (offset, first)) =
        .ok (offset', filled))
    (kept : filled.mapped = first.mapped) (writable : h.readable slot 8 = true) :
    buildBlock P buffer element bulk pointeeSize numElems slot offset h =
      .ok (offset', published pointeeSize numElems slot res filled) := by
  have block : ∀ x, res ≤ x → x < res + pointeeSize * (numElems + 1) → filled.mapped x = true := by
    obtain ⟨rfl, _, rfl⟩ := Heap.malloc_eq_ok.mp allocated
    intro x lower upper
    simp [kept, lower, upper]
  have old : ∀ x, h.mapped x = true → filled.mapped x = true := by
    obtain ⟨rfl, _, rfl⟩ := Heap.malloc_eq_ok.mp allocated
    intro x mapped
    simp [kept, mapped]
  have total : pointeeSize * (numElems + 1) = numElems * pointeeSize + pointeeSize := by ring
  have clearable : filled.readable (res + numElems * pointeeSize) pointeeSize = true :=
    Heap.readable_iff.mpr fun x lower upper => block x (by omega) (by omega)
  have storable : filled.readable slot 8 = true :=
    Heap.readable_iff.mpr fun x lower upper => old x (Heap.readable_iff.mp writable x lower upper)
  have clear : filled.store (res + numElems * pointeeSize) (List.replicate pointeeSize 0) = .ok _ :=
    Heap.store_eq_ok.mpr ⟨by rw [List.length_replicate]; exact clearable, rfl⟩
  have store : (Heap.mk (filled.bytes.poke (res + numElems * pointeeSize) (List.replicate pointeeSize 0))
      filled.mapped filled.blocks filled.file).store slot (number 8 res) = .ok _ :=
    Heap.store_eq_ok.mpr ⟨by rw [number_length]; exact storable, rfl⟩
  simp only [buildBlock, allocated, ok_bind, fill, clear, store]
  rfl

/-- A wrapped copy ends somewhere else in the input. -/
theorem fits_of_copy (allocated : h.malloc P (pointeeSize * (numElems + 1)) numElems = .ok (res, first))
    (writable : h.readable slot 8 = true)
    (same : buildBlock P buffer element true pointeeSize numElems slot offset h =
      buildBlockExact P buffer element true pointeeSize numElems slot offset h) :
    offset + numElems * pointeeSize < 2 ^ 32 := by
  have short : numElems * pointeeSize % 2 ^ 32 ≤ numElems * pointeeSize := Nat.mod_le _ _
  have total : pointeeSize * (numElems + 1) = numElems * pointeeSize + pointeeSize := by ring
  have room : first.readable res (numElems * pointeeSize % 2 ^ 32) = true := by
    obtain ⟨rfl, _, rfl⟩ := Heap.malloc_eq_ok.mp allocated
    refine Heap.readable_iff.mpr fun x lower upper => ?_
    have below : x < P.malloc h.blocks (pointeeSize * (numElems + 1)) + pointeeSize * (numElems + 1) := by omega
    simp [lower, below]
  have built : buildBlock P buffer element true pointeeSize numElems slot offset h = .ok _ :=
    buildBlock_returns allocated (bulkCopy_eq room) rfl writable
  rw [built] at same
  obtain ⟨_, _, rest⟩ := bind_eq_ok.mp same.symm
  obtain ⟨⟨offset', filled⟩, exact', rest⟩ := bind_eq_ok.mp rest
  obtain ⟨_, _, rest⟩ := bind_eq_ok.mp rest
  obtain ⟨_, _, last⟩ := bind_eq_ok.mp rest
  obtain ⟨_, _, moved⟩ := bind_eq_ok.mp exact'
  have ends : offset + numElems * pointeeSize = offset' := (Prod.mk.inj (Except.ok.inj moved)).1
  have wrapped : offset' = (offset + numElems * pointeeSize % 2 ^ 32) % 2 ^ 32 :=
    (Prod.mk.inj (Except.ok.inj last)).1
  omega

/-- An element that does nothing, but only in the first `2 ^ 32` bytes of the block. -/
def probe (res offset addr : Nat) (h : Heap) : Except Fault (Nat × Heap) :=
  if addr < res + 2 ^ 32 then .ok (offset, h) else .error .abort

/-- A wrapped index puts the last element back into the first `2 ^ 32` bytes. -/
theorem fits_of_elements (allocated : h.malloc P (pointeeSize * (numElems + 1)) numElems = .ok (res, first))
    (writable : h.readable slot 8 = true)
    (same : ∀ element, buildBlock P buffer element false pointeeSize numElems slot offset h =
      buildBlockExact P buffer element false pointeeSize numElems slot offset h) :
    (numElems - 1) * pointeeSize < 2 ^ 32 := by
  by_contra large
  obtain ⟨last, rfl⟩ : ∃ last, numElems = last + 1 := by
    cases numElems with
    | zero => simp at large
    | succ last => exact ⟨last, rfl⟩
  rw [Nat.add_sub_cancel] at large
  have wrapped : forTo (fun i s => probe res s.1 (res + i * pointeeSize % 2 ^ 32) s.2) (last + 1) (offset, first) =
      .ok (offset, first) := by
    refine Ensures.eq_ok (forTo_ensures (I := fun _ s => s = (offset, first)) (last + 1) rfl ?_)
    rintro i _ _ rfl
    have inside : i * pointeeSize % 2 ^ 32 < 2 ^ 32 := Nat.mod_lt _ (by norm_num)
    rw [probe, if_pos (by omega)]
    exact rfl
  have built : buildBlock P buffer (probe res) false pointeeSize (last + 1) slot offset h = .ok _ :=
    buildBlock_returns allocated wrapped rfl writable
  have exactly := (same (probe res)).symm.trans built
  obtain ⟨⟨res', first'⟩, again, rest⟩ := bind_eq_ok.mp exactly
  obtain ⟨rfl, rfl⟩ := Prod.mk.inj (Except.ok.inj (allocated.symm.trans again))
  obtain ⟨_, loop, _⟩ := bind_eq_ok.mp rest
  simp only [Bool.false_eq_true, if_false, forTo] at loop
  obtain ⟨before, _, refused⟩ := bind_eq_ok.mp loop
  rw [probe, if_neg (by omega)] at refused
  cases refused

/-- A block is built as over unbounded numbers exactly when they fit. -/
theorem unwrapped_iff (allocated : h.malloc P (pointeeSize * (numElems + 1)) numElems = .ok (res, first))
    (writable : h.readable slot 8 = true) :
    Unwrapped P buffer bulk pointeeSize numElems slot offset h ↔ FitsWord bulk pointeeSize numElems offset := by
  constructor
  · intro unwrapped
    cases bulk with
    | true => exact fits_of_copy allocated writable (unwrapped (probe res)).1
    | false => exact fits_of_elements allocated writable fun element => (unwrapped element).1
  · exact fun fits element => ⟨buildBlock_exact fits, fun forward r built => buildBlock_forward forward fits built⟩

end

section Visit
variable {P : Platform} {structs : Nat → StructType} {buffer : Image} {pointee : Ty}
  {bufferSize fuel offset addr size numElems : Nat} {cs : List Constraint} {h : Heap}

/-- A pointer that does not name a file: the second half of the function runs on the settled count. -/
theorem populate_buildBlock (noFile : isFile addr = false) (known : getSize structs pointee = .ok size)
    (counted : (if isDeref addr then .ok 1 else runConstraints h .pointer cs (getBuffFour buffer bufferSize offset).1) =
      .ok numElems) :
    populateFromBuffer P structs buffer bufferSize (fuel + 1) (.pointer pointee) offset addr cs h =
      buildBlock P buffer (fun offset addr' h => populateFromBuffer P structs buffer bufferSize fuel pointee offset
          addr' (if isDeref addr then cs else []) h)
        ((!isDeref addr || cs.isEmpty) && pointee.isScalar) size numElems (untag addr)
        (getBuffFour buffer bufferSize offset).2 h := by
  simp only [populateFromBuffer, noFile, Bool.false_eq_true, if_false, counted, known, ok_bind]

/-- For every count the input and the constraints give, every pointee size and every offset: the
block of a pointer is built as over unbounded numbers exactly when the end of the copy, or the start
of the last element, is below `2 ^ 32`. -/
theorem populate_unwrapped_iff (noFile : isFile addr = false) (known : getSize structs pointee = .ok size)
    (counted : (if isDeref addr then .ok 1 else runConstraints h .pointer cs (getBuffFour buffer bufferSize offset).1) =
      .ok numElems)
    (allocated : ∃ block, h.malloc P (size * (numElems + 1)) numElems = .ok block)
    (writable : h.readable (untag addr) 8 = true) :
    populateFromBuffer P structs buffer bufferSize (fuel + 1) (.pointer pointee) offset addr cs h =
      buildBlock P buffer (fun offset addr' h => populateFromBuffer P structs buffer bufferSize fuel pointee offset
          addr' (if isDeref addr then cs else []) h)
        ((!isDeref addr || cs.isEmpty) && pointee.isScalar) size numElems (untag addr)
        (getBuffFour buffer bufferSize offset).2 h ∧
    (Unwrapped P buffer ((!isDeref addr || cs.isEmpty) && pointee.isScalar) size numElems (untag addr)
        (getBuffFour buffer bufferSize offset).2 h ↔
      FitsWord ((!isDeref addr || cs.isEmpty) && pointee.isScalar) size numElems
        (getBuffFour buffer bufferSize offset).2) := by
  obtain ⟨⟨res, first⟩, allocated⟩ := allocated
  exact ⟨populate_buildBlock noFile known counted, unwrapped_iff allocated writable⟩

end Visit

/-- One pointer slot and nothing else. -/
def slotHeap : Heap := ⟨fun _ => 0, fun x => decide (0x1000 ≤ x) && decide (x < 0x1008), [], []⟩

theorem slotHeap_malloc {size numElems : Nat} (room : size < 2 ^ 62) :
    slotHeap.malloc (bumpPlatform 0x2000 []) size numElems = .ok (0x2010, { slotHeap with
      mapped := fun x => slotHeap.mapped x || (decide (0x2010 ≤ x) && decide (x < 0x2010 + size))
      blocks := [⟨0x2010, size, numElems⟩] }) := by
  have base : (bumpPlatform 0x2000 []).malloc slotHeap.blocks size = 0x2010 :=
    bump_malloc (P := bumpPlatform 0x2000 []) (h := slotHeap) rfl (by simp [slotHeap, top]; omega)
  exact Heap.malloc_eq_ok.mpr ⟨base.symm, by norm_num, rfl⟩

/-- Two integers of four bytes. -/
theorem short_copy_unwrapped :
    Unwrapped (bumpPlatform 0x2000 []) (fun x => if x = 0 then 2 else 0) true 4 2 0x1000 4 slotHeap := by
  have counted : (if isDeref 0x1000 then .ok 1 else runConstraints slotHeap .pointer []
      (getBuffFour (fun x => if x = 0 then 2 else 0) 12 0).1) = .ok 2 := by decide
  have known : getSize (fun _ => ⟨0, []⟩) (.integer 32) = .ok 4 := rfl
  have visit : populateFromBuffer (bumpPlatform 0x2000 []) (fun _ => ⟨0, []⟩) (fun x => if x = 0 then 2 else 0) 12 2
      (.pointer (.integer 32)) 0 0x1000 [] slotHeap = _ ∧ _ :=
    populate_unwrapped_iff (by decide) known counted ⟨_, slotHeap_malloc (by norm_num)⟩ (by decide)
  have fits : 4 + 2 * 4 < 2 ^ 32 := by norm_num
  exact visit.2.mpr fits

/-- Four bytes at the start of the input, then zeros. -/
def countBuffer (count : Nat) : Image := Image.poke (fun _ => 0) 0 (number 4 count)

/-- `2 ^ 30 + 1` integers of four bytes: only the first one is copied. `2 ^ 32 - 4` bytes: the
offset is back where the count was read. -/
theorem counts_wrap :
    (populateFromBuffer (bumpPlatform 0x2000 []) (fun _ => ⟨0, []⟩) (countBuffer (2 ^ 30 + 1)) 8 2
        (.pointer (.integer 32)) 0 0x1000 [] slotHeap).toOption.map Prod.fst = some 8 ∧
    ¬ Unwrapped (bumpPlatform 0x2000 []) (countBuffer (2 ^ 30 + 1)) true 4 (2 ^ 30 + 1) 0x1000 4 slotHeap ∧
    (∃ r, populateFromBuffer (bumpPlatform 0x2000 []) (fun _ => ⟨0, []⟩) (countBuffer (2 ^ 32 - 4)) 8 2
        (.pointer (.integer 8)) 0 0x1000 [] slotHeap = .ok r ∧ r.1 = 0) ∧
    ¬ Unwrapped (bumpPlatform 0x2000 []) (countBuffer (2 ^ 32 - 4)) true 1 (2 ^ 32 - 4) 0x1000 4 slotHeap := by
  refine ⟨by decide +kernel, fun unwrapped => ?_, ?_, fun unwrapped => ?_⟩
  · have fits := (unwrapped_iff (slotHeap_malloc (by norm_num)) (by decide)).mp unwrapped
    norm_num [FitsWord] at fits
  · have count : getBuffFour (countBuffer (2 ^ 32 - 4)) 8 0 = (2 ^ 32 - 4, 4) := by decide +kernel
    rw [populate_pointer_eq (by norm_num) (by norm_num) rfl count rfl]
    refine ⟨_, buildBlock_returns (slotHeap_malloc (by norm_num)) (bulkCopy_eq ?_) rfl (by decide), by norm_num⟩
    refine Heap.readable_iff.mpr fun x lower upper => ?_
    have below : x < 0x2010 + 8 / 8 * (2 ^ 32 - 4 + 1) := by omega
    simp only [lower, below, decide_true, Bool.and_self, Bool.or_true]
  · have fits := (unwrapped_iff (slotHeap_malloc (by norm_num)) (by decide)).mp unwrapped
    norm_num [FitsWord] at fits

end AflLive.Libgen
