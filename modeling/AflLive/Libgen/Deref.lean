import AflLive.Libgen.Enforcement

/-! The `deref` attribute. The set-up folds the attribute of every constraint on an argument
into one bit of its address, and all of them into one list; the documented meaning keeps the
constraints on the length apart from those on the elements. -/
namespace AflLive.Libgen
open Bytes Control

/-- The constraints of an argument that are not `is_file`, each with its `deref` mark. -/
def derefMarks (ucs : List UserConstraint) (arg : Nat) : List Bool :=
  (ucs.filter fun c => c.lhs == arg && !c.isFile).map UserConstraint.deref

/-- `is_file` without (`false`) or with (`true`) the attribute. -/
def namesFile (ucs : List UserConstraint) (arg : Nat) (deref : Bool) : Bool :=
  ucs.any fun c => c.lhs == arg && c.isFile && c.deref == deref

/-- The constraints with a given mark, in their order. -/
def selected (mark : Bool) (marks : List Bool) (cs : List Constraint) : List Constraint :=
  ((marks.zip cs).filter fun pair => pair.1 == mark).map Prod.snd

/-- The address of a slot with the tags of `gen_values`. -/
def tagged (slot : Nat) (deref file : Bool) : Nat :=
  slot ||| (if deref then 1 else 0) ||| (if file then 0x8000000000000000 else 0)

section Tags
variable {slot : Nat} {deref file : Bool}

theorem tagged_deref (even : slot % 2 = 0) : isDeref (tagged slot deref file) = deref := by
  have odd : tagged slot deref file % 2 = 1 ↔ deref = true := by
    rw [tagged, Nat.or_mod_two_eq_one, Nat.or_mod_two_eq_one]
    cases deref <;> cases file <;> simp [even]
  rw [isDeref, Bool.eq_iff_iff, beq_iff_eq, odd]

theorem tagged_file (canonical : slot < 2 ^ 63) : isFile (tagged slot deref file) = file := by
  have high : slot >>> 63 = 0 := by
    rw [Nat.shiftRight_eq_div_pow]
    exact Nat.div_eq_of_lt canonical
  rw [isFile, tagged, Nat.shiftRight_or_distrib, Nat.shiftRight_or_distrib, high]
  cases deref <;> cases file <;> decide

theorem untag_tagged (canonical : slot < 2 ^ 63) (even : slot % 2 = 0) : untag (tagged slot deref file) = slot := by
  have plain : slot &&& 0x7ffffffffffffffe = slot := by
    have same := untag_eq canonical
    rw [even] at same
    exact same
  rw [untag, tagged, Nat.and_or_distrib_right, Nat.and_or_distrib_right, plain]
  cases deref <;> cases file <;> simp

theorem tagged_set_deref : tagged slot deref file ||| 1 = tagged slot true file := by
  have last (mark : Nat) : slot ||| (if deref then 1 else 0) ||| mark ||| 1 = slot ||| 1 ||| mark := by
    cases deref <;> simp [Nat.or_assoc, Nat.or_comm mark]
  exact last _

theorem tagged_set_file : tagged slot deref file ||| 0x8000000000000000 = tagged slot deref true := by
  cases file <;> simp [tagged, Nat.or_assoc]

end Tags

/-- What the set-up has collected for an argument after some of the constraints. -/
structure Setup.Collected (setup : Setup) (ucs : List UserConstraint) (slots : List Nat) (n : Nat) : Prop where
  address : ∀ arg < n, ∀ slot, slots[arg]? = some slot → setup.addressOfArg[arg]? =
    some (tagged slot ((derefMarks ucs arg).any id) (namesFile ucs arg false || namesFile ucs arg true))
  constraints : ∀ arg < n, ∃ cs, setup.constraintsOfArg[arg]? = some cs ∧ cs.length = (derefMarks ucs arg).length

section Setup
variable {types : List Ty} {slots : List Nat} {ucs done : List UserConstraint} {h : Heap} {s t : Setup}
  {c : UserConstraint}

theorem derefMarks_append (arg : Nat) : derefMarks (done ++ [c]) arg =
    derefMarks done arg ++ if c.lhs == arg && !c.isFile then [c.deref] else [] := by
  unfold derefMarks
  cases hit : c.lhs == arg && !c.isFile <;> simp [hit]

theorem namesFile_append (arg : Nat) (deref : Bool) : namesFile (done ++ [c]) arg deref =
    (namesFile done arg deref || (c.lhs == arg && c.isFile && c.deref == deref)) := by
  simp [namesFile]

/-- One round of the loop. -/
theorem addConstraint_collected (collected : s.Collected done slots types.length)
    (added : addConstraint types h s c = .ok t) : t.Collected (done ++ [c]) slots types.length := by
  unfold addConstraint at added
  obtain ⟨adr, found, rest⟩ := bind_eq_ok.mp added
  rw [getAt_eq_ok] at found
  cases file : c.isFile with
  | true =>
    simp only [file, if_true] at rest
    cases rest
    refine ⟨fun arg inside slot hasSlot => ?_, fun arg inside => ?_⟩
    · have old := collected.address arg inside slot hasSlot
      by_cases here : c.lhs = arg
      · subst here
        obtain rfl := Option.some.inj (found.symm.trans old)
        have within : c.lhs < s.addressOfArg.length := (List.getElem?_eq_some_iff.mp found).1
        have either : (c.deref == false || c.deref == true) = true := by cases c.deref <;> rfl
        simp only [List.getElem?_set_self within, derefMarks_append, namesFile_append, file, beq_self_eq_true,
          Bool.not_true, Bool.and_false, Bool.false_eq_true, if_false, List.append_nil, Bool.true_and,
          tagged_set_file]
        cases c.deref <;> simp
      · simp only [List.getElem?_set_ne here, derefMarks_append, namesFile_append, beq_eq_false_iff_ne.mpr here,
          Bool.false_and, Bool.false_eq_true, if_false, List.append_nil, Bool.or_false, old]
    · obtain ⟨cs, listed, length⟩ := collected.constraints arg inside
      exact ⟨cs, listed, by simp [derefMarks_append, file, length]⟩
  | false =>
    simp only [file, Bool.false_eq_true, if_false] at rest
    obtain ⟨⟨rhs, edge⟩, _, rest⟩ := bind_eq_ok.mp rest
    obtain ⟨cs, listed, same⟩ := bind_eq_ok.mp rest
    rw [getAt_eq_ok] at listed
    cases same
    refine ⟨fun arg inside slot hasSlot => ?_, fun arg inside => ?_⟩
    · have old := collected.address arg inside slot hasSlot
      by_cases here : c.lhs = arg
      · subst here
        obtain rfl := Option.some.inj (found.symm.trans old)
        have within : c.lhs < s.addressOfArg.length := (List.getElem?_eq_some_iff.mp found).1
        cases mark : c.deref <;>
          simp [derefMarks_append, namesFile_append, file, mark, List.getElem?_set_self within, old, tagged_set_deref]
      · cases mark : c.deref <;>
          simp [derefMarks_append, namesFile_append, file, here, old]
    · by_cases here : c.lhs = arg
      · subst here
        have within : c.lhs < s.constraintsOfArg.length := (List.getElem?_eq_some_iff.mp listed).1
        obtain ⟨cs', listed', length⟩ := collected.constraints c.lhs inside
        obtain rfl := Option.some.inj (listed.symm.trans listed')
        exact ⟨_, List.getElem?_set_self within, by simp [derefMarks_append, file, length]⟩
      · obtain ⟨cs', listed', length⟩ := collected.constraints arg inside
        refine ⟨cs', ?_, by simp [derefMarks_append, here, length]⟩
        rw [List.getElem?_set_ne here]
        exact listed'

/-- The whole loop. -/
theorem setupArgs_collected (made : setupArgs types slots ucs h = .ok s) : s.Collected ucs slots types.length := by
  unfold setupArgs at made
  split at made
  · cases made
  · rename_i enough
    have loop : Ensures (fun _ => True) (fun s => s.Collected ucs slots types.length)
        (ucs.foldlM (addConstraint types h) ⟨slots.take types.length, List.replicate types.length [], []⟩) := by
      refine foldlM_ensures (I := fun done s => Setup.Collected s done slots types.length) ucs ?_ ?_
      · refine ⟨fun arg inside slot hasSlot => ?_, fun arg inside => ⟨[], by simp [inside], rfl⟩⟩
        simp [derefMarks, namesFile, tagged, List.getElem?_take_of_lt inside, hasSlot]
      · intro before c after _ s collected
        exact Ensures.of_result fun t added => addConstraint_collected collected added
    exact loop.result made

end Setup

/-! ### The documented meaning -/

/-- A pointer argument as the attribute is documented: the plain constraints settle the number of
elements, the marked ones each element. Only a pointer can name a file. -/
def documentedPointer (P : Platform) (structs : Nat → StructType) (buffer : Image) (bufferSize fuel : Nat)
    (pointee : Ty) (lengthCs elemCs : List Constraint) (fileHere fileElems : Bool) (count offset slot : Nat)
    (h : Heap) : Except Fault (Nat × Heap) :=
  if fileHere then populateFile P buffer bufferSize offset slot h
  else do
    let numElems ← runConstraints h .pointer lengthCs count
    let offset := (getBuffFour buffer bufferSize offset).2
    match fileElems, pointee with
    | true, .pointer _ => buildBlock P buffer (populateFile P buffer bufferSize) false 8 numElems slot offset h
    | true, _ => .error .abort
    | false, _ =>
      let pointeeSize ← getSize structs pointee
      buildBlock P buffer (fun offset addr h =>
          populateFromBuffer P structs buffer bufferSize fuel pointee offset addr elemCs h)
        (elemCs.isEmpty && pointee.isScalar) pointeeSize numElems slot offset h

/-- A visit of an argument under these constraints ended as documented. Nothing is said about the
number the constraints on the length start from. -/
def Documented (P : Platform) (structs : Nat → StructType) (buffer : Image) (bufferSize fuel : Nat)
    (pointee : Ty) (ucs : List UserConstraint) (arg : Nat) (cs : List Constraint) (offset slot : Nat) (h : Heap)
    (r : Nat × Heap) : Prop :=
  ∃ count < 2 ^ 32, documentedPointer P structs buffer bufferSize fuel pointee
    (selected false (derefMarks ucs arg) cs) (selected true (derefMarks ucs arg) cs)
    (namesFile ucs arg false) (namesFile ucs arg true) count offset slot h = .ok r

/-- The value of a scalar after its constraints. -/
def settledScalar (read : Except Fault (Nat × Nat)) (lhsType : LhsType) (h : Heap) (cs : List Constraint) :
    Except Fault Nat := do
  let (value, _) ← read
  let value ← runConstraints h lhsType cs value
  return value % 256 ^ lhsType.copySize

/-- What constraints make of the element read at `offset`: the value of a scalar, the length of a
pointer. Structs and arrays take none. -/
def settled (P : Platform) (buffer : Image) (bufferSize : Nat) (h : Heap) (cs : List Constraint) (offset : Nat) :
    Ty → Except Fault Nat
  | .integer bitWidth =>
    settledScalar (readInteger P buffer bufferSize offset bitWidth) (.integer (bitWidth / 8)) h cs
  | .floating bitWidth =>
    settledScalar (readFloating P buffer bufferSize offset bitWidth) (.floating (bitWidth / 8)) h cs
  | .pointer _ => runConstraints h .pointer cs (getBuffFour buffer bufferSize offset).1
  | _ => .ok 0

/-- The plain constraints let the length be one, and they add nothing to what the marked ones make
of the element. -/
def OneElement (P : Platform) (structs : Nat → StructType) (buffer : Image) (bufferSize : Nat) (pointee : Ty)
    (marks : List Bool) (cs : List Constraint) (offset : Nat) (h : Heap) : Prop :=
  (∃ count < 2 ^ 32, runConstraints h .pointer (selected false marks cs) count = .ok 1) ∧
  ∀ size res first, getSize structs pointee = .ok size → h.malloc P (size * 2) 1 = .ok (res, first) →
    settled P buffer bufferSize first cs offset pointee =
      settled P buffer bufferSize first (selected true marks cs) offset pointee

section Meaning
variable {P : Platform} {structs : Nat → StructType} {buffer : Image} {bufferSize fuel : Nat} {pointee : Ty}
  {cs cs' : List Constraint} {marks : List Bool} {h : Heap} {offset res slot : Nat} {r r' : Nat × Heap}

theorem selected_unmarked (none : marks.any id = false) (aligned : cs.length = marks.length) :
    selected false marks cs = cs ∧ selected true marks cs = [] := by
  induction marks generalizing cs with
  | nil =>
    obtain rfl := List.length_eq_zero_iff.mp aligned
    exact ⟨rfl, rfl⟩
  | cons mark rest ih =>
    cases cs with
    | nil => cases aligned
    | cons c cs =>
      simp only [List.any_cons, id, Bool.or_eq_false_iff] at none
      obtain ⟨rfl, none⟩ := none
      obtain ⟨plain, marked⟩ := ih none (Nat.succ.inj aligned)
      exact ⟨congrArg (List.cons c) plain, marked⟩

theorem selected_marked (some : marks.any id = true) (aligned : cs.length = marks.length) :
    (selected true marks cs).isEmpty = false ∧ cs.isEmpty = false := by
  induction marks generalizing cs with
  | nil => cases some
  | cons mark rest ih =>
    cases cs with
    | nil => cases aligned
    | cons c cs =>
      refine ⟨?_, rfl⟩
      cases mark with
      | true => rfl
      | false => exact (ih some (Nat.succ.inj aligned)).1

theorem settledScalar_eq {read : Except Fault (Nat × Nat)} {lhsType : LhsType} {addr : Nat}
    (done : populateScalar read lhsType addr cs h = .ok r) :
    settledScalar read lhsType h cs = .ok (value (r.2.bytes.peek addr lhsType.copySize)) := by
  obtain ⟨first, last, input, ran, same⟩ := populateScalar_ok done
  have wrote := Image.peek_poke h.bytes addr (number lhsType.copySize last)
  rw [number_length] at wrote
  simp only [settledScalar, input, ran, ok_bind, same, wrote, value_number]
  rfl

theorem populateScalar_settled {read : Except Fault (Nat × Nat)} {lhsType : LhsType} {addr : Nat}
    (same : settledScalar read lhsType h cs = settledScalar read lhsType h cs')
    (done : populateScalar read lhsType addr cs h = .ok r) : populateScalar read lhsType addr cs' h = .ok r := by
  obtain ⟨⟨value, offset⟩, input, done⟩ := bind_eq_ok.mp done
  obtain ⟨last, ran, done⟩ := bind_eq_ok.mp done
  simp only [settledScalar, input, ran, ok_bind] at same
  obtain ⟨last', ran', equal⟩ := bind_eq_ok.mp same.symm
  have bytes : number lhsType.copySize last' = number lhsType.copySize last := by
    rw [← number_mod _ last', ← number_mod _ last]
    exact congrArg _ (Except.ok.inj equal)
  simp only [populateScalar, input, ran', ok_bind, bytes]
  exact done

/-- Constraints enter an element only through the value they settle. -/
theorem populate_settled {size : Nat} (known : getSize structs pointee = .ok size)
    (canonical : res + size ≤ 2 ^ 63) (even : res % 2 = 0)
    (same : settled P buffer bufferSize h cs offset pointee = settled P buffer bufferSize h cs' offset pointee)
    (done : populateFromBuffer P structs buffer bufferSize fuel pointee offset res cs h = .ok r) :
    populateFromBuffer P structs buffer bufferSize fuel pointee offset res cs' h = .ok r := by
  cases fuel with
  | zero => cases done
  | succ fuel =>
    cases pointee with
    | unsupported => cases done
    | integer | floating => exact populateScalar_settled same done
    | struct | array => exact done
    | pointer pointee =>
      obtain rfl : 8 = size := Except.ok.inj known
      have noDeref : isDeref res = false := by simp [isDeref, even]
      simp only [settled] at same
      simp only [populateFromBuffer, isFile_eq_false (show res < 2 ^ 63 by omega), noDeref, Bool.false_eq_true, if_false,
        Bool.not_false, Bool.true_or, same] at done ⊢
      exact done

/-- The block of a pointer element tells its length. -/
theorem populate_pointer_length (canonical : res < 2 ^ 63) (even : res % 2 = 0)
    (done : populateFromBuffer P structs buffer bufferSize fuel (.pointer pointee) offset res cs h = .ok r) :
    ∃ base size numElems, runConstraints h .pointer cs (getBuffFour buffer bufferSize offset).1 = .ok numElems ∧
      (⟨base, size, numElems⟩ :: h.blocks) <:+ r.2.blocks := by
  cases fuel with
  | zero => cases done
  | succ fuel =>
    have noDeref : isDeref res = false := by simp [isDeref, even]
    simp only [populateFromBuffer, isFile_eq_false canonical, noDeref, Bool.false_eq_true, if_false] at done
    obtain ⟨numElems, counted, done⟩ := bind_eq_ok.mp done
    obtain ⟨size, _, done⟩ := bind_eq_ok.mp done
    obtain ⟨base, added⟩ := buildBlock_grows (fun _ _ _ _ step => populateFromBuffer_grows.result step) done
    exact ⟨base, _, numElems, counted, added⟩

theorem same_block {b c : Block} {old new : List Block} (first : (b :: old) <:+ new) (second : (c :: old) <:+ new) :
    b = c :=
  List.head_eq_of_cons_eq ((List.suffix_of_suffix_length_le first second le_rfl).eq_of_length rfl)

/-- Two elements that leave the same memory behind were settled alike. -/
theorem settled_of_published {size : Nat} (known : getSize structs pointee = .ok size)
    (canonical : res + size ≤ 2 ^ 63) (even : res % 2 = 0) (apart : Apart res (size * 2) slot 8)
    (done : populateFromBuffer P structs buffer bufferSize fuel pointee offset res cs h = .ok r)
    (done' : populateFromBuffer P structs buffer bufferSize fuel pointee offset res cs' h = .ok r')
    (same : published size 1 slot res r.2 = published size 1 slot res r'.2) :
    settled P buffer bufferSize h cs offset pointee = settled P buffer bufferSize h cs' offset pointee := by
  have bytes : r.2.bytes.peek res (1 * size) = r'.2.bytes.peek res (1 * size) :=
    (published_peek apart).symm.trans ((congrArg (fun t => t.bytes.peek res (1 * size)) same).trans
      (published_peek apart))
  rw [Nat.one_mul] at bytes
  have blocks : (published size 1 slot res r.2).blocks = (published size 1 slot res r'.2).blocks := by rw [same]
  cases pointee with
  | integer bitWidth =>
    cases fuel with
    | zero => cases done
    | succ fuel =>
      obtain rfl : bitWidth / 8 = size := Except.ok.inj known
      exact (settledScalar_eq done).trans ((congrArg (Except.ok ∘ value) bytes).trans (settledScalar_eq done').symm)
  | floating bitWidth =>
    cases fuel with
    | zero => cases done
    | succ fuel =>
      obtain rfl : bitWidth / 8 = size := Except.ok.inj known
      exact (settledScalar_eq done).trans ((congrArg (Except.ok ∘ value) bytes).trans (settledScalar_eq done').symm)
  | struct | array | unsupported => rfl
  | pointer pointee =>
    obtain rfl : 8 = size := Except.ok.inj known
    obtain ⟨_, _, numElems, counted, added⟩ := populate_pointer_length (by omega) even done
    obtain ⟨_, _, numElems', counted', added'⟩ := populate_pointer_length (by omega) even done'
    have grown : r.2.blocks = r'.2.blocks := blocks
    rw [grown] at added
    have equal : numElems = numElems' := congrArg Block.numElems (same_block added added')
    simp only [settled, counted, counted', equal]

end Meaning

section Documented
variable {P : Platform} {structs : Nat → StructType} {buffer : Image} {bufferSize fuel : Nat} {pointee : Ty}
  {ucs : List UserConstraint} {arg : Nat} {cs : List Constraint} {h : Heap} {offset slot : Nat} {r : Nat × Heap}
  {held : List (Nat × Nat)}

/-- With a mark on any of them, all constraints go to one element. -/
theorem populate_marked {marks : List Bool} (canonical : slot < 2 ^ 63) (even : slot % 2 = 0)
    (some : marks.any id = true) (aligned : cs.length = marks.length)
    (done : populateFromBuffer P structs buffer bufferSize (fuel + 1) (.pointer pointee) offset
      (tagged slot true false) cs h = .ok r) :
    ∃ size, getSize structs pointee = .ok size ∧ buildBlock P buffer (fun offset addr h =>
        populateFromBuffer P structs buffer bufferSize fuel pointee offset addr cs h)
      false size 1 slot (getBuffFour buffer bufferSize offset).2 h = .ok r := by
  simp only [populateFromBuffer, tagged_file canonical, tagged_deref even, untag_tagged canonical even,
    Bool.false_eq_true, if_false, if_true, (selected_marked some aligned).2, Bool.not_true, Bool.or_false,
    Bool.false_and, ok_bind] at done
  obtain ⟨size, known, built⟩ := bind_eq_ok.mp done
  exact ⟨size, known, built⟩

/-- The visit of a marked argument. -/
theorem marked_iff {marks : List Bool} (alloc : P.Allocates held) (reserved : (slot, 8) ∈ held)
    (canonical : slot < 2 ^ 63) (even : slot % 2 = 0) (some : marks.any id = true)
    (aligned : cs.length = marks.length)
    (done : populateFromBuffer P structs buffer bufferSize (fuel + 1) (.pointer pointee) offset
      (tagged slot true false) cs h = .ok r) :
    (∃ count < 2 ^ 32, documentedPointer P structs buffer bufferSize fuel pointee (selected false marks cs)
      (selected true marks cs) false false count offset slot h = .ok r) ↔
    OneElement P structs buffer bufferSize pointee marks cs (getBuffFour buffer bufferSize offset).2 h := by
  obtain ⟨size, known, built⟩ := populate_marked canonical even some aligned done
  have nonempty := (selected_marked some aligned).1
  simp only [documentedPointer, known, ok_bind, nonempty, Bool.false_and, Bool.false_eq_true, if_false]
  constructor
  · rintro ⟨count, small, documented⟩
    obtain ⟨numElems, counted, documented⟩ := bind_eq_ok.mp documented
    -- the block the visit allocates is the first one above those that were there
    obtain ⟨base, added⟩ := buildBlock_grows (fun _ _ _ _ step => populateFromBuffer_grows.result step) built
    obtain ⟨base', added'⟩ := buildBlock_grows (fun _ _ _ _ step => populateFromBuffer_grows.result step) documented
    obtain rfl : 1 = numElems := congrArg Block.numElems (same_block added added')
    refine ⟨⟨count, small, counted⟩, ?_⟩
    intro size' res first known' allocated
    obtain rfl : size = size' := Except.ok.inj (known.symm.trans known')
    obtain ⟨_, _, filled, again, fill, same⟩ := buildBlock_ok built
    obtain ⟨_, _, filled', again', fill', same'⟩ := buildBlock_ok documented
    obtain ⟨rfl, rfl⟩ := Prod.mk.inj (Except.ok.inj (allocated.symm.trans again))
    obtain ⟨rfl, rfl⟩ := Prod.mk.inj (Except.ok.inj (allocated.symm.trans again'))
    have apart : Apart res (size * 2) slot 8 := by
      obtain ⟨rfl, nonnull, _⟩ := Heap.malloc_eq_ok.mp allocated
      exact alloc.reserved _ _ nonnull _ reserved
    have below := (Heap.malloc_region alloc allocated).canonical
    simp only [Bool.false_eq_true, if_false, forTo_one, Nat.zero_mul, Nat.zero_mod, Nat.add_zero] at fill fill'
    exact settled_of_published known (by omega) (Heap.malloc_even alloc allocated) apart fill fill'
      (same.symm.trans same')
  · rintro ⟨⟨count, small, counted⟩, agree⟩
    refine ⟨count, small, ?_⟩
    rw [counted, ok_bind, ← built]
    refine buildBlock_congr fun res first allocated => ?_
    obtain ⟨_, _, filled, again, fill, _⟩ := buildBlock_ok built
    obtain ⟨rfl, rfl⟩ := Prod.mk.inj (Except.ok.inj (allocated.symm.trans again))
    have below := (Heap.malloc_region alloc allocated).canonical
    simp only [Bool.false_eq_true, if_false, forTo_one, Nat.zero_mul, Nat.zero_mod, Nat.add_zero] at fill ⊢
    rw [fill]
    exact populate_settled known (by omega) (Heap.malloc_even alloc allocated) (agree size res first known allocated)
      fill

/-- A visit ends as documented when the argument itself names a file; or no file is asked for, and
there is no mark or the marks make no difference to a single element. -/
theorem documented_iff (alloc : P.Allocates held) (reserved : (slot, 8) ∈ held) (canonical : slot < 2 ^ 63)
    (even : slot % 2 = 0) (aligned : cs.length = (derefMarks ucs arg).length)
    (done : populateFromBuffer P structs buffer bufferSize (fuel + 1) (.pointer pointee) offset
      (tagged slot ((derefMarks ucs arg).any id) (namesFile ucs arg false || namesFile ucs arg true)) cs h = .ok r) :
    Documented P structs buffer bufferSize fuel pointee ucs arg cs offset slot h r ↔
      namesFile ucs arg false = true ∨ namesFile ucs arg true = false ∧ ((derefMarks ucs arg).any id = false ∨
        OneElement P structs buffer bufferSize pointee (derefMarks ucs arg) cs
          (getBuffFour buffer bufferSize offset).2 h) := by
  unfold Documented
  cases here : namesFile ucs arg false with
  | true =>
    simp only [here, Bool.true_or, populateFromBuffer, tagged_file canonical, untag_tagged canonical even,
      if_true] at done
    simp only [documentedPointer, if_true, done, true_or, iff_true]
    exact ⟨0, by norm_num, trivial⟩
  | false =>
    cases elems : namesFile ucs arg true with
    | true =>
      simp only [here, elems, Bool.or_true, populateFromBuffer, tagged_file canonical, if_true] at done
      simp only [Bool.false_eq_true, Bool.true_eq_false, false_and, or_false, iff_false]
      rintro ⟨count, _, documented⟩
      simp only [documentedPointer, Bool.false_eq_true, if_false] at documented
      obtain ⟨numElems, _, documented⟩ := bind_eq_ok.mp documented
      obtain ⟨base, blocks⟩ := populateFile_blocks done
      cases pointee with
      | integer | floating | struct | array | unsupported => cases documented
      | pointer pointee =>
        have each (offset addr : Nat) (t : Heap) (r : Nat × Heap)
            (step : populateFile P buffer bufferSize offset addr t = .ok r) : t.blocks <:+ r.2.blocks := by
          obtain ⟨base, added⟩ := populateFile_blocks step
          rw [added]
          exact List.suffix_cons ..
        obtain ⟨base', added⟩ := buildBlock_grows each documented
        rw [blocks] at added
        obtain ⟨_, sizes, lengths⟩ := Block.mk.inj (same_block added (List.suffix_refl _))
        omega
    | false =>
      cases mark : (derefMarks ucs arg).any id with
      | true =>
        simp only [here, elems, mark, Bool.or_self] at done
        simp only [Bool.false_eq_true, Bool.true_eq_false, true_and, false_or]
        exact marked_iff alloc reserved canonical even mark aligned done
      | false =>
        simp only [Bool.false_eq_true, true_and, false_or, true_or, iff_true]
        obtain ⟨plain, marked⟩ := selected_unmarked mark aligned
        refine ⟨_, getBuffFour_lt buffer bufferSize offset, ?_⟩
        rw [plain, marked, ← done]
        simp only [here, elems, mark, Bool.or_self, populateFromBuffer, tagged_file canonical, tagged_deref even,
          untag_tagged canonical even, documentedPointer, Bool.false_eq_true, if_false]
        rfl

end Documented

/-! ### The populate round -/

/-- One visit of the populate round. -/
def populateVisit (P : Platform) (structs : Nat → StructType) (types : List Ty) (setup : Setup) (fuel : Nat)
    (buffer : Image) (bufferSize : Nat) (s : Nat × Heap) (arg : Nat) : Except Fault (Nat × Heap) := do
  let (type, addr, cs) ← visitArg types setup arg
  populateFromBuffer P structs buffer bufferSize fuel type s.1 addr cs s.2

theorem populateRound_visits {P : Platform} {structs : Nat → StructType} {types : List Ty} {setup : Setup}
    {fuel bufferSize : Nat} {buffer : Image} {h : Heap} :
    populateRound P structs types setup fuel buffer bufferSize h =
      visitInOrder P types.length setup.edges (populateVisit P structs types setup fuel buffer bufferSize) (0, h) :=
  rfl

section Round
variable {P : Platform} {structs : Nat → StructType} {types : List Ty} {slots : List Nat}
  {ucs : List UserConstraint} {setup : Setup} {before h : Heap} {buffer : Image} {bufferSize fuel offset arg slot : Nat}
  {pointee : Ty} {r : Nat × Heap}

/-- What a visit of a pointer argument runs on. -/
theorem populateVisit_pointer (made : setupArgs types slots ucs before = .ok setup)
    (hasType : types[arg]? = some (.pointer pointee)) (hasSlot : slots[arg]? = some slot) :
    ∃ cs, setup.constraintsOfArg[arg]? = some cs ∧ cs.length = (derefMarks ucs arg).length ∧
      populateVisit P structs types setup fuel buffer bufferSize (offset, h) arg =
        populateFromBuffer P structs buffer bufferSize fuel (.pointer pointee) offset
          (tagged slot ((derefMarks ucs arg).any id) (namesFile ucs arg false || namesFile ucs arg true)) cs h := by
  have collected := setupArgs_collected made
  have inside : arg < types.length := (List.getElem?_eq_some_iff.mp hasType).1
  obtain ⟨cs, listed, length⟩ := collected.constraints arg inside
  refine ⟨cs, listed, length, ?_⟩
  simp only [populateVisit, visitArg, getAt, hasType, collected.address arg inside slot hasSlot, listed, ok_bind]
  rfl

/-- For every list of constraints and every state of the round, a visit of a pointer argument that
returns has done what is documented exactly when the argument names a file itself, or no file is
asked for and either no constraint is marked or the plain ones allow one element and do not change it. -/
theorem populateVisit_documented_iff (made : setupArgs types slots ucs before = .ok setup)
    (hasType : types[arg]? = some (.pointer pointee)) (hasSlot : slots[arg]? = some slot)
    (alloc : P.Allocates (places structs types slots)) (slotsOk : Slots structs types slots h)
    (even : EvenPointers types slots)
    (returned : populateVisit P structs types setup (fuel + 1) buffer bufferSize (offset, h) arg = .ok r) :
    ∃ cs, setup.constraintsOfArg[arg]? = some cs ∧
      (Documented P structs buffer bufferSize fuel pointee ucs arg cs offset slot h r ↔
        namesFile ucs arg false = true ∨ namesFile ucs arg true = false ∧ ((derefMarks ucs arg).any id = false ∨
          OneElement P structs buffer bufferSize pointee (derefMarks ucs arg) cs
            (getBuffFour buffer bufferSize offset).2 h)) := by
  obtain ⟨cs, listed, aligned, visit⟩ := populateVisit_pointer made hasType hasSlot
  rw [visit] at returned
  have reserved : (slot, 8) ∈ places structs types slots :=
    List.mem_of_getElem? (places_get hasType hasSlot)
  have canonical := (slotsOk.region_at hasType hasSlot).canonical
  have width : placeSize structs (.pointer pointee) = 8 := rfl
  exact ⟨cs, listed, documented_iff alloc reserved (by omega) (even arg pointee slot hasType hasSlot) aligned returned⟩

end Round

/-- The slots of `decode(int *measurements, unsigned amountOfMeasurements)`. -/
def decodeHeap : Heap :=
  ⟨fun _ => 0, fun x => decide (0x1000 ≤ x) && decide (x < 0x1010), [], []⟩

def decodeTypes : List Ty := [.pointer (.integer 32), .integer 32]

theorem decodeSlots : Slots (fun _ => ⟨0, []⟩) decodeTypes [0x1000, 0x1008] decodeHeap := by
  refine ⟨rfl, by simp [places, decodeTypes, placeSize, getSize, Apart], ?_⟩
  intro place member
  rcases List.mem_cons.mp member with rfl | member
  · refine ⟨by decide, fun x lower upper => ?_⟩
    simp only [placeSize, getSize] at lower upper
    simp only [decodeHeap, Bool.and_eq_true, decide_eq_true_eq]
    omega
  · obtain rfl := List.mem_singleton.mp member
    refine ⟨by decide, fun x lower upper => ?_⟩
    simp only [placeSize, getSize] at lower upper
    simp only [decodeHeap, Bool.and_eq_true, decide_eq_true_eq]
    omega

theorem decode_even : EvenPointers decodeTypes [0x1000, 0x1008] := by
  rintro (_ | _ | arg) pointee addr hasType hasSlot
  · cases hasSlot
    rfl
  · cases hasType
  · cases hasSlot

def belowMark : List UserConstraint := [{ lhs := 0, rel := .LE, rhs := .constant 255, deref := true }]

/-- A bound on the elements alone is kept, by the one element there is. -/
theorem marked_bound_documented :
    ∃ r cs, populateVisit (bumpPlatform 0x2000 [0, 1]) (fun _ => ⟨0, []⟩) decodeTypes ⟨[0x1001, 0x1008],
        [[⟨.LE, .constant 255, false⟩], []], []⟩ 2 (fun _ => 7) 8 (0, decodeHeap) 0 = .ok r ∧
      Documented (bumpPlatform 0x2000 [0, 1]) (fun _ => ⟨0, []⟩) (fun _ => 7) 8 1 (.integer 32) belowMark 0 cs 0
        0x1000 decodeHeap r := by
  cases outcome : populateVisit (bumpPlatform 0x2000 [0, 1]) (fun _ => ⟨0, []⟩) decodeTypes ⟨[0x1001, 0x1008],
      [[⟨.LE, .constant 255, false⟩], []], []⟩ 2 (fun _ => 7) 8 (0, decodeHeap) 0 with
  | error e =>
    have returns : (populateVisit (bumpPlatform 0x2000 [0, 1]) (fun _ => ⟨0, []⟩) decodeTypes ⟨[0x1001, 0x1008],
      [[⟨.LE, .constant 255, false⟩], []], []⟩ 2 (fun _ => 7) 8 (0, decodeHeap) 0).isOk = true := by decide +kernel
    rw [outcome] at returns
    cases returns
  | ok r =>
    have made : setupArgs decodeTypes [0x1000, 0x1008] belowMark decodeHeap =
        .ok ⟨[0x1001, 0x1008], [[⟨.LE, .constant 255, false⟩], []], []⟩ := rfl
    obtain ⟨cs, listed, same⟩ := populateVisit_documented_iff made rfl rfl (bump_allocates rfl (by decide))
      decodeSlots decode_even outcome
    obtain rfl := Option.some.inj listed
    refine ⟨r, _, rfl, same.mpr (.inr ⟨rfl, .inr ⟨⟨1, by norm_num, rfl⟩, ?_⟩⟩)⟩
    intro size res first _ _
    rfl

/-- The `measurements` example: as many elements as the second argument says, each of them 255. -/
def measurements : List UserConstraint :=
  [{ lhs := 0, rel := .EQ, rhs := .arg 1 }, { lhs := 0, rel := .EQ, rhs := .constant 255, deref := true }]

/-- The memory after the second argument has been given the value 3. -/
def amountThree : Heap := { decodeHeap with bytes := decodeHeap.bytes.poke 0x1008 (number 4 3) }

/-- The `filenames` example: one element, which names a file. -/
def filenames : List UserConstraint :=
  [{ lhs := 0, rel := .EQ, rhs := .constant 1 }, { lhs := 0, rel := .EQ, rhs := .constant 0, isFile := true, deref := true }]

def measurementsSetup : Setup :=
  ⟨[0x1001, 0x1008], [[⟨.EQ, .arg 0x1008, false⟩, ⟨.EQ, .constant 255, false⟩], []], [(1, 0)]⟩

/-- Both examples of the documentation. Three measurements are asked for and one is built; the name
of the file is stored where the array of names should be. -/
theorem examples_not_documented :
    setupArgs decodeTypes [0x1000, 0x1008] measurements decodeHeap = .ok measurementsSetup ∧
    (∃ r, populateVisit (bumpPlatform 0x2000 [0, 1]) (fun _ => ⟨0, []⟩) decodeTypes measurementsSetup 2
        (fun x => if x = 0 then 3 else 0) 8 (0, decodeHeap) 1 = .ok (4, amountThree) ∧
      populateVisit (bumpPlatform 0x2000 [0, 1]) (fun _ => ⟨0, []⟩) decodeTypes measurementsSetup 2
        (fun x => if x = 0 then 3 else 0) 8 (4, amountThree) 0 = .ok r ∧
      r.2.elementCount 0x1000 = some 1 ∧
      ¬ Documented (bumpPlatform 0x2000 [0, 1]) (fun _ => ⟨0, []⟩) (fun x => if x = 0 then 3 else 0) 8 1 (.integer 32)
        measurements 0 [⟨.EQ, .arg 0x1008, false⟩, ⟨.EQ, .constant 255, false⟩] 4 0x1000 amountThree r) ∧
    ∃ r cs setup, setupArgs [.pointer (.pointer (.integer 8))] [0x1000] filenames decodeHeap = .ok setup ∧
      populateVisit (bumpPlatform 0x2000 [0]) (fun _ => ⟨0, []⟩) [.pointer (.pointer (.integer 8))] setup 2
        (fun _ => 1) 8 (0, decodeHeap) 0 = .ok r ∧ setup.constraintsOfArg = [cs] ∧
      ¬ Documented (bumpPlatform 0x2000 [0]) (fun _ => ⟨0, []⟩) (fun _ => 1) 8 1 (.pointer (.integer 8)) filenames 0 cs 0
        0x1000 decodeHeap r := by
  have alloc (order : List Nat) : (bumpPlatform 0x2000 order).Allocates [(0x1000, 8)] :=
    bump_allocates rfl (by decide)
  refine ⟨rfl, ?_, ?_⟩
  · refine ⟨_, rfl, rfl, by decide +kernel, fun documented => ?_⟩
    rcases (documented_iff (alloc _) (by simp) (by norm_num) rfl rfl rfl).mp documented with
      file | ⟨_, plain | ⟨⟨count, small, ran⟩, _⟩⟩
    · cases file
    · cases plain
    · -- the plain constraint makes the length three whatever it was
      have result : count - count % 256 ^ 4 + 3 = 1 := Except.ok.inj ran
      omega
  · refine ⟨_, _, _, rfl, rfl, rfl, fun documented => ?_⟩
    rcases (documented_iff (alloc _) (by simp) (by norm_num) rfl rfl rfl).mp documented with file | ⟨elements, _⟩
    · cases file
    · cases elements

end AflLive.Libgen
