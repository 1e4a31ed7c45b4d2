import AflLive.Libgen.Arguments

/-! Constraint enforcement. The abstract side speaks of numbers: the value of an
integer argument, the element count behind a pointer argument, and a relation
to a constant or to another argument. The populate round makes every jointly
satisfiable set of relations true, in whatever order they are listed. -/
namespace AflLive.Libgen
open Bytes Control Topological Clamp

/-- The element count of the block a slot points to. -/
def Heap.elementCount (h : Heap) (slot : Nat) : Option Nat :=
  (h.blocks.find? fun b => b.base == value (h.bytes.peek slot 8)).map (·.numElems)

/-- The number an integer argument holds, or the count a pointer argument's
buffer was built with. -/
def argNumber (types : List Ty) (slots : List Nat) (h : Heap) (isSigned : Bool) (arg : Nat) : Option Int :=
  match types[arg]?, slots[arg]? with
  | some (.integer bitWidth), some addr =>
    some (interpret isSigned (bitWidth / 8) (value (h.bytes.peek addr (bitWidth / 8))))
  | some (.pointer _), some addr => (h.elementCount addr).map Int.ofNat
  | _, _ => none

/-- A constraint holds of a number in a given memory. -/
def UserConstraint.HoldsAt (types : List Ty) (slots : List Nat) (h : Heap) (c : UserConstraint) (v : Int) : Prop :=
  match c.rhs with
  | .constant n => Bound.Holds ⟨c.rel.rel, n⟩ v
  | .arg index => ∃ bound, argNumber types slots h c.signed index = some bound ∧
      Bound.Holds ⟨c.rel.rel, bound⟩ v
  | .recorded => False

def Representable (isSigned : Bool) (n : Nat) (v : Int) : Prop :=
  if isSigned then -(256 ^ n : Int) ≤ 2 * v ∧ 2 * v < 256 ^ n else 0 ≤ v ∧ v < 256 ^ n

/-- Plain relations between an integer and a constant or an integer of its
width, or between a length and a constant or a 32-bit integer. -/
def UserConstraint.Admissible (types : List Ty) (c : UserConstraint) : Prop :=
  c.Plain ∧ match types[c.lhs]? with
    | some (.integer bitWidth) => match c.rhs with
      | .constant n => Representable c.signed (bitWidth / 8) n
      | .arg index => types[index]? = some (.integer bitWidth)
      | .recorded => False
    | some (.pointer _) => c.signed = false ∧ match c.rhs with
      | .constant n => Representable false 4 n
      | .arg index => types[index]? = some (.integer 32)
      | .recorded => False
    | _ => False

def Ty.Numeric : Ty → Prop
  | .integer bitWidth => bitWidth = 8 ∨ bitWidth = 16 ∨ bitWidth = 32 ∨ bitWidth = 64
  | .pointer _ => True
  | _ => False

theorem Ty.Numeric.lhsType {type : Ty} (numeric : type.Numeric) : type.lhsType.Numeric := by
  cases type with
  | integer bitWidth => rcases numeric with rfl | rfl | rfl | rfl <;> simp [Ty.lhsType, LhsType.Numeric]
  | pointer pointee => trivial
  | floating | struct | array | unsupported => exact numeric.elim

theorem Heap.Points.elementCount {h : Heap} {slot n : Nat} (points : h.Points slot n) (laid : h.Laid held) :
    h.elementCount slot = some n := by
  obtain ⟨b, member, rfl, stored⟩ := points
  have small : b.base < 256 ^ 8 := by
    have := laid.canonical b member
    omega
  have base : value (h.bytes.peek slot 8) = b.base := by
    rw [stored, value_number, Nat.mod_eq_of_lt small]
  unfold Heap.elementCount
  rw [base]
  obtain ⟨c, found⟩ : ∃ c, h.blocks.find? (fun c => c.base == b.base) = some c := by
    rw [← Option.isSome_iff_exists, List.find?_isSome]
    exact ⟨b, member, by simp⟩
  have same : c.base = b.base := by simpa using List.find?_some found
  have unique : c = b := laid.unique (List.mem_of_find?_eq_some found) member same
  rw [found, unique, Option.map_some]

/-- What one visit leaves in a slot, before it is looked up again. -/
def ArgIs (h : Heap) (type : Ty) (addr : Nat) (isSigned : Bool) (v : Int) : Prop :=
  match type with
  | .integer bitWidth => v = interpret isSigned (bitWidth / 8) (value (h.bytes.peek addr (bitWidth / 8)))
  | .pointer _ => ∃ n : Nat, h.Points addr n ∧ v = n
  | _ => False

section Visit
variable {P : Platform} {info : TypeInfo} {held : List (Nat × Nat)} {buffer : Image} {h : Heap}
  {cs : List Constraint} {isSigned : Bool} {addr offset fuel : Nat}

theorem populate_integer {bitWidth : Nat} (bufferSize : Nat) (numeric : (Ty.integer bitWidth).Numeric)
    (laid : h.Laid held) (region : h.Region addr (addr + bitWidth / 8))
    (same : ∀ c ∈ cs, c.isSigned = isSigned)
    (readable : ∀ c ∈ cs, c.rhs.Readable h (bitWidth / 8)) :
    Ensures (Fails info.structs (fuel + 1) (.integer bitWidth)) (fun r => r.2.Laid held ∧
        Extends addr (addr + bitWidth / 8) h r.2 ∧ ∃ v start, ArgIs r.2 (.integer bitWidth) addr isSigned v ∧
          v = applyAll (cs.map (Constraint.bound h (.integer (bitWidth / 8)) isSigned)) start)
      (populateFromBuffer P info.structs buffer bufferSize (fuel + 1) (.integer bitWidth) offset addr cs h) := by
  unfold populateFromBuffer populateScalar
  refine ((readInteger_ensures bufferSize offset bitWidth).allow fun e odd => .inr odd).bind ?_
  rintro ⟨res, offset'⟩ -
  obtain ⟨after, ran, clamped, _⟩ := runConstraints_clamps numeric.lhsType same readable res
  simp only [Ty.lhsType, LhsType.copySize] at ran clamped ⊢
  rw [ran]
  refine (Heap.store_ensures (region.readable le_rfl (by rw [number_length]))).bind ?_
  intro t stored
  refine ⟨Heap.store_laid stored laid, Heap.store_extends stored le_rfl (by rw [number_length]), _,
    interpret isSigned (bitWidth / 8) (res % 256 ^ (bitWidth / 8)), rfl, ?_⟩
  obtain ⟨_, rfl⟩ := Heap.store_eq_ok.mp stored
  have wrote := Image.peek_poke h.bytes addr (number (bitWidth / 8) after)
  rw [number_length] at wrote
  rw [wrote, value_number]
  exact clamped

theorem populate_pointer {pointee : Ty} (alloc : P.Allocates held) (bufferSize : Nat)
    (sized : Sized info.structs (.pointer pointee)) (laid : h.Laid held) (region : h.Region addr (addr + 8))
    (even : addr % 2 = 0) (readable : ∀ c ∈ cs, c.rhs.Readable h 4) :
    Ensures (Fails info.structs (fuel + 1) (.pointer pointee)) (fun r => r.2.Laid held ∧
        Extends addr (addr + 8) h r.2 ∧ ∃ v start, ArgIs r.2 (.pointer pointee) addr false v ∧
          v = applyAll (cs.map (Constraint.bound h .pointer false)) start)
      (populateFromBuffer P info.structs buffer bufferSize (fuel + 1) (.pointer pointee) offset addr cs h) := by
  have canonical := region.canonical
  have small : addr < 2 ^ 63 := by omega
  have slot : untag addr = addr := by rw [untag_eq small]; omega
  have noFile : isFile addr = false := isFile_eq_false small
  have noDeref : isDeref addr = false := by simp [isDeref, even]
  have count := getBuffFour_lt buffer bufferSize offset
  obtain ⟨after, ran, clamped, bounded⟩ := @runConstraints_clamps cs h .pointer false trivial
    (fun _ _ => rfl) readable (getBuffFour buffer bufferSize offset).1
  have below : after < 256 ^ 4 := bounded 4 le_rfl (by omega)
  simp only [LhsType.copySize, Nat.mod_eq_of_lt below] at clamped
  unfold populateFromBuffer
  simp only [noFile, noDeref, slot, Bool.false_eq_true, if_false, ran]
  refine ((getSize_ensures info.structs fuel pointee).allow fun e odd => .inr odd).bind ?_
  intro pointeeSize known
  refine (buildBlock_ensures alloc (.inl rfl) laid region le_rfl le_rfl ?_).weaken ?_
  · intro offset' addr' t lo' hi' laid' region' even' lower' upper'
    have sizedPointee : Sized info.structs pointee := sized
    refine (populateFromBuffer_ensures alloc bufferSize sizedPointee laid' region' even' lower' ?_).allow
      fun e failed => failed
    intro size known'
    have same : pointeeSize = size := Except.ok.inj (known.symm.trans known')
    omega
  · rintro r ⟨laid', grown, points⟩
    exact ⟨laid', grown, interpret false 4 after, _, ⟨after, points, rfl⟩, clamped⟩

/-- One visit of an integer or a pointer argument clamps its number by every
constraint it has, as read at that moment. -/
theorem populate_settles {type : Ty} (alloc : P.Allocates held) (bufferSize : Nat)
    (numeric : type.Numeric) (sized : Sized info.structs type) (laid : h.Laid held)
    (region : h.Region addr (addr + placeSize info.structs type))
    (even : ∀ pointee, type = .pointer pointee → addr % 2 = 0) (pure : type.lhsType.signed isSigned = isSigned)
    (same : ∀ c ∈ cs, type.lhsType.signed c.isSigned = isSigned)
    (readable : ∀ c ∈ cs, c.rhs.Readable h type.lhsType.copySize) :
    Ensures (Fails info.structs fuel type) (fun r => r.2.Laid held ∧
        Extends addr (addr + placeSize info.structs type) h r.2 ∧
        ∃ v start, ArgIs r.2 type addr isSigned v ∧
          v = applyAll (cs.map (Constraint.bound h type.lhsType isSigned)) start)
      (populateFromBuffer P info.structs buffer bufferSize fuel type offset addr cs h) := by
  cases fuel with
  | zero => exact .inr not_false
  | succ fuel =>
    cases type with
    | integer bitWidth => exact populate_integer bufferSize numeric laid region same readable
    | pointer pointee =>
      obtain rfl : isSigned = false := pure.symm
      exact populate_pointer alloc bufferSize sized laid region (even pointee rfl) readable
    | floating | struct | array | unsupported => exact numeric.elim

end Visit

/-! ### The whole round -/

def plainRhs (slots : List Nat) (c : UserConstraint) : Rhs :=
  match c.rhs with
  | .arg index => .arg (slots.getD index 0)
  | .recorded => .constant 0
  | .constant n => .constant (n % 2 ^ 64).toNat

/-- The common signedness of the constraints on an argument. -/
def signOf (ucs : List UserConstraint) (type : Ty) (arg : Nat) : Bool :=
  type.lhsType.signed (ucs.any fun c => c.lhs == arg && c.signed)

/-- The number in the slot is the outcome of the argument's own clamps, at the
right-hand values the memory holds now. -/
def Settled (types : List Ty) (slots : List Nat) (ucs : List UserConstraint) (h : Heap) (arg : Nat) : Prop :=
  ∀ type addr, types[arg]? = some type → slots[arg]? = some addr → ∃ v start,
    ArgIs h type addr (signOf ucs type arg) v ∧
    v = applyAll ((constraintsOf ucs (plainRhs slots) arg).map
      (Constraint.bound h type.lhsType (signOf ucs type arg))) start

section Round
variable {types : List Ty} {slots : List Nat} {ucs : List UserConstraint} {h t : Heap} {c : UserConstraint}
  {type : Ty}

/-- Where an admissible constraint takes its bound from. -/
theorem UserConstraint.Admissible.source (ok : c.Admissible types) (hasType : types[c.lhs]? = some type) :
    (∃ n, c.rhs = .constant n) ∨ ∃ index bitWidth, c.rhs = .arg index ∧
      types[index]? = some (.integer bitWidth) ∧ type.lhsType.copySize = bitWidth / 8 := by
  obtain ⟨_, fits⟩ := ok
  rw [hasType] at fits
  cases type with
  | integer bitWidth =>
    cases rhs : c.rhs with
    | constant n => exact .inl ⟨n, rfl⟩
    | arg index => simp only [rhs] at fits; exact .inr ⟨index, bitWidth, rfl, fits, rfl⟩
    | recorded => simp only [rhs] at fits
  | pointer pointee =>
    cases rhs : c.rhs with
    | constant n => exact .inl ⟨n, rfl⟩
    | arg index => simp only [rhs] at fits; exact .inr ⟨index, 32, rfl, fits.2, rfl⟩
    | recorded => simp only [rhs] at fits; exact fits.2.elim
  | floating | struct | array | unsupported => exact fits.elim

theorem plainRhs_arg {index addr : Nat} (rhs : c.rhs = .arg index) (hasSlot : slots[index]? = some addr) :
    plainRhs slots c = .arg addr := by
  simp [plainRhs, rhs, List.getD, hasSlot]

/-- A bound is the same in two memories that agree on the slot it is read from. -/
theorem bound_congr {isSigned : Bool} (ok : c.Admissible types) (hasType : types[c.lhs]? = some type)
    (length : slots.length = types.length)
    (kept : ∀ index bitWidth addr, c.rhs = .arg index → types[index]? = some (.integer bitWidth) →
      slots[index]? = some addr → t.bytes.peek addr (bitWidth / 8) = h.bytes.peek addr (bitWidth / 8)) :
    Constraint.bound t type.lhsType isSigned ⟨c.rel, plainRhs slots c, c.signed⟩ =
      Constraint.bound h type.lhsType isSigned ⟨c.rel, plainRhs slots c, c.signed⟩ := by
  rcases ok.source hasType with ⟨n, rhs⟩ | ⟨index, bitWidth, rhs, hasRhs, width⟩
  · simp only [Constraint.bound, plainRhs, rhs, Rhs.bytes]
  · obtain ⟨addr, hasSlot⟩ := slot_of_type length hasRhs
    simp only [Constraint.bound, plainRhs_arg rhs hasSlot, Rhs.bytes, width,
      kept index bitWidth addr rhs hasRhs hasSlot]

theorem readable_of_slots {structs : Nat → StructType} (ok : c.Admissible types)
    (hasType : types[c.lhs]? = some type) (slotsOk : Slots structs types slots h) :
    (plainRhs slots c).Readable h type.lhsType.copySize := by
  rcases ok.source hasType with ⟨n, rhs⟩ | ⟨index, bitWidth, rhs, hasRhs, width⟩
  · simp only [plainRhs, rhs, Rhs.Readable]
  · obtain ⟨addr, hasSlot⟩ := slot_of_type slotsOk.length hasRhs
    have region := slotsOk.region_at hasRhs hasSlot
    rw [plainRhs_arg rhs hasSlot, width]
    exact region.readable le_rfl le_rfl

/-- What one visit leaves in a slot survives the visit of another argument. -/
theorem ArgIs.keeps {structs : Nat → StructType} {arg other addr addr' : Nat} {type' : Ty} {isSigned : Bool}
    {v : Int} (is : ArgIs h type addr isSigned v) (slotsOk : Slots structs types slots h)
    (hasType : types[arg]? = some type) (hasSlot : slots[arg]? = some addr)
    (hasType' : types[other]? = some type') (hasSlot' : slots[other]? = some addr') (different : other ≠ arg)
    (laid : t.Laid (places structs types slots))
    (grown : Extends addr' (addr' + placeSize structs type') h t) : ArgIs t type addr isSigned v := by
  cases type with
  | integer bitWidth =>
    have same := slotsOk.keeps hasType' hasSlot' hasType hasSlot different laid grown (le_refl (bitWidth / 8))
    simp only [ArgIs, same] at is ⊢
    exact is
  | pointer pointee =>
    obtain ⟨n, ⟨b, member, count, stored⟩, number⟩ := is
    have same := slotsOk.keeps hasType' hasSlot' hasType hasSlot different laid grown (le_refl 8)
    obtain ⟨_, new, blocks, _⟩ := grown
    exact ⟨n, ⟨b, by rw [blocks]; exact List.mem_append_right _ member, count, same.trans stored⟩, number⟩
  | floating | struct | array | unsupported => exact is.elim

/-- A settled argument stays settled while arguments are visited that neither
it nor its bounds live in. -/
theorem Settled.keeps {structs : Nat → StructType} {arg other addr' : Nat} {type' : Ty}
    (settled : Settled types slots ucs h arg) (slotsOk : Slots structs types slots h)
    (ok : ∀ c ∈ ucs, c.Admissible types)
    (hasType' : types[other]? = some type') (hasSlot' : slots[other]? = some addr') (different : other ≠ arg)
    (unread : (other, arg) ∉ dependencies ucs) (laid : t.Laid (places structs types slots))
    (grown : Extends addr' (addr' + placeSize structs type') h t) : Settled types slots ucs t arg := by
  intro type addr hasType hasSlot
  obtain ⟨v, start, is, clamped⟩ := settled type addr hasType hasSlot
  refine ⟨v, start, is.keeps slotsOk hasType hasSlot hasType' hasSlot' different laid grown, ?_⟩
  rw [clamped]
  congr 1
  refine List.map_congr_left fun d member => ?_
  obtain ⟨c, listed, rfl⟩ := List.mem_map.mp member
  obtain ⟨given, lhs⟩ := List.mem_filter.mp listed
  obtain rfl : c.lhs = arg := by simpa using lhs
  refine (bound_congr (ok c given) hasType slotsOk.length fun index bitWidth addr'' rhs hasRhs hasSlot'' => ?_).symm
  have elsewhere : other ≠ index := fun same => unread (same ▸ mem_dependencies given rhs)
  exact slotsOk.keeps hasType' hasSlot' hasRhs hasSlot'' elsewhere laid grown (le_refl (bitWidth / 8))

theorem sign_uniform {arg : Nat} (uniform : ∀ c ∈ ucs, ∀ d ∈ ucs, c.lhs = d.lhs → c.signed = d.signed)
    (member : c ∈ ucs) (lhs : c.lhs = arg) : type.lhsType.signed c.signed = signOf ucs type arg := by
  unfold signOf
  congr 1
  rw [Bool.eq_iff_iff, List.any_eq_true]
  constructor
  · intro isSigned
    exact ⟨c, member, by simp [lhs, isSigned]⟩
  · rintro ⟨d, listed, both⟩
    simp only [Bool.and_eq_true, beq_iff_eq] at both
    rw [uniform c member d listed (by rw [lhs, both.1])]
    exact both.2

/-- The slots of pointer arguments are aligned, so no tag is set on them. -/
def EvenPointers (types : List Ty) (slots : List Nat) : Prop :=
  ∀ (arg : Nat) pointee addr, types[arg]? = some (.pointer pointee) → slots[arg]? = some addr → addr % 2 = 0

/-- One visit settles the argument visited, at bounds that the visit itself does
not change. -/
theorem visit_settles {P : Platform} {info : TypeInfo} {buffer : Image} {arg addr offset fuel : Nat}
    (bufferSize : Nat) (alloc : P.Allocates (places info.structs types slots))
    (laid : h.Laid (places info.structs types slots)) (slotsOk : Slots info.structs types slots h)
    (aligned : EvenPointers types slots) (numeric : type.Numeric) (sized : Sized info.structs type) (ok : ∀ c ∈ ucs, c.Admissible types)
    (uniform : ∀ c ∈ ucs, ∀ d ∈ ucs, c.lhs = d.lhs → c.signed = d.signed)
    (hasType : types[arg]? = some type) (hasSlot : slots[arg]? = some addr)
    (unread : (arg, arg) ∉ dependencies ucs) :
    Ensures (Fails info.structs fuel type) (fun r => r.2.Laid (places info.structs types slots) ∧
        Extends addr (addr + placeSize info.structs type) h r.2 ∧ Settled types slots ucs r.2 arg)
      (populateFromBuffer P info.structs buffer bufferSize fuel type offset addr
        (constraintsOf ucs (plainRhs slots) arg) h) := by
  have each : ∀ d ∈ constraintsOf ucs (plainRhs slots) arg, ∃ c ∈ ucs, c.lhs = arg ∧
      d = ⟨c.rel, plainRhs slots c, c.signed⟩ := by
    intro d member
    obtain ⟨c, listed, rfl⟩ := List.mem_map.mp member
    obtain ⟨given, lhs⟩ := List.mem_filter.mp listed
    exact ⟨c, given, by simpa using lhs, rfl⟩
  have fixed : type.lhsType.signed (signOf ucs type arg) = signOf ucs type arg := by
    unfold signOf
    cases type.lhsType <;> rfl
  have same : ∀ d ∈ constraintsOf ucs (plainRhs slots) arg,
      type.lhsType.signed d.isSigned = signOf ucs type arg := by
    intro d member
    obtain ⟨c, given, lhs, rfl⟩ := each d member
    exact sign_uniform uniform given lhs
  have readable : ∀ d ∈ constraintsOf ucs (plainRhs slots) arg,
      d.rhs.Readable h type.lhsType.copySize := by
    intro d member
    obtain ⟨c, given, rfl, rfl⟩ := each d member
    exact readable_of_slots (ok c given) hasType slotsOk
  refine Ensures.weaken (populate_settles alloc bufferSize numeric sized laid
    (slotsOk.region_at hasType hasSlot) (fun pointee same => aligned arg pointee addr (same ▸ hasType) hasSlot)
    fixed same readable) ?_
  rintro r ⟨laid', grown, v, start, is, clamped⟩
  refine ⟨laid', grown, ?_⟩
  intro type' addr' hasType' hasSlot'
  obtain rfl : type = type' := Option.some.inj (hasType.symm.trans hasType')
  obtain rfl : addr = addr' := Option.some.inj (hasSlot.symm.trans hasSlot')
  refine ⟨v, start, is, ?_⟩
  rw [clamped]
  congr 1
  refine List.map_congr_left fun d member => ?_
  obtain ⟨c, given, rfl, rfl⟩ := each d member
  refine (bound_congr (ok c given) hasType slotsOk.length fun index bitWidth addr'' rhs hasRhs hasSlot'' => ?_).symm
  have elsewhere : c.lhs ≠ index := fun same => unread (by
    have edge := mem_dependencies given rhs
    rwa [← same] at edge)
  exact slotsOk.keeps hasType hasSlot hasRhs hasSlot'' elsewhere laid' grown (le_refl (bitWidth / 8))

/-- The state of the round after some arguments: those are settled, and what
they depend on is among them. -/
structure Visited (structs : Nat → StructType) (types : List Ty) (slots : List Nat) (ucs : List UserConstraint)
    (done : List Nat) (h : Heap) : Prop where
  laid : h.Laid (places structs types slots)
  slotsOk : Slots structs types slots h
  settled : ∀ arg ∈ done, Settled types slots ucs h arg
  closed : ∀ arg ∈ done, ∀ u, (u, arg) ∈ dependencies ucs → u ∈ done

theorem Visited.next {structs : Nat → StructType} {done : List Nat} {arg addr : Nat}
    (sofar : Visited structs types slots ucs done h) (ok : ∀ c ∈ ucs, c.Admissible types)
    (fresh : arg ∉ done) (visited : ∀ u, (u, arg) ∈ dependencies ucs → u ∈ done)
    (hasType : types[arg]? = some type) (hasSlot : slots[arg]? = some addr)
    (laid : t.Laid (places structs types slots)) (grown : Extends addr (addr + placeSize structs type) h t)
    (now : Settled types slots ucs t arg) : Visited structs types slots ucs (done ++ [arg]) t := by
  refine ⟨laid, sofar.slotsOk.extends grown, ?_, ?_⟩
  · intro other listed
    rcases List.mem_append.mp listed with old | new
    · refine (sofar.settled other old).keeps sofar.slotsOk ok hasType hasSlot
        (fun same => fresh (same ▸ old)) ?_ laid grown
      exact fun edge => fresh (sofar.closed other old arg edge)
    · obtain rfl := List.mem_singleton.mp new
      exact now
  · intro other listed u edge
    rcases List.mem_append.mp listed with old | new
    · exact List.mem_append_left _ (sofar.closed other old u edge)
    · obtain rfl := List.mem_singleton.mp new
      exact List.mem_append_left _ (visited u edge)

/-- The populate round settles every argument, because each is visited after
the arguments its bounds are read from. -/
theorem populateRound_settles {P : Platform} {info : TypeInfo} {buffer : Image} {bufferSize fuel : Nat}
    (alloc : P.Allocates (places info.structs types slots))
    (laid : h.Laid (places info.structs types slots)) (slotsOk : Slots info.structs types slots h)
    (aligned : EvenPointers types slots) (numeric : ∀ type ∈ types, type.Numeric) (sized : ∀ type ∈ types, Sized info.structs type)
    (ok : ∀ c ∈ ucs, c.Admissible types)
    (uniform : ∀ c ∈ ucs, ∀ d ∈ ucs, c.lhs = d.lhs → c.signed = d.signed)
    (order : ReverseTopological (List.range types.length) (dependencies ucs)
      (P.topologicalSort types.length (dependencies ucs))) :
    Ensures (fun e => e = .noMemory ∨ ∃ type ∈ types, ¬ Supported info.structs fuel type)
      (fun r => r.2.Laid (places info.structs types slots) ∧
        ∀ arg < types.length, Settled types slots ucs r.2 arg)
      (populateRound P info.structs types
        ⟨slots, (List.range types.length).map (constraintsOf ucs (plainRhs slots)), dependencies ucs⟩
        fuel buffer bufferSize h) := by
  unfold populateRound visitInOrder
  refine Ensures.weaken (visit_ensures (I := fun done r => Visited info.structs types slots ucs done r.2)
    order List.nodup_range ⟨laid, slotsOk, by simp, by simp⟩ ?_) ?_
  · rintro done x _ _ inside fresh visited ⟨offset, t⟩ sofar
    obtain ⟨type, hasType⟩ : ∃ type, types[x]? = some type :=
      ⟨_, List.getElem?_eq_getElem (List.mem_range.mp inside)⟩
    obtain ⟨addr, hasSlot⟩ := slot_of_type slotsOk.length hasType
    have member : type ∈ types := List.mem_of_getElem? hasType
    simp only [visitArg_eq hasType hasSlot]
    refine Ensures.allow (Ensures.weaken (visit_settles bufferSize alloc sofar.laid sofar.slotsOk aligned
      (numeric _ member) (sized _ member) ok uniform hasType hasSlot
      (fun loop => fresh (visited x loop))) ?_) (fun e failed => failed.imp_right fun odd => ⟨_, member, odd⟩)
    rintro r ⟨laid', grown, now⟩
    exact sofar.next ok fresh visited hasType hasSlot laid' grown now
  · rintro r done
    refine ⟨done.laid, fun arg inside => done.settled arg ?_⟩
    exact List.mem_reverse.mpr (order.all.mem_iff.mpr (List.mem_range.mpr inside))

theorem makeRhs_plain (ok : c.Admissible types) (length : slots.length = types.length) :
    ∃ edges, makeRhs types slots h c = .ok (plainRhs slots c, edges) := by
  obtain ⟨type, hasType⟩ : ∃ type, types[c.lhs]? = some type := by
    cases found : types[c.lhs]? with
    | none => exact absurd ok.2 (by simp [found])
    | some type => exact ⟨type, rfl⟩
  rcases ok.source hasType with ⟨n, rhs⟩ | ⟨index, bitWidth, rhs, hasRhs, width⟩
  · exact ⟨[], by simp only [makeRhs, plainRhs, rhs]⟩
  · obtain ⟨addr, hasSlot⟩ := slot_of_type length hasRhs
    refine ⟨[(index, c.lhs)], ?_⟩
    simp [makeRhs, plainRhs_arg rhs hasSlot, rhs, getAt, hasRhs, hasSlot, bind, Except.bind, pure, Except.pure]

/-- A representable constant survives the passage through 64 bits and back. -/
theorem interpret_constant {isSigned : Bool} {k : Nat} {n : Int} (width : k = 1 ∨ k = 2 ∨ k = 4 ∨ k = 8)
    (fits : Representable isSigned k n) : interpret isSigned k (value (number k (n % 2 ^ 64).toNat)) = n := by
  rw [value_number]
  unfold Representable at fits
  unfold interpret
  cases isSigned with
  | false =>
    simp only [Bool.false_eq_true, if_false, Bool.false_and] at fits ⊢
    rcases width with rfl | rfl | rfl | rfl <;> omega
  | true =>
    simp only [if_true, Bool.true_and, decide_eq_true_eq] at fits ⊢
    rcases width with rfl | rfl | rfl | rfl <;> split <;> omega

/-- The relation of the user and the clamp of the code are about the same bound. -/
theorem holdsAt_iff (ok : c.Admissible types) (hasType : types[c.lhs]? = some type) (numeric : type.Numeric)
    (length : slots.length = types.length) (v : Int) :
    c.HoldsAt types slots h v ↔ (Constraint.bound h type.lhsType (type.lhsType.signed c.signed)
      ⟨c.rel, plainRhs slots c, c.signed⟩).Holds v := by
  obtain ⟨_, fits⟩ := ok
  rw [hasType] at fits
  cases type with
  | integer bitWidth =>
    cases rhs : c.rhs with
    | constant n =>
      simp only [rhs] at fits
      have width : bitWidth / 8 = 1 ∨ bitWidth / 8 = 2 ∨ bitWidth / 8 = 4 ∨ bitWidth / 8 = 8 := by
        rcases numeric with rfl | rfl | rfl | rfl <;> simp
      simp only [UserConstraint.HoldsAt, rhs, Constraint.bound, plainRhs, Rhs.bytes, Ty.lhsType,
        LhsType.copySize, LhsType.signed, interpret_constant width fits]
    | arg index =>
      simp only [rhs] at fits
      obtain ⟨addr, hasSlot⟩ := slot_of_type length fits
      simp only [UserConstraint.HoldsAt, rhs, Constraint.bound, plainRhs_arg rhs hasSlot, Rhs.bytes,
        Ty.lhsType, LhsType.copySize, LhsType.signed, argNumber, fits, hasSlot, Option.some.injEq,
        exists_eq_left']
    | recorded => simp only [rhs] at fits
  | pointer pointee =>
    obtain ⟨unsigned, fits⟩ := fits
    cases rhs : c.rhs with
    | constant n =>
      simp only [rhs] at fits
      simp only [UserConstraint.HoldsAt, rhs, Constraint.bound, plainRhs, Rhs.bytes, Ty.lhsType,
        LhsType.copySize, LhsType.signed, interpret_constant (.inr (.inr (.inl rfl))) fits]
    | arg index =>
      simp only [rhs] at fits
      obtain ⟨addr, hasSlot⟩ := slot_of_type length fits
      simp only [UserConstraint.HoldsAt, rhs, Constraint.bound, plainRhs_arg rhs hasSlot, Rhs.bytes,
        Ty.lhsType, LhsType.copySize, LhsType.signed, argNumber, fits, hasSlot, unsigned,
        Option.some.injEq, exists_eq_left']
    | recorded => simp only [rhs] at fits
  | floating | struct | array | unsupported => exact numeric.elim

theorem ArgIs.number {addr : Nat} {isSigned : Bool} {v : Int} (is : ArgIs h type addr isSigned v)
    (laid : h.Laid held) (hasType : types[arg]? = some type) (hasSlot : slots[arg]? = some addr)
    (same : type.lhsType.signed flag = isSigned) : argNumber types slots h flag arg = some v := by
  cases type with
  | integer bitWidth =>
    obtain rfl : flag = isSigned := same
    simp only [argNumber, hasType, hasSlot]
    exact congrArg some is.symm
  | pointer pointee =>
    obtain ⟨n, points, rfl⟩ := is
    simp only [argNumber, hasType, hasSlot, points.elementCount laid, Option.map_some]
    rfl
  | floating | struct | array | unsupported => exact is.elim

/-- A settled argument meets all its constraints as soon as some number does. -/
theorem Settled.holds {arg : Nat} (settled : Settled types slots ucs h arg) (laid : h.Laid held)
    (numeric : ∀ type ∈ types, type.Numeric) (ok : ∀ c ∈ ucs, c.Admissible types)
    (uniform : ∀ c ∈ ucs, ∀ d ∈ ucs, c.lhs = d.lhs → c.signed = d.signed)
    (length : slots.length = types.length) (inside : arg < types.length)
    (satisfiable : ∃ w, ∀ c ∈ ucs, c.lhs = arg → c.HoldsAt types slots h w) :
    ∀ c ∈ ucs, c.lhs = arg → ∃ v, argNumber types slots h c.signed arg = some v ∧
      c.HoldsAt types slots h v := by
  obtain ⟨type, hasType⟩ : ∃ type, types[arg]? = some type := ⟨_, List.getElem?_eq_getElem inside⟩
  obtain ⟨addr, hasSlot⟩ := slot_of_type length hasType
  have kind := numeric type (List.mem_of_getElem? hasType)
  obtain ⟨v, start, is, clamped⟩ := settled type addr hasType hasSlot
  obtain ⟨w, meets⟩ := satisfiable
  have meetsAll : ∀ b ∈ (constraintsOf ucs (plainRhs slots) arg).map
      (Constraint.bound h type.lhsType (signOf ucs type arg)), b.Holds w := by
    intro b member
    obtain ⟨d, listed, rfl⟩ := List.mem_map.mp member
    obtain ⟨c, chosen, rfl⟩ := List.mem_map.mp listed
    obtain ⟨given, lhs⟩ := List.mem_filter.mp chosen
    obtain rfl : c.lhs = arg := by simpa using lhs
    have sign : type.lhsType.signed c.signed = signOf ucs type c.lhs := sign_uniform uniform given rfl
    rw [← sign, ← holdsAt_iff (ok c given) hasType kind length]
    exact meets c given rfl
  rintro c given rfl
  have sign : type.lhsType.signed c.signed = signOf ucs type c.lhs := sign_uniform uniform given rfl
  refine ⟨v, is.number laid hasType hasSlot sign, ?_⟩
  rw [holdsAt_iff (ok c given) hasType kind length, sign, clamped]
  refine applyAll_holds meetsAll start _ (List.mem_map.mpr ⟨_, List.mem_map.mpr ⟨c, ?_, rfl⟩, rfl⟩)
  exact List.mem_filter.mpr ⟨given, by simp⟩

end Round

/-! ### The call -/

/-- After a fuzzing call of `gen_values` every argument whose constraints some
number meets at the values of the other arguments meets all of them. The call
does not return when it runs out of memory, when the call limit ends the
process, or when a type cannot be built. -/
theorem genValues_enforces_constraints {P : Platform} {info : TypeInfo} {cfg : Config} {fuel bufferSize : Nat}
    {buffer : Image} {fnName : Name} {slots : List Nat} {s : Process}
    (fuzz : shouldFuzz cfg fnName s = true)
    (alloc : P.Allocates (places info.structs (info.argTypes fnName) slots))
    (laid : s.heap.Laid (places info.structs (info.argTypes fnName) slots))
    (slotsOk : Slots info.structs (info.argTypes fnName) slots s.heap)
    (aligned : EvenPointers (info.argTypes fnName) slots)
    (numeric : ∀ type ∈ info.argTypes fnName, type.Numeric)
    (ok : ∀ c ∈ constraintsFor cfg fnName, c.Admissible (info.argTypes fnName))
    (uniform : ∀ c ∈ constraintsFor cfg fnName, ∀ d ∈ constraintsFor cfg fnName, c.lhs = d.lhs →
      c.signed = d.signed)
    (acyclic : Acyclic (dependencies (constraintsFor cfg fnName)))
    (boost : Acyclic (dependencies (constraintsFor cfg fnName)) →
      ReverseTopological (List.range (info.argTypes fnName).length) (dependencies (constraintsFor cfg fnName))
        (P.topologicalSort (info.argTypes fnName).length (dependencies (constraintsFor cfg fnName)))) :
    Ensures (fun e => e = .noMemory ∨ e = .exit ∨ ∃ type ∈ info.argTypes fnName, ¬ Supported info.structs fuel type)
      (fun t => ∀ arg < (info.argTypes fnName).length,
        (∃ w, ∀ c ∈ constraintsFor cfg fnName, c.lhs = arg → c.HoldsAt (info.argTypes fnName) slots t.heap w) →
        ∀ c ∈ constraintsFor cfg fnName, c.lhs = arg →
          ∃ v, argNumber (info.argTypes fnName) slots t.heap c.signed arg = some v ∧
            c.HoldsAt (info.argTypes fnName) slots t.heap v)
      (genValues P info cfg fuel buffer bufferSize fnName slots s) := by
  have inRange : ∀ c ∈ constraintsFor cfg fnName, c.lhs < (info.argTypes fnName).length := by
    intro c given
    by_contra outside
    have absent : (info.argTypes fnName)[c.lhs]? = none := List.getElem?_eq_none (by omega)
    have fits := (ok c given).2
    rw [absent] at fits
    exact fits
  unfold genValues
  refine ((countCall_ensures cfg fnName s).allow fun e stopped => .inr (.inl stopped)).bind ?_
  rintro t ⟨heap, _, _, record, stillFuzz⟩
  rw [fuzz] at stillFuzz
  rw [shouldFuzz_not_record fuzz] at record
  simp only [stillFuzz, record, if_true, Bool.false_eq_true, if_false, Bool.true_or, startFuzz]
  rw [heap, setupArgs_plain slotsOk.length (fun c given => (ok c given).1) inRange
    (fun c given => makeRhs_plain (ok c given) slotsOk.length)]
  simp only [ok_bind, populateArgs, bind_pure]
  refine Ensures.bind (Ensures.allow (populateRound_settles alloc laid slotsOk aligned numeric
    (info.args_sized fnName) ok uniform (boost acyclic)) fun e failed => failed.imp_right .inr) ?_
  rintro ⟨offset, u⟩ ⟨laid', settled⟩ arg inside satisfiable
  exact (settled arg inside).holds laid' numeric ok uniform slotsOk.length inside satisfiable

/-- A buffer and its length, the length between 2 and 16 and the buffer at most
that long. -/
def lengthConfig : Config where
  userTarget := ascii "f"
  userRecording := false
  recording := false
  currentTarget := none
  blacklist := []
  exitOnMaxCalls := false
  maxCalls := 5
  maxFuzz := 1
  userConstraints := [(ascii "f", [
    { lhs := 0, rel := .LE, rhs := .arg 1 }, { lhs := 1, rel := .LE, rhs := .constant 16 },
    { lhs := 0, rel := .GE, rhs := .constant 1 }, { lhs := 1, rel := .GE, rhs := .constant 2 }])]

def lengthInfo : TypeInfo where
  structs := fun _ => ⟨0, []⟩
  argTypes := fun _ => [.pointer (.integer 8), .integer 32]
  inside := noFields_inside
  separate := noFields_separate
  fields_sized := noFields_sized
  args_sized := by simp [Sized]

def lengthProcess : Process where
  inFuzz := false
  currentCalls := 0
  fuzzIdx := 0
  shadowName := none
  shadowRecurse := 0
  recordedFunctions := []
  record := ⟨fun _ => 0, 0, false, []⟩
  bufOffset := 0
  heap := ⟨fun _ => 0, fun x => decide (0x1000 ≤ x) && decide (x < 0x1010), [], []⟩

theorem genValues_enforces_lengths :
    (genValues (bumpPlatform 0x2000 [0, 1]) lengthInfo lengthConfig 3 (fun x => UInt8.ofNat (200 + x)) 8 (ascii "f")
      [0x1000, 0x1008] lengthProcess).isOk = true ∧
    Ensures (fun e => e = .noMemory ∨ e = .exit ∨
        ∃ type ∈ lengthInfo.argTypes (ascii "f"), ¬ Supported lengthInfo.structs 3 type)
      (fun t => ∀ arg < 2,
        (∃ w, ∀ c ∈ constraintsFor lengthConfig (ascii "f"), c.lhs = arg →
          c.HoldsAt (lengthInfo.argTypes (ascii "f")) [0x1000, 0x1008] t.heap w) →
        ∀ c ∈ constraintsFor lengthConfig (ascii "f"), c.lhs = arg →
          ∃ v, argNumber (lengthInfo.argTypes (ascii "f")) [0x1000, 0x1008] t.heap c.signed arg = some v ∧
            c.HoldsAt (lengthInfo.argTypes (ascii "f")) [0x1000, 0x1008] t.heap v)
      (genValues (bumpPlatform 0x2000 [0, 1]) lengthInfo lengthConfig 3 (fun x => UInt8.ofNat (200 + x)) 8 (ascii "f")
        [0x1000, 0x1008] lengthProcess) := by
  have listed : constraintsFor lengthConfig (ascii "f") = [
      { lhs := 0, rel := .LE, rhs := .arg 1 }, { lhs := 1, rel := .LE, rhs := .constant 16 },
      { lhs := 0, rel := .GE, rhs := .constant 1 }, { lhs := 1, rel := .GE, rhs := .constant 2 }] := by
    decide
  have held : places lengthInfo.structs (lengthInfo.argTypes (ascii "f")) [0x1000, 0x1008] =
      [(0x1000, 8), (0x1008, 4)] := rfl
  have slotsOk : Slots lengthInfo.structs (lengthInfo.argTypes (ascii "f")) [0x1000, 0x1008]
      lengthProcess.heap := by
    refine ⟨rfl, by simp [held, Apart], ?_⟩
    intro place member
    rw [held] at member
    refine ⟨?_, fun x lower upper => ?_⟩
    · fin_cases member <;> norm_num
    · fin_cases member <;> simp only [lengthProcess, Bool.and_eq_true, decide_eq_true_eq] at * <;> omega
  have aligned : EvenPointers (lengthInfo.argTypes (ascii "f")) [0x1000, 0x1008] := by
    rintro (_ | _ | arg) pointee addr hasType hasSlot
    · cases hasSlot
      rfl
    · cases hasType
    · cases hasSlot
  refine ⟨by decide +kernel, genValues_enforces_constraints (by decide +kernel) (bump_allocates rfl ?_)
    (.of_empty rfl) slotsOk aligned ?_ ?_ ?_ (acyclic_of_rank (fun arg => 1 - arg) ?_) fun _ => ⟨?_, ?_⟩⟩
  · rw [held]
    decide
  · simp [lengthInfo, Ty.Numeric]
  · rw [listed]
    simp [UserConstraint.Admissible, UserConstraint.Plain, lengthInfo, Representable]
  · rw [listed]
    decide
  · rw [listed]
    decide
  · decide
  · rw [listed]
    decide

end AflLive.Libgen
