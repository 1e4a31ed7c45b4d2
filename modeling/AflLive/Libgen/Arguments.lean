import AflLive.Libgen.GenValues
import AflLive.Library.Topological

/-! The argument slots of a harnessed call, what the set-up loop makes of plain
constraints, and the frame between the visits of different arguments. -/
namespace AflLive.Libgen
open Bytes Control Topological

/-- Bytes the slot of an argument takes; a type without a size takes none. -/
def placeSize (structs : Nat → StructType) (type : Ty) : Nat :=
  match getSize structs type with
  | .ok size => size
  | .error _ => 0

def places (structs : Nat → StructType) (types : List Ty) (slots : List Nat) : List (Nat × Nat) :=
  List.zipWith (fun type addr => (addr, placeSize structs type)) types slots

/-- The stack slots the prologue of a harnessed function passes: separate and
writable. -/
structure Slots (structs : Nat → StructType) (types : List Ty) (slots : List Nat) (h : Heap) : Prop where
  length : slots.length = types.length
  apart : (places structs types slots).Pairwise fun a b => Apart a.1 a.2 b.1 b.2
  region : ∀ place ∈ places structs types slots, h.Region place.1 (place.1 + place.2)

section Slots
variable {structs : Nat → StructType} {types : List Ty} {slots : List Nat} {h t : Heap} {i j : Nat}
  {type other : Ty} {addr addr' : Nat}

theorem placeSize_eq (known : getSize structs type = .ok size) : placeSize structs type = size := by
  simp only [placeSize, known]

theorem places_get (hasType : types[i]? = some type) (hasSlot : slots[i]? = some addr) :
    (places structs types slots)[i]? = some (addr, placeSize structs type) := by
  simp [places, List.getElem?_zipWith, hasType, hasSlot]

theorem Slots.extends (slotsOk : Slots structs types slots h) (grown : Extends lo hi h t) :
    Slots structs types slots t :=
  ⟨slotsOk.length, slotsOk.apart, fun place member => grown.region (slotsOk.region place member)⟩

theorem Slots.region_at (slotsOk : Slots structs types slots h) (hasType : types[i]? = some type)
    (hasSlot : slots[i]? = some addr) : h.Region addr (addr + placeSize structs type) :=
  slotsOk.region _ (List.mem_of_getElem? (places_get hasType hasSlot))

theorem Slots.apart_at (slotsOk : Slots structs types slots h) (hasType : types[i]? = some type)
    (hasSlot : slots[i]? = some addr) (hasType' : types[j]? = some other) (hasSlot' : slots[j]? = some addr')
    (different : i ≠ j) : Apart addr (placeSize structs type) addr' (placeSize structs other) := by
  have first : (places structs types slots)[i]? = _ := places_get hasType hasSlot
  have second : (places structs types slots)[j]? = _ := places_get hasType' hasSlot'
  rw [List.getElem?_eq_some_iff] at first second
  obtain ⟨inside, atFirst⟩ := first
  obtain ⟨inside', atSecond⟩ := second
  have every := List.pairwise_iff_getElem.mp slotsOk.apart
  rcases Nat.lt_or_gt_of_ne different with before | behind
  · have result := every i j inside inside' before
    rwa [atFirst, atSecond] at result
  · have result := every j i inside' inside behind
    rw [atFirst, atSecond] at result
    exact result.symm

/-- Visiting one argument keeps what the slot of another one holds. -/
theorem Slots.keeps (slotsOk : Slots structs types slots h) (hasType : types[i]? = some type)
    (hasSlot : slots[i]? = some addr) (hasType' : types[j]? = some other) (hasSlot' : slots[j]? = some addr')
    (different : i ≠ j) (laid : t.Laid (places structs types slots))
    (grown : Extends addr (addr + placeSize structs type) h t) (fits : n ≤ placeSize structs other) :
    t.bytes.peek addr' n = h.bytes.peek addr' n := by
  have apart := slotsOk.apart_at hasType hasSlot hasType' hasSlot' different
  have held : (addr', placeSize structs other) ∈ places structs types slots :=
    List.mem_of_getElem? (places_get hasType' hasSlot')
  obtain ⟨_, new, blocks, kept⟩ := grown
  refine Image.peek_congr fun x lower upper => kept x ?_ ?_
  · rcases apart with left | right <;> omega
  · intro b member
    have away := laid.reserved b (by rw [blocks]; exact List.mem_append_left _ member) _ held
    rcases away with left | right
    · simp only at left
      omega
    · simp only at right
      omega

end Slots

/-! ### The set-up loop on plain constraints -/

/-- No tag is set on the address of the left-hand side. -/
def UserConstraint.Plain (c : UserConstraint) : Prop := c.isFile = false ∧ c.deref = false

/-- The constraints of one argument in the order they are listed. -/
def constraintsOf (ucs : List UserConstraint) (rhsOf : UserConstraint → Rhs) (arg : Nat) : List Constraint :=
  (ucs.filter (·.lhs == arg)).map fun c => ⟨c.rel, rhsOf c, c.signed⟩

/-- The edges the set-up adds to the dependency graph. -/
def dependencies (ucs : List UserConstraint) : List (Nat × Nat) :=
  ucs.filterMap fun c => match c.rhs with
    | .arg index => some (index, c.lhs)
    | _ => none

theorem makeRhs_edges {types : List Ty} {slots : List Nat} {h : Heap} {c : UserConstraint} {rhs : Rhs}
    {edges : List (Nat × Nat)} (made : makeRhs types slots h c = .ok (rhs, edges)) :
    edges = dependencies [c] := by
  unfold makeRhs at made
  cases kind : c.rhs with
  | arg index =>
    simp only [kind, bind_eq_ok] at made
    obtain ⟨_, _, _, _, same⟩ := made
    cases same
    simp [dependencies, kind]
  | recorded =>
    simp only [kind, bind_eq_ok] at made
    obtain ⟨_, _, _, _, _, _, same⟩ := made
    cases same
    simp [dependencies, kind]
  | constant n =>
    simp only [kind] at made
    cases made
    simp [dependencies, kind]

theorem constraintsOf_append_get {ucs : List UserConstraint} {rhsOf : UserConstraint → Rhs} {n : Nat}
    (c : UserConstraint) :
    (List.range n).map (constraintsOf (ucs ++ [c]) rhsOf) =
      ((List.range n).map (constraintsOf ucs rhsOf)).set c.lhs
        (constraintsOf ucs rhsOf c.lhs ++ [⟨c.rel, rhsOf c, c.signed⟩]) := by
  apply List.ext_getElem?
  intro i
  rw [List.getElem?_set]
  by_cases here : c.lhs = i
  · subst here
    by_cases inside : c.lhs < n
    · simp [inside, constraintsOf]
    · simp [inside]
  · by_cases inside : i < n
    · simp [inside, here, constraintsOf]
    · simp [inside, here]

/-- Plain constraints leave the addresses alone, are collected per left-hand
side in their listed order, and add their edges in that order. -/
theorem setupArgs_plain {types : List Ty} {slots : List Nat} {ucs : List UserConstraint} {h : Heap}
    {rhsOf : UserConstraint → Rhs} (length : slots.length = types.length)
    (plain : ∀ c ∈ ucs, c.Plain) (inRange : ∀ c ∈ ucs, c.lhs < types.length)
    (made : ∀ c ∈ ucs, ∃ edges, makeRhs types slots h c = .ok (rhsOf c, edges)) :
    setupArgs types slots ucs h =
      .ok ⟨slots, (List.range types.length).map (constraintsOf ucs rhsOf), dependencies ucs⟩ := by
  unfold setupArgs
  rw [if_neg (by omega), List.take_of_length_le (by omega)]
  refine Ensures.eq_ok (foldlM_ensures (I := fun done s => s = Setup.mk slots
    ((List.range types.length).map (constraintsOf done rhsOf)) (dependencies done)) ucs ?_ ?_)
  · have none : constraintsOf [] rhsOf = fun _ => [] := rfl
    simp only [none, dependencies, List.map_const', List.length_range, List.filterMap_nil]
  · rintro done c rest split _ rfl
    have member : c ∈ ucs := by simp [split]
    have inside := inRange c member
    obtain ⟨edges, rhs⟩ := made c member
    obtain ⟨file, deref⟩ := plain c member
    have adr : getAt slots c.lhs = .ok slots[c.lhs] := by
      simp [getAt, List.getElem?_eq_getElem (show c.lhs < slots.length by omega)]
    have old : getAt ((List.range types.length).map (constraintsOf done rhsOf)) c.lhs =
        .ok (constraintsOf done rhsOf c.lhs) := by
      simp [getAt, inside]
    have joined : dependencies (done ++ [c]) = dependencies done ++ edges := by
      rw [makeRhs_edges rhs]
      simp [dependencies]
    simp only [addConstraint, adr, file, deref, rhs, old, bind, Except.bind, pure, Except.pure, joined,
      constraintsOf_append_get, Bool.false_eq_true, if_false]
    exact rfl

theorem slot_of_type {types : List Ty} {slots : List Nat} {type : Ty} {arg : Nat}
    (length : slots.length = types.length) (hasType : types[arg]? = some type) :
    ∃ addr, slots[arg]? = some addr := by
  obtain ⟨inside, _⟩ := List.getElem?_eq_some_iff.mp hasType
  exact ⟨slots[arg], List.getElem?_eq_getElem _⟩

theorem mem_dependencies {ucs : List UserConstraint} {c : UserConstraint} {index : Nat} (member : c ∈ ucs)
    (rhs : c.rhs = .arg index) :
    (index, c.lhs) ∈ dependencies ucs :=
  List.mem_filterMap.mpr ⟨c, member, by simp only [rhs]⟩

theorem visitArg_eq {types : List Ty} {slots : List Nat} {type : Ty} {arg addr : Nat}
    {f : Nat → List Constraint} {edges : List (Nat × Nat)}
    (hasType : types[arg]? = some type) (hasSlot : slots[arg]? = some addr) :
    visitArg types ⟨slots, (List.range types.length).map f, edges⟩ arg = .ok (type, addr, f arg) := by
  obtain ⟨inside, same⟩ := List.getElem?_eq_some_iff.mp hasType
  simp [visitArg, getAt, hasSlot, inside, same, bind, Except.bind, pure, Except.pure]

end AflLive.Libgen
