import AflLive.Libgen.Faults
import AflLive.Library.Recursion

/-! Termination of `serializeToBuffer`. Which places of the host's memory are visited does not
depend on the record written so far, so a recording is a walk over places, and it ends when no
place is entered again while it is being visited. -/
namespace AflLive.Libgen
open Bytes Control Recursion Relation

/-- One call of `serializeToBuffer`. -/
structure Place where
  type : Ty
  addr : Nat
  cs : List Constraint
deriving DecidableEq

/-- The calls of `serializeToBuffer`, without what it writes. -/
def serializeCalls (P : Platform) (structs : Nat → StructType) (h : Heap) (p : Place) : Proc Fault Place Unit Unit :=
  match p.type with
  | .unsupported => .done (.error .nullType)
  | .integer bitWidth => .done ((serializeScalar h p.addr (bitWidth / 8) ⟨fun _ => 0, 0, false, []⟩).map fun _ => ())
  | .floating bitWidth => .done ((serializeScalar h p.addr (bitWidth / 8) ⟨fun _ => 0, 0, false, []⟩).map fun _ => ())
  | .struct name => (structs name).fields.foldlM (fun _ field => .ask ⟨field.1, p.addr + field.2, []⟩) ()
  | .array elem numElems =>
    .forTo (fun i _ => do
      let size ← .done (getSize structs elem)
      .ask ⟨elem, p.addr + i * size % 2 ^ 32, []⟩) numElems ()
  | .pointer pointee =>
    if isFile p.addr then .done ((serializeFile P h (untag p.addr) ⟨fun _ => 0, 0, false, []⟩).map fun _ => ())
    else do
      let numElems ← .done (recordedLength h pointee (untag p.addr) (isDeref p.addr) p.cs)
      let pointeeSize ← .done (getSize structs pointee)
      let stored ← .done (h.load (untag p.addr) 8)
      .forTo (fun i _ => .ask ⟨pointee, value stored + i * pointeeSize, if isDeref p.addr then p.cs else []⟩)
        numElems ()

section Walk
variable {P : Platform} {structs : Nat → StructType} {h : Heap}

theorem serializeScalar_shape (addr size : Nat) (r s : Recording) :
    (serializeScalar h addr size r).map (fun _ => ()) = (serializeScalar h addr size s).map fun _ => () := by
  unfold serializeScalar
  cases h.load addr size <;> rfl

theorem serializeFile_shape (slot : Nat) (r s : Recording) :
    (serializeFile P h slot r).map (fun _ => ()) = (serializeFile P h slot s).map fun _ => () := by
  unfold serializeFile
  cases h.load slot 8 with
  | error e => rfl
  | ok stored =>
    simp only [ok_bind]
    cases (pathAt h 4096 (value stored)).bind P.files <;> rfl

/-- A recording makes the calls of the walk, whatever has been recorded before. -/
theorem serializeToBuffer_walk (fuel : Nat) (type : Ty) (addr : Nat) (cs : List Constraint) (r : Recording) :
    (serializeToBuffer P structs h fuel type addr cs r).map (fun _ => ()) =
      eval .fuel (serializeCalls P structs h) fuel ⟨type, addr, cs⟩ := by
  induction fuel generalizing type addr cs r with
  | zero => rfl
  | succ fuel ih =>
    rw [eval, serializeCalls]
    cases type with
    | unsupported => rfl
    | integer bitWidth | floating bitWidth => exact serializeScalar_shape _ _ _ _
    | struct name =>
      simp only [Proc.run_foldlM, Proc.run_ask]
      exact foldlM_map _ r fun t field => ih _ _ _ t
    | array elem numElems =>
      simp only [Proc.run_forTo, Proc.run_bind, Proc.run_done, Proc.run_ask]
      refine forTo_map numElems r fun i t => ?_
      cases getSize structs elem with
      | error e => rfl
      | ok size => exact ih _ _ _ t
    | pointer pointee =>
      simp only [serializeToBuffer]
      split
      · exact serializeFile_shape _ _ _
      · simp only [Proc.run_forTo, Proc.run_bind, Proc.run_done, Proc.run_ask]
        cases recordedLength h pointee (untag addr) (isDeref addr) cs with
        | error e => rfl
        | ok numElems =>
          cases getSize structs pointee with
          | error e => rfl
          | ok pointeeSize =>
            cases h.load (untag addr) 8 with
            | error e => rfl
            | ok stored => exact forTo_map numElems _ fun i t => ih _ _ _ t

end Walk

/-! ### Nested places -/

/-- The places a visit leads to. -/
inductive Nested (structs : Nat → StructType) (h : Heap) : Place → Place → Prop where
  | field {name addr cs field} (member : field ∈ (structs name).fields) :
      Nested structs h ⟨.struct name, addr, cs⟩ ⟨field.1, addr + field.2, []⟩
  | element {elem numElems addr cs i size} (inside : i < numElems) (known : getSize structs elem = .ok size) :
      Nested structs h ⟨.array elem numElems, addr, cs⟩ ⟨elem, addr + i * size % 2 ^ 32, []⟩
  | pointee {pointee addr cs numElems i size stored}
      (counted : recordedLength h pointee (untag addr) (isDeref addr) cs = .ok numElems) (inside : i < numElems) (known : getSize structs pointee = .ok size)
      (loaded : h.load (untag addr) 8 = .ok stored) :
      Nested structs h ⟨.pointer pointee, addr, cs⟩
        ⟨pointee, value stored + i * size, if isDeref addr then cs else []⟩

section Walk
variable {P : Platform} {structs : Nat → StructType} {h : Heap}

theorem serializeCalls_spec (p : Place) :
    (serializeCalls P structs h p).Spec (Nested structs h p) (fun _ _ => True) (RecordFault structs h p.type)
      (fun _ => True) := by
  obtain ⟨type, addr, cs⟩ := p
  rw [serializeCalls]
  cases type with
  | unsupported => exact .inr (.inr ⟨rfl, .own not_false, rfl⟩)
  | integer bitWidth | floating bitWidth => exact ((serializeScalar_faults _ _ _).allow fun _ => .inl).map
  | struct name =>
    exact Proc.Spec.foldlM trivial fun field member _ _ => .ask (.field member) fun _ _ => trivial
  | array elem numElems =>
    refine Proc.Spec.forTo (I := fun _ _ => True) numElems trivial fun i inside _ _ => ?_
    have size : Ensures (RecordFault structs h (.array elem numElems)) (fun _ => True) (getSize structs elem) :=
      (getSize_faults elem).allow fun e fault => .inr (.inr ⟨fault.1, .sizelessElement (by omega) fault.2, rfl⟩)
    refine Proc.Spec.bind size.known fun size known => ?_
    exact .ask (.element inside known) fun _ _ => trivial
  | pointer pointee =>
    simp only
    split
    · exact ((serializeFile_faults _ _).allow fun _ => .inl).map
    · have length := (recordedLength_faults (h := h) pointee (untag addr) (isDeref addr) cs).allow fun e fault =>
        (fault.imp_right .inl : RecordFault structs h (.pointer pointee) e)
      have size : Ensures (RecordFault structs h (.pointer pointee)) (fun _ => True) (getSize structs pointee) :=
        (getSize_faults pointee).allow fun e fault => .inr (.inr ⟨fault.1, .sizelessPointee fault.2, rfl⟩)
      refine Proc.Spec.bind length.known fun numElems counted => ?_
      refine Proc.Spec.bind size.known fun size known => ?_
      refine Proc.Spec.bind ((load_faults (untag addr) 8).allow fun _ => .inl).known fun stored loaded => ?_
      refine Proc.Spec.forTo (I := fun _ _ => True) numElems trivial fun i inside _ _ => ?_
      exact .ask (.pointee counted inside known loaded) fun _ _ => trivial

theorem calls_nested {p q : Place} (calls : Calls .fuel (serializeCalls P structs h) p q) : Nested structs h p q :=
  (serializeCalls_spec p).asked calls fun _ _ _ _ => trivial

theorem serializeCalls_settles : Settles .fuel (serializeCalls P structs h) :=
  fun p => (serializeCalls_spec p).mono (fun _ _ => trivial) (fun _ fault => fault.ne_fuel) fun _ _ => trivial

/-- A recording ends, in a result or in a fault of its own, when the walk does. -/
theorem serializeToBuffer_ends_iff {type : Ty} {addr : Nat} {cs : List Constraint} (r : Recording) :
    (∃ fuel, serializeToBuffer P structs h fuel type addr cs r ≠ .error .fuel) ↔
      Acc (fun q p => Calls .fuel (serializeCalls P structs h) p q) ⟨type, addr, cs⟩ := by
  rw [← terminates_iff_acc serializeCalls_settles]
  refine exists_congr fun fuel => not_congr ?_
  rw [← serializeToBuffer_walk fuel type addr cs r]
  cases serializeToBuffer P structs h fuel type addr cs r <;> simp [Except.map]

end Walk

/-! ### Finitely many places -/

/-- How deep a value of the type is nested; a pointer ends the nesting. -/
def valueRank (rank : Nat → Nat) : Ty → Nat
  | .struct name => rank name
  | .array elem _ => valueRank rank elem + 1
  | _ => 0

/-- No struct contains itself other than behind a pointer. -/
def Layered (structs : Nat → StructType) (rank : Nat → Nat) : Prop :=
  ∀ name, ∀ field ∈ (structs name).fields, valueRank rank field.1 < rank name

section Finite
variable {P : Platform} {structs : Nat → StructType} {h : Heap} {p q : Place}

theorem Nested.component (nested : Nested structs h p q) : Component structs p.type q.type := by
  cases nested with
  | field member => exact .field member
  | element => exact .element
  | pointee => exact .pointee

theorem reached_within (reached : ReflTransGen (Calls .fuel (serializeCalls P structs h)) p q) :
    ReflTransGen (Component structs) p.type q.type ∧ (q.cs = p.cs ∨ q.cs = []) := by
  induction reached with
  | refl => exact ⟨.refl, .inl rfl⟩
  | tail _ calls ih =>
    have nested := calls_nested calls
    refine ⟨ih.1.tail nested.component, ?_⟩
    cases nested with
    | field | element => exact .inr rfl
    | pointee =>
      split
      · exact ih.2
      · exact .inr rfl

/-- Nesting by value. -/
def Inside (structs : Nat → StructType) (h : Heap) (p q : Place) : Prop :=
  Nested structs h p q ∧ ∀ pointee, p.type ≠ .pointer pointee

/-- The size of a type that has one. -/
def knownSize (structs : Nat → StructType) (type : Ty) : Nat := (getSize structs type).toOption.getD 0

theorem knownSize_eq {type : Ty} {size : Nat} (known : getSize structs type = .ok size) :
    knownSize structs type = size := by
  rw [knownSize, known]
  rfl

theorem inside_finite (p : Place) : {q | Inside structs h p q}.Finite := by
  obtain ⟨type, addr, cs⟩ := p
  have fields (name : Nat) : (Set.image (fun field : Ty × Nat => Place.mk field.1 (addr + field.2) [])
      {field | field ∈ (structs name).fields}).Finite := (List.finite_toSet _).image _
  have elements (elem : Ty) (numElems : Nat) : (Set.image (fun i => Place.mk elem
      (addr + i * knownSize structs elem % 2 ^ 32) []) (Set.Iio numElems)).Finite := (Set.finite_Iio _).image _
  cases type with
  | struct name =>
    refine (fields name).subset ?_
    rintro q ⟨nested, -⟩
    cases nested with
    | field member => exact ⟨_, member, rfl⟩
  | array elem numElems =>
    refine (elements elem numElems).subset ?_
    rintro q ⟨nested, -⟩
    cases nested with
    | element inside known => exact ⟨_, inside, by rw [knownSize_eq known]⟩
  | integer | floating | unsupported =>
    refine Set.finite_empty.subset ?_
    rintro q ⟨nested, -⟩
    cases nested
  | pointer pointee =>
    refine Set.finite_empty.subset ?_
    rintro q ⟨-, other⟩
    exact other pointee rfl

theorem Inside.down {rank : Nat → Nat} (layered : Layered structs rank) (inside : Inside structs h p q) :
    valueRank rank q.type < valueRank rank p.type := by
  obtain ⟨nested, other⟩ := inside
  cases nested with
  | field member => exact layered _ _ member
  | element => exact Nat.lt_succ_self _
  | pointee => exact absurd rfl (other _)

/-- A finite memory holds finitely many pointers, so a walk comes to finitely many places. -/
theorem reached_finite {rank : Nat → Nat} (memory : {x | h.mapped x = true}.Finite)
    (graph : {type | ReflTransGen (Component structs) p.type type}.Finite) (layered : Layered structs rank) :
    {q | ReflTransGen (Calls .fuel (serializeCalls P structs h)) p q}.Finite := by
  have targets := ((memory.prod ((Set.finite_Iio (2 ^ 32)).prod graph)).prod
    (Set.toFinite ({p.cs, []} : Set (List Constraint)))).image fun x : (Nat × Nat × Ty) × List Constraint =>
      Place.mk x.1.2.2 (value (h.bytes.peek x.1.1 8) + x.1.2.1 * knownSize structs x.1.2.2) x.2
  refine finite_reached (inside_finite (h := h)) (fun q => valueRank rank q.type)
    (fun _ _ inside => Inside.down layered inside) targets ?_
  intro d reached e calls
  have nested := calls_nested calls
  have within := reached_within (reached.tail calls)
  cases nested with
  | field member => exact .inl ⟨.field member, nofun⟩
  | element inside known => exact .inl ⟨.element inside known, nofun⟩
  | @pointee pointee addr cs numElems i size stored counted inside known loaded =>
    obtain ⟨readable, rfl⟩ := Heap.load_eq_ok.mp loaded
    have mapped : h.mapped (untag addr) = true := Heap.readable_iff.mp readable _ le_rfl (by omega)
    have short := recordedLength_lt counted
    refine .inr ⟨⟨⟨untag addr, i, pointee⟩, _⟩, ⟨⟨mapped, ?_, within.1⟩, within.2⟩, ?_⟩
    · exact lt_trans inside short
    · simp only [knownSize_eq known]

/-- For every finite host memory and every finite type graph, recursive through pointers or not: a
recording ends exactly when no place is visited again from within its own visit. -/
theorem serializeToBuffer_finishes_iff {type : Ty} {addr : Nat} {cs : List Constraint} {rank : Nat → Nat}
    (memory : {x | h.mapped x = true}.Finite)
    (graph : {part | ReflTransGen (Component structs) type part}.Finite) (layered : Layered structs rank)
    (r : Recording) :
    (∃ fuel, serializeToBuffer P structs h fuel type addr cs r ≠ .error .fuel) ↔
      ∀ q, ReflTransGen (Calls .fuel (serializeCalls P structs h)) ⟨type, addr, cs⟩ q →
        ¬ TransGen (Calls .fuel (serializeCalls P structs h)) q q := by
  rw [serializeToBuffer_ends_iff r]
  exact acc_iff_acyclic (reached_finite memory graph layered)

end Finite

/-- `struct node { struct node *next; }` -/
def listStructs (_ : Nat) : StructType := ⟨8, [(.pointer (.struct 0), 0)]⟩

theorem listStructs_layered : Layered listStructs fun _ => 1 := by
  intro name field member
  obtain rfl := List.mem_singleton.mp member
  exact Nat.one_pos

/-- An argument slot at 0x1000 that points to one node at 0x3000. -/
def listHost (next : Nat) : Heap where
  bytes := ((Image.poke (fun _ => 0) 0x1000 (number 8 0x3000)).poke 0x3000 (number 8 next))
  mapped := fun x => (decide (0x1000 ≤ x) && decide (x < 0x1008)) || (decide (0x3000 ≤ x) && decide (x < 0x3008))
  blocks := []
  file := []

theorem listHost_finite (next : Nat) : {x | (listHost next).mapped x = true}.Finite := by
  refine (Set.finite_Iio 0x3008).subset fun x mapped => ?_
  simp only [listHost, Set.mem_ofPred_eq, Bool.or_eq_true, Bool.and_eq_true, decide_eq_true_eq] at mapped
  simp only [Set.mem_Iio]
  omega

theorem list_types_finite : {part | ReflTransGen (Component listStructs) (.pointer (.struct 0)) part}.Finite := by
  refine (Set.toFinite {.pointer (.struct 0), .struct 0}).subset fun part reached => ?_
  induction reached with
  | refl => exact .inl rfl
  | tail _ component ih =>
    rcases ih with rfl | rfl
    · cases component
      exact .inr rfl
    · cases component with
      | field member =>
        obtain rfl := List.mem_singleton.mp member
        exact .inl rfl

/-- A list of one node is recorded, and comes to no place twice. -/
theorem list_walk_acyclic :
    (serializeToBuffer (bumpPlatform 0 []) listStructs (listHost 0) 5 (.pointer (.struct 0)) 0x1000 []
      ⟨fun _ => 0, 0, false, []⟩).isOk = true ∧
    ∀ q, ReflTransGen (Calls .fuel (serializeCalls (bumpPlatform 0 []) listStructs (listHost 0)))
        ⟨.pointer (.struct 0), 0x1000, []⟩ q →
      ¬ TransGen (Calls .fuel (serializeCalls (bumpPlatform 0 []) listStructs (listHost 0))) q q := by
  have returns : (serializeToBuffer (bumpPlatform 0 []) listStructs (listHost 0) 5 (.pointer (.struct 0)) 0x1000 []
      ⟨fun _ => 0, 0, false, []⟩).isOk = true := by decide +kernel
  refine ⟨returns, (serializeToBuffer_finishes_iff (listHost_finite 0) list_types_finite listStructs_layered
    ⟨fun _ => 0, 0, false, []⟩).mp ⟨5, fun missing => ?_⟩⟩
  rw [missing] at returns
  cases returns

/-- Both the argument and the node point to the node. -/
theorem circular_pointer {slot : Nat} (known : slot = 0x1000 ∨ slot = 0x3000) (fuel : Nat) (r : Recording) :
    serializeToBuffer (bumpPlatform 0 []) listStructs (listHost 0x3000) (fuel + 1) (.pointer (.struct 0)) slot [] r =
      serializeToBuffer (bumpPlatform 0 []) listStructs (listHost 0x3000) fuel (.struct 0) 0x3000 []
        (r.emit (number 4 1)) := by
  have stored : (listHost 0x3000).load slot 8 = .ok (number 8 0x3000) := by rcases known with rfl | rfl <;> decide +kernel
  have one : recordedLength (listHost 0x3000) (.struct 0) slot false [] = .ok 1 := by
    rcases known with rfl | rfl <;> decide +kernel
  have plain : isFile slot = false ∧ isDeref slot = false ∧ untag slot = slot := by
    rcases known with rfl | rfl <;> decide
  simp only [serializeToBuffer, plain, one, stored, Bool.false_eq_true, if_false, ok_bind, getSize, forTo_one]
  rfl

theorem circular_node (fuel : Nat) (r : Recording) :
    serializeToBuffer (bumpPlatform 0 []) listStructs (listHost 0x3000) (fuel + 1) (.struct 0) 0x3000 [] r =
      serializeToBuffer (bumpPlatform 0 []) listStructs (listHost 0x3000) fuel (.pointer (.struct 0)) 0x3000 [] r := by
  simp only [serializeToBuffer, listStructs, List.foldlM_cons, List.foldlM_nil]
  cases serializeToBuffer (bumpPlatform 0 []) listStructs (listHost 0x3000) fuel (.pointer (.struct 0)) 0x3000 [] r <;>
    rfl

/-- A node that is its own successor is recorded for ever. -/
theorem circular_list_recorded_forever :
    {x | (listHost 0x3000).mapped x = true}.Finite ∧ ∀ fuel r,
      serializeToBuffer (bumpPlatform 0 []) listStructs (listHost 0x3000) fuel (.pointer (.struct 0)) 0x1000 [] r =
        .error .fuel := by
  have every : ∀ fuel slot r, slot = 0x1000 ∨ slot = 0x3000 → serializeToBuffer (bumpPlatform 0 []) listStructs
      (listHost 0x3000) fuel (.pointer (.struct 0)) slot [] r = .error .fuel := by
    intro fuel
    induction fuel using Nat.twoStepInduction with
    | zero => exact fun _ _ _ => rfl
    | one =>
      intro slot r known
      rw [circular_pointer known]
      rfl
    | more fuel ih _ =>
      intro slot r known
      rw [circular_pointer known, circular_node]
      exact ih _ _ (.inr rfl)
  exact ⟨listHost_finite _, fun fuel r => every fuel _ r (.inl rfl)⟩

end AflLive.Libgen
