import AflLive.Libgen.Types
import AflLive.Instrumentation.TypeInfo

/-! `make_type`: the objects libgen builds from the entries of the typeinfo file. -/
namespace AflLive.Libgen
open Instrumentation (TypeData Types)

/-- A `shared_ptr<Type>`, null or the position of its object. -/
abbrev TypeRef := Option Nat

inductive Object where
  | integer (bitWidth : Nat)
  | floating (bitWidth : Nat)
  | pointer (pointee : TypeRef)
  | struct (size : Nat) (fields : List (TypeRef × Nat))
  | array (elem : TypeRef) (numElems : Nat)
deriving DecidableEq

/-- `knownTypes`, the last entry of a name first, and the objects made so far. -/
structure Objects where
  knownTypes : List (Nat × TypeRef) := []
  objects : List Object := []
deriving DecidableEq

namespace Objects

/-- A new object for a name. -/
def make (s : Objects) (name : Nat) (object : Object) : TypeRef × Objects :=
  (some s.objects.length,
    { knownTypes := (name, some s.objects.length) :: s.knownTypes, objects := s.objects ++ [object] })

/-- `StructType::addField`. -/
def addField (s : Objects) (id : Nat) (t : TypeRef) (offset : Nat) : Objects :=
  { s with objects := s.objects.modify id fun
    | .struct size fields => .struct size (fields ++ [(t, offset)])
    | object => object }

end Objects

/-- The loop over the fields of a struct. -/
def addFields (make : Nat → Objects → Except Fault (TypeRef × Objects)) (id : Nat) :
    List (Nat × Nat) → Objects → Except Fault Objects
  | [], s => .ok s
  | (fieldType, offset) :: rest, s => do
    let (t, s) ← make fieldType s
    addFields make id rest (s.addField id t (offset % 2 ^ 32))

/-- `make_type`. Its numbers are `unsigned`, those of the file are not. -/
def makeType (types : Types) : Nat → Nat → Objects → Except Fault (TypeRef × Objects)
  | 0, _, _ => .error .fuel
  | fuel + 1, name, s =>
    match s.knownTypes.lookup name with
    | some t => .ok (t, s)
    | none =>
      match types.lookup name with
      | some (.integer bitWidth) => .ok (s.make name (.integer (bitWidth % 2 ^ 32)))
      | some (.floating bitWidth) => .ok (s.make name (.floating (bitWidth % 2 ^ 32)))
      | some (.pointer pointeeType) => do
        let (t, s) ← makeType types fuel pointeeType s
        return s.make name (.pointer t)
      | some (.struct fields size) => do
        let id := s.objects.length
        let (t, s) := s.make name (.struct (size % 2 ^ 32) [])
        let s ← addFields (makeType types fuel) id fields s
        return (t, s)
      | some (.array elementType length) => do
        let (t, s) ← makeType types fuel elementType s
        return s.make name (.array t (length % 2 ^ 32))
      | some .unsupported => .ok (none, { s with knownTypes := (name, none) :: s.knownTypes })
      | some .placeholder | none => .error .abort

/-- The reference belongs to the name, by the names the objects were made for. -/
def RefFor (types : Types) (labels : List Nat) : TypeRef → Nat → Prop
  | some id, n => labels[id]? = some n
  | none, n => types.lookup n = some .unsupported

/-- The object is the one the file describes, up to the width of its numbers. -/
inductive Represents (types : Types) (labels : List Nat) : Object → Nat → Prop where
  | integer : types.lookup n = some (.integer w) → Represents types labels (.integer (w % 2 ^ 32)) n
  | floating : types.lookup n = some (.floating w) → Represents types labels (.floating (w % 2 ^ 32)) n
  | pointer : types.lookup n = some (.pointer m) → RefFor types labels t m → Represents types labels (.pointer t) n
  | struct : types.lookup n = some (.struct described size) →
      List.Forall₂ (fun field part => RefFor types labels field.1 part.1 ∧ field.2 = part.2 % 2 ^ 32) fields described →
      Represents types labels (.struct (size % 2 ^ 32) fields) n
  | array : types.lookup n = some (.array m length) → RefFor types labels t m →
      Represents types labels (.array t (length % 2 ^ 32)) n

/-- Every object was made for a name and represents it, except the structs whose fields
are still being added; every known name has its reference. -/
structure Objects.Labelled (types : Types) (opened : List Nat) (labels : List Nat) (s : Objects) : Prop where
  length : labels.length = s.objects.length
  objects : ∀ id object n, s.objects[id]? = some object → labels[id]? = some n →
    Represents types labels object n ∨ id ∈ opened
  known : ∀ n t, s.knownTypes.lookup n = some t → RefFor types labels t n

/-- What a call leaves: the objects it found, and their labels. -/
structure Objects.Grown (types : Types) (opened labels : List Nat) (s : Objects) (labels' : List Nat) (s' : Objects) :
    Prop where
  labels : labels <+: labels'
  objects : s.objects <+: s'.objects
  known : ∀ m, (s.knownTypes.lookup m).isSome → (s'.knownTypes.lookup m).isSome
  labelled : s'.Labelled types opened labels'

/-- A call for a name also leaves a reference to it. -/
structure Objects.Made (types : Types) (opened labels : List Nat) (s : Objects) (n : Nat) (t : TypeRef)
    (labels' : List Nat) (s' : Objects) : Prop extends Objects.Grown types opened labels s labels' s' where
  named : RefFor types labels' t n

section
variable {types : Types} {opened labels more : List Nat} {s s' : Objects} {n : Nat} {t : TypeRef}

theorem prefix_get {l m : List α} {i : Nat} {x : α} (start : l <+: m) (found : l[i]? = some x) : m[i]? = some x := by
  obtain ⟨rest, rfl⟩ := start
  rw [List.getElem?_append_left (List.getElem?_eq_some_iff.mp found).1, found]

theorem RefFor.mono (grows : labels <+: more) (named : RefFor types labels t n) : RefFor types more t n := by
  cases t with
  | none => exact named
  | some id => exact prefix_get grows named

theorem Represents.mono (grows : labels <+: more) (represents : Represents types labels object n) :
    Represents types more object n := by
  cases represents with
  | integer found => exact .integer found
  | floating found => exact .floating found
  | pointer found named => exact .pointer found (named.mono grows)
  | struct found fields => exact .struct found (fields.imp fun _ _ field => ⟨field.1.mono grows, field.2⟩)
  | array found named => exact .array found (named.mono grows)

/-- A new object is the last one, under a new label. -/
theorem Objects.Labelled.make {object : Object} (labelled : s.Labelled types opened labels) (more : List Nat)
    (keeps : ∀ id, id ∈ opened → id ∈ more)
    (here : Represents types labels object n ∨ s.objects.length ∈ more) :
    (s.make n object).2.Labelled types more (labels ++ [n]) := by
  have grows : labels <+: labels ++ [n] := List.prefix_append _ _
  have last : (labels ++ [n])[s.objects.length]? = some n := by simp [← labelled.length]
  have length := labelled.length
  refine ⟨by simp [Objects.make, labelled.length], ?_, ?_⟩
  · intro id found m is label
    rcases Nat.lt_trichotomy id s.objects.length with old | rfl | beyond
    · rw [Objects.make, List.getElem?_append_left old] at is
      rw [List.getElem?_append_left (by omega)] at label
      exact (labelled.objects id found m is label).imp (Represents.mono grows) (keeps id)
    · rw [last] at label
      simp only [Objects.make, List.getElem?_concat_length, Option.some.injEq] at is
      obtain rfl := Option.some.inj label
      exact is ▸ here.imp_left (Represents.mono grows)
    · simp [Objects.make, beyond] at is
  · intro m u found
    simp only [Objects.make, List.lookup_cons] at found
    split at found
    · next same =>
      obtain rfl := Option.some.inj found
      rw [beq_iff_eq.mp same]
      exact last
    · exact (labelled.known m u found).mono grows

theorem Objects.Labelled.addField {id size : Nat} {fields : List (TypeRef × Nat)}
    (labelled : s.Labelled types opened labels) (inside : id ∈ opened)
    (here : s.objects[id]? = some (.struct size fields)) (t : TypeRef) (offset : Nat) :
    (s.addField id t offset).Labelled types opened labels ∧
      (s.addField id t offset).objects[id]? = some (.struct size (fields ++ [(t, offset)])) ∧
      ∀ k, k ≠ id → (s.addField id t offset).objects[k]? = s.objects[k]? := by
  have elsewhere : ∀ k, k ≠ id → (s.addField id t offset).objects[k]? = s.objects[k]? := by
    intro k other
    simp [Objects.addField, other.symm]
  refine ⟨⟨?_, ?_, labelled.known⟩, ?_, elsewhere⟩
  · simpa [Objects.addField] using labelled.length
  · intro k object m is label
    by_cases same : k = id
    · exact .inr (same ▸ inside)
    · rw [elsewhere k same] at is
      exact labelled.objects k object m is label
  · simp [Objects.addField, here]

/-- The fields are added to the struct one by one; everything else stays. -/
theorem addFields_spec {make : Nat → Objects → Except Fault (TypeRef × Objects)}
    {id size : Nat} {described : List (Nat × Nat)} {fields : List (TypeRef × Nat)}
    (spec : ∀ labels s n t s', Objects.Labelled types opened labels s → make n s = .ok (t, s') →
      ∃ labels', Objects.Made types opened labels s n t labels' s')
    (labelled : s.Labelled types opened labels) (inside : id ∈ opened)
    (here : s.objects[id]? = some (.struct size fields)) (ran : addFields make id described s = .ok s') :
    ∃ labels' added, labels <+: labels' ∧ s'.Labelled types opened labels' ∧
      s'.objects[id]? = some (.struct size (fields ++ added)) ∧
      List.Forall₂ (fun field part => RefFor types labels' field.1 part.1 ∧ field.2 = part.2 % 2 ^ 32) added described ∧
      (∀ k object, k ≠ id → s.objects[k]? = some object → s'.objects[k]? = some object) ∧
      ∀ m, (s.knownTypes.lookup m).isSome → (s'.knownTypes.lookup m).isSome := by
  induction described generalizing s labels fields with
  | nil =>
    obtain rfl := Except.ok.inj ran
    exact ⟨labels, [], List.prefix_refl _, labelled, by simpa using here, .nil, fun _ _ _ is => is, fun _ is => is⟩
  | cons part described ih =>
    obtain ⟨fieldType, offset⟩ := part
    simp only [addFields, Control.bind_eq_ok] at ran
    obtain ⟨⟨u, middle⟩, first, rest⟩ := ran
    obtain ⟨between, made⟩ := spec labels s fieldType u middle labelled first
    obtain ⟨added, field, elsewhere⟩ := made.labelled.addField inside (prefix_get made.objects here) u (offset % 2 ^ 32)
    obtain ⟨labels', tail, grows, last, there, matched, kept, known⟩ := ih added field rest
    refine ⟨labels', (u, offset % 2 ^ 32) :: tail, made.labels.trans grows, last, by simpa using there,
      .cons ⟨made.named.mono grows, rfl⟩ matched, ?_, fun m is => known m (made.known m is)⟩
    intro k object other is
    exact kept k object other ((elsewhere k other).trans (prefix_get made.objects is))

theorem Objects.Grown.refl (labelled : s.Labelled types opened labels) : Objects.Grown types opened labels s labels s :=
  ⟨List.prefix_refl _, List.prefix_refl _, fun _ is => is, labelled⟩

/-- A finished object behind those made for its parts. -/
theorem Objects.Grown.make {object : Object} (grown : Objects.Grown types opened labels s more s')
    (represents : Represents types more object n) :
    Objects.Made types opened labels s n (s'.make n object).1 (more ++ [n]) (s'.make n object).2 where
  labels := grown.labels.trans (List.prefix_append _ _)
  objects := grown.objects.trans (List.prefix_append _ _)
  known := by
    intro k is
    have before := grown.known k is
    simp only [Objects.make, List.lookup_cons]
    split
    · rfl
    · exact before
  labelled := grown.labelled.make opened (fun _ inside => inside) (.inl represents)
  named := by simp [RefFor, Objects.make, ← grown.labelled.length]

theorem prefix_of_get {l m : List α} (kept : ∀ (i : Nat) x, l[i]? = some x → m[i]? = some x) : l <+: m := by
  rw [List.prefix_iff_getElem?]
  intro i inside
  exact kept i _ (List.getElem?_eq_getElem inside)

/-- A struct is complete when all its fields are added. -/
theorem Objects.Labelled.struct {described : List (Nat × Nat)} {size : Nat}
    {make : Nat → Objects → Except Fault (TypeRef × Objects)} (labelled : s.Labelled types opened labels)
    (spec : ∀ labels u m t v, Objects.Labelled types (s.objects.length :: opened) labels u → make m u = .ok (t, v) →
      ∃ labels', Objects.Made types (s.objects.length :: opened) labels u m t labels' v)
    (found : types.lookup n = some (.struct described size))
    (ran : addFields make s.objects.length described (s.make n (.struct (size % 2 ^ 32) [])).2 = .ok s') :
    ∃ labels', Objects.Made types opened labels s n (some s.objects.length) labels' s' := by
  have begun : (s.make n (.struct (size % 2 ^ 32) [])).2.Labelled types (s.objects.length :: opened) (labels ++ [n]) :=
    labelled.make _ (fun _ inside => List.mem_cons_of_mem _ inside) (.inr (by simp))
  have here : (s.make n (.struct (size % 2 ^ 32) [])).2.objects[s.objects.length]? =
      some (.struct (size % 2 ^ 32) []) := by
    rw [Objects.make, List.getElem?_concat_length]
  obtain ⟨labels', added, grows, last, there, matched, kept, known⟩ := addFields_spec spec begun (by simp) here ran
  have named : labels'[s.objects.length]? = some n := prefix_get grows (by simp [← labelled.length])
  have complete : Represents types labels' (.struct (size % 2 ^ 32) ([] ++ added)) n := .struct found matched
  refine ⟨labels', ⟨(List.prefix_append _ _).trans grows, ?_, ?_, last.length, ?_, last.known⟩, named⟩
  · apply prefix_of_get
    intro k object is
    have bound := (List.getElem?_eq_some_iff.mp is).1
    exact kept k object (by omega) (prefix_get (List.prefix_append _ _) is)
  · intro m is
    apply known
    simp only [Objects.make, List.lookup_cons]
    split
    · rfl
    · exact is
  · intro k object m is label
    by_cases same : k = s.objects.length
    · subst same
      rw [there] at is
      rw [named] at label
      exact .inl (Option.some.inj is ▸ Option.some.inj label ▸ complete)
    · refine (last.objects k object m is label).imp_right fun inside => ?_
      exact (List.mem_cons.mp inside).resolve_left same

theorem makeType_spec {fuel : Nat} (labelled : s.Labelled types opened labels)
    (ran : makeType types fuel n s = .ok (t, s')) : ∃ labels', Objects.Made types opened labels s n t labels' s' := by
  induction fuel generalizing opened labels s n t s' with
  | zero => cases ran
  | succ fuel ih =>
    cases known : s.knownTypes.lookup n with
    | some u =>
      simp only [makeType, known] at ran
      obtain ⟨rfl, rfl⟩ := Prod.mk.inj (Except.ok.inj ran)
      exact ⟨labels, .refl labelled, labelled.known n _ known⟩
    | none =>
      cases found : types.lookup n with
      | none => simp [makeType, known, found] at ran
      | some data =>
        cases data with
        | placeholder => simp [makeType, known, found] at ran
        | integer w =>
          simp only [makeType, known, found] at ran
          obtain ⟨rfl, rfl⟩ := Prod.mk.inj (Except.ok.inj ran)
          exact ⟨_, (Objects.Grown.refl labelled).make (.integer found)⟩
        | floating w =>
          simp only [makeType, known, found] at ran
          obtain ⟨rfl, rfl⟩ := Prod.mk.inj (Except.ok.inj ran)
          exact ⟨_, (Objects.Grown.refl labelled).make (.floating found)⟩
        | unsupported =>
          simp only [makeType, known, found] at ran
          obtain ⟨rfl, rfl⟩ := Prod.mk.inj (Except.ok.inj ran)
          refine ⟨labels, ⟨List.prefix_refl _, List.prefix_refl _, ?_, labelled.length, labelled.objects, ?_⟩, found⟩
          · intro m is
            simp only [List.lookup_cons]
            split
            · rfl
            · exact is
          · intro m u is
            simp only [List.lookup_cons] at is
            split at is
            · next same =>
              obtain rfl := Option.some.inj is
              exact beq_iff_eq.mp same ▸ found
            · exact labelled.known m u is
        | pointer m =>
          simp only [makeType, known, found, Control.bind_eq_ok] at ran
          obtain ⟨⟨u, middle⟩, part, done⟩ := ran
          obtain ⟨more, made⟩ := ih labelled part
          obtain ⟨rfl, rfl⟩ := Prod.mk.inj (Except.ok.inj done)
          exact ⟨_, made.toGrown.make (.pointer found made.named)⟩
        | array m length =>
          simp only [makeType, known, found, Control.bind_eq_ok] at ran
          obtain ⟨⟨u, middle⟩, part, done⟩ := ran
          obtain ⟨more, made⟩ := ih labelled part
          obtain ⟨rfl, rfl⟩ := Prod.mk.inj (Except.ok.inj done)
          exact ⟨_, made.toGrown.make (.array found made.named)⟩
        | struct described size =>
          simp only [makeType, known, found, Control.bind_eq_ok] at ran
          obtain ⟨last, parts, done⟩ := ran
          obtain ⟨rfl, rfl⟩ := Prod.mk.inj (Except.ok.inj done)
          exact labelled.struct (fun _ _ _ _ _ labelled ran => ih labelled ran) found parts

end

/-! Reading ends: a struct is known before its fields are made, and between two structs
there are only so many pointers and arrays. -/

/-- Behind at most `rank` pointers and arrays stands a scalar, nothing, or one of the
structs given. -/
inductive Ranked (types : Types) (structs : Nat → Prop) : Nat → Nat → Prop where
  | integer : types.lookup n = some (.integer w) → Ranked types structs n rank
  | floating : types.lookup n = some (.floating w) → Ranked types structs n rank
  | unsupported : types.lookup n = some .unsupported → Ranked types structs n rank
  | struct : types.lookup n = some (.struct fields size) → structs n → Ranked types structs n rank
  | pointer : types.lookup n = some (.pointer m) → Ranked types structs m rank → Ranked types structs n (rank + 1)
  | array : types.lookup n = some (.array m length) → Ranked types structs m rank →
      Ranked types structs n (rank + 1)

def FieldsRanked (types : Types) (structs : Nat → Prop) (bound : Nat) : Prop :=
  ∀ n fields size, structs n → types.lookup n = some (.struct fields size) →
    ∀ field ∈ fields, Ranked types structs field.1 bound

theorem Ranked.mono {types : Types} {structs : Nat → Prop} {n rank bound : Nat} (ranked : Ranked types structs n rank)
    (le : rank ≤ bound) : Ranked types structs n bound := by
  induction ranked generalizing bound with
  | integer found => exact .integer found
  | floating found => exact .floating found
  | unsupported found => exact .unsupported found
  | struct found inside => exact .struct found inside
  | pointer found _ ih =>
    cases bound with
    | zero => omega
    | succ bound => exact .pointer found (ih (by omega))
  | array found _ ih =>
    cases bound with
    | zero => omega
    | succ bound => exact .array found (ih (by omega))

/-- The names without a reference. -/
def Objects.unknown (types : Types) (s : Objects) : Finset Nat :=
  (types.map Prod.fst).toFinset.filter fun n => s.knownTypes.lookup n = none

section
variable {types : Types} {opened labels more : List Nat} {s s' : Objects} {n : Nat} {t : TypeRef}

theorem unknown_subset (known : ∀ m, (s.knownTypes.lookup m).isSome → (s'.knownTypes.lookup m).isSome) :
    s'.unknown types ⊆ s.unknown types := by
  intro m inside
  simp only [Objects.unknown, Finset.mem_filter] at inside ⊢
  refine ⟨inside.1, ?_⟩
  cases found : s.knownTypes.lookup m with
  | none => rfl
  | some u =>
    have still := known m (by simp [found])
    simp [inside.2] at still

theorem make_unknown {data : TypeData} (object : Object) (found : types.lookup n = some data)
    (new : s.knownTypes.lookup n = none) : (s.make n object).2.unknown types ⊂ s.unknown types := by
  have known : ∀ m, (s.knownTypes.lookup m).isSome → ((s.make n object).2.knownTypes.lookup m).isSome := by
    intro m is
    simp only [Objects.make, List.lookup_cons]
    split
    · rfl
    · exact is
  have listed : n ∈ types.map Prod.fst := by
    obtain ⟨before, after, rfl, _⟩ := List.lookup_eq_some_iff.mp found
    simp
  rw [Finset.ssubset_iff_of_subset (unknown_subset known)]
  refine ⟨n, ?_, ?_⟩
  · rw [Objects.unknown, Finset.mem_filter, List.mem_toFinset]
    exact ⟨listed, new⟩
  · rw [Objects.unknown, Finset.mem_filter, Objects.make, List.lookup_cons_self]
    simp

theorem addFields_total {make : Nat → Objects → Except Fault (TypeRef × Objects)} {id : Nat} (fine : Objects → Prop)
    (keeps : ∀ m s t s' offset, fine s → make m s = .ok (t, s') → fine (s'.addField id t offset))
    {described : List (Nat × Nat)} (total : ∀ field ∈ described, ∀ s, fine s → ∃ done, make field.1 s = .ok done)
    (start : fine s) : ∃ done, addFields make id described s = .ok done := by
  induction described generalizing s with
  | nil => exact ⟨s, rfl⟩
  | cons field described ih =>
    obtain ⟨⟨t, middle⟩, first⟩ := total field (by simp) s start
    obtain ⟨done, rest⟩ := ih (fun field inside => total field (by simp [inside]))
      (keeps field.1 s t middle (field.2 % 2 ^ 32) start first)
    exact ⟨done, Control.bind_eq_ok.mpr ⟨_, first, rest⟩⟩

/-- Enough fuel for a name. -/
theorem makeType_total {structs : Nat → Prop} {bound fuel rank : Nat} (fields : FieldsRanked types structs bound)
    (labelled : s.Labelled types opened labels) (ranked : Ranked types structs n rank)
    (enough : (s.unknown types).card * (bound + 1) + rank < fuel) : ∃ done, makeType types fuel n s = .ok done := by
  induction fuel generalizing opened labels s n rank with
  | zero => omega
  | succ fuel ih =>
    cases known : s.knownTypes.lookup n with
    | some u => exact ⟨(u, s), by simp [makeType, known]⟩
    | none =>
      cases ranked with
      | integer found | floating found | unsupported found => simp [makeType, known, found]
      | pointer found part | array found part =>
        obtain ⟨⟨u, middle⟩, is⟩ := ih labelled part (by omega)
        simp only [makeType, known, found, is]
        exact ⟨_, rfl⟩
      | @struct _ described size _ found listed =>
        have less := Finset.card_lt_card (make_unknown (.struct (size % 2 ^ 32) []) found known)
        have begun : (s.make n (.struct (size % 2 ^ 32) [])).2.Labelled types (s.objects.length :: opened)
            (labels ++ [n]) :=
          labelled.make _ (fun _ inside => List.mem_cons_of_mem _ inside) (.inr (by simp))
        -- the fields are made with one name less to go
        have parts : ∃ done, addFields (makeType types fuel) s.objects.length described
            (s.make n (.struct (size % 2 ^ 32) [])).2 = .ok done := by
          refine addFields_total (fun u => ((∃ labels, u.Labelled types (s.objects.length :: opened) labels) ∧
            (∃ size fields, u.objects[s.objects.length]? = some (.struct size fields))) ∧
            (u.unknown types).card < (s.unknown types).card) ?_ ?_ ⟨⟨⟨_, begun⟩, ?_⟩, less⟩
          · rintro m u t v offset ⟨⟨⟨labels, labelled⟩, width, present, here⟩, few⟩ ran
            obtain ⟨more, made⟩ := makeType_spec labelled ran
            obtain ⟨added, field, _⟩ := made.labelled.addField (by simp) (prefix_get made.objects here) t offset
            refine ⟨⟨⟨more, added⟩, _, _, field⟩, ?_⟩
            exact (Finset.card_le_card (unknown_subset made.known)).trans_lt few
          · rintro field inside u ⟨⟨⟨labels, labelled⟩, _⟩, few⟩
            apply ih labelled (fields n described size listed found field inside)
            have room := Nat.mul_le_mul_right (bound + 1) few
            rw [Nat.succ_mul] at room
            omega
          · exact ⟨_, _, List.getElem?_concat_length⟩
        obtain ⟨done, is⟩ := parts
        simp only [makeType, known, found]
        exact ⟨_, Control.bind_eq_ok.mpr ⟨done, is, rfl⟩⟩

end

end AflLive.Libgen
