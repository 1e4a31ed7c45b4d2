import AflLive.Libgen.MakeType

/-! The graph of objects `make_type` builds for a registered type, against the type. -/
namespace AflLive.Instrumentation
open Libgen (TypeRef Object Objects makeType Ranked FieldsRanked RefFor Represents)

/-- The types a type is built from, itself among them. -/
inductive Part (ctx : Context) : LLVMType → LLVMType → Prop where
  | refl : Part ctx t t
  | pointer : Part ctx t u → Part ctx (.pointer t) u
  | array : Part ctx t u → Part ctx (.array t length) u
  | struct {id : Nat} : field ∈ (ctx.body id).fields → Part ctx field.1 u → Part ctx (.struct id) u

/-- Built from integers, floats, pointers, arrays and structs only. -/
def Supported (ctx : Context) (t : LLVMType) : Prop := ∀ u, Part ctx t u → u ≠ .other

/-- The numbers of the type itself fit an `unsigned`. -/
def Narrow (ctx : Context) : LLVMType → Prop
  | .integer w | .floating w => w < 2 ^ 32
  | .array _ length => length < 2 ^ 32
  | .struct id => (ctx.body id).size < 2 ^ 32 ∧ ∀ field ∈ (ctx.body id).fields, field.2 < 2 ^ 32
  | .pointer _ | .other => True

def Fits (ctx : Context) (t : LLVMType) : Prop := ∀ u, Part ctx t u → Narrow ctx u

/-- The object is the type's, and their parts are related. -/
inductive Matches (ctx : Context) (objects : List Object) (rel : TypeRef → LLVMType → Prop) :
    TypeRef → LLVMType → Prop where
  | integer {id : Nat} : objects[id]? = some (.integer w) → Matches ctx objects rel (some id) (.integer w)
  | floating {id : Nat} : objects[id]? = some (.floating w) → Matches ctx objects rel (some id) (.floating w)
  | pointer {id : Nat} : objects[id]? = some (.pointer r) → rel r t → Matches ctx objects rel (some id) (.pointer t)
  | struct {id k : Nat} : objects[id]? = some (.struct (ctx.body k).size fields) →
      List.Forall₂ (fun field part => rel field.1 part.1 ∧ field.2 = part.2) fields (ctx.body k).fields →
      Matches ctx objects rel (some id) (.struct k)
  | array {id : Nat} : objects[id]? = some (.array r length) → rel r t →
      Matches ctx objects rel (some id) (.array t length)
  | other : Matches ctx objects rel none .other

def Bisimilar (ctx : Context) (objects : List Object) (r : TypeRef) (t : LLVMType) : Prop :=
  ∃ rel : TypeRef → LLVMType → Prop, rel r t ∧ ∀ r t, rel r t → Matches ctx objects rel r t

/-- What libgen can hold after any calls of `make_type`. -/
inductive Reached (types : Types) : Objects → Prop where
  | start : Reached types {}
  | make : Reached types s → makeType types fuel n s = .ok (t, s') → Reached types s'

/-- From whatever was made before, `make_type` returns for the name, with the graph of the type. -/
def Faithful (ctx : Context) (types : Types) (n : Nat) (t : LLVMType) : Prop :=
  ∀ s, Reached types s → ∃ enough, ∀ fuel, enough ≤ fuel →
    ∃ r s', makeType types fuel n s = .ok (r, s') ∧ Bisimilar ctx s'.objects r t

section
variable {ctx : Context} {r : Registry} {t : LLVMType} {n : Nat} {types : Types} {s s' : Objects} {labels : List Nat}

theorem Reached.labelled (reached : Reached types s) : ∃ labels, s.Labelled types [] labels := by
  induction reached with
  | start => exact ⟨[], rfl, by simp, by simp⟩
  | make _ ran ih =>
    obtain ⟨labels, labelled⟩ := ih
    obtain ⟨labels', made⟩ := Libgen.makeType_spec labelled ran
    exact ⟨labels', made.labelled⟩

/-- The structs the process has named. -/
def Registry.Named (r : Registry) (n : Nat) : Prop := ∃ id, r.typeNames.lookup (.struct id) = some n

theorem Registry.Sound.entry (sound : r.Sound ctx []) (named : r.typeNames.lookup t = some n) :
    ∃ data, r.types.lookup n = some data ∧ Describes ctx r.typeNames data t := by
  obtain ⟨data, found, describes | inside⟩ := sound.described t n named
  · exact ⟨data, found, describes⟩
  · cases inside

theorem Registry.Sound.ranked (sound : r.Sound ctx []) (named : r.typeNames.lookup t = some n) :
    Ranked r.types r.Named n t.depth := by
  induction t generalizing n with
  | integer =>
    obtain ⟨_, found, ⟨⟩⟩ := sound.entry named
    exact .integer found
  | floating =>
    obtain ⟨_, found, ⟨⟩⟩ := sound.entry named
    exact .floating found
  | other =>
    obtain ⟨_, found, ⟨⟩⟩ := sound.entry named
    exact .unsupported found
  | struct id =>
    obtain ⟨_, found, ⟨⟩⟩ := sound.entry named
    exact .struct found ⟨id, named⟩
  | pointer u ih =>
    obtain ⟨_, found, describes⟩ := sound.entry named
    cases describes with
    | pointer part => exact .pointer found (ih part)
  | array u length ih =>
    obtain ⟨_, found, describes⟩ := sound.entry named
    cases describes with
    | array part => exact .array found (ih part)

theorem Registry.Sound.fieldsRanked {bound : Nat} (sound : r.Sound ctx []) (bounded : ctx.Bounded bound) :
    FieldsRanked r.types r.Named bound := by
  rintro n fields size ⟨id, named⟩ found field inside
  obtain ⟨data, entry, describes⟩ := sound.entry named
  obtain rfl := Option.some.inj (found.symm.trans entry)
  cases describes with
  | struct matched =>
    obtain ⟨part, there, is, _⟩ := Listing.exists_of_forall₂ matched field inside
    exact (sound.ranked is).mono (bounded id part there)

/-- A reference made for the type's name stands for the type, if its numbers fit. -/
theorem Registry.Sound.matches {ref : TypeRef} (sound : r.Sound ctx []) (labelled : s.Labelled r.types [] labels)
    (rel : TypeRef → LLVMType → Prop) (narrow : Narrow ctx t) (named : r.typeNames.lookup t = some n)
    (made : RefFor r.types labels ref n)
    (parts : ∀ ref u m, Part ctx t u → r.typeNames.lookup u = some m → RefFor r.types labels ref m → rel ref u) :
    Matches ctx s.objects rel ref t := by
  obtain ⟨data, found, describes⟩ := sound.entry named
  cases ref with
  | none =>
    rw [RefFor, found] at made
    obtain rfl := Option.some.inj made
    cases describes
    exact .other
  | some id =>
    have inside : id < s.objects.length := labelled.length ▸ (List.getElem?_eq_some_iff.mp made).1
    have here : s.objects[id]? = some s.objects[id] := List.getElem?_eq_getElem inside
    generalize s.objects[id] = object at here
    have represents := (labelled.objects id object n here made).resolve_right (by simp)
    cases represents with
    | integer entry =>
      obtain rfl := Option.some.inj (found.symm.trans entry)
      cases describes
      rw [Nat.mod_eq_of_lt narrow] at here
      exact .integer here
    | floating entry =>
      obtain rfl := Option.some.inj (found.symm.trans entry)
      cases describes
      rw [Nat.mod_eq_of_lt narrow] at here
      exact .floating here
    | pointer entry part =>
      obtain rfl := Option.some.inj (found.symm.trans entry)
      cases describes with
      | pointer is => exact .pointer here (parts _ _ _ (.pointer .refl) is part)
    | array entry part =>
      obtain rfl := Option.some.inj (found.symm.trans entry)
      cases describes with
      | array is =>
        rw [Nat.mod_eq_of_lt narrow] at here
        exact .array here (parts _ _ _ (.array .refl) is part)
    | struct entry fields =>
      obtain rfl := Option.some.inj (found.symm.trans entry)
      cases describes with
      | struct described =>
        rw [Nat.mod_eq_of_lt narrow.1] at here
        refine .struct here (Listing.forall₂_trans fields described ?_)
        rintro ⟨ref, offset⟩ ⟨m, written⟩ field inside ⟨made, rfl⟩ ⟨is, rfl⟩
        exact ⟨parts ref field.1 m (.struct inside .refl) is made, Nat.mod_eq_of_lt (narrow.2 field inside)⟩

theorem Part.trans (first : Part ctx t u) (second : Part ctx u v) : Part ctx t v := by
  induction first with
  | refl => exact second
  | pointer _ ih => exact .pointer (ih second)
  | array _ ih => exact .array (ih second)
  | struct inside _ ih => exact .struct inside (ih second)

/-- The numbers of an object that was made. -/
def NarrowObject : Object → Prop
  | .integer w | .floating w => w < 2 ^ 32
  | .array _ numElems => numElems < 2 ^ 32
  | .struct size fields => size < 2 ^ 32 ∧ ∀ field ∈ fields, field.2 < 2 ^ 32
  | .pointer _ => True

theorem narrowObject_of_represents {object : Object} (represents : Represents types labels object n) :
    NarrowObject object := by
  cases represents with
  | integer | floating | array => exact Nat.mod_lt _ (by decide)
  | pointer => trivial
  | struct _ fields =>
    refine ⟨Nat.mod_lt _ (by decide), ?_⟩
    intro field inside
    obtain ⟨part, _, _, same⟩ := Listing.exists_of_forall₂ fields field inside
    exact same ▸ Nat.mod_lt _ (by decide)

theorem narrowObject_of_labelled (labelled : s.Labelled types [] labels) {id : Nat} {object : Object}
    (here : s.objects[id]? = some object) : NarrowObject object := by
  have inside : id < labels.length := labelled.length ▸ (List.getElem?_eq_some_iff.mp here).1
  have represents := labelled.objects id object _ here (List.getElem?_eq_getElem inside)
  exact narrowObject_of_represents (represents.resolve_right (by simp))

section
variable {objects : List Object} {rel : TypeRef → LLVMType → Prop}

theorem Matches.narrow {ref : TypeRef} (made : ∀ (id : Nat) object, objects[id]? = some object → NarrowObject object)
    (matched : Matches ctx objects rel ref t) : Narrow ctx t := by
  cases matched with
  | integer here | floating here => exact made _ _ here
  | array here => exact made _ _ here
  | pointer | other => trivial
  | struct here fields =>
    have narrow := made _ _ here
    refine ⟨narrow.1, fun part inside => ?_⟩
    obtain ⟨field, there, _, same⟩ := Listing.exists_of_forall₂ fields.flip part inside
    exact same ▸ narrow.2 field there

/-- A bisimulation follows the type to its parts. -/
theorem related_part (bisimulation : ∀ r t, rel r t → Matches ctx objects rel r t) {ref : TypeRef}
    (related : rel ref t) (part : Part ctx t u) : ∃ ref, rel ref u := by
  induction part generalizing ref with
  | refl => exact ⟨ref, related⟩
  | pointer _ ih =>
    cases bisimulation _ _ related with
    | pointer _ next => exact ih next
  | array _ ih =>
    cases bisimulation _ _ related with
    | array _ next => exact ih next
  | struct inside _ ih =>
    cases bisimulation _ _ related with
    | struct _ fields =>
      obtain ⟨field, _, next, _⟩ := Listing.exists_of_forall₂ fields.flip _ inside
      exact ih next

end

theorem Registry.Sound.bisimilar {ref : TypeRef} (sound : r.Sound ctx []) (labelled : s.Labelled r.types [] labels)
    (named : r.typeNames.lookup t = some n) (made : RefFor r.types labels ref n) (fits : Fits ctx t) :
    Bisimilar ctx s.objects ref t := by
  refine ⟨fun ref u => Part ctx t u ∧ ∃ m, r.typeNames.lookup u = some m ∧ RefFor r.types labels ref m,
    ⟨.refl, n, named, made⟩, ?_⟩
  rintro ref u ⟨part, m, is, for_⟩
  apply sound.matches labelled _ (fits u part) is for_
  intro ref v k inside is for_
  exact ⟨part.trans inside, k, is, for_⟩

/-- The graph of a registered type is made faithfully exactly if its numbers fit. -/
theorem Registry.Sound.faithful_iff (sound : r.Sound ctx []) (named : r.typeNames.lookup t = some n) :
    Faithful ctx r.types n t ↔ Fits ctx t := by
  constructor
  · intro faithful u part
    obtain ⟨enough, returns⟩ := faithful {} .start
    obtain ⟨ref, s, ran, rel, related, bisimulation⟩ := returns enough le_rfl
    obtain ⟨labels, labelled⟩ := (Reached.start.make ran).labelled
    obtain ⟨ref', there⟩ := related_part bisimulation related part
    exact (bisimulation ref' u there).narrow fun id object here => narrowObject_of_labelled labelled here
  · intro fits s reached
    obtain ⟨labels, labelled⟩ := reached.labelled
    refine ⟨(s.unknown r.types).card * (ctx.bound + 1) + t.depth + 1, fun fuel enough => ?_⟩
    obtain ⟨⟨ref, s'⟩, ran⟩ :=
      Libgen.makeType_total (sound.fieldsRanked (bounded_bound ctx)) labelled (sound.ranked named) enough
    obtain ⟨labels', made⟩ := Libgen.makeType_spec labelled ran
    exact ⟨ref, s', ran, sound.bisimilar made.labelled named made.named fits⟩

end

end AflLive.Instrumentation
