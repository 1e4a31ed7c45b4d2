import AflLive.Common
import AflLive.Library.Listing

/-! `getTypeName` and `registerType`: the names the pass gives to LLVM types and the
descriptions it writes for them. -/
namespace AflLive.Instrumentation

/-- A type with typed pointers; a named struct stands for its body, which may be
recursive. `other` is everything the pass cannot describe. -/
inductive LLVMType where
  | integer (bitWidth : Nat)
  | floating (bitWidth : Nat)
  | pointer (pointee : LLVMType)
  | struct (id : Nat)
  | array (elem : LLVMType) (length : Nat)
  | other
deriving DecidableEq

/-- A struct as the data layout lays it out: the fields with their offsets. -/
structure StructBody where
  size : Nat
  fields : List (LLVMType × Nat)
deriving DecidableEq

/-- The named structs of a compiler process. -/
abbrev Context := List StructBody

def Context.body (ctx : Context) (id : Nat) : StructBody := ctx.getD id ⟨0, []⟩

/-- An entry of the typeinfo file; the number `n` stands for the name `type_n`. -/
inductive TypeData where
  | placeholder
  | integer (bitWidth : Nat)
  | floating (bitWidth : Nat)
  | pointer (pointeeType : Nat)
  | struct (fields : List (Nat × Nat)) (size : Nat)
  | array (elementType : Nat) (length : Nat)
  | unsupported
deriving DecidableEq

def TypeData.refs : TypeData → List Nat
  | .pointer n | .array n _ => [n]
  | .struct fields _ => fields.map Prod.fst
  | _ => []

/-- The typeinfo object, the last entry of a name first. -/
abbrev Types := List (Nat × TypeData)

/-- One more than the largest number in use. -/
def nextIdx : Types → Nat
  | [] => 0
  | (n, _) :: rest => max (n + 1) (nextIdx rest)

/-- The process's `typeNames` and the typeinfo object it works on. -/
structure Registry where
  typeNames : List (LLVMType × Nat) := []
  types : Types := []

def Registry.set (r : Registry) (n : Nat) (data : TypeData) : Registry := { r with types := (n, data) :: r.types }

def getTypeName (t : LLVMType) (r : Registry) : Nat × Registry :=
  match r.typeNames.lookup t with
  | some n => (n, r)
  | none => (nextIdx r.types, { r with typeNames := (t, nextIdx r.types) :: r.typeNames })

/-- The loops over the fields of a struct and over the arguments of a target. -/
def registerAll (register : LLVMType → Registry → Option (Nat × Registry)) :
    List LLVMType → Registry → Option (List Nat × Registry)
  | [], r => some ([], r)
  | t :: rest, r => do
    let (n, r) ← register t r
    let (names, r) ← registerAll register rest r
    return (n :: names, r)

/-- `registerType`. A name is entered before its parts are registered, which stops the
recursion through recursive structs; the fuel bounds it in the model. -/
def registerType (ctx : Context) : Nat → LLVMType → Registry → Option (Nat × Registry)
  | 0, _, _ => none
  | fuel + 1, t, r =>
    let (n, r) := getTypeName t r
    if (r.types.lookup n).isSome then some (n, r)
    else
      let r := r.set n .placeholder
      match t with
      | .integer bitWidth => some (n, r.set n (.integer bitWidth))
      | .floating bitWidth => some (n, r.set n (.floating bitWidth))
      | .pointer pointee => do
        let (m, r) ← registerType ctx fuel pointee r
        return (n, r.set n (.pointer m))
      | .struct id => do
        let body := ctx.body id
        let (names, r) ← registerAll (registerType ctx fuel) (body.fields.map Prod.fst) r
        return (n, r.set n (.struct (names.zip (body.fields.map Prod.snd)) body.size))
      | .array elem length => do
        let (m, r) ← registerType ctx fuel elem r
        return (n, r.set n (.array m length))
      | .other => some (n, r.set n .unsupported)

/-- The entry says what the type is, under the names of its parts. -/
inductive Describes (ctx : Context) (names : List (LLVMType × Nat)) : TypeData → LLVMType → Prop where
  | integer : Describes ctx names (.integer w) (.integer w)
  | floating : Describes ctx names (.floating w) (.floating w)
  | pointer : names.lookup t = some n → Describes ctx names (.pointer n) (.pointer t)
  | struct {id : Nat} : List.Forall₂ (fun field part => names.lookup part.1 = some field.1 ∧ field.2 = part.2)
      fields (ctx.body id).fields → Describes ctx names (.struct fields (ctx.body id).size) (.struct id)
  | array : names.lookup t = some n → Describes ctx names (.array n length) (.array t length)
  | other : Describes ctx names .unsupported .other

structure Registry.Extends (r s : Registry) : Prop where
  names : ∀ t n, r.typeNames.lookup t = some n → s.typeNames.lookup t = some n
  types : ∀ n data, r.types.lookup n = some data → s.types.lookup n = some data

/-- Every named type is described, except those still being registered; no two share a
name, and no entry refers to a missing one. -/
structure Registry.Sound (ctx : Context) (opened : List Nat) (r : Registry) : Prop where
  described : ∀ t n, r.typeNames.lookup t = some n →
    ∃ data, r.types.lookup n = some data ∧ (Describes ctx r.typeNames data t ∨ n ∈ opened)
  distinct : ∀ t u n, r.typeNames.lookup t = some n → r.typeNames.lookup u = some n → t = u
  closed : ∀ n data, r.types.lookup n = some data → ∀ m ∈ data.refs, (r.types.lookup m).isSome

theorem lt_nextIdx {types : Types} {n : Nat} {data : TypeData} (found : types.lookup n = some data) :
    n < nextIdx types := by
  induction types with
  | nil => cases found
  | cons entry types ih =>
    obtain ⟨m, first⟩ := entry
    by_cases same : n = m
    · simp [nextIdx, same]
    · rw [List.lookup_cons, beq_eq_false_iff_ne.mpr same] at found
      simp [nextIdx, ih found]

theorem nextIdx_fresh (types : Types) : types.lookup (nextIdx types) = none := by
  cases found : types.lookup (nextIdx types) with
  | none => rfl
  | some data => exact absurd (lt_nextIdx found) (Nat.lt_irrefl _)

theorem lookup_set_of_ne {r : Registry} {n m : Nat} {data : TypeData} (other : m ≠ n) :
    (r.set n data).types.lookup m = r.types.lookup m := by
  rw [Registry.set, List.lookup_cons, beq_eq_false_iff_ne.mpr other]

theorem lookup_set_self (r : Registry) (n : Nat) (data : TypeData) : (r.set n data).types.lookup n = some data :=
  List.lookup_cons_self

section
variable {ctx : Context} {opened : List Nat} {names more : List (LLVMType × Nat)} {r s : Registry}

theorem Describes.mono (grows : ∀ t n, names.lookup t = some n → more.lookup t = some n)
    (describes : Describes ctx names data t) : Describes ctx more data t := by
  cases describes with
  | integer => exact .integer
  | floating => exact .floating
  | pointer named => exact .pointer (grows _ _ named)
  | struct fields => exact .struct (fields.imp fun _ _ field => ⟨grows _ _ field.1, field.2⟩)
  | array named => exact .array (grows _ _ named)
  | other => exact .other

theorem Describes.named (describes : Describes ctx names data t) : ∀ m ∈ data.refs, ∃ u, names.lookup u = some m := by
  intro m inside
  cases describes with
  | pointer named | array named =>
    obtain rfl := List.mem_singleton.mp inside
    exact ⟨_, named⟩
  | struct fields =>
    obtain ⟨field, listed, rfl⟩ := List.mem_map.mp inside
    obtain ⟨part, _, named⟩ := Listing.exists_of_forall₂ fields field listed
    exact ⟨part.1, named.1⟩
  | integer | floating | other => cases inside

theorem Registry.Extends.refl (r : Registry) : r.Extends r := ⟨fun _ _ named => named, fun _ _ found => found⟩

theorem Registry.Extends.trans {r s t : Registry} (first : r.Extends s) (second : s.Extends t) : r.Extends t :=
  ⟨fun _ _ named => second.names _ _ (first.names _ _ named), fun _ _ found => second.types _ _ (first.types _ _ found)⟩

/-- A type without a name gets a new one, and an empty entry for it. -/
theorem Registry.Sound.open {t : LLVMType} (sound : r.Sound ctx opened) (unnamed : r.typeNames.lookup t = none) :
    let n := nextIdx r.types
    let s : Registry := ⟨(t, n) :: r.typeNames, (n, .placeholder) :: r.types⟩
    r.Extends s ∧ s.Sound ctx (n :: opened) := by
  intro n s
  have fresh := nextIdx_fresh r.types
  have other : ∀ u m, r.typeNames.lookup u = some m → u ≠ t := by
    rintro u m named rfl
    rw [unnamed] at named
    cases named
  have used : ∀ u m, r.typeNames.lookup u = some m → m ≠ n := by
    rintro u m named rfl
    obtain ⟨data, found, _⟩ := sound.described u _ named
    rw [fresh] at found
    cases found
  have names : ∀ u m, r.typeNames.lookup u = some m → s.typeNames.lookup u = some m := by
    intro u m named
    rw [List.lookup_cons, beq_eq_false_iff_ne.mpr (other u m named)]
    exact named
  have types : ∀ m data, r.types.lookup m = some data → s.types.lookup m = some data := by
    intro m data found
    have ne : m ≠ n := by
      rintro rfl
      rw [fresh] at found
      cases found
    rw [List.lookup_cons, beq_eq_false_iff_ne.mpr ne]
    exact found
  -- a name of the extended registry is the new one or an old one
  have split : ∀ u m, s.typeNames.lookup u = some m → u = t ∧ m = n ∨ r.typeNames.lookup u = some m := by
    intro u m named
    by_cases same : u = t
    · subst same
      rw [List.lookup_cons_self] at named
      exact .inl ⟨rfl, (Option.some.inj named).symm⟩
    · rw [List.lookup_cons, beq_eq_false_iff_ne.mpr same] at named
      exact .inr named
  refine ⟨⟨names, types⟩, ?_, ?_, ?_⟩
  · intro u m named
    rcases split u m named with ⟨-, rfl⟩ | old
    · exact ⟨.placeholder, List.lookup_cons_self, .inr (by simp)⟩
    · obtain ⟨data, found, described⟩ := sound.described u m old
      exact ⟨data, types m data found, described.imp (Describes.mono names) (List.mem_cons_of_mem n)⟩
  · intro u v m first second
    rcases split u m first with ⟨rfl, rfl⟩ | old <;> rcases split v _ second with ⟨rfl, same⟩ | old'
    · rfl
    · exact absurd rfl (used v _ old')
    · exact absurd same (used u m old)
    · exact sound.distinct u v m old old'
  · intro m data found k inside
    by_cases same : m = n
    · subst same
      rw [List.lookup_cons_self] at found
      obtain rfl := Option.some.inj found
      cases inside
    · rw [List.lookup_cons, beq_eq_false_iff_ne.mpr same] at found
      obtain ⟨part, there⟩ := Option.isSome_iff_exists.mp (sound.closed m data found k inside)
      exact Option.isSome_iff_exists.mpr ⟨part, types k part there⟩

/-- When its parts are registered, the entry of the new name is filled in. -/
theorem Registry.Sound.close {t : LLVMType} {n : Nat} {data : TypeData} (sound : s.Sound ctx (n :: opened))
    (extends_ : r.Extends s) (fresh : r.types.lookup n = none) (named : s.typeNames.lookup t = some n)
    (describes : Describes ctx s.typeNames data t) :
    r.Extends (s.set n data) ∧ (s.set n data).Sound ctx opened := by
  have defined : ∀ m, (s.types.lookup m).isSome → ((s.set n data).types.lookup m).isSome := by
    intro m there
    by_cases same : m = n
    · rw [same, lookup_set_self]
      rfl
    · rwa [lookup_set_of_ne same]
  refine ⟨⟨extends_.names, ?_⟩, ?_, sound.distinct, ?_⟩
  · intro m old found
    have ne : m ≠ n := by
      rintro rfl
      rw [fresh] at found
      cases found
    rw [lookup_set_of_ne ne]
    exact extends_.types m old found
  · intro u m named'
    by_cases same : m = n
    · subst same
      obtain rfl := sound.distinct t u m named named'
      exact ⟨data, lookup_set_self s m data, .inl describes⟩
    · obtain ⟨old, found, described⟩ := sound.described u m named'
      refine ⟨old, by rwa [lookup_set_of_ne same], described.imp_right fun inside => ?_⟩
      exact (List.mem_cons.mp inside).resolve_left same
  · intro m old found k inside
    apply defined
    by_cases same : m = n
    · subst same
      rw [lookup_set_self] at found
      obtain rfl := Option.some.inj found
      obtain ⟨u, part⟩ := describes.named k inside
      obtain ⟨_, there, _⟩ := sound.described u k part
      simp [there]
    · rw [lookup_set_of_ne same] at found
      exact sound.closed m old found k inside

/-- What registering a type leaves: everything it found, and a name for the type. -/
structure Registered (ctx : Context) (opened : List Nat) (r : Registry) (t : LLVMType) (n : Nat) (s : Registry) :
    Prop where
  grows : r.Extends s
  sound : s.Sound ctx opened
  named : s.typeNames.lookup t = some n

theorem registerAll_spec {register : LLVMType → Registry → Option (Nat × Registry)}
    (spec : ∀ t r n s, r.Sound ctx opened → register t r = some (n, s) → Registered ctx opened r t n s)
    {ts : List LLVMType} {ns : List Nat} (sound : r.Sound ctx opened) (ran : registerAll register ts r = some (ns, s)) :
    r.Extends s ∧ s.Sound ctx opened ∧ List.Forall₂ (fun n t => s.typeNames.lookup t = some n) ns ts := by
  induction ts generalizing r ns with
  | nil =>
    obtain ⟨rfl, rfl⟩ := Prod.mk.inj (Option.some.inj ran)
    exact ⟨.refl r, sound, .nil⟩
  | cons t ts ih =>
    simp only [registerAll, Option.bind_eq_bind, Option.bind_eq_some_iff, Option.pure_def, Option.some.injEq,
      Prod.mk.injEq] at ran
    obtain ⟨⟨n, middle⟩, first, ⟨names, last⟩, rest, rfl, rfl⟩ := ran
    have head := spec t r n middle sound first
    obtain ⟨grows, sound, tail⟩ := ih head.sound rest
    exact ⟨head.grows.trans grows, sound, .cons (grows.names _ _ head.named) tail⟩

/-- The fields' names, next to their offsets. -/
theorem fields_named {fields : List (LLVMType × Nat)} {ns : List Nat}
    (named : List.Forall₂ (fun n t => names.lookup t = some n) ns (fields.map Prod.fst)) :
    List.Forall₂ (fun field part => names.lookup part.1 = some field.1 ∧ field.2 = part.2)
      (ns.zip (fields.map Prod.snd)) fields := by
  induction fields generalizing ns with
  | nil => simp
  | cons field fields ih =>
    cases named with
    | cons first rest => exact .cons ⟨first, rfl⟩ (ih rest)

theorem registerType_spec {fuel : Nat} {t : LLVMType} {n : Nat} (sound : r.Sound ctx opened)
    (ran : registerType ctx fuel t r = some (n, s)) : Registered ctx opened r t n s := by
  induction fuel generalizing opened t r n s with
  | zero => cases ran
  | succ fuel ih =>
    cases known : r.typeNames.lookup t with
    | some m =>
      obtain ⟨data, found, _⟩ := sound.described t m known
      simp [registerType, getTypeName, known, found] at ran
      obtain ⟨rfl, rfl⟩ := ran
      exact ⟨.refl r, sound, known⟩
    | none =>
      obtain ⟨grows, opening⟩ := sound.open known
      have fresh := nextIdx_fresh r.types
      simp only [registerType, getTypeName, known, fresh, Option.isSome_none, Bool.false_eq_true, if_false,
        Registry.set] at ran
      generalize nextIdx r.types = m at *
      generalize start : (⟨(t, m) :: r.typeNames, (m, .placeholder) :: r.types⟩ : Registry) = begun at *
      have here : begun.typeNames.lookup t = some m := by rw [← start]; exact List.lookup_cons_self
      have finish : ∀ last data, begun.Extends last → last.Sound ctx (m :: opened) →
          Describes ctx last.typeNames data t → Registered ctx opened r t m (last.set m data) := by
        intro last data extended sound describes
        have named := extended.names t m here
        obtain ⟨grows, sound⟩ := sound.close (grows.trans extended) fresh named describes
        exact ⟨grows, sound, named⟩
      cases t with
      | integer w =>
        subst start
        obtain ⟨rfl, rfl⟩ := Prod.mk.inj (Option.some.inj ran)
        exact finish _ _ (.refl _) opening .integer
      | floating w =>
        subst start
        obtain ⟨rfl, rfl⟩ := Prod.mk.inj (Option.some.inj ran)
        exact finish _ _ (.refl _) opening .floating
      | other =>
        subst start
        obtain ⟨rfl, rfl⟩ := Prod.mk.inj (Option.some.inj ran)
        exact finish _ _ (.refl _) opening .other
      | pointer u =>
        simp only [Option.bind_eq_bind, Option.bind_eq_some_iff, Option.pure_def, Option.some.injEq,
          Prod.mk.injEq] at ran
        obtain ⟨⟨k, last⟩, part, rfl, rfl⟩ := ran
        have done := ih opening part
        exact finish _ _ done.grows done.sound (.pointer done.named)
      | array u length =>
        simp only [Option.bind_eq_bind, Option.bind_eq_some_iff, Option.pure_def, Option.some.injEq,
          Prod.mk.injEq] at ran
        obtain ⟨⟨k, last⟩, part, rfl, rfl⟩ := ran
        have done := ih opening part
        exact finish _ _ done.grows done.sound (.array done.named)
      | struct id =>
        simp only [Option.bind_eq_bind, Option.bind_eq_some_iff, Option.pure_def, Option.some.injEq,
          Prod.mk.injEq] at ran
        obtain ⟨⟨names, last⟩, parts, rfl, rfl⟩ := ran
        obtain ⟨extended, sound, named⟩ := registerAll_spec (fun _ _ _ _ sound ran => ih sound ran) opening parts
        exact finish _ _ extended sound (.struct (fields_named named))

end

/-! Registering ends: a struct is entered once, and between two structs there are only so
many pointers and arrays. -/
section
variable {ctx : Context} {opened : List Nat} {r s : Registry}

def LLVMType.depth : LLVMType → Nat
  | .pointer t | .array t _ => t.depth + 1
  | _ => 0

/-- No field of a struct hides more than `bound` pointers and arrays. -/
def Context.Bounded (ctx : Context) (bound : Nat) : Prop :=
  ∀ id, ∀ field ∈ (ctx.body id).fields, field.1.depth ≤ bound

/-- A bound for the pointers and arrays before a struct in any field. -/
def Context.bound (ctx : Context) : Nat :=
  ((ctx.flatMap StructBody.fields).map fun field => field.1.depth).foldr max 0

/-- What `registerType` needs at most. -/
def Context.fuel (ctx : Context) (t : LLVMType) : Nat := ctx.length * (ctx.bound + 1) + t.depth + 1

theorem bounded_bound (ctx : Context) : ctx.Bounded ctx.bound := by
  have below : ∀ (l : List Nat), ∀ n ∈ l, n ≤ l.foldr max 0 := by
    intro l
    induction l with
    | nil => simp
    | cons m l ih => grind
  intro id field inside
  apply below
  simp only [Context.body, List.getD] at inside
  cases found : ctx[id]? with
  | none => simp [found] at inside
  | some body =>
    simp only [found, Option.getD_some] at inside
    exact List.mem_map.mpr ⟨field, List.mem_flatMap.mpr ⟨body, List.mem_of_getElem? found, inside⟩, rfl⟩

/-- The structs that have no name yet. -/
def Registry.unnamed (ctx : Context) (r : Registry) : Finset Nat :=
  (Finset.range ctx.length).filter fun id => r.typeNames.lookup (.struct id) = none

theorem unnamed_subset (grows : r.Extends s) : s.unnamed ctx ⊆ r.unnamed ctx := by
  intro id inside
  simp only [Registry.unnamed, Finset.mem_filter] at inside ⊢
  refine ⟨inside.1, ?_⟩
  cases found : r.typeNames.lookup (.struct id) with
  | none => rfl
  | some n => simp [grows.names _ _ found] at inside

theorem unnamed_ssubset {id n : Nat} (grows : r.Extends s) (inside : id < ctx.length)
    (before : r.typeNames.lookup (.struct id) = none) (after : s.typeNames.lookup (.struct id) = some n) :
    s.unnamed ctx ⊂ r.unnamed ctx := by
  rw [Finset.ssubset_iff_of_subset (unnamed_subset grows)]
  refine ⟨id, ?_, ?_⟩
  · simp [Registry.unnamed, inside, before]
  · simp [Registry.unnamed, after]

theorem registerAll_total {register : LLVMType → Registry → Option (Nat × Registry)} (fine : Registry → Prop)
    (keeps : ∀ t r n s, fine r → register t r = some (n, s) → fine s) {ts : List LLVMType}
    (total : ∀ t ∈ ts, ∀ r, fine r → (register t r).isSome) (start : fine r) : (registerAll register ts r).isSome := by
  induction ts generalizing r with
  | nil => rfl
  | cons t ts ih =>
    obtain ⟨⟨n, middle⟩, first⟩ := Option.isSome_iff_exists.mp (total t (by simp) r start)
    obtain ⟨⟨names, last⟩, rest⟩ := Option.isSome_iff_exists.mp
      (ih (fun t inside => total t (by simp [inside])) (keeps t r n middle start first))
    simp [registerAll, first, rest]

/-- Enough fuel for a type. -/
theorem registerType_total {bound fuel : Nat} {t : LLVMType} (bounded : ctx.Bounded bound) (sound : r.Sound ctx opened)
    (enough : (r.unnamed ctx).card * (bound + 1) + t.depth < fuel) : (registerType ctx fuel t r).isSome := by
  induction fuel generalizing opened t r with
  | zero => omega
  | succ fuel ih =>
    cases known : r.typeNames.lookup t with
    | some m =>
      obtain ⟨data, found, _⟩ := sound.described t m known
      simp [registerType, getTypeName, known, found]
    | none =>
      obtain ⟨grows, opening⟩ := sound.open known
      have fresh := nextIdx_fresh r.types
      simp only [registerType, getTypeName, known, fresh, Option.isSome_none, Bool.false_eq_true, if_false,
        Registry.set]
      generalize nextIdx r.types = m at *
      generalize start : (⟨(t, m) :: r.typeNames, (m, .placeholder) :: r.types⟩ : Registry) = begun at *
      have here : begun.typeNames.lookup t = some m := by rw [← start]; exact List.lookup_cons_self
      have fewer : (begun.unnamed ctx).card ≤ (r.unnamed ctx).card := Finset.card_le_card (unnamed_subset grows)
      cases t with
      | integer | floating | other => rfl
      | pointer u | array u =>
        have part := ih opening (t := u) (by
          have less := Nat.mul_le_mul_right (bound + 1) fewer
          simp only [LLVMType.depth] at enough
          omega)
        obtain ⟨done, is⟩ := Option.isSome_iff_exists.mp part
        simp [is]
      | struct id =>
        have parts : (registerAll (registerType ctx fuel) ((ctx.body id).fields.map Prod.fst) begun).isSome := by
          by_cases inside : id < ctx.length
          · have less := Finset.card_lt_card (unnamed_ssubset grows inside known here)
            -- the fields are registered with one struct less to go
            refine registerAll_total (fun s => s.Sound ctx (m :: opened) ∧
              (s.unnamed ctx).card ≤ (begun.unnamed ctx).card) ?_ ?_ ⟨opening, le_rfl⟩
            · rintro t r n s ⟨sound, few⟩ ran
              have done := registerType_spec sound ran
              exact ⟨done.sound, (Finset.card_le_card (unnamed_subset done.grows)).trans few⟩
            · rintro t listed s ⟨sound, few⟩
              obtain ⟨field, there, rfl⟩ := List.mem_map.mp listed
              have shallow := bounded id field there
              have room := Nat.mul_le_mul_right (bound + 1) (few.trans_lt less)
              apply ih sound
              rw [Nat.succ_mul] at room
              omega
          · have empty : (ctx.body id).fields = [] := by
              simp [Context.body, List.getD, List.getElem?_eq_none (Nat.le_of_not_lt inside)]
            simp [empty, registerAll]
        obtain ⟨done, is⟩ := Option.isSome_iff_exists.mp parts
        simp [is]

end

end AflLive.Instrumentation
