import AflLive.Instrumentation.TypeFile
import AflLive.Libgen.FaultPath

/-! The types the pass describes against the types the codec handles. The objects `make_type` builds
for a registered type denote its run-time type; the codec aborts, or follows a null type object,
at the parts of it that a walk can come to and that it does not handle. -/
namespace AflLive.Libgen
open Bytes Control Recursion Relation

/-- The object stands for the type, and its parts are related. -/
inductive Shape (structs : Nat → StructType) (objects : List Object) (rel : TypeRef → Ty → Prop) :
    TypeRef → Ty → Prop where
  | integer {id : Nat} : objects[id]? = some (.integer w) → Shape structs objects rel (some id) (.integer w)
  | floating {id : Nat} : objects[id]? = some (.floating w) → Shape structs objects rel (some id) (.floating w)
  | pointer {id : Nat} : objects[id]? = some (.pointer r) → rel r type →
      Shape structs objects rel (some id) (.pointer type)
  | struct {id name : Nat} : objects[id]? = some (.struct (structs name).size fields) →
      List.Forall₂ (fun field part => rel field.1 part.1 ∧ field.2 = part.2) fields (structs name).fields →
      Shape structs objects rel (some id) (.struct name)
  | array {id : Nat} : objects[id]? = some (.array r numElems) → rel r type →
      Shape structs objects rel (some id) (.array type numElems)
  | null : Shape structs objects rel none .unsupported

/-- The graph of objects behind a reference is the type, with its structs by name. -/
def Denotes (structs : Nat → StructType) (objects : List Object) (r : TypeRef) (type : Ty) : Prop :=
  ∃ rel : TypeRef → Ty → Prop, rel r type ∧ ∀ r type, rel r type → Shape structs objects rel r type

end AflLive.Libgen

namespace AflLive.Instrumentation
open Libgen (TypeRef Object Objects makeType RefFor Represents Ty StructType Denotes Shape NeverAborts FaultyArgument
  Regular)
open Relation

/-- The type the run time works with, its numbers cut to an `unsigned`. -/
def runtime : LLVMType → Ty
  | .integer bitWidth => .integer (bitWidth % 2 ^ 32)
  | .floating bitWidth => .floating (bitWidth % 2 ^ 32)
  | .pointer pointee => .pointer (runtime pointee)
  | .struct id => .struct id
  | .array elem length => .array (runtime elem) (length % 2 ^ 32)
  | .other => .unsupported

def runtimeStructs (ctx : Context) (id : Nat) : StructType :=
  ⟨(ctx.body id).size % 2 ^ 32, (ctx.body id).fields.map fun field => (runtime field.1, field.2 % 2 ^ 32)⟩

section
variable {ctx : Context} {r s : Registry} {t : LLVMType} {n : Nat} {made : Objects} {labels : List Nat}

/-- A reference made for the type's name has the shape of the type. -/
theorem Registry.Sound.shape {ref : TypeRef} {rel : TypeRef → Ty → Prop} (sound : r.Sound ctx [])
    (labelled : made.Labelled r.types [] labels) (named : r.typeNames.lookup t = some n)
    (ours : RefFor r.types labels ref n)
    (parts : ∀ ref u m, r.typeNames.lookup u = some m → RefFor r.types labels ref m → rel ref (runtime u)) :
    Shape (runtimeStructs ctx) made.objects rel ref (runtime t) := by
  obtain ⟨data, found, describes⟩ := sound.entry named
  cases ref with
  | none =>
    rw [RefFor, found] at ours
    obtain rfl := Option.some.inj ours
    cases describes
    exact .null
  | some id =>
    have inside : id < made.objects.length := labelled.length ▸ (List.getElem?_eq_some_iff.mp ours).1
    have here : made.objects[id]? = some made.objects[id] := List.getElem?_eq_getElem inside
    generalize made.objects[id] = object at here
    have represents := (labelled.objects id object n here ours).resolve_right (by simp)
    cases represents with
    | integer entry =>
      obtain rfl := Option.some.inj (found.symm.trans entry)
      cases describes
      exact .integer here
    | floating entry =>
      obtain rfl := Option.some.inj (found.symm.trans entry)
      cases describes
      exact .floating here
    | pointer entry part =>
      obtain rfl := Option.some.inj (found.symm.trans entry)
      cases describes with
      | pointer is => exact .pointer here (parts _ _ _ is part)
    | array entry part =>
      obtain rfl := Option.some.inj (found.symm.trans entry)
      cases describes with
      | array is => exact .array here (parts _ _ _ is part)
    | struct entry fields =>
      obtain rfl := Option.some.inj (found.symm.trans entry)
      cases describes with
      | @struct _ k described =>
        change Shape _ _ _ _ (.struct k)
        refine .struct here ?_
        rw [runtimeStructs, List.forall₂_map_right_iff]
        refine Listing.forall₂_trans fields described ?_
        rintro ⟨ref, offset⟩ ⟨m, written⟩ field inside ⟨ours, rfl⟩ ⟨is, rfl⟩
        exact ⟨parts ref field.1 m is ours, rfl⟩

theorem Registry.Sound.denotes {ref : TypeRef} (sound : r.Sound ctx [])
    (labelled : made.Labelled r.types [] labels) (named : r.typeNames.lookup t = some n)
    (ours : RefFor r.types labels ref n) : Denotes (runtimeStructs ctx) made.objects ref (runtime t) := by
  refine ⟨fun ref type => ∃ u m, type = runtime u ∧ r.typeNames.lookup u = some m ∧ RefFor r.types labels ref m,
    ⟨t, n, rfl, named, ours⟩, ?_⟩
  rintro ref _ ⟨u, m, rfl, is, ours⟩
  exact sound.shape labelled is ours fun ref v k is ours => ⟨v, k, rfl, is, ours⟩

/-- Whatever was made before, `make_type` builds the run-time type of a registered name. -/
theorem Registry.Sound.builds (sound : r.Sound ctx []) (named : r.typeNames.lookup t = some n)
    (reached : Reached r.types made) :
    ∃ enough, ∀ fuel, enough ≤ fuel → ∃ ref made', makeType r.types fuel n made = .ok (ref, made') ∧
      Denotes (runtimeStructs ctx) made'.objects ref (runtime t) := by
  obtain ⟨labels, labelled⟩ := reached.labelled
  refine ⟨(made.unknown r.types).card * (ctx.bound + 1) + t.depth + 1, fun fuel enough => ?_⟩
  obtain ⟨⟨ref, made'⟩, ran⟩ :=
    Libgen.makeType_total (sound.fieldsRanked (bounded_bound ctx)) labelled (sound.ranked named) enough
  obtain ⟨labels', grown⟩ := Libgen.makeType_spec labelled ran
  exact ⟨ref, made', ran, sound.denotes grown.labelled named grown.named⟩

/-- For every type the pass registers, with the graph `make_type` builds from the description: the
codec works on it as an argument if no walk can come to a part it does not handle, and only then if
its values are laid out without odd pointers. -/
theorem codec_total_iff {fuel : Nat} (sound : r.Sound ctx []) (ran : registerType ctx fuel t r = some (n, s)) :
    (∀ made, Reached s.types made → ∃ enough, ∀ fuel, enough ≤ fuel →
      ∃ ref made', makeType s.types fuel n made = .ok (ref, made') ∧
        Denotes (runtimeStructs ctx) made'.objects ref (runtime t)) ∧
    (∀ deref, ¬FaultyArgument (runtimeStructs ctx) deref (runtime t) →
      NeverAborts (runtimeStructs ctx) deref (runtime t)) ∧
    ∀ rank, Regular (runtimeStructs ctx) rank (runtime t) → ∀ deref,
      (NeverAborts (runtimeStructs ctx) deref (runtime t) ↔
        ¬FaultyArgument (runtimeStructs ctx) deref (runtime t)) := by
  have done := registerType_spec sound ran
  exact ⟨fun made reached => done.sound.builds done.named reached, fun _ => Libgen.neverAborts_of_not_faulty,
    fun rank regular => regular.neverAborts_iff⟩

end

theorem nodes_sane (deref : Bool) : ¬FaultyArgument (runtimeStructs nodes) deref (runtime (.pointer (.struct 0))) := by
  refine Libgen.not_faulty_of_closed (fun type => type ∈ [.integer 32, .struct 0, .pointer (.struct 0)])
    ?_ ?_ ?_ ?_ (by simp [runtime])
  · intro type member
    simp only [List.mem_cons, List.not_mem_nil, or_false] at member
    rcases member with rfl | rfl | rfl <;> simp [Ty.Handled]
  · intro name member
    simp only [List.mem_cons, List.not_mem_nil, or_false, reduceCtorEq, false_or, Ty.struct.injEq] at member
    subst member
    simp [runtimeStructs, nodes, Context.body, runtime]
  · simp
  · simp [Ty.Sizeless]

/-- The list is laid out with its links at multiples of eight. -/
theorem nodes_regular : Regular (runtimeStructs nodes) (fun _ => 1) (runtime (.pointer (.struct 0))) := by
  have fields (name : Nat) (field : Ty × Nat) (member : field ∈ (runtimeStructs nodes name).fields) :
      field = (.integer 32, 0) ∨ field = (.pointer (.struct 0), 8) := by
    cases name with
    | zero => simpa [runtimeStructs, nodes, Context.body, runtime] using member
    | succ name => simp [runtimeStructs, nodes, Context.body] at member
  refine ⟨?_, ?_, fun input provokes => ?_⟩
  · intro name field member
    rcases fields name field member with rfl | rfl <;> simp [Libgen.valueRank]
  · intro part reached
    have listed : part = .pointer (.struct 0) ∨ part = .struct 0 ∨ part = .integer 32 := by
      induction reached with
      | refl => simp [runtime]
      | tail _ component ih =>
        rcases ih with rfl | rfl | rfl
        · cases component
          simp
        · cases component with
          | field member => rcases fields _ _ member with rfl | rfl <;> simp
        · cases component
    rintro offset slot
    rcases listed with rfl | rfl | rfl
    · cases slot
      norm_num
    · cases slot with
      | field member slot =>
        rcases fields _ _ member with rfl | rfl
        · cases slot
        · cases slot
          norm_num
    · cases slot
  · exact absurd (.inl ((Libgen.faulty_iff_provoked _).mpr ⟨input, provokes⟩)) (nodes_sane true)

/-- `struct { int count; long double values[]; }` -/
def flexible : Context := [⟨16, [(.integer 32, 0), (.array (.floating 80) 0, 16)]⟩]

theorem flexible_sane (deref : Bool) :
    ¬FaultyArgument (runtimeStructs flexible) deref (runtime (.pointer (.struct 0))) := by
  refine Libgen.not_faulty_of_closed
    (fun type => type ∈ [.integer 32, .struct 0, .pointer (.struct 0), .array (.floating 80) 0])
    ?_ ?_ ?_ ?_ (by simp [runtime])
  · intro type member
    simp only [List.mem_cons, List.not_mem_nil, or_false] at member
    rcases member with rfl | rfl | rfl | rfl <;> simp [Ty.Handled]
  · intro name member
    simp only [List.mem_cons, List.not_mem_nil, or_false, reduceCtorEq, false_or, Ty.struct.injEq] at member
    subst member
    simp [runtimeStructs, flexible, Context.body, runtime]
  · simp
  · simp [Ty.Sizeless]

/-- Lists of integers are recorded and rebuilt without an abort, and so is a struct that ends in an
array without elements, whatever they would be. -/
theorem nodes_never_abort : NeverAborts (runtimeStructs nodes) true (runtime (.pointer (.struct 0))) ∧
    NeverAborts (runtimeStructs flexible) true (runtime (.pointer (.struct 0))) := by
  have sound (ctx : Context) : Registry.Sound ctx [] {} := ⟨by simp, by simp, by simp⟩
  constructor
  · obtain ⟨⟨n, s⟩, ran⟩ := Option.isSome_iff_exists.mp
      (show (registerType nodes 9 (.pointer (.struct 0)) {}).isSome by decide +kernel)
    exact ((codec_total_iff (sound nodes) ran).2.2 _ nodes_regular true).mpr (nodes_sane true)
  · obtain ⟨⟨n, s⟩, ran⟩ := Option.isSome_iff_exists.mp
      (show (registerType flexible 9 (.pointer (.struct 0)) {}).isSome by decide +kernel)
    exact (codec_total_iff (sound flexible) ran).2.1 true (flexible_sane true)

/-- A `bool`, which is an `i1`, aborts; so does a `long double`. A pointer to a function is
followed to a null type object, when it is built and when it is recorded. -/
theorem described_types_abort :
    (registerType [] 1 (.integer 1) {}).isSome = true ∧ (registerType [] 2 (.pointer .other) {}).isSome = true ∧
    (∀ h, Libgen.populateFromBuffer (Libgen.bumpPlatform 0x2000 []) (runtimeStructs []) (fun _ => 1) 4 1
      (runtime (.integer 1)) 0 0x1000 [] h = .error .abort) ∧
    (∀ h, Libgen.populateFromBuffer (Libgen.bumpPlatform 0x2000 []) (runtimeStructs []) (fun _ => 1) 4 1
      (runtime (.floating 80)) 0 0x1000 [] h = .error .abort) ∧
    (∀ h, Libgen.populateFromBuffer (Libgen.bumpPlatform 0x2000 []) (runtimeStructs []) (fun _ => 1) 4 2
      (runtime (.pointer .other)) 0 0x1000 [] h = .error .nullType) ∧
    (∀ r, Libgen.serializeToBuffer (Libgen.bumpPlatform 0x2000 []) (runtimeStructs []) Libgen.slotHeap 2
      (runtime (.pointer .other)) 0x1000 [] r = .error .nullType) ∧
    ¬ NeverAborts (runtimeStructs []) false (runtime (.integer 1)) ∧
    ¬ NeverAborts (runtimeStructs []) false (runtime (.pointer .other)) := by
  refine ⟨rfl, rfl, fun _ => rfl, fun _ => rfl, fun _ => rfl, fun _ => rfl, fun never => ?_, fun never => ?_⟩
  · have boolean := never.1 (Libgen.bumpPlatform 0x2000 []) (fun _ => 1) 4 1 0 0x1000 [] Libgen.slotHeap
      (Libgen.bump_even _ _) nofun
    exact boolean.2 rfl
  · have function := never.1 (Libgen.bumpPlatform 0x2000 []) (fun _ => 1) 4 2 0 0x1000 [] Libgen.slotHeap
      (Libgen.bump_even _ _) nofun
    exact function.1 rfl

end AflLive.Instrumentation
