import AflLive.Library.Bytes
import AflLive.Library.Control

/-! The type objects `make_type` builds from the typeinfo file, and their sizes
in the runtime's 32-bit unsigned arithmetic. Only a struct is entered into
`knownTypes` before its parts are built, so every cycle of the object graph
passes through a struct; structs are therefore named and everything else is a
tree. -/
namespace AflLive.Libgen

/-- How a call ends when it does not return. `fuel` bounds the recursion of
the model and is no behaviour of the program. -/
inductive Fault where
  | nullType
  | abort
  | segv
  | noMemory
  | badIndex
  | exit
  | fuel
deriving DecidableEq, Repr

/-- `unsupported` is the null object that `make_type` returns for a type the
pass could not describe. -/
inductive Ty where
  | integer (bitWidth : Nat)
  | floating (bitWidth : Nat)
  | pointer (pointee : Ty)
  | struct (name : Nat)
  | array (elem : Ty) (numElems : Nat)
  | unsupported
deriving DecidableEq, Repr

structure StructType where
  size : Nat
  fields : List (Ty × Nat)
deriving DecidableEq, Repr

/-- `Type::getSize`, an `unsigned`. Calling it on a null object is a fault. -/
def getSize (structs : Nat → StructType) : Ty → Except Fault Nat
  | .integer bitWidth => .ok (bitWidth / 8)
  | .floating bitWidth => .ok (bitWidth / 8)
  | .pointer _ => .ok 8
  | .struct name => .ok (structs name).size
  | .array elem numElems => do
    let size ← getSize structs elem
    return size * numElems % 2 ^ 32
  | .unsupported => .error .nullType

/-- No array inside the type, or behind one of its pointers, is too large for
the 32-bit size the runtime computes for it. -/
def Sized (structs : Nat → StructType) : Ty → Prop
  | .pointer pointee => Sized structs pointee
  | .array elem numElems => Sized structs elem ∧
      ∀ size, getSize structs elem = .ok size → size * numElems < 2 ^ 32
  | .integer _ | .floating _ | .struct _ | .unsupported => True

/-- What `gen_init` loads. LLVM's data layout places every field inside its
struct and apart from the others, and the sizes it reports fit the runtime's
`unsigned`. -/
structure TypeInfo where
  structs : Nat → StructType
  argTypes : List UInt8 → List Ty
  inside : ∀ name, ∀ field ∈ (structs name).fields, ∀ size,
    getSize structs field.1 = .ok size → field.2 + size ≤ (structs name).size
  separate : ∀ name, (structs name).fields.Pairwise fun a b => ∀ n k,
    getSize structs a.1 = .ok n → getSize structs b.1 = .ok k → a.2 + n ≤ b.2 ∨ b.2 + k ≤ a.2
  fields_sized : ∀ name, ∀ field ∈ (structs name).fields, Sized structs field.1
  args_sized : ∀ fnName, ∀ type ∈ argTypes fnName, Sized structs type

/-! Type information without structures. -/

theorem noFields_inside (_ : Nat) : ∀ field ∈ ([] : List (Ty × Nat)), ∀ size,
    getSize (fun _ => ⟨0, []⟩) field.1 = .ok size → field.2 + size ≤ 0 := by
  simp

theorem noFields_separate (_ : Nat) : ([] : List (Ty × Nat)).Pairwise fun a b => ∀ n k,
    getSize (fun _ => ⟨0, []⟩) a.1 = .ok n → getSize (fun _ => ⟨0, []⟩) b.1 = .ok k →
      a.2 + n ≤ b.2 ∨ b.2 + k ≤ a.2 := by
  simp

theorem noFields_sized (_ : Nat) : ∀ field ∈ ([] : List (Ty × Nat)), Sized (fun _ => ⟨0, []⟩) field.1 := by
  simp

/-- The types whose objects are `IntegerType` or `FloatingType`. -/
def Ty.isScalar : Ty → Bool
  | .integer _ | .floating _ => true
  | _ => false

/-- The `dynamic_cast<IntegerType*>` and `getSize() == 1` test for strings. -/
def Ty.isByte : Ty → Bool
  | .integer bitWidth => bitWidth / 8 == 1
  | _ => false

end AflLive.Libgen
