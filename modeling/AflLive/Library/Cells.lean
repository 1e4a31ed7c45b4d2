import AflLive.Library.Control

/-! Blocks of cells that are allocated uninitialised. No access leaves the block, and no cell is
read before it is written. -/
namespace AflLive.Cells
variable {α : Type}

inductive Fault where
  | outOfBounds
  | uninitialised
  | nullArgument
deriving DecidableEq, Repr

def alloc (n : Nat) : List (Option α) := List.replicate n none

def load (block : List (Option α)) (i : Nat) : Except Fault α :=
  match block[i]? with
  | none => .error .outOfBounds
  | some none => .error .uninitialised
  | some (some value) => .ok value

def store (block : List (Option α)) (i : Nat) (value : α) : Except Fault (List (Option α)) :=
  if i < block.length then .ok (block.set i (some value)) else .error .outOfBounds

/-- `realloc` keeps what fits. -/
def resize (block : List (Option α)) (n : Nat) : List (Option α) := block.take n ++ alloc (n - block.length)

/-- The first cells of the block hold the values. -/
def Holds (block : List (Option α)) (values : List α) : Prop :=
  values.length ≤ block.length ∧ block.take values.length = values.map some

variable {block : List (Option α)} {values : List α} {value : α}

theorem holds_nil (block : List (Option α)) : Holds block [] := ⟨Nat.zero_le _, rfl⟩

theorem load_of_holds (holds : Holds block values) (i : Nat) (inside : values[i]? = some value) :
    load block i = .ok value := by
  have short := (List.getElem?_eq_some_iff.mp inside).1
  have cell : block[i]? = some (some value) := by
    rw [← List.getElem?_take_of_lt short, holds.2, List.getElem?_map, inside]
    rfl
  simp [load, cell]

@[simp] theorem length_resize (block : List (Option α)) (n : Nat) : (resize block n).length = n := by
  simp only [resize, alloc, List.length_append, List.length_take, List.length_replicate]
  omega

theorem Holds.resize (holds : Holds block values) {n : Nat} (enough : values.length ≤ n) :
    Holds (resize block n) values := by
  refine ⟨by simpa using enough, ?_⟩
  rw [Cells.resize, List.take_append_of_le_length, List.take_take, Nat.min_eq_left enough, holds.2]
  rw [List.length_take]
  exact le_min enough holds.1

/-- The next cell is written. -/
theorem Holds.store (holds : Holds block values) (room : values.length < block.length) (value : α) :
    ∃ after, store block values.length value = .ok after ∧ after.length = block.length ∧
      Holds after (values ++ [value]) := by
  refine ⟨_, if_pos room, List.length_set .., by simpa using room, ?_⟩
  have before : (block.set values.length (some value)).take values.length = values.map some := by
    rw [List.take_set_of_le le_rfl, holds.2]
  rw [List.length_append, List.length_singleton, List.take_add_one, before]
  simp [room]

end AflLive.Cells
