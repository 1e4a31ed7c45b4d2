import Mathlib

/-! A pipe: writes are atomic, bytes arrive in order, and a read waits for at least one
byte and then returns what there is, up to its limit. -/
namespace AflLive.Pipe

variable {α : Type}

/-- There is no result while the read blocks. -/
def read (limit : Nat) (pipe : List α) : Option (List α × List α) :=
  if pipe = [] then none else some (pipe.take limit, pipe.drop limit)

theorem read_nil (limit : Nat) : read limit ([] : List α) = none := rfl

/-- A read whose limit covers the pipe empties it. -/
theorem read_all {limit : Nat} {pipe : List α} (nonempty : pipe ≠ []) (short : pipe.length ≤ limit) :
    read limit pipe = some (pipe, []) := by
  rw [read, if_neg nonempty, List.take_of_length_le short, List.drop_eq_nil_of_le short]

/-- Behind the first `limit` bytes nothing is touched. -/
theorem read_first {first : List α} (nonempty : first ≠ []) (rest : List α) :
    read first.length (first ++ rest) = some (first, rest) := by
  have whole : first ++ rest ≠ [] := by simp [nonempty]
  rw [read, if_neg whole, List.take_left, List.drop_left]

end AflLive.Pipe
