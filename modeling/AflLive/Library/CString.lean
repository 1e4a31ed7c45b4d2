import AflLive.Library.Control
import AflLive.Library.Delimited

/-! C strings in blocks of memory. A block is the list of its bytes; a string in it ends at the
first null byte, and no access leaves the block. -/
namespace AflLive.CString
open Control

inductive Fault where
  | outOfBounds
deriving DecidableEq, Repr

def strlen (block : List UInt8) : Except Fault Nat :=
  if 0 ∈ block then .ok (block.takeWhile (· ≠ 0)).length else .error .outOfBounds

/-- Appends the characters of a string and a terminator. -/
def strcat (dest src : List UInt8) : Except Fault (List UInt8) := do
  let n ← strlen dest
  if n + src.length + 1 ≤ dest.length then
    return dest.take n ++ src ++ 0 :: dest.drop (n + src.length + 1)
  else throw .outOfBounds

def memset (block : List UInt8) (start : Nat) (byte : UInt8) (n : Nat) : Except Fault (List UInt8) :=
  if start + n ≤ block.length then
    .ok (block.take start ++ List.replicate n byte ++ block.drop (start + n))
  else .error .outOfBounds

/-- What the new bytes hold is up to the allocator. -/
def realloc (fresh : Nat → UInt8) (block : List UInt8) (size : Nat) : List UInt8 :=
  block.take size ++ (List.range (size - block.length)).map fresh

section
variable {text src spare block : List UInt8}

theorem strlen_terminated (free : 0 ∉ text) : strlen (text ++ 0 :: spare) = .ok text.length := by
  rw [strlen, if_pos (by simp), Delimited.takeWhile_word free]

theorem strcat_terminated (free : 0 ∉ text) (room : src.length ≤ spare.length) :
    strcat (text ++ 0 :: spare) src = .ok (text ++ src ++ 0 :: spare.drop src.length) := by
  have fits : text.length + src.length + 1 ≤ (text ++ 0 :: spare).length := by
    simp only [List.length_append, List.length_cons]
    omega
  have behind : (text ++ 0 :: spare).drop (text.length + src.length + 1) = spare.drop src.length := by
    rw [Nat.add_assoc, List.drop_length_add_append, List.drop_succ_cons]
  rw [strcat, strlen_terminated free, ok_bind, if_pos fits, behind, List.take_left]
  rfl

/-- A block that grows, and is cleared behind its old end. -/
theorem memset_realloc {size : Nat} (fresh : Nat → UInt8) (more : block.length ≤ size) :
    memset (realloc fresh block size) block.length 0 (size - block.length) =
      .ok (block ++ List.replicate (size - block.length) 0) := by
  have whole : block.take size = block := List.take_of_length_le more
  have length : (realloc fresh block size).length = size := by
    rw [realloc, whole, List.length_append, List.length_map, List.length_range]
    omega
  have end_ : block.length + (size - block.length) = size := by omega
  rw [memset, if_pos (by omega), end_, List.drop_of_length_le (by omega), List.append_nil, realloc, whole,
    List.take_left]

end

end AflLive.CString
