import AflLive.Libgen.Types

/-! The process memory libgen reads and writes, and the parts of the platform
it depends on. The allocator, boost's topological sort and the register that
carries an undeclared upper half are parameters; theorems state what they need
of them. -/
namespace AflLive.Libgen

/-- One call of `malloc`. `numElems` counts the elements the buffer is built
for, without the null element behind them. -/
structure Block where
  base : Nat
  size : Nat
  numElems : Nat
deriving DecidableEq, Repr

/-- Two address ranges have no byte in common. -/
def Apart (a n b k : Nat) : Prop := a + n ≤ b ∨ b + k ≤ a

/-- `malloc` answers from the blocks handed out so far and the bytes asked for,
with 0 for NULL. `eightUpper` is what the caller of `getBuffEight` finds in the
upper half of the return register: the function is defined with a 32-bit result
and declared with a 64-bit one. `topologicalSort` is the vertex list boost
appends before it returns or throws. -/
structure Platform where
  malloc : List Block → Nat → Nat
  eightUpper : Nat → Nat → Nat
  topologicalSort : Nat → List (Nat × Nat) → List Nat
  files : List UInt8 → Option (List UInt8)
  filein : List UInt8

structure Heap where
  bytes : Image
  mapped : Nat → Bool
  blocks : List Block
  file : List UInt8

namespace Heap

def readable (h : Heap) (a n : Nat) : Bool := (List.range n).all fun i => h.mapped (a + i)

def load (h : Heap) (a n : Nat) : Except Fault (List UInt8) :=
  if h.readable a n then .ok (h.bytes.peek a n) else .error .segv

def store (h : Heap) (a : Nat) (bytes : List UInt8) : Except Fault Heap :=
  if h.readable a bytes.length then .ok { h with bytes := h.bytes.poke a bytes } else .error .segv

/-- A NULL result is not followed further. -/
def malloc (P : Platform) (h : Heap) (size numElems : Nat) : Except Fault (Nat × Heap) :=
  let base := P.malloc h.blocks size
  if base = 0 then .error .noMemory
  else .ok (base, { h with
    mapped := fun x => h.mapped x || (decide (base ≤ x) && decide (x < base + size))
    blocks := ⟨base, size, numElems⟩ :: h.blocks })

theorem readable_iff {h : Heap} {a n : Nat} :
    h.readable a n = true ↔ ∀ x, a ≤ x → x < a + n → h.mapped x = true := by
  simp only [readable, List.all_eq_true, List.mem_range]
  constructor
  · intro every x lower upper
    have found := every (x - a) (by omega)
    rwa [Nat.add_sub_cancel' lower] at found
  · intro every i inside
    exact every (a + i) (by omega) (by omega)

theorem load_eq_ok {h : Heap} {a n : Nat} {bytes : List UInt8} :
    h.load a n = .ok bytes ↔ h.readable a n = true ∧ bytes = h.bytes.peek a n := by
  unfold load
  split
  · rename_i readable
    simp only [readable, Except.ok.injEq, true_and]
    exact eq_comm
  · simp_all

theorem store_eq_ok {h t : Heap} {a : Nat} {bytes : List UInt8} :
    h.store a bytes = .ok t ↔
      h.readable a bytes.length = true ∧ t = { h with bytes := h.bytes.poke a bytes } := by
  unfold store
  split
  · rename_i writable
    simp only [writable, Except.ok.injEq, true_and]
    exact eq_comm
  · simp_all

theorem malloc_eq_ok {P : Platform} {h t : Heap} {size numElems base : Nat} :
    h.malloc P size numElems = .ok (base, t) ↔ base = P.malloc h.blocks size ∧ base ≠ 0 ∧
      t = { h with
        mapped := fun x => h.mapped x || (decide (base ≤ x) && decide (x < base + size))
        blocks := ⟨base, size, numElems⟩ :: h.blocks } := by
  unfold malloc
  simp only
  split
  · simp_all
  · simp_all only [Except.ok.injEq, Prod.mk.injEq]
    constructor
    · rintro ⟨rfl, rfl⟩
      exact ⟨rfl, ‹_›, rfl⟩
    · rintro ⟨rfl, _, rfl⟩
      exact ⟨rfl, rfl⟩

end Heap

/-- What the C standard and the x86-64 address space promise of `malloc`:
aligned to 16, in the lower half of the address space, and apart from every
block handed out before and from the ranges the program holds otherwise. Even
an empty block has an address of its own. -/
structure Platform.Allocates (P : Platform) (held : List (Nat × Nat)) : Prop where
  aligned : ∀ blocks size, P.malloc blocks size ≠ 0 → 16 ∣ P.malloc blocks size
  canonical : ∀ blocks size, P.malloc blocks size ≠ 0 → P.malloc blocks size + size ≤ 2 ^ 63
  fresh : ∀ blocks size, P.malloc blocks size ≠ 0 → ∀ b ∈ blocks,
    Apart (P.malloc blocks size) (max size 1) b.base (max b.size 1)
  reserved : ∀ blocks size, P.malloc blocks size ≠ 0 → ∀ range ∈ held,
    Apart (P.malloc blocks size) size range.1 range.2

end AflLive.Libgen
