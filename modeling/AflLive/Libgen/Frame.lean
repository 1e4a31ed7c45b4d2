import AflLive.Libgen.Heap

/-! What building arguments leaves alone. A run of the populate round hands out
new blocks and writes one region; every other byte keeps its value. -/
namespace AflLive.Libgen

/-- The blocks of a heap as an allocator of the assumed kind hands them out. -/
structure Heap.Laid (held : List (Nat × Nat)) (h : Heap) : Prop where
  apart : h.blocks.Pairwise fun b c => Apart b.base (max b.size 1) c.base (max c.size 1)
  reserved : ∀ b ∈ h.blocks, ∀ range ∈ held, Apart b.base b.size range.1 range.2
  aligned : ∀ b ∈ h.blocks, 16 ∣ b.base
  canonical : ∀ b ∈ h.blocks, b.base + b.size ≤ 2 ^ 63

theorem Heap.Laid.of_empty {h : Heap} (none : h.blocks = []) : h.Laid held :=
  ⟨by simp [none], by simp [none], by simp [none], by simp [none]⟩

theorem Heap.Laid.of_blocks {h t : Heap} (laid : h.Laid held) (same : t.blocks = h.blocks) : t.Laid held :=
  ⟨by rw [same]; exact laid.apart, by rw [same]; exact laid.reserved, by rw [same]; exact laid.aligned,
    by rw [same]; exact laid.canonical⟩

/-- Two blocks with one base would share its first byte. -/
theorem Heap.Laid.unique {h : Heap} {b c : Block} (laid : h.Laid held) (member : b ∈ h.blocks)
    (member' : c ∈ h.blocks) (same : b.base = c.base) : b = c := by
  have symmetric : Std.Symm fun b c : Block => Apart b.base (max b.size 1) c.base (max c.size 1) :=
    ⟨fun _ _ apart => apart.symm⟩
  by_contra different
  rcases laid.apart.forall member member' different with left | right <;> omega

/-- A writable region of the lower half of the address space. -/
structure Heap.Region (h : Heap) (lo hi : Nat) : Prop where
  canonical : hi ≤ 2 ^ 63
  mapped : ∀ x, lo ≤ x → x < hi → h.mapped x = true

/-- Only the region `[lo, hi)` and blocks handed out meanwhile differ. -/
def Extends (lo hi : Nat) (h t : Heap) : Prop :=
  (∀ x, h.mapped x = true → t.mapped x = true) ∧
  ∃ new, t.blocks = new ++ h.blocks ∧ ∀ x, x < lo ∨ hi ≤ x →
    (∀ b ∈ new, x < b.base ∨ b.base + b.size ≤ x) → t.bytes x = h.bytes x

namespace Extends
variable {lo hi : Nat} {h t u : Heap}

theorem refl (lo hi : Nat) (h : Heap) : Extends lo hi h h :=
  ⟨fun _ held => held, [], rfl, fun _ _ _ => rfl⟩

theorem trans (first : Extends lo hi h t) (second : Extends lo hi t u) : Extends lo hi h u := by
  obtain ⟨mapped, new, blocks, kept⟩ := first
  obtain ⟨mapped', new', blocks', kept'⟩ := second
  refine ⟨fun x held => mapped' x (mapped x held), new' ++ new, by simp [blocks, blocks'], ?_⟩
  intro x outside apart
  have later := kept' x outside (fun b member => apart b (by simp [member]))
  exact later.trans (kept x outside (fun b member => apart b (by simp [member])))

theorem widen (first : Extends lo hi h t) (lower : lo' ≤ lo) (upper : hi ≤ hi') :
    Extends lo' hi' h t := by
  obtain ⟨mapped, new, blocks, kept⟩ := first
  exact ⟨mapped, new, blocks, fun x outside apart => kept x (by omega) apart⟩

theorem region (first : Extends lo hi h t) (region : h.Region a b) : t.Region a b :=
  ⟨region.canonical, fun x lower upper => first.1 x (region.mapped x lower upper)⟩

end Extends

namespace Heap
variable {P : Platform} {held : List (Nat × Nat)} {h t u : Heap} {a lo hi : Nat} {bytes : List UInt8}

theorem Region.readable (region : h.Region lo hi) (lower : lo ≤ a) (upper : a + n ≤ hi) :
    h.readable a n = true :=
  readable_iff.mpr fun x above below => region.mapped x (by omega) (by omega)

theorem Region.narrow (region : h.Region lo hi) (lower : lo ≤ lo') (upper : hi' ≤ hi) : h.Region lo' hi' :=
  ⟨le_trans upper region.canonical, fun x above below => region.mapped x (by omega) (by omega)⟩

theorem store_extends (stored : h.store a bytes = .ok t) (lower : lo ≤ a)
    (upper : a + bytes.length ≤ hi) : Extends lo hi h t := by
  obtain ⟨_, rfl⟩ := store_eq_ok.mp stored
  exact ⟨fun _ held => held, [], rfl, fun x outside _ => Image.poke_outside _ _ (by omega)⟩

theorem store_blocks (stored : h.store a bytes = .ok t) :
    t.blocks = h.blocks := by
  obtain ⟨_, rfl⟩ := store_eq_ok.mp stored
  rfl

theorem store_laid (stored : h.store a bytes = .ok t) (laid : h.Laid held) : t.Laid held := by
  obtain ⟨_, rfl⟩ := store_eq_ok.mp stored
  exact laid.of_blocks rfl

theorem store_ensures (writable : h.readable a bytes.length = true) :
    Control.Ensures allowed (fun t => h.store a bytes = .ok t) (h.store a bytes) := by
  have stored : h.store a bytes = .ok { h with bytes := h.bytes.poke a bytes } :=
    store_eq_ok.mpr ⟨writable, rfl⟩
  rw [stored]
  exact rfl

theorem malloc_blocks (allocated : h.malloc P size numElems = .ok (base, t)) :
    t.blocks = ⟨base, size, numElems⟩ :: h.blocks := by
  obtain ⟨_, _, rfl⟩ := malloc_eq_ok.mp allocated
  rfl

theorem malloc_laid (alloc : P.Allocates held) (laid : h.Laid held)
    (allocated : h.malloc P size numElems = .ok (base, t)) : t.Laid held := by
  obtain ⟨rfl, nonnull, rfl⟩ := malloc_eq_ok.mp allocated
  refine ⟨List.pairwise_cons.mpr ⟨alloc.fresh _ _ nonnull, laid.apart⟩, ?_, ?_, ?_⟩
  all_goals
    intro b member
    rcases List.mem_cons.mp member with rfl | old
  · exact alloc.reserved _ _ nonnull
  · exact laid.reserved b old
  · exact alloc.aligned _ _ nonnull
  · exact laid.aligned b old
  · exact alloc.canonical _ _ nonnull
  · exact laid.canonical b old

/-- The fresh block is a region of its own. -/
theorem malloc_region (alloc : P.Allocates held)
    (allocated : h.malloc P size numElems = .ok (base, t)) : t.Region base (base + size) := by
  obtain ⟨rfl, nonnull, rfl⟩ := malloc_eq_ok.mp allocated
  refine ⟨alloc.canonical _ _ nonnull, fun x lower upper => ?_⟩
  simp only [lower, upper, decide_true, Bool.and_self, Bool.or_true]

theorem malloc_even (alloc : P.Allocates held)
    (allocated : h.malloc P size numElems = .ok (base, t)) : base % 2 = 0 := by
  obtain ⟨rfl, nonnull, _⟩ := malloc_eq_ok.mp allocated
  have aligned := alloc.aligned _ _ nonnull
  omega

/-- Filling a block that was just handed out changes nothing that was there
before. -/
theorem malloc_extends (lo hi : Nat) (allocated : h.malloc P size numElems = .ok (base, t))
    (filled : Extends base (base + size) t u) : Extends lo hi h u := by
  obtain ⟨rfl, _, rfl⟩ := malloc_eq_ok.mp allocated
  obtain ⟨mapped, new, blocks, kept⟩ := filled
  refine ⟨fun x old => mapped x (by simp [old]), new ++ [_], by simpa using blocks, ?_⟩
  intro x _ apart
  have outside := apart _ (List.mem_append_right _ (List.mem_singleton.mpr rfl))
  exact kept x outside (fun b member => apart b (List.mem_append_left _ member))

theorem malloc_eq_error {P : Platform} {h : Heap} {size numElems : Nat} {e : Fault} :
    h.malloc P size numElems = .error e ↔ P.malloc h.blocks size = 0 ∧ e = .noMemory := by
  simp only [malloc]
  split
  · rename_i null
    simp only [null, Except.error.injEq, true_and]
    exact eq_comm
  · simp_all

theorem malloc_ensures {P : Platform} {h : Heap} {size numElems : Nat}
    (null : h.malloc P size numElems = .error .noMemory → allowed .noMemory) :
    Control.Ensures allowed (fun r => h.malloc P size numElems = .ok r) (h.malloc P size numElems) := by
  cases outcome : h.malloc P size numElems with
  | error e =>
    obtain ⟨_, rfl⟩ := malloc_eq_error.mp outcome
    exact null outcome
  | ok r => exact rfl

end Heap

/-! ### An allocator of the assumed kind -/

/-- The end of the highest block, or `floor` if that is higher. -/
def top (floor : Nat) (blocks : List Block) : Nat :=
  blocks.foldr (fun b top => max (b.base + max b.size 1) top) floor

/-- The next multiple of 16 above everything handed out so far. -/
def bump (floor : Nat) (blocks : List Block) (size : Nat) : Nat :=
  if 16 * (top floor blocks / 16 + 1) + size ≤ 2 ^ 63 then 16 * (top floor blocks / 16 + 1) else 0

theorem top_cons (floor : Nat) (b : Block) (blocks : List Block) :
    top floor (b :: blocks) = max (b.base + max b.size 1) (top floor blocks) := rfl

theorem le_top (floor : Nat) (blocks : List Block) :
    floor ≤ top floor blocks ∧ ∀ b ∈ blocks, b.base + max b.size 1 ≤ top floor blocks := by
  induction blocks with
  | nil => exact ⟨le_rfl, by simp⟩
  | cons head rest ih =>
    rw [top_cons]
    refine ⟨le_trans ih.1 (le_max_right _ _), ?_⟩
    intro b member
    rcases List.mem_cons.mp member with rfl | old
    · exact le_max_left _ _
    · exact le_trans (ih.2 b old) (le_max_right _ _)

theorem bump_allocates {P : Platform} {floor : Nat} {held : List (Nat × Nat)} (same : P.malloc = bump floor)
    (below : ∀ range ∈ held, range.1 + range.2 ≤ floor) : P.Allocates held := by
  have given : ∀ blocks size, P.malloc blocks size ≠ 0 →
      P.malloc blocks size = 16 * (top floor blocks / 16 + 1) ∧ P.malloc blocks size + size ≤ 2 ^ 63 := by
    intro blocks size nonnull
    rw [same, bump] at nonnull ⊢
    split at nonnull
    · rename_i room
      rw [if_pos room]
      exact ⟨rfl, room⟩
    · exact absurd rfl nonnull
  refine ⟨?_, fun blocks size nonnull => (given blocks size nonnull).2, ?_, ?_⟩
  · intro blocks size nonnull
    exact ⟨_, (given blocks size nonnull).1⟩
  · intro blocks size nonnull b member
    have above := (le_top floor blocks).2 b member
    have base := (given blocks size nonnull).1
    exact .inr (by omega)
  · intro blocks size nonnull range member
    have above := (le_top floor blocks).1
    have base := (given blocks size nonnull).1
    have under := below range member
    exact .inr (by omega)

theorem bump_malloc {P : Platform} {floor : Nat} {h : Heap} {size : Nat} (same : P.malloc = bump floor)
    (room : top floor h.blocks + 16 + size ≤ 2 ^ 63) :
    P.malloc h.blocks size = 16 * (top floor h.blocks / 16 + 1) := by
  rw [same, bump, if_pos (by omega)]

/-- A platform with that allocator, no files, and one fixed vertex order. -/
def bumpPlatform (floor : Nat) (order : List Nat) : Platform where
  malloc := bump floor
  eightUpper := fun _ _ => 0
  topologicalSort := fun _ _ => order
  files := fun _ => none
  filein := []

end AflLive.Libgen
