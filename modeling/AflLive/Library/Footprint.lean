import AflLive.Library.Bytes

/-! The places an operation on a memory image writes to, seen from outside: those where it can
change what is there. -/
namespace AflLive.Image
variable {f g : Image → Image} {places more : Set Nat} {x : Nat}

def Touches (f : Image → Image) (x : Nat) : Prop := ∃ m, f m x ≠ m x

/-- The operation writes bytes of its own at some places and leaves the others. -/
structure Overwrites (f : Image → Image) (places : Set Nat) : Prop where
  same : ∀ x ∈ places, ∀ m m', f m x = f m' x
  kept : ∀ x ∉ places, ∀ m, f m x = m x

theorem Overwrites.touches_iff (writes : Overwrites f places) : Touches f x ↔ x ∈ places := by
  constructor
  · rintro ⟨m, changed⟩
    by_contra outside
    exact changed (writes.kept x outside m)
  · intro inside
    -- what is written there differs from 0 or from 1
    by_cases zero : f (fun _ => 0) x = 0
    · refine ⟨fun _ => 1, ?_⟩
      rw [writes.same x inside _ fun _ => 0, zero]
      exact (by decide : (0 : UInt8) ≠ 1)
    · exact ⟨fun _ => 0, zero⟩

theorem overwrites_poke (a : Nat) (bytes : List UInt8) :
    Overwrites (fun m => m.poke a bytes) (Set.Ico a (a + bytes.length)) where
  same x inside m m' := by
    obtain ⟨lower, upper⟩ := inside
    have place : x = a + (x - a) := by omega
    rw [place, poke_inside m (by omega), poke_inside m' (by omega)]
  kept x outside m := poke_outside m bytes (by simpa [Set.mem_Ico, imp_iff_not_or] using outside)

theorem Overwrites.after (second : Overwrites g more) (first : Overwrites f places) :
    Overwrites (fun m => g (f m)) (places ∪ more) where
  same x inside m m' := by
    by_cases later : x ∈ more
    · exact second.same x later _ _
    · have earlier : x ∈ places := inside.resolve_right later
      rw [second.kept x later, second.kept x later]
      exact first.same x earlier m m'
  kept x outside m := by
    rw [Set.mem_union, not_or] at outside
    rw [second.kept x outside.2, first.kept x outside.1]

end AflLive.Image
