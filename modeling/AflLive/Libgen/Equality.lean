import AflLive.Libgen.Serialize

/-! `constraintsImplyEquality` for lengths. It looks at ten probes; every constraint is monotone
in the length, so the two extreme ones decide. -/
namespace AflLive.Libgen
open Bytes Control

section
variable {cs : List Constraint} {h : Heap}

/-- A list of constraints that runs on one length can read all of its bounds. -/
theorem runConstraints_readable {lhs after : Nat} (ran : runConstraints h .pointer cs lhs = .ok after) :
    ∀ c ∈ cs, c.rhs.Readable h 4 := by
  induction cs generalizing lhs with
  | nil => simp
  | cons c rest ih =>
    obtain ⟨middle, first, remaining⟩ := bind_eq_ok.mp ran
    intro d member
    rcases List.mem_cons.mp member with rfl | member
    · exact d.run_readable (show LhsType.pointer.Comparable from trivial) first
    · exact ih remaining d member

/-- What a list of constraints makes of a length. -/
def settledLength (h : Heap) (cs : List Constraint) (length : Nat) : Nat :=
  (Clamp.applyAll (cs.map (Constraint.bound h .pointer false)) (length : Int)).toNat

theorem runConstraints_length (readable : ∀ c ∈ cs, c.rhs.Readable h 4) {length : Nat} (small : length < 2 ^ 32) :
    runConstraints h .pointer cs length = .ok (settledLength h cs length) := by
  obtain ⟨after, ran, clamped, bounded⟩ := @runConstraints_clamps cs h .pointer false trivial (fun _ _ => rfl)
    readable length
  have fits : after < 256 ^ 4 := bounded 4 le_rfl small
  have plain : ∀ v : Nat, v < 256 ^ 4 → interpret false 4 (v % 256 ^ 4) = v := by
    intro v below
    rw [Nat.mod_eq_of_lt below]
    rfl
  have same : (after : Int) = Clamp.applyAll (cs.map (Constraint.bound h .pointer false)) length := by
    rw [← plain after fits, ← plain length small]
    exact clamped
  rw [ran, settledLength, ← same, Int.toNat_natCast]

theorem settledLength_mono {a b : Nat} (le : a ≤ b) : settledLength h cs a ≤ settledLength h cs b :=
  Int.toNat_le_toNat (Clamp.applyAll_mono _ (Int.ofNat_le.mpr le))

theorem pathologicalValues_lt : ∀ x ∈ pathologicalValues, x < 2 ^ 32 := by decide

/-- The probes agree exactly if the shortest and the longest length do. -/
theorem probes_agree_iff {f : Nat → Nat} (mono : ∀ a b, a ≤ b → f a ≤ f b) :
    (pathologicalValues.map f).all (· == (pathologicalValues.map f).headD 0) = true ↔ ∀ x < 2 ^ 32, f x = f 0 := by
  have head : (pathologicalValues.map f).headD 0 = f 0 := rfl
  rw [head, List.all_map, List.all_eq_true]
  simp only [Function.comp_apply, beq_iff_eq]
  constructor
  · intro agree x small
    have extreme : f 4294967295 = f 0 := agree 4294967295 (by decide)
    exact le_antisymm (extreme ▸ mono x 4294967295 (by omega)) (mono 0 x (Nat.zero_le x))
  · intro constant x probe
    exact constant x (pathologicalValues_lt x probe)

theorem constraintsImplyEquality_eq (readable : ∀ c ∈ cs, c.rhs.Readable h 4) :
    constraintsImplyEquality h .pointer cs = .ok ((pathologicalValues.map (settledLength h cs)).all
      (· == (pathologicalValues.map (settledLength h cs)).headD 0)) := by
  have runs : pathologicalValues.mapM (runConstraints h .pointer cs) =
      .ok (pathologicalValues.map (settledLength h cs)) := by
    refine mapM_eq_ok.mpr (List.forall₂_map_right_iff.mpr (List.forall₂_same.mpr fun x probe => ?_))
    exact runConstraints_length readable (pathologicalValues_lt x probe)
  rw [constraintsImplyEquality, runs]
  rfl

/-- The heuristic is exact for lengths: it says yes exactly if the constraints make the same
length of all 2 ^ 32. It only fails where a bound cannot be read. -/
theorem constraintsImplyEquality_iff (h : Heap) (cs : List Constraint) :
    (constraintsImplyEquality h .pointer cs = .ok true ↔
      ∃ n, ∀ x < 2 ^ 32, runConstraints h .pointer cs x = .ok n) ∧
    (constraintsImplyEquality h .pointer cs = .ok false ↔
      (∀ c ∈ cs, c.rhs.Readable h 4) ∧ ¬∃ n, ∀ x < 2 ^ 32, runConstraints h .pointer cs x = .ok n) ∧
    constraintsImplyEquality h .pointer [] = .ok false := by
  by_cases readable : ∀ c ∈ cs, c.rhs.Readable h 4
  · have constant : (∀ x < 2 ^ 32, settledLength h cs x = settledLength h cs 0) ↔
        ∃ n, ∀ x < 2 ^ 32, runConstraints h .pointer cs x = .ok n := by
      constructor
      · intro same
        exact ⟨settledLength h cs 0, fun x small => by rw [runConstraints_length readable small, same x small]⟩
      · rintro ⟨n, each⟩ x small
        have here := (runConstraints_length readable small).symm.trans (each x small)
        have zero : 0 < 2 ^ 32 := by norm_num
        have first := (runConstraints_length readable zero).symm.trans (each 0 zero)
        exact (Except.ok.inj here).trans (Except.ok.inj first).symm
    rw [constraintsImplyEquality_eq readable, ← constant, ← probes_agree_iff fun a b => settledLength_mono]
    refine ⟨by simp only [Except.ok.injEq], ?_, rfl⟩
    simp only [Except.ok.injEq, Bool.not_eq_true, and_iff_right readable]
  · have never : ∀ x n, runConstraints h .pointer cs x ≠ .ok n :=
      fun x n ran => readable (runConstraints_readable ran)
    have fails : ∀ b, constraintsImplyEquality h .pointer cs ≠ .ok b := by
      intro b returned
      obtain ⟨results, runs, _⟩ := bind_eq_ok.mp returned
      cases mapM_eq_ok.mp runs with
      | cons first rest => exact never _ _ first
    refine ⟨iff_of_false (fails true) ?_, iff_of_false (fails false) fun both => readable both.1, rfl⟩
    rintro ⟨n, each⟩
    exact never 0 n (each 0 (by norm_num))

end
end AflLive.Libgen
