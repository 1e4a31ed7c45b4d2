import AflLive.Fuzz.Calibrate
import AflLive.Library.Listing

/-! The end of `perform_dry_run`: of the entries of one target with the same trace checksum all
but one are disabled. -/
namespace AflLive.Fuzz.Calibrate

/-- A disabled entry counts as fuzzed and is never scored. -/
def QueueEntry.disable (q : QueueEntry) : QueueEntry := { q with disabled := true, wasFuzzed := true, perfScore := 0 }

/-- The entries both loops pass over. -/
def QueueEntry.passed (q : QueueEntry) : Bool := q.disabled || decide (q.calFailed ≠ 0) || decide (q.execCksum = 0)

/-- The inner loop over the later entries, until `q` itself is disabled. -/
def compareWithLater (q : QueueEntry) : List QueueEntry → QueueEntry × List QueueEntry
  | [] => (q, [])
  | p :: rest =>
    if p.passed = false ∧ p.execCksum = q.execCksum ∧ q.targetFunctionIdx = p.targetFunctionIdx then
      -- the shorter file is kept
      if q.len ≤ p.len then
        let (q, rest) := compareWithLater q rest
        (q, p.disable :: rest)
      else (q.disable, p :: rest)
    else
      let (q, rest) := compareWithLater q rest
      (q, p :: rest)

/-- The outer loop; it has as many rounds as there are entries. -/
def duplicateLoop : Nat → List QueueEntry → List QueueEntry
  | rounds + 1, q :: rest =>
    if q.passed then q :: duplicateLoop rounds rest
    else
      let (q, rest) := compareWithLater q rest
      q :: duplicateLoop rounds rest
  | _, queue => queue

def removeDuplicates (queue : List QueueEntry) : List QueueEntry := duplicateLoop queue.length queue

/-- The entries of a queue that are compared with each other for a target and a checksum. -/
def members (target cksum : Nat) (queue : List QueueEntry) : List QueueEntry :=
  queue.filter fun q => !q.passed && decide (q.targetFunctionIdx = target) && decide (q.execCksum = cksum)

/-- An entry as it was, or one that took part and is disabled. -/
def Treated (q q' : QueueEntry) : Prop := q' = q ∨ q.passed = false ∧ q' = q.disable

section
variable {q p : QueueEntry} {queue rest : List QueueEntry} {target cksum : Nat}

theorem mem_members : q ∈ members target cksum queue ↔
    q ∈ queue ∧ q.passed = false ∧ q.targetFunctionIdx = target ∧ q.execCksum = cksum := by
  simp [members, and_assoc]

@[simp] theorem disable_passed (q : QueueEntry) : q.disable.passed = true := rfl

theorem members_cons (q : QueueEntry) (queue : List QueueEntry) :
    members target cksum (q :: queue) =
      if q.passed = false ∧ q.targetFunctionIdx = target ∧ q.execCksum = cksum then q :: members target cksum queue
      else members target cksum queue := by
  simp [members, List.filter_cons, and_assoc]

theorem members_cons_passed (passed : q.passed = true) :
    members target cksum (q :: queue) = members target cksum queue := by
  rw [members_cons, if_neg (by simp [passed])]

theorem Treated.trans {r : QueueEntry} (first : Treated q p) (second : Treated p r) : Treated q r := by
  obtain rfl | ⟨part, rfl⟩ := first
  · exact second
  · obtain rfl | ⟨again, _⟩ := second
    · exact .inr ⟨part, rfl⟩
    · simp at again

theorem treated_refl (queue : List QueueEntry) : List.Forall₂ Treated queue queue :=
  List.forall₂_same.mpr fun _ _ => .inl rfl

/-- What the inner loop does for `q`: it leaves the other classes alone; in its own class either
`q` survives and every later member goes, or `q` goes and a shorter member stays, and the members
that went were no shorter than `q`. -/
structure Compared (q : QueueEntry) (rest : List QueueEntry) (q' : QueueEntry) (rest' : List QueueEntry) : Prop where
  treated : List.Forall₂ Treated (q :: rest) (q' :: rest')
  others : ∀ target cksum, ¬(q.targetFunctionIdx = target ∧ q.execCksum = cksum) →
    members target cksum rest' = members target cksum rest
  sub : ∀ m ∈ members q.targetFunctionIdx q.execCksum rest', m ∈ rest
  gone : ∀ m ∈ members q.targetFunctionIdx q.execCksum rest,
    m ∈ members q.targetFunctionIdx q.execCksum rest' ∨ q.len ≤ m.len
  winner : q' = q ∧ members q.targetFunctionIdx q.execCksum rest' = [] ∨
    q' = q.disable ∧ ∃ m ∈ members q.targetFunctionIdx q.execCksum rest', m.len < q.len

theorem compareWithLater_spec (part : q.passed = false) (rest : List QueueEntry) :
    Compared q rest (compareWithLater q rest).1 (compareWithLater q rest).2 := by
  induction rest with
  | nil => exact ⟨treated_refl _, fun _ _ _ => rfl, by simp [compareWithLater, members], by simp [members],
      .inl ⟨rfl, rfl⟩⟩
  | cons p rest ih =>
    obtain ⟨treated, others, sub, gone, winner⟩ := ih
    obtain ⟨first, later⟩ := List.forall₂_cons.mp treated
    unfold compareWithLater
    split
    · rename_i same
      obtain ⟨member, checksum, target⟩ := same
      have own : ∀ queue, members q.targetFunctionIdx q.execCksum (p :: queue) =
          p :: members q.targetFunctionIdx q.execCksum queue := fun queue => by
        rw [members_cons, if_pos ⟨member, target.symm, checksum⟩]
      have foreign : ∀ target' cksum queue, ¬(q.targetFunctionIdx = target' ∧ q.execCksum = cksum) →
          members target' cksum (p :: queue) = members target' cksum queue := fun target' cksum queue other => by
        rw [members_cons, if_neg]
        rintro ⟨_, rfl, rfl⟩
        exact other ⟨target, checksum.symm⟩
      split
      · rename_i longer
        refine ⟨.cons first (.cons (.inr ⟨member, rfl⟩) later), fun target' cksum other => ?_, fun m inside => ?_,
          fun m inside => ?_, ?_⟩
        · rw [members_cons_passed (disable_passed p), foreign _ _ _ other, others _ _ other]
        · rw [members_cons_passed (disable_passed p)] at inside
          exact List.mem_cons_of_mem _ (sub m inside)
        · rw [members_cons_passed (disable_passed p)]
          rw [own] at inside
          rcases List.mem_cons.mp inside with rfl | inside
          · exact .inr longer
          · exact gone m inside
        · rw [members_cons_passed (disable_passed p)]
          exact winner
      · rename_i shorter
        refine ⟨.cons (.inr ⟨part, rfl⟩) (treated_refl _), fun _ _ _ => rfl, fun m inside => (mem_members.mp inside).1,
          fun m inside => .inl inside, .inr ⟨rfl, p, ?_, by omega⟩⟩
        rw [own]
        exact List.mem_cons_self ..
    · rename_i different
      have outside : ∀ queue, members q.targetFunctionIdx q.execCksum (p :: queue) =
          members q.targetFunctionIdx q.execCksum queue := fun queue => by
        rw [members_cons, if_neg]
        rintro ⟨member, target, checksum⟩
        exact different ⟨member, checksum, target.symm⟩
      refine ⟨.cons first (.cons (.inl rfl) later), fun target cksum other => ?_, fun m inside => ?_,
        fun m inside => ?_, ?_⟩
      · rw [members_cons, members_cons, others _ _ other]
      · rw [outside] at inside
        exact List.mem_cons_of_mem _ (sub m inside)
      · rw [outside] at inside ⊢
        exact gone m inside
      · rw [outside]
        exact winner

/-- Nothing that is still compared has changed. -/
theorem members_treated {after : List QueueEntry} (treated : List.Forall₂ Treated queue after) :
    members target cksum after ⊆ members target cksum queue := by
  intro m inside
  obtain ⟨member, part, rest⟩ := mem_members.mp inside
  obtain ⟨q, there, rfl | ⟨_, rfl⟩⟩ := Listing.exists_of_forall₂ treated.flip m member
  · exact mem_members.mpr ⟨there, part, rest⟩
  · simp at part

/-- One member of a class is left, and none was shorter. -/
def Settled (before after : List QueueEntry) : Prop := ∃ m ∈ before, after = [m] ∧ ∀ e ∈ before, m.len ≤ e.len

theorem duplicateLoop_spec {rounds : Nat} (enough : queue.length ≤ rounds) :
    List.Forall₂ Treated queue (duplicateLoop rounds queue) ∧ ∀ target cksum,
      members target cksum queue ≠ [] →
        Settled (members target cksum queue) (members target cksum (duplicateLoop rounds queue)) := by
  induction rounds generalizing queue with
  | zero =>
    obtain rfl : queue = [] := List.length_eq_zero_iff.mp (by omega)
    exact ⟨.nil, fun _ _ nonempty => absurd rfl nonempty⟩
  | succ rounds ih =>
    cases queue with
    | nil => exact ⟨.nil, fun _ _ nonempty => absurd rfl nonempty⟩
    | cons q rest =>
      rw [List.length_cons] at enough
      unfold duplicateLoop
      split
      · rename_i passed
        obtain ⟨treated, settled⟩ := @ih rest (by omega)
        refine ⟨.cons (.inl rfl) treated, fun target cksum nonempty => ?_⟩
        rw [members_cons_passed passed] at nonempty ⊢
        rw [members_cons_passed passed]
        exact settled target cksum nonempty
      · rename_i part
        rw [Bool.not_eq_true] at part
        have spec := compareWithLater_spec part rest
        generalize compareWithLater q rest = pair at spec
        obtain ⟨q', rest'⟩ := pair
        obtain ⟨first, others, sub, gone, winner⟩ := spec
        dsimp only at *
        obtain ⟨head, tail⟩ := List.forall₂_cons.mp first
        obtain ⟨treated, settled⟩ := @ih rest' (by rw [← tail.length_eq]; omega)
        refine ⟨.cons head (Listing.forall₂_trans tail treated fun _ _ _ _ first later => first.trans later), fun target cksum nonempty => ?_⟩
        by_cases own : q.targetFunctionIdx = target ∧ q.execCksum = cksum
        · obtain ⟨rfl, rfl⟩ := own
          have before : members q.targetFunctionIdx q.execCksum (q :: rest) =
              q :: members q.targetFunctionIdx q.execCksum rest := by
            rw [members_cons, if_pos ⟨part, rfl, rfl⟩]
          rw [before]
          obtain ⟨rfl, none⟩ | ⟨rfl, m, inside, shorter⟩ := winner
          · have left : members q'.targetFunctionIdx q'.execCksum (duplicateLoop rounds rest') = [] := by
              rw [← List.subset_nil, ← none]
              exact members_treated treated
            refine ⟨q', List.mem_cons_self .., ?_, fun e member => ?_⟩
            · rw [members_cons, if_pos ⟨part, rfl, rfl⟩, left]
            · rcases List.mem_cons.mp member with rfl | member
              · exact le_rfl
              · rcases gone e member with still | longer
                · rw [none] at still
                  cases still
                · exact longer
          · obtain ⟨best, stays, single, minimal⟩ := settled _ _ (List.ne_nil_of_mem inside)
            have short : best.len < q.len := (minimal m inside).trans_lt shorter
            refine ⟨best, ?_, ?_, fun e member => ?_⟩
            · obtain ⟨there, rest⟩ := mem_members.mp stays
              exact List.mem_cons_of_mem _ (mem_members.mpr ⟨sub best stays, rest⟩)
            · rw [members_cons_passed (disable_passed q), single]
            · rcases List.mem_cons.mp member with rfl | member
              · exact short.le
              · rcases gone e member with still | longer
                · exact minimal e still
                · exact short.le.trans longer
        · have skip : ∀ p queue, Treated q p → members target cksum (p :: queue) = members target cksum queue := by
            rintro p queue (rfl | ⟨_, rfl⟩)
            · rw [members_cons, if_neg fun same => own same.2]
            · exact members_cons_passed (disable_passed q)
          rw [skip q rest (.inl rfl), ← others _ _ own] at nonempty ⊢
          rw [skip q' _ head]
          exact settled target cksum nonempty

/-- The enabled entries of a target with a given trace checksum. -/
def classOf (target cksum : Nat) (queue : List QueueEntry) : List QueueEntry :=
  queue.filter fun q => !q.disabled && decide (q.targetFunctionIdx = target) && decide (q.execCksum = cksum)

theorem classOf_eq (calibrated : ∀ q ∈ queue, q.calFailed = 0) (nonzero : cksum ≠ 0) :
    classOf target cksum queue = members target cksum queue := by
  refine List.filter_congr fun q inside => ?_
  by_cases checksum : q.execCksum = cksum
  · simp [QueueEntry.passed, calibrated q inside, checksum, nonzero]
  · simp [checksum]

/-- Of each class of calibrated entries the loop leaves one enabled, and it is one of the
shortest. Every other entry of the queue is as it was, and no target loses its last one. -/
theorem removeDuplicates_keeps_best (calibrated : ∀ q ∈ queue, q.calFailed = 0) :
    (∀ target cksum, cksum ≠ 0 → classOf target cksum queue ≠ [] → ∃ m ∈ classOf target cksum queue,
      classOf target cksum (removeDuplicates queue) = [m] ∧ ∀ e ∈ classOf target cksum queue, m.len ≤ e.len) ∧
    List.Forall₂ (fun q q' => q' = q ∨ q.disabled = false ∧ q.execCksum ≠ 0 ∧ q' = q.disable)
      queue (removeDuplicates queue) ∧
    ∀ target, (∃ q ∈ queue, q.disabled = false ∧ q.targetFunctionIdx = target) →
      ∃ q ∈ removeDuplicates queue, q.disabled = false ∧ q.targetFunctionIdx = target := by
  obtain ⟨treated, settled⟩ := duplicateLoop_spec (le_refl queue.length)
  have still : ∀ q ∈ removeDuplicates queue, q.calFailed = 0 := by
    intro q' inside
    obtain ⟨q, there, rfl | ⟨_, rfl⟩⟩ := Listing.exists_of_forall₂ treated.flip q' inside
    · exact calibrated q' there
    · exact calibrated q there
  have best : ∀ target cksum, cksum ≠ 0 → classOf target cksum queue ≠ [] →
      Settled (classOf target cksum queue) (classOf target cksum (removeDuplicates queue)) := by
    intro target cksum nonzero nonempty
    rw [classOf_eq calibrated nonzero] at nonempty ⊢
    rw [classOf_eq still nonzero]
    exact settled target cksum nonempty
  refine ⟨best, treated.imp fun q q' each => ?_, ?_⟩
  · obtain same | ⟨part, gone⟩ := each
    · exact .inl same
    · simp only [QueueEntry.passed, Bool.or_eq_false_iff, decide_eq_false_iff_not] at part
      exact .inr ⟨part.1.1, part.2, gone⟩
  · rintro target ⟨q, there, enabled, rfl⟩
    by_cases nonzero : q.execCksum = 0
    · obtain ⟨q', inside, rfl | ⟨part, _⟩⟩ := Listing.exists_of_forall₂ treated q there
      · exact ⟨q', inside, enabled, rfl⟩
      · simp [QueueEntry.passed, nonzero] at part
    · have member : q ∈ classOf q.targetFunctionIdx q.execCksum queue := by simp [classOf, there, enabled]
      obtain ⟨m, _, single, _⟩ := best _ _ nonzero (List.ne_nil_of_mem member)
      have inside : m ∈ classOf q.targetFunctionIdx q.execCksum (removeDuplicates queue) := by simp [single]
      simp only [classOf, List.mem_filter, Bool.and_eq_true, Bool.not_eq_true', decide_eq_true_eq] at inside
      exact ⟨m, inside.1, inside.2.1.1, inside.2.1.2⟩

end

/-- Three seeds of one target with the same trace, and one of another target. -/
def fourSeeds : List QueueEntry :=
  [⟨5, 0, false, false, 0, 9, 1, 1, true, false, 1, 1⟩, ⟨7, 0, false, false, 0, 9, 1, 1, true, false, 1, 1⟩,
    ⟨3, 1, false, false, 0, 9, 1, 1, true, false, 1, 1⟩, ⟨4, 0, false, false, 0, 9, 1, 1, true, false, 1, 1⟩]

theorem shortest_of_fourSeeds_kept :
    (removeDuplicates fourSeeds).map QueueEntry.disabled = [true, true, false, false] ∧
      ∃ m ∈ classOf 0 9 fourSeeds, classOf 0 9 (removeDuplicates fourSeeds) = [m] ∧
        ∀ e ∈ classOf 0 9 fourSeeds, m.len ≤ e.len := by
  have calibrated : ∀ q ∈ fourSeeds, q.calFailed = 0 := by decide
  exact ⟨by decide, (removeDuplicates_keeps_best calibrated).1 0 9 (by decide) (by decide)⟩

end AflLive.Fuzz.Calibrate
