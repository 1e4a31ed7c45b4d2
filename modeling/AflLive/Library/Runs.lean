import Mathlib

/-! Runs of a machine that takes one event after the other and may refuse one. -/
namespace AflLive.Runs

variable {σ ε : Type} (step : σ → ε → Option σ)

def run : σ → List ε → Option σ
  | s, [] => some s
  | s, event :: rest => (step s event).bind (run · rest)

/-- Every event is allowed in the state that takes it. -/
def Along (allowed : σ → ε → Prop) : σ → List ε → Prop
  | _, [] => True
  | s, event :: rest => allowed s event ∧ ∀ t ∈ step s event, Along allowed t rest

variable {step} {s t u : σ} {event : ε} {events rest : List ε}

instance decidableAlong (allowed : σ → ε → Prop) [∀ s event, Decidable (allowed s event)] :
    (s : σ) → (events : List ε) → Decidable (Along step allowed s events)
  | _, [] => .isTrue trivial
  | s, event :: rest =>
    have _ := fun t => decidableAlong allowed t rest
    inferInstanceAs (Decidable (allowed s event ∧ ∀ t ∈ step s event, Along step allowed t rest))

theorem run_cons : run step s (event :: rest) = some u ↔ ∃ t, step s event = some t ∧ run step t rest = some u := by
  simp [run, Option.bind_eq_some_iff]

theorem run_append : run step s (events ++ rest) = some u ↔
    ∃ t, run step s events = some t ∧ run step t rest = some u := by
  induction events generalizing s with
  | nil => simp [run]
  | cons event events ih =>
    simp only [List.cons_append, run_cons, ih]
    constructor
    · rintro ⟨t, first, v, middle, last⟩
      exact ⟨v, ⟨t, first, middle⟩, last⟩
    · rintro ⟨v, ⟨t, first, middle⟩, last⟩
      exact ⟨t, first, v, middle, last⟩

theorem run_snoc : run step s (events ++ [event]) = some u ↔
    ∃ t, run step s events = some t ∧ step t event = some u := by
  simp [run_append, run]

theorem along_append {allowed : σ → ε → Prop} : Along step allowed s (events ++ rest) ↔
    Along step allowed s events ∧ ∀ t, run step s events = some t → Along step allowed t rest := by
  induction events generalizing s with
  | nil => simp [Along, run]
  | cons event events ih =>
    simp only [List.cons_append, Along, run_cons, ih, Option.mem_def]
    constructor
    · rintro ⟨first, later⟩
      refine ⟨⟨first, fun t is => (later t is).1⟩, ?_⟩
      rintro u ⟨t, is, reached⟩
      exact (later t is).2 u reached
    · rintro ⟨⟨first, later⟩, last⟩
      exact ⟨first, fun t is => ⟨later t is, fun u reached => last u ⟨t, is, reached⟩⟩⟩

theorem along_of_forall {allowed : σ → ε → Prop} (all : ∀ event ∈ events, ∀ s, allowed s event) :
    Along step allowed s events := by
  induction events generalizing s with
  | nil => trivial
  | cons event events ih =>
    exact ⟨all event List.mem_cons_self s, fun t _ => ih fun later member => all later (List.mem_cons_of_mem _ member)⟩

/-- What every allowed step keeps, every allowed run keeps. -/
theorem Along.invariant {allowed : σ → ε → Prop} {inv : σ → Prop}
    (kept : ∀ s event t, inv s → allowed s event → step s event = some t → inv t)
    (along : Along step allowed s events) (start : inv s) (ran : run step s events = some t) : inv t := by
  induction events generalizing s with
  | nil =>
    obtain rfl := Option.some.inj ran
    exact start
  | cons event events ih =>
    obtain ⟨u, first, last⟩ := run_cons.mp ran
    exact ih (along.2 u first) (kept s event u start along.1 first) last

theorem Along.imp {allowed permitted : σ → ε → Prop} {inv : σ → Prop}
    (weaker : ∀ s event, inv s → allowed s event → permitted s event)
    (kept : ∀ s event t, inv s → allowed s event → step s event = some t → inv t)
    (along : Along step allowed s events) (start : inv s) : Along step permitted s events := by
  induction events generalizing s with
  | nil => trivial
  | cons event events ih =>
    refine ⟨weaker s event start along.1, fun t first => ?_⟩
    exact ih (along.2 t first) (kept s event t start along.1 first)

/-- An invariant of all steps is one of all runs. -/
theorem run_invariant (inv : σ → Prop) (kept : ∀ s event t, inv s → step s event = some t → inv t)
    (start : inv s) (ran : run step s events = some t) : inv t := by
  induction events generalizing s with
  | nil =>
    obtain rfl := Option.some.inj ran
    exact start
  | cons event events ih =>
    obtain ⟨u, first, last⟩ := run_cons.mp ran
    exact ih (kept s event u start first) last

/-- A run is no longer than what its steps add to a measure. -/
theorem run_length_le (inv : σ → Prop) (measure : σ → Nat)
    (kept : ∀ s event t, inv s → step s event = some t → inv t ∧ measure s < measure t)
    (start : inv s) (ran : run step s events = some t) : measure s + events.length ≤ measure t := by
  induction events generalizing s with
  | nil =>
    obtain rfl := Option.some.inj ran
    exact le_rfl
  | cons event events ih =>
    obtain ⟨u, first, last⟩ := run_cons.mp ran
    obtain ⟨next, more⟩ := kept s event u start first
    have rest := ih next last
    rw [List.length_cons]
    omega

/-- Where a step keeps the invariant exactly if it is allowed, a run consists of allowed steps
exactly if the invariant holds throughout. -/
theorem along_iff {allowed : σ → ε → Prop} {inv : σ → Prop}
    (kept : ∀ s event t, inv s → step s event = some t → (inv t ↔ allowed s event)) (start : inv s)
    (ran : run step s events = some t) :
    Along step allowed s events ↔ ∀ early u, early <+: events → run step s early = some u → inv u := by
  constructor
  · rintro along early u ⟨rest, rfl⟩ reached
    induction early generalizing s with
    | nil =>
      obtain rfl := Option.some.inj reached
      exact start
    | cons event early ih =>
      obtain ⟨v, first, last⟩ := run_cons.mp reached
      obtain ⟨v', first', ran⟩ := run_cons.mp ran
      obtain rfl := Option.some.inj (first.symm.trans first')
      exact ih ((kept s event v start first).mpr along.1) ran (along.2 v first) last
  · intro throughout
    induction events generalizing s with
    | nil => trivial
    | cons event events ih =>
      obtain ⟨v, first, last⟩ := run_cons.mp ran
      have next : inv v := throughout [event] v (by simp) (run_cons.mpr ⟨v, first, rfl⟩)
      refine ⟨(kept s event v start first).mp next, fun w is => ?_⟩
      obtain rfl := Option.some.inj (first.symm.trans is)
      refine ih next last fun early u begins reached => throughout (event :: early) u ?_ ?_
      · exact (List.prefix_cons_inj event).mpr begins
      · exact run_cons.mpr ⟨v, first, reached⟩

end AflLive.Runs
