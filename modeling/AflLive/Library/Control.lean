import Mathlib

/-! Postconditions of fallible computations. The errors a caller tolerates are
a parameter, so one rule serves both partial correctness (every error
tolerated) and total correctness (none, or only an exhausted resource). -/
namespace AflLive.Control
variable {ε α β σ : Type} {allowed : ε → Prop}

theorem ok_bind (a : α) (f : α → Except ε β) : (Except.ok a >>= f) = f a := rfl

theorem bind_eq_ok {x : Except ε α} {f : α → Except ε β} {b : β} :
    (x >>= f) = .ok b ↔ ∃ a, x = .ok a ∧ f a = .ok b := by
  cases x with
  | error e => simp [bind, Except.bind]
  | ok a => simp [bind, Except.bind]

theorem map_eq_ok {x : Except ε α} {f : α → β} {b : β} : x.map f = .ok b ↔ ∃ a, x = .ok a ∧ f a = b := by
  cases x with
  | error e => simp [Except.map]
  | ok a => simp [Except.map]

/-- Either an allowed error, or a result that meets the postcondition. -/
def Ensures (allowed : ε → Prop) (post : α → Prop) : Except ε α → Prop
  | .error e => allowed e
  | .ok a => post a

namespace Ensures
variable {post : α → Prop} {next : β → Prop} {x : Except ε α} {f : α → Except ε β}

theorem weaken {stronger : α → Prop} (first : Ensures allowed stronger x)
    (imp : ∀ a, stronger a → post a) : Ensures allowed post x := by
  cases x with
  | error e => exact first
  | ok a => exact imp a first

theorem allow {wider : ε → Prop} (first : Ensures allowed post x) (imp : ∀ e, allowed e → wider e) :
    Ensures wider post x := by
  cases x with
  | error e => exact imp e first
  | ok a => exact first

theorem bind (first : Ensures allowed post x) (rest : ∀ a, post a → Ensures allowed next (f a)) :
    Ensures allowed next (x >>= f) := by
  cases x with
  | error e => exact first
  | ok a => exact rest a first

/-- The result of a computation that is known to return is its only outcome. -/
theorem result (first : Ensures allowed post x) (returned : x = .ok a) : post a := by
  subst returned
  exact first

theorem of_result (every : ∀ a, x = .ok a → post a) : Ensures (fun _ : ε => True) post x := by
  cases x with
  | error e => trivial
  | ok a => exact every a rfl

theorem map {f : α → β} (first : Ensures allowed post x) : Ensures allowed (fun _ => True) (x.map f) := by
  cases x with
  | error e => exact first
  | ok a => trivial

theorem known (first : Ensures allowed post x) : Ensures allowed (fun a => x = .ok a) x := by
  cases x with
  | error e => exact first
  | ok a => exact rfl

theorem eq_ok {x : Except ε α} {a : α} (first : Ensures (fun _ : ε => False) (· = a) x) : x = .ok a := by
  cases x with
  | error e => exact first.elim
  | ok b => exact congrArg Except.ok first

end Ensures

/-- A counted loop over a state: `for (i = 0; i < n; i++) s = body(i, s)`. -/
def forTo (body : Nat → σ → Except ε σ) : Nat → σ → Except ε σ
  | 0, s => .ok s
  | n + 1, s => forTo body n s >>= body n

theorem forTo_one (body : Nat → σ → Except ε σ) (s : σ) : forTo body 1 s = body 0 s := rfl

theorem forTo_congr {body body' : Nat → σ → Except ε σ} {n : Nat} {s : σ}
    (same : ∀ i < n, ∀ t, body i t = body' i t) : forTo body n s = forTo body' n s := by
  induction n with
  | zero => rfl
  | succ n ih =>
    simp only [forTo, ih fun i lt => same i (by omega)]
    cases forTo body' n s with
    | error e => rfl
    | ok t => exact same n (by omega) t

/-- A loop commutes with a map of its state that each round respects. -/
theorem forTo_map {τ : Type} {body : Nat → σ → Except ε σ} {body' : Nat → τ → Except ε τ} {f : σ → τ} (n : Nat) (s : σ)
    (each : ∀ i t, (body i t).map f = body' i (f t)) : (forTo body n s).map f = forTo body' n (f s) := by
  induction n with
  | zero => rfl
  | succ n ih =>
    rw [forTo, forTo, ← ih]
    cases forTo body n s with
    | error e => rfl
    | ok t => exact each n t

theorem foldlM_map {τ ι : Type} {body : σ → ι → Except ε σ} {body' : τ → ι → Except ε τ} {f : σ → τ} (xs : List ι)
    (s : σ) (each : ∀ t x, (body t x).map f = body' (f t) x) : (xs.foldlM body s).map f = xs.foldlM body' (f s) := by
  induction xs generalizing s with
  | nil => rfl
  | cons x xs ih =>
    rw [List.foldlM_cons, List.foldlM_cons, ← each]
    cases body s x with
    | error e => rfl
    | ok t => exact ih t

theorem forTo_eq_foldlM (body : Nat → σ → Except ε σ) (n : Nat) (s : σ) :
    forTo body n s = (List.range n).foldlM (fun t i => body i t) s := by
  induction n with
  | zero => rfl
  | succ n ih =>
    rw [forTo, ih, List.range_succ, List.foldlM_append]
    simp only [List.foldlM_cons, List.foldlM_nil, bind_pure]

theorem foldlM_flatMap {ι : Type} (body : σ → α → Except ε σ) (parts : ι → List α) (xs : List ι) (s : σ) :
    (xs.flatMap parts).foldlM body s = xs.foldlM (fun t x => (parts x).foldlM body t) s := by
  induction xs generalizing s with
  | nil => rfl
  | cons x xs ih => simp only [List.flatMap_cons, List.foldlM_append, List.foldlM_cons, ih]

theorem forTo_ensures {body : Nat → σ → Except ε σ} {I : Nat → σ → Prop} {s : σ} (n : Nat)
    (start : I 0 s)
    (step : ∀ i < n, ∀ t, I i t → Ensures allowed (I (i + 1)) (body i t)) :
    Ensures allowed (I n) (forTo body n s) := by
  induction n with
  | zero => exact start
  | succ n ih =>
    have before := ih (fun i lt => step i (by omega))
    exact before.bind (fun t holds => step n (by omega) t holds)

/-- A fold over a list keeps an invariant indexed by what has been consumed. -/
theorem foldlM_ensures {body : σ → α → Except ε σ} {I : List α → σ → Prop} {s : σ}
    (xs : List α) (start : I [] s)
    (step : ∀ before x after, xs = before ++ x :: after →
      ∀ t, I before t → Ensures allowed (I (before ++ [x])) (body t x)) :
    Ensures allowed (I xs) (xs.foldlM body s) := by
  induction xs using List.reverseRecOn with
  | nil => exact start
  | append_singleton before x ih =>
    rw [List.foldlM_append]
    have prior := ih (fun front y back same t holds =>
      step front y (back ++ [x]) (by simp [same]) t holds)
    refine prior.bind (fun t holds => ?_)
    have last := step before x [] rfl t holds
    rw [List.foldlM_cons]
    exact last.bind (fun u final => final)

theorem mapM_eq_ok {f : α → Except ε β} {xs : List α} {ys : List β} :
    xs.mapM f = .ok ys ↔ List.Forall₂ (fun x y => f x = .ok y) xs ys := by
  induction xs generalizing ys with
  | nil =>
    rw [List.mapM_nil, List.forall₂_nil_left_iff]
    exact ⟨fun same => (Except.ok.inj same).symm, fun same => by rw [same]; rfl⟩
  | cons x xs ih =>
    rw [List.mapM_cons, bind_eq_ok]
    constructor
    · rintro ⟨y, first, rest⟩
      obtain ⟨ys', later, same⟩ := bind_eq_ok.mp rest
      cases same
      exact .cons first (ih.mp later)
    · intro each
      cases each with
      | cons first rest => exact ⟨_, first, bind_eq_ok.mpr ⟨_, ih.mpr rest, rfl⟩⟩

theorem mapM_ensures {f : α → Except ε β} {xs : List α}
    (each : ∀ x ∈ xs, Ensures allowed (fun _ => True) (f x)) : Ensures allowed (fun _ => True) (xs.mapM f) := by
  induction xs with
  | nil => trivial
  | cons x xs ih =>
    rw [List.mapM_cons]
    refine (each x (by simp)).bind fun b _ => ?_
    exact (ih fun y member => each y (by simp [member])).bind fun bs _ => trivial

theorem mapM_ok {f : α → Except ε β} {g : α → β} {xs : List α} (each : ∀ x ∈ xs, f x = .ok (g x)) :
    xs.mapM f = .ok (xs.map g) := by
  refine mapM_eq_ok.mpr (List.forall₂_map_right_iff.mpr ?_)
  exact List.forall₂_same.mpr each

theorem filterM_ok {f : α → Except ε Bool} {p : α → Bool} {xs : List α} (each : ∀ x ∈ xs, f x = .ok (p x)) :
    xs.filterM f = .ok (xs.filter p) := by
  have run : ∀ (xs done : List α), (∀ x ∈ xs, f x = .ok (p x)) →
      xs.filterAuxM f done = .ok ((xs.filter p).reverse ++ done) := by
    intro xs
    induction xs with
    | nil => intro done _; rfl
    | cons x xs ih =>
      intro done each
      have rest := fun done => ih done fun y inside => each y (.tail _ inside)
      rw [List.filterAuxM, each x (.head _), ok_bind, rest]
      cases here : p x <;> simp [here]
  rw [List.filterM, run xs [] each, ok_bind, List.append_nil, List.reverse_reverse]
  rfl

/-- The first computation does what the second one does, results related, or it fails with an
error of its own. -/
inductive Follows (own : ε → Prop) (R : α → β → Prop) : Except ε α → Except ε β → Prop where
  | ok {a : α} {b : β} (related : R a b) : Follows own R (.ok a) (.ok b)
  | error (e : ε) : Follows own R (.error e) (.error e)
  | own {e : ε} {y : Except ε β} (holds : own e) : Follows own R (.error e) y

namespace Follows
variable {own : ε → Prop} {R : α → β → Prop} {α' β' : Type} {S : α' → β' → Prop} {x : Except ε α} {y : Except ε β}
  {f : α → Except ε α'} {g : β → Except ε β'}

theorem bind (first : Follows own R x y) (rest : ∀ a b, R a b → Follows own S (f a) (g b)) :
    Follows own S (x >>= f) (y >>= g) := by
  cases first with
  | ok related => exact rest _ _ related
  | error e => exact .error e
  | own holds => exact .own holds

theorem known (first : Follows own R x y) : Follows own (fun a b => R a b ∧ y = .ok b) x y := by
  cases first with
  | ok related => exact .ok ⟨related, rfl⟩
  | error e => exact .error e
  | own holds => exact .own holds

theorem of_ok {a : α} (first : Follows own R x y) (returned : x = .ok a) : ∃ b, y = .ok b ∧ R a b := by
  subst returned
  cases first with
  | ok related => exact ⟨_, rfl, related⟩

/-- Without errors of its own the first computation ends as the second one does. -/
theorem isOk_iff (first : Follows own R x y) (none : ∀ e, ¬own e) : (∃ a, x = .ok a) ↔ ∃ b, y = .ok b := by
  cases first with
  | ok related => simp
  | error e => simp
  | own holds => exact absurd holds (none _)

end Follows
end AflLive.Control
