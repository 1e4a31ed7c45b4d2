import AflLive.Library.Control

/-! A recursive function given by its body, a computation that may call the function and goes on
with the answer. Evaluation is by fuel; a call ends for some fuel exactly when the nested calls it
leads to are well-founded. -/
namespace AflLive.Recursion
open Control Relation

/-- A computation that calls with arguments in `α` and is answered in `β`. -/
inductive Proc (ε α β γ : Type) where
  | done (result : Except ε γ)
  | call (argument : α) (next : β → Proc ε α β γ)

namespace Proc
variable {ε α β γ δ σ ι : Type}

def bind : Proc ε α β γ → (γ → Proc ε α β δ) → Proc ε α β δ
  | done (.ok c), f => f c
  | done (.error e), _ => done (.error e)
  | call a next, f => call a fun b => (next b).bind f

instance : Monad (Proc ε α β) where
  pure c := done (.ok c)
  bind := Proc.bind

def ask (a : α) : Proc ε α β β := call a fun b => done (.ok b)

/-- The counted loop of `Control.forTo`. -/
def forTo (body : Nat → σ → Proc ε α β σ) : Nat → σ → Proc ε α β σ
  | 0, s => done (.ok s)
  | n + 1, s => (forTo body n s).bind (body n)

/-! ### Running -/

def run (answer : α → Except ε β) : Proc ε α β γ → Except ε γ
  | done result => result
  | call a next => answer a >>= fun b => (next b).run answer

section Run
variable (answer : α → Except ε β)

@[simp] theorem run_done (result : Except ε γ) : (done result : Proc ε α β γ).run answer = result := rfl

@[simp] theorem run_pure (c : γ) : (pure c : Proc ε α β γ).run answer = pure c := rfl

@[simp] theorem run_ask (a : α) : (ask a : Proc ε α β β).run answer = answer a := by
  simp only [ask, run]
  cases answer a <;> rfl

@[simp] theorem run_bind (x : Proc ε α β γ) (f : γ → Proc ε α β δ) :
    (x >>= f).run answer = x.run answer >>= fun c => (f c).run answer := by
  induction x with
  | done result => cases result <;> rfl
  | call a next ih =>
    have unfolded : (call a next >>= f).run answer = answer a >>= fun b => (next b >>= f).run answer := rfl
    rw [unfolded, run]
    cases answer a with
    | error e => rfl
    | ok b => exact ih b

@[simp] theorem run_forTo (body : Nat → σ → Proc ε α β σ) (n : Nat) (s : σ) :
    (forTo body n s).run answer = Control.forTo (fun i s => (body i s).run answer) n s := by
  induction n with
  | zero => rfl
  | succ n ih =>
    rw [Control.forTo, ← ih]
    exact run_bind answer _ _

@[simp] theorem run_foldlM (body : σ → ι → Proc ε α β σ) (xs : List ι) (s : σ) :
    (xs.foldlM body s).run answer = xs.foldlM (fun s x => (body s x).run answer) s := by
  induction xs generalizing s with
  | nil => rfl
  | cons x xs ih =>
    rw [List.foldlM_cons, List.foldlM_cons, run_bind]
    cases (body s x).run answer with
    | error e => rfl
    | ok t => exact ih t

end Run

/-! ### The calls a run makes -/

/-- With answers from a relation, the run comes to call `d`. -/
def Makes (answers : α → β → Prop) : Proc ε α β γ → α → Prop
  | done _, _ => False
  | call a next, d => d = a ∨ ∃ b, answers a b ∧ (next b).Makes answers d

theorem Makes.mono {answers wider : α → β → Prop} (imp : ∀ a b, answers a b → wider a b) {x : Proc ε α β γ} {d : α}
    (makes : x.Makes answers d) : x.Makes wider d := by
  induction x with
  | done result => exact makes
  | call a next ih =>
    rcases makes with here | ⟨b, answered, later⟩
    · exact .inl here
    · exact .inr ⟨b, imp a b answered, ih b later⟩

/-- Every call is one of `asks`; as long as the answers are among `answers`, errors are among
`fails` and results among `gives`. -/
def Spec (asks : α → Prop) (answers : α → β → Prop) (fails : ε → Prop) (gives : γ → Prop) : Proc ε α β γ → Prop
  | done result => Ensures fails gives result
  | call a next => asks a ∧ ∀ b, answers a b → (next b).Spec asks answers fails gives

namespace Spec
variable {asks : α → Prop} {answers : α → β → Prop} {fails : ε → Prop} {gives : γ → Prop} {x : Proc ε α β γ}

theorem mono {fewer : α → Prop} {narrower : ε → Prop} {stronger : γ → Prop}
    (spec : x.Spec fewer answers narrower stronger) (more : ∀ a, fewer a → asks a) (allow : ∀ e, narrower e → fails e)
    (imp : ∀ c, stronger c → gives c) : x.Spec asks answers fails gives := by
  induction x with
  | done result => exact (Ensures.weaken spec imp).allow allow
  | call a next ih => exact ⟨more a spec.1, fun b answered => ih b (spec.2 b answered)⟩

theorem bind {result : δ → Prop} {f : γ → Proc ε α β δ} (first : x.Spec asks answers fails gives)
    (rest : ∀ c, gives c → (f c).Spec asks answers fails result) : (x >>= f).Spec asks answers fails result := by
  induction x with
  | done outcome =>
    cases outcome with
    | error e => exact first
    | ok c => exact rest c first
  | call a next ih => exact ⟨first.1, fun b answered => ih b (first.2 b answered)⟩

theorem ask {gives : β → Prop} {a : α} (asked : asks a) (enough : ∀ b, answers a b → gives b) :
    (Proc.ask a : Proc ε α β β).Spec asks answers fails gives :=
  ⟨asked, enough⟩

theorem forTo {body : Nat → σ → Proc ε α β σ} {I : Nat → σ → Prop} {s : σ} (n : Nat) (start : I 0 s)
    (step : ∀ i < n, ∀ t, I i t → (body i t).Spec asks answers fails (I (i + 1))) :
    (Proc.forTo body n s).Spec asks answers fails (I n) := by
  induction n with
  | zero => exact start
  | succ n ih => exact bind (ih fun i lt => step i (by omega)) fun t holds => step n (by omega) t holds

theorem foldlM {body : σ → ι → Proc ε α β σ} {I : σ → Prop} {xs : List ι} {s : σ} (start : I s)
    (step : ∀ x ∈ xs, ∀ t, I t → (body t x).Spec asks answers fails I) :
    (xs.foldlM body s).Spec asks answers fails I := by
  induction xs generalizing s with
  | nil => exact start
  | cons x xs ih =>
    rw [List.foldlM_cons]
    exact bind (step x (by simp) s start) fun t holds => ih holds fun y member => step y (by simp [member])

theorem asked {given : α → β → Prop} (spec : x.Spec asks answers fails gives) {d : α} (makes : x.Makes given d)
    (faithful : ∀ a b, x.Makes given a → given a b → answers a b) : asks d := by
  induction x with
  | done result => exact makes.elim
  | call a next ih =>
    rcases makes with rfl | ⟨b, answered, later⟩
    · exact spec.1
    · exact ih b (spec.2 b (faithful a b (.inl rfl) answered)) later
        fun c d made => faithful c d (.inr ⟨b, answered, made⟩)

theorem outcome {answer : α → Except ε β} (spec : x.Spec asks answers fails gives)
    (faithful : ∀ a, x.Makes (fun a b => answer a = .ok b) a → Ensures fails (answers a) (answer a)) :
    Ensures fails gives (x.run answer) := by
  induction x with
  | done result => exact spec
  | call a next ih =>
    rw [run]
    have first := faithful a (.inl rfl)
    cases answered : answer a with
    | error e =>
      rw [answered] at first
      exact first
    | ok b =>
      rw [answered] at first
      exact ih b (spec.2 b first) fun c made => faithful c (.inr ⟨b, answered, made⟩)

end Spec
end Proc

/-! ### Evaluation by fuel -/

section Eval
variable {ε α β γ : Type} (stuck : ε) (body : α → Proc ε α β β)

def eval : Nat → α → Except ε β
  | 0, _ => .error stuck
  | n + 1, a => (body a).run (eval n)

def Answers (a : α) (b : β) : Prop := ∃ n, eval stuck body n a = .ok b

def Terminates (a : α) : Prop := ∃ n, eval stuck body n a ≠ .error stuck

/-- Nested calls: those a run comes to when the earlier ones return. -/
def Calls (a d : α) : Prop := (body a).Makes (Answers stuck body) d

/-- The body never ends in the error that stands for missing fuel. -/
def Settles : Prop :=
  ∀ a, (body a).Spec (fun _ => True) (fun _ _ => True) (· ≠ stuck) (fun _ => True)

variable {stuck body}

theorem Proc.run_mono {answer answer' : α → Except ε β}
    (more : ∀ a, answer a ≠ .error stuck → answer' a = answer a) {x : Proc ε α β γ}
    (settled : x.run answer ≠ .error stuck) : x.run answer' = x.run answer := by
  induction x with
  | done result => rfl
  | call a next ih =>
    simp only [run] at settled ⊢
    have same : answer' a = answer a := by
      refine more a fun missing => settled ?_
      rw [missing]
      rfl
    rw [same]
    cases answered : answer a with
    | error e => rfl
    | ok b =>
      rw [answered] at settled
      exact ih b settled

theorem eval_succ {n : Nat} {a : α} (settled : eval stuck body n a ≠ .error stuck) :
    eval stuck body (n + 1) a = eval stuck body n a := by
  induction n generalizing a with
  | zero => exact absurd rfl settled
  | succ n ih => exact Proc.run_mono (fun a settled => ih settled) settled

theorem eval_mono {n m : Nat} {a : α} (le : n ≤ m) (settled : eval stuck body n a ≠ .error stuck) :
    eval stuck body m a = eval stuck body n a := by
  induction m, le using Nat.le_induction with
  | base => rfl
  | succ m _ ih => rw [eval_succ (by rwa [ih]), ih]

theorem Answers.unique {n : Nat} {a : α} {b : β} (answers : Answers stuck body a b)
    (settled : eval stuck body n a ≠ .error stuck) : eval stuck body n a = .ok b := by
  obtain ⟨m, answered⟩ := answers
  rw [← eval_mono (Nat.le_max_left n m) settled, eval_mono (Nat.le_max_right n m) (by simp [answered]), answered]

/-- Faults come from the call itself or are handed up by nested calls. -/
theorem eval_faults (fails : α → ε → Prop)
    (spec : ∀ a, (body a).Spec (fun d => ∀ e, fails d e → fails a e) (fun _ _ => True) (fails a) (fun _ => True))
    (n : Nat) (a : α) : Ensures (fun e => e = stuck ∨ fails a e) (fun _ => True) (eval stuck body n a) := by
  induction n generalizing a with
  | zero => exact .inl rfl
  | succ n ih =>
    have wider : (body a).Spec (fun d => ∀ e, fails d e → fails a e) (fun _ _ => True)
        (fun e => e = stuck ∨ fails a e) (fun _ => True) :=
      (spec a).mono (fun _ up => up) (fun _ => .inr) fun _ given => given
    refine wider.outcome fun d makes => ?_
    exact (ih d).allow fun e fault => fault.imp_right ((spec a).asked makes (fun _ _ _ _ => trivial) e)

/-- If every call made terminates, so does the computation. -/
theorem Proc.settles {x : Proc ε α β γ}
    (own : x.Spec (fun _ => True) (fun _ _ => True) (· ≠ stuck) (fun _ => True))
    (nested : ∀ d, x.Makes (Answers stuck body) d → Terminates stuck body d) :
    ∃ n, x.run (eval stuck body n) ≠ .error stuck := by
  induction x with
  | done result =>
    refine ⟨0, ?_⟩
    cases result with
    | error e =>
      intro same
      exact own (Except.error.inj same)
    | ok c => simp [run]
  | call a next ih =>
    obtain ⟨n, settled⟩ := nested a (.inl rfl)
    cases answered : eval stuck body n a with
    | error e =>
      refine ⟨n, fun same => settled ?_⟩
      rw [run, answered] at same
      rw [answered]
      exact congrArg Except.error (Except.error.inj same)
    | ok b =>
      obtain ⟨m, later⟩ := ih b (own.2 b trivial) fun d makes => nested d (.inr ⟨b, ⟨n, answered⟩, makes⟩)
      refine ⟨max n m, ?_⟩
      rw [run, eval_mono (Nat.le_max_left n m) settled, answered, ok_bind,
        Proc.run_mono (fun a settled => eval_mono (Nat.le_max_right n m) settled) later]
      exact later

theorem Proc.nested_settled {n : Nat} {x : Proc ε α β γ} {d : α}
    (settled : x.run (eval stuck body n) ≠ .error stuck) (makes : x.Makes (Answers stuck body) d) :
    eval stuck body n d ≠ .error stuck := by
  induction x with
  | done result => exact makes.elim
  | call a next ih =>
    have first : eval stuck body n a ≠ .error stuck := by
      intro missing
      apply settled
      rw [run, missing]
      rfl
    rcases makes with rfl | ⟨b, answers, later⟩
    · exact first
    · rw [run, answers.unique first] at settled
      exact ih b settled later

/-- A call ends for some fuel exactly when its nested calls are well-founded. -/
theorem terminates_iff_acc (settles : Settles stuck body) {a : α} :
    Terminates stuck body a ↔ Acc (fun d a => Calls stuck body a d) a := by
  constructor
  · rintro ⟨n, settled⟩
    induction n generalizing a with
    | zero => exact absurd rfl settled
    | succ n ih => exact ⟨a, fun d calls => ih (Proc.nested_settled settled calls)⟩
  · intro acc
    induction acc with
    | intro a _ ih =>
      obtain ⟨n, settled⟩ := Proc.settles (settles a) ih
      exact ⟨n + 1, settled⟩

end Eval

/-! ### Well-founded nesting -/

section Nesting
variable {α : Type} {calls : α → α → Prop} {a : α}

theorem acc_acyclic (acc : Acc (fun d a => calls a d) a) : ¬ TransGen calls a a := by
  induction acc with
  | intro a _ ih =>
    intro cycle
    obtain ⟨d, first, back⟩ := TransGen.head'_iff.mp cycle
    exact ih d first (TransGen.tail' back first)

theorem acc_reached (acc : Acc (fun d a => calls a d) a) {d : α} (reached : ReflTransGen calls a d) :
    Acc (fun d a => calls a d) d := by
  induction reached with
  | refl => exact acc
  | tail _ nested ih => exact ih.inv nested

/-- Over finitely many calls, well-founded means without a cycle. -/
theorem acc_iff_acyclic (finite : {d | ReflTransGen calls a d}.Finite) :
    Acc (fun d a => calls a d) a ↔ ∀ d, ReflTransGen calls a d → ¬ TransGen calls d d := by
  constructor
  · exact fun acc d reached => acc_acyclic (acc_reached acc reached)
  · intro acyclic
    have : Finite {d | ReflTransGen calls a d} := finite
    -- nesting is a strict order on the finite set of calls that are reached
    let inside : {d | ReflTransGen calls a d} → {d | ReflTransGen calls a d} → Prop :=
      fun d e => TransGen calls e.1 d.1
    have : IsTrans _ inside := ⟨fun _ _ _ first second => second.trans first⟩
    have : Std.Irrefl inside := ⟨fun d cycle => acyclic d.1 d.2 cycle⟩
    have every : ∀ d : {d | ReflTransGen calls a d}, Acc (fun d a => calls a d) d.1 := by
      intro d
      induction d using (Finite.wellFounded_of_trans_of_irrefl inside).induction with
      | h d ih => exact ⟨d.1, fun e nested => ih ⟨e, d.2.tail nested⟩ (.single nested)⟩
    exact every ⟨a, .refl⟩

/-- A measure that goes down along every nested call. -/
theorem acc_of_measure {μ : Type} {less : μ → μ → Prop} (wf : WellFounded less) (measure : α → μ)
    (down : ∀ d, ReflTransGen calls a d → ∀ e, calls d e → less (measure e) (measure d)) :
    Acc (fun d a => calls a d) a := by
  have every : ∀ m, ∀ d, measure d = m → ReflTransGen calls a d → Acc (fun d a => calls a d) d := by
    intro m
    induction m using wf.induction with
    | h m ih =>
      rintro d rfl reached
      exact ⟨d, fun e nested => ih _ (down d reached e nested) e rfl (reached.tail nested)⟩
  exact every _ a rfl .refl

/-- Calls that go down in rank, finitely many from each, or jump into a finite set. -/
theorem finite_reached {inner : α → α → Prop} (branching : ∀ d, {e | inner d e}.Finite) (rank : α → Nat)
    (down : ∀ d e, inner d e → rank e < rank d) {targets : Set α} (finite : targets.Finite)
    (cover : ∀ d, ReflTransGen calls a d → ∀ e, calls d e → inner d e ∨ e ∈ targets) :
    {d | ReflTransGen calls a d}.Finite := by
  have below : ∀ n b, rank b < n → {d | ReflTransGen inner b d}.Finite := by
    intro n
    induction n with
    | zero => exact fun b impossible => absurd impossible (Nat.not_lt_zero _)
    | succ n ih =>
      intro b small
      have later : (⋃ c ∈ {c | inner b c}, {d | ReflTransGen inner c d}).Finite :=
        (branching b).biUnion fun c step => ih c (by have := down b c step; omega)
      refine (later.insert b).subset fun d reached => ?_
      rcases ReflTransGen.cases_head reached with rfl | ⟨c, step, rest⟩
      · exact Set.mem_insert _ _
      · exact Set.mem_insert_of_mem _ (Set.mem_biUnion step rest)
  have all : (⋃ b ∈ insert a targets, {d | ReflTransGen inner b d}).Finite :=
    (finite.insert a).biUnion fun b _ => below _ b (Nat.lt_succ_self _)
  refine all.subset fun d reached => ?_
  induction reached with
  | refl => exact Set.mem_biUnion (Set.mem_insert _ _) ReflTransGen.refl
  | tail before step ih =>
    rcases cover _ before _ step with inside | jump
    · obtain ⟨b, start, sofar⟩ := Set.mem_iUnion₂.mp ih
      exact Set.mem_biUnion start (ReflTransGen.tail sofar inside)
    · exact Set.mem_biUnion (Set.mem_insert_of_mem _ jump) ReflTransGen.refl

end Nesting
end AflLive.Recursion
