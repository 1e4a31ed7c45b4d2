import Mathlib

/-! Control-flow graphs. The blocks of a function are numbered; each is a list of instructions
and a last one that returns or goes on to another block. What the instructions do is a
parameter: one may use the block control came from, and may halt the whole program. -/
namespace AflLive.Blocks

variable {ι κ τ υ ρ ν S T R : Type}

inductive Last (τ ρ : Type) where
  | ret (value : ρ)
  | br (target : Nat)
  | choose (test : τ) (targets : List Nat)
deriving DecidableEq

def Last.targets : Last τ ρ → List Nat
  | .ret _ => []
  | .br target => [target]
  | .choose _ targets => targets

def Last.map (f : τ → υ) (h : ρ → ν) : Last τ ρ → Last υ ν
  | .ret value => .ret (h value)
  | .br target => .br target
  | .choose test targets => .choose (f test) targets

def Last.redirect (old new : Nat) : Last τ ρ → Last τ ρ
  | .ret value => .ret value
  | .br target => .br (if target = old then new else target)
  | .choose test targets => .choose test (targets.map fun target => if target = old then new else target)

theorem Last.redirect_of_notMem {last : Last τ ρ} {old : Nat} (new : Nat)
    (fresh : old ∉ last.targets) : last.redirect old new = last := by
  cases last with
  | ret value => rfl
  | br target =>
    have other : target ≠ old := fun same => fresh (by simp [Last.targets, same])
    rw [Last.redirect, if_neg other]
  | choose test targets =>
    have same : targets.map (fun target => if target = old then new else target) = targets := by
      conv_rhs => rw [← List.map_id targets]
      refine List.map_congr_left fun target inside => if_neg ?_
      rintro rfl
      exact fresh inside
    rw [Last.redirect, same]

structure Block (ι τ ρ : Type) where
  code : List ι
  last : Last τ ρ
deriving DecidableEq

structure Cfg (ι τ ρ : Type) where
  entry : Nat
  blocks : List (Block ι τ ρ)
deriving DecidableEq

/-- How the execution of a graph ends; `stuck` if there is no block to go on to. -/
inductive Result (ρ S R : Type) where
  | returned (value : ρ) (s : S)
  | halted (reason : R)
  | stuck
deriving DecidableEq

def Result.map (f : S → T) : Result ρ S R → Result ρ T R
  | .returned value s => .returned value (f s)
  | .halted reason => .halted reason
  | .stuck => .stuck

/-- What has come to this comes to `after` in the end: where it returned, it goes on. -/
def Result.Onward : Result ρ S R → (S → Prop) → Result ν T R → Prop
  | .returned _ s, further, _ => further s
  | .halted reason, _, after => after = .halted reason
  | .stuck, _, after => after = .stuck

structure Meaning (ι τ S R : Type) where
  exec : ι → Option Nat → S → Except R S
  choose : τ → S → Nat

namespace Meaning
variable (m : Meaning ι τ S R)

def execAll (code : List ι) (prev : Option Nat) (s : S) : Except R S :=
  code.foldlM (fun s i => m.exec i prev s) s

def next (s : S) : Last τ ρ → Result ρ S R ⊕ Nat × S
  | .ret value => .inl (.returned value s)
  | .br target => .inr (target, s)
  | .choose test targets =>
    match targets[m.choose test s]? with
    | none => .inl .stuck
    | some target => .inr (target, s)

end Meaning

namespace Cfg

section
variable (g : Cfg ι τ ρ) (m : Meaning ι τ S R)

/-- One block, reached from block `prev`. -/
def step (prev : Option Nat) (l : Nat) (s : S) : Result ρ S R ⊕ Nat × S :=
  match g.blocks[l]? with
  | none => .inl .stuck
  | some b =>
    match m.execAll b.code prev s with
    | .error reason => .inl (.halted reason)
    | .ok s => m.next s b.last

/-- At most `fuel` blocks. -/
def run : Nat → Option Nat → Nat → S → Option (Result ρ S R)
  | 0, _, _, _ => none
  | fuel + 1, prev, l, s =>
    match g.step m prev l s with
    | .inl result => some result
    | .inr (target, s) => run fuel (some l) target s

def Ends (prev : Option Nat) (l : Nat) (s : S) (result : Result ρ S R) : Prop :=
  ∃ fuel, g.run m fuel prev l s = some result

/-- A new block in front of block `l` takes over its first `count` instructions and everything
that leads there. -/
def splitBefore (l count : Nat) : Cfg ι τ ρ where
  entry := if g.entry = l then g.blocks.length else g.entry
  blocks := g.blocks.mapIdx (fun k b =>
      ⟨if k = l then b.code.drop count else b.code, b.last.redirect l g.blocks.length⟩) ++
    [⟨((g.blocks[l]?.map Block.code).getD []).take count, .br l⟩]

def addBlock (b : Block ι τ ρ) : Cfg ι τ ρ := { g with blocks := g.blocks ++ [b] }

def setBlock (l : Nat) (b : Block ι τ ρ) : Cfg ι τ ρ := { g with blocks := g.blocks.set l b }

def map (code : ι → κ) (test : τ → υ) (value : ρ → ν) : Cfg κ υ ν :=
  { g with blocks := g.blocks.map fun b => ⟨b.code.map code, b.last.map test value⟩ }

end

/-- Nothing leads to the block that is split, and no instruction goes to the new one. -/
theorem splitBefore_zero (g : Cfg ι τ ρ) (l : Nat) (unreached : ∀ b ∈ g.blocks, l ∉ b.last.targets) :
    (g.splitBefore l 0).blocks = g.blocks ++ [⟨[], .br l⟩] := by
  have same : g.blocks.mapIdx (fun k b => (⟨if k = l then b.code.drop 0 else b.code,
      b.last.redirect l g.blocks.length⟩ : Block ι τ ρ)) = g.blocks := by
    refine List.ext_getElem (by simp) fun k low high => ?_
    rw [List.getElem_mapIdx, Last.redirect_of_notMem _ (unreached _ (List.getElem_mem high)), List.drop_zero, ite_self]
  rw [splitBefore, same, List.take_zero]

variable {g : Cfg ι τ ρ} {m : Meaning ι τ S R} {prev prev' : Option Nat} {l target : Nat} {s t : S}
  {result result' : Result ρ S R}

theorem ends_iff_of_stop (stops : g.step m prev l s = .inl result) : g.Ends m prev l s result' ↔ result' = result := by
  constructor
  · rintro ⟨_ | fuel, ran⟩
    · cases ran
    · rw [run, stops] at ran
      exact (Option.some.inj ran).symm
  · rintro rfl
    exact ⟨1, by rw [run, stops]⟩

theorem ends_iff_of_go (goes : g.step m prev l s = .inr (target, t)) :
    g.Ends m prev l s result ↔ g.Ends m (some l) target t result := by
  constructor
  · rintro ⟨_ | fuel, ran⟩
    · cases ran
    · rw [run, goes] at ran
      exact ⟨fuel, ran⟩
  · rintro ⟨fuel, ran⟩
    exact ⟨fuel + 1, by rw [run, goes]; exact ran⟩

theorem ends_congr (same : g.step m prev l s = g.step m prev' l s) :
    g.Ends m prev l s result ↔ g.Ends m prev' l s result := by
  cases stepped : g.step m prev l s with
  | inl ending => exact (ends_iff_of_stop stepped).trans (ends_iff_of_stop (same ▸ stepped)).symm
  | inr next => exact (ends_iff_of_go stepped).trans (ends_iff_of_go (same ▸ stepped)).symm

theorem step_target (goes : g.step m prev l s = .inr (target, t)) : ∃ b ∈ g.blocks, target ∈ b.last.targets := by
  unfold step at goes
  cases found : g.blocks[l]? with
  | none => simp [found] at goes
  | some b =>
    refine ⟨b, List.mem_of_getElem? found, ?_⟩
    simp only [found] at goes
    split at goes
    · cases goes
    · unfold Meaning.next at goes
      split at goes
      · cases goes
      · next is =>
        cases goes
        simp [is, Last.targets]
      · next is =>
        split at goes
        · cases goes
        · next there =>
          cases goes
          simpa [is, Last.targets] using List.mem_of_getElem? there

/-! ### A graph inside another one -/

/-- What a block leads to as a part of a larger graph, where a return goes on to block `exit`. -/
def inline (embed : S → T) (exit : Nat) : Result ρ S R ⊕ Nat × S → Result ν T R ⊕ Nat × T
  | .inl (.returned _ s) => .inr (exit, embed s)
  | .inl (.halted reason) => .inl (.halted reason)
  | .inl .stuck => .inl .stuck
  | .inr (target, s) => .inr (target, embed s)

/-- The first blocks of `G` are those of `g`; coming in from outside is like being called. -/
structure Inlines (g : Cfg ι τ ρ) (m : Meaning ι τ S R) (G : Cfg κ υ ν) (M : Meaning κ υ T R)
    (embed : S → T) (back : Option Nat → Option Nat) (exit : Nat) : Prop where
  step : ∀ prev l s, l < g.blocks.length →
    G.step M prev l (embed s) = inline embed exit (g.step m (back prev) l s)
  back : ∀ l, l < g.blocks.length → back (some l) = some l
  closed : ∀ b ∈ g.blocks, ∀ target ∈ b.last.targets, target < g.blocks.length

variable {G : Cfg κ υ ν} {M : Meaning κ υ T R} {embed : S → T} {back : Option Nat → Option Nat} {exit : Nat}
  {after : Result ν T R}

theorem Inlines.onward (inlines : Inlines g m G M embed back exit) (inside : l < g.blocks.length)
    (ran : G.run M fuel prev l (embed s) = some after) :
    ∃ ending, g.Ends m (back prev) l s ending ∧
      ending.Onward (fun t => ∃ prev, G.Ends M prev exit (embed t) after) after := by
  induction fuel generalizing prev l s with
  | zero => cases ran
  | succ fuel ih =>
    rw [run, inlines.step prev l s inside] at ran
    cases stepped : g.step m (back prev) l s with
    | inl ending =>
      refine ⟨ending, (ends_iff_of_stop stepped).mpr rfl, ?_⟩
      rw [stepped] at ran
      cases ending with
      | returned value t => exact ⟨some l, fuel, ran⟩
      | halted reason => exact (Option.some.inj ran).symm
      | stuck => exact (Option.some.inj ran).symm
    | inr next =>
      obtain ⟨target, t⟩ := next
      rw [stepped] at ran
      obtain ⟨b, member, leads⟩ := step_target stepped
      obtain ⟨ending, ends, further⟩ := ih (inlines.closed b member target leads) ran
      rw [inlines.back l inside] at ends
      exact ⟨ending, (ends_iff_of_go stepped).mpr ends, further⟩

theorem Inlines.of_run (inlines : Inlines g m G M embed back exit) (inside : l < g.blocks.length)
    (blind : ∀ prev prev' t, G.step M prev exit t = G.step M prev' exit t)
    (ran : g.run m fuel (back prev) l s = some result)
    (further : result.Onward (fun t => ∃ prev, G.Ends M prev exit (embed t) after) after) :
    G.Ends M prev l (embed s) after := by
  induction fuel generalizing prev l s with
  | zero => cases ran
  | succ fuel ih =>
    have stepped := inlines.step prev l s inside
    rw [run] at ran
    cases first : g.step m (back prev) l s with
    | inl ending =>
      rw [first] at ran stepped
      obtain rfl := Option.some.inj ran
      cases ending with
      | returned value t =>
        obtain ⟨_, further⟩ := further
        exact (ends_iff_of_go stepped).mpr ((ends_congr (blind _ _ _)).mp further)
      | halted reason => exact (ends_iff_of_stop stepped).mpr further
      | stuck => exact (ends_iff_of_stop stepped).mpr further
    | inr next =>
      obtain ⟨target, t⟩ := next
      rw [first] at ran stepped
      obtain ⟨b, member, leads⟩ := step_target first
      refine (ends_iff_of_go stepped).mpr (ih (inlines.closed b member target leads) ?_)
      rw [inlines.back l inside]
      exact ran

/-- The larger graph runs the part as it runs alone and goes on from where that returns. -/
theorem Inlines.ends_iff (inlines : Inlines g m G M embed back exit) (inside : l < g.blocks.length)
    (blind : ∀ prev prev' t, G.step M prev exit t = G.step M prev' exit t) :
    G.Ends M prev l (embed s) after ↔ ∃ ending, g.Ends m (back prev) l s ending ∧
      ending.Onward (fun t => ∃ prev, G.Ends M prev exit (embed t) after) after := by
  constructor
  · rintro ⟨fuel, ran⟩
    exact inlines.onward inside ran
  · rintro ⟨ending, ⟨fuel, ran⟩, further⟩
    exact inlines.of_run inside blind ran further

end Cfg

end AflLive.Blocks
