import AflLive.Library.Blocks
import AflLive.Library.Control

/-! `harnessMain`. With `AH_PERSISTENT` all of `main` becomes the body of a loop that asks
`__afl_persistent_loop` before every pass. A block that asks, one that leads there and one that
returns are added, and every return of `main` becomes a jump. -/
namespace AflLive.Instrumentation.HarnessMain
open Blocks Control

/-- The pass tells `alloca` from everything else. -/
inductive Instruction (ι : Type) where
  | alloca (result : ι) (size : Nat)
  | other (i : ι)
deriving DecidableEq

inductive Code (ι : Type) where
  | own (i : Instruction ι)
  | genInit
  | beforeLoop
  | persistentLoop (maxCnt : Nat)
  | icmpEqZero
deriving DecidableEq

inductive Test (τ : Type) where
  | own (test : τ)
  | shouldFuzz
deriving DecidableEq

def Code.isAlloca {ι : Type} : Code ι → Bool
  | .own (.alloca _ _) => true
  | _ => false

/-- A function with a body: its branches lead to blocks of it, and none to the entry. -/
structure Main (ι τ ρ : Type) extends Cfg (Instruction ι) τ ρ where
  inside : entry < blocks.length
  closed : ∀ b ∈ blocks, ∀ target ∈ b.last.targets, target < blocks.length
  unreached : ∀ b ∈ blocks, entry ∉ b.last.targets

section
variable {ι τ ρ : Type}

/-- The value returned is none of `main`'s own but zero. -/
abbrev Harnessed (ι τ ρ : Type) : Type := Cfg (Code ι) (Test τ) (Option ρ)

def Main.lift (f : Main ι τ ρ) : Harnessed ι τ ρ := f.toCfg.map Code.own Test.own some

def jumpInstead (guardBb : Nat) : Last τ ρ → Last τ ρ
  | .ret _ => .br guardBb
  | last => last

def iterations : Nat := 1000

def Main.wrapInLoop (f : Main ι τ ρ) : Harnessed ι τ ρ :=
  let first := f.entry
  let guardBb := f.lift.blocks.length
  let g := f.lift.splitBefore first 0
  let g := g.splitBefore guardBb 0
  let retBb := g.blocks.length
  let g := g.addBlock ⟨[], .ret none⟩
  let g := g.setBlock guardBb
    ⟨[.beforeLoop, .persistentLoop iterations, .icmpEqZero], .choose .shouldFuzz [retBb, first]⟩
  { g with blocks := g.blocks.mapIdx fun k b => if k = retBb then b else ⟨b.code, jumpInstead guardBb b.last⟩ }

/-- The call goes behind the `alloca`s the entry starts with. -/
def insertGenInit (g : Harnessed ι τ ρ) : Harnessed ι τ ρ :=
  { g with blocks := g.blocks.modify g.entry fun b =>
      ⟨b.code.takeWhile Code.isAlloca ++ .genInit :: b.code.dropWhile Code.isAlloca, b.last⟩ }

def Main.harnessMain (f : Main ι τ ρ) (persistent : Bool) : Harnessed ι τ ρ :=
  insertGenInit (if persistent then f.wrapInLoop else f.lift)

/-! ### What the blocks do -/

/-- The stack that `main` has taken, which its return would give back, and everything else. -/
structure Host (H : Type) where
  stack : Nat
  memory : H
deriving DecidableEq

/-- The meaning of the instructions of `main`. A call gives back the stack it takes. -/
structure Machine (ι τ H R : Type) where
  exec : ι → Option Nat → H → Except R H
  choose : τ → H → Nat
  address : ι → Nat → H → H
  stackLimit : Nat
  overflow : R

/-- The calls of the runtimes that the pass inserts. -/
structure Runtime (H R : Type) where
  isPersistent : Bool
  genInit : H → Except R H
  beforeLoop : H → H
  /-- The map is cleared for the first pass. -/
  clearTrace : H → H
  /-- `raise(SIGSTOP)`, until the fork server sends `SIGCONT`. -/
  stop : H → Except R H
  touchTrace : H → H
  /-- What comes after the loop is not traced. -/
  pivotToDummy : H → H

/-- A process that runs `main`, with the static variables of `__afl_persistent_loop`, its
answer and the comparison. -/
structure State (H : Type) where
  host : Host H
  firstPass : Bool := true
  cycleCnt : Nat := 0
  aflLoop : Nat := 0
  shouldFuzz : Bool := false

variable {H R : Type}

def Machine.alloca (m : Machine ι τ H R) (result : ι) (size : Nat) (h : Host H) : Except R (Host H) :=
  if m.stackLimit < h.stack + size then .error m.overflow
  else .ok ⟨h.stack + size, m.address result h.stack h.memory⟩

def Machine.meaning (m : Machine ι τ H R) : Meaning (Instruction ι) τ (Host H) R where
  exec
    | .alloca result size, _, h => m.alloca result size h
    | .other i, prev, h => (m.exec i prev h.memory).map fun memory => { h with memory }
  choose test h := m.choose test h.memory

namespace Runtime
variable (rt : Runtime H R)

/-- `__afl_persistent_loop`. -/
def persistentLoop (maxCnt : Nat) (s : State H) : Except R (State H) :=
  let memory := s.host.memory
  if s.firstPass then
    let memory := if rt.isPersistent then rt.clearTrace memory else memory
    .ok { s with host := { s.host with memory }, cycleCnt := maxCnt, firstPass := false, aflLoop := 1 }
  else if rt.isPersistent then
    let cycleCnt := (s.cycleCnt + 2 ^ 32 - 1) % 2 ^ 32
    if cycleCnt ≠ 0 then do
      let memory ← rt.stop memory
      return { s with host := { s.host with memory := rt.touchTrace memory }, cycleCnt, aflLoop := 1 }
    else
      .ok { s with host := { s.host with memory := rt.pivotToDummy memory }, cycleCnt, aflLoop := 0 }
  else .ok { s with aflLoop := 0 }

/-- Coming in from the blocks behind the first `count` is like being called. -/
def back (count : Nat) : Option Nat → Option Nat
  | some l => if l < count then some l else none
  | none => none

def meaning (m : Machine ι τ H R) (count : Nat) : Meaning (Code ι) (Test τ) (State H) R where
  exec
    | .own i, prev, s => (m.meaning.exec i (back count prev) s.host).map fun host => { s with host }
    | .genInit, _, s => (rt.genInit s.host.memory).map fun memory => { s with host := { s.host with memory } }
    | .beforeLoop, _, s => .ok { s with host := { s.host with memory := rt.beforeLoop s.host.memory } }
    | .persistentLoop maxCnt, _, s => rt.persistentLoop maxCnt s
    | .icmpEqZero, _, s => .ok { s with shouldFuzz := s.aflLoop == 0 }
  choose
    | .own test, s => m.choose test s.host.memory
    -- the first target is taken if the comparison holds
    | .shouldFuzz, s => if s.shouldFuzz then 0 else 1

end Runtime

/-! ### The blocks of the harnessed function -/

variable (f : Main ι τ ρ)

/-- A block of `main` as it is in the loop. -/
def inLoop (guardBb : Nat) (b : Block (Instruction ι) τ ρ) : Block (Code ι) (Test τ) (Option ρ) :=
  ⟨b.code.map Code.own, jumpInstead guardBb (b.last.map Test.own some)⟩

theorem lift_targets : ∀ b ∈ f.lift.blocks, ∃ own ∈ f.blocks, b.last.targets = own.last.targets := by
  intro b member
  obtain ⟨own, inside, rfl⟩ := List.mem_map.mp member
  refine ⟨own, inside, ?_⟩
  cases own.last <;> rfl

/-- The block `guardBb`. -/
def asks : Block (Code ι) (Test τ) (Option ρ) :=
  ⟨[.beforeLoop, .persistentLoop iterations, .icmpEqZero], .choose .shouldFuzz [f.blocks.length + 2, f.entry]⟩

theorem wrapInLoop_eq : f.wrapInLoop = ⟨f.blocks.length + 1, f.blocks.map (inLoop f.blocks.length) ++
    [asks f, ⟨[], .br f.blocks.length⟩, ⟨[], .ret none⟩]⟩ := by
  have length : f.lift.blocks.length = f.blocks.length := List.length_map _
  have entry : f.lift.entry = f.entry := rfl
  have first := f.lift.splitBefore_zero f.entry fun b member leads => by
    obtain ⟨own, inside, same⟩ := lift_targets f b member
    exact f.unreached own inside (same ▸ leads)
  have second := (f.lift.splitBefore f.entry 0).splitBefore_zero f.blocks.length fun b member leads => by
    rw [first, List.mem_append, List.mem_singleton] at member
    rcases member with member | rfl
    · obtain ⟨own, inside, same⟩ := lift_targets f b member
      exact absurd (f.closed own inside _ (same ▸ leads)) (lt_irrefl _)
    · have there : f.blocks.length = f.entry := by simpa [Last.targets] using leads
      exact absurd f.inside (by omega)
  have moved : (f.lift.splitBefore f.entry 0).entry = f.blocks.length := by
    rw [Cfg.splitBefore, if_pos entry, length]
  have count : (f.lift.splitBefore f.entry 0).blocks.length = f.blocks.length + 1 := by simp [first, length]
  have start : ((f.lift.splitBefore f.entry 0).splitBefore f.blocks.length 0).entry = f.blocks.length + 1 := by
    rw [Cfg.splitBefore, if_pos moved, count]
  have lifted : f.lift.blocks = f.blocks.map fun b => ⟨b.code.map Code.own, b.last.map Test.own some⟩ := rfl
  rw [Main.wrapInLoop]
  simp only [length, Cfg.addBlock, Cfg.setBlock, start, second, first]
  refine congrArg (Cfg.mk _) ?_
  simp only [List.append_assoc, List.cons_append, List.nil_append, List.length_append, List.length_cons,
    List.length_nil, length, List.set_append, lt_irrefl, if_false, Nat.sub_self, List.set_cons_zero, List.mapIdx_append]
  refine congrArg₂ (· ++ ·) ?_ ?_
  · refine List.ext_getElem (by simp [length]) fun k low high => ?_
    have small : k < f.blocks.length := by simpa using high
    have other : k ≠ f.blocks.length + 2 := by omega
    simp [other, lifted, inLoop]
  · simp [asks, jumpInstead, Nat.add_comm]

theorem modify_behind {α : Type} (front : List α) (first second : α) (rest : List α) (change : α → α) :
    (front ++ first :: second :: rest).modify (front.length + 1) change = front ++ first :: change second :: rest := by
  induction front with
  | nil => rfl
  | cons x front ih => simpa using ih

theorem harnessMain_eq : f.harnessMain true = ⟨f.blocks.length + 1, f.blocks.map (inLoop f.blocks.length) ++
    [asks f, ⟨[.genInit], .br f.blocks.length⟩, ⟨[], .ret none⟩]⟩ := by
  rw [Main.harnessMain, if_pos rfl, wrapInLoop_eq, insertGenInit]
  refine congrArg (Cfg.mk _) ?_
  have behind := modify_behind (f.blocks.map (inLoop f.blocks.length)) (asks f) ⟨[], .br f.blocks.length⟩
    [⟨[], .ret none⟩] fun b => ⟨b.code.takeWhile Code.isAlloca ++ .genInit :: b.code.dropWhile Code.isAlloca, b.last⟩
  rw [List.length_map] at behind
  exact behind

variable (m : Machine ι τ H R) (rt : Runtime H R)

def State.withHost (x : State H) (host : Host H) : State H := { x with host }

theorem own_code (prev : Option Nat) (code : List (Instruction ι)) (x : State H) (h : Host H) :
    (rt.meaning m count).execAll (code.map Code.own) prev (x.withHost h) =
      (m.meaning.execAll code (Runtime.back count prev) h).map x.withHost := by
  induction code generalizing h with
  | nil => rfl
  | cons i code ih =>
    simp only [Meaning.execAll, List.map_cons, List.foldlM_cons] at ih ⊢
    have first : (rt.meaning m count).exec (.own i) prev (x.withHost h) =
      (m.meaning.exec i (Runtime.back count prev) h).map x.withHost := rfl
    rw [first]
    cases m.meaning.exec i (Runtime.back count prev) h with
    | error reason => rfl
    | ok next => exact ih next

theorem inlines (x : State H) : Cfg.Inlines f.toCfg m.meaning (f.harnessMain true) (rt.meaning m f.blocks.length)
    x.withHost (Runtime.back f.blocks.length) f.blocks.length where
  step := by
    intro prev l h inside
    have there : (f.harnessMain true).blocks[l]? = some (inLoop f.blocks.length f.blocks[l]) := by
      rw [harnessMain_eq, List.getElem?_append_left (by simpa using inside), List.getElem?_map,
        List.getElem?_eq_getElem inside, Option.map_some]
    rw [Cfg.step, there, Cfg.step, List.getElem?_eq_getElem inside]
    simp only [inLoop, own_code]
    cases m.meaning.execAll f.blocks[l].code (Runtime.back f.blocks.length prev) h with
    | error reason => rfl
    | ok next =>
      cases f.blocks[l].last with
      | ret value => rfl
      | br target => rfl
      | choose test targets =>
        simp only [Except.map, Last.map, jumpInstead, Meaning.next]
        have same : (rt.meaning m f.blocks.length).choose (.own test) (x.withHost next) =
          m.meaning.choose test next := rfl
        rw [same]
        cases targets[m.meaning.choose test next]? <;> rfl
  back := by
    intro l inside
    rw [Runtime.back, if_pos inside]
  closed := f.closed

theorem added_block (k : Nat) : (f.harnessMain true).blocks[f.blocks.length + k]? =
    [asks f, ⟨[.genInit], .br f.blocks.length⟩, ⟨[], .ret none⟩][k]? := by
  rw [harnessMain_eq, List.getElem?_append_right (by simp), List.length_map, Nat.add_sub_cancel_left]

theorem ret_step (count : Nat) (prev : Option Nat) (s : State H) :
    (f.harnessMain true).step (rt.meaning m count) prev (f.blocks.length + 2) s = .inl (.returned none s) := by
  rw [Cfg.step, added_block]
  rfl

theorem entry_step (count : Nat) (prev : Option Nat) (s : State H) :
    (f.harnessMain true).step (rt.meaning m count) prev (f.blocks.length + 1) s =
      match rt.genInit s.host.memory with
      | .error reason => .inl (.halted reason)
      | .ok memory => .inr (f.blocks.length, s.withHost { s.host with memory }) := by
  rw [Cfg.step, added_block]
  simp only [List.getElem?_cons_succ, List.getElem?_cons_zero, Meaning.execAll, List.foldlM_cons, List.foldlM_nil,
    Runtime.meaning]
  cases rt.genInit s.host.memory <;> rfl

/-- `__ah_beforeLoop` and `__afl_persistent_loop`. -/
def Runtime.ask (s : State H) : Except R (State H) :=
  rt.persistentLoop iterations (s.withHost { s.host with memory := rt.beforeLoop s.host.memory })

theorem guard_step (count : Nat) (prev : Option Nat) (s : State H) :
    (f.harnessMain true).step (rt.meaning m count) prev f.blocks.length s =
      match rt.ask s with
      | .error reason => .inl (.halted reason)
      | .ok s =>
        .inr (if s.aflLoop = 0 then f.blocks.length + 2 else f.entry, { s with shouldFuzz := s.aflLoop == 0 }) := by
  have there := added_block f 0
  rw [Nat.add_zero] at there
  rw [Cfg.step, there]
  have code : (rt.meaning m count).execAll (asks f).code prev s =
      (rt.ask s).map fun s => { s with shouldFuzz := s.aflLoop == 0 } := by
    simp only [asks, Meaning.execAll, List.foldlM_cons, List.foldlM_nil]
    change (rt.ask s >>= fun s => _) = _
    cases rt.ask s <;> rfl
  simp only [List.getElem?_cons_zero, code]
  cases rt.ask s with
  | error reason => rfl
  | ok s =>
    simp only [Except.map, asks, Meaning.next, Runtime.meaning]
    by_cases zero : s.aflLoop = 0
    · simp [zero]
    · simp [zero]

/-! ### Passes -/

/-- Before the first pass. -/
def Runtime.begin (memory : H) : H :=
  let memory := rt.beforeLoop memory
  if rt.isPersistent then rt.clearTrace memory else memory

/-- Between two passes the process stops itself. -/
def Runtime.between (h : Host H) : Except R (Host H) :=
  (rt.stop (rt.beforeLoop h.memory)).map fun memory => { h with memory := rt.touchTrace memory }

/-- After the last pass. -/
def Runtime.leave (h : Host H) : Host H :=
  let memory := rt.beforeLoop h.memory
  { h with memory := if rt.isPersistent then rt.pivotToDummy memory else memory }

/-- One call of `main` after the other on the same host, `more` of them behind the first. -/
def Passes : Nat → Host H → Result (Option ρ) (Host H) R → Prop
  | 0, h, result => ∃ ending, f.Ends m.meaning none f.entry h ending ∧
    ending.Onward (fun t => result = .returned none (rt.leave t)) result
  | more + 1, h, result => ∃ ending, f.Ends m.meaning none f.entry h ending ∧ ending.Onward (fun t =>
      match rt.between t with
      | .error reason => result = .halted reason
      | .ok u => Passes more u result) result

/-- The function comes to an end and leaves the host so. -/
def EndsAs (g : Harnessed ι τ ρ) (M : Meaning (Code ι) (Test τ) (State H) R) (prev : Option Nat) (l : Nat) (s : State H)
    (result : Result (Option ρ) (Host H) R) : Prop :=
  ∃ full, g.Ends M prev l s full ∧ full.map State.host = result

/-- The loop will let `more` passes follow the present one. -/
def Runtime.Left (x : State H) (more : Nat) : Prop :=
  x.firstPass = false ∧ if rt.isPersistent then x.cycleCnt = more + 1 ∧ more + 1 < 2 ^ 32 else more = 0

variable {rt} {x : State H} {more : Nat} {h : Host H} {result : Result (Option ρ) (Host H) R}

theorem Runtime.Left.ask_last (left : rt.Left x 0) (h : Host H) :
    ∃ y, rt.ask (x.withHost h) = .ok y ∧ y.aflLoop = 0 ∧ y.host = rt.leave h := by
  obtain ⟨later, cycles⟩ := left
  cases persistent : rt.isPersistent with
  | false =>
    refine ⟨{ x with host := rt.leave h, aflLoop := 0 }, ?_, rfl, rfl⟩
    simp [Runtime.ask, Runtime.persistentLoop, Runtime.leave, State.withHost, later, persistent]
  | true =>
    simp only [persistent, if_true] at cycles
    refine ⟨{ x with host := rt.leave h, cycleCnt := 0, aflLoop := 0 }, ?_, rfl, rfl⟩
    simp [Runtime.ask, Runtime.persistentLoop, Runtime.leave, State.withHost, later, persistent, cycles.1]

theorem Runtime.Left.ask_again (left : rt.Left x (more + 1)) (h : Host H) :
    rt.ask (x.withHost h) = (rt.between h).map fun u => { x with host := u, cycleCnt := more + 1, aflLoop := 1 } := by
  obtain ⟨later, cycles⟩ := left
  cases persistent : rt.isPersistent with
  | false => simp [persistent] at cycles
  | true =>
    simp only [persistent, if_true] at cycles
    obtain ⟨count, small⟩ := cycles
    have fewer : (more + 1 + 1 + 2 ^ 32 - 1) % 2 ^ 32 = more + 1 := by omega
    simp only [Runtime.ask, Runtime.persistentLoop, Runtime.between, State.withHost, later, persistent, count, fewer,
      Bool.false_eq_true, if_false, if_true, ne_eq, Nat.add_eq_zero_iff, one_ne_zero, and_false, not_false_eq_true]
    cases rt.stop (rt.beforeLoop h.memory) <;> rfl

variable {f m} {prev : Option Nat}

theorem guard_blind (prev prev' : Option Nat) (s : State H) :
    (f.harnessMain true).step (rt.meaning m count) prev f.blocks.length s =
      (f.harnessMain true).step (rt.meaning m count) prev' f.blocks.length s := by
  rw [guard_step, guard_step]

theorem endsAs_stop {s : State H} {full : Result (Option ρ) (State H) R}
    (stops : g.step M prev l s = .inl full) : EndsAs g M prev l s result ↔ full.map State.host = result := by
  simp only [EndsAs, Cfg.ends_iff_of_stop stops, exists_eq_left]

theorem endsAs_go {s t : State H} (goes : g.step M prev l s = .inr (target, t)) :
    EndsAs g M prev l s result ↔ EndsAs g M (some l) target t result := by
  simp only [EndsAs, Cfg.ends_iff_of_go goes]

theorem endsAs_guard_last (left : rt.Left x 0) :
    EndsAs (f.harnessMain true) (rt.meaning m count) prev f.blocks.length (x.withHost h) result ↔
      result = .returned none (rt.leave h) := by
  obtain ⟨y, asked, zero, host⟩ := left.ask_last h
  have goes := guard_step f m rt count prev (x.withHost h)
  simp only [asked, zero, if_true] at goes
  rw [endsAs_go goes, endsAs_stop (ret_step f m rt count _ _), Result.map, ← host]
  exact eq_comm

/-- The process when the pass begins behind which `more` are to follow. -/
def State.again (x : State H) (more : Nat) : State H :=
  { x with cycleCnt := more + 1, aflLoop := 1, shouldFuzz := false }

theorem Runtime.Left.again (left : rt.Left x (more + 1)) : rt.Left (x.again more) more := by
  obtain ⟨later, cycles⟩ := left
  refine ⟨later, ?_⟩
  cases persistent : rt.isPersistent with
  | false => simp [persistent] at cycles
  | true =>
    simp only [persistent, if_true] at cycles ⊢
    exact ⟨rfl, by omega⟩

theorem endsAs_guard_again (left : rt.Left x (more + 1)) :
    EndsAs (f.harnessMain true) (rt.meaning m count) prev f.blocks.length (x.withHost h) result ↔
      match rt.between h with
      | .error reason => result = .halted reason
      | .ok u => EndsAs (f.harnessMain true) (rt.meaning m count) (some f.blocks.length) f.entry
          ((x.again more).withHost u) result := by
  have step := guard_step f m rt count prev (x.withHost h)
  rw [left.ask_again h] at step
  cases stopped : rt.between h with
  | error reason =>
    rw [stopped] at step
    rw [endsAs_stop step]
    exact eq_comm
  | ok u =>
    rw [stopped] at step
    exact endsAs_go step

/-- A pass is a call of `main`, and its return leads to the question again. -/
theorem endsAs_pass (outside : Runtime.back f.blocks.length prev = none) :
    EndsAs (f.harnessMain true) (rt.meaning m f.blocks.length) prev f.entry (x.withHost h) result ↔
      ∃ ending, f.Ends m.meaning none f.entry h ending ∧ ending.Onward (fun t =>
        EndsAs (f.harnessMain true) (rt.meaning m f.blocks.length) none f.blocks.length (x.withHost t) result) result := by
  have inlined : ∀ after, (f.harnessMain true).Ends (rt.meaning m f.blocks.length) prev f.entry (x.withHost h) after ↔ _ :=
    fun after => (inlines f m rt x).ends_iff f.inside guard_blind
  simp only [EndsAs, inlined, outside]
  constructor
  · rintro ⟨full, ⟨ending, ends, onward⟩, rfl⟩
    refine ⟨ending, ends, ?_⟩
    cases ending with
    | returned value t =>
      obtain ⟨prev, further⟩ := onward
      exact ⟨full, (Cfg.ends_congr (guard_blind _ _ _)).mp further, rfl⟩
    | halted reason =>
      obtain rfl := onward
      rfl
    | stuck =>
      obtain rfl := onward
      rfl
  · rintro ⟨ending, ends, onward⟩
    cases ending with
    | returned value t =>
      obtain ⟨full, further, same⟩ := onward
      exact ⟨full, ⟨_, ends, none, further⟩, same⟩
    | halted reason => exact ⟨.halted reason, ⟨_, ends, rfl⟩, onward.symm⟩
    | stuck => exact ⟨.stuck, ⟨_, ends, rfl⟩, onward.symm⟩

theorem endsAs_passes (left : rt.Left x more) (outside : Runtime.back f.blocks.length prev = none) :
    EndsAs (f.harnessMain true) (rt.meaning m f.blocks.length) prev f.entry (x.withHost h) result ↔
      Passes f m rt more h result := by
  have guarded : Runtime.back f.blocks.length (some f.blocks.length) = none := if_neg (lt_irrefl _)
  induction more generalizing x h prev with
  | zero => simp only [endsAs_pass outside, endsAs_guard_last left, Passes]
  | succ more ih =>
    simp only [endsAs_pass outside, endsAs_guard_again left, Passes]
    refine exists_congr fun ending => and_congr_right fun _ => ?_
    cases ending with
    | returned value t =>
      simp only [Result.Onward]
      cases rt.between t with
      | error reason => exact Iff.rfl
      | ok u => exact ih left.again guarded
    | halted reason => exact Iff.rfl
    | stuck => exact Iff.rfl

/-- The process when its first pass begins. -/
def State.begun (h : Host H) : State H := { host := h, firstPass := false, cycleCnt := iterations, aflLoop := 1 }

theorem ask_first (h : Host H) : rt.ask { host := h } = .ok (State.begun { h with memory := rt.begin h.memory }) := by
  simp only [Runtime.ask, Runtime.persistentLoop, State.withHost, if_true, Runtime.begin, State.begun]

theorem left_begun (h : Host H) : rt.Left (State.begun h) (if rt.isPersistent then iterations - 1 else 0) := by
  refine ⟨rfl, ?_⟩
  cases persistent : rt.isPersistent with
  | false => simp
  | true =>
    simp only [if_true]
    exact ⟨rfl, by decide⟩

theorem endsAs_begin (h : Host H) :
    EndsAs (f.harnessMain true) (rt.meaning m f.blocks.length) prev f.blocks.length { host := h } result ↔
      Passes f m rt (if rt.isPersistent then iterations - 1 else 0) { h with memory := rt.begin h.memory } result := by
  have asked := guard_step f m rt f.blocks.length prev { host := h }
  rw [ask_first] at asked
  exact (endsAs_go asked).trans (endsAs_passes (left_begun _) (if_neg (lt_irrefl _)))

/-- With `AH_PERSISTENT`, `main` calls `gen_init` once and then makes a thousand passes, or one
if the runtime is not in persistent mode, unless one of them halts; it stops itself between
two of them, and the blocks it comes from make no difference to a pass. -/
theorem harnessMain_passes (f : Main ι τ ρ) (m : Machine ι τ H R) (rt : Runtime H R) (h : Host H)
    (result : Result (Option ρ) (Host H) R) :
    EndsAs (f.harnessMain true) (rt.meaning m f.blocks.length) none (f.harnessMain true).entry { host := h } result ↔
      match rt.genInit h.memory with
      | .error reason => result = .halted reason
      | .ok memory =>
        Passes f m rt (if rt.isPersistent then iterations - 1 else 0) { h with memory := rt.begin memory } result := by
  have start : (f.harnessMain true).entry = f.blocks.length + 1 := by rw [harnessMain_eq]
  have step := entry_step f m rt f.blocks.length none { host := h }
  rw [start]
  cases initialised : rt.genInit h.memory with
  | error reason =>
    simp only [initialised] at step
    rw [endsAs_stop step]
    exact eq_comm
  | ok memory =>
    simp only [initialised] at step
    rw [endsAs_go step]
    exact endsAs_begin { h with memory }

/-! ### The stack

The `alloca`s of the entry are executed in every pass and given back by none. -/

def Instruction.size : Instruction ι → Nat
  | .alloca _ size => size
  | .other _ => 0

/-- What a block takes from the stack. -/
def frame (code : List (Instruction ι)) : Nat := (code.map Instruction.size).sum

def Main.entryFrame (f : Main ι τ ρ) : Nat := frame ((f.blocks[f.entry]?.map Block.code).getD [])

theorem exec_stack {i : Instruction ι} {t : Host H} (room : h.stack ≤ m.stackLimit)
    (ran : m.meaning.exec i prev h = .ok t) : t.stack = h.stack + i.size ∧ t.stack ≤ m.stackLimit := by
  cases i with
  | alloca into size =>
    simp only [Machine.meaning, Machine.alloca] at ran
    split at ran
    · cases ran
    · next fits =>
      cases ran
      exact ⟨rfl, not_lt.mp fits⟩
  | other i =>
    obtain ⟨memory, _, rfl⟩ := map_eq_ok.mp ran
    exact ⟨rfl, room⟩

theorem execAll_stack {code : List (Instruction ι)} {t : Host H} (room : h.stack ≤ m.stackLimit)
    (ran : m.meaning.execAll code prev h = .ok t) : t.stack = h.stack + frame code ∧ t.stack ≤ m.stackLimit := by
  induction code generalizing h with
  | nil =>
    cases ran
    exact ⟨rfl, room⟩
  | cons i code ih =>
    simp only [Meaning.execAll, List.foldlM_cons, bind_eq_ok] at ran
    obtain ⟨u, first, rest⟩ := ran
    obtain ⟨more, fits⟩ := exec_stack room first
    obtain ⟨total, last⟩ := ih fits rest
    refine ⟨?_, last⟩
    rw [total, more, frame, frame, List.map_cons, List.sum_cons, Nat.add_assoc]

/-- A call of `main` that returns has room for the frame of the block it starts with. -/
theorem run_stack {l : Nat} {value : ρ} {t : Host H} (room : h.stack ≤ m.stackLimit)
    (ran : f.run m.meaning fuel prev l h = some (.returned value t)) :
    h.stack + frame ((f.blocks[l]?.map Block.code).getD []) ≤ t.stack ∧ t.stack ≤ m.stackLimit := by
  induction fuel generalizing prev l h with
  | zero => cases ran
  | succ fuel ih =>
    rw [Cfg.run, Cfg.step] at ran
    cases found : f.blocks[l]? with
    | none => simp [found] at ran
    | some b =>
      simp only [found] at ran
      cases executed : m.meaning.execAll b.code prev h with
      | error reason => simp [executed] at ran
      | ok u =>
        obtain ⟨taken, fits⟩ := execAll_stack room executed
        simp only [executed] at ran
        have onward : ∀ target, f.run m.meaning fuel (some l) target u = some (.returned value t) →
            h.stack + frame b.code ≤ t.stack ∧ t.stack ≤ m.stackLimit := by
          intro target further
          obtain ⟨grown, last⟩ := ih fits further
          exact ⟨by omega, last⟩
        cases last : b.last with
        | ret _ =>
          simp only [last, Meaning.next, Option.some.injEq, Result.returned.injEq] at ran
          obtain ⟨_, rfl⟩ := ran
          exact ⟨taken.ge, fits⟩
        | br target =>
          simp only [last, Meaning.next] at ran
          exact onward target ran
        | choose test targets =>
          simp only [last, Meaning.next] at ran
          cases there : targets[m.meaning.choose test u]? with
          | none => simp [there] at ran
          | some target =>
            simp only [there] at ran
            exact onward target ran

theorem passes_stack {value : Option ρ} {t : Host H} (room : h.stack ≤ m.stackLimit)
    (ran : Passes f m rt more h (.returned value t)) : h.stack + (more + 1) * f.entryFrame ≤ m.stackLimit := by
  induction more generalizing h with
  | zero =>
    obtain ⟨ending, ⟨fuel, ended⟩, onward⟩ := ran
    cases ending with
    | halted reason => cases onward
    | stuck => cases onward
    | returned _ u =>
      obtain ⟨taken, fits⟩ := run_stack room ended
      rw [Nat.zero_add, Nat.one_mul]
      exact taken.trans fits
  | succ more ih =>
    obtain ⟨ending, ⟨fuel, ended⟩, onward⟩ := ran
    cases ending with
    | halted reason => cases onward
    | stuck => cases onward
    | returned _ u =>
      obtain ⟨taken, fits⟩ := run_stack room ended
      simp only [Result.Onward] at onward
      cases stopped : rt.between u with
      | error reason => simp [stopped] at onward
      | ok v =>
        simp only [stopped] at onward
        obtain ⟨memory, _, rfl⟩ := map_eq_ok.mp stopped
        have rest := ih (h := ⟨u.stack, rt.touchTrace memory⟩) fits onward
        have first : h.stack + f.entryFrame ≤ u.stack := taken
        have split : (more + 1 + 1) * f.entryFrame = f.entryFrame + (more + 1) * f.entryFrame := by ring
        dsimp only at rest
        omega

/-- In persistent mode `main` cannot come to its return unless a thousand of its frames fit on
the stack, whatever room a single call of it has. -/
theorem persistent_main_overflows {f : Main ι τ ρ} {m : Machine ι τ H R} {rt : Runtime H R} {h : Host H}
    (persistent : rt.isPersistent = true) (room : h.stack ≤ m.stackLimit)
    (short : m.stackLimit < h.stack + iterations * f.entryFrame) :
    ¬∃ value t, EndsAs (f.harnessMain true) (rt.meaning m f.blocks.length) none (f.harnessMain true).entry
      { host := h } (.returned value t) := by
  rintro ⟨value, t, ended⟩
  have start : (f.harnessMain true).entry = f.blocks.length + 1 := by rw [harnessMain_eq]
  have step := entry_step f m rt f.blocks.length none { host := h }
  rw [start] at ended
  cases initialised : rt.genInit h.memory with
  | error reason =>
    simp only [initialised] at step
    cases (endsAs_stop step).mp ended
  | ok memory =>
    simp only [initialised] at step
    have passes := (endsAs_begin { h with memory }).mp ((endsAs_go step).mp ended)
    rw [persistent, if_pos rfl] at passes
    have fits := passes_stack (h := { h with memory := rt.begin memory }) room passes
    have thousand : iterations - 1 + 1 = iterations := rfl
    rw [thousand] at fits
    exact absurd fits (not_le.mpr short)

/-- `int main() { char buffer[65536]; return 0; }`. -/
def bufferMain : Main Unit Unit Unit where
  entry := 0
  blocks := [⟨[.alloca () 65536], .ret ()⟩]
  inside := by decide
  closed := by simp [Last.targets]
  unreached := by simp [Last.targets]

def eightMegabytes : Machine Unit Unit Unit Unit where
  exec _ _ h := .ok h
  choose _ _ := 0
  address _ _ h := h
  stackLimit := 8388608
  overflow := ()

def persistentRuntime : Runtime Unit Unit where
  isPersistent := true
  genInit h := .ok h
  beforeLoop h := h
  clearTrace h := h
  stop h := .ok h
  touchTrace h := h
  pivotToDummy h := h

theorem bufferMain_overflows :
    bufferMain.Ends eightMegabytes.meaning none 0 ⟨0, ()⟩ (.returned () ⟨65536, ()⟩) ∧
      ¬∃ value t, EndsAs (bufferMain.harnessMain true) (persistentRuntime.meaning eightMegabytes 1) none
        (bufferMain.harnessMain true).entry { host := ⟨0, ()⟩ } (.returned value t) :=
  ⟨⟨1, by decide⟩, persistent_main_overflows rfl (by decide) (by decide)⟩

end

end AflLive.Instrumentation.HarnessMain
