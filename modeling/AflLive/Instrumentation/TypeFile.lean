import AflLive.Instrumentation.Pass
import AflLive.Instrumentation.TypeGraph
import AflLive.Library.Runs

/-! The typeinfo file between compiler processes that take turns under the lock file, and
the types libgen makes from it. -/
namespace AflLive.Instrumentation
open Libgen (makeType)

structure TypeFile where
  types : Types := []
  targets : List (Name × List Nat) := []
deriving DecidableEq

/-- Where a process is in the loop over its targets. -/
inductive Stage where
  | waiting
  | locked
  | loaded (output : TypeFile)
  | built (output : TypeFile)
  | leaving
deriving DecidableEq

structure Compiler where
  ctx : Context
  typeNames : List (LLVMType × Nat) := []
  jobs : List (Name × List LLVMType)
  stage : Stage := .waiting

/-- The targets a process handles, in the order of its config. -/
def jobs (config : Config) (M : Module LLVMType) : List (Name × List LLVMType) :=
  (config.targets.getD []).filterMap fun target => (harnessed M target).map fun f =>
    (f.name, (passedArguments f.args (skipParameters config M f.name)).map Prod.snd)

/-- The body of the loop, one access to the shared files at a time: `open` with `O_EXCL`,
the read of the typeinfo file, the registration in memory, the write, and `unlink`. -/
def Compiler.step (lockFile : Bool) (file : Option TypeFile) (p : Compiler) :
    Option (Bool × Option TypeFile × Compiler) :=
  match p.jobs with
  | [] => none
  | (name, args) :: rest =>
    match p.stage with
    | .waiting => if lockFile then some (lockFile, file, p) else some (true, file, { p with stage := .locked })
    | .locked =>
      match file with
      | none => some (lockFile, file, { p with stage := .loaded {} })
      | some output =>
        if (output.targets.lookup name).isSome then some (lockFile, file, { p with stage := .leaving })
        else some (lockFile, file, { p with stage := .loaded output })
    | .loaded output => do
      let (targetArgs, r) ← registerAll (fun t => registerType p.ctx (p.ctx.fuel t) t) args ⟨p.typeNames, output.types⟩
      return (lockFile, file,
        { p with typeNames := r.typeNames, stage := .built ⟨r.types, (name, targetArgs) :: output.targets⟩ })
    | .built output => some (lockFile, some output, { p with stage := .leaving })
    | .leaving => some (false, file, { p with jobs := rest, stage := .waiting })

@[ext] structure System where
  lockFile : Bool := false
  file : Option TypeFile := none
  compilers : List Compiler

/-- One step of process `i`. -/
def System.step (s : System) (i : Nat) : Option System := do
  let p ← s.compilers[i]?
  let (lockFile, file, q) ← p.step s.lockFile s.file
  return ⟨lockFile, file, s.compilers.set i q⟩

def System.start (compilers : List (Context × Config × Module LLVMType)) : System :=
  { compilers := compilers.map fun (ctx, config, M) => { ctx := ctx, jobs := jobs config M } }

def System.typeinfo (s : System) : TypeFile := s.file.getD {}

/-- Every name that is referred to is defined. -/
structure TypeFile.Closed (file : TypeFile) : Prop where
  types : ∀ n data, file.types.lookup n = some data → ∀ m ∈ data.refs, (file.types.lookup m).isSome
  targets : ∀ target ∈ file.targets, ∀ n ∈ target.2, (file.types.lookup n).isSome

/-- Nothing written before has changed. -/
structure TypeFile.Keeps (file later : TypeFile) : Prop where
  types : ∀ n data, file.types.lookup n = some data → later.types.lookup n = some data
  targets : ∀ name args, file.targets.lookup name = some args → later.targets.lookup name = some args

/-- The file as the process will leave it. -/
def Compiler.output (file : TypeFile) (p : Compiler) : TypeFile :=
  match p.stage with
  | .loaded output | .built output => output
  | _ => file

structure Compiler.Consistent (file : TypeFile) (p : Compiler) : Prop where
  sound : Registry.Sound p.ctx [] ⟨p.typeNames, (p.output file).types⟩
  closed : (p.output file).Closed
  keeps : file.Keeps (p.output file)
  unlisted : ∀ output, p.stage = .loaded output → ∀ job ∈ p.jobs.head?, output.targets.lookup job.1 = none

structure System.Consistent (s : System) : Prop where
  closed : s.typeinfo.Closed
  compilers : ∀ (i : Nat) p, s.compilers[i]? = some p → p.Consistent s.typeinfo
  locked : ∀ (i : Nat) p, s.compilers[i]? = some p → p.stage ≠ .waiting → s.lockFile = true
  exclusive : ∀ (i j : Nat) p q, s.compilers[i]? = some p → s.compilers[j]? = some q →
    p.stage ≠ .waiting → q.stage ≠ .waiting → i = j

section
variable {file later : TypeFile} {p q : Compiler} {s t : System}

theorem TypeFile.Keeps.refl (file : TypeFile) : file.Keeps file := ⟨fun _ _ is => is, fun _ _ is => is⟩

theorem TypeFile.Keeps.trans {last : TypeFile} (first : file.Keeps later) (second : later.Keeps last) :
    file.Keeps last :=
  ⟨fun _ _ is => second.types _ _ (first.types _ _ is), fun _ _ is => second.targets _ _ (first.targets _ _ is)⟩

/-- The cache of a process outlives what others add to the file. -/
theorem Registry.Sound.outlives {ctx : Context} {names : List (LLVMType × Nat)}
    (sound : Registry.Sound ctx [] ⟨names, file.types⟩) (keeps : file.Keeps later) (closed : later.Closed) :
    Registry.Sound ctx [] ⟨names, later.types⟩ := by
  refine ⟨?_, sound.distinct, closed.types⟩
  intro t n named
  obtain ⟨data, found, described⟩ := sound.described t n named
  exact ⟨data, keeps.types n data found, described⟩

/-- The fuel of the model suffices. -/
theorem registerAll_isSome {ctx : Context} {r : Registry} (args : List LLVMType) (sound : r.Sound ctx []) :
    (registerAll (fun t => registerType ctx (ctx.fuel t) t) args r).isSome := by
  refine registerAll_total (fun r => r.Sound ctx [])
    (fun t r n s sound ran => (registerType_spec sound ran).sound) ?_ sound
  intro t _ r sound
  apply registerType_total (bounded_bound ctx) sound
  have few : (r.unnamed ctx).card ≤ ctx.length := (Finset.card_filter_le _ _).trans_eq (Finset.card_range _)
  have room := Nat.mul_le_mul_right (ctx.bound + 1) few
  simp only [Context.fuel]
  omega

/-- The registration of a target's arguments extends the file by what they need. -/
theorem build_spec {ctx : Context} {names : List (LLVMType × Nat)} {output : TypeFile} {name : Name}
    {args : List LLVMType} {targetArgs : List Nat} {r : Registry}
    (sound : Registry.Sound ctx [] ⟨names, output.types⟩) (closed : output.Closed)
    (unlisted : output.targets.lookup name = none)
    (ran : registerAll (fun t => registerType ctx (ctx.fuel t) t) args ⟨names, output.types⟩ = some (targetArgs, r)) :
    let built : TypeFile := ⟨r.types, (name, targetArgs) :: output.targets⟩
    Registry.Sound ctx [] ⟨r.typeNames, r.types⟩ ∧ built.Closed ∧ output.Keeps built := by
  obtain ⟨grows, sound, named⟩ := registerAll_spec (fun _ _ _ _ sound ran => registerType_spec sound ran) sound ran
  have defined : ∀ n, (output.types.lookup n).isSome → (r.types.lookup n).isSome := by
    intro n is
    obtain ⟨data, found⟩ := Option.isSome_iff_exists.mp is
    simp [grows.types n data found]
  refine ⟨sound, ⟨sound.closed, ?_⟩, grows.types, ?_⟩
  · intro target listed n inside
    rcases List.mem_cons.mp listed with rfl | old
    · obtain ⟨t, _, is⟩ := Listing.exists_of_forall₂ named n inside
      obtain ⟨data, found, _⟩ := sound.described t n is
      simp [found]
    · exact defined n (closed.targets target old n inside)
  · intro other args found
    have ne : other ≠ name := by
      rintro rfl
      rw [unlisted] at found
      cases found
    rw [List.lookup_cons, beq_eq_false_iff_ne.mpr ne]
    exact found

/-- What a step of a process leaves. -/
structure Moved (lockFile : Bool) (file : TypeFile) (p : Compiler)
    (lockFile' : Bool) (later : TypeFile) (q : Compiler) :
    Prop where
  keeps : file.Keeps later
  consistent : q.Consistent later
  closed : later.Closed
  locked : (p.stage ≠ .waiting → lockFile = true) → q.stage ≠ .waiting → lockFile' = true

theorem Compiler.step_spec {lockFile lockFile' : Bool} {file later : Option TypeFile} (closed : (file.getD {}).Closed)
    (consistent : p.Consistent (file.getD {})) (ran : p.step lockFile file = some (lockFile', later, q)) :
    Moved lockFile (file.getD {}) p lockFile' (later.getD {}) q := by
  obtain ⟨ctx, names, jobs, stage⟩ := p
  obtain ⟨sound, outputClosed, keeps, unlisted⟩ := consistent
  cases jobs with
  | nil => cases ran
  | cons job rest =>
    obtain ⟨name, args⟩ := job
    cases stage with
    | waiting =>
      simp only [Compiler.step] at ran
      split at ran
      · simp only [Option.some.injEq, Prod.mk.injEq] at ran
        obtain ⟨rfl, rfl, rfl⟩ := ran
        exact ⟨.refl _, ⟨sound, closed, .refl _, nofun⟩, closed, fun held => held⟩
      · simp only [Option.some.injEq, Prod.mk.injEq] at ran
        obtain ⟨rfl, rfl, rfl⟩ := ran
        exact ⟨.refl _, ⟨sound, closed, .refl _, nofun⟩, closed, fun _ _ => rfl⟩
    | locked =>
      cases file with
      | none =>
        simp only [Compiler.step, Option.some.injEq, Prod.mk.injEq] at ran
        obtain ⟨rfl, rfl, rfl⟩ := ran
        refine ⟨.refl _, ⟨sound, closed, .refl _, ?_⟩, closed, fun held _ => held nofun⟩
        rintro output same job -
        obtain rfl := Stage.loaded.inj same
        rfl
      | some output =>
        simp only [Compiler.step] at ran
        split at ran
        · simp only [Option.some.injEq, Prod.mk.injEq] at ran
          obtain ⟨rfl, rfl, rfl⟩ := ran
          exact ⟨.refl _, ⟨sound, closed, .refl _, nofun⟩, closed, fun held _ => held nofun⟩
        · next absent =>
          simp only [Option.some.injEq, Prod.mk.injEq] at ran
          obtain ⟨rfl, rfl, rfl⟩ := ran
          refine ⟨.refl _, ⟨sound, closed, .refl _, ?_⟩, closed, fun held _ => held nofun⟩
          rintro output same job first
          obtain rfl := Stage.loaded.inj same
          obtain rfl := Option.some.inj first
          exact Option.not_isSome_iff_eq_none.mp absent
    | loaded output =>
      simp only [Compiler.step, Option.bind_eq_bind, Option.bind_eq_some_iff, Option.pure_def, Option.some.injEq,
        Prod.mk.injEq] at ran
      obtain ⟨⟨targetArgs, r⟩, registered, rfl, rfl, rfl⟩ := ran
      obtain ⟨newSound, newClosed, newKeeps⟩ :=
        build_spec sound outputClosed (unlisted output rfl (name, args) rfl) registered
      exact ⟨.refl _, ⟨newSound, newClosed, keeps.trans newKeeps, nofun⟩, closed, fun held _ => held nofun⟩
    | built output =>
      simp only [Compiler.step, Option.some.injEq, Prod.mk.injEq] at ran
      obtain ⟨rfl, rfl, rfl⟩ := ran
      exact ⟨keeps, ⟨sound, outputClosed, .refl _, nofun⟩, outputClosed, fun held _ => held nofun⟩
    | leaving =>
      simp only [Compiler.step, Option.some.injEq, Prod.mk.injEq] at ran
      obtain ⟨rfl, rfl, rfl⟩ := ran
      exact ⟨.refl _, ⟨sound, closed, .refl _, nofun⟩, closed, fun _ busy => absurd rfl busy⟩

/-- A process that finds the lock file there changes nothing. -/
theorem Compiler.step_blocked {file later : Option TypeFile} {lockFile' : Bool} (waiting : p.stage = .waiting)
    (ran : p.step true file = some (lockFile', later, q)) : (lockFile', later, q) = (true, file, p) := by
  cases given : p.jobs with
  | nil => simp [Compiler.step, given] at ran
  | cons job rest =>
    simp only [Compiler.step, given, waiting, if_true] at ran
    exact (Option.some.inj ran).symm

theorem System.step_eq_some {i : Nat} (ran : s.step i = some t) :
    ∃ p q, s.compilers[i]? = some p ∧ p.step s.lockFile s.file = some (t.lockFile, t.file, q) ∧
      t.compilers = s.compilers.set i q := by
  simp only [System.step, Option.bind_eq_bind, Option.bind_eq_some_iff, Option.pure_def, Option.some.injEq] at ran
  obtain ⟨p, found, ⟨lockFile, file, q⟩, moved, rfl⟩ := ran
  exact ⟨p, q, found, moved, rfl⟩

theorem System.step_consistent {i : Nat} (consistent : s.Consistent) (ran : s.step i = some t) :
    t.Consistent ∧ s.typeinfo.Keeps t.typeinfo := by
  obtain ⟨p, q, found, moved, compilers⟩ := System.step_eq_some ran
  have inside := (List.getElem?_eq_some_iff.mp found).1
  have spec := Compiler.step_spec consistent.closed (consistent.compilers i p found) moved
  by_cases alone : ∀ (j : Nat) other, j ≠ i → s.compilers[j]? = some other → other.stage = .waiting
  · -- nobody else is between the lock and its release
    have others : ∀ (j : Nat) other, t.compilers[j]? = some other →
        j = i ∧ other = q ∨ j ≠ i ∧ s.compilers[j]? = some other := by
      intro j other there
      rw [compilers] at there
      by_cases same : j = i
      · subst same
        rw [List.getElem?_set_self inside] at there
        exact .inl ⟨rfl, (Option.some.inj there).symm⟩
      · rw [List.getElem?_set_ne (Ne.symm same)] at there
        exact .inr ⟨same, there⟩
    have busy : ∀ (j : Nat) other, t.compilers[j]? = some other → other.stage ≠ .waiting → j = i ∧ other = q := by
      intro j other there busy
      rcases others j other there with here | ⟨ne, old⟩
      · exact here
      · exact absurd (alone j other ne old) busy
    refine ⟨⟨spec.closed, ?_, ?_, ?_⟩, spec.keeps⟩
    · intro j other there
      rcases others j other there with ⟨-, rfl⟩ | ⟨ne, old⟩
      · exact spec.consistent
      · have before := consistent.compilers j other old
        have waiting := alone j other ne old
        have output : ∀ file, other.output file = file := by
          intro file
          rw [Compiler.output, waiting]
        constructor
        · rw [output]
          exact (output s.typeinfo ▸ before.sound).outlives spec.keeps spec.closed
        · rw [output]
          exact spec.closed
        · rw [output]
          exact .refl _
        · intro output loaded
          rw [waiting] at loaded
          cases loaded
    · intro j other there active
      obtain ⟨-, rfl⟩ := busy j other there active
      exact spec.locked (consistent.locked i p found) active
    · intro j k first second one two active active'
      rw [(busy j first one active).1, (busy k second two active').1]
  · -- somebody else holds the lock
    push Not at alone
    obtain ⟨j, holder, ne, there, active⟩ := alone
    have waiting : p.stage = .waiting := by
      by_contra busy
      exact ne (consistent.exclusive j i holder p there found active busy)
    have held := consistent.locked j holder there active
    rw [held] at moved
    have same := Compiler.step_blocked waiting moved
    simp only [Prod.mk.injEq] at same
    obtain ⟨lock, file, rfl⟩ := same
    obtain ⟨_, here⟩ := List.getElem?_eq_some_iff.mp found
    rw [← here, List.set_getElem_self] at compilers
    have still : t = s := System.ext (lock.trans held.symm) file compilers
    rw [still]
    exact ⟨consistent, .refl _⟩

theorem System.start_consistent (compilers : List (Context × Config × Module LLVMType)) :
    (System.start compilers).Consistent := by
  have closed : ({} : TypeFile).Closed := ⟨by simp, by simp⟩
  have fresh : ∀ (i : Nat) p, (System.start compilers).compilers[i]? = some p →
      p.typeNames = [] ∧ p.stage = .waiting := by
    intro i p found
    simp only [System.start, List.getElem?_map, Option.map_eq_some_iff] at found
    obtain ⟨compiler, _, rfl⟩ := found
    exact ⟨rfl, rfl⟩
  refine ⟨closed, ?_, ?_, ?_⟩
  · intro i p found
    obtain ⟨names, waiting⟩ := fresh i p found
    have output : p.output (System.start compilers).typeinfo = {} := by
      simp [Compiler.output, waiting, System.typeinfo, System.start]
    constructor
    · rw [output, names]
      exact ⟨by simp, by simp, by simp⟩
    · exact output ▸ closed
    · exact output ▸ .refl _
    · simp [waiting]
  · intro i p found busy
    exact absurd (fresh i p found).2 busy
  · intro i j p q found _ busy
    exact absurd (fresh i p found).2 busy

/-- A process with targets left is never stuck. -/
theorem System.step_isSome {i : Nat} (consistent : s.Consistent) (found : s.compilers[i]? = some p)
    (left : p.jobs ≠ []) :
    (s.step i).isSome := by
  have moves : (p.step s.lockFile s.file).isSome := by
    obtain ⟨job, rest, given⟩ := List.exists_cons_of_ne_nil left
    unfold Compiler.step
    rw [given]
    cases stage : p.stage with
    | waiting =>
      dsimp only
      split <;> rfl
    | locked =>
      cases s.file with
      | none => rfl
      | some output =>
        dsimp only
        split <;> rfl
    | loaded output =>
      have sound := (consistent.compilers i p found).sound
      simp only [Compiler.output, stage] at sound
      obtain ⟨done, is⟩ := Option.isSome_iff_exists.mp (registerAll_isSome job.2 sound)
      simp [is]
    | built | leaving => rfl
  obtain ⟨done, is⟩ := Option.isSome_iff_exists.mp moves
  simp [System.step, found, is]

/-- The file after a release, against an earlier one. -/
structure TypeinfoKept (earlier s : System) : Prop where
  closed : s.typeinfo.Closed
  kept : earlier.typeinfo.Keeps s.typeinfo
  faithful : ∀ p ∈ s.compilers, ∀ t n, p.typeNames.lookup t = some n → Supported p.ctx t →
    Faithful p.ctx s.typeinfo.types n t

theorem System.Consistent.faithful_iff {t : LLVMType} {n : Nat} (consistent : s.Consistent)
    (released : s.lockFile = false)
    (inside : p ∈ s.compilers) (named : p.typeNames.lookup t = some n) :
    Faithful p.ctx s.typeinfo.types n t ↔ Fits p.ctx t := by
  obtain ⟨i, found⟩ := List.getElem?_of_mem inside
  -- with the lock file gone, nobody holds a copy of the file
  have waiting : p.stage = .waiting := by
    by_contra busy
    simp [consistent.locked i p found busy] at released
  have sound := (consistent.compilers i p found).sound
  simp only [Compiler.output, waiting] at sound
  exact sound.faithful_iff named

theorem System.run_consistent {compilers : List (Context × Config × Module LLVMType)} {events : List Nat}
    (ran : Runs.run System.step (System.start compilers) events = some s) : s.Consistent :=
  Runs.run_invariant System.Consistent (fun _ _ _ consistent step => (System.step_consistent consistent step).1)
    (System.start_consistent compilers) ran

end

theorem typeinfo_kept_iff (compilers : List (Context × Config × Module LLVMType)) {events later : List Nat}
    {earlier s : System} (ran : Runs.run System.step (System.start compilers) events = some earlier)
    (ran_on : Runs.run System.step earlier later = some s) (released : s.lockFile = false) :
    TypeinfoKept earlier s ↔
      ∀ p ∈ s.compilers, ∀ t n, p.typeNames.lookup t = some n → Supported p.ctx t → Fits p.ctx t := by
  obtain ⟨consistent, kept⟩ : s.Consistent ∧ earlier.typeinfo.Keeps s.typeinfo :=
    Runs.run_invariant (fun s => s.Consistent ∧ earlier.typeinfo.Keeps s.typeinfo)
      (fun _ _ _ inv step =>
        have next := System.step_consistent inv.1 step
        ⟨next.1, inv.2.trans next.2⟩)
      ⟨System.run_consistent ran, .refl _⟩ ran_on
  constructor
  · intro property p inside t n named supported
    exact (consistent.faithful_iff released inside named).mp (property.faithful p inside t n named supported)
  · intro fits
    refine ⟨consistent.closed, kept, ?_⟩
    intro p inside t n named supported
    exact (consistent.faithful_iff released inside named).mpr (fits p inside t n named supported)

/-- A module with one target, which takes one argument. -/
def oneTarget (name function : Name) (argument : LLVMType) : Module LLVMType where
  name := name
  functions := [⟨function, [⟨argument, false⟩], false⟩]
  distinct := by simp

def oneConfig (function : Name) : Config := ⟨some [function], []⟩

/-- `struct node { int value; struct node *next; }` -/
def nodes : Context := [⟨16, [(.integer 32, 0), (.pointer (.struct 0), 8)]⟩]

theorem nodes_parts {t u : LLVMType} (inside : t ∈ [.integer 32, .struct 0, .pointer (.struct 0)])
    (part : Part nodes t u) : u ∈ [.integer 32, .struct 0, .pointer (.struct 0)] := by
  induction part with
  | refl => exact inside
  | @pointer v _ _ ih =>
    obtain rfl : v = .struct 0 := by simpa using inside
    exact ih (by simp)
  | array => simp at inside
  | @struct _ _ id there _ ih =>
    obtain rfl : id = 0 := by simpa using inside
    simp only [Context.body, nodes, List.getD_cons_zero, List.mem_cons, List.not_mem_nil, or_false] at there
    rcases there with rfl | rfl <;> exact ih (by simp)

theorem nodes_fit (inside : t ∈ [.integer 32, .struct 0, .pointer (.struct 0)]) : Fits nodes t := by
  intro u part
  have listed := nodes_parts inside part
  simp only [List.mem_cons, List.not_mem_nil, or_false] at listed
  rcases listed with rfl | rfl | rfl <;> simp [Narrow, nodes, Context.body]

/-- Two processes that name the same recursive struct, the second waiting for the first. -/
theorem typeinfo_kept_for_nodes :
    ∃ earlier s, Runs.run System.step
        (System.start [(nodes, oneConfig (ascii "push"), oneTarget (ascii "a.c") (ascii "push") (.pointer (.struct 0))),
          (nodes, oneConfig (ascii "pop"), oneTarget (ascii "b.c") (ascii "pop") (.pointer (.struct 0)))])
        [0, 1, 0, 0, 1, 0, 0] = some earlier ∧
      Runs.run System.step earlier [1, 1, 1, 1, 1] = some s ∧
      s.typeinfo.targets = [(ascii "pop", [3]), (ascii "push", [0])] ∧
      TypeinfoKept earlier s := by
  generalize start : System.start _ = first
  have whole : (Runs.run System.step first ([0, 1, 0, 0, 1, 0, 0] ++ [1, 1, 1, 1, 1])).isSome := by
    subst start
    decide +kernel
  obtain ⟨s, is⟩ := Option.isSome_iff_exists.mp whole
  obtain ⟨earlier, ran, ran_on⟩ := Runs.run_append.mp is
  have facts : ∀ s ∈ Runs.run System.step first ([0, 1, 0, 0, 1, 0, 0] ++ [1, 1, 1, 1, 1]),
      s.lockFile = false ∧ s.typeinfo.targets = [(ascii "pop", [3]), (ascii "push", [0])] ∧
      ∀ p ∈ s.compilers, p.ctx = nodes ∧ ∀ entry ∈ p.typeNames,
        entry.1 ∈ [LLVMType.integer 32, .struct 0, .pointer (.struct 0)] := by
    subst start
    decide +kernel
  obtain ⟨released, names, fine⟩ := facts s is
  subst start
  refine ⟨earlier, s, ran, ran_on, names, (typeinfo_kept_iff _ ran ran_on released).mpr ?_⟩
  intro p inside t n named _
  obtain ⟨before, after, listed, _⟩ := List.lookup_eq_some_iff.mp named
  rw [(fine p inside).1]
  exact nodes_fit ((fine p inside).2 (t, n) (by simp [listed]))

/-- A pointer to an array of `2^32` bytes: the array that is made has no elements. -/
theorem long_array_made_empty :
    ∃ s, Runs.run System.step
        (System.start [([], oneConfig (ascii "fill"),
          oneTarget (ascii "a.c") (ascii "fill") (.pointer (.array (.integer 8) (2 ^ 32))))])
        [0, 0, 0, 0, 0] = some s ∧ s.lockFile = false ∧
      (makeType s.typeinfo.types 9 0 {}).map (fun made => made.2.objects) =
        .ok [.integer 8, .array (some 0) 0, .pointer (some 1)] ∧
      ¬TypeinfoKept s s := by
  generalize start : System.start _ = first
  have ends : (Runs.run System.step first [0, 0, 0, 0, 0]).isSome := by
    subst start
    decide +kernel
  obtain ⟨s, is⟩ := Option.isSome_iff_exists.mp ends
  have facts : ∀ s ∈ Runs.run System.step first [0, 0, 0, 0, 0],
      s.lockFile = false ∧ (makeType s.typeinfo.types 9 0 {}).map (fun made => made.2.objects) =
        .ok [.integer 8, .array (some 0) 0, .pointer (some 1)] ∧
      ∃ p ∈ s.compilers, p.ctx = [] ∧ p.typeNames.lookup (.pointer (.array (.integer 8) (2 ^ 32))) = some 0 := by
    subst start
    decide +kernel
  obtain ⟨released, made, p, inside, ctx, named⟩ := facts s is
  subst start
  refine ⟨s, is, released, made, fun kept => ?_⟩
  have supported : Supported p.ctx (.pointer (.array (.integer 8) (2 ^ 32))) := by
    intro u part
    cases part with
    | refl => simp
    | pointer part =>
      cases part with
      | refl => simp
      | array part =>
        cases part
        simp
  have fits := ((System.run_consistent is).faithful_iff released inside named).mp
    (kept.faithful p inside _ _ named supported)
  exact absurd (fits _ (.pointer .refl)) (by simp [Narrow])

end AflLive.Instrumentation
