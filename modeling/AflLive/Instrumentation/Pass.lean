import AflLive.Common
import AflLive.Library.Listing

/-! `HarnessPass::run` and the target selection of testamp's pass. Argument types are any
type here; how the typeinfo file describes one is the subject of `TypeInfo`. -/
namespace AflLive.Instrumentation

variable {τ : Type}

structure Argument (τ : Type) where
  type : τ
  structRet : Bool
deriving DecidableEq

structure Function (τ : Type) where
  name : Name
  args : List (Argument τ)
  declaration : Bool
deriving DecidableEq

structure Module (τ : Type) where
  name : Name
  functions : List (Function τ)
  distinct : (functions.map Function.name).Nodup

/-- The config file; `skip` in the order of its keys. -/
structure Config where
  targets : Option (List Name)
  skip : List (Name × List Nat)

/-- The arguments that are neither returned through nor skipped, with their positions.
`harnessFunction` makes a slot for each, the pass writes the type of each. -/
def passedArguments (args : List (Argument τ)) (skipParameters : List Nat) : List (Nat × τ) :=
  (args.zipIdx.filter fun arg => !arg.1.structRet && arg.2 ∉ skipParameters).map fun arg => (arg.2, arg.1.type)

def Module.getFunction (M : Module τ) (name : Name) : Option (Function τ) :=
  M.functions.find? fun f => f.name == name

/-- The name a target has in this module; there is none if it names another module. -/
def targetFunctionName (M : Module τ) (target : Name) : Option Name :=
  if colon ∈ target then
    let (moduleName, name) := splitColon target
    if areModulesEquivalent moduleName M.name then some name else none
  else some target

/-- The first key that fits decides. -/
def skipParameters (config : Config) (M : Module τ) (name : Name) : List Nat :=
  ((config.skip.find? fun entry => entry.1 == name ||
    areModuleColonFunctionNamesEquivalent entry.1 (M.name ++ colon :: name)).map Prod.snd).getD []

/-- The function a target stands for in this module, if it is defined there. -/
def harnessed (M : Module τ) (target : Name) : Option (Function τ) :=
  ((targetFunctionName M target).bind M.getFunction).filter fun f => !f.declaration

/-- The functions the pass harnesses in a module. -/
def harnessedFunctions (config : Config) (M : Module τ) : List (Function τ) :=
  (config.targets.getD []).filterMap (harnessed M)

/-- The call of `gen_values` in a function's prologue. -/
structure Prologue (τ : Type) where
  name : Name
  slots : List τ
deriving DecidableEq

/-- The typeinfo file's `targets`, the functions visited in the current module and the
prologues of all modules so far. -/
structure Build (τ : Type) where
  typeinfo : List (Name × List τ) := []
  visited : List Name := []
  prologues : List (Prologue τ) := []

/-- `harnessFunction`. -/
def Build.harnessFunction (s : Build τ) (f : Function τ) (skip : List Nat) : Build τ :=
  if f.name ∈ s.visited then s
  else { s with
    visited := f.name :: s.visited
    prologues := s.prologues ++ [⟨f.name, (passedArguments f.args skip).map Prod.snd⟩] }

/-- The part under the lock: a target that is listed already is left as it is. -/
def Build.writeTarget (s : Build τ) (f : Function τ) (skip : List Nat) : Build τ :=
  if (s.typeinfo.lookup f.name).isSome then s
  else { s with typeinfo := s.typeinfo ++ [(f.name, (passedArguments f.args skip).map Prod.snd)] }

def Build.target (config : Config) (M : Module τ) (s : Build τ) (target : Name) : Build τ :=
  match harnessed M target with
  | none => s
  | some f =>
    let skip := skipParameters config M f.name
    (s.harnessFunction f skip).writeTarget f skip

/-- One compilation. -/
def Build.run (s : Build τ) (config : Config) (M : Module τ) : Build τ :=
  (config.targets.getD []).foldl (Build.target config M) { s with visited := [] }

def Build.runAll (history : List (Config × Module τ)) : Build τ :=
  history.foldl (fun s compilation => s.run compilation.1 compilation.2) {}

theorem getFunction_eq_some_iff {M : Module τ} {name : Name} {f : Function τ} :
    M.getFunction name = some f ↔ f ∈ M.functions ∧ f.name = name := by
  constructor
  · intro found
    exact ⟨List.mem_of_find?_eq_some found, by simpa using List.find?_some found⟩
  · rintro ⟨inside, rfl⟩
    obtain ⟨g, found⟩ : ∃ g, M.getFunction f.name = some g := by
      rw [Module.getFunction, ← Option.isSome_iff_exists, List.find?_isSome]
      exact ⟨f, inside, by simp⟩
    have same : g.name = f.name := by simpa using List.find?_some found
    rw [found, List.inj_on_of_nodup_map M.distinct (List.mem_of_find?_eq_some found) inside same]

theorem harnessed_eq_some_iff {M : Module τ} {target : Name} {f : Function τ} :
    harnessed M target = some f ↔
      targetFunctionName M target = some f.name ∧ f ∈ M.functions ∧ f.declaration = false := by
  simp only [harnessed, Option.filter_eq_some_iff, Option.bind_eq_some_iff, getFunction_eq_some_iff]
  constructor
  · rintro ⟨⟨name, named, inside, rfl⟩, defined⟩
    exact ⟨named, inside, by simpa using defined⟩
  · rintro ⟨named, inside, defined⟩
    exact ⟨⟨f.name, named, inside, rfl⟩, by simp [defined]⟩

/-- The prologue the pass makes for a function of this module. -/
def prologueOf (config : Config) (M : Module τ) (f : Function τ) : Prologue τ :=
  ⟨f.name, (passedArguments f.args (skipParameters config M f.name)).map Prod.snd⟩

@[simp] theorem Build.writeTarget_prologues (s : Build τ) (f : Function τ) (skip : List Nat) :
    (s.writeTarget f skip).prologues = s.prologues := by
  unfold Build.writeTarget
  split <;> rfl

/-- Every prologue has its list of types, and every list was written for a prologue. -/
structure Build.Listed (s : Build τ) : Prop where
  covered : ∀ p ∈ s.prologues, (s.typeinfo.lookup p.name).isSome
  source : ∀ name types, s.typeinfo.lookup name = some types → ⟨name, types⟩ ∈ s.prologues

/-- What was visited has the prologue it would get now. -/
def Build.Visited (config : Config) (M : Module τ) (s : Build τ) : Prop :=
  ∀ f ∈ M.functions, f.name ∈ s.visited → prologueOf config M f ∈ s.prologues

section
variable {config : Config} {M : Module τ} {s : Build τ} {f : Function τ}

theorem Build.Visited.harness (visited : s.Visited config M) (inside : f ∈ M.functions) :
    let t := s.harnessFunction f (skipParameters config M f.name)
    t.Visited config M ∧ prologueOf config M f ∈ t.prologues ∧ t.typeinfo = s.typeinfo ∧
      ∀ p, p ∈ t.prologues ↔ p ∈ s.prologues ∨ p = prologueOf config M f := by
  by_cases before : f.name ∈ s.visited
  · have known := visited f inside before
    simp only [Build.harnessFunction, if_pos before]
    refine ⟨visited, known, trivial, fun p => ⟨.inl, ?_⟩⟩
    rintro (inside | rfl)
    · exact inside
    · exact known
  · simp only [Build.harnessFunction, if_neg before]
    refine ⟨?_, by simp [prologueOf], trivial, fun p => by simp [prologueOf]⟩
    intro g inside' named
    rcases List.mem_cons.mp named with same | earlier
    · obtain rfl := List.inj_on_of_nodup_map M.distinct inside' inside same
      simp [prologueOf]
    · exact List.mem_append_left _ (visited g inside' earlier)

theorem Build.target_listed (target : Name) (listed : s.Listed) (visited : s.Visited config M) :
    (s.target config M target).Listed ∧ (s.target config M target).Visited config M := by
  unfold Build.target
  cases found : harnessed M target with
  | none => exact ⟨listed, visited⟩
  | some f =>
    obtain ⟨visited, here, typeinfo, prologues⟩ := visited.harness (harnessed_eq_some_iff.mp found).2.1
    dsimp only at visited here typeinfo prologues ⊢
    generalize s.harnessFunction f (skipParameters config M f.name) = t at *
    cases before : t.typeinfo.lookup f.name with
    | some types =>
      rw [Build.writeTarget, if_pos (by simp [before])]
      refine ⟨⟨fun p inside => ?_, fun name types is => (prologues _).mpr (.inl (listed.source name types ?_))⟩,
        visited⟩
      · rcases (prologues p).mp inside with old | rfl
        · exact typeinfo ▸ listed.covered p old
        · simp [prologueOf, before]
      · exact typeinfo ▸ is
    | none =>
      rw [Build.writeTarget, if_neg (by simp [before])]
      refine ⟨⟨fun p inside => ?_, fun name types is => ?_⟩, visited⟩
      · rw [List.lookup_append, Option.isSome_or]
        rcases (prologues p).mp inside with old | rfl
        · simp [typeinfo, listed.covered p old]
        · simp [prologueOf]
      · rw [List.lookup_append, Option.or_eq_some_iff] at is
        rcases is with old | ⟨_, new⟩
        · exact (prologues _).mpr (.inl (listed.source name types (typeinfo ▸ old)))
        · by_cases same : name = f.name
          · subst same
            rw [List.lookup_cons_self] at new
            exact Option.some.inj new ▸ here
          · simp [List.lookup, beq_eq_false_iff_ne.mpr same] at new

theorem Build.target_prologues (target : Name) (visited : s.Visited config M) (p : Prologue τ) :
    p ∈ (s.target config M target).prologues ↔
      p ∈ s.prologues ∨ ∃ f, harnessed M target = some f ∧ p = prologueOf config M f := by
  unfold Build.target
  cases found : harnessed M target with
  | none => simp
  | some f =>
    obtain ⟨-, -, -, prologues⟩ := visited.harness (harnessed_eq_some_iff.mp found).2.1
    simp [prologues p]

/-- A compilation adds the prologues of the functions it harnesses. -/
theorem Build.run_prologues (listed : s.Listed) (config : Config) (M : Module τ) (p : Prologue τ) :
    p ∈ (s.run config M).prologues ↔
      p ∈ s.prologues ∨ ∃ f ∈ harnessedFunctions config M, p = prologueOf config M f := by
  have all : ∀ (targets : List Name) (s : Build τ), s.Listed → s.Visited config M →
      (p ∈ (targets.foldl (Build.target config M) s).prologues ↔
        p ∈ s.prologues ∨ ∃ f ∈ targets.filterMap (harnessed M), p = prologueOf config M f) := by
    intro targets
    induction targets with
    | nil => simp
    | cons target targets ih =>
      intro s listed visited
      obtain ⟨listed', visited'⟩ := Build.target_listed target listed visited
      rw [List.foldl_cons, ih _ listed' visited', Build.target_prologues target visited, or_assoc]
      refine or_congr_right ?_
      cases found : harnessed M target with
      | none => simp [found]
      | some f => simp [found]
  exact all _ _ ⟨listed.covered, listed.source⟩ fun f _ named => by cases named

theorem Build.run_listed (listed : s.Listed) (config : Config) (M : Module τ) : (s.run config M).Listed := by
  have all : ∀ (targets : List Name) (s : Build τ), s.Listed → s.Visited config M →
      (targets.foldl (Build.target config M) s).Listed := by
    intro targets
    induction targets with
    | nil => exact fun _ listed _ => listed
    | cons target targets ih =>
      intro s listed visited
      obtain ⟨listed, visited⟩ := Build.target_listed target listed visited
      exact ih _ listed visited
  exact all _ _ ⟨listed.covered, listed.source⟩ fun f _ named => by cases named

end

theorem Build.runAll_listed (history : List (Config × Module τ)) : (Build.runAll history).Listed := by
  refine List.foldlRecOn history _ ⟨by simp, by simp⟩ ?_
  intro s listed compilation _
  exact Build.run_listed listed compilation.1 compilation.2

/-- The prologues of a build are those of the functions harnessed in its history. -/
theorem Build.mem_prologues {history : List (Config × Module τ)} {p : Prologue τ} :
    p ∈ (Build.runAll history).prologues ↔
      ∃ compilation ∈ history, ∃ f ∈ harnessedFunctions compilation.1 compilation.2,
        p = prologueOf compilation.1 compilation.2 f := by
  induction history using List.reverseRecOn with
  | nil => simp [Build.runAll]
  | append_singleton history last ih =>
    have step : Build.runAll (history ++ [last]) = (Build.runAll history).run last.1 last.2 := by
      simp [Build.runAll]
    rw [step, Build.run_prologues (Build.runAll_listed history), ih]
    simp only [List.mem_append, List.mem_singleton, or_and_right, exists_or, exists_eq_left]

/-- `gen_values` walks the types a function's prologue passes: for every function that was
harnessed, the typeinfo file has the list of its slots. -/
def CallSitesAgree (s : Build τ) : Prop := ∀ p ∈ s.prologues, s.typeinfo.lookup p.name = some p.slots

/-- The list is written once for each name, so all functions of one name that are harnessed anywhere
in the history must pass the same types. -/
theorem call_sites_agree_iff (history : List (Config × Module τ)) :
    CallSitesAgree (Build.runAll history) ↔
      ∀ a ∈ history, ∀ b ∈ history, ∀ f ∈ harnessedFunctions a.1 a.2, ∀ g ∈ harnessedFunctions b.1 b.2,
        f.name = g.name → (passedArguments f.args (skipParameters a.1 a.2 f.name)).map Prod.snd =
          (passedArguments g.args (skipParameters b.1 b.2 g.name)).map Prod.snd := by
  have prologue {a : Config × Module τ} {f : Function τ} (inside : a ∈ history)
      (made : f ∈ harnessedFunctions a.1 a.2) :
      prologueOf a.1 a.2 f ∈ (Build.runAll history).prologues :=
    Build.mem_prologues.mpr ⟨a, inside, f, made, rfl⟩
  constructor
  · intro agree a first b second f here g there same
    have types : (Build.runAll history).typeinfo.lookup f.name = some (prologueOf a.1 a.2 f).slots :=
      agree _ (prologue first here)
    have others : (Build.runAll history).typeinfo.lookup g.name = some (prologueOf b.1 b.2 g).slots :=
      agree _ (prologue second there)
    rw [same, others] at types
    exact (Option.some.inj types).symm
  · intro alike p inside
    have listed := Build.runAll_listed history
    obtain ⟨types, is⟩ := Option.isSome_iff_exists.mp (listed.covered p inside)
    obtain ⟨a, first, f, here, rfl⟩ := Build.mem_prologues.mp inside
    obtain ⟨b, second, g, there, same⟩ := Build.mem_prologues.mp (listed.source _ types is)
    obtain ⟨name, slots⟩ := Prologue.mk.inj same
    rw [is, slots]
    exact congrArg some (alike b second a first g there f here name.symm)

/-- Two modules with a static function of one name. -/
def parseModule (file : String) (args : List (Argument Nat)) : Module Nat :=
  ⟨ascii file, [⟨ascii "parse", args, false⟩], by simp⟩

/-- The second module's prologue passes two slots where the typeinfo file lists one. -/
theorem static_namesake_disagrees :
    ∃ history : List (Config × Module Nat),
      (∀ compilation ∈ history, compilation.1 = ⟨some [ascii "parse"], []⟩) ∧
      ¬CallSitesAgree (Build.runAll history) := by
  refine ⟨[(⟨some [ascii "parse"], []⟩, parseModule "a.c" [⟨32, false⟩]),
    (⟨some [ascii "parse"], []⟩, parseModule "b.c" [⟨8, false⟩, ⟨64, false⟩])], by simp, ?_⟩
  unfold CallSitesAgree
  decide +kernel

/-- What clang makes of a function: its parameters in order, behind the hidden one through
which a struct is returned. -/
def lowered (result : Option τ) (params : List τ) : List (Argument τ) :=
  (result.map fun type => ⟨type, true⟩).toList ++ params.map fun type => ⟨type, false⟩

/-- The numbering of the config: the source parameters that are not in the skip list. -/
def sourceParameters (params : List τ) (skip : List Nat) : List (Nat × τ) :=
  (params.zipIdx.filter fun param => param.2 ∉ skip).map fun param => (param.2, param.1)

/-- The argument with index `j` in pass and runtime is the `j`-th such parameter, at its
place behind the hidden one. -/
def NumberingAgrees (result : Option τ) (params : List τ) (skip : List Nat) : Prop :=
  ∀ j : Nat, (passedArguments (lowered result params) skip)[j]? =
    ((sourceParameters params skip).map fun param => (param.1 + result.toList.length, param.2))[j]?

theorem passedArguments_lowered (result : Option τ) (params : List τ) (skip : List Nat) :
    passedArguments (lowered result params) skip =
      (params.zipIdx.filter fun param => param.2 + result.toList.length ∉ skip).map fun param =>
        (param.2 + result.toList.length, param.1) := by
  have hidden : ((result.map fun type => (⟨type, true⟩ : Argument τ)).toList.zipIdx.filter fun arg =>
      !arg.1.structRet && arg.2 ∉ skip) = [] := by
    cases result <;> simp
  have width : (result.map fun type => (⟨type, true⟩ : Argument τ)).toList.length = result.toList.length := by
    cases result <;> rfl
  rw [passedArguments, lowered, List.zipIdx_append, List.filter_append, hidden, width, List.nil_append,
    List.zipIdx_map, List.filter_map, List.zipIdx_eq_map_add, List.filter_map, List.map_map, List.map_map]
  simp [Function.comp_def, Nat.add_comm]

/-- The skip list counts LLVM arguments. With a hidden one in front it must say the same
about every parameter as about the next position. -/
theorem numbering_agrees_iff (result : Option τ) (params : List τ) (skip : List Nat) :
    NumberingAgrees result params skip ↔
      result = none ∨ ∀ i < params.length, i + 1 ∈ skip ↔ i ∈ skip := by
  have whole : NumberingAgrees result params skip ↔
      (params.zipIdx.filter fun param => param.2 + result.toList.length ∉ skip).map
          (fun param => (param.2 + result.toList.length, param.1)) =
        (params.zipIdx.filter fun param => param.2 ∉ skip).map
          (fun param => (param.2 + result.toList.length, param.1)) := by
    rw [NumberingAgrees, ← passedArguments_lowered, sourceParameters, List.map_map]
    exact List.ext_getElem?_iff.symm
  have distinct : (params.zipIdx.map fun param => (param.2 + result.toList.length, param.1)).Nodup := by
    apply List.Nodup.of_map Prod.fst
    rw [List.map_map]
    have places : (params.zipIdx.map Prod.snd).Nodup := by
      rw [List.zipIdx_map_snd]
      exact List.nodup_range' 1
    have shifted := places.map (add_left_injective result.toList.length)
    rwa [List.map_map] at shifted
  have pointwise : NumberingAgrees result params skip ↔
      ∀ i < params.length, i + result.toList.length ∈ skip ↔ i ∈ skip := by
    rw [whole]
    constructor
    · intro same i inside
      have all := (Listing.filter_map_perm_iff distinct).mp (List.Perm.of_eq same)
      simpa [not_iff_not] using all (params[i], i) (List.mem_zipIdx_iff_getElem?.mpr (List.getElem?_eq_getElem inside))
    · intro same
      refine congrArg _ (List.filter_congr fun param inside => ?_)
      have bound := (List.getElem?_eq_some_iff.mp (List.mem_zipIdx_iff_getElem?.mp inside)).1
      simp [same param.2 bound]
  rw [pointwise]
  cases result <;> simp

/-- A function that returns a struct, with three parameters of which the first is to be
skipped: nothing is, and every constraint index is off by one. -/
theorem sret_shifts_numbering :
    passedArguments (lowered (some 0) [8, 16, 32]) [0] = [(1, 8), (2, 16), (3, 32)] ∧
      sourceParameters [8, 16, 32] [0] = [(1, 16), (2, 32)] ∧ ¬NumberingAgrees (some 0) [8, 16, 32] [0] := by
  refine ⟨by decide, by decide, fun agrees => ?_⟩
  exact absurd (agrees 0) (by decide)

/-- The functions in which testamp's pass records the entry. `isNameInteresting` looks the
bare name up in the config's strings; a config without targets ends the compilation at the
first function. -/
def recordedFunctions (config : Config) (M : Module τ) : Option (List (Function τ)) :=
  let defined := M.functions.filter fun f => !f.declaration
  let mainmodule := (M.getFunction (ascii "main")).isSome
  match config.targets with
  | none => if defined = [] then some [] else none
  | some targets => some (defined.filter fun f => f.name ∈ targets && !mainmodule)

def TargetsAgree (config : Config) (M : Module τ) : Prop :=
  ∃ recorded, recordedFunctions config M = some recorded ∧ ∀ f, f ∈ recorded ↔ f ∈ harnessedFunctions config M

/-- A target `module:name` for this function of this module. -/
def Prefixed (targets : List Name) (M : Module τ) (name : Name) : Prop :=
  ∃ target ∈ targets, colon ∈ target ∧ areModulesEquivalent (splitColon target).1 M.name = true ∧
    (splitColon target).2 = name

theorem mem_harnessedFunctions {targets : List Name} {skip : List (Name × List Nat)} {M : Module τ} {f : Function τ} :
    f ∈ harnessedFunctions ⟨some targets, skip⟩ M ↔
      f ∈ M.functions ∧ f.declaration = false ∧ (f.name ∈ targets ∧ colon ∉ f.name ∨ Prefixed targets M f.name) := by
  have named : ∀ target, targetFunctionName M target = some f.name ↔
      colon ∉ target ∧ target = f.name ∨ colon ∈ target ∧
        areModulesEquivalent (splitColon target).1 M.name = true ∧ (splitColon target).2 = f.name := by
    intro target
    by_cases inside : colon ∈ target <;> simp [targetFunctionName, inside]
  simp only [harnessedFunctions, Option.getD_some, List.mem_filterMap, harnessed_eq_some_iff, named]
  constructor
  · rintro ⟨target, listed, ⟨plain, rfl⟩ | ⟨marked, fits, same⟩, inside, defined⟩
    · exact ⟨inside, defined, .inl ⟨listed, plain⟩⟩
    · exact ⟨inside, defined, .inr ⟨target, listed, marked, fits, same⟩⟩
  · rintro ⟨inside, defined, ⟨listed, plain⟩ | ⟨target, listed, marked, fits, same⟩⟩
    · exact ⟨f.name, listed, .inl ⟨plain, rfl⟩, inside, defined⟩
    · exact ⟨target, listed, .inr ⟨marked, fits, same⟩, inside, defined⟩

theorem targetsAgree_iff {config : Config} {M : Module τ} :
    TargetsAgree config M ↔
      (config.targets = none → ∀ f ∈ M.functions, f.declaration = true) ∧
      ∀ targets ∈ config.targets, ∀ f ∈ M.functions, f.declaration = false →
        ((f.name ∈ targets ∧ M.getFunction (ascii "main") = none) ↔
          (f.name ∈ targets ∧ colon ∉ f.name ∨ Prefixed targets M f.name)) := by
  obtain ⟨targets, skip⟩ := config
  cases targets with
  | none =>
    have defined : (M.functions.filter fun f => !f.declaration) = [] ↔ ∀ f ∈ M.functions, f.declaration = true := by
      simp [List.filter_eq_nil_iff]
    by_cases empty : (M.functions.filter fun f => !f.declaration) = []
    · simpa [TargetsAgree, recordedFunctions, harnessedFunctions, empty] using defined.mp empty
    · simp [TargetsAgree, recordedFunctions, empty, ← defined]
  | some targets =>
    have recorded : ∀ f, f ∈ (M.functions.filter fun f => !f.declaration).filter
          (fun f => f.name ∈ targets && !(M.getFunction (ascii "main")).isSome) ↔
        f ∈ M.functions ∧ f.declaration = false ∧ f.name ∈ targets ∧ M.getFunction (ascii "main") = none := by
      intro f
      simp only [List.mem_filter, Bool.and_eq_true, decide_eq_true_eq, Bool.not_eq_true', Option.isSome_eq_false_iff,
        Option.isNone_iff_eq_none, and_assoc]
    simp only [TargetsAgree, recordedFunctions, Option.some.injEq, exists_eq_left', recorded, mem_harnessedFunctions]
    constructor
    · intro agree
      refine ⟨nofun, ?_⟩
      rintro _ ⟨⟩ f inside defined
      simpa [inside, defined] using agree f
    · rintro ⟨-, agree⟩ f
      constructor
      · rintro ⟨inside, defined, named⟩
        exact ⟨inside, defined, (agree targets rfl f inside defined).mp named⟩
      · rintro ⟨inside, defined, named⟩
        exact ⟨inside, defined, (agree targets rfl f inside defined).mpr named⟩

/-- Testamp's pass knows plain names only, and nothing in a module with `main`: the passes
agree exactly if every target of the module is listed under its plain name. Without `main`, and
without colons in the names of functions, those listed with the module must be listed without it
as well. -/
theorem targets_agree_iff (config : Config) (M : Module τ) :
    (TargetsAgree config M ↔
      (config.targets = none → ∀ f ∈ M.functions, f.declaration = true) ∧
      ∀ targets ∈ config.targets, ∀ f ∈ M.functions, f.declaration = false →
        ((f.name ∈ targets ∧ M.getFunction (ascii "main") = none) ↔
          (f.name ∈ targets ∧ colon ∉ f.name ∨ Prefixed targets M f.name))) ∧
    ∀ targets, config.targets = some targets → M.getFunction (ascii "main") = none →
      (∀ f ∈ M.functions, f.declaration = false → colon ∉ f.name) →
      (TargetsAgree config M ↔
        ∀ f ∈ M.functions, f.declaration = false → Prefixed targets M f.name → f.name ∈ targets) := by
  refine ⟨targetsAgree_iff, fun targets listed noMain plain => ?_⟩
  rw [targetsAgree_iff]
  simp only [listed, Option.mem_def, Option.some.injEq, forall_eq', reduceCtorEq, false_imp_iff, true_and, noMain,
    and_true]
  refine forall₃_congr fun f inside defined => ?_
  simp only [plain f inside defined, not_false_eq_true, and_true, iff_self_or]

/-- A target with its module is harnessed, but its entry is never recorded. -/
theorem module_target_not_recorded :
    harnessedFunctions ⟨some [ascii "lib/a.c:parse"], []⟩ (parseModule "lib/a.c" []) = [⟨ascii "parse", [], false⟩] ∧
      recordedFunctions ⟨some [ascii "lib/a.c:parse"], []⟩ (parseModule "lib/a.c" []) = some [] ∧
      ¬TargetsAgree ⟨some [ascii "lib/a.c:parse"], []⟩ (parseModule "lib/a.c" []) := by
  have harnessed : harnessedFunctions ⟨some [ascii "lib/a.c:parse"], []⟩ (parseModule "lib/a.c" []) =
      [⟨ascii "parse", [], false⟩] := by decide +kernel
  have recorded : recordedFunctions ⟨some [ascii "lib/a.c:parse"], []⟩ (parseModule "lib/a.c" []) = some [] := by
    decide +kernel
  refine ⟨harnessed, recorded, ?_⟩
  rintro ⟨_, is, same⟩
  rw [recorded] at is
  obtain rfl := Option.some.inj is
  have missing := (same ⟨ascii "parse", [], false⟩).mpr (by simp [harnessed])
  cases missing

end AflLive.Instrumentation
