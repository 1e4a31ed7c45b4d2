import AflLive.Instrumentation.Pass
import AflLive.Library.UseList

/-! What `harnessFunction` does to the body of a function. Each passed argument is spilled to a
slot, the slots go to `gen_values`, and the uses of the argument shall become uses of the value
loaded back. The loop that rewrites them goes along the list of uses while it changes it. -/
namespace AflLive.Instrumentation
open UseList

inductive Value where
  | arg (i : Nat)
  | inst (id : Nat)
  /-- Constants, globals, blocks. -/
  | other (n : Nat)
  | slot (i : Nat)
  | loaded (i : Nat)
  | targetName
  | castedName
  | genValues
  | ahEpilogue
deriving DecidableEq

inductive User where
  | body (id : Nat)
  | store (i : Nat)
  | cast
  | call
  | load (i : Nat)
  | epilogue (id : Nat)
deriving DecidableEq

/-- A value of the function before it is harnessed. -/
def Value.Original : Value → Prop
  | .arg _ | .inst _ | .other _ => True
  | _ => False

/-- A function body: the operands of the instructions, in any control flow, and the lists of
uses in the order in which they have come about. -/
structure Body (τ : Type) where
  args : List (Argument τ)
  instructions : List (List Value)
  isReturn : Nat → Bool
  uses : Value → List (Use User)
  original : ∀ ops ∈ instructions, ∀ v ∈ ops, v.Original
  distinct : ∀ v, (uses v).Nodup
  listed : ∀ v u, u ∈ uses v ↔ ∃ id, u.user = .body id ∧ (instructions.getD id [])[u.index]? = some v

section
variable {τ : Type} (f : Body τ) (skipParams : List Nat)

def Body.operands (id : Nat) : List Value := f.instructions.getD id []

def Body.chains : Chains Value User where
  operands
    | .body id => f.operands id
    | _ => []
  uses := f.uses

/-- The positions of the arguments that get a slot. -/
def Body.fuzzed : List Nat := (passedArguments f.args skipParams).map Prod.fst

/-- The store of an argument to its slot. -/
def spill (g : Chains Value User) (i : Nat) : Chains Value User := g.addUser (.store i) [.arg i, .slot i]

def Body.prologue : Chains Value User :=
  let g := (f.fuzzed skipParams).foldl spill f.chains
  let g := g.addUser .cast [.targetName]
  g.addUser .call (.castedName :: (f.fuzzed skipParams).map .slot ++ [.genValues])

/-- The load from a slot, and the loop over the users of the argument. -/
def reload (fuel : Nat) (g : Chains Value User) (i : Nat) : Option (Chains Value User) :=
  let g := g.addUser (.load i) [.slot i]
  Chains.replaceUsers (.arg i) (.loaded i) (.store i) fuel g (g.uses (.arg i)).head?

/-- The calls of `__ah_epilogue` in front of the returns. -/
def Body.epilogues (g : Chains Value User) : Chains Value User :=
  ((List.range f.instructions.length).filter f.isReturn).foldl
    (fun g id => g.addUser (.epilogue id) [.castedName, .ahEpilogue]) g

def Body.harnessFunction (fuel : Nat) : Option (Chains Value User) := do
  let g ← (f.fuzzed skipParams).foldlM (reload fuel) (f.prologue skipParams)
  return f.epilogues g

end

/-! ### What a body computes -/

inductive Step (V M : Type) where
  | next (result : V) (m : M) (pc : Nat)
  | ret (value : V) (m : M)

/-- The meaning of the instructions: from the values of its operands and the memory one has a
result and goes on to another, or returns. -/
structure Machine (V M : Type) where
  other : Value → V
  exec : Nat → List V → M → Step V M

namespace Machine
variable {V M : Type} (mach : Machine V M)

def value (args loaded env : Nat → V) : Value → V
  | .arg i => args i
  | .inst id => env id
  | .loaded i => loaded i
  | v => mach.other v

/-- At most `fuel` instructions of a body, from one of them on. -/
def run (operands : Nat → List Value) (args loaded : Nat → V) : Nat → Nat → (Nat → V) → M → Option (V × M)
  | 0, _, _, _ => none
  | fuel + 1, pc, env, m =>
    match mach.exec pc ((operands pc).map (mach.value args loaded env)) m with
    | .next result m pc' => run operands args loaded fuel pc' (Function.update env pc result) m
    | .ret value m => some (value, m)

def call {τ : Type} (f : Body τ) (args : Nat → V) (fuel : Nat) (env : Nat → V) (m : M) : Option (V × M) :=
  mach.run f.operands args args fuel 0 env m

/-- A call of the harnessed function: `gen_values` may change the memory and the slots, which hold
the arguments; the body sees what is loaded back. -/
def callHarnessed (g : Chains Value User) (genValues : M → (Nat → V) → M × (Nat → V)) (epilogue : M → M)
    (args : Nat → V) (fuel : Nat) (env : Nat → V) (m : M) : Option (V × M) :=
  let (m, slots) := genValues m args
  (mach.run (fun id => g.operands (.body id)) args slots fuel 0 env m).map fun (value, m) => (value, epilogue m)

end Machine

/-! ### The prologue -/

section
variable {τ : Type} {f : Body τ} {skipParams done : List Nat} {g g' : Chains Value User}

theorem Body.original_of_mem (f : Body τ) {id : Nat} (inside : v ∈ f.operands id) : v.Original := by
  rw [operands, List.getD_eq_getElem?_getD] at inside
  cases found : f.instructions[id]? with
  | none => simp [found] at inside
  | some ops =>
    rw [found, Option.getD_some] at inside
    exact f.original ops (List.mem_of_getElem? found) v inside

theorem Body.uses_loaded (f : Body τ) (i : Nat) : f.uses (.loaded i) = [] := by
  rw [List.eq_nil_iff_forall_not_mem]
  intro u inside
  obtain ⟨id, -, is⟩ := (f.listed _ u).mp inside
  exact f.original_of_mem (List.mem_of_getElem? is)

/-- The chains while the arguments are spilled. -/
structure Spilled (f : Body τ) (done : List Nat) (g : Chains Value User) : Prop where
  body : ∀ id, g.operands (.body id) = f.operands id
  stores : ∀ j, g.operands (.store j) = if j ∈ done then [.arg j, .slot j] else []
  uses : ∀ j, g.uses (.arg j) = (if j ∈ done then [⟨.store j, 0⟩] else []) ++ f.uses (.arg j)
  loaded : ∀ j, g.uses (.loaded j) = []
  rest : ∀ user, (∀ id, user ≠ .body id) → (∀ j, user ≠ .store j) → ∀ i, .arg i ∉ g.operands user

theorem Spilled.spill (before : Spilled f done g) (fresh : i ∉ done) : Spilled f (done ++ [i]) (spill g i) := by
  constructor
  · intro id
    rw [Instrumentation.spill, Chains.addUser_operands_of_ne (by simp), before.body]
  · intro j
    by_cases own : j = i
    · subst own
      simp [Instrumentation.spill]
    · rw [Instrumentation.spill, Chains.addUser_operands_of_ne (by simp [own]), before.stores]
      simp [own]
  · intro j
    by_cases own : j = i
    · subst own
      simp [Instrumentation.spill, Chains.addUser_uses, before.uses, fresh]
    · rw [Instrumentation.spill, Chains.addUser_uses_of_notMem (by simp [own]), before.uses]
      simp [own]
  · intro j
    rw [Instrumentation.spill, Chains.addUser_uses_of_notMem (by simp), before.loaded]
  · intro user notBody notStore
    rw [Instrumentation.spill, Chains.addUser_operands_of_ne (notStore i)]
    exact before.rest user notBody notStore

theorem Spilled.addUser (before : Spilled f done g) (notBody : ∀ id, user ≠ .body id) (notStore : ∀ j, user ≠ .store j)
    (noArg : ∀ i, .arg i ∉ vs) (noLoaded : ∀ i, .loaded i ∉ vs) : Spilled f done (g.addUser user vs) := by
  constructor
  · intro id
    rw [Chains.addUser_operands_of_ne (notBody id).symm, before.body]
  · intro j
    rw [Chains.addUser_operands_of_ne (notStore j).symm, before.stores]
  · intro j
    rw [Chains.addUser_uses_of_notMem (noArg j), before.uses]
  · intro j
    rw [Chains.addUser_uses_of_notMem (noLoaded j), before.loaded]
  · intro other notBody' notStore' i
    exact Chains.notMem_addUser_operands (noArg i) (before.rest other notBody' notStore' i)

theorem fuzzed_nodup (f : Body τ) (skipParams : List Nat) : (f.fuzzed skipParams).Nodup := by
  simp only [Body.fuzzed, passedArguments, List.map_map]
  exact (List.nodup_zipIdx_map_snd f.args).sublist (List.filter_sublist.map Prod.snd)

theorem prologue_spilled (f : Body τ) (skipParams : List Nat) :
    Spilled f (f.fuzzed skipParams) (f.prologue skipParams) := by
  have start : Spilled f [] f.chains :=
    ⟨fun _ => rfl, fun _ => rfl, fun _ => by simp [Body.chains], f.uses_loaded, fun user notBody _ i => by
      cases user with
      | body id => exact absurd rfl (notBody id)
      | _ => simp [Body.chains]⟩
  have run : ∀ (rest done : List Nat) g, (done ++ rest).Nodup → Spilled f done g →
      Spilled f (done ++ rest) (rest.foldl spill g) := by
    intro rest
    induction rest with
    | nil => simp
    | cons i rest ih =>
      intro done g distinct before
      have fresh : i ∉ done := fun inside => (List.nodup_append.mp distinct).2.2 i inside i (by simp) rfl
      have parts : done ++ i :: rest = done ++ [i] ++ rest := by simp
      rw [parts] at distinct ⊢
      exact ih _ _ distinct (before.spill fresh)
  have spilled := run (f.fuzzed skipParams) [] f.chains (by simpa using fuzzed_nodup f skipParams) start
  rw [List.nil_append] at spilled
  refine (spilled.addUser (by simp) (by simp) (by simp) (by simp)).addUser (by simp) (by simp) ?_ ?_
  · simp
  · simp

/-! ### The reloads -/

/-- What an operand has become once some arguments are reloaded: only the first user on the list
of an argument has the loaded value. -/
def Body.reloaded (f : Body τ) (done : List Nat) (id : Nat) : Value → Value
  | .arg j => if j ∈ done ∧ (f.uses (.arg j)).head?.map Use.user = some (.body id) then .loaded j else .arg j
  | v => v

structure Reloading (f : Body τ) (skipParams done : List Nat) (g : Chains Value User) : Prop where
  body : ∀ id, g.operands (.body id) = (f.operands id).map (f.reloaded done id)
  stores : ∀ j ∈ f.fuzzed skipParams, g.operands (.store j) = [.arg j, .slot j]
  waiting : ∀ j ∈ f.fuzzed skipParams, j ∉ done →
    g.uses (.arg j) = ⟨.store j, 0⟩ :: f.uses (.arg j) ∧ g.uses (.loaded j) = []
  rest : ∀ user, (∀ id, user ≠ .body id) → (∀ j ∈ f.fuzzed skipParams, user ≠ .store j) → ∀ i, .arg i ∉ g.operands user

theorem reloaded_nil (f : Body τ) (id : Nat) (v : Value) : f.reloaded [] id v = v := by
  cases v <;> simp [Body.reloaded]

theorem prologue_reloading (f : Body τ) (skipParams : List Nat) :
    Reloading f skipParams [] (f.prologue skipParams) := by
  obtain ⟨body, stores, uses, loaded, rest⟩ := prologue_spilled f skipParams
  refine ⟨fun id => ?_, fun j inside => ?_, fun j inside _ => ⟨?_, loaded j⟩, fun user notBody notStore i => ?_⟩
  · rw [body, List.map_congr_left fun v _ => reloaded_nil f id v, List.map_id']
  · rw [stores, if_pos inside]
  · rw [uses, if_pos inside, List.singleton_append]
  · by_cases isStore : ∃ j, user = .store j
    · obtain ⟨j, rfl⟩ := isStore
      have absent : j ∉ f.fuzzed skipParams := fun inside => notStore j inside rfl
      simp [stores, absent]
    · push Not at isStore
      exact rest user notBody isStore i

/-- The instruction with the most operands does not have more than this. -/
def Body.size (f : Body τ) : Nat := (f.instructions.map List.length).sum

theorem length_operands_le (f : Body τ) (id : Nat) : (f.operands id).length ≤ f.size := by
  unfold Body.operands
  rw [List.getD_eq_getElem?_getD]
  cases found : f.instructions[id]? with
  | none => simp
  | some ops => exact List.single_le_sum (by simp) _ (List.mem_map_of_mem (List.mem_of_getElem? found))

theorem reloaded_cons_of_ne {id : Nat} (ne : v ≠ .arg i) : f.reloaded (i :: done) id v = f.reloaded done id v := by
  cases v with
  | arg j =>
    have other : j ≠ i := fun same => ne (same ▸ rfl)
    simp [Body.reloaded, other]
  | _ => rfl

theorem reloaded_ne_arg {id : Nat} (ne : v ≠ .arg i) : f.reloaded done id v ≠ .arg i := by
  cases v with
  | arg j =>
    simp only [Body.reloaded]
    split
    · simp
    · exact ne
  | _ => simp [Body.reloaded]

theorem Reloading.addUser (before : Reloading f skipParams done g) (notBody : ∀ id, user ≠ .body id)
    (notStore : ∀ j ∈ f.fuzzed skipParams, user ≠ .store j) (noArg : ∀ i, .arg i ∉ vs)
    (noLoaded : ∀ i, .loaded i ∉ vs) :
    Reloading f skipParams done (g.addUser user vs) := by
  constructor
  · intro id
    rw [Chains.addUser_operands_of_ne (notBody id).symm, before.body]
  · intro j inside
    rw [Chains.addUser_operands_of_ne (notStore j inside).symm, before.stores j inside]
  · intro j inside later
    rw [Chains.addUser_uses_of_notMem (noArg j), Chains.addUser_uses_of_notMem (noLoaded j)]
    exact before.waiting j inside later
  · intro other notBody' notStore' i
    exact Chains.notMem_addUser_operands (noArg i) (before.rest other notBody' notStore' i)

/-- One turn of the loop over the arguments: the operands of the first user are replaced. -/
theorem Reloading.replaceFirst (before : Reloading f skipParams done g) (i : Nat) :
    Reloading f skipParams (i :: done) (g.replaceFirst (.arg i) (.loaded i) (f.uses (.arg i))) := by
  cases list : f.uses (.arg i) with
  | nil =>
    refine ⟨fun id => ?_, before.stores, fun j member later => ?_, before.rest⟩
    · rw [Chains.replaceFirst, before.body]
      refine List.map_congr_left fun v _ => ?_
      by_cases own : v = .arg i
      · simp [own, Body.reloaded, list]
      · rw [reloaded_cons_of_ne own]
    · exact before.waiting j member fun earlier => later (List.mem_cons_of_mem _ earlier)
  | cons u us =>
    obtain ⟨first, isBody, -⟩ := (f.listed (.arg i) u).mp (list ▸ List.mem_cons_self ..)
    have ne : Value.arg i ≠ .loaded i := by simp
    obtain ⟨own, operands, -, uses⟩ := Chains.replaceOperands_spec ne g u.user
    rw [List.take_length, List.drop_length, List.append_nil] at own
    have head : (f.uses (.arg i)).head?.map Use.user = some (.body first) := by simp [list, isBody]
    rw [Chains.replaceFirst]
    refine ⟨fun id => ?_, fun j member => ?_, fun j member later => ?_, fun user notBody notStore k => ?_⟩
    · by_cases same : id = first
      · subst same
        rw [← isBody, own, isBody, before.body, List.map_map]
        refine List.map_congr_left fun v _ => ?_
        by_cases mine : v = .arg i
        · by_cases earlier : i ∈ done <;> simp [mine, Body.reloaded, head, Chains.swap, earlier]
        · rw [reloaded_cons_of_ne mine, Function.comp_apply, Chains.swap, if_neg (reloaded_ne_arg mine)]
      · rw [operands _ (by simp [isBody, same]), before.body]
        refine List.map_congr_left fun v _ => ?_
        by_cases mine : v = .arg i
        · have other : some (User.body first) ≠ some (.body id) := by simp [Ne.symm same]
          simp only [mine, Body.reloaded, head, other, and_false]
        · rw [reloaded_cons_of_ne mine]
    · rw [operands _ (by simp [isBody]), before.stores j member]
    · have other : j ≠ i := fun same => later (by simp [same])
      rw [uses _ (by simp [other]) (by simp), uses _ (by simp) (by simp [other])]
      exact before.waiting j member fun earlier => later (List.mem_cons_of_mem _ earlier)
    · rw [operands _ (by rw [isBody]; exact notBody first)]
      exact before.rest user notBody notStore k

theorem Reloading.reload (before : Reloading f skipParams done g) (inside : i ∈ f.fuzzed skipParams) (fresh : i ∉ done)
    (enough : f.size + 1 < fuel) :
    ∃ g', reload fuel g i = some g' ∧ Reloading f skipParams (i :: done) g' := by
  have loaded : Reloading f skipParams done (g.addUser (.load i) [.slot i]) :=
    before.addUser (by simp) (by simp) (by simp) (by simp)
  obtain ⟨list, empty⟩ := loaded.waiting i inside fresh
  refine ⟨_, Chains.replaceUsers_first (by simp) list ?_ ?_ ?_ empty ?_ (by omega), loaded.replaceFirst i⟩
  · simp [Chains.operand, loaded.stores i inside]
  · intro u member
    obtain ⟨id, isBody, -⟩ := (f.listed _ u).mp member
    simp [isBody]
  · intro u member
    obtain ⟨id, isBody, is⟩ := (f.listed _ u).mp member
    have here : (f.operands id)[u.index]? = some (.arg i) := is
    rw [Chains.operand, isBody, loaded.body, List.getElem?_map, here]
    simp [Body.reloaded, fresh]
  · intro u member
    obtain ⟨id, isBody, -⟩ := (f.listed _ u).mp member
    have size := length_operands_le f id
    rw [isBody, loaded.body, List.length_map]
    omega

/-- With enough fuel the function is harnessed, and each argument is reloaded for its first user. -/
theorem harnessFunction_some (f : Body τ) (skipParams : List Nat) (enough : f.size + 1 < fuel) :
    ∃ g, f.harnessFunction skipParams fuel = some g ∧ Reloading f skipParams (f.fuzzed skipParams).reverse g := by
  have run : ∀ (rest done : List Nat) g, (∀ i ∈ rest, i ∈ f.fuzzed skipParams) → (rest.reverse ++ done).Nodup →
      Reloading f skipParams done g → ∃ g', rest.foldlM (Instrumentation.reload fuel) g = some g' ∧
        Reloading f skipParams (rest.reverse ++ done) g' := by
    intro rest
    induction rest with
    | nil => exact fun done g _ _ before => ⟨g, rfl, before⟩
    | cons i rest ih =>
      intro done g inside distinct before
      have parts : (i :: rest).reverse ++ done = rest.reverse ++ i :: done := by simp
      rw [parts] at distinct ⊢
      have fresh : i ∉ done := (List.nodup_cons.mp (List.nodup_append.mp distinct).2.1).1
      obtain ⟨g₁, first, after⟩ := before.reload (inside i (by simp)) fresh enough
      obtain ⟨g₂, others, final⟩ := ih _ _ (fun j member => inside j (by simp [member])) distinct after
      refine ⟨g₂, ?_, final⟩
      rw [List.foldlM_cons, first]
      exact others
  have distinct : ((f.fuzzed skipParams).reverse ++ []).Nodup := by simpa using fuzzed_nodup f skipParams
  obtain ⟨g, ran, reloading⟩ := run _ [] _ (fun _ inside => inside) distinct (prologue_reloading f skipParams)
  rw [List.append_nil] at reloading
  refine ⟨f.epilogues g, by simp [Body.harnessFunction, ran], ?_⟩
  have calls : ∀ (ids : List Nat) g, Reloading f skipParams (f.fuzzed skipParams).reverse g →
      Reloading f skipParams (f.fuzzed skipParams).reverse
        (ids.foldl (fun g id => g.addUser (.epilogue id) [.castedName, .ahEpilogue]) g) := by
    intro ids
    induction ids with
    | nil => exact fun _ before => before
    | cons id ids ih =>
      intro g before
      exact ih _ (before.addUser (by simp) (by simp) (by simp) (by simp))
  exact calls _ g reloading

end

/-! ### The result -/

section
variable {τ : Type} (f : Body τ) (skipParams : List Nat)

/-- Only the spill store still refers to a passed argument; each former use refers to the value
loaded back. -/
structure Replaces (g : Chains Value User) : Prop where
  only : ∀ i ∈ f.fuzzed skipParams, ∀ u, g.operand u = some (.arg i) → u.user = .store i
  loaded : ∀ i ∈ f.fuzzed skipParams, ∀ id k, (f.operands id)[k]? = some (.arg i) →
    g.operand ⟨.body id, k⟩ = some (.loaded i)

/-- If `gen_values` leaves the slots as they are, the function computes what it did before. -/
def Transparent (g : Chains Value User) : Prop :=
  ∀ (V M : Type) (mach : Machine V M) (genValues : M → (Nat → V) → M × (Nat → V)) (epilogue : M → M) (args : Nat → V)
    (fuel : Nat) (env : Nat → V) (m : M),
    (∀ i ∈ f.fuzzed skipParams, (genValues m args).2 i = args i) →
      mach.callHarnessed g genValues epilogue args fuel env m =
        (mach.call f args fuel env (genValues m args).1).map fun (value, m) => (value, epilogue m)

end

theorem run_reloading {τ : Type} {f : Body τ} {skipParams done : List Nat} {g : Chains Value User} {V M : Type}
    (reloading : Reloading f skipParams done g) (mach : Machine V M) (args slots : Nat → V)
    (same : ∀ i ∈ done, slots i = args i) (fuel pc : Nat) (env : Nat → V) (m : M) :
    mach.run (fun id => g.operands (.body id)) args slots fuel pc env m =
      mach.run f.operands args args fuel pc env m := by
  induction fuel generalizing pc env m with
  | zero => rfl
  | succ fuel ih =>
    have values : (g.operands (.body pc)).map (mach.value args slots env) =
        (f.operands pc).map (mach.value args args env) := by
      rw [reloading.body, List.map_map]
      refine List.map_congr_left fun v inside => ?_
      have original := f.original_of_mem inside
      cases v with
      | arg j =>
        simp only [Function.comp_apply, Body.reloaded]
        split
        · next moved => exact same j moved.1
        · rfl
      | loaded _ => exact absurd original id
      | _ => rfl
    simp only [Machine.run, values]
    split
    · exact ih ..
    · rfl

theorem transparent_of_reloading {τ : Type} {f : Body τ} {skipParams : List Nat} {g : Chains Value User}
    (reloading : Reloading f skipParams (f.fuzzed skipParams).reverse g) : Transparent f skipParams g := by
  intro V M mach genValues epilogue args fuel env m unchanged
  have same : ∀ i ∈ (f.fuzzed skipParams).reverse, (genValues m args).2 i = args i :=
    fun i inside => unchanged i (List.mem_reverse.mp inside)
  simp only [Machine.callHarnessed, run_reloading reloading mach args _ same]
  rfl

/-- The harness ends, has replaced every use of the passed arguments and computes the same with
unchanged slots, exactly if no passed argument has two users. -/
theorem harnessFunction_replaces_iff {τ : Type} (f : Body τ) (skipParams : List Nat) :
    (∀ fuel, f.size + 1 < fuel → ∃ g, f.harnessFunction skipParams fuel = some g ∧
      Replaces f skipParams g ∧ Transparent f skipParams g) ↔
    ∀ i ∈ f.fuzzed skipParams, ∀ u ∈ f.uses (.arg i), ∀ v ∈ f.uses (.arg i), u.user = v.user := by
  constructor
  · intro replaced i inside
    obtain ⟨g, harnessed, replaces, -⟩ := replaced (f.size + 2) (by omega)
    obtain ⟨g', harnessed', reloading⟩ := harnessFunction_some f skipParams (Nat.lt_succ_self (f.size + 1))
    obtain rfl := Option.some.inj (harnessed.symm.trans harnessed')
    -- A use that was replaced belongs to the first user.
    have first : ∀ u ∈ f.uses (.arg i), (f.uses (.arg i)).head?.map Use.user = some u.user := by
      intro u member
      obtain ⟨id, isBody, is⟩ := (f.listed _ u).mp member
      have here : (f.operands id)[u.index]? = some (.arg i) := is
      have becomes := replaces.loaded i inside id u.index here
      rw [Chains.operand, reloading.body, List.getElem?_map, here] at becomes
      simp only [Option.map_some, Option.some.injEq, Body.reloaded] at becomes
      split at becomes
      · next moved => rw [moved.2, isBody]
      · cases becomes
    intro u member v member'
    exact Option.some.inj ((first u member).symm.trans (first v member'))
  · intro single fuel enough
    obtain ⟨g, harnessed, reloading⟩ := harnessFunction_some f skipParams enough
    refine ⟨g, harnessed, ?_, transparent_of_reloading reloading⟩
    have moves : ∀ i ∈ f.fuzzed skipParams, ∀ id k : Nat, (f.operands id)[k]? = some (.arg i) →
        f.reloaded (f.fuzzed skipParams).reverse id (.arg i) = .loaded i := by
      intro i inside id k is
      have member : (⟨.body id, k⟩ : Use User) ∈ f.uses (.arg i) := (f.listed _ _).mpr ⟨id, rfl, is⟩
      cases list : f.uses (.arg i) with
      | nil => simp [list] at member
      | cons u us =>
        have user := single i inside u (by simp [list]) _ member
        simp [Body.reloaded, inside, list, user]
    constructor
    · intro i inside u is
      by_contra notStore
      rcases u with ⟨user, k⟩
      cases user with
      | body id =>
        rw [Chains.operand, reloading.body, List.getElem?_map] at is
        obtain ⟨v, here, becomes⟩ := Option.map_eq_some_iff.mp is
        by_cases mine : v = .arg i
        · subst mine
          rw [moves i inside id k here] at becomes
          cases becomes
        · exact reloaded_ne_arg mine becomes
      | store j =>
        have member := List.mem_of_getElem? is
        by_cases stored : j ∈ f.fuzzed skipParams
        · simp only [reloading.stores j stored, List.mem_cons, Value.arg.injEq, reduceCtorEq, List.not_mem_nil,
            or_false] at member
          exact notStore (by rw [member])
        · refine reloading.rest (.store j) (by simp) (fun k inside' same => stored ?_) i member
          rw [User.store.inj same]
          exact inside'
      | _ => exact reloading.rest _ (by simp) (by simp) i (List.mem_of_getElem? is)
    · intro i inside id k here
      rw [Chains.operand, reloading.body, List.getElem?_map, here, Option.map_some, moves i inside id k here]

/-! ### A missed use -/

/-- The uses of a value by some instructions, in the order of a front end that adds one after the
other. -/
def usesOf (instructions : List (List Value)) (v : Value) : List (Use User) :=
  (instructions.zipIdx.flatMap fun ops =>
    (ops.1.zipIdx.filter fun operand => operand.1 = v).map fun operand => ⟨.body ops.2, operand.2⟩).reverse

theorem nodup_usesOf (instructions : List (List Value)) (v : Value) : (usesOf instructions v).Nodup := by
  have places : ∀ ops : List Value × Nat, ((ops.1.zipIdx.filter fun operand => operand.1 = v).map fun operand =>
      (⟨.body ops.2, operand.2⟩ : Use User)).Nodup := by
    intro ops
    have kept := (List.nodup_zipIdx_map_snd ops.1).sublist
      ((List.filter_sublist (p := fun operand => operand.1 = v)).map Prod.snd)
    have made := kept.map (f := Use.mk (User.body ops.2)) fun a b same => (Use.mk.inj same).2
    rwa [List.map_map] at made
  rw [usesOf, List.nodup_reverse, List.nodup_flatMap]
  refine ⟨fun ops _ => places ops, ?_⟩
  refine (List.pairwise_map.mp (List.nodup_zipIdx_map_snd instructions)).imp fun different => ?_
  rw [Function.onFun, List.disjoint_left]
  rintro u first second
  obtain ⟨_, -, rfl⟩ := List.mem_map.mp first
  obtain ⟨_, -, same⟩ := List.mem_map.mp second
  simp only [Use.mk.injEq, User.body.injEq] at same
  exact different same.1.symm

theorem mem_usesOf : u ∈ usesOf instructions v ↔
    ∃ id, u.user = .body id ∧ (instructions.getD id [])[u.index]? = some v := by
  simp only [usesOf, List.mem_reverse, List.mem_flatMap, List.mem_map, List.mem_filter, Prod.exists,
    List.mk_mem_zipIdx_iff_getElem?, decide_eq_true_eq]
  constructor
  · rintro ⟨ops, id, is, w, k, ⟨at', rfl⟩, rfl⟩
    exact ⟨id, rfl, by simpa [List.getD_eq_getElem?_getD, is] using at'⟩
  · rintro ⟨id, isBody, is⟩
    rw [List.getD_eq_getElem?_getD] at is
    cases found : instructions[id]? with
    | none => simp [found] at is
    | some ops =>
      rw [found, Option.getD_some] at is
      exact ⟨ops, id, found, v, u.index, ⟨is, rfl⟩, by rw [← isBody]⟩

def Body.ofInstructions {τ : Type} (args : List (Argument τ)) (instructions : List (List Value)) (isReturn : Nat → Bool)
    (original : ∀ ops ∈ instructions, ∀ v ∈ ops, v.Original) : Body τ where
  args := args
  instructions := instructions
  isReturn := isReturn
  uses := usesOf instructions
  original := original
  distinct := nodup_usesOf instructions
  listed _ _ := mem_usesOf

/-- `%1 = add %a, 1; %2 = mul %a, %1; ret %2` -/
def addAndMultiply : Body Nat :=
  .ofInstructions [⟨32, false⟩] [[.arg 0, .other 1], [.arg 0, .inst 0], [.inst 1]] (· == 2)
    (by simp [Value.Original])

/-- The multiplication, which was added last, gets the loaded value; the addition still has the
argument. -/
theorem addAndMultiply_keeps_argument :
    (addAndMultiply.harnessFunction [] 10).map (fun g => (g.operands (.body 0), g.operands (.body 1))) =
      some ([.arg 0, .other 1], [.loaded 0, .inst 0]) := by
  decide +kernel

end AflLive.Instrumentation
