import AflLive.Libgen.GenValues

/-! The loop over the user's constraints tags the addresses of the arguments in place, and takes
the right-hand sides of other constraints from the same vector. So what an entry means depends on
the entries before it. -/
namespace AflLive.Libgen
open Bytes Control

namespace UserConstraint

/-- The argument whose slot address an entry takes: as a right-hand side, or to record its
value. -/
def source (c : UserConstraint) : Option Nat :=
  if c.isFile then none
  else
    match c.rhs with
    | .arg index => some index
    | .recorded => some c.lhs
    | .constant _ => none

/-- The bit an entry sets in the address of its argument. -/
def tag (c : UserConstraint) : Nat :=
  if c.isFile then 0x8000000000000000 else if c.deref then 1 else 0

/-- An `eq`, `le` or `ge` constraint of an argument without an attribute. -/
def plainOf (arg : Nat) (c : UserConstraint) : Bool := c.lhs == arg && !c.isFile && !c.deref

/-- The second entry takes the address the first one tags. -/
def Clashes (a b : UserConstraint) : Prop := a.tag ≠ 0 ∧ b.source = some a.lhs

end UserConstraint

/-- `addConstraint` with right-hand sides taken from addresses that are never tagged. -/
def addConstraintUntagged (types : List Ty) (slots : List Nat) (h : Heap) (s : Setup) (c : UserConstraint) :
    Except Fault Setup := do
  let adr ← getAt s.addressOfArg c.lhs
  if c.isFile then
    return { s with addressOfArg := s.addressOfArg.set c.lhs (adr ||| 0x8000000000000000) }
  else
    let (rhs, edge) ← makeRhs types slots h c
    let cs ← getAt s.constraintsOfArg c.lhs
    return {
      addressOfArg := if c.deref then s.addressOfArg.set c.lhs (adr ||| 1) else s.addressOfArg
      constraintsOfArg := s.constraintsOfArg.set c.lhs (cs ++ [⟨c.rel, rhs, c.signed⟩])
      edges := s.edges ++ edge }

/-- The set-up as it should be: each entry reads the slot of the argument it names, or records
the value there, whatever stands before it. -/
def setupUntagged (types : List Ty) (slots : List Nat) (ucs : List UserConstraint) (h : Heap) : Except Fault Setup :=
  if slots.length < types.length then .error .badIndex
  else ucs.foldlM (addConstraintUntagged types (slots.take types.length) h)
    ⟨slots.take types.length, List.replicate types.length [], []⟩

/-- The same entries in another order, which keeps that of the plain constraints of each
argument. -/
def Rearranged (ucs ucs' : List UserConstraint) : Prop :=
  ucs'.Perm ucs ∧ ∀ arg, ucs'.filter (UserConstraint.plainOf arg) = ucs.filter (UserConstraint.plainOf arg)

section
variable {types : List Ty} {slots : List Nat} {ucs rest : List UserConstraint} {h : Heap} {s t : Setup}
  {a b c : UserConstraint}

/-- A right-hand side depends on the address of its source only. -/
theorem makeRhs_congr {left right : List Nat} (plain : c.isFile = false)
    (same : ∀ j, c.source = some j → left[j]? = right[j]?) : makeRhs types left h c = makeRhs types right h c := by
  unfold UserConstraint.source at same
  unfold makeRhs
  cases rhs : c.rhs with
  | arg index =>
    have here := same index (by simp [plain, rhs])
    simp only [getAt, here]
  | recorded =>
    have here := same c.lhs (by simp [plain, rhs])
    simp only [getAt, here]
  | constant n => rfl

/-- The addresses after an entry. -/
theorem addConstraint_addresses (added : addConstraint types h s c = .ok t) :
    ∃ adr, s.addressOfArg[c.lhs]? = some adr ∧ t.addressOfArg = s.addressOfArg.set c.lhs (adr ||| c.tag) := by
  unfold addConstraint at added
  obtain ⟨adr, found, rest⟩ := bind_eq_ok.mp added
  have here := getAt_eq_ok.mp found
  refine ⟨adr, here, ?_⟩
  unfold UserConstraint.tag
  split at rest
  · rename_i file
    cases rest
    simp [file]
  · rename_i plain
    obtain ⟨⟨rhs, edge⟩, _, rest⟩ := bind_eq_ok.mp rest
    obtain ⟨cs, _, rest⟩ := bind_eq_ok.mp rest
    cases rest
    cases deref : c.deref with
    | true => simp [plain]
    | false =>
      obtain ⟨within, value⟩ := List.getElem?_eq_some_iff.mp here
      simp [plain, ← value]

theorem addConstraint_untagged (same : ∀ j, c.source = some j → s.addressOfArg[j]? = slots[j]?) :
    addConstraint types h s c = addConstraintUntagged types slots h s c := by
  unfold addConstraint addConstraintUntagged
  cases file : c.isFile with
  | true => rfl
  | false => rw [makeRhs_congr file same]

/-- Without clashes every entry finds the addresses it takes as they were. -/
theorem foldlM_untagged (apart : ucs.Pairwise fun a b => ¬a.Clashes b)
    (same : ∀ c ∈ ucs, ∀ j, c.source = some j → s.addressOfArg[j]? = slots[j]?) :
    ucs.foldlM (addConstraint types h) s = ucs.foldlM (addConstraintUntagged types slots h) s := by
  induction ucs generalizing s with
  | nil => rfl
  | cons c rest ih =>
    obtain ⟨first, later⟩ := List.pairwise_cons.mp apart
    rw [List.foldlM_cons, List.foldlM_cons, ← addConstraint_untagged (same c (List.mem_cons_self ..))]
    cases added : addConstraint types h s c with
    | error e => rfl
    | ok t =>
      refine ih later fun d member j taken => ?_
      obtain ⟨adr, found, addresses⟩ := addConstraint_addresses added
      rw [addresses, ← same d (List.mem_cons_of_mem _ member) j taken]
      by_cases here : c.lhs = j
      · subst here
        have untouched : c.tag = 0 := by
          by_contra tagged
          exact first d member ⟨tagged, taken⟩
        obtain ⟨within, value⟩ := List.getElem?_eq_some_iff.mp found
        simp [untouched, ← value]
      · exact List.getElem?_set_ne here

/-! ### A clash shows

Arguments of one byte each, all in the same slot, in a memory whose bytes tell a tagged address
from a plain one. -/

/-- One of the two tags is set. -/
def Marked (addr : Nat) : Prop := addr % 2 = 1 ∨ 2 ^ 63 ≤ addr

instance (addr : Nat) : Decidable (Marked addr) := inferInstanceAs (Decidable (_ ∨ _))

def probeHeap : Heap := ⟨fun x => if Marked x then 1 else 0, fun _ => true, [], []⟩

def probeTypes (n : Nat) : List Ty := List.replicate n (.integer 8)

def probeSlots (n : Nat) : List Nat := List.replicate n 0x1000

/-- What an entry makes of the address of its source. -/
def probeRhs (c : UserConstraint) (addr : Nat) : Rhs :=
  match c.rhs with
  | .arg _ => .arg addr
  | .recorded => .constant (if Marked addr then 1 else 0)
  | .constant n => .constant (n % 2 ^ 64).toNat

theorem probeRhs_marked {j addr : Nat} (taken : c.source = some j) (marked : Marked addr) :
    probeRhs c addr ≠ probeRhs c 0x1000 := by
  have plain : ¬Marked 0x1000 := by decide
  unfold UserConstraint.source at taken
  unfold probeRhs
  split at taken
  · cases taken
  · cases rhs : c.rhs with
    | arg index =>
      intro same
      obtain rfl : addr = 0x1000 := Rhs.arg.inj same
      exact plain marked
    | recorded => simp [marked, plain]
    | constant n => simp [rhs] at taken

theorem Marked.tag (marked : Marked addr) (c : UserConstraint) : Marked (addr ||| c.tag) := by
  rcases marked with odd | high
  · exact .inl (Nat.or_mod_two_eq_one.mpr (.inl odd))
  · exact .inr (high.trans Nat.left_le_or)

theorem marked_tag (tagged : c.tag ≠ 0) (addr : Nat) : Marked (addr ||| c.tag) := by
  unfold UserConstraint.tag at *
  split
  · exact .inr (le_trans (by norm_num) Nat.right_le_or)
  · split
    · exact .inl (Nat.or_mod_two_eq_one.mpr (.inr rfl))
    · simp_all

/-- Every index of an entry is that of an argument. -/
def Within (n : Nat) (c : UserConstraint) : Prop := c.lhs < n ∧ ∀ j, c.source = some j → j < n

theorem exists_within (ucs : List UserConstraint) : ∃ n, ∀ c ∈ ucs, Within n c := by
  induction ucs with
  | nil => exact ⟨0, by simp⟩
  | cons c rest ih =>
    obtain ⟨n, each⟩ := ih
    refine ⟨n + c.lhs + c.source.getD 0 + 1, fun d member => ?_⟩
    rcases List.mem_cons.mp member with rfl | member
    · exact ⟨by omega, fun j taken => by rw [taken, Option.getD_some]; omega⟩
    · exact ⟨by have := (each d member).1; omega, fun j taken => by have := (each d member).2 j taken; omega⟩

theorem makeRhs_probe {n : Nat} {addresses : List Nat} (within : Within n c) (plain : c.isFile = false)
    {addr : Nat} (found : ∀ j, c.source = some j → addresses[j]? = some addr) :
    ∃ edges, makeRhs (probeTypes n) addresses probeHeap c = .ok (probeRhs c addr, edges) := by
  unfold UserConstraint.source at found
  unfold makeRhs probeRhs
  cases rhs : c.rhs with
  | arg index =>
    have here := found index (by simp [plain, rhs])
    have typed : (probeTypes n)[index]? = some (.integer 8) := by
      have inside := within.2 index (by simp [UserConstraint.source, plain, rhs])
      simp [probeTypes, inside]
    exact ⟨_, by simp only [getAt, here, typed, ok_bind]; rfl⟩
  | recorded =>
    have here := found c.lhs (by simp [plain, rhs])
    have typed : (probeTypes n)[c.lhs]? = some (.integer 8) := by simp [probeTypes, within.1]
    have loaded : probeHeap.load addr 1 = .ok [if Marked addr then 1 else 0] := by
      simp [Heap.load, Heap.readable, probeHeap, Image.peek]
    have byte : value [if Marked addr then 1 else 0] = if Marked addr then 1 else 0 := by split <;> rfl
    refine ⟨[], ?_⟩
    simp only [getAt, here, typed, ok_bind, recordConstraintValue, loaded, byte]
    rfl
  | constant n => exact ⟨_, rfl⟩

/-- The two set-ups after the same entries: the addresses agree, and so do the numbers of
constraints. -/
structure Alike (n : Nat) (s t : Setup) : Prop where
  addresses : t.addressOfArg = s.addressOfArg
  length : s.addressOfArg.length = n
  lists : ∀ arg < n, ∃ l l', s.constraintsOfArg[arg]? = some l ∧ t.constraintsOfArg[arg]? = some l' ∧
    l.length = l'.length

/-- Some argument has got different constraints. -/
def Differ (s t : Setup) : Prop :=
  ∃ (arg : Nat) (l l' : List Constraint),
    s.constraintsOfArg[arg]? = some l ∧ t.constraintsOfArg[arg]? = some l' ∧ l ≠ l'

/-- One entry: neither set-up fails, a difference stays, and one comes up where the entry takes a
marked address. -/
theorem probe_step {n : Nat} (within : Within n c) (alike : Alike n s t) :
    ∃ s' t', addConstraint (probeTypes n) probeHeap s c = .ok s' ∧
      addConstraintUntagged (probeTypes n) (probeSlots n) probeHeap t c = .ok t' ∧ Alike n s' t' ∧
      (Differ s t ∨ (∃ j addr, c.source = some j ∧ s.addressOfArg[j]? = some addr ∧ Marked addr) → Differ s' t') := by
  obtain ⟨adr, found⟩ : ∃ adr, s.addressOfArg[c.lhs]? = some adr :=
    ⟨_, List.getElem?_eq_getElem (alike.length ▸ within.1)⟩
  obtain ⟨same, length, lists⟩ := alike
  obtain ⟨sAddr, sLists, sEdges⟩ := s
  obtain ⟨tAddr, tLists, tEdges⟩ := t
  dsimp only at *
  subst tAddr
  cases file : c.isFile with
  | true =>
    refine ⟨⟨sAddr.set c.lhs (adr ||| 0x8000000000000000), sLists, sEdges⟩,
      ⟨sAddr.set c.lhs (adr ||| 0x8000000000000000), tLists, tEdges⟩, ?_, ?_, ⟨rfl, ?_, lists⟩, ?_⟩
    · simp only [addConstraint, getAt, found, file, ok_bind, if_true]
      rfl
    · simp only [addConstraintUntagged, getAt, found, file, ok_bind, if_true]
      rfl
    · simpa using length
    · rintro (differ | ⟨j, addr, taken, _⟩)
      · exact differ
      · simp [UserConstraint.source, file] at taken
  | false =>
    obtain ⟨l, l', here, here', lengths⟩ := lists c.lhs within.1
    obtain ⟨addr, source⟩ : ∃ addr, ∀ j, c.source = some j → sAddr[j]? = some addr := by
      cases taken : c.source with
      | none => exact ⟨0, by simp⟩
      | some j =>
        have inside : j < sAddr.length := length ▸ within.2 j taken
        refine ⟨sAddr[j], fun k is => ?_⟩
        cases is
        exact List.getElem?_eq_getElem inside
    have slot : ∀ j, c.source = some j → (probeSlots n)[j]? = some 0x1000 := fun j taken => by
      simp [probeSlots, within.2 j taken]
    obtain ⟨edges, made⟩ := makeRhs_probe within file source
    obtain ⟨edges', made'⟩ := makeRhs_probe within file slot
    have inside : c.lhs < sLists.length := (List.getElem?_eq_some_iff.mp here).1
    have inside' : c.lhs < tLists.length := (List.getElem?_eq_some_iff.mp here').1
    refine ⟨⟨if c.deref then sAddr.set c.lhs (adr ||| 1) else sAddr,
        sLists.set c.lhs (l ++ [⟨c.rel, probeRhs c addr, c.signed⟩]), sEdges ++ edges⟩,
      ⟨if c.deref then sAddr.set c.lhs (adr ||| 1) else sAddr,
        tLists.set c.lhs (l' ++ [⟨c.rel, probeRhs c 0x1000, c.signed⟩]), tEdges ++ edges'⟩,
      ?_, ?_, ⟨rfl, ?_, fun arg below => ?_⟩, ?_⟩
    · simp only [addConstraint, getAt, found, here, file, made, ok_bind, Bool.false_eq_true, if_false]
      rfl
    · simp only [addConstraintUntagged, getAt, found, here', file, made', ok_bind, Bool.false_eq_true, if_false]
      rfl
    · split <;> simpa using length
    · by_cases own : c.lhs = arg
      · subst own
        exact ⟨_, _, List.getElem?_set_self inside, List.getElem?_set_self inside', by simp [lengths]⟩
      · dsimp only
        rw [List.getElem?_set_ne own, List.getElem?_set_ne own]
        exact lists arg below
    · rintro (⟨arg, m, m', there, there', other⟩ | ⟨j, addr', taken, at', marked⟩)
      · by_cases own : c.lhs = arg
        · subst own
          obtain rfl := Option.some.inj (here.symm.trans there)
          obtain rfl := Option.some.inj (here'.symm.trans there')
          refine ⟨c.lhs, _, _, List.getElem?_set_self inside, List.getElem?_set_self inside', fun equal => other ?_⟩
          exact (List.append_inj equal lengths).1
        · refine ⟨arg, m, m', ?_, ?_, other⟩
          · dsimp only
            rw [List.getElem?_set_ne own, there]
          · dsimp only
            rw [List.getElem?_set_ne own, there']
      · obtain rfl := Option.some.inj ((source j taken).symm.trans at')
        refine ⟨c.lhs, _, _, List.getElem?_set_self inside, List.getElem?_set_self inside', fun equal => ?_⟩
        have last := (List.append_inj equal lengths).2
        simp only [List.cons.injEq, Constraint.mk.injEq, and_true, true_and] at last
        exact probeRhs_marked taken marked last

/-- The rest of the entries, once the set-ups differ or an address still to be taken is marked. -/
theorem probe_run {n : Nat} (within : ∀ c ∈ rest, Within n c) (alike : Alike n s t)
    (clash : Differ s t ∨
      ∃ j addr, s.addressOfArg[j]? = some addr ∧ Marked addr ∧ ∃ b ∈ rest, b.source = some j) :
    rest.foldlM (addConstraint (probeTypes n) probeHeap) s ≠
      rest.foldlM (addConstraintUntagged (probeTypes n) (probeSlots n) probeHeap) t := by
  induction rest generalizing s t with
  | nil =>
    obtain ⟨arg, l, l', there, there', other⟩ | ⟨_, _, _, _, b, member, _⟩ := clash
    · intro equal
      obtain rfl := Except.ok.inj equal
      exact other (Option.some.inj (there.symm.trans there'))
    · cases member
  | cons c rest ih =>
    obtain ⟨s', t', added, added', alike', differ⟩ := probe_step (within c (List.mem_cons_self ..)) alike
    rw [List.foldlM_cons, List.foldlM_cons, added, added']
    refine ih (fun d member => within d (List.mem_cons_of_mem _ member)) alike' ?_
    obtain already | ⟨j, addr, there, marked, b, member, taken⟩ := clash
    · exact .inl (differ (.inl already))
    · rcases List.mem_cons.mp member with rfl | member
      · exact .inl (differ (.inr ⟨j, addr, taken, there, marked⟩))
      · obtain ⟨adr, found, addresses⟩ := addConstraint_addresses added
        by_cases own : c.lhs = j
        · subst own
          obtain rfl := Option.some.inj (found.symm.trans there)
          refine .inr ⟨c.lhs, adr ||| c.tag, ?_, marked.tag c, b, member, taken⟩
          rw [addresses, List.getElem?_set_self (List.getElem?_eq_some_iff.mp found).1]
        · refine .inr ⟨j, addr, ?_, marked, b, member, taken⟩
          rw [addresses, List.getElem?_set_ne own, there]

theorem filter_plainOf_tagged (tagged : a.tag ≠ 0) (arg : Nat) (ucs : List UserConstraint) :
    (a :: ucs).filter (UserConstraint.plainOf arg) = ucs.filter (UserConstraint.plainOf arg) := by
  refine List.filter_cons_of_neg ?_
  unfold UserConstraint.tag at tagged
  unfold UserConstraint.plainOf
  cases file : a.isFile <;> cases deref : a.deref <;> simp_all

/-- Where two entries clash, the one that tags can be moved to the front. -/
theorem exists_rearranged (clash : ¬ucs.Pairwise fun a b => ¬a.Clashes b ∧ ¬b.Clashes a) :
    ∃ a rest, Rearranged ucs (a :: rest) ∧ ∃ b ∈ rest, a.Clashes b := by
  induction ucs with
  | nil => exact absurd .nil clash
  | cons c ucs ih =>
    by_cases later : ucs.Pairwise fun a b => ¬a.Clashes b ∧ ¬b.Clashes a
    · have here : ¬∀ b ∈ ucs, ¬c.Clashes b ∧ ¬b.Clashes c := fun apart => clash (List.pairwise_cons.mpr ⟨apart, later⟩)
      push Not at here
      obtain ⟨b, member, both⟩ := here
      by_cases first : c.Clashes b
      · exact ⟨c, ucs, ⟨.refl _, fun _ => rfl⟩, b, member, first⟩
      · have second := both first
        obtain ⟨before, after, rfl⟩ := List.append_of_mem member
        refine ⟨b, c :: (before ++ after), ⟨?_, fun arg => ?_⟩, c, List.mem_cons_self .., second⟩
        · exact (List.Perm.swap c b _).trans (List.perm_middle.symm.cons c)
        · rw [filter_plainOf_tagged second.1]
          simp only [List.filter_cons, List.filter_append]
          have gone := filter_plainOf_tagged second.1 arg after
          simp only [List.filter_cons] at gone
          rw [gone]
    · obtain ⟨a, rest, ⟨perm, plain⟩, b, member, clashes⟩ := ih later
      refine ⟨a, c :: rest, ⟨?_, fun arg => ?_⟩, b, List.mem_cons_of_mem _ member, clashes⟩
      · exact (List.Perm.swap c a rest).trans (perm.cons c)
      · have same := plain arg
        rw [filter_plainOf_tagged clashes.1] at same ⊢
        simp only [List.filter_cons, same]

/-- In every order of the entries that keeps the plain constraints of each argument, each entry
takes plain addresses, for all arguments and memories, exactly if no entry takes the address of
an argument that another one tags. -/
theorem setup_order_free_iff (ucs : List UserConstraint) :
    (∀ ucs', Rearranged ucs ucs' → ∀ types slots h,
      setupArgs types slots ucs' h = setupUntagged types slots ucs' h) ↔
    ucs.Pairwise fun a b => ¬a.Clashes b ∧ ¬b.Clashes a := by
  constructor
  · intro free
    by_contra clash
    obtain ⟨a, rest, rearranged, b, member, clashes⟩ := exists_rearranged clash
    obtain ⟨n, within⟩ := exists_within (a :: rest)
    have equal := free _ rearranged (probeTypes n) (probeSlots n) probeHeap
    have lengths : ¬(probeSlots n).length < (probeTypes n).length := by simp [probeSlots, probeTypes]
    have whole : (probeSlots n).take (probeTypes n).length = probeSlots n := by simp [probeSlots, probeTypes]
    simp only [setupArgs, setupUntagged, lengths, if_false, whole] at equal
    have start : Alike n ⟨probeSlots n, List.replicate (probeTypes n).length [], []⟩
        ⟨probeSlots n, List.replicate (probeTypes n).length [], []⟩ :=
      ⟨rfl, by simp [probeSlots], fun arg below =>
        ⟨[], [], by simp [probeTypes, below], by simp [probeTypes, below], rfl⟩⟩
    obtain ⟨s, t, added, added', alike, _⟩ := probe_step (within a (List.mem_cons_self ..)) start
    obtain ⟨adr, found, addresses⟩ := addConstraint_addresses added
    rw [List.foldlM_cons, List.foldlM_cons, added, added'] at equal
    refine probe_run (fun c inside => within c (List.mem_cons_of_mem _ inside)) alike (.inr ?_) equal
    refine ⟨a.lhs, adr ||| a.tag, ?_, marked_tag clashes.1 adr, b, member, clashes.2⟩
    rw [addresses, List.getElem?_set_self (List.getElem?_eq_some_iff.mp found).1]
  · rintro apart ucs' ⟨perm, _⟩ types slots h
    have symmetric : ∀ {a b : UserConstraint}, ¬a.Clashes b ∧ ¬b.Clashes a → ¬b.Clashes a ∧ ¬a.Clashes b := And.symm
    have apart' := (perm.symm.pairwise_iff symmetric).mp apart
    unfold setupArgs setupUntagged
    split
    · rfl
    · exact foldlM_untagged (apart'.imp And.left) fun _ _ _ _ => rfl

end

/-- `q` is marked `deref` and bounds the length of `p`: whichever entry comes first decides
whether the bound is read from the slot of `q` or from one byte behind it. -/
theorem deref_bound_depends_on_order :
    Rearranged [{ lhs := 0, rel := .EQ, rhs := .arg 1 }, { lhs := 1, rel := .GE, rhs := .constant 1, deref := true }]
        [{ lhs := 1, rel := .GE, rhs := .constant 1, deref := true }, { lhs := 0, rel := .EQ, rhs := .arg 1 }] ∧
      (setupArgs [.pointer (.integer 8), .pointer (.integer 32)] [0x1000, 0x1008]
        [{ lhs := 0, rel := .EQ, rhs := .arg 1 }, { lhs := 1, rel := .GE, rhs := .constant 1, deref := true }]
        probeHeap).map Setup.constraintsOfArg = .ok [[⟨.EQ, .arg 0x1008, false⟩], [⟨.GE, .constant 1, false⟩]] ∧
      (setupArgs [.pointer (.integer 8), .pointer (.integer 32)] [0x1000, 0x1008]
        [{ lhs := 1, rel := .GE, rhs := .constant 1, deref := true }, { lhs := 0, rel := .EQ, rhs := .arg 1 }]
        probeHeap).map Setup.constraintsOfArg = .ok [[⟨.EQ, .arg 0x1009, false⟩], [⟨.GE, .constant 1, false⟩]] := by
  refine ⟨⟨.swap _ _ _, fun arg => ?_⟩, by decide +kernel, by decide +kernel⟩
  have tagged : UserConstraint.tag { lhs := 1, rel := .GE, rhs := .constant 1, deref := true } ≠ 0 := by decide
  rw [filter_plainOf_tagged tagged, List.filter_cons, List.filter_cons, filter_plainOf_tagged tagged]

end AflLive.Libgen
