import Mathlib

/-! Def-use chains. Every value has the list of its uses, newest first; setting an operand moves
the use from one list to the front of another, and an iterator over the users of a value follows
the link of the use it stands on, whatever list that is in by now. -/
namespace AflLive.UseList
variable {ν μ : Type} [DecidableEq ν] [DecidableEq μ]

structure Use (μ : Type) where
  user : μ
  index : Nat
deriving DecidableEq

structure Chains (ν μ : Type) where
  operands : μ → List ν
  uses : ν → List (Use μ)

namespace Chains

def operand (g : Chains ν μ) (u : Use μ) : Option ν := (g.operands u.user)[u.index]?

def push (g : Chains ν μ) (v : ν) (u : Use μ) : Chains ν μ :=
  { g with uses := Function.update g.uses v (u :: g.uses v) }

/-- A new user with its operands. -/
def addUser (g : Chains ν μ) (user : μ) (vs : List ν) : Chains ν μ :=
  vs.zipIdx.foldl (fun g v => g.push v.1 ⟨user, v.2⟩) { g with operands := Function.update g.operands user vs }

def setOperand (g : Chains ν μ) (u : Use μ) (v : ν) : Chains ν μ :=
  match g.operand u with
  | none => g
  | some old => Chains.push {
      operands := Function.update g.operands u.user ((g.operands u.user).set u.index v)
      uses := Function.update g.uses old ((g.uses old).erase u) } v u

/-- The link of a use. -/
def next (g : Chains ν μ) (u : Use μ) : Option (Use μ) :=
  (g.operand u).bind fun v => ((g.uses v).dropWhile (· ≠ u)).tail.head?

def replaceOperand (old new : ν) (user : μ) (g : Chains ν μ) (i : Nat) : Chains ν μ :=
  if g.operand ⟨user, i⟩ = some old then g.setOperand ⟨user, i⟩ new else g

def replaceOperands (g : Chains ν μ) (user : μ) (old new : ν) : Chains ν μ :=
  (List.range (g.operands user).length).foldl (replaceOperand old new user) g

/-- The loop over the users of `old` from a use on, which leaves out one user. There is no result
if the loop does not end within the fuel. -/
def replaceUsers (old new : ν) (except : μ) : Nat → Chains ν μ → Option (Use μ) → Option (Chains ν μ)
  | _, g, none => some g
  | 0, _, some _ => none
  | fuel + 1, g, some u =>
    let g' := if u.user = except then g else g.replaceOperands u.user old new
    replaceUsers old new except fuel g' (g'.next u)

variable {g g' : Chains ν μ} {old new v : ν} {user other except : μ} {u : Use μ} {vs : List ν}

/-! ### One operation -/

omit [DecidableEq μ] in
theorem foldl_push_operands (pairs : List (ν × Nat)) :
    (pairs.foldl (fun g v => g.push v.1 ⟨user, v.2⟩) g).operands = g.operands := by
  induction pairs generalizing g with
  | nil => rfl
  | cons pair pairs ih => exact ih.trans rfl

@[simp] theorem addUser_operands_self : (g.addUser user vs).operands user = vs := by
  simp [addUser, foldl_push_operands]

theorem addUser_operands_of_ne (ne : other ≠ user) : (g.addUser user vs).operands other = g.operands other := by
  simp [addUser, foldl_push_operands, ne]

theorem notMem_addUser_operands (new : v ∉ vs) (old : v ∉ g.operands other) :
    v ∉ (g.addUser user vs).operands other := by
  by_cases own : other = user
  · rw [own, addUser_operands_self]
    exact new
  · rw [addUser_operands_of_ne own]
    exact old

theorem addUser_uses (g : Chains ν μ) (user : μ) (vs : List ν) (v : ν) : (g.addUser user vs).uses v =
    ((vs.zipIdx.filter fun pair => pair.1 = v).map fun pair => ⟨user, pair.2⟩).reverse ++ g.uses v := by
  have pushed : ∀ (pairs : List (ν × Nat)) (g : Chains ν μ),
      (pairs.foldl (fun g v => g.push v.1 ⟨user, v.2⟩) g).uses v =
        ((pairs.filter fun pair => pair.1 = v).map fun pair => ⟨user, pair.2⟩).reverse ++ g.uses v := by
    intro pairs
    induction pairs with
    | nil => simp
    | cons pair pairs ih =>
      intro g
      rw [List.foldl_cons, ih]
      by_cases here : pair.1 = v
      · simp [push, here]
      · simp [push, here, Function.update_of_ne (Ne.symm here)]
  exact pushed _ _

theorem addUser_uses_of_notMem (free : v ∉ vs) : (g.addUser user vs).uses v = g.uses v := by
  have none : vs.zipIdx.filter (fun pair => pair.1 = v) = [] := by
    rw [List.filter_eq_nil_iff]
    rintro ⟨w, i⟩ inside is
    exact free (of_decide_eq_true is ▸ List.fst_mem_of_mem_zipIdx inside)
  simp [addUser_uses, none]

section
variable (at' : g.operand u = some old)
include at'

theorem setOperand_operands : (g.setOperand u new).operands =
    Function.update g.operands u.user ((g.operands u.user).set u.index new) := by
  simp [setOperand, at', push]

theorem setOperand_uses_new (ne : old ≠ new) : (g.setOperand u new).uses new = u :: g.uses new := by
  simp [setOperand, at', push, Function.update_of_ne ne.symm]

theorem setOperand_uses_of_ne (old_ne : v ≠ old) (new_ne : v ≠ new) : (g.setOperand u new).uses v = g.uses v := by
  simp [setOperand, at', push, Function.update_of_ne new_ne, Function.update_of_ne old_ne]

end

/-! ### All operands of a user -/

def swap (old new v : ν) : ν := if v = old then new else v

/-- The places of a value among the first operands. -/
def hits (vs : List ν) (old : ν) (n : Nat) : List Nat := (List.range n).filter fun i => vs[i]? = some old

/-- What the first turns of the loop over the operands have done. -/
structure Replaced (g : Chains ν μ) (user : μ) (old new : ν) (n : Nat) (g' : Chains ν μ) : Prop where
  own : g'.operands user = ((g.operands user).take n).map (swap old new) ++ (g.operands user).drop n
  operands : ∀ other, other ≠ user → g'.operands other = g.operands other
  uses_new : g'.uses new = ((hits (g.operands user) old n).map (Use.mk user)).reverse ++ g.uses new
  uses : ∀ v, v ≠ old → v ≠ new → g'.uses v = g.uses v

theorem Replaced.step (ne : old ≠ new) (before : Replaced g user old new n g') (inside : n < (g.operands user).length) :
    Replaced g user old new (n + 1) (replaceOperand old new user g' n) := by
  obtain ⟨own, operands, uses_new, uses⟩ := before
  have here : g'.operand ⟨user, n⟩ = some (g.operands user)[n] := by
    simp only [operand, own]
    rw [List.getElem?_append_right (by simp)]
    simp [inside, Nat.min_eq_left inside.le]
  have drops : (g.operands user).drop n = (g.operands user)[n] :: (g.operands user).drop (n + 1) :=
    List.drop_eq_getElem_cons inside
  have takes : (g.operands user).take (n + 1) = (g.operands user).take n ++ [(g.operands user)[n]] :=
    (List.take_concat_get' _ _ inside).symm
  have more : hits (g.operands user) old (n + 1) =
      hits (g.operands user) old n ++ if (g.operands user)[n] = old then [n] else [] := by
    simp only [hits, List.range_succ, List.filter_append, List.filter_cons, List.filter_nil]
    congr 1
    simp [inside]
  have length : (((g.operands user).take n).map (swap old new)).length = n := by simp [inside.le]
  unfold replaceOperand
  split
  · next is =>
    have same : (g.operands user)[n] = old := Option.some.inj (here.symm.trans is)
    constructor
    · rw [setOperand_operands is, Function.update_self, own, List.set_append_right _ _ length.le, length, drops, takes]
      simp [swap, same]
    · intro other distinct
      rw [setOperand_operands is, Function.update_of_ne distinct, operands other distinct]
    · rw [setOperand_uses_new is ne, uses_new, more, if_pos same]
      simp
    · intro v old_ne new_ne
      rw [setOperand_uses_of_ne is old_ne new_ne, uses v old_ne new_ne]
  · next is =>
    have differs : (g.operands user)[n] ≠ old := fun same => is (same ▸ here)
    refine ⟨?_, operands, ?_, uses⟩
    · rw [own, drops, takes, List.map_append, List.map_singleton, swap, if_neg differs, List.append_assoc,
        List.singleton_append]
    · rw [uses_new, more, if_neg differs, List.append_nil]

theorem replaceOperands_spec (ne : old ≠ new) (g : Chains ν μ) (user : μ) :
    Replaced g user old new (g.operands user).length (g.replaceOperands user old new) := by
  have run : ∀ n ≤ (g.operands user).length,
      Replaced g user old new n ((List.range n).foldl (replaceOperand old new user) g) := by
    intro n
    induction n with
    | zero => exact fun _ => ⟨by simp, fun _ _ => rfl, by simp [hits], fun _ _ _ => rfl⟩
    | succ n ih =>
      intro inside
      rw [List.range_succ, List.foldl_append]
      exact (ih (Nat.le_of_succ_le inside)).step ne inside
  exact run _ le_rfl

theorem replaceOperands_of_notMem (free : old ∉ g.operands user) : g.replaceOperands user old new = g := by
  have stays : ∀ l : List Nat, l.foldl (replaceOperand old new user) g = g := by
    intro l
    induction l with
    | nil => rfl
    | cons i l ih =>
      have other : g.operand ⟨user, i⟩ ≠ some old := fun is => free (List.mem_of_getElem? is)
      rw [List.foldl_cons, replaceOperand, if_neg other, ih]
  exact stays _

/-! ### The loop over the users -/

omit [DecidableEq ν] in
theorem next_eq (at' : g.operand u = some v) (list : g.uses v = before ++ u :: after) (first : u ∉ before) :
    g.next u = after.head? := by
  have skips : ∀ w ∈ before, decide (w ≠ u) = true := by
    rintro w inside
    simp only [ne_eq, decide_eq_true_eq]
    rintro rfl
    exact first inside
  rw [next, at', Option.bind_some, list, List.dropWhile_append_of_pos skips, List.dropWhile_cons_of_neg (by simp),
    List.tail_cons]

@[simp] theorem replaceUsers_none (fuel : Nat) : replaceUsers old new except fuel g none = some g := by
  cases fuel <;> rfl

/-- Once the iterator is on the list of the new value it goes to the end of that list and changes
nothing. -/
theorem replaceUsers_walk (list : g.uses new = before ++ u :: after) (distinct : (g.uses new).Nodup)
    (own : ∀ w ∈ g.uses new, w.user = user ∧ g.operand w = some new) (free : old ∉ g.operands user)
    (kept : user ≠ except) (enough : after.length ≤ fuel) :
    replaceUsers old new except fuel g (g.next u) = some g := by
  induction after generalizing before u fuel with
  | nil =>
    have first : u ∉ before := by
      have apart := List.nodup_append.mp (list ▸ distinct)
      exact fun inside => apart.2.2 u inside u (by simp) rfl
    have here : g.operand u = some new := (own u (by simp [list])).2
    rw [next_eq here list first, List.head?_nil, replaceUsers_none]
  | cons w after ih =>
    have first : u ∉ before := by
      have apart := List.nodup_append.mp (list ▸ distinct)
      exact fun inside => apart.2.2 u inside u (by simp) rfl
    have here : g.operand u = some new := (own u (by simp [list])).2
    obtain ⟨fuel, rfl⟩ : ∃ less, fuel = less + 1 := ⟨fuel - 1, by simp at enough; omega⟩
    have same : w.user = user := (own w (by simp [list])).1
    rw [next_eq here list first, List.head?_cons, replaceUsers]
    simp only [same, if_neg kept, replaceOperands_of_notMem free]
    have further : g.uses new = before ++ [u] ++ w :: after := by simp [list]
    exact ih further (by simpa using enough)

def replaceFirst (g : Chains ν μ) (old new : ν) : List (Use μ) → Chains ν μ
  | [] => g
  | u :: _ => g.replaceOperands u.user old new

/-- The loop replaces the operands of the first user behind the one it leaves out, and ends. -/
theorem replaceUsers_first (ne : old ≠ new) (list : g.uses old = ⟨except, i⟩ :: us)
    (at' : g.operand ⟨except, i⟩ = some old) (kept : ∀ u ∈ us, u.user ≠ except)
    (others : ∀ u ∈ us, g.operand u = some old) (fresh : g.uses new = [])
    (enough : ∀ u ∈ us, (g.operands u.user).length + 1 < fuel) (positive : 0 < fuel) :
    replaceUsers old new except fuel g (g.uses old).head? = some (g.replaceFirst old new us) := by
  obtain ⟨fuel, rfl⟩ : ∃ less, fuel = less + 1 := ⟨fuel - 1, by omega⟩
  rw [list, List.head?_cons, replaceUsers]
  simp only [if_true]
  have link : g.next ⟨except, i⟩ = us.head? := next_eq at' (list.trans (List.nil_append _).symm) (by simp)
  rw [link]
  cases us with
  | nil => rw [List.head?_nil, replaceUsers_none, replaceFirst]
  | cons u us =>
    have long := enough u (by simp)
    obtain ⟨fuel, rfl⟩ : ∃ less, fuel = less + 1 := ⟨fuel - 1, by omega⟩
    have user := kept u (by simp)
    have here := others u (by simp)
    rw [List.head?_cons, replaceUsers]
    simp only [if_neg user]
    obtain ⟨own, -, uses_new, -⟩ := replaceOperands_spec ne g u.user
    rw [fresh, List.append_nil] at uses_new
    rw [List.take_length, List.drop_length, List.append_nil] at own
    have hit : ∀ i, i ∈ hits (g.operands u.user) old (g.operands u.user).length ↔
        (g.operands u.user)[i]? = some old := by
      intro i
      simp only [hits, List.mem_filter, List.mem_range, decide_eq_true_eq, and_iff_right_iff_imp]
      exact fun is => (List.getElem?_eq_some_iff.mp is).1
    have moved : u ∈ (g.replaceOperands u.user old new).uses new := by
      rw [uses_new, List.mem_reverse, List.mem_map]
      exact ⟨u.index, (hit _).mpr here, rfl⟩
    obtain ⟨before, after, parts⟩ := List.append_of_mem moved
    refine replaceUsers_walk parts ?_ ?_ ?_ user ?_
    · rw [uses_new, List.nodup_reverse]
      exact (List.nodup_range.filter _).map fun a b same => (Use.mk.inj same).2
    · intro w inside
      rw [uses_new, List.mem_reverse, List.mem_map] at inside
      obtain ⟨i, place, rfl⟩ := inside
      refine ⟨rfl, ?_⟩
      simp [operand, own, (hit i).mp place, swap]
    · rw [own, List.mem_map]
      rintro ⟨v, -, is⟩
      unfold swap at is
      split at is
      · exact ne is.symm
      · next other => exact other is
    · have size := congrArg List.length (uses_new.symm.trans parts)
      have fewer : (hits (g.operands u.user) old (g.operands u.user).length).length ≤ (g.operands u.user).length :=
        (List.length_filter_le _ _).trans List.length_range.le
      simp only [List.length_reverse, List.length_map, List.length_append, List.length_cons] at size
      omega

end Chains

end AflLive.UseList
