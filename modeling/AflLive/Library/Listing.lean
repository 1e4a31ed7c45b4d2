import Mathlib

/-! Listings of entries with distinct keys. In an alphabetical one, texts with one beginning
stand next to each other, so a scan for the first of them leaves exactly the texts from the
beginning on. -/
namespace AflLive.Listing

/-- Of entries with distinct keys, two selections have the same keys only if they are the same. -/
theorem filter_map_perm_iff {α β : Type} {l : List α} {key : α → β} {p q : α → Bool} (distinct : (l.map key).Nodup) :
    ((l.filter p).map key).Perm ((l.filter q).map key) ↔ ∀ x ∈ l, p x = q x := by
  have mem : ∀ r : α → Bool, ∀ x ∈ l, key x ∈ (l.filter r).map key ↔ r x = true := by
    intro r x inside
    simp only [List.mem_map, List.mem_filter]
    constructor
    · rintro ⟨y, ⟨inside', holds⟩, same⟩
      exact List.inj_on_of_nodup_map distinct inside' inside same ▸ holds
    · exact fun holds => ⟨x, ⟨inside, holds⟩, rfl⟩
  constructor
  · intro perm x inside
    rw [Bool.eq_iff_iff, ← mem p x inside, ← mem q x inside]
    exact perm.mem_iff
  · intro same
    rw [List.filter_congr same]

/-- What stands next to an entry of one of two matched lists. -/
theorem exists_of_forall₂ {α β : Type} {R : α → β → Prop} {l : List α} {m : List β} (matched : List.Forall₂ R l m) :
    ∀ x ∈ l, ∃ y ∈ m, R x y := by
  induction matched with
  | nil => simp
  | cons first rest ih =>
    intro x inside
    cases inside with
    | head => exact ⟨_, by simp, first⟩
    | tail _ inside =>
      obtain ⟨y, there, related⟩ := ih x inside
      exact ⟨y, by simp [there], related⟩

theorem forall₂_trans {α β γ : Type} {P : α → β → Prop} {Q : β → γ → Prop} {R : α → γ → Prop} {l : List α}
    {m : List β} {k : List γ} (first : List.Forall₂ P l m) (second : List.Forall₂ Q m k)
    (both : ∀ a b c, c ∈ k → P a b → Q b c → R a c) : List.Forall₂ R l k := by
  induction first generalizing k with
  | nil =>
    cases second
    exact .nil
  | cons head _ ih =>
    cases second with
    | cons next rest =>
      exact .cons (both _ _ _ (by simp) head next) (ih rest fun a b c inside => both a b c (by simp [inside]))

section Counting
variable (q : Nat → Prop) [DecidablePred q]

theorem length_filter_range (n : Nat) : ((List.range n).filter q).length = Nat.count q n := by
  induction n with
  | zero => simp
  | succ n ih => by_cases here : q n <;> simp [List.range_succ, Nat.count_succ, ih, here]

/-- Of the numbers that are kept, one stands behind as many as are kept below it. -/
theorem getElem?_filter_range {n p : Nat} (kept : q p) (below : p < n) :
    ((List.range n).filter q)[Nat.count q p]? = some p := by
  induction n with
  | zero => omega
  | succ n ih =>
    rw [List.range_succ, List.filter_append]
    rcases Nat.lt_succ_iff_lt_or_eq.mp below with earlier | rfl
    · have inside : Nat.count q p < ((List.range n).filter q).length := by
        rw [length_filter_range]
        exact Nat.count_strict_mono kept earlier
      rw [List.getElem?_append_left inside, ih earlier]
    · rw [List.getElem?_append_right (length_filter_range q p).le, length_filter_range]
      simp [kept]

end Counting

variable {α β : Type} [LT α] [LE α] [Std.IsLinearOrder α] [Std.LawfulOrderLT α]

theorem start_of_between {start text rest : List α} (low : start ≤ text) (high : text ≤ start ++ rest) :
    start <+: text := by
  induction start generalizing text with
  | nil => exact List.nil_prefix
  | cons a start ih =>
    cases text with
    | nil => exact absurd low (by simp)
    | cons b text =>
      rw [List.cons_le_cons_iff] at low
      rw [List.cons_append, List.cons_le_cons_iff] at high
      cases low with
      | inl below =>
        cases high with
        | inl above => exact absurd (Std.lt_trans below above) Std.lt_irrefl
        | inr same => exact absurd (same.1 ▸ below) Std.lt_irrefl
      | inr same =>
        obtain ⟨rfl, low⟩ := same
        cases high with
        | inl above => exact absurd above Std.lt_irrefl
        | inr same => exact (List.prefix_cons_inj a).mpr (ih low same.2)

variable [DecidableEq α] [DecidableLT α] {key : β → List α} {start : List α} {hit : β → Bool} {l : List β}

/-- From the first text with the beginning on, everything is at or behind it. -/
theorem dropWhile_eq_filter (hits : ∀ x, hit x = true ↔ start <+: key x)
    (sorted : l.Pairwise fun a b => key a ≤ key b) (found : ∃ x ∈ l, start <+: key x) :
    l.dropWhile (fun x => !hit x) = l.filter fun x => start ≤ key x := by
  induction l with
  | nil => simp at found
  | cons x l ih =>
    obtain ⟨first, sorted⟩ := List.pairwise_cons.mp sorted
    by_cases here : start <+: key x
    · have behind : ∀ y ∈ x :: l, start ≤ key y := by
        intro y inside
        cases inside with
        | head => exact here.le
        | tail _ inside => exact List.le_trans here.le (first y inside)
      rw [List.filter_eq_self.mpr (by simpa using behind)]
      simp [(hits x).mpr here]
    · obtain ⟨y, inside, starts⟩ := found
      have later : y ∈ l := by
        cases inside with
        | head => exact absurd starts here
        | tail _ inside => exact inside
      obtain ⟨rest, whole⟩ := starts
      have before : ¬start ≤ key x := fun low => here (start_of_between low (whole ▸ first y later))
      rw [List.dropWhile_cons, if_pos (by simp [Bool.eq_false_iff, hits, here]), ih sorted ⟨y, later, rest, whole⟩]
      simp [before]

end AflLive.Listing
