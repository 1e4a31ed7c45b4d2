import AflLive.ConfigGenerator.DeriveConstraints

/-! What the derived constraints say: parameters are matched in disjoint pairs of neighbours, a
buffer and its length, or marked as files on their own. Which ones, the scan decides. -/
namespace AflLive.ConfigGenerator.Derive
open Control Topological
open Libgen (dependencies UserConstraint)

/-! ### Runs of the scan -/

/-- A run from a place to the end, and what it says. -/
inductive Scanned (params : List Param) : Scan → List Item → Prop where
  | done {s : Scan} (behind : params.length ≤ s.i) : Scanned params s []
  | step {s t : Scan} {param : Param} {first items : List Item} (here : params[s.i]? = some param)
      (turned : turn params param s = .ok (first, t)) (rest : Scanned params t items) :
      Scanned params s (first ++ items)

/-- The parameter at which an item is found. -/
def Item.owner : Item → Nat
  | .file i => i
  | .pair i _ _ => i

theorem scanned_of_scan {params : List Param} {fuel : Nat} {s : Scan} {items : List Item}
    (scanned : scan params fuel s = .ok items) : Scanned params s items := by
  induction fuel generalizing s items with
  | zero =>
    unfold scan at scanned
    split at scanned
    · cases scanned
    · cases scanned
      exact .done (by omega)
  | succ fuel ih =>
    unfold scan at scanned
    cases here : params[s.i]? with
    | none =>
      rw [here] at scanned
      cases scanned
      exact .done (List.getElem?_eq_none_iff.mp here)
    | some param =>
      rw [here] at scanned
      obtain ⟨⟨first, t⟩, turned, rest⟩ := bind_eq_ok.mp scanned
      obtain ⟨more, later, same⟩ := bind_eq_ok.mp rest
      cases same
      exact .step here turned (ih later)

section Runs
variable {params : List Param} {param : Param} {s t : Scan} {first items : List Item} {item : Item}

theorem turn_owner (turned : turn params param s = .ok (first, t)) (inside : item ∈ first) : item.owner = s.i := by
  obtain ⟨-, rfl, -⟩ | ⟨-, rfl, -⟩ | ⟨_, _, -, -, rfl, -⟩ := turn_cases turned
  · cases inside
  · rw [List.mem_singleton.mp inside]
    rfl
  · rw [List.mem_singleton.mp inside]
    rfl

theorem Scanned.owner_le (run : Scanned params s items) (inside : item ∈ items) : s.i ≤ item.owner := by
  induction run with
  | done => cases inside
  | step here turned rest ih =>
    rcases List.mem_append.mp inside with own | later
    · exact (turn_owner turned own).ge
    · exact (turn_advances turned).1.le.trans (ih later)

/-- A pair is one of neighbours, and a run says nothing about the parameters before it, except
for a free one right before. -/
structure Item.From (params : List Param) (s : Scan) (item : Item) : Prop where
  below : ∀ p ∈ item.params, p < params.length
  above : ∀ p ∈ item.params, s.i ≤ p ∨ s.free = true ∧ p + 1 = s.i
  neighbours : ∀ i j deref, item = .pair i j deref → j = i + 1 ∨ j + 1 = i

theorem turn_from (here : params[s.i]? = some param) (turned : turn params param s = .ok (first, t))
    (inside : item ∈ first) : item.From params s := by
  have within : s.i < params.length := (List.getElem?_eq_some_iff.mp here).1
  obtain ⟨-, rfl, -⟩ | ⟨-, rfl, -⟩ | ⟨j, deref, chosen, -, rfl, -⟩ := turn_cases turned
  · cases inside
  · obtain rfl := List.mem_singleton.mp inside
    exact ⟨by simpa [Item.params] using within, by simp [Item.params], by simp⟩
  · obtain rfl := List.mem_singleton.mp inside
    obtain ⟨-, -, -, length, place⟩ := choose_pair chosen
    refine ⟨by simpa [Item.params] using ⟨within, lengthAt_lt length⟩, ?_, ?_⟩
    · rcases place with rfl | ⟨before, free⟩
      · simp [Item.params]
      · simp [Item.params, free, before]
    · rintro i k mark same
      cases same
      exact place.imp id And.left

/-- What a turn says shares no parameter with what is said from the next place on. -/
theorem turn_apart {later : Item} (turned : turn params param s = .ok (first, t)) (inside : item ∈ first)
    (next : later.From params t) : ∀ p ∈ item.params, p ∉ later.params := by
  intro p mine theirs
  have above := next.above p theirs
  obtain ⟨-, rfl, -⟩ | ⟨-, rfl, rfl⟩ | ⟨j, deref, chosen, -, rfl, rfl⟩ := turn_cases turned
  · cases inside
  · obtain rfl := List.mem_singleton.mp inside
    obtain rfl : p = s.i := by simpa [Item.params] using mine
    simp at above
  · obtain rfl := List.mem_singleton.mp inside
    have either : p = s.i ∨ p = j := by simpa [Item.params] using mine
    obtain ⟨-, -, -, -, place⟩ := choose_pair chosen
    simp only [decide_eq_true_eq] at above
    omega

theorem Item.From.back (next : item.From params t) (turned : turn params param s = .ok (first, t)) :
    item.From params s := by
  refine ⟨next.below, fun p inside => .inl ?_, next.neighbours⟩
  obtain ⟨advanced, _⟩ := turn_advances turned
  rcases next.above p inside with behind | ⟨_, last⟩
  · omega
  · omega

theorem Scanned.from (run : Scanned params s items) (inside : item ∈ items) : item.From params s := by
  induction run with
  | done => cases inside
  | step here turned rest ih =>
    rcases List.mem_append.mp inside with own | later
    · exact turn_from here turned own
    · exact (ih later).back turned

/-- The items of a run are about different parameters. -/
theorem Scanned.apart (run : Scanned params s items) :
    items.Pairwise fun a b => ∀ p ∈ a.params, p ∉ b.params := by
  induction run with
  | done => exact .nil
  | step here turned rest ih =>
    refine List.pairwise_append.mpr ⟨?_, ih, fun a own b later => turn_apart turned own (rest.from later)⟩
    obtain ⟨-, rfl, -⟩ | ⟨-, rfl, -⟩ | ⟨_, _, -, -, rfl, -⟩ := turn_cases turned <;> simp

theorem Scanned.disjoint {other : Item} (run : Scanned params s items) (inside : item ∈ items) (there : other ∈ items)
    (mine : p ∈ item.params) (theirs : p ∈ other.params) : item = other := by
  have symm : Std.Symm fun a b : Item => ∀ p ∈ a.params, p ∉ b.params :=
    ⟨fun a b apart p second first => apart p first second⟩
  by_contra different
  exact run.apart.forall inside there different p mine theirs

theorem Scanned.owners (run : Scanned params s items) : items.Pairwise fun a b => a.owner < b.owner := by
  induction run with
  | done => exact .nil
  | step here turned rest ih =>
    refine List.pairwise_append.mpr ⟨?_, ih, fun a own b later => ?_⟩
    · obtain ⟨-, rfl, -⟩ | ⟨-, rfl, -⟩ | ⟨_, _, -, -, rfl, -⟩ := turn_cases turned <;> simp
    · rw [turn_owner turned own]
      exact (turn_advances turned).1.trans_le (rest.owner_le later)

end Runs

/-! ### The constraints of a run -/

/-- The constraints in a text of the script; it does not ask the parser about the empty one. -/
def readBack (limit : Nat) (text : List Char) : Except PyError (List Constraint) :=
  if text = [] then .ok [] else ConfigGenerator.getConstraintList limit text

def constraintsOf (items : List Item) : List Constraint := (items.flatMap Item.entries).map Entry.fields

theorem readable_of_short {limit : Nat} {item : Item} {entry : Entry}
    (short : ∀ p ∈ item.params, limit = 0 ∨ (Nat.toDigits 10 p).length ≤ limit) (inside : entry ∈ item.entries) :
    entry.Readable limit := by
  rintro p (rfl | right)
  · exact short _ (mem_params_iff.mpr ⟨entry, inside, .inl rfl⟩)
  · exact short _ (mem_params_iff.mpr ⟨entry, inside, .inr right.symm⟩)

theorem printList_ne_nil {entries : List Entry} (some : entries ≠ []) : printList entries ≠ [] := by
  obtain ⟨entry, rest, rfl⟩ := List.exists_cons_of_ne_nil some
  have digits : Nat.toDigits 10 entry.lhs ≠ [] := Nat.toDigits_ne_nil
  cases rest <;> simp [printList, Entry.print, digits]

/-- The text of a run is read back as its constraints. -/
theorem readBack_itemsText {limit : Nat} {items : List Item}
    (short : ∀ item ∈ items, ∀ p ∈ item.params, limit = 0 ∨ (Nat.toDigits 10 p).length ≤ limit) :
    readBack limit (itemsText items) = .ok (constraintsOf items) := by
  unfold readBack itemsText constraintsOf
  by_cases empty : items.flatMap Item.entries = []
  · rw [empty]
    rfl
  · rw [if_neg (printList_ne_nil empty)]
    refine getConstraintList_of_listText (printList_listText empty fun entry inside => ?_)
    obtain ⟨item, there, own⟩ := List.mem_flatMap.mp inside
    exact readable_of_short (short item there) own

/-- Whatever the script returns is the text of a run, and is read back as the constraints of it. -/
theorem getConstraintList_run {py : Interpreter} {functionName paramString text : List Char}
    (returned : getConstraintList py functionName paramString = .ok text) :
    ∃ items, Scanned (splitParams py paramString) ⟨0, true⟩ items ∧
      readBack py.limit text = .ok (constraintsOf items) := by
  obtain ⟨items, scanned, rfl, short⟩ := (getConstraintList_follows py functionName paramString).of_ok returned
  exact ⟨items, scanned_of_scan scanned, readBack_itemsText short⟩

theorem mem_constraintsOf {items : List Item} {c : Constraint} :
    c ∈ constraintsOf items ↔
      (∃ i, .file i ∈ items ∧ c = { lhs := i, rel := .eq, isFile := true }) ∨
      ∃ i j deref, .pair i j deref ∈ items ∧
        (c = { lhs := i, rel := .eq, deref, rhs := some (.param j) } ∨
          c = { lhs := j, rel := .le, rhs := some .recorded }) := by
  simp only [constraintsOf, List.mem_map, List.mem_flatMap]
  constructor
  · rintro ⟨entry, ⟨item, inside, own⟩, rfl⟩
    cases item with
    | file i =>
      obtain rfl := List.mem_singleton.mp own
      exact .inl ⟨i, inside, rfl⟩
    | pair i j deref =>
      refine .inr ⟨i, j, deref, inside, ?_⟩
      simp only [Item.entries, List.mem_cons, List.not_mem_nil, or_false] at own
      obtain rfl | rfl := own
      · exact .inl rfl
      · exact .inr rfl
  · rintro (⟨i, inside, rfl⟩ | ⟨i, j, deref, inside, rfl | rfl⟩)
    · exact ⟨_, ⟨_, inside, List.mem_singleton.mpr rfl⟩, rfl⟩
    · exact ⟨_, ⟨_, inside, List.mem_cons_self ..⟩, rfl⟩
    · exact ⟨⟨j, false, .le, .r⟩, ⟨_, inside, by simp [Item.entries]⟩, rfl⟩

/-- The pairs among the constraints. -/
theorem rhs_constraintsOf {items : List Item} {c : Constraint} (inside : c ∈ constraintsOf items)
    (right : c.rhs = some (.param j)) : ∃ deref, .pair c.lhs j deref ∈ items := by
  obtain ⟨i, -, rfl⟩ | ⟨i, k, deref, there, rfl | rfl⟩ := mem_constraintsOf.mp inside
  · cases right
  · cases right
    exact ⟨deref, there⟩
  · cases right

theorem file_constraintsOf {items : List Item} {c : Constraint} (inside : c ∈ constraintsOf items)
    (file : c.isFile = true) : .file c.lhs ∈ items := by
  obtain ⟨i, there, rfl⟩ | ⟨i, k, deref, there, rfl | rfl⟩ := mem_constraintsOf.mp inside
  · exact there
  · cases file
  · cases file

theorem item_of_mentions {items : List Item} {c : Constraint} (inside : c ∈ constraintsOf items)
    (mentions : c.Mentions p) : ∃ item ∈ items, p ∈ item.params := by
  obtain ⟨i, there, rfl⟩ | ⟨i, k, deref, there, rfl | rfl⟩ := mem_constraintsOf.mp inside
  · exact ⟨_, there, by simpa [Constraint.Mentions, Item.params] using mentions⟩
  · exact ⟨_, there, by simpa [Constraint.Mentions, Item.params, eq_comm] using mentions⟩
  · refine ⟨_, there, ?_⟩
    obtain rfl : p = k := by simpa [Constraint.Mentions] using mentions
    simp [Item.params]

/-- The parameter belongs to the pair of a buffer and its length that the constraint states. -/
def inPair (p : Nat) (c : Constraint) : Bool :=
  match c.rhs with
  | some (.param length) => p = c.lhs || p = length
  | _ => false

theorem inPair_iff {c : Constraint} :
    inPair p c = true ↔ ∃ length, c.rhs = some (.param length) ∧ (p = c.lhs ∨ p = length) := by
  unfold inPair
  split
  · next length is => simp [is]
  · next other =>
    simp only [Bool.false_eq_true, false_iff]
    rintro ⟨length, is, -⟩
    exact other length is

/-- `p < r` -/
def boundsRecorded (p : Nat) (c : Constraint) : Bool := c.lhs = p && c.rel = .le && c.rhs = some .recorded

/-- A constraint as `gen_values` reads it from the configuration. -/
def toUser (c : Constraint) : UserConstraint where
  lhs := c.lhs
  rel := match c.rel with
    | .le => .LE
    | .ge => .GE
    | .eq => .EQ
  rhs := match c.rhs with
    | some (.param index) => .arg index
    | some (.constant value) => .constant value
    | some .recorded => .recorded
    | none => .constant 0
  isFile := c.isFile
  deref := c.deref

/-- Of items about different parameters, at most one counts for a parameter. -/
theorem sum_le_one {items : List Item} {f : Item → Nat}
    (apart : items.Pairwise fun a b => ∀ p ∈ a.params, p ∉ b.params)
    (small : ∀ item, f item ≤ 1) (own : ∀ item, f item ≠ 0 → p ∈ item.params) : (items.map f).sum ≤ 1 := by
  induction items with
  | nil => simp
  | cons item items ih =>
    obtain ⟨others, apart⟩ := List.pairwise_cons.mp apart
    rw [List.map_cons, List.sum_cons]
    by_cases zero : f item = 0
    · rw [zero, Nat.zero_add]
      exact ih apart
    · have rest : (items.map f).sum = 0 := by
        refine List.sum_eq_zero fun n inside => ?_
        obtain ⟨other, there, rfl⟩ := List.mem_map.mp inside
        by_contra counts
        exact others other there p (own item zero) (own other counts)
      rw [rest]
      exact small item

theorem countP_constraintsOf (items : List Item) (q : Constraint → Bool) :
    (constraintsOf items).countP q = (items.map fun item => item.entries.countP (q ∘ Entry.fields)).sum := by
  rw [constraintsOf, List.countP_map, List.countP_flatMap]
  rfl

theorem countP_inPair_le {item : Item} (p : Nat) :
    item.entries.countP (inPair p ∘ Entry.fields) ≤ 1 ∧
      (item.entries.countP (inPair p ∘ Entry.fields) ≠ 0 → p ∈ item.params) := by
  cases item with
  | file i => simp [Item.entries, inPair, Entry.fields, Word.rhs]
  | pair i j deref =>
    by_cases own : p = i ∨ p = j <;> simp [Item.entries, inPair, Entry.fields, Word.rhs, Item.params, own]

theorem countP_bounds_le {item : Item} (p : Nat) :
    item.entries.countP (boundsRecorded p ∘ Entry.fields) ≤ 1 ∧
      (item.entries.countP (boundsRecorded p ∘ Entry.fields) ≠ 0 → p ∈ item.params) := by
  cases item with
  | file i => simp [Item.entries, boundsRecorded, Entry.fields, Word.rhs]
  | pair i j deref =>
    by_cases own : j = p <;> simp [Item.entries, boundsRecorded, Entry.fields, Word.rhs, Item.params, own]

theorem acyclic_of_matched {cs : List Constraint}
    (apart : ∀ c ∈ cs, ∀ d ∈ cs, ∀ l k, c.rhs = some (.param l) → d.rhs = some (.param k) → l ≠ d.lhs) :
    Acyclic (dependencies (cs.map toUser)) := by
  have edge : ∀ e ∈ dependencies (cs.map toUser), ∃ c ∈ cs, c.rhs = some (.param e.1) ∧ c.lhs = e.2 := by
    intro e inside
    simp only [dependencies, List.mem_filterMap, List.mem_map, exists_exists_and_eq_and] at inside
    obtain ⟨c, there, is⟩ := inside
    refine ⟨c, there, ?_⟩
    cases right : c.rhs with
    | none => simp [toUser, right] at is
    | some rhs =>
      cases rhs with
      | param index =>
        simp only [toUser, right, Option.some.injEq] at is
        subst is
        exact ⟨rfl, rfl⟩
      | constant _ => simp [toUser, right] at is
      | recorded => simp [toUser, right] at is
  refine acyclic_of_apart fun e inside f there => ?_
  obtain ⟨c, member, left, -⟩ := edge e inside
  obtain ⟨d, member', right, target⟩ := edge f there
  rw [← target]
  exact apart c member d member' _ _ left right

/-- Counting the parameters anew keeps a matching one. -/
theorem acyclic_of_renumbered {cs : List Constraint}
    (apart : ∀ c ∈ cs, ∀ d ∈ cs, ∀ l k, c.rhs = some (.param l) → d.rhs = some (.param k) → l ≠ d.lhs) (n : Nat) :
    Acyclic (dependencies ((getSkipParamsAndTransformConstraints n cs).2.map toUser)) := by
  have place : ∀ c ∈ cs, ∀ p, c.Mentions p →
      ((paramMap (referencedParams cs) p).getD p) = (referencedParams cs).idxOf p ∧ p ∈ referencedParams cs := by
    intro c inside p mentions
    have used := mem_referencedParams.mpr ⟨c, inside, mentions⟩
    rw [paramMap_eq (referencedParams_sorted cs), if_pos used]
    exact ⟨rfl, used⟩
  have source : ∀ c ∈ cs, ∀ (f : Nat → Nat) l, (c.renumber f).rhs = some (.param l) →
      ∃ m, c.rhs = some (.param m) ∧ l = f m := by
    intro c _ f l right
    simp only [Constraint.renumber, Option.map_eq_some_iff] at right
    obtain ⟨rhs, is, becomes⟩ := right
    cases rhs with
    | param m =>
      cases becomes
      exact ⟨m, is, rfl⟩
    | constant _ => cases becomes
    | recorded => cases becomes
  refine acyclic_of_matched fun c' inside' d' there' l k left right same => ?_
  obtain ⟨c, inside, rfl⟩ := List.mem_map.mp inside'
  obtain ⟨d, there, rfl⟩ := List.mem_map.mp there'
  obtain ⟨m, isLeft, rfl⟩ := source c inside _ _ left
  obtain ⟨o, isRight, -⟩ := source d there _ _ right
  obtain ⟨placeLength, used⟩ := place c inside m (.inr isLeft)
  obtain ⟨placeBuffer, _⟩ := place d there d.lhs (.inl rfl)
  rw [Constraint.renumber, placeLength, placeBuffer, List.idxOf_inj used] at same
  exact apart c inside d there m o isLeft isRight same

/-- The constraints that the script derives are read back, and are a matching: every index is a
parameter, a parameter belongs to at most one pair and then to no file, and every length has one
bound. No cycle arises, in the numbers of the script or in those of the configuration. -/
theorem derived_matching (py : Interpreter) (functionName paramString text : List Char)
    (returned : getConstraintList py functionName paramString = .ok text) :
    ∃ cs, readBack py.limit text = .ok cs ∧
      (∀ c ∈ cs, ∀ p, c.Mentions p → p < (splitParams py paramString).length) ∧
      (∀ p, cs.countP (inPair p) ≤ 1) ∧
      (∀ p, (∃ c ∈ cs, inPair p c = true) → ∀ c ∈ cs, c.isFile = true → c.lhs ≠ p) ∧
      Acyclic (dependencies (cs.map toUser)) ∧
      (∀ n, Acyclic (dependencies ((getSkipParamsAndTransformConstraints n cs).2.map toUser))) ∧
      ∀ c ∈ cs, ∀ length, c.rhs = some (.param length) → cs.countP (boundsRecorded length) = 1 := by
  obtain ⟨items, run, read⟩ := getConstraintList_run returned
  have matched : ∀ c ∈ constraintsOf items, ∀ d ∈ constraintsOf items, ∀ l k, c.rhs = some (.param l) →
      d.rhs = some (.param k) → l ≠ d.lhs := by
    rintro c inside d there l k left right rfl
    obtain ⟨mark, pair⟩ := rhs_constraintsOf inside left
    obtain ⟨mark', pair'⟩ := rhs_constraintsOf there right
    have same := run.disjoint pair pair' (p := d.lhs) (by simp [Item.params]) (by simp [Item.params])
    have apart := (run.from pair).neighbours _ _ _ rfl
    simp only [Item.pair.injEq] at same
    omega
  refine ⟨constraintsOf items, read, ?_, ?_, ?_, acyclic_of_matched matched, acyclic_of_renumbered matched, ?_⟩
  · intro c inside p mentions
    obtain ⟨item, there, own⟩ := item_of_mentions inside mentions
    exact (run.from there).below p own
  · intro p
    rw [countP_constraintsOf]
    exact sum_le_one run.apart (fun item => (countP_inPair_le p).1) fun item => (countP_inPair_le p).2
  · rintro p ⟨c, inside, paired⟩ d there file rfl
    obtain ⟨length, right, own⟩ := inPair_iff.mp paired
    obtain ⟨mark, pair⟩ := rhs_constraintsOf inside right
    have same := run.disjoint pair (file_constraintsOf there file) (p := d.lhs) (by simpa [Item.params] using own)
      (by simp [Item.params])
    cases same
  · intro c inside length right
    obtain ⟨mark, pair⟩ := rhs_constraintsOf inside right
    rw [countP_constraintsOf]
    refine le_antisymm ?_ ?_
    · exact sum_le_one run.apart (fun item => (countP_bounds_le length).1) fun item => (countP_bounds_le length).2
    · have counts : 1 = (Item.pair c.lhs length mark).entries.countP (boundsRecorded length ∘ Entry.fields) := by
        simp [Item.entries, boundsRecorded, Entry.fields, Word.rhs]
      rw [counts]
      exact List.single_le_sum (by simp) _ (List.mem_map.mpr ⟨_, pair, rfl⟩)

/-- The default limit, and the lower case of ASCII text. -/
def cpython : Interpreter := ⟨4300, List.map Char.toLower⟩

/-- `send(char *buf, size_t len, char *file)` -/
theorem buffer_length_and_file_matched :
    getConstraintList cpython "send".toList "\"char *buf,size_t len,char *file\"".toList =
        .ok "0 = 1,1 < r,2 = f".toList ∧
      ∃ cs, readBack 4300 "0 = 1,1 < r,2 = f".toList = .ok cs ∧
        (∀ c ∈ cs, ∀ p, c.Mentions p → p < 3) ∧ ∀ p, cs.countP (inPair p) ≤ 1 := by
  have returned : getConstraintList cpython "send".toList "\"char *buf,size_t len,char *file\"".toList =
      .ok "0 = 1,1 < r,2 = f".toList := by decide +kernel
  obtain ⟨cs, read, below, once, -⟩ := derived_matching _ _ _ _ returned
  exact ⟨returned, cs, read, below, once⟩

end AflLive.ConfigGenerator.Derive
