import AflLive.ConfigGenerator.Matching

/-! Which parameters the derivation of constraints comes to, and what it makes of them: files,
alone or not, parameters that are left out, and buffers for which it raises. -/
namespace AflLive.ConfigGenerator.Derive
open Control

/-! ### The places a scan comes to -/

def Next (params : List Param) (s t : Scan) : Prop :=
  ∃ param first, params[s.i]? = some param ∧ turn params param s = .ok (first, t)

/-- The loop examines the parameter at the place. -/
def Examined (params : List Param) (s : Scan) : Prop := Relation.ReflTransGen (Next params) ⟨0, true⟩ s

section Places
variable {params : List Param} {param : Param} {s t : Scan} {items : List Item} {item : Item}

theorem Scanned.reached (run : Scanned params s items) (path : Relation.ReflTransGen (Next params) s t) :
    ∃ rest, Scanned params t rest ∧ rest ⊆ items := by
  induction path with
  | refl => exact ⟨items, run, List.Subset.refl _⟩
  | tail _ next ih =>
    obtain ⟨rest, run', sub⟩ := ih
    obtain ⟨param, first, here, turned⟩ := next
    cases run' with
    | done behind =>
      rw [List.getElem?_eq_none behind] at here
      cases here
    | step here' turned' later =>
      cases here.symm.trans here'
      cases turned.symm.trans turned'
      exact ⟨_, later, List.Subset.trans (List.subset_append_right ..) sub⟩

theorem Scanned.turn_at (run : Scanned params s items) (path : Relation.ReflTransGen (Next params) s t)
    (here : params[t.i]? = some param) : ∃ first u, turn params param t = .ok (first, u) ∧ first ⊆ items := by
  obtain ⟨rest, run', sub⟩ := run.reached path
  cases run' with
  | done behind =>
    rw [List.getElem?_eq_none behind] at here
    cases here
  | step here' turned _ =>
    cases here.symm.trans here'
    exact ⟨_, _, turned, List.Subset.trans (List.subset_append_left ..) sub⟩

theorem Scanned.turn_of (run : Scanned params s items) (inside : item ∈ items) :
    ∃ t param first u, Relation.ReflTransGen (Next params) s t ∧ params[t.i]? = some param ∧
      turn params param t = .ok (first, u) ∧ item ∈ first := by
  induction run with
  | done => cases inside
  | step here turned rest ih =>
    rcases List.mem_append.mp inside with own | later
    · exact ⟨_, _, _, _, .refl, here, turned, own⟩
    · obtain ⟨t, param, first, u, path, found⟩ := ih later
      exact ⟨t, param, first, u, .head ⟨_, _, here, turned⟩ path, found⟩

end Places

/-- The type mentions `char` or an 8-bit integer, and the name a file. -/
def FileLike (params : List Param) (k : Nat) : Prop :=
  ∃ param, params[k]? = some param ∧ param.isBytes = true ∧ param.namesFile = true

/-- A buffer next to a length. -/
def HasLength (params : List Param) (k : Nat) : Prop :=
  ∃ param, params[k]? = some param ∧ param.isBytes = true ∧ param.namesFile = false ∧ param.isOutput = false ∧
    (lengthAt params param (k + 1) = true ∨ 0 < k ∧ lengthAt params param (k - 1) = true)

section Choices
variable {params : List Param} {param : Param} {s t : Scan} {first : List Item}

theorem choose_file_iff : choose params param s = .file ↔ param.isBytes = true ∧ param.namesFile = true := by
  unfold choose
  cases param.isBytes with
  | false => simp
  | true =>
    cases param.namesFile with
    | false => simp only [Bool.not_true, Bool.false_eq_true, if_false, and_false, iff_false]; split_ifs <;> simp
    | true => simp

theorem turn_eq_nil_iff (turned : turn params param s = .ok (first, t)) :
    first = [] ↔ choose params param s = .pass := by
  obtain ⟨chosen, rfl, -⟩ | ⟨chosen, rfl, -⟩ | ⟨_, _, chosen, -, rfl, -⟩ := turn_cases turned <;> simp [chosen]

theorem file_mem_turn_iff (turned : turn params param s = .ok (first, t)) :
    .file i ∈ first ↔ i = s.i ∧ choose params param s = .file := by
  obtain ⟨chosen, rfl, -⟩ | ⟨chosen, rfl, -⟩ | ⟨_, _, chosen, -, rfl, -⟩ := turn_cases turned <;> simp [chosen]

theorem hasLength_of_choose (here : params[s.i]? = some param) (chosen : choose params param s = .pair j) :
    HasLength params s.i := by
  obtain ⟨bytes, noFile, input, length, place⟩ := choose_pair chosen
  refine ⟨param, here, bytes, noFile, input, ?_⟩
  rcases place with rfl | ⟨before, -⟩
  · exact .inl length
  · have back : s.i - 1 = j := by omega
    exact .inr ⟨by omega, by rwa [back]⟩

end Choices

/-! ### Files -/

/-- A file constraint has no other constraint beside it. -/
def Exclusive (cs : List Constraint) : Prop := ∀ c ∈ cs, c.isFile = true → cs = [c]

theorem length_le_constraintsOf (items : List Item) : items.length ≤ (constraintsOf items).length := by
  induction items with
  | nil => simp
  | cons item items ih =>
    have parts : constraintsOf (item :: items) = item.entries.map Entry.fields ++ constraintsOf items := by
      simp [constraintsOf]
    rw [parts, List.length_append, List.length_cons, List.length_map]
    have some : 1 ≤ item.entries.length := by cases item <;> simp [Item.entries]
    omega

theorem exclusive_constraintsOf {items : List Item} :
    Exclusive (constraintsOf items) ↔ ∀ i, .file i ∈ items → items = [.file i] := by
  constructor
  · intro exclusive i inside
    have only := exclusive { lhs := i, rel := .eq, isFile := true } (mem_constraintsOf.mpr (.inl ⟨i, inside, rfl⟩)) rfl
    have short := length_le_constraintsOf items
    rw [only, List.length_singleton] at short
    obtain ⟨item, rfl⟩ := List.length_eq_one_iff.mp (le_antisymm short (List.length_pos_of_mem inside))
    rw [List.mem_singleton.mp inside]
  · intro alone c inside file
    have only := alone _ (file_constraintsOf inside file)
    rw [only] at inside ⊢
    rw [List.mem_singleton.mp inside]
    rfl

/-- One owner for all items is one item. -/
theorem Scanned.single {params : List Param} {s : Scan} {items : List Item} {item : Item} {i : Nat}
    (run : Scanned params s items) (owners : ∀ item ∈ items, item.owner = i) (inside : item ∈ items) :
    items = [item] := by
  match items, run.owners, inside, owners with
  | [other], _, inside, _ => rw [List.mem_singleton.mp inside]
  | a :: b :: rest, order, _, owners =>
    have less := (List.pairwise_cons.mp order).1 b (by simp)
    rw [owners a (by simp), owners b (by simp)] at less
    exact absurd less (lt_irrefl _)

/-- A file constraint stands alone exactly if a file is the only parameter that the scan finds
anything to say about. -/
theorem Scanned.exclusive_iff {params : List Param} {items : List Item} (run : Scanned params ⟨0, true⟩ items) :
    Exclusive (constraintsOf items) ↔ ∀ s t param param', Examined params s → Examined params t →
      params[s.i]? = some param → params[t.i]? = some param' → choose params param s = .file →
      choose params param' t ≠ .pass → s.i = t.i := by
  rw [exclusive_constraintsOf]
  constructor
  · intro alone s t param param' path path' here here' file acts
    obtain ⟨first, u, turned, sub⟩ := run.turn_at path here
    obtain ⟨first', u', turned', sub'⟩ := run.turn_at path' here'
    have inside : .file s.i ∈ items := sub ((file_mem_turn_iff turned).mpr ⟨rfl, file⟩)
    obtain ⟨item, own⟩ := List.exists_mem_of_ne_nil first' fun empty => acts ((turn_eq_nil_iff turned').mp empty)
    have there := sub' own
    rw [alone _ inside] at there
    rw [← turn_owner turned' own, List.mem_singleton.mp there]
    rfl
  · intro single i inside
    obtain ⟨s, param, first, u, path, here, turned, own⟩ := run.turn_of inside
    obtain ⟨rfl, file⟩ := (file_mem_turn_iff turned).mp own
    have owners : ∀ item ∈ items, item.owner = s.i := by
      intro item there
      obtain ⟨t, param', first', u', path', here', turned', own'⟩ := run.turn_of there
      rw [turn_owner turned' own']
      refine (single s t param param' path path' here here' file fun passes => ?_).symm
      rw [(turn_eq_nil_iff turned').mpr passes] at own'
      cases own'
    exact run.single owners inside

/-- A derived file constraint stands alone exactly if, of the parameters the loop examines, a
file is the only one it finds anything to say about. That is so at least where a parameter that
looks like a file is the only one that does or has a length beside it. -/
theorem file_exclusive_iff (py : Interpreter) (functionName paramString text : List Char) (cs : List Constraint)
    (returned : getConstraintList py functionName paramString = .ok text) (read : readBack py.limit text = .ok cs) :
    (Exclusive cs ↔ ∀ s t param param', Examined (splitParams py paramString) s →
      Examined (splitParams py paramString) t → (splitParams py paramString)[s.i]? = some param →
      (splitParams py paramString)[t.i]? = some param' → choose (splitParams py paramString) param s = .file →
      choose (splitParams py paramString) param' t ≠ .pass → s.i = t.i) ∧
    ((∀ k l, FileLike (splitParams py paramString) k →
      FileLike (splitParams py paramString) l ∨ HasLength (splitParams py paramString) l → k = l) → Exclusive cs) := by
  obtain ⟨items, run, back⟩ := getConstraintList_run returned
  obtain rfl := Except.ok.inj (read.symm.trans back)
  generalize splitParams py paramString = params at *
  refine ⟨run.exclusive_iff, fun only => run.exclusive_iff.mpr fun s t param param' _ _ here here' file acts => ?_⟩
  refine only s.i t.i ⟨param, here, choose_file_iff.mp file⟩ ?_
  cases chosen : choose params param' t with
  | pass => exact absurd chosen acts
  | file => exact .inl ⟨param', here', choose_file_iff.mp chosen⟩
  | pair j => exact .inr (hasLength_of_choose here' chosen)

/-- `open(char *filename, int flags)` -/
theorem lone_file_exclusive :
    getConstraintList cpython "open".toList "\"char *filename,int flags\"".toList = .ok "0 = f".toList ∧
      Exclusive [{ lhs := 0, rel := .eq, isFile := true }] := by
  have returned : getConstraintList cpython "open".toList "\"char *filename,int flags\"".toList =
      .ok "0 = f".toList := by decide +kernel
  have read : readBack cpython.limit "0 = f".toList = .ok [{ lhs := 0, rel := .eq, isFile := true }] := by
    decide +kernel
  have params : splitParams cpython "\"char *filename,int flags\"".toList =
      [⟨"char *".toList, "filename".toList⟩, ⟨"int ".toList, "flags".toList⟩] := by decide +kernel
  refine ⟨returned, (file_exclusive_iff _ _ _ _ _ returned read).2 fun k l file acts => ?_⟩
  have first : ∀ n, (∃ param, (splitParams cpython "\"char *filename,int flags\"".toList)[n]? = some param ∧
      param.isBytes = true) → n = 0 := by
    rintro n ⟨param, here, bytes⟩
    rw [params] at here
    match n with
    | 0 => rfl
    | 1 =>
      cases here
      exact absurd bytes (by decide)
    | n + 2 => cases here
  obtain ⟨param, here, bytes, -⟩ := file
  rw [first k ⟨param, here, bytes⟩]
  rcases acts with ⟨param, here, bytes, -⟩ | ⟨param, here, bytes, -⟩
  · rw [first l ⟨param, here, bytes⟩]
  · rw [first l ⟨param, here, bytes⟩]

/-- `load(char *filename, char *buf, size_t len)` gets a pair beside its file, and
`copy(char *infile, char *outfile)` two files. -/
theorem file_beside_others :
    (∃ text cs, getConstraintList cpython "load".toList "\"char *filename,char *buf,size_t len\"".toList = .ok text ∧
      text = "0 = f,1 = 2,2 < r".toList ∧ readBack cpython.limit text = .ok cs ∧ ¬Exclusive cs) ∧
    ∃ text cs, getConstraintList cpython "copy".toList "\"char *infile,char *outfile\"".toList = .ok text ∧
      text = "0 = f,1 = f".toList ∧ readBack cpython.limit text = .ok cs ∧ ¬Exclusive cs := by
  constructor
  · refine ⟨_, [{ lhs := 0, rel := .eq, isFile := true }, { lhs := 1, rel := .eq, rhs := some (.param 2) },
      { lhs := 2, rel := .le, rhs := some .recorded }], by decide +kernel, rfl, by decide +kernel, fun exclusive => ?_⟩
    have alone := exclusive _ (List.mem_cons_self ..) rfl
    simp at alone
  · refine ⟨_, [{ lhs := 0, rel := .eq, isFile := true }, { lhs := 1, rel := .eq, isFile := true }], by decide +kernel,
      rfl, by decide +kernel, fun exclusive => ?_⟩
    have alone := exclusive _ (List.mem_cons_self ..) rfl
    simp at alone

/-! ### Parameters that are left out -/

section Coverage
variable {params : List Param} {s : Scan} {items : List Item}

/-- A parameter that looks like a file gets a file constraint, is the length of the buffer before
it, or stands behind a buffer whose length is before that. -/
theorem Scanned.covers (run : Scanned params s items) (behind : s.i ≤ k) (file : FileLike params k) :
    .file k ∈ items ∨ (∃ i deref, .pair i k deref ∈ items) ∨
      ∃ i j deref, i + 1 = k ∧ j + 1 = i ∧ .pair i j deref ∈ items := by
  induction run with
  | done last =>
    obtain ⟨param, here, -⟩ := file
    have within := (List.getElem?_eq_some_iff.mp here).1
    omega
  | @step s t param first items here turned rest ih =>
    rcases Nat.lt_or_ge k t.i with passed | later
    · obtain ⟨param', here', isFile⟩ := file
      by_cases own : k = s.i
      · subst own
        cases here.symm.trans here'
        have chosen : choose params param s = .file := choose_file_iff.mpr isFile
        exact .inl (List.mem_append_left _ ((file_mem_turn_iff turned).mpr ⟨rfl, chosen⟩))
      · -- the turn was one of a pair, which leaves this parameter out
        right
        obtain ⟨-, -, rfl⟩ | ⟨-, -, rfl⟩ | ⟨j, deref, chosen, -, rfl, rfl⟩ := turn_cases turned
        · simp only at passed; omega
        · simp only at passed; omega
        · simp only at passed
          obtain ⟨-, -, -, -, place⟩ := choose_pair chosen
          obtain rfl : k = s.i + 1 := by omega
          rcases place with rfl | ⟨before, -⟩
          · exact .inl ⟨s.i, deref, by simp⟩
          · exact .inr ⟨s.i, j, deref, rfl, before, by simp⟩
    · rcases ih later with isFile | ⟨i, deref, pair⟩ | ⟨i, j, deref, next, before, pair⟩
      · exact .inl (List.mem_append_right _ isFile)
      · exact .inr (.inl ⟨i, deref, List.mem_append_right _ pair⟩)
      · exact .inr (.inr ⟨i, j, deref, next, before, List.mem_append_right _ pair⟩)

theorem Scanned.skipped (run : Scanned params s items) (pair : .pair i j deref ∈ items) : .file (i + 1) ∉ items := by
  induction run with
  | done => cases pair
  | step here turned rest ih =>
    intro file
    rcases List.mem_append.mp pair with own | later <;> rcases List.mem_append.mp file with now | afterwards
    · have same := (turn_owner turned own).trans (turn_owner turned now).symm
      simp [Item.owner] at same
    · have place : i = _ := turn_owner turned own
      have behind : _ ≤ i + 1 := rest.owner_le afterwards
      obtain ⟨-, rfl, -⟩ | ⟨-, rfl, -⟩ | ⟨_, _, -, -, rfl, rfl⟩ := turn_cases turned
      · cases own
      · simp at own
      · simp only at behind; omega
    · have place : i + 1 = _ := turn_owner turned now
      have behind : _ ≤ i := rest.owner_le later
      have advanced := turn_advances turned
      omega
    · exact ih later afterwards

end Coverage

/-- A file-like parameter behind a buffer that takes the parameter before it for its length is left
to the buffer behind, which may take it for a length in turn. -/
def Overlooked (params : List Param) (k : Nat) : Prop :=
  FileLike params k ∧ ∃ s param j, Examined params s ∧ s.i + 1 = k ∧ params[s.i]? = some param ∧
    choose params param s = .pair j ∧ j < s.i ∧
    ∀ next, params[k + 1]? = some next → choose params next ⟨k + 1, true⟩ ≠ .pair k

section Pairs
variable {params : List Param} {param : Param} {s t : Scan} {items : List Item} {j k : Nat}

theorem Scanned.pair_of_choose (run : Scanned params ⟨0, true⟩ items) (path : Examined params s)
    (here : params[s.i]? = some param) (chosen : choose params param s = .pair j) :
    (∃ deref, .pair s.i j deref ∈ items) ∧ Examined params ⟨s.i + 2, j < s.i⟩ := by
  obtain ⟨first, u, turned, sub⟩ := run.turn_at path here
  obtain ⟨other, -⟩ | ⟨other, -⟩ | ⟨j', deref, same, -, rfl, rfl⟩ := turn_cases turned
  · cases chosen.symm.trans other
  · cases chosen.symm.trans other
  · cases chosen.symm.trans same
    exact ⟨⟨deref, sub (by simp)⟩, path.tail ⟨param, _, here, turned⟩⟩

theorem Scanned.choose_of_pair {i : Nat} {deref : Bool} (run : Scanned params ⟨0, true⟩ items)
    (pair : .pair i j deref ∈ items) :
    ∃ s param, Examined params s ∧ s.i = i ∧ params[s.i]? = some param ∧ choose params param s = .pair j := by
  obtain ⟨s, param, first, u, path, here, turned, own⟩ := run.turn_of pair
  obtain ⟨-, rfl, -⟩ | ⟨-, rfl, -⟩ | ⟨j', deref', chosen, -, rfl, -⟩ := turn_cases turned
  · cases own
  · simp at own
  · obtain ⟨rfl, rfl, -⟩ : i = s.i ∧ j = j' ∧ deref = deref' := by simpa using own
    exact ⟨s, param, path, rfl, here, chosen⟩

/-- Looking ahead does not depend on what became of the parameter before. -/
theorem choose_ahead (chosen : choose params param s = .pair (s.i + 1)) (same : t.i = s.i) :
    choose params param t = .pair (s.i + 1) := by
  obtain ⟨bytes, noFile, input, length, -⟩ := choose_pair chosen
  simp [choose, bytes, noFile, input, length, same]

/-- Of all the parameters that look like a file, a run leaves out those overlooked. -/
theorem Scanned.overlooked_iff (run : Scanned params ⟨0, true⟩ items) (file : FileLike params k) :
    (.file k ∈ items ∨ ∃ i deref, .pair i k deref ∈ items) ↔ ¬Overlooked params k := by
  constructor
  · rintro kept ⟨-, s, param, j, path, rfl, here, chosen, before, left⟩
    obtain ⟨⟨deref, pair⟩, -⟩ := run.pair_of_choose path here chosen
    rcases kept with isFile | ⟨i, deref', taken⟩
    · exact run.skipped pair isFile
    · obtain ⟨t, param', -, rfl, here', chosen'⟩ := run.choose_of_pair taken
      obtain ⟨-, -, -, -, ahead | ⟨behind, free⟩⟩ := choose_pair chosen'
      · -- the buffer itself would have looked ahead first
        obtain same : s.i = t.i := by omega
        rw [← same, here] at here'
        cases here'
        rw [ahead] at chosen'
        cases chosen.symm.trans (choose_ahead chosen' same)
        omega
      · obtain rfl : t = ⟨s.i + 1 + 1, true⟩ := by cases t; simp_all
        exact left param' here' chosen'
  · intro found
    obtain isFile | taken | ⟨i, j, deref, rfl, before, pair⟩ := run.covers (Nat.zero_le k) file
    · exact .inl isFile
    · exact .inr taken
    · obtain ⟨s, param, path, rfl, here, chosen⟩ := run.choose_of_pair pair
      have back : j < s.i := by omega
      by_contra lost
      refine found ⟨file, s, param, j, path, rfl, here, chosen, back, fun next there taken => lost (.inr ?_)⟩
      have examined := (run.pair_of_choose path here chosen).2
      simp only [back, decide_true] at examined
      exact ⟨_, (run.pair_of_choose examined there taken).1⟩

end Pairs

/-- No parameter that looks like a file is left without a file constraint, other than as the length
of a buffer, exactly if none stands behind a buffer that takes the parameter before it for its
length, with no buffer behind that takes it for a length in turn. -/
theorem nothing_overlooked_iff (py : Interpreter) (functionName paramString text : List Char) (cs : List Constraint)
    (returned : getConstraintList py functionName paramString = .ok text) (read : readBack py.limit text = .ok cs) :
    (∀ k, FileLike (splitParams py paramString) k →
      (∃ c ∈ cs, c.isFile = true ∧ c.lhs = k) ∨ ∃ c ∈ cs, c.rhs = some (.param k)) ↔
    ∀ k, ¬Overlooked (splitParams py paramString) k := by
  obtain ⟨items, run, back⟩ := getConstraintList_run returned
  obtain rfl := Except.ok.inj (read.symm.trans back)
  have files (k : Nat) : (∃ c ∈ constraintsOf items, c.isFile = true ∧ c.lhs = k) ↔ .file k ∈ items := by
    constructor
    · rintro ⟨c, inside, isFile, rfl⟩
      exact file_constraintsOf inside isFile
    · exact fun isFile => ⟨_, mem_constraintsOf.mpr (.inl ⟨k, isFile, rfl⟩), rfl, rfl⟩
  have lengths (k : Nat) : (∃ c ∈ constraintsOf items, c.rhs = some (.param k)) ↔
      ∃ i deref, .pair i k deref ∈ items := by
    constructor
    · rintro ⟨c, inside, right⟩
      exact ⟨_, rhs_constraintsOf inside right⟩
    · rintro ⟨i, deref, pair⟩
      exact ⟨_, mem_constraintsOf.mpr (.inr ⟨i, k, deref, pair, .inl rfl⟩), rfl⟩
  simp only [files, lengths]
  constructor
  · intro every k overlooked
    exact (run.overlooked_iff overlooked.1).mp (every k overlooked.1) overlooked
  · exact fun none k file => (run.overlooked_iff file).mpr (none k)

/-- `send(char *buf, size_t len, char *name)`: the length stands behind the buffer. -/
theorem name_behind_length_found :
    FileLike (splitParams cpython "\"char *buf,size_t len,char *name\"".toList) 2 ∧
      ∃ c ∈ [({ lhs := 0, rel := .eq, rhs := some (.param 1) } : Constraint),
        { lhs := 1, rel := .le, rhs := some .recorded }, { lhs := 2, rel := .eq, isFile := true }],
        c.isFile = true ∧ c.lhs = 2 := by
  have returned : getConstraintList cpython "send".toList "\"char *buf,size_t len,char *name\"".toList =
      .ok "0 = 1,1 < r,2 = f".toList := by decide +kernel
  have read : readBack cpython.limit "0 = 1,1 < r,2 = f".toList =
      .ok [{ lhs := 0, rel := .eq, rhs := some (.param 1) }, { lhs := 1, rel := .le, rhs := some .recorded },
        { lhs := 2, rel := .eq, isFile := true }] := by decide +kernel
  have params : splitParams cpython "\"char *buf,size_t len,char *name\"".toList =
      [⟨"char *".toList, "buf".toList⟩, ⟨"size_t ".toList, "len".toList⟩, ⟨"char *".toList, "name".toList⟩] := by
    decide +kernel
  have file : FileLike (splitParams cpython "\"char *buf,size_t len,char *name\"".toList) 2 := by
    rw [params]
    exact ⟨_, rfl, by decide, by decide⟩
  refine ⟨file, ?_⟩
  have seen (k : Nat) : ¬Overlooked (splitParams cpython "\"char *buf,size_t len,char *name\"".toList) k := by
    rintro ⟨-, s, param, j, -, -, here, chosen, before, -⟩
    obtain ⟨bytes, noFile, -⟩ := choose_pair chosen
    rw [params] at here
    -- a buffer with a parameter before it can only be the name
    match s, here with
    | ⟨0, _⟩, _ => exact absurd before (Nat.not_lt_zero j)
    | ⟨1, _⟩, here => cases here; exact absurd bytes (by decide)
    | ⟨2, _⟩, here => cases here; exact absurd noFile (by decide)
    | ⟨n + 3, _⟩, here => cases here
  obtain found | taken := (nothing_overlooked_iff _ _ _ _ _ returned read).mpr seen 2 file
  · exact found
  · simp at taken

/-- `send(size_t len, char *buf, char *name)`: the length stands before the buffer, and the name
is never looked at. -/
theorem name_behind_buffer_overlooked :
    getConstraintList cpython "send".toList "\"size_t len,char *buf,char *name\"".toList =
        .ok "1 = 0,0 < r".toList ∧
      ∃ cs, readBack cpython.limit "1 = 0,0 < r".toList = .ok cs ∧
        FileLike (splitParams cpython "\"size_t len,char *buf,char *name\"".toList) 2 ∧
        ¬((∃ c ∈ cs, c.isFile = true ∧ c.lhs = 2) ∨ ∃ c ∈ cs, c.rhs = some (.param 2)) := by
  have params : splitParams cpython "\"size_t len,char *buf,char *name\"".toList =
      [⟨"size_t ".toList, "len".toList⟩, ⟨"char *".toList, "buf".toList⟩, ⟨"char *".toList, "name".toList⟩] := by
    decide +kernel
  refine ⟨by decide +kernel, [{ lhs := 1, rel := .eq, rhs := some (.param 0) },
    { lhs := 0, rel := .le, rhs := some .recorded }], by decide +kernel, ?_, by simp⟩
  rw [params]
  exact ⟨_, rfl, by decide, by decide⟩

/-! ### Exceptions -/

/-- No buffer the loop comes to is passed by value and finds a length. -/
def Returns (params : List Param) : Prop :=
  ∀ s param j, Examined params s → params[s.i]? = some param → choose params param s = .pair j → 0 < param.levels

section Exceptions
variable {params : List Param} {param : Param} {s : Scan}

theorem turn_ok_iff : (∃ r, turn params param s = .ok r) ↔
    ∀ j, choose params param s = .pair j → param.levels = 1 ∨ param.levels = 2 := by
  constructor
  · rintro ⟨⟨first, t⟩, turned⟩ j chosen
    obtain ⟨other, -⟩ | ⟨other, -⟩ | ⟨_, _, -, levels, -⟩ := turn_cases turned
    · cases chosen.symm.trans other
    · cases chosen.symm.trans other
    · exact levels
  · intro fine
    unfold turn
    split
    · exact ⟨_, rfl⟩
    · exact ⟨_, rfl⟩
    · next j chosen =>
      rw [pairItem, if_pos (fine j chosen)]
      exact ⟨_, rfl⟩

theorem scan_ok_iff {fuel : Nat} (enough : params.length ≤ fuel + s.i) : (∃ items, scan params fuel s = .ok items) ↔
    ∀ t param, Relation.ReflTransGen (Next params) s t → params[t.i]? = some param →
      ∃ r, turn params param t = .ok r := by
  constructor
  · rintro ⟨items, scanned⟩ t param path here
    obtain ⟨first, u, turned, -⟩ := (scanned_of_scan scanned).turn_at path here
    exact ⟨_, turned⟩
  · intro fine
    induction fuel generalizing s with
    | zero =>
      unfold scan
      rw [if_neg (by omega)]
      exact ⟨_, rfl⟩
    | succ fuel ih =>
      unfold scan
      cases here : params[s.i]? with
      | none => exact ⟨_, rfl⟩
      | some param =>
        obtain ⟨⟨first, t⟩, turned⟩ := fine s param .refl here
        have advanced := turn_advances turned
        obtain ⟨items, scanned⟩ := ih (s := t) (by omega) fun u param path =>
          fine u param (.head ⟨_, _, here, turned⟩ path)
        refine ⟨first ++ items, ?_⟩
        dsimp only
        rw [turned, ok_bind, scanned]
        rfl

end Exceptions

theorem getConstraintList_ok_iff {py : Interpreter} {functionName paramString : List Char}
    (short : py.Short (splitParams py paramString).length)
    (admissible : ∀ param ∈ splitParams py paramString, param.levels ≤ 2) :
    (∃ text, getConstraintList py functionName paramString = .ok text) ↔ Returns (splitParams py paramString) := by
  have follows := getConstraintList_follows py functionName paramString
  rw [follows.isOk_iff fun e limited => limited.2 short, scan_ok_iff (by simp)]
  unfold Returns
  constructor
  · intro fine s param j path here chosen
    have levels := turn_ok_iff.mp (fine s param path here) j chosen
    omega
  · intro fine s param path here
    refine turn_ok_iff.mpr fun j chosen => ?_
    have most := admissible param (List.mem_of_getElem? here)
    have least := fine s param j path here chosen
    omega

theorem addRow_ok_iff {py : Interpreter} {config : Config} {row : Row} :
    (∃ config', addRow py config row = .ok config') ↔
      ∃ text, getConstraintList py row.functionName row.paramString = .ok text := by
  unfold addRow
  cases returned : getConstraintList py row.functionName row.paramString with
  | error e => simp [Except.mapError, bind, Except.bind]
  | ok text =>
    simp only [Except.ok.injEq, exists_eq', iff_true]
    obtain ⟨items, -, read⟩ := getConstraintList_run returned
    unfold readBack at read
    by_cases empty : text = []
    · exact ⟨config, by simp [Except.mapError, bind, Except.bind, empty, pure, Except.pure]⟩
    · rw [if_neg empty] at read
      simp only [Except.mapError, read, bind, Except.bind, empty, if_false]
      split
      · exact ⟨_, rfl⟩
      · exact ⟨_, rfl⟩

theorem foldlM_ok_iff {py : Interpreter} {rows : List Row} {config : Config} :
    (∃ config', rows.foldlM (addRow py) config = .ok config') ↔
      ∀ row ∈ rows, ∃ text, getConstraintList py row.functionName row.paramString = .ok text := by
  induction rows generalizing config with
  | nil => simp [pure, Except.pure]
  | cons row rows ih =>
    rw [List.foldlM_cons, List.forall_mem_cons, ← @addRow_ok_iff py config row]
    constructor
    · rintro ⟨last, ran⟩
      obtain ⟨next, first, rest⟩ := bind_eq_ok.mp ran
      exact ⟨⟨next, first⟩, ih.mp ⟨last, rest⟩⟩
    · rintro ⟨⟨next, first⟩, others⟩
      obtain ⟨last, rest⟩ := (@ih next).mpr others
      exact ⟨last, bind_eq_ok.mpr ⟨next, first, rest⟩⟩

/-- Without types of three or more levels of pointers, the derivation for a function returns
exactly if no buffer passed by value finds a length, which at least is so if none stands next to
one; and the script comes to its end exactly if this holds of all functions of the table. -/
theorem derivation_returns_iff (py : Interpreter) (rows : List Row)
    (short : ∀ row ∈ rows, py.Short (splitParams py row.paramString).length)
    (admissible : ∀ row ∈ rows, ∀ param ∈ splitParams py row.paramString, param.levels ≤ 2) :
    (∀ row ∈ rows, (∃ text, getConstraintList py row.functionName row.paramString = .ok text) ↔
      Returns (splitParams py row.paramString)) ∧
    ((∃ config, main py rows = .ok config) ↔ ∀ row ∈ rows, Returns (splitParams py row.paramString)) ∧
    ∀ params : List Param, (∀ k, HasLength params k → ∀ param, params[k]? = some param → 0 < param.levels) →
      Returns params := by
  have each : ∀ row ∈ rows, (∃ text, getConstraintList py row.functionName row.paramString = .ok text) ↔
      Returns (splitParams py row.paramString) := fun row inside =>
    getConstraintList_ok_iff (short row inside) (admissible row inside)
  refine ⟨each, ?_, fun params apart s param j _ here chosen => apart _ (hasLength_of_choose here chosen) param here⟩
  rw [main, foldlM_ok_iff]
  exact forall₂_congr each

/-- `send(char *buf, size_t len)` has a buffer with its length, `putc(char c, int fd)` a character
without one. -/
theorem buffer_and_character_derived :
    (∃ config, main cpython [⟨"send".toList, 2, "\"char *buf,size_t len\"".toList⟩,
      ⟨"putc".toList, 2, "\"char c,int fd\"".toList⟩] = .ok config) ∧
    ∃ text, getConstraintList cpython "send".toList "\"char *buf,size_t len\"".toList = .ok text := by
  have send : splitParams cpython "\"char *buf,size_t len\"".toList =
      [⟨"char *".toList, "buf".toList⟩, ⟨"size_t ".toList, "len".toList⟩] := by decide +kernel
  have putc : splitParams cpython "\"char c,int fd\"".toList =
      [⟨"char ".toList, "c".toList⟩, ⟨"int ".toList, "fd".toList⟩] := by decide +kernel
  have iff := derivation_returns_iff cpython [⟨"send".toList, 2, "\"char *buf,size_t len\"".toList⟩,
      ⟨"putc".toList, 2, "\"char c,int fd\"".toList⟩]
    (by
      simp only [List.forall_mem_cons, List.not_mem_nil, false_imp_iff, implies_true, and_true, send, putc]
      exact ⟨.inr (by decide +kernel), .inr (by decide +kernel)⟩)
    (by
      simp only [List.forall_mem_cons, List.not_mem_nil, false_imp_iff, implies_true, and_true, send, putc]
      decide)
  obtain ⟨each, whole, apart⟩ := iff
  have sends : Returns (splitParams cpython "\"char *buf,size_t len\"".toList) := by
    rw [send]
    refine apart _ fun k has param here => ?_
    obtain ⟨param', here', bytes, -⟩ := has
    rcases k with _ | _ | k
    · cases here
      decide
    · cases here'
      exact absurd bytes (by decide)
    · cases here
  have puts : Returns (splitParams cpython "\"char c,int fd\"".toList) := by
    rw [putc]
    refine apart _ fun k has param here => ?_
    obtain ⟨param', here', bytes, -, -, length⟩ := has
    rcases k with _ | _ | k
    · cases here'
      rcases length with behind | ⟨before, -⟩
      · exact absurd behind (by decide)
      · exact absurd before (lt_irrefl 0)
    · cases here'
      exact absurd bytes (by decide)
    · cases here
  refine ⟨whole.mpr ?_, (each _ (List.mem_cons_self ..)).mpr sends⟩
  simp only [List.forall_mem_cons, List.not_mem_nil, false_imp_iff, implies_true, and_true]
  exact ⟨sends, puts⟩

/-- `put(char c, int clen)` has no pointer at all. It raises, and takes `send` with it. -/
theorem character_by_value_aborts :
    (∀ param ∈ splitParams cpython "\"char c,int clen\"".toList, param.levels = 0) ∧
    getConstraintList cpython "put".toList "\"char c,int clen\"".toList =
      .error (.valueError "We cannot yet deal with triple pointers: char ".toList) ∧
    (∃ config, main cpython [⟨"send".toList, 2, "\"char *buf,size_t len\"".toList⟩] = .ok config) ∧
    ¬∃ config, main cpython [⟨"send".toList, 2, "\"char *buf,size_t len\"".toList⟩,
      ⟨"put".toList, 2, "\"char c,int clen\"".toList⟩] = .ok config := by
  have raised : getConstraintList cpython "put".toList "\"char c,int clen\"".toList =
      .error (.valueError "We cannot yet deal with triple pointers: char ".toList) := by decide +kernel
  refine ⟨by decide +kernel, raised, ?_, ?_⟩
  · refine foldlM_ok_iff.mpr ?_
    simp only [List.forall_mem_singleton]
    exact ⟨"0 = 1,1 < r".toList, by decide +kernel⟩
  · intro ended
    obtain ⟨text, returned⟩ := foldlM_ok_iff.mp ended _ (List.mem_cons_of_mem _ (List.mem_cons_self ..))
    cases raised.symm.trans returned

end AflLive.ConfigGenerator.Derive
