import AflLive.Fuzz.Seeds

/-! The retry loop of `get_seeds_from_runtime`. A crash while arguments are
recorded blacklists one target and lowers `amountOfTargets`; the table of target
names keeps its order. -/
namespace AflLive.Fuzz
open Bytes Libgen

/-- `fsrv_run_result_t`, as far as the loop tells the results apart. -/
inductive RunResult where
  | ok | tmout | crash | other
deriving DecidableEq, Repr

/-- One execution of the target: its result and what it wrote from the start of
the argument map on. -/
structure Run where
  result : RunResult
  written : List UInt8

/-- The `FATAL` exits; `noRun` is the end of the list of runs. -/
inductive SeedFatal where
  | timedOut | crashed | noRun
deriving DecidableEq, Repr

/-- The first of `rounds` entries whose length word is still zero. -/
def firstUnfinished (map : Image) : Nat → Nat → Option Nat
  | 0, _ => none
  | rounds + 1, place =>
    let serializedArgsLength := value (map.peek (place + 256) 4)
    if serializedArgsLength = 0 then some place
    else firstUnfinished map rounds (place + (260 + serializedArgsLength) % 2 ^ 32)

/-- The C string at the start of an entry. -/
def entryName (map : Image) (place : Nat) : Name := (map.peek place 256).takeWhile (· ≠ 0)

def clearMap (map : Image) (amountOfTargets : Nat) : Image :=
  map.poke 0 (List.replicate (amountOfTargets * entryRoom) 0)

/-- The loop around the runs. -/
def recordRuns (amountOfTargets : Nat) (blacklist : Name) (map : Image) :
    List Run → Except SeedFatal (Nat × Name × Image)
  | [] => .error .noRun
  | run :: rest =>
    let map := map.poke 0 run.written
    match run.result with
    | .ok | .other => .ok (amountOfTargets, blacklist, map)
    | .tmout => .error .timedOut
    | .crash =>
      match firstUnfinished map amountOfTargets 0 with
      | none => .error .crashed
      | some place =>
        recordRuns (amountOfTargets - 1) (blacklist ++ delimitedName (entryName map place))
          (clearMap map (amountOfTargets - 1)) rest

/-- What the outer loop queues for one target. -/
def seedFor (map : Image) (amountOfTargets : Nat) (name : Name) : Option (Name × List UInt8) :=
  match targetData map amountOfTargets name with
  | some bytes => if bytes = [] then none else some (name, bytes)
  | none => none

/-- What is queued, and whether an entry of any target was found; without one
afl-fuzz gives up. -/
structure Seeds where
  queue : List (Name × List UInt8)
  atLeastOneTarget : Bool

def getSeedsFromRuntime (targetNames : List Name) (blacklist : Name) (runs : List Run) :
    Except SeedFatal Seeds := do
  let (amountOfTargets, _, map) ← recordRuns targetNames.length blacklist (fun _ => 0) runs
  return {
    queue := (targetNames.take amountOfTargets).filterMap (seedFor map amountOfTargets)
    atLeastOneTarget := (targetNames.take amountOfTargets).any fun name => (targetData map amountOfTargets name).isSome }

section Blame
variable {records : List (Name × List UInt8)} {map : Image} {culprit : Name}

/-- The loop over the entries passes the finished ones. -/
theorem firstUnfinished_filled {place rounds : Nat} (small : ∀ r ∈ records, 260 + r.2.length < 2 ^ 32)
    (filled : ∀ r ∈ records, r.2 ≠ []) (written : map.peek place (stream records).length = stream records) :
    firstUnfinished map (records.length + rounds) place =
      firstUnfinished map rounds (place + (stream records).length) := by
  induction records generalizing place with
  | nil => simp [stream]
  | cons head rest ih =>
    obtain ⟨fnName, bytes⟩ := head
    have room : 260 + bytes.length < 2 ^ 32 := small _ (List.mem_cons_self ..)
    have nonempty : bytes ≠ [] := filled _ (List.mem_cons_self ..)
    have whole : stream ((fnName, bytes) :: rest) = entry fnName bytes ++ stream rest := rfl
    rw [whole] at written
    obtain ⟨_, word, _, behind⟩ := entry_at (by omega) written
    have count : ((fnName, bytes) :: rest).length + rounds = rest.length + rounds + 1 := by
      rw [List.length_cons]
      omega
    rw [count, firstUnfinished]
    simp only [word, List.length_eq_zero_iff, nonempty, if_false, Nat.mod_eq_of_lt room]
    rw [ih (fun r inside => small r (List.mem_cons_of_mem _ inside))
      (fun r inside => filled r (List.mem_cons_of_mem _ inside)) behind, whole, List.length_append, entry_length]
    congr 1
    omega

/-- It stops at the first one without a length. -/
theorem firstUnfinished_empty {place rounds : Nat} {tail : List UInt8}
    (small : ∀ r ∈ records, 260 + r.2.length < 2 ^ 32) (filled : ∀ r ∈ records, r.2 ≠ [])
    (written : map.peek place (stream records ++ (header culprit ++ (number 4 0 ++ tail))).length =
      stream records ++ (header culprit ++ (number 4 0 ++ tail))) (enough : records.length < rounds) :
    ∃ found, firstUnfinished map rounds place = some found ∧ map.peek found 256 = header culprit := by
  obtain ⟨passed, rest⟩ := Image.peek_append written
  obtain ⟨here, rest⟩ := Image.peek_append rest
  obtain ⟨word, _⟩ := Image.peek_append rest
  rw [header_length] at here word
  rw [number_length] at word
  obtain ⟨more, rfl⟩ := Nat.exists_eq_add_of_lt enough
  refine ⟨_, ?_, here⟩
  have zero : value (number 4 0) = 0 := rfl
  rw [Nat.add_assoc, firstUnfinished_filled small filled passed, firstUnfinished]
  simp only [word, zero, if_true]

end Blame

/-! ### What the last run leaves -/

/-- The bytes behind the first of `rounds` headers that shows the name. -/
def shownFor (rounds : Nat) (records : List (Name × List UInt8)) (name : Name) : Option (List UInt8) :=
  ((records.take rounds).find? fun r => r.1.take 255 = name).map Prod.snd

/-- The runs of a recording that succeeds: all but the last one crash, and the last one finds
`text` in the environment and writes the stream of its recordings. A function that is in
the blacklist is not recorded, and no function twice; it need not be a target of the table. -/
structure Recorded (targets : List Name) (blacklist : Name) (crashes : List Run) (run : Run) (text : Name)
    (last : List (Name × List UInt8)) : Prop where
  crashed : ∀ crash ∈ crashes, crash.result = .crash
  ended : (recordRuns targets.length blacklist (fun _ => 0) (crashes ++ [run])).map (fun left => left.2.1) = .ok text
  written : run.written = stream last
  once : (last.map Prod.fst).Nodup
  allowed : ∀ r ∈ last, contains text r.1 = false
  strings : (∀ t ∈ targets, 0 ∉ t) ∧ ∀ r ∈ last, 0 ∉ r.1

/-- The recordings, and an empty entry for each round of the walk that is left, are inside the
part of the map that was cleared for them. -/
structure Roomy (amountOfTargets : Nat) (last : List (Name × List UInt8)) : Prop where
  offset : (stream last).length < 2 ^ 32
  cleared : (stream last).length + 260 * (amountOfTargets - last.length) ≤ amountOfTargets * entryRoom

section Recorded
variable {targets : List Name} {blacklist text name : Name} {crashes : List Run} {run : Run}
  {records last : List (Name × List UInt8)} {map : Image} {size place rounds amount : Nat}

theorem shownFor_cons (r : Name × List UInt8) :
    shownFor (rounds + 1) (r :: records) name =
      if r.1.take 255 = name then some r.2 else shownFor rounds records name := by
  by_cases same : r.1.take 255 = name <;> simp [shownFor, same]

/-- The walk gives a target what the first header with its name shows. Cleared entries have
the empty name and no bytes. -/
theorem findEntry_shownFor (carries : Carries map size place records) (total : (stream records).length < 2 ^ 32)
    (strings : ∀ r ∈ records, 0 ∉ r.1) (noNul : 0 ∉ name)
    (room : place + (stream records).length + 260 * (rounds - records.length) ≤ size) :
    ((findEntry map name rounds place).map fun found => map.peek found.1 found.2).filter (· ≠ []) =
      (shownFor rounds records name).filter (· ≠ []) := by
  induction rounds generalizing place records with
  | zero => rfl
  | succ rounds ih =>
    cases records with
    | nil =>
      have whole : (stream []).length = 0 := rfl
      rw [whole, List.length_nil, Nat.sub_zero] at room
      obtain ⟨here, word, behind⟩ := carries.none (by linarith)
      have rest := ih behind total (by simp) (by rw [whole, List.length_nil, Nat.sub_zero]; linarith)
      have nothing : ∀ n, shownFor n [] name = none := fun n => by simp [shownFor]
      rw [nothing] at rest
      rw [nothing, findEntry, here, word]
      split
      · rfl
      · exact rest
    | cons r records =>
      obtain ⟨fnName, bytes⟩ := r
      have whole : (stream ((fnName, bytes) :: records)).length = 260 + bytes.length + (stream records).length := by
        simp [stream, List.flatMap_cons]
      rw [whole] at total room
      rw [List.length_cons, Nat.add_sub_add_right] at room
      obtain ⟨here, word, data, behind⟩ := carries.first (by omega)
      have shows := header_shows (strings _ (List.mem_cons_self ..)) noNul
      rw [shownFor_cons]
      by_cases same : fnName.take 255 = name
      · simp [findEntry, here, word, shows, same, data]
      · have unwrapped : (260 + bytes.length) % 2 ^ 32 = 260 + bytes.length := Nat.mod_eq_of_lt (by omega)
        simp only [findEntry, here, word, shows, same, if_false]
        rw [unwrapped]
        exact ih behind (by omega) (fun r inside => strings r (List.mem_cons_of_mem _ inside)) (by omega)

theorem seedFor_eq_some {t : Name} {bytes : List UInt8} :
    seedFor map amount name = some (t, bytes) ↔
      name = t ∧ (targetData map amount name).filter (· ≠ []) = some bytes := by
  unfold seedFor
  cases targetData map amount name with
  | none => simp
  | some data =>
    by_cases empty : data = []
    · simp [empty]
    · simp [empty, Option.filter]

/-- Each crash takes one entry off the end of the map and clears the others. -/
theorem recordRuns_ended {left : Nat × Name × Image} (crashed : ∀ crash ∈ crashes, crash.result = .crash)
    (zero : ∀ x < amount * entryRoom, map x = 0)
    (ended : recordRuns amount blacklist map (crashes ++ [run]) = .ok left) :
    left.1 = amount - crashes.length ∧
      ∃ cleared : Image, left.2.2 = cleared.poke 0 run.written ∧ ∀ x < left.1 * entryRoom, cleared x = 0 := by
  induction crashes generalizing amount blacklist map with
  | nil =>
    have finished : left = (amount, blacklist, map.poke 0 run.written) := by
      rw [List.nil_append, recordRuns] at ended
      cases result : run.result with
      | ok | other =>
        simp only [result] at ended
        exact (Except.ok.inj ended).symm
      | tmout => simp [result] at ended
      | crash =>
        simp only [result] at ended
        split at ended <;> cases ended
    subst finished
    exact ⟨rfl, map, rfl, zero⟩
  | cons crash crashes ih =>
    have result := crashed crash (List.mem_cons_self ..)
    rw [List.cons_append, recordRuns] at ended
    simp only [result] at ended
    split at ended
    · cases ended
    · have zeros : ∀ x < (amount - 1) * entryRoom, clearMap (map.poke 0 crash.written) (amount - 1) x = 0 := by
        intro x below
        have inside : x < (List.replicate ((amount - 1) * entryRoom) (0 : UInt8)).length := by simpa using below
        have hit := Image.poke_inside (a := 0) (map.poke 0 crash.written) inside
        rw [Nat.zero_add, List.getElem_replicate] at hit
        exact hit
      obtain ⟨fewer, cleared⟩ := ih (fun c inside => crashed c (List.mem_cons_of_mem _ inside)) zeros ended
      refine ⟨?_, cleared⟩
      rw [fewer, List.length_cons]
      omega

/-- The queue: what the first `amountOfTargets` entries of the map show for the first
`amountOfTargets` names of the table. -/
theorem Recorded.mem_queue_iff (recorded : Recorded targets blacklist crashes run text last)
    (roomy : Roomy (targets.length - crashes.length) last) :
    ∃ seeds, getSeedsFromRuntime targets blacklist (crashes ++ [run]) = .ok seeds ∧
      ∀ t bytes, (t, bytes) ∈ seeds.queue ↔
        t ∈ targets.take (targets.length - crashes.length) ∧
          shownFor (targets.length - crashes.length) last t = some bytes ∧ bytes ≠ [] := by
  obtain ⟨⟨amount, names, map⟩, ended, -⟩ := Control.map_eq_ok.mp recorded.ended
  obtain ⟨left, cleared, filled, zero⟩ := recordRuns_ended recorded.crashed (fun _ _ => rfl) ended
  obtain rfl : amount = targets.length - crashes.length := left
  obtain rfl : map = cleared.poke 0 run.written := filled
  rw [recorded.written] at ended
  refine ⟨_, by rw [getSeedsFromRuntime, ended]; rfl, fun t bytes => ?_⟩
  have carries : Carries (cleared.poke 0 (stream last)) ((targets.length - crashes.length) * entryRoom) 0 last := by
    refine ⟨Image.peek_poke _ _ _, fun x lower upper => ?_⟩
    rw [Image.poke_outside _ _ (.inr lower)]
    exact zero x upper
  have found : ∀ name ∈ targets.take (targets.length - crashes.length), _ := fun name inside =>
    findEntry_shownFor carries roomy.offset recorded.strings.2
      (recorded.strings.1 name (List.mem_of_mem_take inside)) (by rw [Nat.zero_add]; exact roomy.cleared)
  simp only [List.mem_filterMap, seedFor_eq_some]
  constructor
  · rintro ⟨name, inside, rfl, shows⟩
    rw [targetData, found name inside, Option.filter_eq_some_iff] at shows
    exact ⟨inside, shows.1, by simpa using shows.2⟩
  · rintro ⟨inside, shows, filled⟩
    refine ⟨t, inside, rfl, ?_⟩
    rw [targetData, found t inside, shows]
    simp [filled]

/-- With names that fit their headers, the headers show the recordings the walk comes to. -/
theorem shownFor_eq_some {bytes : List UInt8} (once : (records.map Prod.fst).Nodup)
    (short : ∀ r ∈ records, r.1.length ≤ 255) :
    shownFor rounds records name = some bytes ↔ (name, bytes) ∈ records.take rounds := by
  have whole : ∀ r ∈ records.take rounds, r.1.take 255 = r.1 := fun r inside =>
    List.take_of_length_le (short r (List.mem_of_mem_take inside))
  have nodup : ((records.take rounds).map Prod.fst).Nodup := once.sublist ((List.take_sublist _ _).map _)
  rw [shownFor, Option.map_eq_some_iff]
  constructor
  · rintro ⟨r, found, rfl⟩
    have inside := List.mem_of_find?_eq_some found
    have named : r.1.take 255 = name := by simpa using List.find?_some found
    rwa [← named, whole r inside]
  · intro inside
    have some : ((records.take rounds).find? fun r => r.1.take 255 = name).isSome := by
      rw [List.find?_isSome]
      exact ⟨_, inside, by simpa using whole _ inside⟩
    obtain ⟨r, found⟩ := Option.isSome_iff_exists.mp some
    have member := List.mem_of_find?_eq_some found
    have named : r.1.take 255 = name := by simpa using List.find?_some found
    rw [whole r member] at named
    exact ⟨r, found, congrArg Prod.snd (List.inj_on_of_nodup_map nodup member inside named)⟩

/-- What should be queued: the last run's recordings of targets that are not blacklisted. -/
def Kept (targets : List Name) (text : Name) (last queue : List (Name × List UInt8)) : Prop :=
  ∀ t bytes, (t, bytes) ∈ queue ↔
    t ∈ targets ∧ contains text (delimitedName t) = false ∧ (t, bytes) ∈ last ∧ bytes ≠ []

/-- Each target with bytes on record is still in the table's first `amountOfTargets` names, as
many headers show these bytes under its name, and none shows another function's. -/
structure Shown (amountOfTargets : Nat) (targets : List Name) (last : List (Name × List UInt8)) : Prop where
  own : ∀ r ∈ last, r.1 ∈ targets → r.2 ≠ [] →
    r.1 ∈ targets.take amountOfTargets ∧ shownFor amountOfTargets last r.1 = some r.2
  only : ∀ t ∈ targets.take amountOfTargets, ∀ bytes ≠ [], shownFor amountOfTargets last t = some bytes →
    (t, bytes) ∈ last

theorem shown_iff_of_short (once : (last.map Prod.fst).Nodup) (short : ∀ r ∈ last, r.1.length ≤ 255) :
    Shown amount targets last ↔
      ∀ r ∈ last, r.1 ∈ targets → r.2 ≠ [] → r.1 ∈ targets.take amount ∧ r ∈ last.take amount := by
  constructor
  · intro shown r inside known filled
    obtain ⟨early, found⟩ := shown.own r inside known filled
    exact ⟨early, (shownFor_eq_some once short).mp found⟩
  · intro early
    refine ⟨fun r inside known filled => ?_, fun t _ bytes _ found => ?_⟩
    · obtain ⟨listed, walked⟩ := early r inside known filled
      exact ⟨listed, (shownFor_eq_some once short).mpr walked⟩
    · exact List.mem_of_mem_take ((shownFor_eq_some once short).mp found)

/-- libgen looks for the bare name, so a name between colons keeps it from recording as well. -/
theorem Recorded.not_listed (recorded : Recorded targets blacklist crashes run text last) {r : Name × List UInt8}
    (inside : r ∈ last) : contains text (delimitedName r.1) = false := by
  have allowed := recorded.allowed r inside
  rw [← Bool.not_eq_true, contains_iff] at allowed ⊢
  have within : r.1 <:+: delimitedName r.1 := ⟨[colon], [colon], rfl⟩
  exact fun listed => allowed (within.trans listed)

/-- The queue holds the seeds of the last run exactly if the map shows them in as many entries as
there are names left after the crashes. With names that fit their headers these are the first
recordings. -/
theorem seeds_kept_iff (recorded : Recorded targets blacklist crashes run text last)
    (roomy : Roomy (targets.length - crashes.length) last) :
    ∃ seeds, getSeedsFromRuntime targets blacklist (crashes ++ [run]) = .ok seeds ∧
      (Kept targets text last seeds.queue ↔ Shown (targets.length - crashes.length) targets last) ∧
      ((∀ r ∈ last, r.1.length ≤ 255) →
        (Kept targets text last seeds.queue ↔
          ∀ r ∈ last, r.1 ∈ targets → r.2 ≠ [] → r.1 ∈ targets.take (targets.length - crashes.length) ∧
            r ∈ last.take (targets.length - crashes.length))) := by
  obtain ⟨seeds, ended, queued⟩ := recorded.mem_queue_iff roomy
  have general : Kept targets text last seeds.queue ↔ Shown (targets.length - crashes.length) targets last := by
    constructor
    · intro kept
      refine ⟨fun r inside known filled => ?_, fun t early bytes filled found => ?_⟩
      · have here := (kept r.1 r.2).mpr ⟨known, recorded.not_listed inside, inside, filled⟩
        obtain ⟨early, found, _⟩ := (queued r.1 r.2).mp here
        exact ⟨early, found⟩
      · exact ((kept t bytes).mp ((queued t bytes).mpr ⟨early, found, filled⟩)).2.2.1
    · intro shown t bytes
      rw [queued]
      constructor
      · rintro ⟨early, found, filled⟩
        have inside := shown.only t early bytes filled found
        exact ⟨List.mem_of_mem_take early, recorded.not_listed inside, inside, filled⟩
      · rintro ⟨known, _, inside, filled⟩
        obtain ⟨early, found⟩ := shown.own _ inside known filled
        exact ⟨early, found, filled⟩
  refine ⟨seeds, ended, general, fun short => ?_⟩
  rw [general, shown_iff_of_short recorded.once short]

end Recorded

/-- The first run crashes while `f` is recorded. -/
def crashAtF : Run := ⟨.crash, header (ascii "f") ++ number 4 0⟩

/-- The second run records `h` and `g`, which stand in front of `f` in the table. -/
theorem seeds_kept_with_f_last :
    ∃ seeds, getSeedsFromRuntime [ascii "g", ascii "h", ascii "f"] []
        [crashAtF, ⟨.ok, stream [(ascii "h", [9]), (ascii "g", [7])]⟩] = .ok seeds ∧
      Kept [ascii "g", ascii "h", ascii "f"] (ascii ":f:") [(ascii "h", [9]), (ascii "g", [7])] seeds.queue := by
  have recorded : Recorded [ascii "g", ascii "h", ascii "f"] [] [crashAtF]
      ⟨.ok, stream [(ascii "h", [9]), (ascii "g", [7])]⟩ (ascii ":f:") [(ascii "h", [9]), (ascii "g", [7])] := by
    refine ⟨by simp [crashAtF], by decide +kernel, rfl, ?_, ?_, ?_⟩ <;> decide +kernel
  obtain ⟨seeds, ended, -, short⟩ := seeds_kept_iff recorded ⟨by decide +kernel, by decide +kernel⟩
  refine ⟨seeds, ended, (short (by decide +kernel)).mpr ?_⟩
  decide +kernel

/-- With `f` in front of `g` in the table, the seed of `g` is lost. -/
theorem seed_behind_crashed_target_lost :
    Recorded [ascii "f", ascii "g"] [] [crashAtF] ⟨.ok, stream [(ascii "g", [7])]⟩ (ascii ":f:") [(ascii "g", [7])] ∧
      (getSeedsFromRuntime [ascii "f", ascii "g"] [] [crashAtF, ⟨.ok, stream [(ascii "g", [7])]⟩]).map
        (fun seeds => seeds.queue) = .ok [] := by
  refine ⟨⟨by simp [crashAtF], by decide +kernel, rfl, ?_, ?_, ?_⟩, by decide +kernel⟩ <;> decide +kernel

end AflLive.Fuzz
