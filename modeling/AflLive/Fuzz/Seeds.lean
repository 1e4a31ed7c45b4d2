import AflLive.Libgen.Stream
import AflLive.Fuzz.Targets

/-! `get_seeds_from_runtime`: the walk over the argument map, the retry loop that
blacklists a target after a crash, and the seeds it queues. -/
namespace AflLive.Fuzz
open Bytes Libgen

/-- `MAX_TARGETNAME_LENGTH + 4 + MAX_FILE`: what the map holds for each target. -/
def entryRoom : Nat := 256 + 4 + maxFile

/-- `strncmp(a, b, n) == 0`; behind the end of a list stands its terminator. -/
def strncmpEq : Nat → Name → Name → Bool
  | 0, _, _ => true
  | n + 1, a, b =>
    if a.headD 0 ≠ b.headD 0 then false
    else if a.headD 0 = 0 then true
    else strncmpEq n a.tail b.tail

/-- The inner loop: the first of `rounds` entries from `place` on that carries the
name, as the position and the length of its data. -/
def findEntry (map : Image) (name : Name) : Nat → Nat → Option (Nat × Nat)
  | 0, _ => none
  | rounds + 1, place =>
    let entryLen := value (map.peek (place + 256) 4)
    if strncmpEq 256 (map.peek place 256) name then some (place + 260, entryLen)
    else findEntry map name rounds (place + (260 + entryLen) % 2 ^ 32)

/-- The bytes found for a target; `none` is the null pointer. -/
def targetData (map : Image) (amountOfTargets : Nat) (name : Name) : Option (List UInt8) :=
  (findEntry map name amountOfTargets 0).map fun found => map.peek found.1 found.2

/-- The headers the inner loop reads. -/
def headersRead (map : Image) (name : Name) : Nat → Nat → List Nat
  | 0, _ => []
  | rounds + 1, place =>
    let entryLen := value (map.peek (place + 256) 4)
    if strncmpEq 256 (map.peek place 256) name then [place]
    else place :: headersRead map name rounds (place + (260 + entryLen) % 2 ^ 32)

/-- A name as the header can hold it: a C string of 1 to 255 bytes. -/
structure Storable (name : Name) : Prop where
  nonempty : name ≠ []
  noNul : 0 ∉ name
  short : name.length ≤ 255

theorem strncmpEq_padded {a b : Name} {n : Nat} (noNul : 0 ∉ a) (noNul' : 0 ∉ b) (short : a.length < n)
    (pad : Nat) : strncmpEq n (a ++ List.replicate pad 0) b = true ↔ a = b := by
  induction n generalizing a b with
  | zero => omega
  | succ n ih =>
    cases a with
    | nil =>
      have head : (List.replicate pad (0 : UInt8)).head?.getD 0 = 0 := by cases pad <;> rfl
      cases b with
      | nil => simp [strncmpEq, head]
      | cons y b =>
        have nonzero : y ≠ 0 := fun same => noNul' (by simp [same])
        simp [strncmpEq, head, nonzero.symm]
    | cons x a =>
      have nonzero : x ≠ 0 := fun same => noNul (by simp [same])
      cases b with
      | nil => simp [strncmpEq, nonzero]
      | cons y b =>
        have rest := @ih a b (fun inside => noNul (by simp [inside])) (fun inside => noNul' (by simp [inside]))
          (by simpa using short)
        by_cases same : x = y
        · simp [strncmpEq, same, same ▸ nonzero, rest]
        · simp [strncmpEq, same]

/-- A header shows the first 255 bytes of a name. -/
theorem header_shows {name other : Name} (noNul : 0 ∉ name) (other_noNul : 0 ∉ other) :
    strncmpEq 256 (header name) other = true ↔ name.take 255 = other := by
  have short : (name.take 255).length ≤ 255 := List.length_take_le 255 name
  exact strncmpEq_padded (fun inside => noNul (List.mem_of_mem_take inside)) other_noNul (by omega) _

/-- A header is found under its own name only. -/
theorem header_matches {name other : Name} (storable : Storable name) (other_noNul : 0 ∉ other) :
    strncmpEq 256 (header name) other = true ↔ name = other := by
  rw [header_shows storable.noNul other_noNul, List.take_of_length_le storable.short]

/-- Cleared memory shows the empty name, so it is the header of no target. -/
theorem zeros_match {name : Name} (noNul : 0 ∉ name) :
    strncmpEq 256 (List.replicate 256 0) name = true ↔ name = [] :=
  (strncmpEq_padded (a := []) (n := 256) (by simp) noNul (by decide) 256).trans eq_comm

theorem zeros_match_none {name : Name} (nonempty : name ≠ []) (noNul : 0 ∉ name) :
    strncmpEq 256 (List.replicate 256 0) name = false := by
  rw [Bool.eq_false_iff]
  exact fun found => nonempty ((zeros_match noNul).mp found)

/-- From `place` on the map carries the stream of some recordings, and zeros
behind it up to `size`. -/
structure Carries (map : Image) (size place : Nat) (records : List (Name × List UInt8)) : Prop where
  written : map.peek place (stream records).length = stream records
  cleared : ∀ x, place + (stream records).length ≤ x → x < size → map x = 0

section Walk
variable {map : Image} {size place rounds : Nat} {records : List (Name × List UInt8)} {name fnName : Name}
  {bytes : List UInt8}

/-- The parts of an entry, and what is behind it. -/
theorem entry_at {tail : List UInt8} (small : bytes.length < 2 ^ 32)
    (written : map.peek place (entry fnName bytes ++ tail).length = entry fnName bytes ++ tail) :
    map.peek place 256 = header fnName ∧ value (map.peek (place + 256) 4) = bytes.length ∧
      map.peek (place + 260) bytes.length = bytes ∧ map.peek (place + (260 + bytes.length)) tail.length = tail := by
  obtain ⟨here, behind⟩ := Image.peek_append written
  obtain ⟨name, rest⟩ := Image.peek_append (show map.peek place (header fnName ++ _).length = _ from here)
  obtain ⟨word, data⟩ := Image.peek_append rest
  rw [header_length] at name word data
  rw [number_length] at word data
  rw [entry_length] at behind
  refine ⟨name, ?_, data, behind⟩
  rw [word, value_number]
  exact Nat.mod_eq_of_lt small

/-- The first entry, as the walk sees it, and what is behind it. -/
theorem Carries.first (carries : Carries map size place ((fnName, bytes) :: records)) (small : bytes.length < 2 ^ 32) :
    map.peek place 256 = header fnName ∧ value (map.peek (place + 256) 4) = bytes.length ∧
      map.peek (place + 260) bytes.length = bytes ∧
      Carries map size (place + (260 + bytes.length)) records := by
  have whole : stream ((fnName, bytes) :: records) = entry fnName bytes ++ stream records := rfl
  obtain ⟨written, cleared⟩ := carries
  rw [whole] at written cleared
  obtain ⟨name, word, data, behind⟩ := entry_at small written
  refine ⟨name, word, data, behind, fun x lower upper => cleared x ?_ upper⟩
  rw [List.length_append, entry_length]
  omega

/-- Behind the last entry the walk sees empty ones. -/
theorem Carries.none (carries : Carries map size place []) (inside : place + 260 ≤ size) :
    map.peek place 256 = List.replicate 256 0 ∧ value (map.peek (place + 256) 4) = 0 ∧
      Carries map size (place + 260) [] := by
  have zeros : ∀ n a, place ≤ a → a + n ≤ size → map.peek a n = List.replicate n 0 := by
    intro n a lower upper
    exact Image.peek_const fun x _ _ => carries.cleared x
      (by simp only [stream, List.flatMap_nil, List.length_nil]; omega) (by omega)
  refine ⟨zeros 256 place le_rfl (by omega), ?_, rfl, fun x lower upper => carries.cleared x ?_ upper⟩
  · rw [zeros 4 (place + 256) (by omega) (by omega)]
    rfl
  · have behind : place + 260 ≤ x := by simpa [stream] using lower
    have here : place ≤ x := by omega
    simpa [stream] using here

theorem small_of_stream {bound : Nat} (total : (stream records).length < bound) {r : Name × List UInt8}
    (inside : r ∈ records) : 260 + r.2.length < bound := by
  obtain ⟨before, after, rfl⟩ := List.append_of_mem inside
  simp only [stream, List.flatMap_append, List.flatMap_cons, List.length_append, entry_length] at total
  omega

/-- The recordings the map can hold: names fit their header, bytes their room. -/
def Fits (records : List (Name × List UInt8)) : Prop := ∀ r ∈ records, Storable r.1 ∧ r.2.length ≤ maxFile

theorem maxFile_small (small : bytes.length ≤ maxFile) : bytes.length < 2 ^ 32 :=
  small.trans_lt (by norm_num [maxFile])

theorem step_unwrapped (small : bytes.length ≤ maxFile) : (260 + bytes.length) % 2 ^ 32 = 260 + bytes.length := by
  unfold maxFile at small
  exact Nat.mod_eq_of_lt (by omega)

/-- The walk finds what was recorded for a target. -/
theorem findEntry_recorded (carries : Carries map size place records) (fits : Fits records)
    (nodup : (records.map Prod.fst).Nodup) (member : (name, bytes) ∈ records) (enough : records.length ≤ rounds) :
    ∃ found, findEntry map name rounds place = some (found, bytes.length) ∧ map.peek found bytes.length = bytes := by
  induction records generalizing place rounds with
  | nil => cases member
  | cons head rest ih =>
    obtain ⟨fnName, first⟩ := head
    obtain ⟨storable, small⟩ := fits _ (List.mem_cons_self ..)
    obtain ⟨here, word, data, behind⟩ := carries.first (maxFile_small small)
    obtain ⟨fresh, nodup⟩ := List.nodup_cons.mp nodup
    have named : Storable name := (fits _ member).1
    cases rounds with
    | zero => simp at enough
    | succ rounds =>
      simp only [findEntry, here, word, header_matches storable named.noNul]
      rcases List.mem_cons.mp member with same | later
      · cases same
        rw [if_pos rfl]
        exact ⟨_, rfl, data⟩
      · have different : fnName ≠ name := by
          rintro rfl
          exact fresh (List.mem_map.mpr ⟨_, later, rfl⟩)
        rw [if_neg different, step_unwrapped small]
        exact ih behind (fun r inside => fits r (List.mem_cons_of_mem _ inside)) nodup later (by simpa using enough)

/-- It finds nothing for the others. -/
theorem findEntry_absent (carries : Carries map size place records) (fits : Fits records) (nonempty : name ≠ [])
    (noNul : 0 ∉ name) (absent : name ∉ records.map Prod.fst) (room : place + rounds * entryRoom ≤ size) :
    findEntry map name rounds place = none := by
  induction rounds generalizing place records with
  | zero => rfl
  | succ rounds ih =>
    have step : (rounds + 1) * entryRoom = rounds * entryRoom + (260 + maxFile) := by
      rw [Nat.succ_mul]
      rfl
    cases records with
    | nil =>
      obtain ⟨here, word, behind⟩ := carries.none (by omega)
      simp only [findEntry, here, word, zeros_match_none nonempty noNul, Bool.false_eq_true, if_false]
      exact ih behind fits absent (by simp only [Nat.add_zero]; omega)
    | cons head rest =>
      obtain ⟨fnName, first⟩ := head
      obtain ⟨held, small⟩ := fits _ (List.mem_cons_self ..)
      obtain ⟨here, word, data, behind⟩ := carries.first (maxFile_small small)
      have different : fnName ≠ name := fun same => absent (by simp [same])
      simp only [findEntry, here, word, header_matches held noNul, different, if_false]
      rw [step_unwrapped small]
      exact ih behind (fun r inside => fits r (List.mem_cons_of_mem _ inside))
        (fun inside => absent (List.mem_cons_of_mem _ inside)) (by omega)

theorem headersRead_inside (carries : Carries map size place records) (fits : Fits records)
    (room : place + rounds * entryRoom ≤ size) :
    ∀ h ∈ headersRead map name rounds place, h + 260 ≤ size := by
  induction rounds generalizing place records with
  | zero => simp [headersRead]
  | succ rounds ih =>
    have step : (rounds + 1) * entryRoom = rounds * entryRoom + (260 + maxFile) := by
      rw [Nat.succ_mul]
      rfl
    have next : ∃ n records', value (map.peek (place + 256) 4) = n ∧ n ≤ maxFile ∧
        Carries map size (place + (260 + n) % 2 ^ 32) records' ∧ Fits records' := by
      cases records with
      | nil =>
        obtain ⟨_, word, behind⟩ := carries.none (by omega)
        exact ⟨0, [], word, Nat.zero_le _, behind, fits⟩
      | cons head rest =>
        obtain ⟨fnName, first⟩ := head
        obtain ⟨_, small⟩ := fits _ (List.mem_cons_self ..)
        obtain ⟨_, word, _, behind⟩ := carries.first (maxFile_small small)
        rw [← step_unwrapped small] at behind
        exact ⟨_, rest, word, small, behind, fun r inside => fits r (List.mem_cons_of_mem _ inside)⟩
    obtain ⟨n, records', word, small, behind, fits'⟩ := next
    have moved : (260 + n) % 2 ^ 32 ≤ 260 + n := Nat.mod_le _ _
    intro h member
    simp only [headersRead, word] at member
    split at member
    · obtain rfl := List.mem_singleton.mp member
      omega
    · rcases List.mem_cons.mp member with rfl | later
      · omega
      · exact ih behind fits' (by omega) h later

end Walk

/-- afl-fuzz reads back what libgen recorded: for each recorded target its bytes,
for the others nothing, from headers inside the map. -/
theorem recordings_read_back {P : Platform} {info : TypeInfo} {cfg : Config} {fuel amountOfTargets : Nat}
    {s t : Process} {records : List (Name × List UInt8)} (run : Records P info cfg fuel s records t)
    (zeroed : s.record.buffer = fun _ => 0) (start : s.record.offset = 0) (none : s.recordedFunctions = [])
    (fits : Fits records) (amount : records.length ≤ amountOfTargets) (total : (stream records).length < 2 ^ 32) :
    (∀ r ∈ records, targetData t.record.buffer amountOfTargets r.1 = some r.2) ∧
    (∀ name, name ≠ [] → 0 ∉ name → name ∉ records.map Prod.fst →
      targetData t.record.buffer amountOfTargets name = Option.none) ∧
    ∀ name, ∀ h ∈ headersRead t.record.buffer name amountOfTargets 0,
      h + (256 + 4) ≤ (256 + 4 + maxFile) * amountOfTargets := by
  obtain ⟨_, filled, _, nodup⟩ := run.stream_written start none total
  have carries : Carries t.record.buffer ((256 + 4 + maxFile) * amountOfTargets) 0 records := by
    rw [filled, zeroed]
    refine ⟨Image.peek_poke _ _ _, fun x lower _ => ?_⟩
    rw [Image.poke_outside _ _ (.inr lower)]
  have room : 0 + amountOfTargets * entryRoom ≤ (256 + 4 + maxFile) * amountOfTargets := by
    rw [Nat.zero_add, Nat.mul_comm]
    exact le_rfl
  refine ⟨?_, ?_, fun name => headersRead_inside carries fits room⟩
  · rintro ⟨name, bytes⟩ member
    obtain ⟨found, entry, data⟩ := findEntry_recorded carries fits nodup member amount
    simp only [targetData, entry, Option.map_some, data]
  · intro name nonempty noNul absent
    simp only [targetData, findEntry_absent carries fits nonempty noNul absent room, Option.map_none]

/-- Every target takes one 32-bit integer. -/
def oneIntInfo : TypeInfo where
  structs := fun _ => ⟨0, []⟩
  argTypes := fun _ => [.integer 32]
  inside := noFields_inside
  separate := noFields_separate
  fields_sized := noFields_sized
  args_sized := by simp [Sized]

/-- A host whose argument slot at address 16 holds this integer. -/
def intHost (byte : UInt8) : Heap := ⟨Image.poke (fun _ => 0) 16 [byte, 0, 0, 0], fun x => decide (x < 32), [], []⟩

theorem seven_and_nine_recorded : ∃ t, Records (bumpPlatform 64 [0]) oneIntInfo (recordingUnder []) 1 freshProcess
    [(ascii "f", [7, 0, 0, 0]), (ascii "g", [9, 0, 0, 0])] t := by
  have outcome : (genValues (bumpPlatform 64 [0]) oneIntInfo (recordingUnder []) 1 (fun _ => 0) 0 (ascii "f") [16]
      { freshProcess with heap := intHost 7 } >>= fun u =>
        (genValues (bumpPlatform 64 [0]) oneIntInfo (recordingUnder []) 1 (fun _ => 0) 0 (ascii "g") [16]
          { u with heap := intHost 9 }).map fun v =>
            (shouldRecord (recordingUnder []) (ascii "g") { u with heap := intHost 9 }, u.record.failed,
              u.record.written, v.record.failed, v.record.written)) =
      .ok (true, false, [7, 0, 0, 0], false, [9, 0, 0, 0]) := by decide +kernel
  obtain ⟨u, first, rest⟩ := Control.bind_eq_ok.mp outcome
  obtain ⟨v, second, shown⟩ := Control.map_eq_ok.mp rest
  simp only [Prod.mk.injEq] at shown
  obtain ⟨chosen, success, written, success', written'⟩ := shown
  have run := Records.record .start (by decide +kernel) first success
  have run := Records.record run chosen second success'
  rw [written, written'] at run
  exact ⟨v, run⟩

/-- The entry of `g` stands behind the one of `f`. -/
theorem seven_and_nine_read_back : ∃ t, Records (bumpPlatform 64 [0]) oneIntInfo (recordingUnder []) 1 freshProcess
      [(ascii "f", [7, 0, 0, 0]), (ascii "g", [9, 0, 0, 0])] t ∧
    (∀ r ∈ [(ascii "f", [7, 0, 0, 0]), (ascii "g", [9, 0, 0, 0])], targetData t.record.buffer 3 r.1 = some r.2) ∧
    (∀ name, name ≠ [] → 0 ∉ name →
      name ∉ [(ascii "f", [(7 : UInt8), 0, 0, 0]), (ascii "g", [9, 0, 0, 0])].map Prod.fst →
      targetData t.record.buffer 3 name = none) ∧
    ∀ name, ∀ h ∈ headersRead t.record.buffer name 3 0, h + (256 + 4) ≤ (256 + 4 + maxFile) * 3 := by
  obtain ⟨t, run⟩ := seven_and_nine_recorded
  have fits : Fits [(ascii "f", [7, 0, 0, 0]), (ascii "g", [9, 0, 0, 0])] := by
    intro r member
    refine ⟨⟨?_, ?_, ?_⟩, ?_⟩ <;> fin_cases member <;> decide +kernel
  exact ⟨t, run, recordings_read_back run rfl rfl rfl fits (by decide) (by decide +kernel)⟩

end AflLive.Fuzz
