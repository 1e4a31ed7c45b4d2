import AflLive.Fuzz.Rollback

/-! Which target a crash is put down to. The walk of `get_seeds_from_runtime` sees
the argument map only: the stream of the finished recordings and, behind it, the
header of the one in progress or nothing at all. -/
namespace AflLive.Fuzz
open Bytes Control Libgen

/-- One round of the retry loop: the number of targets and the blacklist it goes on with.
Without an entry to blame it leaves both alone and gives up. -/
def crashRound (amountOfTargets : Nat) (blacklist : Name) (map : Image) : Option (Nat × Name) :=
  (firstUnfinished map amountOfTargets 0).map fun place =>
    (amountOfTargets - 1, blacklist ++ delimitedName (entryName map place))

theorem recordRuns_crash {amountOfTargets : Nat} {blacklist : Name} {map : Image} {run : Run} {rest : List Run}
    (crashed : run.result = .crash) :
    recordRuns amountOfTargets blacklist map (run :: rest) =
      match crashRound amountOfTargets blacklist (map.poke 0 run.written) with
      | none => .error .crashed
      | some (amount, names) => recordRuns amount names (clearMap (map.poke 0 run.written) amount) rest := by
  simp only [recordRuns, crashed, crashRound]
  cases firstUnfinished (map.poke 0 run.written) amountOfTargets 0 with
  | none => rfl
  | some place => rfl

/-- The calls of a process that records. `allowed` says what a failed recording may leave. -/
inductive Session (allowed : Process → Process → Prop) (P : Platform) (info : TypeInfo) (cfg : Config) (fuel : Nat)
    (s : Process) : List (Name × List UInt8) → Process → Prop
  | start : Session allowed P info cfg fuel s [] s
  | record {records : List (Name × List UInt8)} {t u : Process} {h : Heap} {buffer : Image} {bufferSize : Nat}
      {fnName : Name} {slots : List Nat} (before : Session allowed P info cfg fuel s records t)
      (chosen : shouldRecord cfg fnName { t with heap := h } = true)
      (returned : genValues P info cfg fuel buffer bufferSize fnName slots { t with heap := h } = .ok u)
      (success : u.record.failed = false) :
      Session allowed P info cfg fuel s (records ++ [(fnName, u.record.written)]) u
  | fail {records : List (Name × List UInt8)} {t u : Process} {h : Heap} {buffer : Image} {bufferSize : Nat}
      {fnName : Name} {slots : List Nat} (before : Session allowed P info cfg fuel s records t)
      (chosen : shouldRecord cfg fnName { t with heap := h } = true)
      (returned : genValues P info cfg fuel buffer bufferSize fnName slots { t with heap := h } = .ok u)
      (failed : u.record.failed = true) (left : allowed { t with heap := h } u) :
      Session allowed P info cfg fuel s records u
  | other {records : List (Name × List UInt8)} {t u : Process} {h : Heap} {buffer : Image} {bufferSize : Nat}
      {fnName : Name} {slots : List Nat} (before : Session allowed P info cfg fuel s records t)
      (noRecord : shouldRecord cfg fnName { t with heap := h } = false)
      (noFuzz : shouldFuzz cfg fnName { t with heap := h } = false)
      (returned : genValues P info cfg fuel buffer bufferSize fnName slots { t with heap := h } = .ok u) :
      Session allowed P info cfg fuel s records u

/-- Where the host crashes: between two recordings, or in one after some of its writes. -/
inductive Crash where
  | idle
  | recording (fnName : Name) (chunks : List (List UInt8))

namespace Crash

/-- The name whose recording was in progress. -/
def culprit : Crash → Option Name
  | .idle => none
  | .recording fnName _ => some fnName

/-- How many bytes stand behind the last finished entry. -/
def length : Crash → Nat
  | .idle => 0
  | .recording _ chunks => 260 + chunks.flatten.length

/-- The argument map as afl-fuzz finds it. -/
def map (t : Process) : Crash → Image
  | .idle => t.record.buffer
  | .recording fnName chunks =>
    let begun := (startRecord fnName t).record
    ({ begun with offset := (begun.offset + 4) % 2 ^ 32 }.emits chunks).buffer

end Crash

/-- The blacklist grows by the culprit and one target goes, or nothing happens if there is none. -/
def Identified (amountOfTargets : Nat) (blacklist : Name) (map : Image) (culprit : Option Name) : Prop :=
  crashRound amountOfTargets blacklist map =
    culprit.map fun name => (amountOfTargets - 1, blacklist ++ delimitedName name)

/-- Without failures a session is a sequence of recordings. -/
theorem Session.of_records {P : Platform} {info : TypeInfo} {cfg : Config} {fuel : Nat} {s t : Process}
    {records : List (Name × List UInt8)} {allowed : Process → Process → Prop}
    (run : Records P info cfg fuel s records t) : Session allowed P info cfg fuel s records t := by
  induction run with
  | start => exact .start
  | record before chosen returned success ih => exact .record ih chosen returned success
  | other before noRecord noFuzz returned ih => exact .other ih noRecord noFuzz returned

/-- The name in a header, as it is read back. -/
def shown (fnName : Name) : Name := (header fnName).takeWhile (· ≠ 0)

section Names

theorem shown_eq (fnName : Name) : shown fnName = (fnName.take 255).takeWhile (· ≠ 0) := by
  unfold shown header
  rw [List.takeWhile_append]
  split
  · have zeros : (List.replicate (256 - (fnName.take 255).length) (0 : UInt8)).takeWhile (· ≠ 0) = [] := by
      cases 256 - (fnName.take 255).length <;> simp [List.replicate_succ]
    rename_i whole
    rw [zeros, List.append_nil]
    exact ((List.takeWhile_prefix _).eq_of_length whole).symm
  · rfl

/-- A name comes back from its header if it is a C string that fits. -/
theorem shown_eq_self_iff {fnName : Name} : shown fnName = fnName ↔ 0 ∉ fnName ∧ fnName.length ≤ 255 := by
  rw [shown_eq]
  constructor
  · intro same
    have short := congrArg List.length same
    have cut := (List.takeWhile_prefix (l := fnName.take 255) (· ≠ 0)).length_le
    rw [List.length_take] at cut
    have fits : fnName.length ≤ 255 := by omega
    refine ⟨fun zero => ?_, fits⟩
    rw [List.take_of_length_le fits, List.takeWhile_eq_self_iff] at same
    simpa using same 0 zero
  · rintro ⟨noNul, fits⟩
    rw [List.take_of_length_le fits, List.takeWhile_eq_self_iff]
    exact fun x member => by simpa using fun zero : x = 0 => noNul (zero ▸ member)

theorem entryName_eq {map : Image} {place : Nat} {fnName : Name} (here : map.peek place 256 = header fnName) :
    entryName map place = shown fnName := by
  rw [entryName, here, shown]

theorem delimitedName_inj {blacklist a b : Name} :
    blacklist ++ delimitedName a = blacklist ++ delimitedName b ↔ a = b := by
  simp [delimitedName]

end Names

section Walk
variable {amount : Nat} {blacklist name : Name} {map : Image} {culprit : Option Name}
  {records : List (Name × List UInt8)}

theorem identified_found {place : Nat} (found : firstUnfinished map amount 0 = some place)
    (here : map.peek place 256 = header name) :
    Identified amount blacklist map culprit ↔ culprit = some (shown name) := by
  unfold Identified crashRound
  rw [found, Option.map_some, entryName_eq here]
  cases culprit with
  | none => simp
  | some other =>
    simp only [Option.map_some, Option.some.injEq, Prod.mk.injEq, true_and, delimitedName_inj]
    exact eq_comm

theorem identified_none (none : firstUnfinished map amount 0 = none) :
    Identified amount blacklist map culprit ↔ culprit = Option.none := by
  unfold Identified crashRound
  rw [none, Option.map_none, eq_comm, Option.map_eq_none_iff]

/-- The walk stops at an empty recording. -/
theorem identified_at_empty {r : Name × List UInt8} (small : ∀ r ∈ records, 260 + r.2.length < 2 ^ 32)
    (still : map.peek 0 (stream records).length = stream records)
    (first : (records.take amount).find? (·.2.isEmpty) = some r) :
    Identified amount blacklist map culprit ↔ culprit = some (shown r.1) := by
  obtain ⟨fnName, bytes⟩ := r
  obtain ⟨empty, before, after, split, filled⟩ := List.find?_eq_some_iff_append.mp first
  obtain rfl : bytes = [] := by simpa using empty
  have whole : stream records =
      stream before ++ (header fnName ++ (number 4 0 ++ (stream after ++ stream (records.drop amount)))) := by
    have joined := congrArg stream (List.take_append_drop amount records)
    rw [split] at joined
    rw [← joined]
    simp [stream, entry]
  rw [whole] at still
  have inside : ∀ r ∈ before, r ∈ records := fun r member =>
    List.mem_of_mem_take (i := amount) (by rw [split]; simp [member])
  have enough := congrArg List.length split
  rw [List.length_take, List.length_append, List.length_cons] at enough
  obtain ⟨place, found, here⟩ := firstUnfinished_empty (fun r member => small r (inside r member))
    (fun r member => by simpa using filled r member) still (show before.length < amount by omega)
  exact identified_found found here

/-- With as many finished recordings as it looks at, the walk finds nobody. -/
theorem identified_behind (small : ∀ r ∈ records, 260 + r.2.length < 2 ^ 32)
    (still : map.peek 0 (stream records).length = stream records) (filled : ∀ r ∈ records.take amount, r.2 ≠ [])
    (many : amount ≤ records.length) : Identified amount blacklist map culprit ↔ culprit = none := by
  have part : stream records = stream (records.take amount) ++ stream (records.drop amount) := by
    rw [stream, stream, stream, ← List.flatMap_append, List.take_append_drop]
  rw [part] at still
  have count : (records.take amount).length + 0 = amount := by
    rw [List.length_take]
    omega
  have ends := @firstUnfinished_filled _ _ _ 0 (fun r inside => small r (List.mem_of_mem_take inside)) filled
    (Image.peek_append still).1
  rw [count] at ends
  exact identified_none ends

end Walk

section Session
variable {P : Platform} {info : TypeInfo} {cfg : Config} {fuel : Nat} {s t : Process}
  {records : List (Name × List UInt8)} {amount : Nat}

/-- As long as failed recordings are rolled back, the map holds the stream of the finished ones. -/
theorem Session.stream_written (session : Session RolledBack P info cfg fuel s records t) (start : s.record.offset = 0)
    (total : (stream records).length < 2 ^ 32) :
    t.record.offset = (stream records).length ∧ t.record.buffer = s.record.buffer.poke 0 (stream records) := by
  induction session with
  | start => simpa [stream] using start
  | @record records t u h buffer bufferSize fnName slots before chosen returned success ih =>
    have room := total
    rw [stream_append, List.length_append, entry_length] at room
    obtain ⟨offset, filled⟩ := ih (by omega)
    obtain ⟨-, offset', filled'⟩ := genValues_streams chosen returned success offset filled total
    exact ⟨offset', filled'⟩
  | fail before chosen returned failed left ih =>
    obtain ⟨offset, filled⟩ := ih total
    exact ⟨left.2.trans offset, left.1.trans filled⟩
  | other before noRecord noFuzz returned ih =>
    rw [(genValues_passes noRecord noFuzz returned).1]
    exact ih total

/-- Every call that records comes through such a state: what its extraction round leaves is the
map of a crash after all of its writes. -/
theorem Crash.recording_reached {buffer : Image} {bufferSize : Nat} {fnName : Name} {slots : List Nat}
    (chosen : shouldRecord cfg fnName s = true)
    (returned : genValues P info cfg fuel buffer bufferSize fnName slots s = .ok t) :
    ∃ setup u r chunks, recordRound P info.structs (info.argTypes fnName) setup fuel s.heap u = .ok r ∧
      u.buffer = s.record.buffer.poke s.record.offset (header fnName) ∧
      r.buffer = (Crash.recording fnName chunks).map s := by
  obtain ⟨setup, r, _, round, _⟩ := genValues_settles chosen returned
  obtain ⟨chunks, written⟩ := (recordRound_grows _ _ _ _ _).result round
  refine ⟨setup, _, r, chunks, round, rfl, ?_⟩
  rw [written]
  refine Recording.emits_congr chunks rfl ?_
  simp only [startRecord]
  omega

/-- The header and the bytes of the recording in progress; its length word is left as it was. -/
theorem Crash.recording_map {fnName : Name} {chunks : List (List UInt8)}
    (room : t.record.offset + (Crash.recording fnName chunks).length < 2 ^ 32) :
    (Crash.recording fnName chunks).map t =
      (t.record.buffer.poke t.record.offset (header fnName)).poke (t.record.offset + 260) chunks.flatten := by
  simp only [Crash.length] at room
  have place : ((t.record.offset + 256) % 2 ^ 32 + 4) % 2 ^ 32 = t.record.offset + 260 := by omega
  simp only [Crash.map, startRecord, place]
  exact (Recording.emits_appends chunks (show t.record.offset + 260 < 2 ^ 32 by omega)).2.2 (by simp only; omega)

/-- A crash changes the map behind the finished entries only. -/
theorem Crash.map_behind {crash : Crash} (room : t.record.offset + crash.length < 2 ^ 32) {x : Nat}
    (below : x < t.record.offset) : crash.map t x = t.record.buffer x := by
  cases crash with
  | idle => rfl
  | recording fnName chunks =>
    rw [Crash.recording_map room, Image.poke_outside _ _ (.inl (by omega)), Image.poke_outside _ _ (.inl below)]

/-- Over a cleared map the walk reads an entry without a length behind the finished ones. Outside
a recording it carries the empty name. -/
theorem Crash.map_next {crash : Crash} (room : t.record.offset + crash.length < 2 ^ 32)
    (zero : ∀ x, t.record.offset ≤ x → x < t.record.offset + 260 → t.record.buffer x = 0) :
    (crash.map t).peek t.record.offset 260 = header (crash.culprit.getD []) ++ number 4 0 := by
  rw [show 260 = 256 + 4 from rfl, Image.peek_add]
  cases crash with
  | idle =>
    refine congrArg₂ (· ++ ·) ?_ ?_
    · exact Image.peek_const fun x lower upper => zero x lower (by omega)
    · exact Image.peek_const fun x lower upper => zero x (by omega) (by omega)
  | recording fnName chunks =>
    rw [Crash.recording_map room]
    refine congrArg₂ (· ++ ·) ?_ ?_
    · have there := Image.peek_poke t.record.buffer t.record.offset (header fnName)
      rw [header_length] at there
      refine (Image.peek_congr fun x _ upper => ?_).trans there
      exact Image.poke_outside _ _ (.inl (by omega))
    · refine Image.peek_const fun x lower upper => ?_
      rw [Image.poke_outside _ _ (.inl (by omega)), Image.poke_outside _ _ (.inr (by simpa using lower))]
      exact zero x (by omega) (by omega)

/-- Which entry the walk stops at: the first empty one among the finished recordings it comes to,
else the one behind them, if it gets that far. -/
theorem Crash.identified_map_iff {crash : Crash} {blacklist : Name} (room : t.record.offset + crash.length < 2 ^ 32)
    (offset : t.record.offset = (stream records).length)
    (written : t.record.buffer.peek 0 (stream records).length = stream records)
    (cleared : records.length < amount → ∀ x, t.record.offset ≤ x → x < t.record.offset + 260 → t.record.buffer x = 0) :
    Identified amount blacklist (crash.map t) crash.culprit ↔
      match (records.take amount).find? (·.2.isEmpty) with
      | some r => crash.culprit = some (shown r.1)
      | none => if records.length < amount then crash.culprit = some (shown (crash.culprit.getD []))
        else crash.culprit = none := by
  have small : ∀ r ∈ records, 260 + r.2.length < 2 ^ 32 := fun r inside => small_of_stream (by omega) inside
  have still : (crash.map t).peek 0 (stream records).length = stream records :=
    (Image.peek_congr fun x _ upper => Crash.map_behind room (by omega)).trans written
  cases first : (records.take amount).find? (·.2.isEmpty) with
  | some r => exact identified_at_empty small still first
  | none =>
    have filled : ∀ r ∈ records.take amount, r.2 ≠ [] := fun r inside => by
      simpa using List.find?_eq_none.mp first r inside
    by_cases reaches : records.length < amount
    · rw [List.take_of_length_le (by omega)] at filled
      have next := Crash.map_next room (cleared reaches)
      have whole : (crash.map t).peek 0
          (stream records ++ (header (crash.culprit.getD []) ++ (number 4 0 ++ []))).length =
          stream records ++ (header (crash.culprit.getD []) ++ (number 4 0 ++ [])) := by
        rw [List.length_append, Image.peek_add, still, Nat.zero_add, ← offset]
        simpa using next
      obtain ⟨place, found, here⟩ := firstUnfinished_empty small filled whole reaches
      simp only [reaches, if_true]
      exact identified_found found here
    · simp only [reaches, if_false]
      exact identified_behind small still filled (Nat.le_of_not_lt reaches)

/-- The crash is put down to the recording in progress exactly if no finished recording the walk
comes to was empty and, with one in progress, the walk gets that far and its name fits the header;
with none in progress, the walk ends before the unused part of the map. An empty recording is
harmless only if its name, cut off in the header, reads as the one in progress. -/
theorem culprit_identified_iff (session : Session RolledBack P info cfg fuel s records t) (start : s.record.offset = 0)
    (blacklist : Name) (crash : Crash) (total : (stream records).length + crash.length < 2 ^ 32)
    (cleared : records.length < amount → ∀ x < (stream records).length + 260, s.record.buffer x = 0) :
    Identified amount blacklist (crash.map t) crash.culprit ↔
      match (records.take amount).find? (·.2.isEmpty), crash with
      | some r, _ => crash.culprit = some (shown r.1)
      | none, .idle => amount ≤ records.length
      | none, .recording fnName _ => records.length < amount ∧ 0 ∉ fnName ∧ fnName.length ≤ 255 := by
  obtain ⟨offset, filled⟩ := session.stream_written start (by omega)
  have written : t.record.buffer.peek 0 (stream records).length = stream records := by
    rw [filled]
    exact Image.peek_poke _ _ _
  have zero : records.length < amount →
      ∀ x, t.record.offset ≤ x → x < t.record.offset + 260 → t.record.buffer x = 0 := by
    intro reaches x lower upper
    rw [filled, Image.poke_outside _ _ (.inr (by omega))]
    exact cleared reaches x (by omega)
  rw [Crash.identified_map_iff (by omega) offset written zero]
  cases (records.take amount).find? (·.2.isEmpty) with
  | some r => rfl
  | none =>
    cases crash with
    | idle => simp [Crash.culprit]
    | recording fnName chunks =>
      simp only [Crash.culprit, Option.getD_some, Option.some.injEq]
      rw [← shown_eq_self_iff, eq_comm]
      by_cases reaches : records.length < amount <;> simp [reaches]

end Session

/-- `f` and `g` are on record with four bytes each; the crash comes while `h` is recorded. -/
theorem crash_in_third_recording_identified :
    ∃ t, Session RolledBack (bumpPlatform 64 [0]) oneIntInfo (recordingUnder []) 1 freshProcess
        [(ascii "f", [7, 0, 0, 0]), (ascii "g", [9, 0, 0, 0])] t ∧
      Identified 3 [] ((Crash.recording (ascii "h") []).map t) (some (ascii "h")) := by
  obtain ⟨t, run⟩ := seven_and_nine_recorded
  have session : Session RolledBack _ _ _ _ _ _ t := .of_records run
  refine ⟨t, session, ?_⟩
  have total : (stream [(ascii "f", [7, 0, 0, 0]), (ascii "g", [9, 0, 0, 0])]).length +
      (Crash.recording (ascii "h") []).length < 2 ^ 32 := by
    decide +kernel
  refine (culprit_identified_iff session rfl [] (.recording (ascii "h") []) total fun _ _ _ => rfl).mpr ?_
  exact ⟨by decide, by decide +kernel, by decide +kernel⟩

/-- Targets without arguments. -/
def noArgsInfo : TypeInfo := flatInfo [] (by simp)

/-- Behind a finished empty recording of `f`, a crash in that of `g` is put down to `f`. A crash
before anything was recorded is put down to a target without a name. -/
theorem empty_recording_and_unused_map_blamed :
    (∃ t, Session RolledBack (bumpPlatform 64 []) noArgsInfo (recordingUnder []) 1 freshProcess [(ascii "f", [])] t ∧
      crashRound 2 [] ((Crash.recording (ascii "g") []).map t) = some (1, ascii ":f:")) ∧
    Session RolledBack (bumpPlatform 64 []) noArgsInfo (recordingUnder []) 1 freshProcess [] freshProcess ∧
      crashRound 2 [] (Crash.idle.map freshProcess) = some (1, ascii "::") := by
  refine ⟨?_, .start, by decide +kernel⟩
  have outcome : (genValues (bumpPlatform 64 []) noArgsInfo (recordingUnder []) 1 (fun _ => 0) 0 (ascii "f") []
      freshProcess).map (fun u => (u.record.failed, u.record.written,
        crashRound 2 [] ((Crash.recording (ascii "g") []).map u))) = .ok (false, [], some (1, ascii ":f:")) := by
    decide +kernel
  obtain ⟨u, returned, shown⟩ := map_eq_ok.mp outcome
  obtain ⟨success, rest⟩ := Prod.mk.inj shown
  obtain ⟨written, round⟩ := Prod.mk.inj rest
  have chosen : shouldRecord (recordingUnder []) (ascii "f") freshProcess = true := by decide +kernel
  have session : Session RolledBack _ _ _ _ freshProcess _ u :=
    .record (h := freshProcess.heap) .start chosen returned success
  rw [written] at session
  exact ⟨u, session, round⟩

end AflLive.Fuzz
