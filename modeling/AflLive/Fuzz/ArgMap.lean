import AflLive.Fuzz.Rollback
import AflLive.Library.Footprint
import AflLive.Library.Runs

/-! The argument map as shared memory: where a recording process writes, against the length of the
mapping that `init_arg_feedback_channel` asks for. -/
namespace AflLive.Fuzz
open Bytes Control Libgen

/-- `MAX_TARGETNAME_LENGTH`, a length word and `MAX_FILE` for each target, as a `u64`. -/
def mapLen (amountOfTargets : Nat) : Nat := (256 + 4 + maxFile) * amountOfTargets % 2 ^ 64

/-- A call of an instrumented function, and the host's memory at that time. -/
structure Invocation where
  heap : Heap
  buffer : Image
  bufferSize : Nat
  fnName : Name
  slots : List Nat

/-- A recording process and the records it has written. -/
structure Progress where
  process : Process
  records : List (Name × List UInt8)

/-- The bytes of the records, as a number of any size. -/
def Progress.size (s : Progress) : Nat := (s.records.map fun r => 256 + 4 + r.2.length).sum

/-- `gen_init` leaves nothing recorded and `ahArgOffset` at zero. -/
def Progress.start (s : Process) : Progress :=
  ⟨{ s with record := { s.record with offset := 0 }, recordedFunctions := [] }, []⟩

/-- A process over another map. -/
def onMap (s : Process) (m : Image) : Process := { s with record := { s.record with buffer := m } }

section Model
variable (P : Platform) (info : TypeInfo) (cfg : Config) (fuel : Nat)

def Invocation.enter (c : Invocation) (s : Process) : Except Fault Process :=
  genValues P info cfg fuel c.buffer c.bufferSize c.fnName c.slots { s with heap := c.heap }

/-- The extraction round of a recording. -/
def Invocation.extract (c : Invocation) (s : Process) : Except Fault Recording := do
  let setup ← setupArgs (info.argTypes c.fnName) c.slots (constraintsFor cfg c.fnName) c.heap
  recordRound P info.structs (info.argTypes c.fnName) setup fuel c.heap
    ⟨s.record.buffer.poke s.record.offset (header c.fnName), (s.record.offset + 260) % 2 ^ 32, false, []⟩

/-- Whether a call can change a place of the map. -/
def Invocation.Writes (c : Invocation) (s : Process) (x : Nat) : Prop :=
  ∃ m t, c.enter P info cfg fuel (onMap s m) = .ok t ∧ t.record.buffer x ≠ m x

/-- The calls of a process that records; it does not fuzz. -/
def Progress.step (s : Progress) (c : Invocation) : Option Progress :=
  if shouldFuzz cfg c.fnName s.process then none
  else
    match c.enter P info cfg fuel s.process with
    | .error _ => none
    | .ok t =>
      let done := shouldRecord cfg c.fnName s.process && !t.record.failed
      some ⟨t, if done then s.records ++ [(c.fnName, t.record.written)] else s.records⟩

/-- The offset is the exact sum of the sizes, at the end of the extraction round and of the
call, and the call writes inside the mapping. -/
def Progress.Inside (amountOfTargets : Nat) (s : Progress) (c : Invocation) : Prop :=
  ∀ t ∈ s.step P info cfg fuel c, t.process.record.offset = t.size ∧
    (shouldRecord cfg c.fnName s.process = true →
      (∀ r, c.extract P info cfg fuel s.process = .ok r → r.offset = s.size + 256 + 4 + r.written.length) ∧
      ∀ x, c.Writes P info cfg fuel s.process x → x < mapLen amountOfTargets)

/-- The records so far and what the host's arguments add to them have room, in the mapping and in 32
bits, if the call returns. Of a failed recording without a byte only the header counts. -/
def Progress.Fits (amountOfTargets : Nat) (s : Progress) (c : Invocation) : Prop :=
  (s.step P info cfg fuel c).isSome → shouldRecord cfg c.fnName s.process = true →
    ∀ bytes failed, serializedArgs P info cfg fuel c.fnName c.slots c.heap = .ok (bytes, failed) →
      s.size + 256 + 4 + bytes.length < 2 ^ 32 ∧
      s.size + 256 + (if failed ∧ bytes = [] then 0 else 4 + bytes.length) ≤ mapLen amountOfTargets

end Model

section Attempt
variable {P : Platform} {info : TypeInfo} {cfg : Config} {fuel : Nat} {c : Invocation} {s t : Process}

/-- What an extraction round leaves over a map. -/
def rounded (m : Image) (offset : Nat) (fnName : Name) (out : List (List UInt8) × Bool) : Recording :=
  Recording.extend ⟨m.poke offset (header fnName), (offset + 260) % 2 ^ 32, false, []⟩ out

theorem countCall_onMap (fnName : Name) (m : Image) :
    countCall cfg fnName (onMap s m) = (countCall cfg fnName s).map (onMap · m) := by
  unfold countCall
  by_cases fuzzes : s.inFuzz = true
  · rw [if_pos fuzzes, if_pos (show (onMap s m).inFuzz = true from fuzzes)]
    dsimp only
    by_cases stops : cfg.exitOnMaxCalls = true ∧
        cfg.maxCalls < if cfg.exitOnMaxCalls = true then (s.currentCalls + 1) % 2 ^ 32 else s.currentCalls
    · rw [if_pos stops, if_pos (by exact stops)]
      rfl
    · rw [if_neg stops, if_neg (by exact stops)]
      rfl
  · rw [if_neg fuzzes, if_neg (show ¬(onMap s m).inFuzz = true from fuzzes)]
    rfl

theorem enter_recording (chosen : shouldRecord cfg c.fnName s = true) : c.enter P info cfg fuel s = do
    let u ← countCall cfg c.fnName { s with heap := c.heap }
    let r ← c.extract P info cfg fuel s
    return { u with
      shadowName := some c.fnName
      recordedFunctions := c.fnName :: u.recordedFunctions
      record := r.settle ((s.record.offset + 256) % 2 ^ 32) } := by
  have recording := @genValues_recording P info cfg fuel c.buffer c.bufferSize c.fnName c.slots
    { s with heap := c.heap }
  simp only [Invocation.enter, Invocation.extract, recording chosen, bind_assoc]

/-- An extraction round writes the same over every map. -/
theorem extract_onMap (P : Platform) (info : TypeInfo) (cfg : Config) (fuel : Nat) (c : Invocation) (s : Process) :
    ∃ out : Except Fault _, ∀ m,
      c.extract P info cfg fuel (onMap s m) = out.map (rounded m s.record.offset c.fnName) := by
  unfold Invocation.extract
  cases setupArgs (info.argTypes c.fnName) c.slots (constraintsFor cfg c.fnName) c.heap with
  | error e => exact ⟨.error e, fun _ => rfl⟩
  | ok setup =>
    obtain ⟨out, writes⟩ := @recordRound_emits P fuel info.structs (info.argTypes c.fnName) setup c.heap
    exact ⟨out, fun m => writes _⟩

/-- And so does a recorded call. -/
theorem enter_onMap (chosen : shouldRecord cfg c.fnName s = true) (returned : c.enter P info cfg fuel s = .ok t) :
    ∃ out, c.extract P info cfg fuel s = .ok (rounded s.record.buffer s.record.offset c.fnName out) ∧
      t.recordedFunctions = c.fnName :: s.recordedFunctions ∧
      t.record = (rounded s.record.buffer s.record.offset c.fnName out).settle ((s.record.offset + 256) % 2 ^ 32) ∧
      ∀ m, ∃ u, c.enter P info cfg fuel (onMap s m) = .ok u ∧
        u.record = (rounded m s.record.offset c.fnName out).settle ((s.record.offset + 256) % 2 ^ 32) := by
  rw [enter_recording chosen] at returned
  obtain ⟨u, counted, rest⟩ := bind_eq_ok.mp returned
  obtain ⟨r, extracted, rest⟩ := bind_eq_ok.mp rest
  obtain ⟨out, writes⟩ := extract_onMap P info cfg fuel c s
  have own : c.extract P info cfg fuel s = out.map (rounded s.record.buffer s.record.offset c.fnName) :=
    writes s.record.buffer
  rw [own] at extracted
  cases out with
  | error e => cases extracted
  | ok out =>
    cases extracted
    cases rest
    obtain ⟨_, _, recorded, _⟩ := (countCall_ensures cfg c.fnName { s with heap := c.heap }).result counted
    refine ⟨out, own, congrArg (c.fnName :: ·) recorded, rfl, fun m => ?_⟩
    have counted' : countCall cfg c.fnName { onMap s m with heap := c.heap } = .ok (onMap u m) := by
      have moved := @countCall_onMap cfg { s with heap := c.heap } c.fnName m
      rw [counted] at moved
      exact moved
    have chosen' : shouldRecord cfg c.fnName (onMap s m) = true := chosen
    rw [enter_recording chosen', counted', ok_bind, writes]
    exact ⟨_, rfl, rfl⟩

end Attempt

section Places
variable {m : Image} {offset : Nat} {fnName : Name} {out : List (List UInt8) × Bool}

/-- The offset behind the bytes, the bytes, and, without a wrap, where they stand. -/
theorem rounded_appends (m : Image) (offset : Nat) (fnName : Name) (out : List (List UInt8) × Bool) :
    (rounded m offset fnName out).written = out.1.flatten ∧ (rounded m offset fnName out).failed = out.2 ∧
      (rounded m offset fnName out).offset = (offset + 256 + 4 + out.1.flatten.length) % 2 ^ 32 ∧
      (offset + 256 + 4 + out.1.flatten.length < 2 ^ 32 → (rounded m offset fnName out).buffer =
        (m.poke offset (header fnName)).poke (offset + 256 + 4) out.1.flatten) := by
  have start : (offset + 260) % 2 ^ 32 < 2 ^ 32 := Nat.mod_lt _ (by norm_num)
  obtain ⟨written, place, filled⟩ := Recording.emits_appends
    (r := ⟨m.poke offset (header fnName), (offset + 260) % 2 ^ 32, false, []⟩) out.1 start
  refine ⟨written, Bool.or_false _, ?_, fun room => ?_⟩
  · have there : (rounded m offset fnName out).offset =
        ((offset + 260) % 2 ^ 32 + out.1.flatten.length) % 2 ^ 32 := place
    omega
  · have behind : (offset + 260) % 2 ^ 32 = offset + 256 + 4 := Nat.mod_eq_of_lt (by omega)
    have there : (rounded m offset fnName out).buffer =
        (m.poke offset (header fnName)).poke ((offset + 260) % 2 ^ 32) out.1.flatten := filled (by simp only; omega)
    rw [there, behind]

theorem settled_offset (small : offset < 2 ^ 32) :
    ((rounded m offset fnName out).settle ((offset + 256) % 2 ^ 32)).offset =
      if out.2 then offset else (offset + 256 + 4 + out.1.flatten.length) % 2 ^ 32 := by
  obtain ⟨_, failed, place, _⟩ := rounded_appends m offset fnName out
  cases flag : out.2 with
  | true =>
    rw [Recording.settle_of_failed (failed.trans flag), Recording.takeBackHeader, takeBack_header small, if_pos rfl]
  | false => rw [Recording.settle_of_success (failed.trans flag), place, if_neg Bool.false_ne_true]

/-- Where a finished recording stands: header, length word and bytes. -/
theorem overwrites_success (success : out.2 = false) (room : offset + 256 + 4 + out.1.flatten.length < 2 ^ 32) :
    Image.Overwrites (fun m => ((rounded m offset fnName out).settle ((offset + 256) % 2 ^ 32)).buffer)
      (Set.Ico offset (offset + 256 + 4 + out.1.flatten.length)) := by
  have entered : ∀ m, ((rounded m offset fnName out).settle ((offset + 256) % 2 ^ 32)).buffer =
      m.poke offset (entry fnName out.1.flatten) := by
    intro m
    obtain ⟨_, failed, place, filled⟩ := rounded_appends m offset fnName out
    have previous : (offset + 256) % 2 ^ 32 = offset + 256 := Nat.mod_eq_of_lt (by omega)
    rw [Nat.mod_eq_of_lt room] at place
    rw [Recording.settle_of_success (failed.trans success), previous]
    simp only [place, takeBack_add room]
    rw [filled room, poke_entry]
  have length : offset + (entry fnName out.1.flatten).length = offset + 256 + 4 + out.1.flatten.length := by
    rw [entry_length]
    omega
  simp only [entered, ← length]
  exact Image.overwrites_poke offset _

/-- A failed recording leaves the place of the length word alone. -/
theorem overwrites_failure (small : offset < 2 ^ 32) (failure : out.2 = true)
    (room : offset + 256 + 4 + out.1.flatten.length < 2 ^ 32) :
    Image.Overwrites (fun m => ((rounded m offset fnName out).settle ((offset + 256) % 2 ^ 32)).buffer)
      ((Set.Ico offset (offset + 256) ∪ Set.Ico (offset + 256 + 4) (offset + 256 + 4 + out.1.flatten.length)) ∪
        Set.Ico offset (offset + 256)) := by
  have cleared : ∀ m, ((rounded m offset fnName out).settle ((offset + 256) % 2 ^ 32)).buffer =
      ((m.poke offset (header fnName)).poke (offset + 256 + 4) out.1.flatten).poke offset (List.replicate 256 0) := by
    intro m
    obtain ⟨_, failed, _, filled⟩ := rounded_appends m offset fnName out
    rw [Recording.settle_of_failed (failed.trans failure), Recording.takeBackHeader, takeBack_header small,
      filled room]
  simp only [cleared]
  have first := Image.overwrites_poke offset (header fnName)
  have last := Image.overwrites_poke offset (List.replicate 256 0)
  rw [header_length] at first
  rw [List.length_replicate] at last
  exact last.after ((Image.overwrites_poke _ _).after first)

end Places

section Step
variable {P : Platform} {info : TypeInfo} {cfg : Config} {fuel : Nat} {c : Invocation} {s t : Process}

/-- The places a recorded call writes to, as long as the offset does not wrap. -/
theorem writes_iff (small : s.record.offset < 2 ^ 32) (chosen : shouldRecord cfg c.fnName s = true)
    (returned : c.enter P info cfg fuel s = .ok t)
    (room : s.record.offset + 256 + 4 + t.record.written.length < 2 ^ 32) (x : Nat) :
    c.Writes P info cfg fuel s x ↔ s.record.offset ≤ x ∧ x < s.record.offset + 256 + 4 + t.record.written.length ∧
      (t.record.failed = true → x < s.record.offset + 256 ∨ s.record.offset + 256 + 4 ≤ x) := by
  obtain ⟨out, _, _, settled, writes⟩ := enter_onMap chosen returned
  obtain ⟨written, failed, _⟩ := rounded_appends s.record.buffer s.record.offset c.fnName out
  rw [settled, Recording.settle_written, written] at room ⊢
  rw [Recording.settle_failed, failed]
  have touched : c.Writes P info cfg fuel s x ↔ Image.Touches (fun m =>
      ((rounded m s.record.offset c.fnName out).settle ((s.record.offset + 256) % 2 ^ 32)).buffer) x := by
    refine exists_congr fun m => ?_
    obtain ⟨u, entered, record⟩ := writes m
    simp only [entered, Except.ok.injEq, exists_eq_left', record]
  rw [touched]
  cases flag : out.2 with
  | false =>
    rw [(overwrites_success flag room).touches_iff, Set.mem_Ico]
    simp
  | true =>
    rw [(overwrites_failure small flag room).touches_iff]
    simp only [Set.mem_union, Set.mem_Ico, true_imp_iff]
    omega

end Step

namespace Progress
variable {P : Platform} {info : TypeInfo} {cfg : Config} {fuel : Nat} {c : Invocation} {s t : Progress}
  {amountOfTargets : Nat}

theorem step_eq_some : s.step P info cfg fuel c = some t ↔ shouldFuzz cfg c.fnName s.process = false ∧
    ∃ u, c.enter P info cfg fuel s.process = .ok u ∧ t = ⟨u, if shouldRecord cfg c.fnName s.process && !u.record.failed
      then s.records ++ [(c.fnName, u.record.written)] else s.records⟩ := by
  unfold step
  cases shouldFuzz cfg c.fnName s.process with
  | true => simp
  | false =>
    cases c.enter P info cfg fuel s.process with
    | error e => simp
    | ok u =>
      constructor
      · intro same
        exact ⟨rfl, u, rfl, (Option.some.inj same).symm⟩
      · rintro ⟨_, _, same, rfl⟩
        cases same
        rfl

/-- What a recorded call has written is what the host's arguments are serialized to. -/
theorem step_serialized (chosen : shouldRecord cfg c.fnName s.process = true)
    (stepped : s.step P info cfg fuel c = some t) :
    serializedArgs P info cfg fuel c.fnName c.slots c.heap =
      .ok (t.process.record.written, t.process.record.failed) := by
  obtain ⟨_, u, entered, rfl⟩ := step_eq_some.mp stepped
  obtain ⟨setup, r, arranged, round, _, settled⟩ := genValues_settles (s := { s.process with heap := c.heap }) chosen
    entered
  rw [serializedArgs_of_round arranged round, settled, Recording.settle_written, Recording.settle_failed]

/-- A property of the serialized arguments of a call that returns, read off its result. -/
theorem serialized_iff {property : List UInt8 → Bool → Prop} :
    ((s.step P info cfg fuel c).isSome → shouldRecord cfg c.fnName s.process = true →
      ∀ bytes failed, serializedArgs P info cfg fuel c.fnName c.slots c.heap = .ok (bytes, failed) →
        property bytes failed) ↔
      ∀ t ∈ s.step P info cfg fuel c, shouldRecord cfg c.fnName s.process = true →
        property t.process.record.written t.process.record.failed := by
  constructor
  · intro each t stepped chosen
    exact each (Option.isSome_iff_exists.mpr ⟨t, stepped⟩) chosen _ _ (step_serialized chosen stepped)
  · intro each returned chosen bytes failed host
    obtain ⟨t, stepped⟩ := Option.isSome_iff_exists.mp returned
    rw [step_serialized chosen stepped] at host
    cases host
    exact each t stepped chosen

/-- The offset is exact, and so has not wrapped. -/
structure Exact (s : Progress) : Prop where
  offset : s.process.record.offset = s.size
  small : s.size < 2 ^ 32

theorem step_passes (noRecord : shouldRecord cfg c.fnName s.process = false)
    (stepped : s.step P info cfg fuel c = some t) : t.process.record = s.process.record ∧ t.records = s.records ∧
      t.process.recordedFunctions = s.process.recordedFunctions := by
  obtain ⟨noFuzz, u, entered, rfl⟩ := step_eq_some.mp stepped
  obtain ⟨record, recorded⟩ := genValues_passes (s := { s.process with heap := c.heap }) noRecord noFuzz entered
  exact ⟨record, by simp [noRecord], recorded⟩

/-- How a recorded call changes offset and sizes. -/
theorem step_records (exact : s.Exact) (chosen : shouldRecord cfg c.fnName s.process = true)
    (stepped : s.step P info cfg fuel c = some t) :
    (∀ r, c.extract P info cfg fuel s.process = .ok r →
        r.offset = (s.size + 256 + 4 + t.process.record.written.length) % 2 ^ 32 ∧
          r.written = t.process.record.written) ∧
      t.process.record.offset = (if t.process.record.failed then s.size
        else (s.size + 256 + 4 + t.process.record.written.length) % 2 ^ 32) ∧
      t.size = (if t.process.record.failed then s.size else s.size + 256 + 4 + t.process.record.written.length) ∧
      t.process.recordedFunctions = c.fnName :: s.process.recordedFunctions := by
  obtain ⟨_, u, entered, rfl⟩ := step_eq_some.mp stepped
  obtain ⟨out, extracted, recorded, settled, _⟩ := enter_onMap chosen entered
  rw [exact.offset] at extracted settled
  obtain ⟨written, failed, place, _⟩ := rounded_appends s.process.record.buffer s.size c.fnName out
  have bytes : u.record.written = out.1.flatten := by rw [settled, Recording.settle_written, written]
  have flag : u.record.failed = out.2 := by rw [settled, Recording.settle_failed, failed]
  simp only [bytes, flag]
  refine ⟨fun r known => ?_, ?_, ?_, recorded⟩
  · rw [extracted] at known
    cases known
    exact ⟨place, written⟩
  · rw [settled, settled_offset exact.small]
  · simp only [chosen, Bool.true_and]
    cases out.2 with
    | true => simp [size]
    | false =>
      simp [size]
      omega

/-- The last place counts; behind a failed recording without a byte it is the last of the header. -/
theorem below_iff {offset bound : Nat} {failed : Bool} {bytes : List UInt8} :
    (∀ x, offset ≤ x ∧ x < offset + 256 + 4 + bytes.length ∧
      (failed = true → x < offset + 256 ∨ offset + 256 + 4 ≤ x) → x < bound) ↔
      offset + 256 + (if failed ∧ bytes = [] then 0 else 4 + bytes.length) ≤ bound := by
  constructor
  · intro every
    split
    · have last := every (offset + 255) (by omega)
      omega
    · rename_i more
      have last := every (offset + 256 + 3 + bytes.length) ⟨by omega, by omega, fun flag => .inr ?_⟩
      · omega
      · have bytes : 0 < bytes.length := List.length_pos_iff.mpr fun empty => more ⟨flag, empty⟩
        omega
  · rintro room x ⟨lower, upper, header⟩
    split at room
    · rename_i only
      rw [only.2, List.length_nil] at upper
      have := header only.1
      omega
    · omega

/-- A recorded call stays in the mapping exactly if its records have room there. -/
theorem inside_iff_fits (exact : s.Exact) :
    s.Inside P info cfg fuel amountOfTargets c ↔ s.Fits P info cfg fuel amountOfTargets c := by
  rw [Fits, serialized_iff]
  refine forall_congr' fun t => imp_congr_right fun stepped => ?_
  cases chosen : shouldRecord cfg c.fnName s.process with
  | false =>
    obtain ⟨record, records, _⟩ := step_passes chosen stepped
    have same : t.process.record.offset = t.size := by rw [record, exact.offset, size, size, records]
    simp [same]
  | true =>
    obtain ⟨round, offset, size, _⟩ := step_records exact chosen stepped
    obtain ⟨_, u, entered, rfl⟩ := step_eq_some.mp stepped
    simp only [true_imp_iff] at round offset size ⊢
    have places : s.size + 256 + 4 + u.record.written.length < 2 ^ 32 →
        ((∀ x, c.Writes P info cfg fuel s.process x → x < mapLen amountOfTargets) ↔
          s.size + 256 + (if u.record.failed ∧ u.record.written = [] then 0 else 4 + u.record.written.length) ≤
            mapLen amountOfTargets) := by
      intro room
      rw [← exact.offset] at room ⊢
      simp only [writes_iff (exact.offset ▸ exact.small) chosen entered room]
      exact below_iff
    constructor
    · rintro ⟨_, exactly, inside⟩
      obtain ⟨out, extracted, _⟩ := enter_onMap chosen entered
      obtain ⟨reduced, bytes⟩ := round _ extracted
      have room : s.size + 256 + 4 + u.record.written.length < 2 ^ 32 := by
        have unreduced := exactly _ extracted
        rw [reduced, bytes] at unreduced
        omega
      exact ⟨room, (places room).mp inside⟩
    · rintro ⟨room, reach⟩
      rw [Nat.mod_eq_of_lt room] at offset round
      refine ⟨offset.trans size.symm, fun r extracted => ?_, (places room).mpr reach⟩
      obtain ⟨place, bytes⟩ := round r extracted
      rw [place, bytes]

theorem Exact.step (exact : s.Exact) (fits : s.Fits P info cfg fuel amountOfTargets c)
    (stepped : s.step P info cfg fuel c = some t) : t.Exact := by
  have inside := inside_iff_fits exact |>.mpr fits
  refine ⟨(inside t stepped).1, ?_⟩
  cases chosen : shouldRecord cfg c.fnName s.process with
  | false =>
    obtain ⟨_, records, _⟩ := step_passes chosen stepped
    rw [size, records]
    exact exact.small
  | true =>
    obtain ⟨_, _, size, _⟩ := step_records exact chosen stepped
    have room := (serialized_iff.mp fits t stepped chosen).1
    rw [size]
    split
    · exact exact.small
    · exact room

end Progress

/-- Along every run of a recording process: the offset stays the exact sum of the sizes of the
records and every write stays inside the mapping exactly if every recording has room, in the
mapping and in 32 bits. -/
theorem recording_inside_iff (P : Platform) (info : TypeInfo) (cfg : Config) (fuel amountOfTargets : Nat) (s : Process)
    (calls : List Invocation) :
    Runs.Along (Progress.step P info cfg fuel) (Progress.Inside P info cfg fuel amountOfTargets) (.start s) calls ↔
      Runs.Along (Progress.step P info cfg fuel) (Progress.Fits P info cfg fuel amountOfTargets) (.start s) calls := by
  have start : (Progress.start s).Exact := ⟨rfl, by norm_num [Progress.start, Progress.size]⟩
  constructor
  · intro along
    refine along.imp (fun _ _ exact inside => (Progress.inside_iff_fits exact).mp inside) ?_ start
    intro s c t exact inside stepped
    exact exact.step ((Progress.inside_iff_fits exact).mp inside) stepped
  · intro along
    refine along.imp (fun _ _ exact fits => (Progress.inside_iff_fits exact).mpr fits) ?_ start
    intro s c t exact fits stepped
    exact exact.step fits stepped

/-- Recordings of at most `MAX_FILE` bytes never fill more than the share of their targets. -/
structure Progress.Shared (targets : List Name) (s : Progress) : Prop extends s.Exact where
  nodup : s.process.recordedFunctions.Nodup
  known : s.process.recordedFunctions ⊆ targets
  share : s.size ≤ (256 + 4 + maxFile) * s.process.recordedFunctions.length

section Shared
variable {P : Platform} {info : TypeInfo} {cfg : Config} {fuel : Nat} {targets : List Name}

/-- A target is recorded once. -/
theorem Progress.Shared.room {s : Progress} {c : Invocation} (shared : s.Shared targets) (target : c.fnName ∈ targets)
    (chosen : shouldRecord cfg c.fnName s.process = true) :
    (c.fnName :: s.process.recordedFunctions).Nodup ∧
      (256 + 4 + maxFile) * (s.process.recordedFunctions.length + 1) ≤ (256 + 4 + maxFile) * targets.length := by
  have nodup := List.nodup_cons.mpr ⟨notMem_of_shouldRecord chosen, shared.nodup⟩
  have known : c.fnName :: s.process.recordedFunctions ⊆ targets := List.cons_subset.mpr ⟨target, shared.known⟩
  exact ⟨nodup, Nat.mul_le_mul_left _ (nodup.subperm known).length_le⟩

theorem Progress.Shared.fits {s : Progress} {c : Invocation} (few : targets.length ≤ 163) (shared : s.Shared targets)
    (target : c.fnName ∈ targets)
    (small : (s.step P info cfg fuel c).isSome → shouldRecord cfg c.fnName s.process = true →
      ∀ bytes failed, serializedArgs P info cfg fuel c.fnName c.slots c.heap = .ok (bytes, failed) →
        bytes.length ≤ maxFile) : s.Fits P info cfg fuel targets.length c := by
  intro returned chosen bytes failed host
  have length : mapLen targets.length = (256 + 4 + maxFile) * targets.length := by
    simp only [mapLen, maxFile]
    omega
  obtain ⟨_, room⟩ := shared.room target chosen
  have share := shared.share
  have bound := small returned chosen bytes failed host
  rw [length]
  simp only [maxFile] at room share bound ⊢
  refine ⟨by omega, ?_⟩
  split <;> omega

theorem Progress.Shared.step {s t : Progress} {c : Invocation} (few : targets.length ≤ 163)
    (shared : s.Shared targets) (target : c.fnName ∈ targets)
    (small : (s.step P info cfg fuel c).isSome → shouldRecord cfg c.fnName s.process = true →
      ∀ bytes failed, serializedArgs P info cfg fuel c.fnName c.slots c.heap = .ok (bytes, failed) →
        bytes.length ≤ maxFile) (stepped : s.step P info cfg fuel c = some t) : t.Shared targets := by
  have exact := shared.toExact.step (shared.fits few target small) stepped
  cases chosen : shouldRecord cfg c.fnName s.process with
  | false =>
    obtain ⟨_, records, functions⟩ := Progress.step_passes chosen stepped
    have share : t.size ≤ (256 + 4 + maxFile) * t.process.recordedFunctions.length := by
      rw [Progress.size, records, functions]
      exact shared.share
    exact ⟨exact, functions ▸ shared.nodup, functions ▸ shared.known, share⟩
  | true =>
    obtain ⟨nodup, _⟩ := shared.room target chosen
    obtain ⟨_, _, size, functions⟩ := Progress.step_records shared.toExact chosen stepped
    have bytes := Progress.serialized_iff.mp small t stepped chosen
    have before := shared.share
    refine ⟨exact, functions ▸ nodup, functions ▸ List.cons_subset.mpr ⟨target, shared.known⟩, ?_⟩
    rw [size, functions, List.length_cons, Nat.mul_succ]
    split <;> omega

/-- Up to 163 targets of at most `MAX_FILE` bytes each are safe. -/
theorem small_recordings_inside (few : targets.length ≤ 163) {s : Process} {calls : List Invocation}
    (small : Runs.Along (Progress.step P info cfg fuel) (fun s c => c.fnName ∈ targets ∧
      ((s.step P info cfg fuel c).isSome → shouldRecord cfg c.fnName s.process = true →
        ∀ bytes failed, serializedArgs P info cfg fuel c.fnName c.slots c.heap = .ok (bytes, failed) →
          bytes.length ≤ maxFile)) (.start s) calls) :
    Runs.Along (Progress.step P info cfg fuel) (Progress.Inside P info cfg fuel targets.length) (.start s) calls := by
  refine small.imp (fun s c (shared : s.Shared targets) small =>
    (Progress.inside_iff_fits shared.toExact).mpr (shared.fits few small.1 small.2)) ?_ ?_
  · exact fun s c t shared small stepped => shared.step few small.1 small.2 stepped
  · exact ⟨⟨rfl, by norm_num [Progress.start, Progress.size]⟩, List.nodup_nil, List.nil_subset _, Nat.zero_le _⟩

end Shared

/-- Every file has the same contents, and every target takes the name of one. -/
def filePlatform (contents : List UInt8) : Platform := { bumpPlatform 64 [0] with files := fun _ => some contents }

def fileConfig : Config := constrained [{ lhs := 0, rel := .EQ, rhs := .constant 0, isFile := true }]

/-- The function `f` of one of many modules is called with the path `s`. -/
def readFile (i : Nat) : Invocation where
  heap := {
    bytes := Image.poke (fun _ => 0) 0x1000 (number 8 0x1008 ++ ascii "s")
    mapped := fun x => decide (0x1000 ≤ x) && decide (x < 0x100a)
    blocks := []
    file := [] }
  buffer := fun _ => 0
  bufferSize := 0
  fnName := [UInt8.ofNat (65 + i)] ++ ascii ":f"
  slots := [0x1000]

section Files
variable {contents : List UInt8} {i : Nat}

theorem readFile_extract (known : i < 164) (s : Process) :
    (readFile i).extract (filePlatform contents) pathInfo fileConfig 1 s =
      .ok (rounded s.record.buffer s.record.offset (readFile i).fnName ([contents], false)) := by
  have constraints : ∀ i < 164, constraintsFor fileConfig (readFile i).fnName =
      [{ lhs := 0, rel := .EQ, rhs := .constant 0, isFile := true }] := by decide +kernel
  have arranged : setupArgs pathTypes [0x1000] [{ lhs := 0, rel := .EQ, rhs := .constant 0, isFile := true }]
      (readFile 0).heap = .ok ⟨[0x8000000000001000], [[]], []⟩ := by rfl
  have heap : (readFile i).heap = (readFile 0).heap := rfl
  have loaded : (readFile 0).heap.load (untag 0x8000000000001000) 8 = .ok (number 8 0x1008) := by decide +kernel
  have path : pathAt (readFile 0).heap 4096 (value (number 8 0x1008)) = some (ascii "s") := by decide +kernel
  have opened (r : Recording) : serializeFile (filePlatform contents) (readFile i).heap (untag 0x8000000000001000) r =
      .ok (r.emit contents) := by
    unfold serializeFile
    rw [heap, loaded, ok_bind, path]
    rfl
  have isFile : isFile 0x8000000000001000 = true := by decide
  have types : pathInfo.argTypes (readFile i).fnName = pathTypes := rfl
  have order (n : Nat) (edges : List (Nat × Nat)) :
      ((filePlatform contents).topologicalSort n edges).reverse = [0] := rfl
  have visited : visitArg pathTypes ⟨[0x8000000000001000], [[]], []⟩ 0 =
      .ok (.pointer (.integer 8), 0x8000000000001000, []) := by rfl
  unfold Invocation.extract
  rw [constraints i known]
  change setupArgs pathTypes [0x1000] [{ lhs := 0, rel := .EQ, rhs := .constant 0, isFile := true }]
      (readFile 0).heap >>= _ = _
  rw [arranged, ok_bind]
  unfold recordRound visitInOrder
  rw [types, order, List.foldlM_cons, visited, ok_bind]
  simp only [serializeToBuffer, isFile, if_true]
  rw [opened, ok_bind]
  rfl

/-- What a further file on record adds. -/
structure Added (contents : List UInt8) (i : Nat) (s t : Progress) : Prop where
  inFuzz : t.process.inFuzz = false
  recorded : t.process.recordedFunctions = (readFile i).fnName :: s.process.recordedFunctions
  records : t.records = s.records ++ [((readFile i).fnName, contents)]
  offset : t.process.record.offset = (s.process.record.offset + 256 + 4 + contents.length) % 2 ^ 32
  written : t.process.record.written = contents

theorem readFile_chosen {s : Process} (fresh : (readFile i).fnName ∉ s.recordedFunctions) :
    shouldRecord fileConfig (readFile i).fnName s = true := by
  have unlisted : contains [] (readFile i).fnName = false := rfl
  simp [shouldRecord, unlisted, fresh, fileConfig, constrained, recordingUnder]

theorem readFile_step {s : Progress} (known : i < 164) (small : s.process.record.offset < 2 ^ 32)
    (inFuzz : s.process.inFuzz = false) (fresh : (readFile i).fnName ∉ s.process.recordedFunctions) :
    ∃ t, s.step (filePlatform contents) pathInfo fileConfig 1 (readFile i) = some t ∧ Added contents i s t := by
  have chosen := readFile_chosen fresh
  have counted : countCall fileConfig (readFile i).fnName { s.process with heap := (readFile i).heap } =
      .ok { s.process with heap := (readFile i).heap } := by
    rw [countCall, if_neg (by simp [inFuzz])]
  have entered := @enter_recording (filePlatform contents) pathInfo fileConfig 1 (readFile i) s.process chosen
  rw [counted, ok_bind, readFile_extract known, ok_bind] at entered
  obtain ⟨written, failed, _⟩ :=
    rounded_appends s.process.record.buffer s.process.record.offset (readFile i).fnName ([contents], false)
  refine ⟨_, Progress.step_eq_some.mpr ⟨rfl, _, entered, rfl⟩, inFuzz, rfl, ?_, ?_, ?_⟩
  · simp only [chosen, Recording.settle_failed, Recording.settle_written, failed, written]
    simp
  · have there := @settled_offset s.process.record.buffer s.process.record.offset (readFile i).fnName
      ([contents], false) small
    simpa using there
  · rw [Recording.settle_written, written]
    simp

/-- A file for each of many targets. -/
theorem readFiles_run {n : Nat} (known : n ≤ 164) :
    ∃ t, Runs.run (Progress.step (filePlatform contents) pathInfo fileConfig 1) (.start freshProcess)
        ((List.range n).map readFile) = some t ∧
      t.process.inFuzz = false ∧
      t.process.recordedFunctions = ((List.range n).map fun i => (readFile i).fnName).reverse ∧
      (∀ r ∈ t.records, r.2 = contents) ∧ t.size = n * (256 + 4 + contents.length) ∧
      t.process.record.offset = n * (256 + 4 + contents.length) % 2 ^ 32 := by
  have distinct : ∀ n < 164, (readFile n).fnName ∉ (List.range n).map fun i => (readFile i).fnName := by decide +kernel
  induction n with
  | zero => exact ⟨_, rfl, rfl, rfl, by simp [Progress.start], by simp [Progress.start, Progress.size],
      by simp [Progress.start]⟩
  | succ n ih =>
    obtain ⟨t, ran, inFuzz, recorded, same, size, offset⟩ := ih (by omega)
    have fresh : (readFile n).fnName ∉ t.process.recordedFunctions := by
      rw [recorded, List.mem_reverse]
      exact distinct n (by omega)
    have small : t.process.record.offset < 2 ^ 32 := by
      rw [offset]
      exact Nat.mod_lt _ (by norm_num)
    obtain ⟨u, stepped, added⟩ := @readFile_step contents n t (by omega) small inFuzz fresh
    refine ⟨u, ?_, added.inFuzz, ?_, ?_, ?_, ?_⟩
    · rw [List.range_succ, List.map_append, List.map_singleton]
      exact Runs.run_snoc.mpr ⟨t, ran, stepped⟩
    · rw [added.recorded, recorded, List.range_succ, List.map_append, List.reverse_append]
      rfl
    · rw [added.records]
      simpa [or_imp, forall_and] using fun name bytes inside => same (name, bytes) inside
    · have more : u.size = t.size + (256 + 4 + contents.length) := by simp [Progress.size, added.records]
      rw [more, size, Nat.succ_mul]
    · rw [added.offset, offset, Nat.succ_mul]
      omega

end Files

/-- One target with a file of a byte more than `MAX_FILE` writes behind the mapping. For 164
targets with files of `MAX_FILE` bytes, which the mapping has room for, the offset wraps. -/
theorem recordings_outside :
    (readFile 0).Writes (filePlatform (List.replicate (maxFile + 1) 0)) pathInfo fileConfig 1 freshProcess (mapLen 1) ∧
    ∃ t, Runs.run (Progress.step (filePlatform (List.replicate maxFile 0)) pathInfo fileConfig 1) (.start freshProcess)
        ((List.range 164).map readFile) = some t ∧
      (∀ r ∈ t.records, r.2.length = maxFile) ∧ t.size = mapLen 164 ∧ t.process.record.offset = 4236944 := by
  constructor
  · have fresh : (readFile 0).fnName ∉ freshProcess.recordedFunctions := List.not_mem_nil
    obtain ⟨t, stepped, added⟩ := @readFile_step (List.replicate (maxFile + 1) 0) 0 (.start freshProcess) (by norm_num)
      (by norm_num [Progress.start, freshProcess]) rfl fresh
    obtain ⟨_, u, entered, rfl⟩ := Progress.step_eq_some.mp stepped
    have length : u.record.written.length = maxFile + 1 := by rw [added.written, List.length_replicate]
    refine (writes_iff (by norm_num [freshProcess]) (readFile_chosen fresh) entered ?_ _).mpr ?_
    · rw [length]
      decide
    · rw [length]
      exact ⟨by decide, by decide, fun _ => .inr (by decide)⟩
  · obtain ⟨t, ran, _, _, same, size, offset⟩ := @readFiles_run (List.replicate maxFile 0) 164 le_rfl
    rw [List.length_replicate] at size offset
    refine ⟨t, ran, fun r inside => ?_, ?_, ?_⟩
    · rw [same r inside, List.length_replicate]
    · rw [size]
      decide
    · rw [offset]
      decide

end AflLive.Fuzz
