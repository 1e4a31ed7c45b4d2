import AflLive.Libgen.GenValues

/-! The argument map after a sequence of recorded calls: one entry per call, each
a name header, a length word and the serialized arguments. -/
namespace AflLive.Libgen
open Bytes Control

@[simp] theorem header_length (fnName : Name) : (header fnName).length = 256 := by
  simp only [header, List.length_append, List.length_replicate, List.length_take]
  omega

/-- What a successful recording leaves in the map. -/
def entry (fnName : Name) (bytes : List UInt8) : List UInt8 := header fnName ++ (number 4 bytes.length ++ bytes)

@[simp] theorem entry_length (fnName : Name) (bytes : List UInt8) :
    (entry fnName bytes).length = 260 + bytes.length := by
  simp only [entry, List.length_append, header_length, number_length]
  omega

def stream (records : List (Name × List UInt8)) : List UInt8 := records.flatMap fun r => entry r.1 r.2

theorem stream_append (records : List (Name × List UInt8)) (fnName : Name) (bytes : List UInt8) :
    stream (records ++ [(fnName, bytes)]) = stream records ++ entry fnName bytes := by
  simp [stream]

section Record
variable {P : Platform} {info : TypeInfo} {cfg : Config} {fuel : Nat} {buffer : Image} {bufferSize : Nat}
  {fnName : Name} {slots : List Nat} {s t : Process}

theorem recordRound_emits (structs : Nat → StructType) (types : List Ty) (setup : Setup) (h : Heap) :
    Recording.Emits fun r => recordRound P structs types setup fuel h r := by
  unfold recordRound visitInOrder
  refine .foldlM (fun arg => .reading _ ?_) _
  rintro ⟨type, addr, cs⟩
  exact serializeToBuffer_emits fuel type addr cs

theorem recordRound_grows (structs : Nat → StructType) (types : List Ty) (setup : Setup) (h : Heap) (r : Recording) :
    Ensures (fun _ => True) r.Grows (recordRound P structs types setup fuel h r) :=
  (recordRound_emits structs types setup h).grows r

theorem recordRound_appends {structs : Nat → StructType} {types : List Ty} {setup : Setup} {h : Heap} {r : Recording}
    (small : r.offset < 2 ^ 32) :
    Ensures (fun _ => True) (fun s => ∃ bytes, r.Appends s bytes) (recordRound P structs types setup fuel h r) :=
  (recordRound_grows structs types setup h r).weaken fun _ grown => grown.appends small

/-- What the arguments of a call are serialized to, and whether a file could not be opened: the
extraction round over an empty map. -/
def serializedArgs (P : Platform) (info : TypeInfo) (cfg : Config) (fuel : Nat) (fnName : Name) (slots : List Nat)
    (h : Heap) : Except Fault (List UInt8 × Bool) := do
  let setup ← setupArgs (info.argTypes fnName) slots (constraintsFor cfg fnName) h
  let r ← recordRound P info.structs (info.argTypes fnName) setup fuel h ⟨fun _ => 0, 0, false, []⟩
  return (r.written, r.failed)

/-- It is the same over every map and at every offset: the host alone decides on it. -/
theorem serializedArgs_of_round {h : Heap} {setup : Setup} {m : Image} {offset : Nat} {r : Recording}
    (arranged : setupArgs (info.argTypes fnName) slots (constraintsFor cfg fnName) h = .ok setup)
    (round : recordRound P info.structs (info.argTypes fnName) setup fuel h ⟨m, offset, false, []⟩ = .ok r) :
    serializedArgs P info cfg fuel fnName slots h = .ok (r.written, r.failed) := by
  obtain ⟨out, writes⟩ := @recordRound_emits P fuel info.structs (info.argTypes fnName) setup h
  beta_reduce at writes
  rw [writes] at round
  obtain ⟨out, rfl, rfl⟩ := map_eq_ok.mp round
  rw [serializedArgs, arranged, ok_bind, writes]
  simp only [Except.map, ok_bind, Recording.extend_written]
  rfl

theorem takeBack_add {offset n : Nat} (room : offset + n < 2 ^ 32) : takeBack (offset + n) offset = n := by
  unfold takeBack
  omega

theorem takeBack_header {offset : Nat} (small : offset < 2 ^ 32) : takeBack ((offset + 256) % 2 ^ 32) 256 = offset := by
  unfold takeBack
  omega

/-- What the end of a recording makes of its extraction round: the header is taken back, or the
length word is written. -/
def Recording.settle (previous : Nat) (r : Recording) : Recording :=
  if r.failed then r.takeBackHeader previous
  else { r with buffer := r.buffer.poke previous (number 4 (takeBack r.offset (previous + 4))) }

namespace Recording
variable {previous : Nat} {r : Recording}

theorem settle_of_failed (failed : r.failed = true) : r.settle previous = r.takeBackHeader previous := if_pos failed

theorem settle_of_success (success : r.failed = false) : r.settle previous =
    { r with buffer := r.buffer.poke previous (number 4 (takeBack r.offset (previous + 4))) } :=
  if_neg (by simp [success])

@[simp] theorem settle_failed : (r.settle previous).failed = r.failed := by
  cases flag : r.failed with
  | true => rw [settle_of_failed flag, takeBackHeader, flag]
  | false => rw [settle_of_success flag, flag]

@[simp] theorem settle_written : (r.settle previous).written = r.written := by
  cases flag : r.failed with
  | true => rw [settle_of_failed flag, takeBackHeader]
  | false => rw [settle_of_success flag]

end Recording

/-- Writing the parts of an entry back to front is writing the entry. -/
theorem poke_entry (m : Image) (a : Nat) (fnName : Name) (bytes : List UInt8) :
    ((m.poke a (header fnName)).poke (a + 256 + 4) bytes).poke (a + 256) (number 4 bytes.length) =
      m.poke a (entry fnName bytes) := by
  rw [entry, Image.poke_append, header_length, Image.poke_append, number_length]
  exact Image.poke_comm _ (by rw [number_length])

/-- A call that records writes the header, extracts the arguments behind the length word and
writes that word last, or takes the header back. -/
theorem genValues_recording (chosen : shouldRecord cfg fnName s = true) :
    genValues P info cfg fuel buffer bufferSize fnName slots s = do
      let u ← countCall cfg fnName s
      let setup ← setupArgs (info.argTypes fnName) slots (constraintsFor cfg fnName) s.heap
      let r ← recordRound P info.structs (info.argTypes fnName) setup fuel s.heap
        ⟨s.record.buffer.poke s.record.offset (header fnName), (s.record.offset + 260) % 2 ^ 32, false, []⟩
      return { u with
        shadowName := some fnName
        recordedFunctions := fnName :: u.recordedFunctions
        record := r.settle ((s.record.offset + 256) % 2 ^ 32) } := by
  unfold genValues
  cases counted : countCall cfg fnName s with
  | error e => rfl
  | ok u =>
    obtain ⟨memory, record, _, now, _⟩ := (countCall_ensures cfg fnName s).result counted
    rw [chosen] at now
    have noFuzz : shouldFuzz cfg fnName u = false := by simp [shouldFuzz, now]
    have next : ((s.record.offset + 256) % 2 ^ 32 + 4) % 2 ^ 32 = (s.record.offset + 260) % 2 ^ 32 := by omega
    simp only [ok_bind, now, noFuzz, Bool.false_or, if_true, Bool.false_eq_true, if_false, startRecord, memory, record,
      next, recordArgs, finishRecord, bind_assoc]
    generalize (s.record.offset + 256) % 2 ^ 32 = previous
    refine bind_congr fun setup => bind_congr fun r => ?_
    cases flag : r.failed with
    | true =>
      rw [Recording.settle_of_failed flag]
      have failed : (r.takeBackHeader previous).failed = true := by rw [Recording.takeBackHeader, flag]
      simp only [if_true, pure_bind, failed]
    | false =>
      rw [Recording.settle_of_success flag]
      simp only [Bool.false_eq_true, if_false, pure_bind, flag]

/-- The extraction round behind a recorded call. -/
theorem genValues_settles (chosen : shouldRecord cfg fnName s = true)
    (returned : genValues P info cfg fuel buffer bufferSize fnName slots s = .ok t) :
    ∃ setup r, setupArgs (info.argTypes fnName) slots (constraintsFor cfg fnName) s.heap = .ok setup ∧
      recordRound P info.structs (info.argTypes fnName) setup fuel s.heap
        ⟨s.record.buffer.poke s.record.offset (header fnName), (s.record.offset + 260) % 2 ^ 32, false, []⟩ = .ok r ∧
      t.recordedFunctions = fnName :: s.recordedFunctions ∧
      t.record = r.settle ((s.record.offset + 256) % 2 ^ 32) := by
  rw [genValues_recording chosen] at returned
  obtain ⟨u, counted, rest⟩ := bind_eq_ok.mp returned
  obtain ⟨_, _, recorded, _⟩ := (countCall_ensures cfg fnName s).result counted
  obtain ⟨setup, arranged, rest⟩ := bind_eq_ok.mp rest
  obtain ⟨r, round, rest⟩ := bind_eq_ok.mp rest
  cases rest
  exact ⟨setup, r, arranged, round, by rw [recorded], rfl⟩

/-- One successful recording appends one entry. -/
theorem genValues_records (records : shouldRecord cfg fnName s = true)
    (returned : genValues P info cfg fuel buffer bufferSize fnName slots s = .ok t) (success : t.record.failed = false)
    (room : s.record.offset + 260 + t.record.written.length < 2 ^ 32) :
    t.recordedFunctions = fnName :: s.recordedFunctions ∧
      t.record.offset = s.record.offset + 260 + t.record.written.length ∧
      t.record.buffer = s.record.buffer.poke s.record.offset (entry fnName t.record.written) := by
  obtain ⟨setup, r, _, round, functions, settled⟩ := genValues_settles records returned
  refine ⟨functions, ?_⟩
  rw [settled] at success room ⊢
  rw [Recording.settle_failed] at success
  rw [Recording.settle_written] at room ⊢
  obtain ⟨bytes, written, offset, filled⟩ := (recordRound_appends (Nat.mod_lt _ (by norm_num))).result round
  obtain rfl : r.written = bytes := written
  have place : (s.record.offset + 256) % 2 ^ 32 = s.record.offset + 256 := Nat.mod_eq_of_lt (by omega)
  have behind : (s.record.offset + 260) % 2 ^ 32 = s.record.offset + 256 + 4 := Nat.mod_eq_of_lt (by omega)
  simp only [behind] at offset filled
  have position : r.offset = s.record.offset + 256 + 4 + r.written.length := by
    rw [offset]
    exact Nat.mod_eq_of_lt (by omega)
  rw [Recording.settle_of_success success, place]
  refine ⟨by simp only [position], ?_⟩
  simp only [position, takeBack_add (show s.record.offset + 256 + 4 + r.written.length < 2 ^ 32 by omega)]
  rw [filled (by omega), poke_entry]

/-- A failed one has its header cleared and its offset back; what the extraction round wrote
behind the length word stays. -/
theorem genValues_fails (small : s.record.offset < 2 ^ 32) (records : shouldRecord cfg fnName s = true)
    (returned : genValues P info cfg fuel buffer bufferSize fnName slots s = .ok t) (failed : t.record.failed = true) :
    ∃ setup r, setupArgs (info.argTypes fnName) slots (constraintsFor cfg fnName) s.heap = .ok setup ∧
      recordRound P info.structs (info.argTypes fnName) setup fuel s.heap
        ⟨s.record.buffer.poke s.record.offset (header fnName), (s.record.offset + 260) % 2 ^ 32, false, []⟩ = .ok r ∧
      t.recordedFunctions = fnName :: s.recordedFunctions ∧
      t.record = { r with
        buffer := r.buffer.poke s.record.offset (List.replicate 256 0)
        offset := s.record.offset } := by
  obtain ⟨setup, r, arranged, round, functions, settled⟩ := genValues_settles records returned
  refine ⟨setup, r, arranged, round, functions, ?_⟩
  rw [settled, Recording.settle_failed] at failed
  rw [settled, Recording.settle_of_failed failed, Recording.takeBackHeader, takeBack_header small]

/-- A call that neither records nor fuzzes leaves the map alone. -/
theorem genValues_passes (noRecord : shouldRecord cfg fnName s = false) (noFuzz : shouldFuzz cfg fnName s = false)
    (returned : genValues P info cfg fuel buffer bufferSize fnName slots s = .ok t) :
    t.record = s.record ∧ t.recordedFunctions = s.recordedFunctions := by
  unfold genValues at returned
  obtain ⟨u, counted, rest⟩ := bind_eq_ok.mp returned
  obtain ⟨_, record, recorded, still, stillNot⟩ := (countCall_ensures cfg fnName s).result counted
  rw [noRecord] at still
  rw [noFuzz] at stillNot
  simp only [still, stillNot, Bool.or_self, Bool.false_eq_true, if_false] at rest
  cases rest
  exact ⟨record, recorded⟩

/-- A successful recording behind a stream of recordings prolongs the stream. -/
theorem genValues_streams {records : List (Name × List UInt8)} {map : Image} (chosen : shouldRecord cfg fnName s = true)
    (returned : genValues P info cfg fuel buffer bufferSize fnName slots s = .ok t) (success : t.record.failed = false)
    (offset : s.record.offset = (stream records).length) (filled : s.record.buffer = map.poke 0 (stream records))
    (total : (stream (records ++ [(fnName, t.record.written)])).length < 2 ^ 32) :
    t.recordedFunctions = fnName :: s.recordedFunctions ∧
      t.record.offset = (stream (records ++ [(fnName, t.record.written)])).length ∧
      t.record.buffer = map.poke 0 (stream (records ++ [(fnName, t.record.written)])) := by
  rw [stream_append, List.length_append, entry_length] at total
  obtain ⟨functions, offset', filled'⟩ := genValues_records chosen returned success (by rw [offset]; omega)
  refine ⟨functions, ?_, ?_⟩
  · rw [offset', offset, stream_append, List.length_append, entry_length]
    omega
  · have place := Image.poke_append map 0 (stream records) (entry fnName t.record.written)
    rw [Nat.zero_add] at place
    rw [filled', filled, offset, stream_append, place]

/-- The calls of a process that records: some are recorded, with their bytes, and
the others pass through. The host runs in between. -/
inductive Records (P : Platform) (info : TypeInfo) (cfg : Config) (fuel : Nat) (s : Process) :
    List (Name × List UInt8) → Process → Prop
  | start : Records P info cfg fuel s [] s
  | record {records : List (Name × List UInt8)} {t u : Process} {h : Heap} {buffer : Image} {bufferSize : Nat}
      {fnName : Name} {slots : List Nat} (before : Records P info cfg fuel s records t)
      (chosen : shouldRecord cfg fnName { t with heap := h } = true)
      (returned : genValues P info cfg fuel buffer bufferSize fnName slots { t with heap := h } = .ok u)
      (success : u.record.failed = false) :
      Records P info cfg fuel s (records ++ [(fnName, u.record.written)]) u
  | other {records : List (Name × List UInt8)} {t u : Process} {h : Heap} {buffer : Image} {bufferSize : Nat}
      {fnName : Name} {slots : List Nat} (before : Records P info cfg fuel s records t)
      (noRecord : shouldRecord cfg fnName { t with heap := h } = false)
      (noFuzz : shouldFuzz cfg fnName { t with heap := h } = false)
      (returned : genValues P info cfg fuel buffer bufferSize fnName slots { t with heap := h } = .ok u) :
      Records P info cfg fuel s records u

/-- The map then holds the stream of the recordings, each name once. -/
theorem Records.stream_written {records : List (Name × List UInt8)} (run : Records P info cfg fuel s records t)
    (start : s.record.offset = 0) (none : s.recordedFunctions = []) (total : (stream records).length < 2 ^ 32) :
    t.record.offset = (stream records).length ∧ t.record.buffer = s.record.buffer.poke 0 (stream records) ∧
      t.recordedFunctions = (records.map Prod.fst).reverse ∧ (records.map Prod.fst).Nodup := by
  induction run with
  | start => simpa [stream, start] using none
  | @record records t u h buffer bufferSize fnName slots before chosen returned success ih =>
    have room := total
    rw [stream_append, List.length_append, entry_length] at room
    obtain ⟨offset, filled, functions, nodup⟩ := ih (by omega)
    obtain ⟨functions', offset', filled'⟩ := genValues_streams chosen returned success offset filled total
    refine ⟨offset', filled', ?_, ?_⟩
    · rw [functions']
      simp [functions]
    · have fresh : fnName ∉ records.map Prod.fst := by
        have fresh := notMem_of_shouldRecord chosen
        rw [functions, List.mem_reverse] at fresh
        exact fresh
      rw [List.map_append, List.map_cons, List.map_nil]
      exact List.nodup_append.mpr ⟨nodup, List.nodup_singleton _, by
        rintro a member b single rfl
        obtain rfl : a = fnName := List.mem_singleton.mp single
        exact fresh member⟩
  | other before noRecord noFuzz returned ih =>
    obtain ⟨record, functions⟩ := genValues_passes noRecord noFuzz returned
    rw [record, functions]
    exact ih total

end Record
end AflLive.Libgen
