import AflLive.Fuzz.Retry
import AflLive.Libgen.Replay

/-! A recording that fails because a file cannot be opened. `gen_values` clears
the header again and moves the offset back; afl-fuzz walks over what is left. -/
namespace AflLive.Fuzz
open Bytes Control Libgen

/-- Map and offset are as if the call had not happened. -/
def RolledBack (s t : Process) : Prop := t.record.buffer = s.record.buffer ∧ t.record.offset = s.record.offset

section Rollback
variable {P : Platform} {info : TypeInfo} {cfg : Config} {fuel : Nat} {buffer : Image} {bufferSize : Nat}
  {fnName : Name} {slots : List Nat} {s t : Process}

/-- What an extraction round appends behind header and length word is the only change outside
the header, as long as the offset does not wrap. -/
theorem round_unchanged_iff {m : Image} {offset : Nat} {r : Recording}
    (appended : Recording.Appends ⟨m.poke offset (header fnName), (offset + 260) % 2 ^ 32, false, []⟩ r r.written)
    (room : offset + 260 + r.written.length < 2 ^ 32) :
    (∀ x, x < offset ∨ offset + 256 ≤ x → r.buffer x = m x) ↔
      m.peek (offset + 260) r.written.length = r.written := by
  obtain ⟨_, _, filled⟩ := appended
  have place : (offset + 260) % 2 ^ 32 = offset + 260 := Nat.mod_eq_of_lt (by omega)
  simp only [place] at filled
  have there := Image.peek_poke (m.poke offset (header fnName)) (offset + 260) r.written
  rw [← filled room] at there
  constructor
  · intro same
    have both : m.peek (offset + 260) r.written.length = r.buffer.peek (offset + 260) r.written.length :=
      Image.peek_congr fun x lower _ => (same x (.inr (by omega))).symm
    rw [both, there]
  · intro already x outside
    by_cases inside : offset + 260 ≤ x ∧ x < offset + 260 + r.written.length
    · exact Image.peek_eq_iff.mp (there.trans already.symm) x inside.1 inside.2
    · rw [filled room, Image.poke_outside _ _ (by omega), Image.poke_outside _ _ (by simpa using outside)]

/-- The offset always comes back. The map does, if the offset does not wrap, exactly if the header
was written over zeros and the bytes the arguments are serialized to stood behind the length word
already; in a map that is clear from the offset on, if all of them are zero. -/
theorem genValues_rolled_back_iff (small : s.record.offset < 2 ^ 32) (records : shouldRecord cfg fnName s = true)
    (returned : genValues P info cfg fuel buffer bufferSize fnName slots s = .ok t) (failed : t.record.failed = true) :
    t.record.offset = s.record.offset ∧
      ∃ bytes, serializedArgs P info cfg fuel fnName slots s.heap = .ok (bytes, true) ∧
        (s.record.offset + 260 + bytes.length < 2 ^ 32 →
          (RolledBack s t ↔ s.record.buffer.peek s.record.offset 256 = List.replicate 256 0 ∧
            s.record.buffer.peek (s.record.offset + 260) bytes.length = bytes) ∧
          ((∀ x, s.record.offset ≤ x → s.record.buffer x = 0) → (RolledBack s t ↔ ∀ byte ∈ bytes, byte = 0))) := by
  obtain ⟨setup, r, arranged, round, _, record⟩ := genValues_fails small records returned failed
  obtain ⟨bytes, appended⟩ := (recordRound_appends (Nat.mod_lt _ (by norm_num))).result round
  obtain rfl : r.written = bytes := appended.1
  have unopened : r.failed = true := by rw [← failed, record]
  have host := serializedArgs_of_round arranged round
  rw [unopened] at host
  refine ⟨by rw [record], r.written, host, fun room => ?_⟩
  have restored : RolledBack s t ↔ s.record.buffer.peek s.record.offset 256 = List.replicate 256 0 ∧
      s.record.buffer.peek (s.record.offset + 260) r.written.length = r.written := by
    have filled := @Image.poke_eq_iff r.buffer s.record.offset (List.replicate 256 0) s.record.buffer
    rw [List.length_replicate] at filled
    unfold RolledBack
    rw [record, and_iff_left rfl, filled, round_unchanged_iff appended room]
  refine ⟨restored, fun clear => ?_⟩
  have zeros : ∀ a n, s.record.offset ≤ a → s.record.buffer.peek a n = List.replicate n 0 := fun a n behind =>
    Image.peek_const fun x lower _ => clear x (behind.trans lower)
  rw [restored, zeros _ _ le_rfl, zeros _ _ (Nat.le_add_right ..), and_iff_right rfl, eq_comm, List.eq_replicate_iff,
    and_iff_right rfl]

end Rollback

def constrained (constraints : List UserConstraint) : Config :=
  { recordingUnder [] with userConstraints := [(ascii "f", constraints)] }

/-- The name of a file as the only argument. -/
def pathTypes : List Ty := [.pointer (.integer 8)]

def pathInfo : TypeInfo := flatInfo pathTypes (by simp [pathTypes, Sized])

/-- `f(tag, path, next)`, where `path` is the name of a file. No file can be opened. -/
def tagPathInfo : TypeInfo :=
  flatInfo [.integer 32, .pointer (.integer 8), .pointer (.integer 32)] (by simp [Sized])

def zeroProcess : Process :=
  { freshProcess with heap := ⟨fun _ => 0, fun x => decide (0x1000 ≤ x) && decide (x < 0x1018), [], []⟩ }

/-- The map was empty. A null pointer is recorded before the path and the number 0 after it. -/
theorem zero_arguments_rolled_back : ∃ t, genValues (bumpPlatform 64 [0, 1, 2]) tagPathInfo
      (constrained [{ lhs := 1, rel := .EQ, rhs := .constant 0, isFile := true }]) 1 (fun _ => 0) 0 (ascii "f")
      [0x1000, 0x1008, 0x1010] zeroProcess = .ok t ∧
    t.record.failed = true ∧ t.record.written = List.replicate 8 0 ∧ RolledBack zeroProcess t := by
  have outcome : (genValues (bumpPlatform 64 [0, 1, 2]) tagPathInfo
      (constrained [{ lhs := 1, rel := .EQ, rhs := .constant 0, isFile := true }]) 1 (fun _ => 0) 0 (ascii "f")
      [0x1000, 0x1008, 0x1010] zeroProcess).map (fun t => (t.record.failed, t.record.written)) =
        .ok (true, List.replicate 8 0) := by decide +kernel
  have host : serializedArgs (bumpPlatform 64 [0, 1, 2]) tagPathInfo
      (constrained [{ lhs := 1, rel := .EQ, rhs := .constant 0, isFile := true }]) 1 (ascii "f")
      [0x1000, 0x1008, 0x1010] zeroProcess.heap = .ok (List.replicate 8 0, true) := by decide +kernel
  obtain ⟨t, returned, shown⟩ := map_eq_ok.mp outcome
  obtain ⟨failed, written⟩ := Prod.mk.inj shown
  obtain ⟨_, bytes, same, restored⟩ := genValues_rolled_back_iff (by decide) (by decide +kernel) returned failed
  obtain rfl : List.replicate 8 0 = bytes := congrArg Prod.fst (Except.ok.inj (host.symm.trans same))
  exact ⟨t, returned, failed, written, ((restored (by decide +kernel)).2 fun _ _ => rfl).mpr (by simp)⟩

/-- `f(path, table, 104)` with 64 integers in the table, the last two of them 4 and 7. -/
def tableTypes : List Ty := [.pointer (.integer 8), .pointer (.integer 32), .integer 32]

def tableInfo : TypeInfo := flatInfo tableTypes (by simp [tableTypes, Sized])

def tableProcess : Process :=
  { freshProcess with heap := {
      bytes := ((Image.poke (fun _ => 0) 0x1000 (number 8 0 ++ (number 8 0x2000 ++ number 4 104))).poke 0x20f8
        (number 4 4 ++ number 4 7))
      mapped := fun x => (decide (0x1000 ≤ x) && decide (x < 0x1018)) || (decide (0x2000 ≤ x) && decide (x < 0x2100))
      blocks := []
      file := [] } }

/-- Without edges the arguments are visited from the last to the first. What `f` left behind reads as an
entry of `h`, which was never recorded. -/
theorem failed_recording_read_as_seed :
    (genValues (bumpPlatform 64 [0, 1, 2]) tableInfo
        (constrained [{ lhs := 1, rel := .EQ, rhs := .constant 64 },
          { lhs := 0, rel := .EQ, rhs := .constant 0, isFile := true }])
        2 (fun _ => 0) 0 (ascii "f") [0x1000, 0x1008, 0x1010] tableProcess).map
      (fun t => (t.record.failed, t.record.offset, seedFor t.record.buffer 2 (ascii "h"))) =
        .ok (true, 0, some (ascii "h", [7, 0, 0, 0])) ∧
      seedFor tableProcess.record.buffer 2 (ascii "h") = none := by
  constructor <;> decide +kernel

end AflLive.Fuzz
