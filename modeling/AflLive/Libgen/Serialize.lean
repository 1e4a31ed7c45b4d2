import AflLive.Libgen.Populate

/-! `serializeToBuffer` of the type classes, the length heuristic of pointers and
`recordConstraintValue`. The host's memory is only read. Element addresses are
computed in 64 bits here, unlike in `populateFromBuffer`. -/
namespace AflLive.Libgen
open Bytes Control

/-- The argument map while a record is written. `written` lists the bytes in
the order they were written; nothing reads it. -/
structure Recording where
  buffer : Image
  offset : Nat
  failed : Bool
  written : List UInt8

def Recording.emit (r : Recording) (bytes : List UInt8) : Recording :=
  { r with
    buffer := r.buffer.poke r.offset bytes
    offset := (r.offset + bytes.length) % 2 ^ 32
    written := r.written ++ bytes }

/-- The scan of `getStringLength` with `room` steps left before it aborts. -/
def scanString (h : Heap) : Nat → Nat → Except Fault Nat
  | 0, _ => .error .abort
  | room + 1, ptr => do
    let byte ← h.load ptr 1
    if value byte = 0 then return 0
    else
      let rest ← scanString h room (ptr + 1)
      return rest + 1

def getStringLength (h : Heap) (ptr : Nat) : Except Fault Nat := scanString h 0xffffffff ptr

/-- The edge cases of `constraintsImplyEquality`, in the order of the set. -/
def pathologicalValues : List Nat :=
  [0, 127, 128, 255, 32767, 32768, 65535, 2147483647, 2147483648, 4294967295]

def constraintsImplyEquality (h : Heap) (lhsType : LhsType) (cs : List Constraint) : Except Fault Bool := do
  let results ← pathologicalValues.mapM (runConstraints h lhsType cs)
  return results.all (· == results.headD 0)

/-- How many elements `PointerType::serializeToBuffer` takes to be behind the
pointer stored in a slot. -/
def recordedLength (h : Heap) (pointee : Ty) (slot : Nat) (deref : Bool) (cs : List Constraint) :
    Except Fault Nat := do
  let stored ← h.load slot 8
  let start := if value stored = 0 then 0 else 1
  let equality ← constraintsImplyEquality h .pointer cs
  if !equality && pointee.isByte && decide (start ≠ 0) then
    getStringLength h (value stored)
  else if deref then
    return start
  else
    let numElems ← runConstraints h .pointer cs start
    -- a length of -1 counts as undetermined
    if numElems = 0xffffffff ∨ numElems = 0xffffffffffffffff then getStringLength h (value stored)
    else return numElems

/-- The name the kernel reads for `open`; an unreadable or overlong one fails
the call. -/
def pathAt (h : Heap) : Nat → Nat → Option (List UInt8)
  | 0, _ => none
  | room + 1, ptr =>
    if h.mapped ptr then
      if h.bytes ptr = 0 then some [] else (pathAt h room (ptr + 1)).map (h.bytes ptr :: ·)
    else none

def serializeFile (P : Platform) (h : Heap) (slot : Nat) (r : Recording) : Except Fault Recording := do
  let stored ← h.load slot 8
  match (pathAt h 4096 (value stored)).bind P.files with
  | none => return { r with failed := true }
  | some contents => return r.emit contents

def serializeScalar (h : Heap) (addr size : Nat) (r : Recording) : Except Fault Recording := do
  let bytes ← h.load addr size
  return r.emit bytes

def serializeToBuffer (P : Platform) (structs : Nat → StructType) (h : Heap) :
    Nat → Ty → Nat → List Constraint → Recording → Except Fault Recording
  | 0, _, _, _, _ => .error .fuel
  | _ + 1, .unsupported, _, _, _ => .error .nullType
  | _ + 1, .integer bitWidth, addr, _, r => serializeScalar h addr (bitWidth / 8) r
  | _ + 1, .floating bitWidth, addr, _, r => serializeScalar h addr (bitWidth / 8) r
  | fuel + 1, .struct name, addr, _, r =>
    (structs name).fields.foldlM (fun r field =>
      serializeToBuffer P structs h fuel field.1 (addr + field.2) [] r) r
  | fuel + 1, .array elem numElems, addr, _, r =>
    forTo (fun i r => do
      let size ← getSize structs elem
      serializeToBuffer P structs h fuel elem (addr + i * size % 2 ^ 32) [] r) numElems r
  | fuel + 1, .pointer pointee, addr, cs, r =>
    if isFile addr then serializeFile P h (untag addr) r
    else do
      let numElems ← recordedLength h pointee (untag addr) (isDeref addr) cs
      let pointeeSize ← getSize structs pointee
      let stored ← h.load (untag addr) 8
      forTo (fun i r => serializeToBuffer P structs h fuel pointee (value stored + i * pointeeSize)
        (if isDeref addr then cs else []) r) numElems (r.emit (number 4 numElems))

/-- What a `"rec"` right-hand side stands for. `source` is the address as tagged
so far. A scalar wider than the 64-bit target overruns it. -/
def recordConstraintValue (h : Heap) (type : Ty) (source : Nat) : Except Fault Nat :=
  match type with
  | .pointer pointee => do
    let stored ← h.load source 8
    if value stored ≠ 0 ∧ pointee.isByte = true then getStringLength h (value stored)
    else return if value stored = 0 then 0 else 1
  | .integer bitWidth | .floating bitWidth => do
    let bytes ← h.load source (bitWidth / 8)
    if bitWidth / 8 ≤ 8 then return value bytes else .error .abort
  | .struct _ | .array _ _ => .ok 0
  | .unsupported => .error .nullType

theorem scanString_lt {h : Heap} {room ptr n : Nat} (found : scanString h room ptr = .ok n) : n < room := by
  induction room generalizing ptr n with
  | zero => cases found
  | succ room ih =>
    obtain ⟨byte, _, rest⟩ := bind_eq_ok.mp found
    split at rest
    · cases rest
      exact Nat.succ_pos room
    · obtain ⟨m, tail, same⟩ := bind_eq_ok.mp rest
      cases same
      have := ih tail
      omega

theorem recordedLength_lt {h : Heap} {pointee : Ty} {slot n : Nat} {deref : Bool} {cs : List Constraint}
    (found : recordedLength h pointee slot deref cs = .ok n) : n < 2 ^ 32 := by
  have string : ∀ ptr, getStringLength h ptr = .ok n → n < 2 ^ 32 := by
    intro ptr scanned
    have := scanString_lt scanned
    omega
  obtain ⟨stored, _, rest⟩ := bind_eq_ok.mp found
  obtain ⟨equality, _, rest⟩ := bind_eq_ok.mp rest
  have start : (if value stored = 0 then 0 else 1) < 2 ^ 32 := by split <;> norm_num
  generalize (if value stored = 0 then 0 else 1) = first at rest start
  split at rest
  · exact string _ rest
  split at rest
  · cases rest
    exact start
  · obtain ⟨numElems, ran, rest⟩ := bind_eq_ok.mp rest
    split at rest
    · exact string _ rest
    · cases rest
      exact runConstraints_lt start ran

/-! ### Recording only appends -/

/-- The record grew by `bytes`. While the 32-bit offset does not wrap, they
stand behind what was there. -/
def Recording.Appends (r s : Recording) (bytes : List UInt8) : Prop :=
  s.written = r.written ++ bytes ∧ s.offset = (r.offset + bytes.length) % 2 ^ 32 ∧
    (r.offset + bytes.length < 2 ^ 32 → s.buffer = r.buffer.poke r.offset bytes)

namespace Recording.Appends
variable {r s t : Recording}

theorem refl (small : r.offset < 2 ^ 32) : r.Appends r [] :=
  ⟨by simp, (Nat.mod_eq_of_lt small).symm, by simp⟩

theorem emit (r : Recording) (bytes : List UInt8) : r.Appends (r.emit bytes) bytes :=
  ⟨rfl, rfl, fun _ => rfl⟩

theorem small (first : r.Appends s bytes) : s.offset < 2 ^ 32 := by
  rw [first.2.1]
  exact Nat.mod_lt _ (by norm_num)

theorem trans (first : r.Appends s bytes) (second : s.Appends t more) : r.Appends t (bytes ++ more) := by
  obtain ⟨written, offset, buffer⟩ := first
  obtain ⟨written', offset', buffer'⟩ := second
  refine ⟨by simp [written, written'], ?_, fun room => ?_⟩
  · rw [offset', offset, List.length_append]
    omega
  · rw [List.length_append] at room
    have place : s.offset = r.offset + bytes.length := by
      rw [offset, Nat.mod_eq_of_lt (by omega)]
    rw [buffer' (by omega), buffer (by omega), place, Image.poke_append]

end Recording.Appends

/-- Writes one after the other. -/
def Recording.emits (r : Recording) (chunks : List (List UInt8)) : Recording := chunks.foldl emit r

/-- `s` is `r` after some writes. Nothing else happens to a recording but that its failure is
noted. -/
def Recording.Grows (r s : Recording) : Prop := ∃ chunks, s = { r.emits chunks with failed := s.failed }

namespace Recording
variable {r s t : Recording}

theorem emits_appends (chunks : List (List UInt8)) (small : r.offset < 2 ^ 32) :
    r.Appends (r.emits chunks) chunks.flatten := by
  induction chunks generalizing r with
  | nil => exact .refl small
  | cons chunk chunks ih =>
    have first := Appends.emit r chunk
    exact first.trans (ih first.small)

theorem emits_failed (chunks : List (List UInt8)) (r : Recording) (flag : Bool) :
    { r with failed := flag }.emits chunks = { r.emits chunks with failed := flag } := by
  induction chunks generalizing r with
  | nil => rfl
  | cons chunk chunks ih => exact ih (r.emit chunk)

theorem emits_congr (chunks : List (List UInt8)) (buffer : r.buffer = s.buffer) (offset : r.offset = s.offset) :
    (r.emits chunks).buffer = (s.emits chunks).buffer := by
  induction chunks generalizing r s with
  | nil => exact buffer
  | cons chunk chunks ih =>
    exact ih (by simp only [Recording.emit, buffer, offset]) (by simp only [Recording.emit, offset])

theorem Grows.appends (grown : r.Grows s) (small : r.offset < 2 ^ 32) : ∃ bytes, r.Appends s bytes := by
  obtain ⟨chunks, written⟩ := grown
  refine ⟨chunks.flatten, ?_⟩
  rw [written]
  exact emits_appends chunks small

/-- A recording after some writes and perhaps a failure. -/
def extend (r : Recording) (out : List (List UInt8) × Bool) : Recording :=
  { r.emits out.1 with failed := out.2 || r.failed }

theorem extend_written (r : Recording) (out : List (List UInt8) × Bool) :
    (r.extend out).written = r.written ++ out.1.flatten := by
  obtain ⟨chunks, flag⟩ := out
  have grown : ∀ r : Recording, (r.emits chunks).written = r.written ++ chunks.flatten := by
    induction chunks with
    | nil => simp [emits]
    | cons chunk chunks ih =>
      intro r
      have rest := ih (r.emit chunk)
      simpa [emits, Recording.emit] using rest
  exact grown r

theorem extend_extend (r : Recording) (out more : List (List UInt8) × Bool) :
    (r.extend out).extend more = r.extend (out.1 ++ more.1, more.2 || out.2) := by
  have joined : r.emits (out.1 ++ more.1) = (r.emits out.1).emits more.1 := List.foldl_append
  simp only [extend, emits_failed, joined, Bool.or_assoc]

/-- What is written, and whether the recording fails, depends neither on the map nor on the
offset. -/
def Emits (f : Recording → Except Fault Recording) : Prop :=
  ∃ out : Except Fault (List (List UInt8) × Bool), ∀ r, f r = out.map r.extend

namespace Emits
variable {f g : Recording → Except Fault Recording}

theorem error (e : Fault) : Emits fun _ => .error e := ⟨.error e, fun _ => rfl⟩

theorem stay : Emits .ok := ⟨.ok ([], false), fun _ => rfl⟩

theorem emit (bytes : List UInt8) : Emits fun r => .ok (r.emit bytes) := ⟨.ok ([bytes], false), fun _ => rfl⟩

theorem fail : Emits fun r => .ok { r with failed := true } := ⟨.ok ([], true), fun _ => rfl⟩

theorem bind (first : Emits f) (second : Emits g) : Emits fun r => f r >>= g := by
  obtain ⟨out, writes⟩ := first
  obtain ⟨more, next⟩ := second
  cases out with
  | error e => exact ⟨.error e, fun r => by simp only [writes, Except.map, Bind.bind, Except.bind]⟩
  | ok out =>
    refine ⟨more.map fun more => (out.1 ++ more.1, more.2 || out.2), fun r => ?_⟩
    simp only [writes, Except.map, ok_bind, next]
    cases more with
    | error e => rfl
    | ok more => exact congrArg Except.ok (extend_extend r out more)

/-- What is read beforehand is read from the host. -/
theorem reading (x : Except Fault α) {f : α → Recording → Except Fault Recording} (each : ∀ a, Emits (f a)) :
    Emits fun r => x >>= fun a => f a r := by
  cases x with
  | error e => exact .error e
  | ok a => exact each a

theorem foldlM {body : Recording → α → Except Fault Recording} (each : ∀ x, Emits fun r => body r x) (xs : List α) :
    Emits fun r => xs.foldlM body r := by
  induction xs with
  | nil => exact .stay
  | cons x xs ih => exact (each x).bind ih

theorem forTo {body : Nat → Recording → Except Fault Recording} (each : ∀ i, Emits (body i)) (n : Nat) :
    Emits (Control.forTo body n) := by
  induction n with
  | zero => exact .stay
  | succ n ih => exact ih.bind (each n)

theorem grows (emits : Emits f) (r : Recording) : Ensures (fun _ => True) r.Grows (f r) := by
  obtain ⟨out, writes⟩ := emits
  rw [writes]
  cases out with
  | error e => trivial
  | ok out => exact ⟨out.1, rfl⟩

end Emits
end Recording

section Emits
variable {P : Platform} {structs : Nat → StructType} {h : Heap}

theorem serializeScalar_emits (addr size : Nat) : Recording.Emits (serializeScalar h addr size) :=
  .reading _ fun bytes => .emit bytes

theorem serializeFile_emits (slot : Nat) : Recording.Emits (serializeFile P h slot) := by
  refine .reading _ fun stored => ?_
  cases (pathAt h 4096 (value stored)).bind P.files with
  | none => exact .fail
  | some contents => exact .emit contents

/-- Whatever the type and the host's memory, serializing only writes on. -/
theorem serializeToBuffer_emits (fuel : Nat) (type : Ty) (addr : Nat) (cs : List Constraint) :
    Recording.Emits (serializeToBuffer P structs h fuel type addr cs) := by
  induction fuel generalizing type addr cs with
  | zero => exact .error _
  | succ fuel ih =>
    cases type with
    | unsupported => exact .error _
    | integer bitWidth => exact serializeScalar_emits addr _
    | floating bitWidth => exact serializeScalar_emits addr _
    | struct name => exact .foldlM (fun (field : Ty × Nat) => ih field.1 _ _) _
    | array elem numElems => exact .forTo (fun i => .reading _ fun size => ih elem _ _) numElems
    | pointer pointee =>
      by_cases file : isFile addr
      · simp only [serializeToBuffer, file, if_true]
        exact serializeFile_emits _
      · simp only [serializeToBuffer, file, Bool.false_eq_true, if_false]
        refine .reading _ fun numElems => .reading _ fun pointeeSize => .reading _ fun stored => ?_
        exact (Recording.Emits.emit _).bind (.forTo (fun i => ih pointee _ _) numElems)

end Emits
end AflLive.Libgen
