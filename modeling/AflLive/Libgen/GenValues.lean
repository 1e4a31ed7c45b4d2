import AflLive.Libgen.Serialize
import AflLive.Common

/-! `gen_values`: the decision to record or to fuzz, the constraint set-up, the
visiting order of `DependencyManager` and the two rounds over the arguments.
Starting the fork server and the exit timer have no effect on the arguments and
are left out. -/
namespace AflLive.Libgen
open Bytes Control

/-- The `rhs` of a user constraint: an argument, `"rec"` or a constant. -/
inductive UserRhs where
  | arg (index : Nat)
  | recorded
  | constant (value : Int)
deriving DecidableEq, Repr

structure UserConstraint where
  lhs : Nat
  rel : Kind
  rhs : UserRhs
  signed : Bool := false
  isFile : Bool := false
  deref : Bool := false
deriving DecidableEq, Repr

/-- The local vectors of `gen_values`. -/
structure Setup where
  addressOfArg : List Nat
  constraintsOfArg : List (List Constraint)
  edges : List (Nat × Nat)
deriving DecidableEq, Repr

/-- `vector::operator[]`; an index outside the vector is undefined behaviour. -/
def getAt (xs : List α) (i : Nat) : Except Fault α :=
  match xs[i]? with
  | some x => .ok x
  | none => .error .badIndex

theorem getAt_eq_ok {xs : List α} {i : Nat} {x : α} : getAt xs i = .ok x ↔ xs[i]? = some x := by
  unfold getAt
  cases xs[i]? with
  | none => simp
  | some y => simp

def makeRhs (types : List Ty) (addressOfArg : List Nat) (h : Heap) (c : UserConstraint) :
    Except Fault (Rhs × List (Nat × Nat)) :=
  match c.rhs with
  | .arg index => do
    let ptr ← getAt addressOfArg index
    let _ ← getAt types index
    return (.arg ptr, [(index, c.lhs)])
  | .recorded => do
    let type ← getAt types c.lhs
    let source ← getAt addressOfArg c.lhs
    let bound ← recordConstraintValue h type source
    return (.constant bound, [])
  | .constant n => .ok (.constant (n % 2 ^ 64).toNat, [])

/-- One round of the loop over the user's constraints. -/
def addConstraint (types : List Ty) (h : Heap) (s : Setup) (c : UserConstraint) : Except Fault Setup := do
  let adr ← getAt s.addressOfArg c.lhs
  if c.isFile then
    return { s with addressOfArg := s.addressOfArg.set c.lhs (adr ||| 0x8000000000000000) }
  else
    let (rhs, edge) ← makeRhs types s.addressOfArg h c
    let cs ← getAt s.constraintsOfArg c.lhs
    return {
      addressOfArg := if c.deref then s.addressOfArg.set c.lhs (adr ||| 1) else s.addressOfArg
      constraintsOfArg := s.constraintsOfArg.set c.lhs (cs ++ [⟨c.rel, rhs, c.signed⟩])
      edges := s.edges ++ edge }

/-- `va_arg` reads one address per type; behind the last argument passed there
is none. -/
def setupArgs (types : List Ty) (slots : List Nat) (ucs : List UserConstraint) (h : Heap) : Except Fault Setup :=
  if slots.length < types.length then .error .badIndex
  else ucs.foldlM (addConstraint types h)
    ⟨slots.take types.length, List.replicate types.length [], []⟩

/-- boost appends a vertex after everything reachable from it; the source walks
that list from its end. -/
def visitInOrder (P : Platform) (nodeCount : Nat) (edges : List (Nat × Nat))
    (action : σ → Nat → Except Fault σ) (s : σ) : Except Fault σ :=
  (P.topologicalSort nodeCount edges).reverse.foldlM action s

def visitArg (types : List Ty) (setup : Setup) (arg : Nat) : Except Fault (Ty × Nat × List Constraint) := do
  let type ← getAt types arg
  let addr ← getAt setup.addressOfArg arg
  let cs ← getAt setup.constraintsOfArg arg
  return (type, addr, cs)

def recordRound (P : Platform) (structs : Nat → StructType) (types : List Ty) (setup : Setup) (fuel : Nat)
    (h : Heap) (r : Recording) : Except Fault Recording :=
  visitInOrder P types.length setup.edges (fun r arg => do
    let (type, addr, cs) ← visitArg types setup arg
    serializeToBuffer P structs h fuel type addr cs r) r

def populateRound (P : Platform) (structs : Nat → StructType) (types : List Ty) (setup : Setup) (fuel : Nat)
    (buffer : Image) (bufferSize : Nat) (h : Heap) : Except Fault (Nat × Heap) :=
  visitInOrder P types.length setup.edges (fun s arg => do
    let (type, addr, cs) ← visitArg types setup arg
    populateFromBuffer P structs buffer bufferSize fuel type s.1 addr cs s.2) (0, h)

/-- What `gen_init` and the fork server fix before the first call. -/
structure Config where
  userTarget : Name
  userRecording : Bool
  recording : Bool
  currentTarget : Option Name
  blacklist : Name
  exitOnMaxCalls : Bool
  maxCalls : Nat
  maxFuzz : Nat
  userConstraints : List (Name × List UserConstraint)

/-- The globals `gen_values` writes, with the memory it works on. -/
structure Process where
  inFuzz : Bool
  currentCalls : Nat
  fuzzIdx : Nat
  shadowName : Option Name
  shadowRecurse : Nat
  recordedFunctions : List Name
  record : Recording
  bufOffset : Nat
  heap : Heap

def shouldRecord (cfg : Config) (fnName : Name) (s : Process) : Bool :=
  (cfg.userRecording || cfg.recording) && !s.recordedFunctions.contains fnName &&
    !contains cfg.blacklist fnName

def shouldFuzz (cfg : Config) (fnName : Name) (s : Process) : Bool :=
  ((cfg.userTarget ≠ [] && cfg.userTarget == fnName) || cfg.currentTarget == some fnName) &&
    !shouldRecord cfg fnName s && (!s.inFuzz || decide (s.fuzzIdx < cfg.maxFuzz))

/-- The bookkeeping of a call made while a shadow execution is going on. -/
def countCall (cfg : Config) (fnName : Name) (s : Process) : Except Fault Process :=
  if s.inFuzz then
    let calls := if cfg.exitOnMaxCalls then (s.currentCalls + 1) % 2 ^ 32 else s.currentCalls
    if cfg.exitOnMaxCalls ∧ cfg.maxCalls < calls then .error .exit
    else .ok { s with
      currentCalls := calls
      shadowRecurse := if s.shadowName = some fnName then (s.shadowRecurse + 1) % 2 ^ 32 else s.shadowRecurse }
  else .ok s

def startFuzz (fnName : Name) (s : Process) : Process :=
  { s with inFuzz := true, shadowName := some fnName, shadowRecurse := 1, fuzzIdx := s.fuzzIdx + 1 }

/-- `memset` to zero, then `strncpy` of at most 255 bytes. -/
def header (fnName : Name) : List UInt8 := fnName.take 255 ++ List.replicate (256 - (fnName.take 255).length) 0

def startRecord (fnName : Name) (s : Process) : Process :=
  { s with
    shadowName := some fnName
    recordedFunctions := fnName :: s.recordedFunctions
    record := { s.record with
      buffer := s.record.buffer.poke s.record.offset (header fnName)
      offset := (s.record.offset + 256) % 2 ^ 32 } }

def constraintsFor (cfg : Config) (fnName : Name) : List UserConstraint :=
  match cfg.userConstraints.find? fun entry => areModuleColonFunctionNamesEquivalent entry.1 fnName with
  | some entry => entry.2
  | none => []

/-- `offset -= n` in 32 bits. -/
def takeBack (offset n : Nat) : Nat := (offset + 2 ^ 32 - n % 2 ^ 32) % 2 ^ 32

/-- The header of a failed recording is cleared again and will be overwritten. -/
def Recording.takeBackHeader (r : Recording) (previous : Nat) : Recording :=
  { r with
    buffer := r.buffer.poke (takeBack previous 256) (List.replicate 256 0)
    offset := takeBack previous 256 }

/-- The extraction round; a failed one takes back the header. -/
def recordArgs (P : Platform) (structs : Nat → StructType) (types : List Ty) (setup : Setup) (fuel : Nat)
    (previous : Nat) (s : Process) : Except Fault Process := do
  let r ← recordRound P structs types setup fuel s.heap { s.record with failed := false, written := [] }
  if r.failed then return { s with record := r.takeBackHeader previous }
  else return { s with record := r }

/-- The length word goes in front of the serialized bytes last of all. -/
def finishRecord (previous : Nat) (s : Process) : Process :=
  let length := takeBack s.record.offset (previous + 4)
  if s.record.failed then s
  else { s with record := { s.record with buffer := s.record.buffer.poke previous (number 4 length) } }

def populateArgs (P : Platform) (structs : Nat → StructType) (types : List Ty) (setup : Setup) (fuel : Nat)
    (buffer : Image) (bufferSize : Nat) (s : Process) : Except Fault Process := do
  let (offset, h) ← populateRound P structs types setup fuel buffer bufferSize s.heap
  return { s with bufOffset := offset, heap := h }

def genValues (P : Platform) (info : TypeInfo) (cfg : Config) (fuel : Nat) (buffer : Image) (bufferSize : Nat)
    (fnName : Name) (slots : List Nat) (s : Process) : Except Fault Process := do
  let s ← countCall cfg fnName s
  let record := shouldRecord cfg fnName s
  let fuzz := shouldFuzz cfg fnName s
  let s := if fuzz then startFuzz fnName s else s
  let s := if record then startRecord fnName s else s
  if fuzz || record then
    let types := info.argTypes fnName
    let setup ← setupArgs types slots (constraintsFor cfg fnName) s.heap
    let previous := s.record.offset
    let s := { s with record := { s.record with offset := (previous + 4) % 2 ^ 32 } }
    let s ← (if record then recordArgs P info.structs types setup fuel previous s else .ok s)
    let s ← (if fuzz then populateArgs P info.structs types setup fuel buffer bufferSize s else .ok s)
    return if record then finishRecord previous s else s
  else return s

/-- Counting nested calls leaves the memory, the map and both decisions alone. -/
theorem countCall_ensures (cfg : Config) (fnName : Name) (s : Process) :
    Ensures (· = Fault.exit) (fun t => t.heap = s.heap ∧ t.record = s.record ∧
      t.recordedFunctions = s.recordedFunctions ∧ shouldRecord cfg fnName t = shouldRecord cfg fnName s ∧
      shouldFuzz cfg fnName t = shouldFuzz cfg fnName s) (countCall cfg fnName s) := by
  unfold countCall
  split
  · generalize (if cfg.exitOnMaxCalls then (s.currentCalls + 1) % 2 ^ 32 else s.currentCalls) = calls
    simp only
    split
    · exact rfl
    · exact ⟨rfl, rfl, rfl, rfl, rfl⟩
  · exact ⟨rfl, rfl, rfl, rfl, rfl⟩

/-- A function is recorded once. -/
theorem notMem_of_shouldRecord {cfg : Config} {fnName : Name} {s : Process}
    (chosen : shouldRecord cfg fnName s = true) : fnName ∉ s.recordedFunctions := by
  unfold shouldRecord at chosen
  simp only [Bool.and_eq_true, Bool.not_eq_true', List.contains_eq_mem, decide_eq_false_iff_not] at chosen
  exact chosen.1.2

theorem shouldFuzz_not_record {cfg : Config} {fnName : Name} {s : Process}
    (fuzz : shouldFuzz cfg fnName s = true) : shouldRecord cfg fnName s = false := by
  unfold shouldFuzz at fuzz
  simp only [Bool.and_eq_true, Bool.not_eq_true'] at fuzz
  exact fuzz.1.2

end AflLive.Libgen
