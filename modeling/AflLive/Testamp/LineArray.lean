import AflLive.Library.Cells
import AflLive.Testamp.FuzzLog

/-! The lines of a process in memory: the growing array of the library, and the functions that
the pass inserts calls of, against the lists of the log. -/
namespace AflLive.Testamp
open Cells Control

/-- `struct array`; `elems` is null before `array_init` and after `array_free`. -/
structure LineArray where
  elems : Option (List (Option Name)) := none
  items : Nat := 0
  size : Nat := 0

namespace LineArray

def init : LineArray := { elems := some (alloc 1), items := 0, size := 1 }

/-- The result is null for an index behind the array, and the bound is one too large. -/
def get (arr : LineArray) (i : Nat) : Except Fault (Option Name) :=
  match arr.elems with
  | none => .ok none
  | some block => if i > arr.items then .ok none else (load block i).map some

def add (arr : LineArray) (elem : Name) : Except Fault LineArray :=
  match arr.elems with
  | none => .ok arr
  | some block => do
    let items := arr.items + 1
    let size := if items > arr.size then arr.size * 2 else arr.size
    let block := if items > arr.size then resize block size else block
    let block ← store block (items - 1) elem
    return { elems := some block, items, size }

def strcmpEq (string : Option Name) (elem : Name) : Except Fault Bool :=
  match string with
  | none => .error .nullArgument
  | some string => .ok (string = elem)

/-- The search, with the number of elements left. -/
def contains (arr : LineArray) (elem : Name) : Nat → Except Fault Bool
  | 0 => .ok false
  | left + 1 => do
    let string ← arr.get (arr.items - (left + 1))
    if ← strcmpEq string elem then return true else contains arr elem left

def addWithoutRepetition (arr : LineArray) (elem : Name) : Except Fault LineArray :=
  match arr.elems with
  | none => .ok arr
  | some _ => do if ← arr.contains elem arr.items then return arr else arr.add elem

def free (arr : LineArray) : LineArray :=
  match arr.elems with
  | none => arr
  | some _ => {}

/-- The loop of `addToLog` from some element on. -/
def print (arr : LineArray) (log : Name) : Nat → Except Fault Name
  | 0 => .ok log
  | left + 1 => do
    match ← arr.get (arr.items - (left + 1)) with
    | none => throw .nullArgument
    | some sig => arr.print (log ++ sig ++ [10]) left

def addToLog (arr : LineArray) (log : Option Name) : Except Fault (Option Name) :=
  (arr.print (log.getD []) arr.items).map some

end LineArray

/-- The static variables, and the file. -/
structure Memory where
  log : Option Name
  recording : Bool := true
  lines : LineArray := {}

namespace Memory

def init (m : Memory) : Except Fault Memory := do
  let lines ← LineArray.init.add (ascii "FUNCTIONS:")
  return { m with lines, recording := true }

def enterFunction (m : Memory) (sig : Name) : Except Fault Memory :=
  if m.recording then do
    let lines ← m.lines.addWithoutRepetition sig
    return { m with lines }
  else .ok m

def deinit (m : Memory) (environ argv : List Name) (cwd : Name) : Except Fault Memory :=
  if m.recording then do
    if m.lines.items > 1 then
      let lines ← m.lines.add (ascii "ENVIRONMENT:")
      let lines ← environ.foldlM LineArray.add lines
      let quotedCmd := nullSeparatedWordsToQuotedWords ((cmdline argv).take cmdSize)
      let lines ← [ascii "CMDLINE:", quotedCmd, ascii "CWD:", cwd, ascii "\n\n\n"].foldlM LineArray.add lines
      let log ← lines.addToLog m.log
      return { log, recording := false, lines := lines.free }
    else return { m with recording := false, lines := m.lines.free }
  else .ok m

end Memory

/-- The calls the pass inserts. -/
inductive LibraryCall where
  | init
  | enterFunction (sig : Name)
  | deinit (environ argv : List Name) (cwd : Name)

def Memory.call (m : Memory) : LibraryCall → Except Fault Memory
  | .init => m.init
  | .enterFunction sig => m.enterFunction sig
  | .deinit environ argv cwd => m.deinit environ argv cwd

def Recorder.call (r : Recorder) : LibraryCall → Recorder
  | .init => r.init
  | .enterFunction sig => r.enterFunction sig
  | .deinit environ argv cwd => r.deinit environ argv cwd

/-! ### The array holds the lines -/

/-- The array in memory stands for the lines, if it has been allocated. -/
def LineArray.Represents (arr : LineArray) : Option (List Name) → Prop
  | none => arr = {}
  | some lines => ∃ block, arr.elems = some block ∧ arr.items = lines.length ∧ arr.size = block.length ∧
      0 < arr.size ∧ Holds block lines

namespace LineArray
variable {arr : LineArray} {lines : List Name}

theorem add_represents (represents : arr.Represents (some lines)) (elem : Name) :
    ∃ after, arr.add elem = .ok after ∧ after.Represents (some (lines ++ [elem])) := by
  obtain ⟨elems, items, size⟩ := arr
  obtain ⟨block, rfl, rfl, rfl, positive, holds⟩ := represents
  have positive : 0 < block.length := positive
  have fits := holds.1
  by_cases full : lines.length + 1 > block.length
  · have room : lines.length < (resize block (block.length * 2)).length := by
      rw [length_resize]
      omega
    obtain ⟨after, stored, length, held⟩ := (holds.resize (n := block.length * 2) (by omega)).store room elem
    rw [length_resize] at length
    refine ⟨⟨some after, lines.length + 1, block.length * 2⟩, ?_, after, rfl, by simp, length.symm, ?_, held⟩
    · simp only [add, full, if_true, Nat.add_sub_cancel, stored, ok_bind]
      rfl
    · exact Nat.mul_pos positive Nat.two_pos
  · obtain ⟨after, stored, length, held⟩ := holds.store (by omega) elem
    refine ⟨⟨some after, lines.length + 1, block.length⟩, ?_, after, rfl, by simp, length.symm, positive, held⟩
    simp only [add, full, if_false, Nat.add_sub_cancel, stored, ok_bind]
    rfl

theorem addAll_represents (represents : arr.Represents (some lines)) (elems : List Name) :
    ∃ after, elems.foldlM add arr = .ok after ∧ after.Represents (some (lines ++ elems)) := by
  induction elems generalizing arr lines with
  | nil => exact ⟨arr, rfl, by simpa using represents⟩
  | cons elem elems ih =>
    obtain ⟨next, added, represents⟩ := add_represents represents elem
    obtain ⟨after, rest, represents⟩ := ih represents
    refine ⟨after, ?_, by simpa using represents⟩
    rw [List.foldlM_cons, added, ok_bind, rest]

theorem get_represents (represents : arr.Represents (some lines)) {i : Nat} {line : Name}
    (inside : lines[i]? = some line) : arr.get i = .ok (some line) := by
  obtain ⟨block, is, items, -, -, holds⟩ := represents
  have short := (List.getElem?_eq_some_iff.mp inside).1
  have within : ¬i > arr.items := by omega
  simp [get, is, within, load_of_holds holds i inside, Except.map]

/-- Both loops visit the lines behind the first ones. -/
theorem getElem?_behind (lines first : List Name) (line : Name) (rest : List Name) (parts : lines = first ++ line :: rest) :
    lines[lines.length - (rest.length + 1)]? = some line := by
  subst parts
  simp

theorem contains_represents (represents : arr.Represents (some lines)) (elem : Name) :
    arr.contains elem arr.items = .ok (decide (elem ∈ lines)) := by
  have items : arr.items = lines.length := by
    obtain ⟨_, _, items, _⟩ := represents
    exact items
  have search : ∀ first rest, lines = first ++ rest → arr.contains elem rest.length = .ok (decide (elem ∈ rest)) := by
    intro first rest
    induction rest generalizing first with
    | nil => exact fun _ => rfl
    | cons line rest ih =>
      intro parts
      have here : arr.get (arr.items - (rest.length + 1)) = .ok (some line) :=
        get_represents represents (items ▸ getElem?_behind lines first line rest parts)
      have later := ih (first ++ [line]) (by simpa using parts)
      rw [List.length_cons, contains, here, ok_bind]
      by_cases same : line = elem
      · simp [strcmpEq, same, ok_bind, pure, Except.pure]
      · simp [strcmpEq, same, ok_bind, later, Ne.symm same]
  rw [items]
  exact search [] lines rfl

theorem addWithoutRepetition_represents (represents : arr.Represents (some lines)) (elem : Name) :
    ∃ after, arr.addWithoutRepetition elem = .ok after ∧
      after.Represents (some (Testamp.addWithoutRepetition lines elem)) := by
  have found := contains_represents represents elem
  obtain ⟨block, is, _⟩ := id represents
  by_cases member : elem ∈ lines
  · refine ⟨arr, ?_, by simpa [Testamp.addWithoutRepetition, member] using represents⟩
    simp [addWithoutRepetition, is, found, member, ok_bind, pure, Except.pure]
  · obtain ⟨after, added, grown⟩ := add_represents represents elem
    refine ⟨after, ?_, by simpa [Testamp.addWithoutRepetition, member] using grown⟩
    simp [addWithoutRepetition, is, found, member, ok_bind, added]

theorem addToLog_represents (represents : arr.Represents (some lines)) (log : Option Name) :
    arr.addToLog log = .ok (Testamp.addToLog log lines) := by
  have items : arr.items = lines.length := by
    obtain ⟨_, _, items, _⟩ := represents
    exact items
  have printed : ∀ rest first text, lines = first ++ rest →
      arr.print text rest.length = .ok (text ++ rest.flatMap (· ++ [10])) := by
    intro rest
    induction rest with
    | nil => exact fun _ text _ => by simp [print]
    | cons line rest ih =>
      intro first text parts
      have here : arr.get (arr.items - (rest.length + 1)) = .ok (some line) :=
        get_represents represents (items ▸ getElem?_behind lines first line rest parts)
      rw [List.length_cons, print, here, ok_bind]
      simp [ih (first ++ [line]) _ (by simpa using parts)]
  rw [addToLog, items, printed lines [] _ rfl]
  rfl

theorem free_represents (lines : Option (List Name)) (represents : arr.Represents lines) : arr.free = {} := by
  cases lines with
  | none =>
    obtain rfl := represents
    rfl
  | some lines =>
    obtain ⟨block, is, -⟩ := represents
    simp [free, is]

end LineArray

/-! ### The library -/

/-- The variables in memory stand for those of the recorder. -/
structure Memory.Represents (m : Memory) (r : Recorder) : Prop where
  log : m.log = r.log
  recording : m.recording = r.recording
  lines : m.lines.Represents r.lines

namespace Memory
variable {m : Memory} {r : Recorder}

theorem Represents.init (represents : m.Represents r) : ∃ after, m.init = .ok after ∧ after.Represents r.init := by
  have empty : LineArray.init.Represents (some []) := ⟨_, rfl, rfl, rfl, Nat.one_pos, holds_nil _⟩
  obtain ⟨lines, added, held⟩ := LineArray.add_represents empty (ascii "FUNCTIONS:")
  refine ⟨{ m with lines, recording := true }, ?_, represents.log, rfl, held⟩
  rw [Memory.init, added, ok_bind]
  rfl

theorem Represents.enterFunction (represents : m.Represents r) (sig : Name) :
    ∃ after, m.enterFunction sig = .ok after ∧ after.Represents (r.enterFunction sig) := by
  obtain ⟨log, recording, arr⟩ := m
  obtain ⟨_, _, lines⟩ := r
  obtain ⟨rfl, rfl, held⟩ := represents
  cases recording with
  | false => exact ⟨_, rfl, rfl, rfl, held⟩
  | true =>
    cases lines with
    | none =>
      obtain rfl := held
      exact ⟨_, rfl, rfl, rfl, rfl⟩
    | some lines =>
      obtain ⟨after, added, held⟩ := LineArray.addWithoutRepetition_represents held sig
      refine ⟨⟨log, true, after⟩, ?_, rfl, rfl, held⟩
      rw [Memory.enterFunction, if_pos rfl, added, ok_bind]
      rfl

theorem Represents.deinit (represents : m.Represents r) (environ argv : List Name) (cwd : Name) :
    ∃ after, m.deinit environ argv cwd = .ok after ∧ after.Represents (r.deinit environ argv cwd) := by
  obtain ⟨log, recording, arr⟩ := m
  obtain ⟨_, _, lines⟩ := r
  obtain ⟨rfl, rfl, held⟩ := represents
  cases recording with
  | false => exact ⟨_, rfl, rfl, rfl, held⟩
  | true =>
    cases lines with
    | none =>
      obtain rfl := held
      exact ⟨_, rfl, rfl, rfl, rfl⟩
    | some lines =>
      have items : arr.items = lines.length := by
        obtain ⟨_, _, items, _⟩ := held
        exact items
      by_cases many : lines.length > 1
      · obtain ⟨first, added, held⟩ := LineArray.add_represents held (ascii "ENVIRONMENT:")
        obtain ⟨second, all, held⟩ := LineArray.addAll_represents held environ
        let quotedCmd := nullSeparatedWordsToQuotedWords ((cmdline argv).take cmdSize)
        let trailer := [ascii "CMDLINE:", quotedCmd, ascii "CWD:", cwd, ascii "\n\n\n"]
        obtain ⟨third, last, held⟩ := LineArray.addAll_represents held trailer
        have printed := LineArray.addToLog_represents held log
        refine ⟨⟨addToLog log (lines ++ [ascii "ENVIRONMENT:"] ++ environ ++ trailer), false, third.free⟩, ?_, ?_, rfl,
          LineArray.free_represents _ held⟩
        · simp only [Memory.deinit, if_true, items, many, added, ok_bind, all]
          rw [last, ok_bind, printed, ok_bind]
          rfl
        · simp [Recorder.deinit, many, trailer, quotedCmd]
      · refine ⟨⟨log, false, arr.free⟩, ?_, ?_, rfl, LineArray.free_represents _ held⟩
        · simp only [Memory.deinit, if_true, items, many, if_false]
          rfl
        · simp [Recorder.deinit, many]

/-- For every sequence of calls the functions stay within their blocks, read no cell they have not
written and compare no null pointer, and leave the file as the lists say. -/
theorem calls_refine_recorder (calls : List LibraryCall) (log : Option Name) :
    ∃ m, calls.foldlM Memory.call { log } = .ok m ∧ m.Represents (calls.foldl Recorder.call { log }) := by
  have run : ∀ (calls : List LibraryCall) (m : Memory) (r : Recorder), m.Represents r →
      ∃ after, calls.foldlM Memory.call m = .ok after ∧ after.Represents (calls.foldl Recorder.call r) := by
    intro calls
    induction calls with
    | nil => exact fun m r represents => ⟨m, rfl, represents⟩
    | cons call calls ih =>
      intro m r represents
      obtain ⟨next, called, represents⟩ : ∃ next, m.call call = .ok next ∧ next.Represents (r.call call) := by
        cases call with
        | init => exact represents.init
        | enterFunction sig => exact represents.enterFunction sig
        | deinit environ argv cwd => exact represents.deinit environ argv cwd
      obtain ⟨after, rest, represents⟩ := ih next _ represents
      refine ⟨after, ?_, represents⟩
      rw [List.foldlM_cons, called, ok_bind, rest]
  exact run calls _ _ ⟨rfl, rfl, rfl⟩

end Memory

end AflLive.Testamp
