import AflLive.Common
import AflLive.Library.Delimited
import AflLive.Library.Text

/-! The log of the test suite's runs: what the library of `testamp` appends when a process
ends, and what `setup_fuzzers.py` makes of the file. -/
namespace AflLive.Testamp
open Text

/-! ### The writer -/

/-- One process: the signatures it enters, and what it finds when it ends. -/
structure Run where
  calls : List Name
  environ : List Name
  argv : List Name
  terminated : ∀ arg ∈ argv, 0 ∉ arg
  cwd : Name

/-- `array_add_without_repetition` with `strcmp`. -/
def addWithoutRepetition (lines : List Name) (sig : Name) : List Name :=
  if sig ∈ lines then lines else lines ++ [sig]

/-- The words up to each of `amountOfArgs` null bytes, in quotes. -/
def quoteWords : Nat → Name → Name
  | 0, _ => []
  | amountOfArgs + 1, str =>
    let arg := str.takeWhile (· ≠ 0)
    ascii "'" ++ arg ++ ascii "'" ++ (if amountOfArgs ≠ 0 then ascii " " else []) ++
      quoteWords amountOfArgs (str.drop (arg.length + 1))

def nullSeparatedWordsToQuotedWords (str : Name) : Name := quoteWords (str.count 0) str

/-- `/proc/self/cmdline`. -/
def cmdline (argv : List Name) : Name := argv.flatMap (· ++ [0])

def cmdSize : Nat := 4096

/-- The file and the static variables of a process. -/
structure Recorder where
  log : Option Name
  recording : Bool := true
  lines : Option (List Name) := none

/-- `fopen` with `a` creates the file. -/
def addToLog (log : Option Name) (lines : List Name) : Option Name :=
  some (log.getD [] ++ lines.flatMap (· ++ [10]))

namespace Recorder

def init (r : Recorder) : Recorder := { r with recording := true, lines := some [ascii "FUNCTIONS:"] }

def enterFunction (r : Recorder) (sig : Name) : Recorder :=
  if r.recording then { r with lines := r.lines.map (addWithoutRepetition · sig) } else r

def deinit (r : Recorder) (environ argv : List Name) (cwd : Name) : Recorder :=
  if r.recording then
    let lines := r.lines.getD []
    let log :=
      if 1 < lines.length then
        let quotedCmd := nullSeparatedWordsToQuotedWords ((cmdline argv).take cmdSize)
        addToLog r.log (lines ++ [ascii "ENVIRONMENT:"] ++ environ ++
          [ascii "CMDLINE:", quotedCmd, ascii "CWD:", cwd, ascii "\n\n\n"])
      else r.log
    { log, recording := false, lines := none }
  else r

end Recorder

def Run.process (run : Run) (log : Option Name) : Option Name :=
  ((run.calls.foldl Recorder.enterFunction (Recorder.init { log })).deinit run.environ run.argv run.cwd).log

/-- The file after the processes, if there is one. -/
def fuzzLog (runs : List Run) : Option Name := runs.foldl (fun log run => run.process log) none

/-! ### The reader -/

def functionsMarker : List Char := "FUNCTIONS:".toList

def environmentMarker : List Char := "ENVIRONMENT:".toList

def cmdlineMarker : List Char := "CMDLINE:".toList

def cwdMarker : List Char := "CWD:".toList

inductive Part where
  | fun_
  | env
  | cmd
  | cwd
deriving DecidableEq

/-- What a line was taken for. -/
inductive Reading where
  | run
  | signature (line : List Char)
  | assignment (pair : Option (List Char × List Char))
  | commandLine (line : List Char)
  | directory (line : List Char)
deriving DecidableEq

/-- The variables of `get_fuzzing_commands`. The script does not keep `taken`. -/
structure Reader where
  state : Option Part := none
  fuzzingCommand : List Char := []
  targetsToFuzz : Finset (List Char) := ∅
  i : Nat := 0
  fuzzingCommands : List (Finset (List Char) × List Char) := []
  executedTargets : Finset (List Char) := ∅
  fuzzingPwds : Nat → Option (List Char) := fun _ => none
  taken : List Reading := []

def isTargetInSignature (target signature : List Char) : Bool :=
  ' ' :: target ++ [' '] <:+: signature || ':' :: target ++ [' '] <:+: signature

/-- `line[0:line.find('=')]` and `line[line.find('=') + 1:]`, where `find` may be `-1`. -/
def varAndVal (line : List Char) : List Char × List Char :=
  if '=' ∈ line then (line.takeWhile (· ≠ '='), (line.dropWhile (· ≠ '=')).drop 1) else (line.dropLast, line)

def assignmentText (pair : List Char × List Char) : List Char :=
  pair.1 ++ "='".toList ++ pair.2 ++ "' ".toList

def aflFuzzText (i : Nat) (line : List Char) : List Char :=
  " afl-fuzz -o /opt/fuzzing/fuzzer_".toList ++ Nat.toDigits 10 i ++ " -t 10000 -- ".toList ++ line ++ "  ".toList

namespace Reader

def appendCommand (r : Reader) : Reader :=
  { r with fuzzingCommands := r.fuzzingCommands ++ [(r.targetsToFuzz, r.fuzzingCommand)] }

/-- A new run; the one before is kept if it has targets. -/
def flush (r : Reader) : Reader :=
  if r.targetsToFuzz.Nonempty then { r.appendCommand with i := r.i + 1 } else r

def content (targets : List (List Char)) (r : Reader) (line : List Char) : Reader :=
  match r.state with
  | none => r
  | some .fun_ =>
    let found := (targets.filter fun target => isTargetInSignature target line).toFinset
    { r with
      targetsToFuzz := r.targetsToFuzz ∪ found
      executedTargets := r.executedTargets ∪ found
      taken := r.taken ++ [.signature line] }
  | some .env =>
    { r with
      fuzzingCommand := assignmentText (varAndVal line) ++ r.fuzzingCommand
      taken := r.taken ++ [.assignment (some (varAndVal line))] }
  | some .cmd =>
    { r with
      fuzzingCommand := r.fuzzingCommand ++ aflFuzzText r.i line
      taken := r.taken ++ [.commandLine line] }
  | some .cwd =>
    { r with
      fuzzingCommand := "cd ".toList ++ line ++ " && ".toList ++ r.fuzzingCommand
      fuzzingPwds := Function.update r.fuzzingPwds r.i (some line)
      taken := r.taken ++ [.directory line] }

def step (targets : List (List Char)) (r : Reader) (line : List Char) : Reader :=
  if functionsMarker <:+: line then
    { r.flush with state := some .fun_, fuzzingCommand := [], targetsToFuzz := ∅, taken := r.taken ++ [.run] }
  else if environmentMarker <:+: line then { r with state := some .env }
  else if cmdlineMarker <:+: line then { r with state := some .cmd }
  else if cwdMarker <:+: line then { r with state := some .cwd }
  else r.content targets line

end Reader

/-- There is no result without a file and for one that is not in UTF-8. -/
def getFuzzingCommands (targets : List (List Char)) (log : Option Name) : Option Reader := do
  let text ← decode (← log)
  return ((lines text).foldl (Reader.step targets) {}).appendCommand

/-! ### What is written -/

/-- The command line as it should be logged. -/
def quoted : List Name → Name
  | [] => []
  | [arg] => ascii "'" ++ arg ++ ascii "'"
  | arg :: rest => ascii "'" ++ arg ++ ascii "'" ++ ascii " " ++ quoted rest

namespace Run

def signatures (run : Run) : List Name := (run.calls.foldl addWithoutRepetition [ascii "FUNCTIONS:"]).tail

def quotedCmd (run : Run) : Name := nullSeparatedWordsToQuotedWords ((cmdline run.argv).take cmdSize)

def logged (run : Run) : Bool := run.signatures ≠ []

def lines (run : Run) : List Name :=
  ascii "FUNCTIONS:" :: run.signatures ++ ascii "ENVIRONMENT:" :: run.environ ++
    [ascii "CMDLINE:", run.quotedCmd, ascii "CWD:", run.cwd, ascii "\n\n\n"]

end Run

theorem foldl_enterFunction (calls : List Name) (log : Option Name) (lines : List Name) :
    calls.foldl Recorder.enterFunction ⟨log, true, some lines⟩ =
      ⟨log, true, some (calls.foldl addWithoutRepetition lines)⟩ := by
  induction calls generalizing lines with
  | nil => rfl
  | cons sig calls ih => exact ih _

theorem foldl_addWithoutRepetition (calls lines : List Name) :
    ∃ new, calls.foldl addWithoutRepetition lines = lines ++ new := by
  induction calls generalizing lines with
  | nil => exact ⟨[], by simp⟩
  | cons sig calls ih =>
    obtain ⟨new, same⟩ := ih (addWithoutRepetition lines sig)
    rw [List.foldl_cons, same, addWithoutRepetition]
    split
    · exact ⟨new, rfl⟩
    · exact ⟨sig :: new, by simp⟩

theorem Run.recorded (run : Run) :
    run.calls.foldl addWithoutRepetition [ascii "FUNCTIONS:"] = ascii "FUNCTIONS:" :: run.signatures := by
  obtain ⟨new, same⟩ := foldl_addWithoutRepetition run.calls [ascii "FUNCTIONS:"]
  rw [Run.signatures, same]
  rfl

theorem Run.process_eq (run : Run) (log : Option Name) :
    run.process log = if run.logged then addToLog log run.lines else log := by
  have recorded : run.calls.foldl Recorder.enterFunction (Recorder.init { log }) =
      ⟨log, true, some (ascii "FUNCTIONS:" :: run.signatures)⟩ := by
    rw [← run.recorded]
    exact foldl_enterFunction _ _ _
  have count : 1 < (ascii "FUNCTIONS:" :: run.signatures).length ↔ run.logged = true := by
    simp [Run.logged, List.length_pos_iff]
  simp only [Run.process, recorded, Recorder.deinit, if_true, Option.getD_some, count, Run.lines, Run.quotedCmd,
    List.append_assoc, List.cons_append, List.nil_append]

theorem foldl_process (runs : List Run) (log : Option Name) : runs.foldl (fun log run => run.process log) log =
    if runs.filter Run.logged = [] then log
    else some (log.getD [] ++ ((runs.filter Run.logged).flatMap Run.lines).flatMap (· ++ [10])) := by
  induction runs generalizing log with
  | nil => simp
  | cons run runs ih =>
    rw [List.foldl_cons, ih, run.process_eq]
    cases logged : run.logged with
    | false => simp [logged]
    | true =>
      by_cases rest : runs.filter Run.logged = []
      · simp [logged, rest, addToLog]
      · simp [logged, rest, addToLog]

theorem fuzzLog_eq (runs : List Run) : fuzzLog runs =
    if runs.filter Run.logged = [] then none
    else some (((runs.filter Run.logged).flatMap Run.lines).flatMap (· ++ [10])) := by
  simpa [fuzzLog] using foldl_process runs none

/-! ### The command line -/

theorem cmdline_cons (arg : Name) (argv : List Name) : cmdline (arg :: argv) = arg ++ 0 :: cmdline argv := by
  simp [cmdline]

theorem quoteWords_cmdline {argv : List Name} (terminated : ∀ arg ∈ argv, 0 ∉ arg) (rest : Name) :
    quoteWords argv.length (cmdline argv ++ rest) = quoted argv := by
  induction argv with
  | nil => rfl
  | cons arg argv ih =>
    have word : (cmdline (arg :: argv) ++ rest).takeWhile (· ≠ 0) = arg := by
      rw [cmdline_cons, List.append_assoc, List.cons_append]
      exact Delimited.takeWhile_word (terminated arg (.head _)) _
    have behind : (cmdline (arg :: argv) ++ rest).drop (arg.length + 1) = cmdline argv ++ rest := by
      simp [cmdline_cons, List.drop_append]
    rw [List.length_cons, quoteWords, word, behind, ih fun arg inside => terminated arg (.tail _ inside)]
    cases argv with
    | nil => simp [quoted]
    | cons next argv => simp [quoted]

/-- A piece of the command line holds some arguments, and perhaps a part of the next. -/
theorem take_cmdline {argv : List Name} (terminated : ∀ arg ∈ argv, 0 ∉ arg) (n : Nat) :
    ∃ k tail, (cmdline argv).take n = cmdline (argv.take k) ++ tail ∧ 0 ∉ tail ∧
      (argv.length ≤ k ↔ (cmdline argv).length ≤ n) := by
  induction argv generalizing n with
  | nil => exact ⟨0, [], by simp [cmdline]⟩
  | cons arg argv ih =>
    by_cases short : n ≤ arg.length
    · refine ⟨0, arg.take n, ?_, fun inside => terminated arg (.head _) (List.mem_of_mem_take inside), ?_⟩
      · simp [cmdline, List.take_append_of_le_length short]
      · simp [cmdline_cons]
        omega
    · obtain ⟨k, tail, split, free, whole⟩ :=
        ih (fun arg inside => terminated arg (.tail _ inside)) (n - (arg.length + 1))
      refine ⟨k + 1, tail, ?_, free, ?_⟩
      · have room : n = arg.length + (n - (arg.length + 1) + 1) := by omega
        rw [cmdline_cons, room, List.take_length_add_append, List.take_succ_cons, split]
        simp [cmdline_cons]
      · simp only [cmdline_cons, List.length_cons, List.length_append]
        omega

theorem count_cmdline {argv : List Name} (terminated : ∀ arg ∈ argv, 0 ∉ arg) :
    (cmdline argv).count 0 = argv.length := by
  induction argv with
  | nil => rfl
  | cons arg argv ih =>
    rw [cmdline_cons, List.count_append, List.count_eq_zero.mpr (terminated arg (.head _)), List.count_cons_self,
      ih fun arg inside => terminated arg (.tail _ inside), List.length_cons, Nat.zero_add]

theorem length_quoted_lt (argv : List Name) {rest : List Name} (more : rest ≠ []) :
    (quoted argv).length < (quoted (argv ++ rest)).length := by
  induction argv with
  | nil =>
    cases rest with
    | nil => exact absurd rfl more
    | cons arg rest => cases rest <;> simp [quoted, ascii]
  | cons arg argv ih =>
    cases argv with
    | nil =>
      cases rest with
      | nil => exact absurd rfl more
      | cons next rest => simp [quoted, ascii]
    | cons next argv => simpa [quoted] using ih

/-- The log has the arguments that end in what was read. -/
theorem quoted_take {argv : List Name} (terminated : ∀ arg ∈ argv, 0 ∉ arg) :
    ∃ k tail, (cmdline argv).take cmdSize = cmdline (argv.take k) ++ tail ∧ 0 ∉ tail ∧
      nullSeparatedWordsToQuotedWords ((cmdline argv).take cmdSize) = quoted (argv.take k) ∧
      (argv.length ≤ k ↔ (cmdline argv).length ≤ cmdSize) := by
  obtain ⟨k, tail, split, free, whole⟩ := take_cmdline terminated cmdSize
  have ended : ∀ arg ∈ argv.take k, 0 ∉ arg := fun arg inside => terminated arg (List.mem_of_mem_take inside)
  refine ⟨k, tail, split, free, ?_, whole⟩
  rw [split, nullSeparatedWordsToQuotedWords, List.count_append, count_cmdline ended, List.count_eq_zero.mpr free]
  exact quoteWords_cmdline ended tail

/-- The log has the whole command line exactly if it fits into the buffer. -/
theorem Run.quotedCmd_eq_iff (run : Run) : run.quotedCmd = quoted run.argv ↔ (cmdline run.argv).length ≤ cmdSize := by
  obtain ⟨k, tail, _, _, words, whole⟩ := quoted_take run.terminated
  rw [Run.quotedCmd, words, ← whole]
  constructor
  · intro same
    by_contra short
    have more : run.argv.drop k ≠ [] := by simpa using short
    have less := length_quoted_lt (run.argv.take k) more
    rw [List.take_append_drop, same] at less
    exact absurd less (lt_irrefl _)
  · intro enough
    rw [List.take_of_length_le enough]

/-! ### What is read -/

def markers : List (List Char) := [functionsMarker, environmentMarker, cmdlineMarker, cwdMarker]

/-- A line that the script takes as it is, and for nothing but a line of the part it stands in. -/
structure Plain (line : List Char) : Prop extends IsLine line where
  unmarked : ∀ marker ∈ markers, ¬marker <:+: line

def Readable (string : Name) : Prop := ∃ line, decode string = some line ∧ Plain line

def Reading.Plain : Reading → Prop
  | .run => True
  | .assignment none => False
  | .assignment (some (var, val)) => Testamp.Plain (var ++ '=' :: val)
  | .signature line | .commandLine line | .directory line => Testamp.Plain line

theorem varAndVal_join {line : List Char} (inside : '=' ∈ line) :
    (varAndVal line).1 ++ '=' :: (varAndVal line).2 = line := by
  have rest : line.dropWhile (· ≠ '=') = '=' :: (line.dropWhile (· ≠ '=')).drop 1 := by
    cases behind : line.dropWhile (· ≠ '=') with
    | nil =>
      rw [List.dropWhile_eq_nil_iff] at behind
      simpa using behind '=' inside
    | cons c rest =>
      have head := List.head?_dropWhile_not (· ≠ '=') line
      simp_all
  rw [varAndVal, if_pos inside]
  dsimp only
  rw [← rest, List.takeWhile_append_dropWhile]

theorem plain_doubled {line : List Char} (plain : Plain line) : Plain (line.dropLast ++ '=' :: line) where
  nonempty := by simp
  stripped := by
    obtain ⟨first, last⟩ := strip_eq_self_iff.mp plain.stripped
    rw [List.dropWhile_eq_self_iff] at first
    rw [List.rdropWhile_eq_self_iff] at last
    refine strip_eq_self_iff.mpr
      ⟨List.dropWhile_eq_self_iff.mpr fun _ => ?_, List.rdropWhile_eq_self_iff.mpr fun _ => ?_⟩
    · cases line with
      | nil => exact absurd rfl plain.nonempty
      | cons c rest =>
        cases rest with
        | nil => exact (by decide : ¬isSpace '=' = true)
        | cons d rest => simpa using first
    · rw [List.getLast_append_of_ne_nil _ (by simp), List.getLast_cons plain.nonempty]
      exact last plain.nonempty
  unbroken := by
    intro c inside
    rw [List.mem_append, List.mem_cons] at inside
    obtain inside | rfl | inside := inside
    · exact plain.unbroken c (List.mem_of_mem_dropLast inside)
    · rfl
    · exact plain.unbroken c inside
  unmarked := by
    intro marker listed inside
    have free : ∀ marker ∈ markers, '=' ∉ marker := by decide
    cases (Delimited.infix_split (free marker listed)).mp inside with
    | inl inside => exact plain.unmarked marker listed (inside.trans (List.dropLast_prefix line).isInfix)
    | inr inside => exact plain.unmarked marker listed inside

theorem varAndVal_plain {line : List Char} (plain : Plain line) :
    Reading.Plain (.assignment (some (varAndVal line))) := by
  by_cases inside : '=' ∈ line
  · simpa [Reading.Plain, varAndVal_join inside] using plain
  · simpa [Reading.Plain, varAndVal, inside] using plain_doubled plain

namespace Reader
variable {targets : List (List Char)} {r : Reader} {line : List Char}

theorem step_plain (plain : Plain line) : r.step targets line = r.content targets line := by
  rw [step, if_neg (plain.unmarked _ (.head _)), if_neg (plain.unmarked _ (.tail _ (.head _))),
    if_neg (plain.unmarked _ (.tail _ (.tail _ (.head _)))),
    if_neg (plain.unmarked _ (.tail _ (.tail _ (.tail _ (.head _)))))]

/-- Whatever the file holds: what was taken for a field was one line without a marker. -/
theorem step_taken (isLine : IsLine line) (before : ∀ reading ∈ r.taken, reading.Plain) :
    ∀ reading ∈ (r.step targets line).taken, reading.Plain := by
  have added : ∀ reading : Reading, reading.Plain → ∀ old ∈ r.taken ++ [reading], old.Plain := by
    intro reading plain old inside
    rw [List.mem_append, List.mem_singleton] at inside
    obtain inside | rfl := inside
    · exact before old inside
    · exact plain
  unfold step
  split_ifs with functions environment commandLine directory
  · exact added .run trivial
  · exact before
  · exact before
  · exact before
  · have plain : Plain line := ⟨isLine, by
      simpa [markers] using ⟨functions, environment, commandLine, directory⟩⟩
    cases part : r.state with
    | none => simpa [content, part] using before
    | some part' =>
      cases part' with
      | fun_ => simpa [content, part] using added (.signature line) plain
      | env => simpa [content, part] using added _ (varAndVal_plain plain)
      | cmd => simpa [content, part] using added (.commandLine line) plain
      | cwd => simpa [content, part] using added (.directory line) plain

end Reader

/-! ### What should come back -/

/-- A string of the log as text. -/
def text (string : Name) : List Char := (decode string).getD []

/-- An entry of the environment as an assignment. -/
def assignment (entry : List Char) : Option (List Char × List Char) :=
  if '=' ∈ entry then some (varAndVal entry) else none

def commandText (assignments : List (List Char × List Char)) (i : Nat) (cmd cwd : List Char) : List Char :=
  "cd ".toList ++ cwd ++ " && ".toList ++ (assignments.reverse.flatMap assignmentText ++ aflFuzzText i cmd)

def matched (targets signatures : List (List Char)) : Finset (List Char) :=
  {target ∈ targets.toFinset | ∃ signature ∈ signatures, isTargetInSignature target signature = true}

namespace Run

/-- The targets the run entered. -/
def executed (run : Run) (targets : List (List Char)) : Finset (List Char) := matched targets (run.calls.map text)

/-- The command for fuzzer `i` that repeats the run. -/
def command (run : Run) (i : Nat) : List Char :=
  commandText (run.environ.filterMap fun entry => assignment (text entry)) i (text (quoted run.argv)) (text run.cwd)

/-- What the strings of the log are to be taken for. -/
def readings (run : Run) : List Reading :=
  .run :: run.signatures.map (fun sig => .signature (text sig)) ++
    run.environ.map (fun entry => .assignment (assignment (text entry))) ++
    [.commandLine (text run.quotedCmd), .directory (text run.cwd)]

def strings (run : Run) : List Name := run.signatures ++ run.environ ++ [run.quotedCmd, run.cwd]

/-- Every string is one line without a marker, and every entry an assignment. -/
structure Legible (run : Run) : Prop where
  readable : ∀ string ∈ run.strings, Readable string
  assigns : ∀ entry ∈ run.environ, '=' ∈ text entry

end Run

theorem mem_foldl_addWithoutRepetition {calls lines : List Name} {sig : Name} :
    sig ∈ calls.foldl addWithoutRepetition lines ↔ sig ∈ lines ∨ sig ∈ calls := by
  induction calls generalizing lines with
  | nil => simp
  | cons call calls ih =>
    rw [List.foldl_cons, ih, addWithoutRepetition]
    split
    · next old =>
      simp only [List.mem_cons]
      constructor
      · rintro (inside | inside)
        · exact .inl inside
        · exact .inr (.inr inside)
      · rintro (inside | rfl | inside)
        · exact .inl inside
        · exact .inl old
        · exact .inr inside
    · simp [or_assoc]

-- The test is a Boolean: with every library in scope a bounded quantifier over `Char` is decided by all characters.
theorem decode_ascii {line : String} (low : line.toList.all fun c => c.toNat < 128) :
    decode (ascii line) = some line.toList := by
  rw [ascii, ← encode_ascii (by simpa using low), decode_encode]

theorem text_ascii {line : String} (low : line.toList.all fun c => c.toNat < 128) :
    text (ascii line) = line.toList := by
  rw [text, decode_ascii low, Option.getD_some]

/-- The first line of the log stands for no target. -/
theorem Run.executed_eq (run : Run) (targets : List (List Char)) :
    run.executed targets = matched targets (run.signatures.map text) := by
  have members : ∀ sig, sig = ascii "FUNCTIONS:" ∨ sig ∈ run.signatures ↔
      sig = ascii "FUNCTIONS:" ∨ sig ∈ run.calls := by
    intro sig
    rw [← List.mem_cons, ← run.recorded, mem_foldl_addWithoutRepetition, List.mem_singleton]
  have header : ∀ target, isTargetInSignature target (text (ascii "FUNCTIONS:")) = false := by
    intro target
    rw [text_ascii (by decide)]
    have blank : ' ' ∉ "FUNCTIONS:".toList := by decide
    simp only [isTargetInSignature, Bool.or_eq_false_iff, decide_eq_false_iff_not]
    exact ⟨fun inside => blank (inside.subset (by simp)), fun inside => blank (inside.subset (by simp))⟩
  ext target
  simp only [Run.executed, matched, Finset.mem_filter, List.mem_map, exists_exists_and_eq_and]
  refine and_congr_right fun _ => ⟨?_, ?_⟩
  · rintro ⟨sig, called, found⟩
    obtain rfl | signed := (members sig).mpr (.inr called)
    · rw [header] at found
      cases found
    · exact ⟨sig, signed, found⟩
  · rintro ⟨sig, signed, found⟩
    obtain rfl | called := (members sig).mp (.inr signed)
    · rw [header] at found
      cases found
    · exact ⟨sig, called, found⟩

theorem Readable.plain {string : Name} (readable : Readable string) : Plain (text string) := by
  obtain ⟨line, decoded, plain⟩ := readable
  simpa [text, decoded] using plain

theorem flatMap_lines {strings : List Name} (plain : ∀ string ∈ strings, Plain (text string)) :
    (strings.flatMap fun string => lines (text string)) = strings.map text := by
  induction strings with
  | nil => rfl
  | cons string strings ih =>
    rw [List.flatMap_cons, (plain string (.head _)).lines, ih fun string inside => plain string (.tail _ inside)]
    rfl

theorem Run.Legible.plain {run : Run} (legible : run.Legible) : (∀ sig ∈ run.signatures, Plain (text sig)) ∧
    (∀ entry ∈ run.environ, Plain (text entry)) ∧ Plain (text run.quotedCmd) ∧ Plain (text run.cwd) := by
  have plain : ∀ string ∈ run.strings, Plain (text string) :=
    fun string inside => (legible.readable string inside).plain
  simpa only [Run.strings, List.mem_append, List.mem_cons, List.not_mem_nil, or_false, or_imp, forall_and,
    forall_eq, and_assoc] using plain

theorem Run.Legible.lines {run : Run} (legible : run.Legible) :
    (run.lines.flatMap fun string => Text.lines (text string)) =
      functionsMarker :: run.signatures.map text ++ environmentMarker :: run.environ.map text ++
        [cmdlineMarker, text run.quotedCmd, cwdMarker, text run.cwd] := by
  obtain ⟨signatures, environ, cmd, cwd⟩ := legible.plain
  have markers : Text.lines (text (ascii "FUNCTIONS:")) = [functionsMarker] ∧
      Text.lines (text (ascii "ENVIRONMENT:")) = [environmentMarker] ∧
      Text.lines (text (ascii "CMDLINE:")) = [cmdlineMarker] ∧ Text.lines (text (ascii "CWD:")) = [cwdMarker] ∧
      Text.lines (text (ascii "\n\n\n")) = [] := by
    rw [text_ascii (by decide), text_ascii (by decide), text_ascii (by decide), text_ascii (by decide),
      text_ascii (by decide)]
    decide
  simp only [Run.lines, List.flatMap_append, List.flatMap_cons, List.flatMap_nil, markers, flatMap_lines signatures,
    flatMap_lines environ, cmd.lines, cwd.lines, List.append_nil, List.cons_append, List.nil_append]

namespace Reader
variable {targets : List (List Char)} {r : Reader}

theorem read_signatures {texts : List (List Char)} (plain : ∀ line ∈ texts, Plain line) (part : r.state = some .fun_) :
    texts.foldl (step targets) r = { r with
      targetsToFuzz := r.targetsToFuzz ∪ matched targets texts
      executedTargets := r.executedTargets ∪ matched targets texts
      taken := r.taken ++ texts.map .signature } := by
  induction texts generalizing r with
  | nil => simp [matched]
  | cons line texts ih =>
    have found : (targets.filter fun target => isTargetInSignature target line).toFinset ∪ matched targets texts =
        matched targets (line :: texts) := by
      ext target
      simp only [matched, Finset.mem_union, List.mem_toFinset, List.mem_filter, Finset.mem_filter, List.mem_cons,
        exists_eq_or_imp, and_or_left]
    rw [List.foldl_cons, step_plain (plain line (.head _)),
      ih (fun line inside => plain line (.tail _ inside)) (by simp [content, part])]
    simp [content, part, ← found, Finset.union_assoc]

theorem read_environ {texts : List (List Char)} (plain : ∀ line ∈ texts, Plain line) (part : r.state = some .env) :
    texts.foldl (step targets) r = { r with
      fuzzingCommand := (texts.map varAndVal).reverse.flatMap assignmentText ++ r.fuzzingCommand
      taken := r.taken ++ texts.map fun line => .assignment (some (varAndVal line)) } := by
  induction texts generalizing r with
  | nil => simp
  | cons line texts ih =>
    rw [List.foldl_cons, step_plain (plain line (.head _)),
      ih (fun line inside => plain line (.tail _ inside)) (by simp [content, part])]
    simp [content, part]

theorem step_functions : r.step targets functionsMarker =
    { r.flush with state := some .fun_, fuzzingCommand := [], targetsToFuzz := ∅, taken := r.taken ++ [.run] } := by
  rw [step, if_pos List.infix_rfl]

theorem step_environment : r.step targets environmentMarker = { r with state := some .env } := by
  rw [step, if_neg (by decide), if_pos List.infix_rfl]

theorem step_cmdline : r.step targets cmdlineMarker = { r with state := some .cmd } := by
  rw [step, if_neg (by decide), if_neg (by decide), if_pos List.infix_rfl]

theorem step_cwd : r.step targets cwdMarker = { r with state := some .cwd } := by
  rw [step, if_neg (by decide), if_neg (by decide), if_neg (by decide), if_pos List.infix_rfl]

theorem flush_executedTargets : r.flush.executedTargets = r.executedTargets := by
  unfold flush
  split <;> rfl

theorem flush_fuzzingPwds : r.flush.fuzzingPwds = r.fuzzingPwds := by
  unfold flush
  split <;> rfl

/-- The reader at the end of a run. -/
def afterRun (targets : List (List Char)) (r : Reader) (run : Run) : Reader :=
  { r.flush with
    state := some .cwd
    fuzzingCommand := commandText (run.environ.map fun entry => varAndVal (text entry)) r.flush.i (text run.quotedCmd)
      (text run.cwd)
    targetsToFuzz := run.executed targets
    executedTargets := r.executedTargets ∪ run.executed targets
    fuzzingPwds := Function.update r.fuzzingPwds r.flush.i (some (text run.cwd))
    taken := r.taken ++ run.readings }

theorem read_run {run : Run} (legible : run.Legible) :
    (run.lines.flatMap fun string => Text.lines (text string)).foldl (step targets) r = r.afterRun targets run := by
  obtain ⟨signatures, environ, cmd, cwd⟩ := legible.plain
  have assigned : run.environ.map (fun entry => Reading.assignment (assignment (text entry))) =
      run.environ.map fun entry => .assignment (some (varAndVal (text entry))) := by
    refine List.map_congr_left fun entry inside => ?_
    rw [assignment, if_pos (legible.assigns entry inside)]
  rw [legible.lines]
  simp only [List.foldl_append, List.foldl_cons, List.foldl_nil]
  rw [step_environment, read_environ (by simpa using environ) rfl, step_functions,
    read_signatures (by simpa using signatures) rfl, ← run.executed_eq]
  simp only [step_cmdline, step_plain cmd, step_cwd, step_plain cwd, content,
    afterRun, Run.readings, assigned, commandText, flush_executedTargets, flush_fuzzingPwds,
    Finset.empty_union, List.map_map, List.append_assoc, List.append_nil, List.nil_append, List.cons_append,
    Function.comp_def]

theorem read_runs {runs : List Run} (legible : ∀ run ∈ runs, run.Legible) :
    ((runs.flatMap Run.lines).flatMap fun string => Text.lines (text string)).foldl (step targets) r =
      runs.foldl (afterRun targets) r := by
  induction runs generalizing r with
  | nil => rfl
  | cons run runs ih =>
    rw [List.flatMap_cons, List.flatMap_append, List.foldl_append, read_run (legible run (.head _)),
      ih fun run inside => legible run (.tail _ inside), List.foldl_cons]

theorem foldl_taken {read : List (List Char)} (isLine : ∀ line ∈ read, IsLine line)
    (before : ∀ reading ∈ r.taken, reading.Plain) :
    ∀ reading ∈ (read.foldl (step targets) r).taken, reading.Plain := by
  induction read generalizing r with
  | nil => exact before
  | cons line read ih =>
    exact ih (fun line inside => isLine line (.tail _ inside)) (step_taken (isLine line (.head _)) before)

end Reader

theorem mapM_decode {strings : List Name} {texts : List (List Char)} : strings.mapM decode = some texts ↔
    (∀ string ∈ strings, (decode string).isSome) ∧ texts = strings.map text := by
  induction strings generalizing texts with
  | nil =>
    rw [List.mapM_nil, Option.pure_def, Option.some.injEq, eq_comm]
    simp
  | cons string strings ih =>
    simp only [List.mapM_cons, Option.bind_eq_bind, Option.bind_eq_some_iff, ih, Option.pure_def, Option.some.injEq,
      List.forall_mem_cons, List.map_cons]
    constructor
    · rintro ⟨line, decoded, _, ⟨rest, rfl⟩, rfl⟩
      exact ⟨⟨by simp [decoded], rest⟩, by simp [text, decoded]⟩
    · rintro ⟨⟨decoded, rest⟩, rfl⟩
      obtain ⟨line, decoded⟩ := Option.isSome_iff_exists.mp decoded
      exact ⟨line, decoded, _, ⟨rest, rfl⟩, by simp [text, decoded]⟩

/-- The script's result, in terms of the strings that were written. -/
theorem getFuzzingCommands_eq_some {targets : List (List Char)} {runs : List Run} {r : Reader} :
    getFuzzingCommands targets (fuzzLog runs) = some r ↔ runs.filter Run.logged ≠ [] ∧
      (∀ string ∈ (runs.filter Run.logged).flatMap Run.lines, (decode string).isSome) ∧
      r = ((((runs.filter Run.logged).flatMap Run.lines).flatMap fun string => lines (text string)).foldl
        (Reader.step targets) {}).appendCommand := by
  rw [fuzzLog_eq]
  split
  · next none => simp [getFuzzingCommands, none]
  · next some =>
    simp only [getFuzzingCommands, Option.bind_eq_bind, Option.bind_some, Option.bind_eq_some_iff, decode_joined,
      mapM_decode, Option.pure_def, Option.some.injEq]
    constructor
    · rintro ⟨_, ⟨_, ⟨decoded, rfl⟩, rfl⟩, rfl⟩
      refine ⟨some, decoded, ?_⟩
      rw [lines_joined, List.flatMap_map]
    · rintro ⟨_, decoded, rfl⟩
      refine ⟨_, ⟨_, ⟨decoded, rfl⟩, rfl⟩, ?_⟩
      rw [lines_joined, List.flatMap_map]

theorem Run.legible_of_readings {run : Run} (decoded : ∀ string ∈ run.lines, (decode string).isSome)
    (plain : ∀ reading ∈ run.readings, reading.Plain) : run.Legible := by
  have readable : ∀ string ∈ run.lines, Plain (text string) → Readable string := by
    intro string inside plain
    obtain ⟨line, is⟩ := Option.isSome_iff_exists.mp (decoded string inside)
    exact ⟨line, is, by simpa [text, is] using plain⟩
  simp only [Run.lines, List.mem_append, List.mem_cons, List.not_mem_nil, or_false] at readable
  simp only [Run.readings, List.mem_append, List.mem_cons, List.mem_map, List.not_mem_nil, or_false] at plain
  have entry : ∀ entry ∈ run.environ, '=' ∈ text entry ∧ Plain (text entry) := by
    intro entry inside
    have pair := plain _ (.inl (.inr ⟨entry, inside, rfl⟩))
    by_cases assigns : '=' ∈ text entry
    · rw [assignment, if_pos assigns] at pair
      exact ⟨assigns, varAndVal_join assigns ▸ pair⟩
    · rw [assignment, if_neg assigns] at pair
      exact pair.elim
  refine ⟨?_, fun string inside => (entry string inside).1⟩
  simp only [Run.strings, List.mem_append, List.mem_cons, List.not_mem_nil, or_false]
  rintro string ((inside | inside) | rfl | rfl)
  · exact readable string (.inl (.inl (.inr inside))) (plain _ (.inl (.inl (.inr ⟨string, inside, rfl⟩))))
  · exact readable string (.inl (.inr (.inr inside))) (entry string inside).2
  · exact readable _ (.inr (.inr (.inl rfl))) (plain _ (.inr (.inl rfl)))
  · exact readable _ (.inr (.inr (.inr (.inr (.inl rfl))))) (plain _ (.inr (.inr rfl)))

theorem Run.Legible.decoded {run : Run} (legible : run.Legible) : ∀ string ∈ run.lines, (decode string).isSome := by
  have readable : ∀ string ∈ run.strings, (decode string).isSome := by
    intro string inside
    obtain ⟨line, decoded, _⟩ := legible.readable string inside
    simp [decoded]
  have markers : ∀ line : String, (line.toList.all fun c => c.toNat < 128) → (decode (ascii line)).isSome := by
    intro line low
    simp [decode_ascii low]
  simp only [Run.strings, List.mem_append, List.mem_cons, List.not_mem_nil, or_false] at readable
  simp only [Run.lines, List.mem_append, List.mem_cons, List.not_mem_nil, or_false]
  rintro string (((rfl | inside) | rfl | inside) | rfl | rfl | rfl | rfl | rfl)
  · exact markers _ (by decide)
  · exact readable string (.inl (.inl inside))
  · exact markers _ (by decide)
  · exact readable string (.inl (.inr inside))
  · exact markers _ (by decide)
  · exact readable _ (.inr (.inl rfl))
  · exact markers _ (by decide)
  · exact readable _ (.inr (.inr rfl))
  · exact markers _ (by decide)

/-! ### The sequence of runs -/

namespace Reader
variable {targets : List (List Char)} {r : Reader}

/-- The command the script makes of a legible run. -/
def commandOf (run : Run) (i : Nat) : List Char :=
  commandText (run.environ.map fun entry => varAndVal (text entry)) i (text run.quotedCmd) (text run.cwd)

/-- What the script returns after some runs more. -/
def commandsAfter (targets : List (List Char)) (r : Reader) (runs : List Run) : List (Finset (List Char) × List Char) :=
  (runs.foldl (afterRun targets) r).appendCommand.fuzzingCommands

section
variable {run : Run}

theorem flush_afterRun (kept : (run.executed targets).Nonempty) : (r.afterRun targets run).flush =
    { r.afterRun targets run with
      fuzzingCommands := r.flush.fuzzingCommands ++ [(run.executed targets, commandOf run r.flush.i)]
      i := r.flush.i + 1 } :=
  if_pos kept

theorem flush_afterRun_of_empty (dropped : ¬(run.executed targets).Nonempty) :
    (r.afterRun targets run).flush = r.afterRun targets run :=
  if_neg dropped

end

theorem flush_start : ({} : Reader).flush = {} := if_neg (by simp)

theorem taken_foldl (runs : List Run) :
    (runs.foldl (afterRun targets) r).taken = r.taken ++ runs.flatMap Run.readings := by
  induction runs generalizing r with
  | nil => simp
  | cons run runs ih => simp [ih, afterRun]

/-- A run without targets is lost when another one follows. -/
theorem length_commandsAfter {runs : List Run} (some : runs ≠ []) : (r.commandsAfter targets runs).length =
    r.flush.fuzzingCommands.length + runs.dropLast.countP (fun run => (run.executed targets).Nonempty) + 1 := by
  induction runs generalizing r with
  | nil => exact absurd rfl some
  | cons run runs ih =>
    cases runs with
    | nil => simp [commandsAfter, afterRun, appendCommand]
    | cons next runs =>
      have rest := @ih (r.afterRun targets run) (by simp)
      have first : r.commandsAfter targets (run :: next :: runs) =
        (r.afterRun targets run).commandsAfter targets (next :: runs) := rfl
      rw [first, rest, List.dropLast_cons_cons, List.countP_cons]
      by_cases kept : (run.executed targets).Nonempty
      · simp only [flush_afterRun kept, kept, List.length_append, List.length_singleton, decide_true, if_true]
        omega
      · rw [flush_afterRun_of_empty kept]
        simp [kept, afterRun]

theorem commandsAfter_eq {runs : List Run} (some : runs ≠ [])
    (kept : ∀ run ∈ runs.dropLast, (run.executed targets).Nonempty) : r.commandsAfter targets runs =
    r.flush.fuzzingCommands ++ runs.mapIdx fun j run => (run.executed targets, commandOf run (r.flush.i + j)) := by
  induction runs generalizing r with
  | nil => exact absurd rfl some
  | cons run runs ih =>
    cases runs with
    | nil => rfl
    | cons next runs =>
      rw [List.dropLast_cons_cons, List.forall_mem_cons] at kept
      have rest := @ih (r.afterRun targets run) (by simp) kept.2
      have first : r.commandsAfter targets (run :: next :: runs) =
        (r.afterRun targets run).commandsAfter targets (next :: runs) := rfl
      rw [first, rest, flush_afterRun kept.1]
      simp only [List.mapIdx_cons, List.append_assoc, List.singleton_append, Nat.zero_add, Nat.add_assoc,
        Nat.add_comm, Nat.add_left_comm]

theorem fuzzingPwds_foldl {runs : List Run} (kept : ∀ run ∈ runs.dropLast, (run.executed targets).Nonempty) (k : Nat) :
    (runs.foldl (afterRun targets) r).fuzzingPwds k =
      if k < r.flush.i then r.fuzzingPwds k
      else (runs[k - r.flush.i]?.map fun run => text run.cwd).or (r.fuzzingPwds k) := by
  induction runs generalizing r with
  | nil => simp
  | cons run runs ih =>
    have here : (r.afterRun targets run).fuzzingPwds k =
        if k = r.flush.i then Option.some (text run.cwd) else r.fuzzingPwds k := by
      exact Function.update_apply _ _ _ _
    cases runs with
    | nil =>
      rw [List.foldl_cons, List.foldl_nil, here]
      obtain less | rfl | more := lt_trichotomy k r.flush.i
      · rw [if_neg (by omega), if_pos less]
      · simp
      · have behind : [run][k - r.flush.i]? = none := List.getElem?_eq_none (by simp; omega)
        rw [if_neg (by omega), if_neg (by omega), behind, Option.map_none, Option.none_or]
    | cons next runs =>
      rw [List.dropLast_cons_cons, List.forall_mem_cons] at kept
      rw [List.foldl_cons, ih kept.2, flush_afterRun kept.1, here]
      dsimp only
      obtain less | rfl | more := lt_trichotomy k r.flush.i
      · rw [if_pos (by omega), if_neg (by omega), if_pos less]
      · simp
      · have behind : k - r.flush.i = k - (r.flush.i + 1) + 1 := by omega
        rw [if_neg (by omega), if_neg (by omega), if_neg (by omega), behind, List.getElem?_cons_succ]

end Reader

/-- The script finds, run by run, what was written: nothing is taken for anything else, and the
commands and directories are those of the runs. -/
def Recovered (targets : List (List Char)) (runs : List Run) : Prop :=
  ∃ r, getFuzzingCommands targets (fuzzLog runs) = some r ∧
    r.taken = (runs.filter Run.logged).flatMap Run.readings ∧
    r.fuzzingCommands =
      (runs.filter Run.logged).mapIdx (fun i run => (run.executed targets, run.command i)) ∧
    ∀ i, r.fuzzingPwds i = (runs.filter Run.logged)[i]?.map fun run => text run.cwd

theorem Readable.text_inj {string other : Name} (readable : Readable string) (same : text string = text other) :
    string = other := by
  obtain ⟨line, decoded, plain⟩ := readable
  rw [text, decoded, Option.getD_some] at same
  cases other' : decode other with
  | none =>
    rw [text, other'] at same
    exact absurd same plain.nonempty
  | some line' =>
    rw [text, other', Option.getD_some] at same
    rw [decode_eq_some.mp decoded, decode_eq_some.mp other', same]

theorem commandText_inj {assignments : List (List Char × List Char)} {i : Nat} {cmd other cwd : List Char} :
    commandText assignments i cmd cwd = commandText assignments i other cwd ↔ cmd = other := by
  unfold commandText aflFuzzText
  -- The texts around the command line do not matter.
  generalize "cd ".toList ++ cwd ++ " && ".toList = first
  generalize " afl-fuzz -o /opt/fuzzing/fuzzer_".toList ++ Nat.toDigits 10 i ++ " -t 10000 -- ".toList = second
  generalize "  ".toList = last
  simp only [List.append_assoc, List.append_cancel_left_eq, List.append_cancel_right_eq]

theorem Run.Legible.command_iff {run : Run} (legible : run.Legible) (i : Nat) :
    Reader.commandOf run i = run.command i ↔ (cmdline run.argv).length ≤ cmdSize := by
  have assigned : (run.environ.filterMap fun entry => assignment (text entry)) =
      run.environ.map fun entry => varAndVal (text entry) := by
    rw [List.filterMap_eq_map_iff_forall_eq_some]
    exact fun entry inside => if_pos (legible.assigns entry inside)
  have readable : Readable run.quotedCmd := legible.readable _ (by simp [Run.strings])
  rw [← run.quotedCmd_eq_iff, Reader.commandOf, Run.command, assigned, commandText_inj]
  exact ⟨readable.text_inj, congrArg text⟩

/-- The log comes back exactly if some run was logged, every string of the log is one line
without a marker, every entry of the environment is an assignment, every command line fits into the
buffer, and every run but the last has entered a target of the configuration. -/
theorem recovered_iff (targets : List (List Char)) (runs : List Run) :
    Recovered targets runs ↔ runs.filter Run.logged ≠ [] ∧
      (∀ run ∈ runs.filter Run.logged, run.Legible ∧ (cmdline run.argv).length ≤ cmdSize) ∧
      ∀ run ∈ (runs.filter Run.logged).dropLast, (run.executed targets).Nonempty := by
  simp only [Recovered, getFuzzingCommands_eq_some]
  generalize runs.filter Run.logged = runs
  constructor
  · rintro ⟨r, ⟨some, decoded, rfl⟩, taken, commands, _⟩
    have plain : ∀ reading ∈ runs.flatMap Run.readings, reading.Plain := by
      rw [← taken]
      refine Reader.foldl_taken ?_ (by simp)
      intro line inside
      obtain ⟨string, _, inside⟩ := List.mem_flatMap.mp inside
      exact isLine_of_mem_lines inside
    have legible : ∀ run ∈ runs, run.Legible := by
      intro run inside
      exact Run.legible_of_readings (fun string here => decoded string (List.mem_flatMap.mpr ⟨run, inside, here⟩))
        fun reading here => plain reading (List.mem_flatMap.mpr ⟨run, inside, here⟩)
    rw [Reader.read_runs legible, ← Reader.commandsAfter] at commands
    have kept : ∀ run ∈ runs.dropLast, (run.executed targets).Nonempty := by
      have sizes := congrArg List.length commands
      rw [Reader.length_commandsAfter some, Reader.flush_start, List.length_mapIdx] at sizes
      have all : runs.dropLast.countP (fun run => (run.executed targets).Nonempty) = runs.dropLast.length := by
        rw [List.length_dropLast]
        simp only [List.length_nil] at sizes
        omega
      rw [List.countP_eq_length] at all
      simpa using all
    rw [Reader.commandsAfter_eq some kept, Reader.flush_start, List.nil_append] at commands
    refine ⟨some, fun run inside => ⟨legible run inside, ?_⟩, kept⟩
    obtain ⟨j, listed⟩ := List.mem_iff_getElem?.mp inside
    have here := congrArg (·[j]?) commands
    simp only [List.getElem?_mapIdx, listed, Option.map_some, Option.some.injEq, Prod.mk.injEq, true_and,
      Nat.zero_add] at here
    exact ((legible run inside).command_iff j).mp here
  · rintro ⟨some, clean, kept⟩
    have legible : ∀ run ∈ runs, run.Legible := fun run inside => (clean run inside).1
    refine ⟨_, ⟨some, ?_, rfl⟩, ?_⟩
    · intro string inside
      obtain ⟨run, listed, inside⟩ := List.mem_flatMap.mp inside
      exact (legible run listed).decoded string inside
    · rw [Reader.read_runs legible]
      refine ⟨(Reader.taken_foldl runs).trans (List.nil_append _), ?_, fun i => ?_⟩
      · rw [← Reader.commandsAfter, Reader.commandsAfter_eq some kept, Reader.flush_start, List.nil_append]
        apply List.ext_getElem?
        intro j
        simp only [List.getElem?_mapIdx, Nat.zero_add]
        cases listed : runs[j]? with
        | none => rfl
        | some run =>
          obtain ⟨legible, fits⟩ := clean run (List.mem_of_getElem? listed)
          rw [Option.map_some, Option.map_some, (legible.command_iff j).mpr fits]
      · have pwds := Reader.fuzzingPwds_foldl (r := {}) kept i
        rw [Reader.flush_start] at pwds
        simpa [Reader.appendCommand] using pwds

theorem readable_ascii {line : String} (low : line.toList.all fun c => c.toNat < 128)
    (plain : (line.toList ≠ [] ∧ strip line.toList = line.toList ∧ line.toList.all fun c => !isBreak c) ∧
      ∀ marker ∈ markers, ¬marker <:+: line.toList) : Readable (ascii line) :=
  ⟨line.toList, decode_ascii low, ⟨⟨plain.1.1, plain.1.2.1, by simpa using plain.1.2.2⟩, plain.2⟩⟩

/-- A run of a function with assignments in its environment. -/
def testRun (signature : String) (assignments : List String) (directory : String) : Run where
  calls := [ascii signature]
  environ := assignments.map ascii
  argv := [ascii "t", ascii "a b"]
  terminated := by decide
  cwd := ascii directory

/-- Two runs with assignments, and between them one that entered no function. -/
def testRuns : List Run :=
  [testRun "i32 m.c:f (i32 x)" ["HOME=/root", "OPTS=a=b"] "/tmp",
    { testRun "" ["HOME=/"] "/" with calls := [] },
    testRun "void n.c:g (i8* p)" ["HOME=/root"] "/opt"]

theorem testRuns_recovered : Recovered ["f".toList, "g".toList] testRuns := by
  have logged : testRuns.filter Run.logged =
      [testRun "i32 m.c:f (i32 x)" ["HOME=/root", "OPTS=a=b"] "/tmp",
        testRun "void n.c:g (i8* p)" ["HOME=/root"] "/opt"] := rfl
  have first : (testRun "i32 m.c:f (i32 x)" ["HOME=/root", "OPTS=a=b"] "/tmp").Legible := by
    refine ⟨?_, by decide +kernel⟩
    have strings : (testRun "i32 m.c:f (i32 x)" ["HOME=/root", "OPTS=a=b"] "/tmp").strings =
        [ascii "i32 m.c:f (i32 x)", ascii "HOME=/root", ascii "OPTS=a=b", ascii "'t' 'a b'", ascii "/tmp"] := by
      decide +kernel
    rw [strings]
    simp only [List.mem_cons, List.not_mem_nil, or_false]
    rintro string (rfl | rfl | rfl | rfl | rfl) <;> exact readable_ascii (by decide) (by decide +kernel)
  have second : (testRun "void n.c:g (i8* p)" ["HOME=/root"] "/opt").Legible := by
    refine ⟨?_, by decide +kernel⟩
    have strings : (testRun "void n.c:g (i8* p)" ["HOME=/root"] "/opt").strings =
        [ascii "void n.c:g (i8* p)", ascii "HOME=/root", ascii "'t' 'a b'", ascii "/opt"] := by decide +kernel
    rw [strings]
    simp only [List.mem_cons, List.not_mem_nil, or_false]
    rintro string (rfl | rfl | rfl | rfl) <;> exact readable_ascii (by decide) (by decide +kernel)
  have target : "f".toList ∈ (testRun "i32 m.c:f (i32 x)" ["HOME=/root", "OPTS=a=b"] "/tmp").executed
      ["f".toList, "g".toList] := by decide +kernel
  refine (recovered_iff _ _).mpr ?_
  rw [logged]
  refine ⟨by simp, ?_, ?_⟩
  · simp only [List.forall_mem_cons, List.not_mem_nil, false_imp_iff, implies_true, and_true]
    exact ⟨⟨first, by decide +kernel⟩, second, by decide +kernel⟩
  · simp only [List.dropLast, List.forall_mem_singleton]
    exact ⟨_, target⟩

/-- A run with the variable `P`, whose value is a marker. -/
def markedRun : Run where
  calls := [ascii "i32 m.c:f (i32 x)"]
  environ := [ascii "P=CWD:"]
  argv := [ascii "t"]
  terminated := by decide
  cwd := ascii "/"

def markedLog : List Char :=
  "FUNCTIONS:\ni32 m.c:f (i32 x)\nENVIRONMENT:\nP=CWD:\nCMDLINE:\n't'\nCWD:\n/\n\n\n\n\n".toList

theorem assignment_taken_for_marker :
    (getFuzzingCommands ["f".toList] (fuzzLog [markedRun])).map Reader.fuzzingCommands =
      some [({"f".toList}, "cd / &&  afl-fuzz -o /opt/fuzzing/fuzzer_0 -t 10000 -- 't'  ".toList)] ∧
    ¬Recovered ["f".toList] [markedRun] := by
  have log : fuzzLog [markedRun] = some (encode markedLog) := by decide +kernel
  have result : getFuzzingCommands ["f".toList] (fuzzLog [markedRun]) =
      some ((lines markedLog).foldl (Reader.step ["f".toList]) {}).appendCommand := by
    simp only [getFuzzingCommands, log, Option.bind_eq_bind, Option.bind_some, decode_encode, Option.pure_def]
  refine ⟨?_, ?_⟩
  · rw [result]
    decide +kernel
  · -- Five fields were written, and four are read.
    rintro ⟨r, same, taken, _⟩
    rw [result, Option.some.injEq] at same
    subst same
    exact absurd (congrArg List.length taken) (by decide +kernel)

end AflLive.Testamp
