import AflLive.Library.CString
import AflLive.Library.Shell
import AflLive.Testamp.FuzzLog

/-! The command line in the log, as the library of `testamp` builds it in memory and as a shell
reads it back. -/
namespace AflLive.Testamp
open Control CString

/-! ### The loop in memory -/

namespace Buffer

/-- The block with the words so far, its size, and the offset of the next word in `str`. -/
@[ext] structure Quoting where
  res : List UInt8
  resSize : Nat
  nextArg : Nat

/-- One round; `fresh` is what `realloc` leaves in the new bytes. -/
def quoteArg (fresh : Nat → UInt8) (str : List UInt8) (amountOfArgs i : Nat) (s : Quoting) :
    Except Fault Quoting := do
  let oldSize := s.resSize
  let argSize ← strlen (str.drop s.nextArg)
  let arg := (str.drop s.nextArg).take argSize
  let resSize := s.resSize + argSize + 2 + (if i ≠ amountOfArgs - 1 then 1 else 0)
  let res ← memset (realloc fresh s.res resSize) oldSize 0 (resSize - oldSize)
  let res ← strcat res (ascii "'")
  let res ← strcat res arg
  let res ← strcat res (ascii "'")
  let res ← if i ≠ amountOfArgs - 1 then strcat res (ascii " ") else pure res
  return { res, resSize, nextArg := s.nextArg + argSize + 1 }

def nullSeparatedWordsToQuotedWords (fresh : Nat → Nat → UInt8) (str : List UInt8) (len : Nat) :
    Except Fault (List UInt8) := do
  let amountOfArgs := (str.take len).count 0
  let s ← forTo (fun i => quoteArg (fresh i) str amountOfArgs i) amountOfArgs { res := [0], resSize := 1, nextArg := 0 }
  return s.res

/-- The block `cmd` after `fread`: cleared, with one byte more than is read. -/
def cmd (file : List UInt8) : List UInt8 :=
  file.take cmdSize ++ List.replicate (cmdSize + 1 - (file.take cmdSize).length) 0

section
variable {q arg behind str : List UInt8} {amountOfArgs i nextArg : Nat}

theorem strcat_cleared {text src : List UInt8} {room : Nat} (free : 0 ∉ text) (fits : src.length ≤ room) :
    strcat (text ++ 0 :: List.replicate room 0) src =
      .ok (text ++ src ++ 0 :: List.replicate (room - src.length) 0) := by
  rw [strcat_terminated free (by simpa using fits), List.drop_replicate]

/-- A round appends the next word in quotes, and fills the block up to the terminator. -/
theorem quoteArg_eq (fresh : Nat → UInt8) (ended : 0 ∉ q) (free : 0 ∉ arg)
    (here : str.drop nextArg = arg ++ 0 :: behind) :
    quoteArg fresh str amountOfArgs i ⟨q ++ [0], q.length + 1, nextArg⟩ =
      let words := q ++ ascii "'" ++ arg ++ ascii "'" ++ if i ≠ amountOfArgs - 1 then ascii " " else []
      .ok ⟨words ++ [0], words.length + 1, nextArg + arg.length + 1⟩ := by
  have mark : (ascii "'").length = 1 ∧ 0 ∉ ascii "'" := by decide
  have first : 0 ∉ q ++ ascii "'" := by simp [ended, mark.2]
  have second : 0 ∉ q ++ ascii "'" ++ arg := by simp [ended, mark.2, free]
  have third : 0 ∉ q ++ ascii "'" ++ arg ++ ascii "'" := by simp [ended, mark.2, free]
  -- behind the old terminator there is room for what the round appends
  have grown (size room : Nat) (is : size = q.length + 1 + room) :
      memset (realloc fresh (q ++ [0]) size) (q.length + 1) 0 (size - (q.length + 1)) =
        .ok (q ++ 0 :: List.replicate room 0) := by
    have length : (q ++ [(0 : UInt8)]).length = q.length + 1 := by simp
    have added : size - (q.length + 1) = room := by omega
    have cleared := @memset_realloc (q ++ [0]) size fresh (by omega)
    rw [length, added] at cleared
    rw [added, cleared, List.append_assoc, List.singleton_append]
  unfold quoteArg
  dsimp only
  rw [here, strlen_terminated free, ok_bind, List.take_left]
  by_cases last : i ≠ amountOfArgs - 1
  · simp only [if_pos last]
    rw [grown _ (arg.length + 3) (by omega), ok_bind, strcat_cleared ended (by omega), ok_bind,
      strcat_cleared first (by omega), ok_bind, strcat_cleared second (by omega), ok_bind,
      strcat_cleared third (by simp [ascii]), ok_bind]
    refine congrArg Except.ok (Quoting.ext ?_ ?_ rfl)
    · simp [ascii]
    · simp [ascii]
      omega
  · simp only [if_neg last]
    rw [grown _ (arg.length + 2) (by omega), ok_bind, strcat_cleared ended (by omega), ok_bind,
      strcat_cleared first (by omega), ok_bind, strcat_cleared second (by omega), ok_bind, pure_bind]
    refine congrArg Except.ok (Quoting.ext ?_ ?_ rfl)
    · simp [ascii]
    · simp [ascii]
      omega

end

end Buffer

theorem quoted_cons (arg : Name) (rest : List Name) : quoted (arg :: rest) =
    ascii "'" ++ arg ++ ascii "'" ++ (if rest ≠ [] then ascii " " else []) ++ quoted rest := by
  cases rest with
  | nil => simp [quoted]
  | cons next rest => simp [quoted]

theorem zero_notMem_quoted {argv : List Name} (free : ∀ arg ∈ argv, 0 ∉ arg) : 0 ∉ quoted argv := by
  induction argv with
  | nil => simp [quoted]
  | cons arg argv ih =>
    have later := ih fun arg inside => free arg (List.mem_cons_of_mem _ inside)
    have separator : (0 : UInt8) ∉ if argv ≠ [] then ascii " " else [] := by split <;> decide
    rw [quoted_cons]
    simp only [List.mem_append, not_or]
    exact ⟨⟨⟨⟨by decide, free arg (List.mem_cons_self ..)⟩, by decide⟩, separator⟩, later⟩

theorem cmdline_append (argv rest : List Name) : cmdline (argv ++ rest) = cmdline argv ++ cmdline rest :=
  List.flatMap_append

namespace Buffer

/-- The loop stays in its blocks, and ends with the quoted words and the terminator. -/
theorem quoted_words (fresh : Nat → Nat → UInt8) {words : List Name} {rest : Name} {len : Nat}
    (free : ∀ arg ∈ words, 0 ∉ arg) (counted : ((cmdline words ++ rest).take len).count 0 = words.length) :
    nullSeparatedWordsToQuotedWords fresh (cmdline words ++ rest) len = .ok (quoted words ++ [0]) := by
  have ended : 0 ∉ quoted words := zero_notMem_quoted free
  -- after `i` rounds the first `i` words are in the block, and `nextArg` is behind them
  let I (i : Nat) (s : Quoting) : Prop :=
    ∃ q, s = ⟨q ++ [0], q.length + 1, (cmdline (words.take i)).length⟩ ∧ q ++ quoted (words.drop i) = quoted words
  have loop : Ensures (fun _ : Fault => False) (I words.length)
      (forTo (fun i => quoteArg (fresh i) (cmdline words ++ rest) words.length i) words.length ⟨[0], 1, 0⟩) := by
    refine forTo_ensures words.length ⟨[], by simp [cmdline], by simp⟩ ?_
    rintro i inside _ ⟨q, rfl, before⟩
    have next : words.drop i = words[i] :: words.drop (i + 1) := List.drop_eq_getElem_cons inside
    have here : (cmdline words ++ rest).drop (cmdline (words.take i)).length =
        words[i] ++ 0 :: (cmdline (words.drop (i + 1)) ++ rest) := by
      conv_lhs => rw [← List.take_append_drop i words, cmdline_append, List.append_assoc, List.take_append_drop]
      rw [List.drop_left, next, cmdline_cons, List.append_assoc, List.cons_append]
    have freeRes : 0 ∉ q := fun zero => ended (before ▸ List.mem_append_left _ zero)
    have last : (i ≠ words.length - 1) = (words.drop (i + 1) ≠ []) := by
      rw [ne_eq, ne_eq, List.drop_eq_nil_iff, eq_iff_iff]
      omega
    rw [quoteArg_eq (fresh i) freeRes (free _ (List.getElem_mem inside)) here]
    simp only [last]
    refine ⟨_, Quoting.ext rfl rfl ?_, ?_⟩
    · rw [List.take_succ_eq_append_getElem inside, cmdline_append]
      simp [cmdline]
      omega
    · rw [← before, next, quoted_cons]
      simp only [List.append_assoc]
  unfold nullSeparatedWordsToQuotedWords
  rw [counted]
  refine (loop.bind fun s after => ?_).eq_ok
  obtain ⟨q, rfl, whole⟩ := after
  rw [List.drop_length, quoted, List.append_nil] at whole
  exact congrArg (· ++ [0]) whole

end Buffer

/-! ### What a shell reads -/

theorem quoted_eq (argv : List Name) : quoted argv = Shell.quoteAll argv := by
  induction argv with
  | nil => rfl
  | cons arg argv ih =>
    rw [quoted_cons, ih]
    cases argv with
    | nil => simp [Shell.quoteAll, Shell.quote, ascii]
    | cons next argv => simp [Shell.quoteAll, Shell.quote, ascii]

/-- The logged command line ends inside its buffer, and a shell splits it into the arguments of
the process exactly if none of them has a quote and all were read. -/
theorem Run.command_line_reproduced_iff (run : Run) (fresh : Nat → Nat → UInt8) :
    Buffer.nullSeparatedWordsToQuotedWords fresh (Buffer.cmd (cmdline run.argv))
      ((cmdline run.argv).take cmdSize).length = .ok (run.quotedCmd ++ [0]) ∧
    (Shell.words run.quotedCmd = some run.argv ↔
      (∀ arg ∈ run.argv, Shell.quote ∉ arg) ∧ (cmdline run.argv).length ≤ cmdSize) := by
  obtain ⟨k, tail, split, free, logged, whole⟩ := quoted_take run.terminated
  have ended : ∀ arg ∈ run.argv.take k, 0 ∉ arg :=
    fun arg inside => run.terminated arg (List.mem_of_mem_take inside)
  constructor
  · have counted : ((cmdline run.argv).take cmdSize).count 0 = (run.argv.take k).length := by
      rw [split, List.count_append, count_cmdline ended, List.count_eq_zero.mpr free, Nat.add_zero]
    unfold Run.quotedCmd
    rw [logged, Buffer.cmd]
    generalize (cmdline run.argv).take cmdSize = text at split counted
    subst split
    rw [List.append_assoc]
    refine Buffer.quoted_words fresh ended ?_
    rw [← List.append_assoc, List.take_left]
    exact counted
  · unfold Run.quotedCmd
    rw [logged, quoted_eq, ← whole]
    constructor
    · intro reproduced
      have noQuote := Shell.quote_notMem_of_words reproduced
      rw [Shell.words_quoteAll fun arg inside => noQuote arg (List.mem_of_mem_take inside), Option.some_inj,
        List.take_eq_self_iff] at reproduced
      exact ⟨noQuote, reproduced⟩
    · rintro ⟨noQuote, enough⟩
      rw [List.take_of_length_le enough, Shell.words_quoteAll noQuote]

/-- `echo it's` leaves a quote open, and an argument of 4096 bytes is not logged. -/
theorem command_lines_lost :
    Shell.words (nullSeparatedWordsToQuotedWords ((cmdline [ascii "echo", ascii "it's"]).take cmdSize)) = none ∧
    Shell.words (nullSeparatedWordsToQuotedWords ((cmdline [List.replicate 4096 97]).take cmdSize)) = some [] := by
  decide +kernel

end AflLive.Testamp
