import AflLive.Library.Runs
import AflLive.Testamp.FuzzLog

/-! The log between test processes that end at the same time: `__ah_deinit` appends to the file
between the creation of a lock file with `O_EXCL` and its removal. -/
namespace AflLive.Testamp
open Runs

/-- Where a process is. -/
inductive Stage where
  /-- The test itself, up to the call of `__ah_deinit`. -/
  | testing
  /-- The loop around `open`. -/
  | spinning
  | locked
  /-- `addToLog`, with the bytes that have not reached the file. -/
  | writing (rest : Name)
  | closed
  | done
deriving DecidableEq

/-- Between the creation of the lock file and its removal. -/
def Stage.Inside : Stage → Prop
  | .locked | .writing _ | .closed => True
  | _ => False

/-- The processes of a test suite. -/
structure Suite (ι : Type) where
  lockFile : Bool := false
  log : Option Name := none
  stage : ι → Stage := fun _ => .testing
  killed : ι → Bool := fun _ => false

inductive Act (ι : Type) where
  | go (i : ι)
  /-- The buffer of the stream is written out up to some byte, at the latest by `fclose`. -/
  | flush (i : ι) (n : Nat)
  /-- A process may be killed at any time, also with the lock. -/
  | kill (i : ι)

def Act.process {ι : Type} : Act ι → ι
  | .go i | .flush i _ | .kill i => i

def Run.block (run : Run) : Name := run.lines.flatMap (· ++ [10])

namespace Suite
variable {ι : Type} [DecidableEq ι] (runs : ι → Run)

def move (s : Suite ι) (i : ι) (stage : Stage) : Suite ι := { s with stage := Function.update s.stage i stage }

/-- The steps of `__ah_deinit` on the shared files. -/
def go (s : Suite ι) (i : ι) : Option (Suite ι) :=
  match s.stage i with
  | .testing => some (s.move i (if (runs i).logged then .spinning else .done))
  | .spinning => if s.lockFile then some s else some { s.move i .locked with lockFile := true }
  | .locked => some { s.move i (.writing (runs i).block) with log := some (s.log.getD []) }
  | .writing [] => some (s.move i .closed)
  | .writing (_ :: _) => none
  | .closed => some { s.move i .done with lockFile := false }
  | .done => none

def flush (s : Suite ι) (i : ι) (n : Nat) : Option (Suite ι) :=
  match s.stage i with
  | .writing rest => some { s.move i (.writing (rest.drop n)) with log := some (s.log.getD [] ++ rest.take n) }
  | _ => none

def step (s : Suite ι) : Act ι → Option (Suite ι)
  | .go i => if s.killed i then none else s.go runs i
  | .flush i n => if s.killed i then none else s.flush i n
  | .kill i => some { s with killed := Function.update s.killed i true }

/-- The processes in the order in which they create the lock file. -/
def lockOrder (s : Suite ι) : List (Act ι) → List ι
  | [] => []
  | act :: acts =>
    match s.step runs act with
    | none => []
    | some t => (if !s.lockFile && t.lockFile then [act.process] else []) ++ t.lockOrder acts

end Suite

/-! ### What holds throughout -/

section
variable {ι : Type}

/-- The whole block of the process is in the file. -/
def Written (run : Run) (stage : Stage) : Prop := stage = .closed ∨ stage = .done ∧ run.logged = true

/-- At most one process is inside, and then the lock file is there. -/
structure Exclusive (lockFile : Bool) (stage : ι → Stage) : Prop where
  locked : ∀ i, (stage i).Inside → lockFile = true
  alone : ∀ i j, (stage i).Inside → (stage j).Inside → i = j

/-- The process has the lock, and its block is not complete. -/
def Waiting (stage : Stage) : Prop := stage = .locked ∨ ∃ rest, stage = .writing rest

/-- Behind the old file, the blocks of the processes that have written theirs, in the order in which
they did, and the part that the one inside has written. -/
structure Serial (runs : ι → Run) (old log : Option Name) (stage : ι → Stage) (order waiting : List ι) (part : Name) :
    Prop where
  distinct : (order ++ waiting).Nodup
  written : ∀ i, i ∈ order ↔ Written (runs i) (stage i)
  entered : ∀ i, i ∈ waiting ↔ Waiting (stage i)
  content : log.getD [] = old.getD [] ++ order.flatMap (fun i => (runs i).block) ++ part
  torn : ∀ i rest, stage i = .writing rest → (runs i).block = part ++ rest
  whole : (∀ i rest, stage i ≠ .writing rest) → part = []
  file : log.isSome ↔ old.isSome ∨ order ≠ [] ∨ ∃ i rest, stage i = .writing rest
  logged : ∀ i, stage i = .spinning ∨ (stage i).Inside → (runs i).logged = true

theorem Waiting.inside {stage : Stage} (waits : Waiting stage) : stage.Inside := by
  rcases waits with rfl | ⟨rest, rfl⟩
  · trivial
  · trivial

variable {runs : ι → Run} {lockFile : Bool} {old log : Option Name} {stage : ι → Stage} {i j : ι}
  {order waiting : List ι} {part : Name}

theorem Exclusive.others (exclusive : Exclusive lockFile stage) (inside : (stage i).Inside) (ne : j ≠ i) :
    ¬(stage j).Inside :=
  fun other => ne (exclusive.alone j i other inside)

/-- While a process is inside and does not write, nobody does. -/
theorem Exclusive.nobody_writes (exclusive : Exclusive lockFile stage) (inside : (stage i).Inside)
    (silent : ∀ rest, stage i ≠ .writing rest) (j : ι) (rest : Name) : stage j ≠ .writing rest := by
  intro writes
  by_cases own : j = i
  · exact silent rest (own ▸ writes)
  · exact exclusive.others inside own (by simp [writes, Stage.Inside])

variable [DecidableEq ι]

theorem forall_update {P : ι → Stage → Prop} {now : Stage} (own : P i now) (others : ∀ j, j ≠ i → P j (stage j))
    (j : ι) : P j (Function.update stage i now j) := by
  by_cases same : j = i
  · subst same
    rwa [Function.update_self]
  · rw [Function.update_of_ne same]
    exact others j same

/-- A process moves on while it is inside. -/
theorem Exclusive.move (exclusive : Exclusive lockFile stage) (inside : (stage i).Inside) (now : Stage) :
    Exclusive lockFile (Function.update stage i now) := by
  have old : ∀ j, (Function.update stage i now j).Inside → (stage j).Inside :=
    forall_update (P := fun j now => now.Inside → (stage j).Inside) (fun _ => inside) fun _ _ is => is
  exact ⟨fun j isInside => exclusive.locked j (old j isInside),
    fun j k first second => exclusive.alone j k (old j first) (old k second)⟩

/-- A process that is outside stays outside. -/
theorem Exclusive.pass (exclusive : Exclusive lockFile stage) {now : Stage} (outside : ¬now.Inside) :
    Exclusive lockFile (Function.update stage i now) := by
  have old : ∀ j, (Function.update stage i now j).Inside → (stage j).Inside :=
    forall_update (P := fun j now => now.Inside → (stage j).Inside) (fun is => absurd is outside) fun _ _ is => is
  exact ⟨fun j isInside => exclusive.locked j (old j isInside),
    fun j k first second => exclusive.alone j k (old j first) (old k second)⟩

/-- `open` with `O_EXCL`: there was no lock file, so nobody is inside. -/
theorem Exclusive.acquire (exclusive : Exclusive false stage) : Exclusive true (Function.update stage i .locked) := by
  have outside : ∀ j, ¬(stage j).Inside := fun j inside => nomatch exclusive.locked j inside
  have own : ∀ j, (Function.update stage i .locked j).Inside → j = i :=
    forall_update (P := fun j now => now.Inside → j = i) (fun _ => rfl) fun j _ inside => absurd inside (outside j)
  exact ⟨fun _ _ => rfl, fun j k first second => (own j first).trans (own k second).symm⟩

/-- `unlink`: the one that leaves was the only one inside. -/
theorem Exclusive.release (exclusive : Exclusive lockFile stage) (inside : (stage i).Inside) :
    Exclusive false (Function.update stage i .done) := by
  have outside : ∀ j, ¬(Function.update stage i .done j).Inside :=
    forall_update (P := fun _ now => ¬now.Inside) nofun fun j ne => exclusive.others inside ne
  exact ⟨fun j inside => absurd inside (outside j), fun j _ inside => absurd inside (outside j)⟩

omit [DecidableEq ι] in
/-- The one that waits is the only one inside. -/
theorem Serial.waiting_eq (serial : Serial runs old log stage order waiting part)
    (exclusive : Exclusive lockFile stage) (waits : Waiting (stage i)) : waiting = [i] := by
  have own : ∀ j ∈ waiting, j = i := fun j member =>
    exclusive.alone j i ((serial.entered j).mp member).inside waits.inside
  have distinct := (List.nodup_append.mp serial.distinct).2.1
  match waiting, (serial.entered i).mpr waits, own, distinct with
  | [j], _, own, _ => rw [own j (by simp)]
  | j :: k :: rest, _, own, distinct =>
    have same : j = k := (own j (by simp)).trans (own k (by simp)).symm
    exact absurd (same ▸ by simp) (List.nodup_cons.mp distinct).1

omit [DecidableEq ι] in
theorem Serial.waiting_nil (serial : Serial runs old log stage order waiting part)
    (outside : ∀ i, ¬(stage i).Inside) : waiting = [] :=
  List.eq_nil_iff_forall_not_mem.mpr fun i member => outside i ((serial.entered i).mp member).inside

/-- A step that neither writes to the log nor changes who has written or is about to. -/
theorem Serial.move (serial : Serial runs old log stage order waiting part) {now : Stage}
    (same : Written (runs i) now ↔ Written (runs i) (stage i)) (before : ¬Waiting (stage i)) (after : ¬Waiting now)
    (ready : now = .spinning ∨ now.Inside → (runs i).logged = true) :
    Serial runs old log (Function.update stage i now) order waiting part := by
  obtain ⟨distinct, written, entered, content, torn, whole, file, logged⟩ := serial
  have writers : ∀ j rest, Function.update stage i now j = .writing rest ↔ stage j = .writing rest := by
    intro j rest
    by_cases own : j = i
    · subst own
      rw [Function.update_self]
      exact iff_of_false (fun writes => after (.inr ⟨rest, writes⟩)) fun writes => before (.inr ⟨rest, writes⟩)
    · rw [Function.update_of_ne own]
  refine ⟨distinct, ?_, ?_, content, ?_, ?_, ?_, ?_⟩
  · exact forall_update (P := fun j now => j ∈ order ↔ Written (runs j) now) ((written i).trans same.symm)
      fun j _ => written j
  · refine forall_update (P := fun j now => j ∈ waiting ↔ Waiting now) ?_ fun j _ => entered j
    exact iff_of_false (fun member => before ((entered i).mp member)) after
  · simpa only [writers] using torn
  · simpa only [ne_eq, writers] using whole
  · simpa only [writers] using file
  · exact forall_update (P := fun j now => now = .spinning ∨ now.Inside → (runs j).logged = true) ready
      fun j _ => logged j

/-- The lock file is created. -/
theorem Serial.acquire (serial : Serial runs old log stage order waiting part) (exclusive : Exclusive false stage)
    (spinning : stage i = .spinning) :
    Serial runs old log (Function.update stage i .locked) order (waiting ++ [i]) part := by
  have outside : ∀ j, ¬(stage j).Inside := fun j inside => nomatch exclusive.locked j inside
  obtain rfl := serial.waiting_nil outside
  obtain ⟨distinct, written, entered, content, torn, whole, file, logged⟩ := serial
  have unwritten : i ∉ order := by simp [written, spinning, Written]
  have silent : ∀ j rest, Function.update stage i .locked j ≠ .writing rest :=
    forall_update (P := fun _ now => ∀ rest, now ≠ .writing rest) nofun fun j _ rest writes =>
      outside j (by simp [writes, Stage.Inside])
  have nobody : ∀ j rest, stage j ≠ .writing rest := fun j rest writes => outside j (by simp [writes, Stage.Inside])
  refine ⟨?_, ?_, ?_, content, ?_, fun _ => whole nobody, ?_, ?_⟩
  · rw [List.append_nil] at distinct
    exact distinct.append (List.nodup_singleton i) (List.disjoint_singleton.mpr unwritten)
  · refine forall_update (P := fun j now => j ∈ order ↔ Written (runs j) now) ?_ fun j _ => written j
    exact iff_of_false unwritten (by simp [Written])
  · refine forall_update (P := fun j now => j ∈ [] ++ [i] ↔ Waiting now) ?_ fun j ne => ?_
    · simp [Waiting]
    · exact iff_of_false (by simpa using ne) fun waits => outside j waits.inside
  · exact fun j rest writes => absurd writes (silent j rest)
  · simpa only [silent, nobody] using file
  · exact forall_update (P := fun j now => now = .spinning ∨ now.Inside → (runs j).logged = true)
      (fun _ => logged i (.inl spinning)) fun j _ => logged j

/-- A step of the process that writes. -/
theorem Serial.write (serial : Serial runs old log stage order waiting part) (exclusive : Exclusive lockFile stage)
    (waits : Waiting (stage i)) {file part' rest : Name}
    (content : file = old.getD [] ++ order.flatMap (fun i => (runs i).block) ++ part')
    (split : (runs i).block = part' ++ rest) :
    Serial runs old (some file) (Function.update stage i (.writing rest)) order waiting part' := by
  refine ⟨serial.distinct, ?_, ?_, content, ?_, ?_, ?_, ?_⟩
  · refine forall_update (P := fun j now => j ∈ order ↔ Written (runs j) now) ?_ fun j _ => serial.written j
    rw [serial.written i]
    refine iff_of_false ?_ (by simp [Written])
    rcases waits with locked | ⟨rest, writes⟩
    · simp [locked, Written]
    · simp [writes, Written]
  · refine forall_update (P := fun j now => j ∈ waiting ↔ Waiting now) ?_ fun j _ => serial.entered j
    exact iff_of_true ((serial.entered i).mpr waits) (.inr ⟨rest, rfl⟩)
  · refine forall_update (P := fun j now => ∀ rest, now = .writing rest → (runs j).block = part' ++ rest) ?_ ?_
    · rintro _ ⟨⟩
      exact split
    · intro j ne _ is
      exact absurd (by simp [is, Stage.Inside]) (exclusive.others waits.inside ne)
  · intro silent
    exact absurd (Function.update_self ..) (silent i rest)
  · simp only [Option.isSome_some, true_iff]
    exact .inr (.inr ⟨i, rest, Function.update_self ..⟩)
  · exact forall_update (P := fun j now => now = .spinning ∨ now.Inside → (runs j).logged = true)
      (fun _ => serial.logged i (.inr waits.inside)) fun j _ => serial.logged j

/-- The block is complete. -/
theorem Serial.close (serial : Serial runs old log stage order waiting part) (exclusive : Exclusive lockFile stage)
    (writes : stage i = .writing []) :
    waiting = [i] ∧ Serial runs old log (Function.update stage i .closed) (order ++ [i]) [] [] := by
  have waits : Waiting (stage i) := .inr ⟨[], writes⟩
  obtain rfl := serial.waiting_eq exclusive waits
  have block : (runs i).block = part := by simpa using serial.torn i [] writes
  refine ⟨rfl, ?_, ?_, ?_, ?_, ?_, fun _ => rfl, ?_, ?_⟩
  · rw [List.append_nil]
    exact serial.distinct
  · refine forall_update (P := fun j now => j ∈ order ++ [i] ↔ Written (runs j) now) ?_ fun j ne => ?_
    · simp [Written]
    · simp [serial.written j, ne]
  · refine forall_update (P := fun j now => j ∈ [] ↔ Waiting now) (by simp [Waiting]) fun j ne => ?_
    exact iff_of_false (by simp) fun other => exclusive.others waits.inside ne other.inside
  · simp [serial.content, block]
  · refine forall_update (P := fun j now => ∀ rest, now = .writing rest → (runs j).block = [] ++ rest) nofun ?_
    intro j ne _ is
    exact absurd (by simp [is, Stage.Inside]) (exclusive.others waits.inside ne)
  · rw [serial.file]
    exact iff_of_true (.inr (.inr ⟨i, [], writes⟩)) (.inr (.inl (by simp)))
  · exact forall_update (P := fun j now => now = .spinning ∨ now.Inside → (runs j).logged = true)
      (fun _ => serial.logged i (.inr waits.inside)) fun j _ => serial.logged j

end

namespace Suite
variable {ι : Type} [DecidableEq ι] {runs : ι → Run} {old : Option Name} {s t : Suite ι} {entered : List ι}

/-- The file is the work of the processes one after the other, as they took the lock. -/
structure Consistent (runs : ι → Run) (old : Option Name) (s : Suite ι) (entered : List ι) : Prop where
  exclusive : Exclusive s.lockFile s.stage
  serial : ∃ order waiting part, entered = order ++ waiting ∧ Serial runs old s.log s.stage order waiting part

omit [DecidableEq ι] in
theorem start_consistent (runs : ι → Run) (old : Option Name) : Consistent runs old { log := old } [] := by
  refine ⟨⟨nofun, nofun⟩, [], [], [], rfl, .nil, ?_, ?_, ?_, nofun, fun _ => rfl, ?_, ?_⟩
  · simp [Written]
  · simp [Waiting]
  · simp
  · simp
  · simp [Stage.Inside]

theorem Consistent.go (consistent : s.Consistent runs old entered) (stepped : s.go runs i = some t) :
    t.Consistent runs old (entered ++ if !s.lockFile && t.lockFile then [i] else []) := by
  obtain ⟨exclusive, order, waiting, part, rfl, serial⟩ := consistent
  unfold Suite.go at stepped
  split at stepped
  · next testing =>
    obtain rfl := Option.some.inj stepped
    refine ⟨exclusive.pass ?_, order, waiting, part, by simp [move], serial.move ?_ (by simp [testing, Waiting]) ?_ ?_⟩
    all_goals cases logged : (runs i).logged <;> simp [logged, testing, Written, Waiting, Stage.Inside]
  · next spinning =>
    split at stepped
    · next present =>
      obtain rfl := Option.some.inj stepped
      exact ⟨exclusive, order, waiting, part, by simp [present], serial⟩
    · next absent =>
      obtain rfl := Option.some.inj stepped
      rw [Bool.not_eq_true] at absent
      rw [absent] at exclusive
      exact ⟨exclusive.acquire, order, waiting ++ [i], part, by simp [absent], serial.acquire exclusive spinning⟩
  · next locked =>
    obtain rfl := Option.some.inj stepped
    have waits : Waiting (s.stage i) := .inl locked
    have nothing : part = [] := serial.whole (exclusive.nobody_writes waits.inside (by simp [locked]))
    refine ⟨exclusive.move waits.inside _, order, waiting, [], by simp [move], serial.write exclusive waits ?_ rfl⟩
    rw [serial.content, nothing]
  · next writes =>
    obtain rfl := Option.some.inj stepped
    obtain ⟨rfl, closed⟩ := serial.close exclusive writes
    exact ⟨exclusive.move (by simp [writes, Stage.Inside]) _, order ++ [i], [], [], by simp [move], closed⟩
  · cases stepped
  · next closed =>
    obtain rfl := Option.some.inj stepped
    have inside : (s.stage i).Inside := by simp [closed, Stage.Inside]
    refine ⟨exclusive.release inside, order, waiting, part, by simp, serial.move ?_ ?_ ?_ ?_⟩
    · simp [closed, Written, serial.logged i (.inr inside)]
    all_goals simp [closed, Waiting, Stage.Inside]
  · cases stepped

theorem Consistent.flush (consistent : s.Consistent runs old entered) (stepped : s.flush i n = some t) :
    t.Consistent runs old (entered ++ if !s.lockFile && t.lockFile then [i] else []) := by
  obtain ⟨exclusive, order, waiting, part, rfl, serial⟩ := consistent
  unfold Suite.flush at stepped
  split at stepped
  · next rest writes =>
    obtain rfl := Option.some.inj stepped
    have waits : Waiting (s.stage i) := .inr ⟨rest, writes⟩
    refine ⟨exclusive.move waits.inside _, order, waiting, part ++ rest.take n, by simp [move],
      serial.write exclusive waits ?_ ?_⟩
    · rw [serial.content, List.append_assoc]
    · rw [serial.torn i rest writes, List.append_assoc, List.take_append_drop]
  · cases stepped

theorem Consistent.step (consistent : s.Consistent runs old entered) (stepped : s.step runs act = some t) :
    t.Consistent runs old (entered ++ if !s.lockFile && t.lockFile then [act.process] else []) := by
  cases act with
  | go i =>
    simp only [Suite.step, Option.ite_none_left_eq_some] at stepped
    exact consistent.go stepped.2
  | flush i n =>
    simp only [Suite.step, Option.ite_none_left_eq_some] at stepped
    exact consistent.flush stepped.2
  | kill i =>
    obtain rfl := Option.some.inj stepped
    simpa using ⟨consistent.exclusive, consistent.serial⟩

theorem run_consistent (consistent : s.Consistent runs old entered) (ran : run (step runs) s acts = some t) :
    t.Consistent runs old (entered ++ s.lockOrder runs acts) := by
  induction acts generalizing s entered with
  | nil =>
    obtain rfl := Option.some.inj ran
    simpa [lockOrder] using consistent
  | cons act acts ih =>
    obtain ⟨u, first, later⟩ := run_cons.mp ran
    have whole := ih (consistent.step first) later
    rw [List.append_assoc] at whole
    simpa only [lockOrder, first] using whole

/-! ### The results -/

/-- The file after the processes one after the other, behind what it held before. -/
def sequential (runs : ι → Run) (old : Option Name) (order : List ι) : Option Name :=
  (order.map runs).foldl (fun log run => run.process log) old

omit [DecidableEq ι] in
theorem sequential_eq {order waiting : List ι} {part : Name}
    (serial : Serial runs old s.log s.stage order waiting part) :
    sequential runs old order =
      if order = [] then old else some (old.getD [] ++ order.flatMap fun i => (runs i).block) := by
  have logged : ∀ run ∈ order.map runs, run.logged = true := by
    intro run member
    obtain ⟨i, inside, rfl⟩ := List.mem_map.mp member
    rcases (serial.written i).mp inside with closed | ⟨-, logged⟩
    · exact serial.logged i (.inr (by simp [closed, Stage.Inside]))
    · exact logged
  rw [sequential, foldl_process, List.filter_eq_self.mpr logged, List.flatMap_assoc, List.flatMap_map]
  simp [Run.block]

omit [DecidableEq ι] in
theorem waiting_le_one {order waiting : List ι} {part : Name} (exclusive : Exclusive s.lockFile s.stage)
    (serial : Serial runs old s.log s.stage order waiting part) : waiting.length ≤ 1 := by
  cases waiting with
  | nil => exact Nat.zero_le 1
  | cons i rest => rw [serial.waiting_eq exclusive ((serial.entered i).mp (by simp)), List.length_singleton]

omit [DecidableEq ι] in
/-- While nobody writes, the log is whole. -/
theorem log_eq_sequential {order waiting : List ι} {part : Name}
    (serial : Serial runs old s.log s.stage order waiting part) (silent : ∀ i rest, s.stage i ≠ .writing rest) :
    s.log = sequential runs old order := by
  have content := serial.content
  have file := serial.file
  rw [serial.whole silent, List.append_nil] at content
  simp only [silent, exists_false, or_false] at file
  rw [sequential_eq serial]
  cases log : s.log with
  | none =>
    rw [log, Option.isSome_none, Bool.false_eq_true, false_iff, not_or, not_not] at file
    rw [if_pos file.2, Option.not_isSome_iff_eq_none.mp file.1]
  | some bytes =>
    rw [log, Option.getD_some] at content
    split
    · next none =>
      rw [log, Option.isSome_some] at file
      obtain ⟨before, is⟩ := Option.isSome_iff_exists.mp ((file.mp rfl).resolve_right (not_not.mpr none))
      simp [content, is, none]
    · rw [content]

/-- However the processes take turns, wherever their buffers are written out and whichever of them
are killed: those that have written are the first that took the lock, and the log is what they would
have left one after the other in that order, behind the old one. With the lock file there may be one
more that took the lock, and a part of its block. -/
theorem log_serial (runs : ι → Run) (old : Option Name) (acts : List (Act ι)) (s : Suite ι)
    (ran : run (step runs) { log := old } acts = some s) :
    ∃ order waiting : List ι, lockOrder runs { log := old } acts = order ++ waiting ∧ (order ++ waiting).Nodup ∧
      (∀ i, i ∈ order ↔ Written (runs i) (s.stage i)) ∧ waiting.length ≤ 1 ∧
      (s.lockFile = false → waiting = [] ∧ s.log = sequential runs old order) ∧
      ∃ part, s.log.getD [] = (sequential runs old order).getD [] ++ part ∧
        (part ≠ [] → ∃ i rest, waiting = [i] ∧ s.stage i = .writing rest ∧ (runs i).block = part ++ rest) := by
  obtain ⟨exclusive, order, waiting, part, entered, serial⟩ := run_consistent (start_consistent runs old) ran
  refine ⟨order, waiting, entered, serial.distinct, serial.written, waiting_le_one exclusive serial,
    fun unlocked => ?_, part, ?_, fun torn => ?_⟩
  · have outside : ∀ i, ¬(s.stage i).Inside := fun i inside => by
      simpa [unlocked] using exclusive.locked i inside
    have silent : ∀ i rest, s.stage i ≠ .writing rest := fun i rest writes =>
      outside i (by simp [writes, Stage.Inside])
    exact ⟨serial.waiting_nil outside, log_eq_sequential serial silent⟩
  · rw [serial.content, sequential_eq serial]
    split
    · next none => simp [none]
    · rfl
  · by_contra nobody
    push Not at nobody
    refine torn (serial.whole fun i rest writes => ?_)
    exact nobody i rest (serial.waiting_eq exclusive (.inr ⟨rest, writes⟩)) writes (serial.torn i rest writes)

/-- Two processes that call the same function. -/
def twins (_ : Bool) : Run := ⟨[ascii "int f ()"], [], [], nofun, ascii "/"⟩

/-- The second comes while the first has written ten bytes, and waits. -/
def overlap : List (Act Bool) :=
  [.go false, .go true, .go false, .go false, .flush false 10, .go true, .flush false 100, .go true, .go false,
    .go false, .go true, .go true, .flush true 100, .go true, .go true]

theorem overlap_serial : ∃ s, run (step twins) { log := some (ascii "old") } overlap = some s ∧ s.lockFile = false ∧
    lockOrder twins { log := some (ascii "old") } overlap = [false, true] ∧
    s.log = sequential twins (some (ascii "old")) [false, true] := by
  have ran : (run (step twins) { log := some (ascii "old") } overlap).map lockFile = some false := by decide +kernel
  have entered : lockOrder twins { log := some (ascii "old") } overlap = [false, true] := by decide +kernel
  obtain ⟨s, is, unlocked⟩ := Option.map_eq_some_iff.mp ran
  obtain ⟨order, waiting, same, -, -, -, whole, -⟩ := log_serial twins (some (ascii "old")) overlap s is
  obtain ⟨rfl, log⟩ := whole unlocked
  rw [entered, List.append_nil] at same
  subst same
  exact ⟨s, is, unlocked, entered, log⟩

/-- What a process that was killed with the lock leaves behind. -/
structure Stale (s : Suite ι) (i : ι) : Prop where
  killed : s.killed i = true
  inside : (s.stage i).Inside
  exclusive : Exclusive s.lockFile s.stage

/-- Nobody enters while the lock file is stale. -/
theorem Stale.step {i : ι} (stale : s.Stale i) (stepped : s.step runs act = some t) :
    t.Stale i ∧ t.log = s.log ∧ ∀ j, Written (runs j) (t.stage j) → Written (runs j) (s.stage j) := by
  obtain ⟨killed, inside, exclusive⟩ := stale
  have locked := exclusive.locked i inside
  cases act with
  | kill j =>
    obtain rfl := Option.some.inj stepped
    refine ⟨⟨?_, inside, exclusive⟩, rfl, fun _ is => is⟩
    by_cases own : i = j
    · simp [own]
    · simp [own, killed]
  | flush j n =>
    simp only [Suite.step, Option.ite_none_left_eq_some, Suite.flush] at stepped
    obtain ⟨living, stepped⟩ := stepped
    split at stepped
    · next rest writes =>
      have own : j = i := exclusive.alone j i (by simp [writes, Stage.Inside]) inside
      exact absurd (own ▸ killed) living
    · cases stepped
  | go j =>
    simp only [Suite.step, Option.ite_none_left_eq_some] at stepped
    obtain ⟨living, stepped⟩ := stepped
    have ne : i ≠ j := fun own => living (own ▸ killed)
    have outside := exclusive.others inside ne.symm
    unfold Suite.go at stepped
    split at stepped
    · next testing =>
      obtain rfl := Option.some.inj stepped
      refine ⟨⟨killed, by simpa [move, ne] using inside, exclusive.pass ?_⟩, rfl, ?_⟩
      · cases (runs j).logged <;> simp [Stage.Inside]
      · refine forall_update (P := fun k now => Written (runs k) now → Written (runs k) (s.stage k)) ?_ fun _ _ is => is
        cases logged : (runs j).logged <;> simp [Written, logged]
    · rw [if_pos locked] at stepped
      obtain rfl := Option.some.inj stepped
      exact ⟨⟨killed, inside, exclusive⟩, rfl, fun _ is => is⟩
    · next is => exact absurd (by simp [is, Stage.Inside]) outside
    · next is => exact absurd (by simp [is, Stage.Inside]) outside
    · cases stepped
    · next is => exact absurd (by simp [is, Stage.Inside]) outside
    · cases stepped

/-- Once a process is killed between `open` and `unlink`, the log stays as it is, and no process
that has not written by then ever will. -/
theorem stale_lock_silences (runs : ι → Run) (acts later : List (Act ι)) (s t : Suite ι) (i : ι)
    (ran : run (step runs) {} acts = some s) (killed : s.killed i = true) (inside : (s.stage i).Inside)
    (further : run (step runs) s later = some t) :
    t.log = s.log ∧ t.lockFile = true ∧ ∀ j, Written (runs j) (t.stage j) → Written (runs j) (s.stage j) := by
  have silent := run_invariant
    (fun u => u.Stale i ∧ u.log = s.log ∧ ∀ j, Written (runs j) (u.stage j) → Written (runs j) (s.stage j)) ?_
    ⟨⟨killed, inside, (run_consistent (start_consistent runs none) ran).exclusive⟩, rfl, fun _ is => is⟩ further
  · obtain ⟨stale, same, written⟩ := silent
    exact ⟨same, stale.exclusive.locked i stale.inside, written⟩
  · rintro u act v ⟨stale, same, written⟩ stepped
    obtain ⟨stays, log, fewer⟩ := stale.step stepped
    exact ⟨stays, log.trans same, fun j is => written j (fewer j is)⟩

/-- The first process is killed after ten bytes. -/
theorem killed_twin_silences : ∃ s t, s.log.map List.length = some 10 ∧
    run (step twins) s [.go true, .go true, .go true] = some t ∧
    t.log = s.log ∧ t.lockFile = true ∧ ∀ j, Written (twins j) (t.stage j) → Written (twins j) (s.stage j) := by
  let acts : List (Act Bool) := [.go false, .go false, .go false, .flush false 10, .kill false]
  have ran : (run (step twins) {} acts).map (fun s => (s.killed false, s.stage false, s.log.map List.length)) =
      some (true, .writing ((twins false).block.drop 10), some 10) := by decide +kernel
  obtain ⟨s, is, state⟩ := Option.map_eq_some_iff.mp ran
  simp only [Prod.mk.injEq] at state
  have later : (run (step twins) s [.go true, .go true, .go true]).isSome := by
    have whole : (run (step twins) {} (acts ++ [.go true, .go true, .go true])).isSome := by decide +kernel
    obtain ⟨t, ends⟩ := Option.isSome_iff_exists.mp whole
    obtain ⟨s', first, second⟩ := run_append.mp ends
    obtain rfl := Option.some.inj (is.symm.trans first)
    exact Option.isSome_iff_exists.mpr ⟨t, second⟩
  obtain ⟨t, further⟩ := Option.isSome_iff_exists.mp later
  exact ⟨s, t, state.2.2, further, stale_lock_silences twins acts _ s t false is state.1
    (by simp [state.2.1, Stage.Inside]) further⟩

end Suite

end AflLive.Testamp
