import AflLive.Library.Runs

/-! Runs through the fork server: `afl_fsrv_run_target` in the fuzzer against the loop of
`__afl_start_forkserver` in the target. Two pipes connect them, and the server forks a child
for a run or, in persistent mode, continues the stopped one. The fuzzer's `kill_signal` is the default,
`SIGKILL`, and nobody tells it to stop (`stop_soon` stays 0). -/
namespace AflLive.Fuzz.ForkServer
open Runs

/-! ### The words of `waitpid` -/

def wtermsig (status : Nat) : Nat := status % 128

def wexitstatus (status : Nat) : Nat := status / 256 % 256

def wifstopped (status : Nat) : Bool := status % 256 = 127

def wifsignaled (status : Nat) : Bool := wtermsig status ≠ 0 && wtermsig status ≠ 127

def sigabrt : Nat := 6

/-- The fuzzer's `kill_signal`, and the status of a child that it ends. -/
def sigkill : Nat := 9

/-- The status of a child that has raised `SIGSTOP`. -/
def stopStatus : Nat := 19 * 256 + 127

def msanError : Nat := 86

def lsanError : Nat := 23

/-! ### The two parties -/

structure Settings where
  isPersistent : Bool
  ignoreAborts : Bool := false
  usesAsan : Bool := false
  crashExitcode : Option Nat := none

inductive Verdict where
  | error
  | tmout
  | crash
  | ok
deriving DecidableEq

def Settings.crashed (cfg : Settings) (status : Nat) : Bool :=
  (wifsignaled status && (!cfg.ignoreAborts || wtermsig status ≠ sigabrt)) ||
    (cfg.usesAsan && (wexitstatus status = msanError || wexitstatus status = lsanError)) ||
    (cfg.crashExitcode = some (wexitstatus status))

/-- The end of `afl_fsrv_run_target`; `execFailed` says that the map holds `EXEC_FAIL_SIG`. -/
def Settings.verdict (cfg : Settings) (execFailed timedOut : Bool) (status : Nat) : Verdict :=
  if execFailed then .error
  else if timedOut then .tmout
  else if cfg.crashed status then .crash
  else .ok

/-- Where the fuzzer is in `afl_fsrv_run_target`. -/
inductive Fuzzer where
  | idle
  | awaitPid
  | awaitStatus
  /-- `select` has run out of time. -/
  | killing
  /-- The read after the kill. -/
  | late
  | fatal
deriving DecidableEq

/-- Where the server is in its loop. -/
inductive Server where
  | awaitCommand
  /-- The `waitpid` for a child that was stopped and then killed. -/
  | reap
  | start
  | writePid
  | wait
  | writeStatus (status : Nat)
  | exited
deriving DecidableEq

inductive Life where
  | absent
  | running
  | stopped
  /-- Ended, and nobody has waited for it yet. -/
  | dead (status : Nat)
  | reaped
deriving DecidableEq

/-- A run as the fuzzer sees it, and whether it had called `kill` for the child by then. -/
structure Result where
  pid : Nat
  status : Nat
  verdict : Verdict
  killed : Bool
deriving DecidableEq

/-- `ctl` and `st` are the pipes, of words. Neither party keeps `runPid`, `killed`, `relayed`
and `results`: the pid read last, the pids `kill` was called for, what the server has sent and
what the fuzzer has returned. -/
structure State where
  fuzzer : Fuzzer := .idle
  lastRunTimedOut : Bool := false
  childPid : Option Nat := none
  lastKillSignal : Nat := 0
  ctl : List Bool := []
  st : List Nat := []
  server : Server := .awaitCommand
  serverChild : Nat := 0
  childStopped : Bool := false
  forks : Nat := 0
  life : Nat → Life := fun _ => .absent
  runPid : Nat := 0
  killed : List Nat := []
  relayed : List (Nat × Nat) := []
  results : List Result := []

inductive Move where
  | command
  | readPid
  | timeout
  | kill
  | readStatus (execFailed : Bool)
  | serve
  /-- A child raises `SIGSTOP`. -/
  | stop (pid : Nat)
  /-- A child ends, by itself or by a signal of its own. -/
  | exit (pid status : Nat)
deriving DecidableEq

def Life.killed : Life → Life
  | .running | .stopped => .dead sigkill
  | life => life

def Life.continued : Life → Life
  | .stopped => .running
  | life => life

namespace State
variable (cfg : Settings) (s : State)

def setLife (pid : Nat) (life : Life) : State := { s with life := Function.update s.life pid life }

/-- The call of `afl_fsrv_run_target`: the server is told whether the last run timed out. -/
def command : Option State :=
  if s.fuzzer = .idle then
    some { s with fuzzer := .awaitPid, ctl := s.ctl ++ [s.lastRunTimedOut], lastRunTimedOut := false }
  else none

def readPid : Option State :=
  match s.fuzzer, s.st with
  | .awaitPid, pid :: rest =>
    if pid = 0 then some { s with fuzzer := .fatal, st := rest }
    else some { s with fuzzer := .awaitStatus, st := rest, childPid := some pid, runPid := pid }
  | _, _ => none

/-- `select` returns without anything to read. -/
def timeout : Option State :=
  if s.fuzzer = .awaitStatus ∧ s.st = [] then some { s with fuzzer := .killing } else none

def strike (pid : Nat) : State :=
  { s.setLife pid (s.life pid).killed with childPid := none, killed := pid :: s.killed }

def kill : Option State :=
  if s.fuzzer = .killing then
    let s := match s.childPid with
      | none => s
      | some pid => s.strike pid
    some { s with fuzzer := .late, lastRunTimedOut := true }
  else none

def finish (execFailed : Bool) (status : Nat) : State :=
  let verdict := cfg.verdict execFailed s.lastRunTimedOut status
  { s with
    fuzzer := .idle
    childPid := if wifstopped status then s.childPid else none
    lastKillSignal := match verdict with
      | .tmout => sigkill
      | .crash => if wifsignaled status then wtermsig status else 0
      | _ => s.lastKillSignal
    results := s.results ++ [⟨s.runPid, status, verdict, s.runPid ∈ s.killed⟩] }

/-- The read of the status, in time or after the kill. -/
def readStatus (execFailed : Bool) : Option State :=
  match s.st with
  | [] => none
  | status :: rest =>
    if s.fuzzer = .awaitStatus ∨ s.fuzzer = .late then some (({ s with st := rest } : State).finish cfg execFailed status)
    else none

/-- One step of the loop of `__afl_start_forkserver`; a `waitpid` that fails ends the server. -/
def serve : Option State :=
  match s.server with
  | .awaitCommand =>
    match s.ctl with
    | [] => none
    | wasKilled :: rest =>
      if s.childStopped && wasKilled then some { s with ctl := rest, server := .reap, childStopped := false }
      else some { s with ctl := rest, server := .start }
  | .reap =>
    match s.life s.serverChild with
    | .dead _ => some { s.setLife s.serverChild .reaped with server := .start }
    | .running | .stopped => none
    | .absent | .reaped => some { s with server := .exited }
  | .start =>
    if s.childStopped then
      some { s.setLife s.serverChild (s.life s.serverChild).continued with server := .writePid, childStopped := false }
    else
      some { s.setLife (s.forks + 1) .running with
        server := .writePid
        forks := s.forks + 1
        serverChild := s.forks + 1 }
  | .writePid => some { s with st := s.st ++ [s.serverChild], server := .wait }
  | .wait =>
    match s.life s.serverChild with
    | .dead status =>
      some { s.setLife s.serverChild .reaped with
        server := .writeStatus status
        childStopped := s.childStopped || wifstopped status }
    | .stopped => if cfg.isPersistent then some { s with server := .writeStatus stopStatus, childStopped := true } else none
    | .running => none
    | .absent | .reaped => some { s with server := .exited }
  | .writeStatus status =>
    some { s with
      st := s.st ++ [status]
      relayed := s.relayed ++ [(s.serverChild, status)]
      server := .awaitCommand }
  | .exited => none

def stop (pid : Nat) : Option State := if s.life pid = .running then some (s.setLife pid .stopped) else none

def exit (pid status : Nat) : Option State :=
  if s.life pid = .running ∧ wifstopped status = false then some (s.setLife pid (.dead status)) else none

def step : Move → Option State
  | .command => s.command
  | .readPid => s.readPid
  | .timeout => s.timeout
  | .kill => s.kill
  | .readStatus execFailed => s.readStatus cfg execFailed
  | .serve => s.serve cfg
  | .stop pid => s.stop pid
  | .exit pid status => s.exit pid status

end State

/-! ### What holds throughout -/

def Life.Gone (life : Life) : Prop := life = .absent ∨ life = .reaped

/-- What the server sends of a run. -/
def Result.told (result : Result) : Nat × Nat := (result.pid, result.status)

namespace State

/-- The child between two runs: a stopped one that was killed will not be continued. -/
def Resting (s : State) (timedOut : Bool) : Prop :=
  if s.childStopped then
    if timedOut then s.life s.serverChild = .dead sigkill
    else s.life s.serverChild = .stopped ∧ s.serverChild ∉ s.killed
  else (s.life s.serverChild).Gone

/-- The child before the server has waited for it. Once killed it is dead. -/
structure Busy (s : State) : Prop where
  childStopped : s.childStopped = false
  living : ¬(s.life s.serverChild).Gone
  ended : ∀ status, s.life s.serverChild = .dead status → wifstopped status = false
  unharmed : s.fuzzer ≠ .late → s.serverChild ∉ s.killed
  killed : s.fuzzer = .late → s.serverChild ∈ s.killed ∧ ∃ status, s.life s.serverChild = .dead status

/-- The child after that. -/
structure Waited (s : State) (status : Nat) : Prop where
  childStopped : s.childStopped = wifstopped status
  resting : s.Resting (s.fuzzer = .late)
  unharmed : s.fuzzer ≠ .late → s.serverChild ∉ s.killed
  killed : s.fuzzer = .late → s.serverChild ∈ s.killed

/-- The fuzzer while the child of its run is there. -/
structure Attending (s : State) : Prop where
  begun : s.fuzzer ≠ .idle
  unfailing : s.fuzzer ≠ .fatal
  ctl : s.ctl = []
  timedOut : s.lastRunTimedOut = decide (s.fuzzer = .late)
  forked : s.serverChild ≠ 0
  runPid : s.fuzzer ≠ .awaitPid → s.runPid = s.serverChild
  childPid : s.fuzzer = .awaitStatus ∨ s.fuzzer = .killing → s.childPid = some s.serverChild

/-- The word of the pid, as long as it is in the pipe. -/
def unread (s : State) : List Nat := if s.fuzzer = .awaitPid then [s.serverChild] else []

/-- The server after it has sent the pid, with what follows the pid in the pipe. -/
inductive Served (s : State) : List Nat → Prop where
  | waiting (server : s.server = .wait) (busy : s.Busy) (told : s.relayed = s.results.map Result.told) : Served s []
  | waited (status : Nat) (server : s.server = .writeStatus status) (waited : s.Waited status)
      (told : s.relayed = s.results.map Result.told) : Served s []
  | sent (status : Nat) (server : s.server = .awaitCommand) (waited : s.Waited status)
      (told : s.relayed = s.results.map Result.told ++ [(s.serverChild, status)]) : Served s [status]

/-- The fuzzer waits for the pid while the server is on its way to it. -/
structure Asked (s : State) (server : Server) (ctl : List Bool) : Prop where
  fuzzer : s.fuzzer = .awaitPid
  server : s.server = server
  ctl : s.ctl = ctl
  st : s.st = []
  timedOut : s.lastRunTimedOut = false
  told : s.relayed = s.results.map Result.told

inductive Phase (s : State) : Prop where
  | idle (fuzzer : s.fuzzer = .idle) (server : s.server = .awaitCommand) (ctl : s.ctl = []) (st : s.st = [])
      (resting : s.Resting s.lastRunTimedOut) (told : s.relayed = s.results.map Result.told)
  | asked (wasKilled : Bool) (asked : s.Asked .awaitCommand [wasKilled]) (resting : s.Resting wasKilled)
  | reaping (asked : s.Asked .reap []) (childStopped : s.childStopped = false)
      (dead : s.life s.serverChild = .dead sigkill)
  | starting (asked : s.Asked .start []) (resting : s.Resting false)
  | started (asked : s.Asked .writePid []) (busy : s.Busy)
  | attending (tail : List Nat) (attending : s.Attending) (st : s.st = s.unread ++ tail) (served : s.Served tail)

/-- The processes: no child but the server's own is left, and new pids are new. -/
structure Alone (s : State) : Prop where
  zero : (s.life 0).Gone
  others : ∀ pid, pid ≠ s.serverChild → (s.life pid).Gone
  known : s.serverChild ≤ s.forks
  fresh : ∀ pid, s.forks < pid → pid ∉ s.killed

/-- A run that was not an error is put down to the time limit exactly if the fuzzer killed its child. -/
def Blamed (s : State) : Prop :=
  ∀ result ∈ s.results, result.verdict ≠ .error → (result.verdict = .tmout ↔ result.killed = true)

structure Sound (s : State) : Prop where
  alone : s.Alone
  blamed : s.Blamed
  phase : s.Phase

variable {cfg : Settings} {s t : State}

/-! ### The fuzzer's steps -/

theorem Sound.command (sound : s.Sound) (stepped : s.command = some t) : t.Sound := by
  unfold State.command at stepped
  split at stepped
  · next idle =>
    obtain rfl := Option.some.inj stepped
    refine ⟨⟨sound.alone.zero, sound.alone.others, sound.alone.known, sound.alone.fresh⟩, sound.blamed, ?_⟩
    cases sound.phase with
    | idle _ server ctl st resting told => exact .asked _ ⟨rfl, server, by simp [ctl], st, rfl, told⟩ resting
    | asked _ asked | reaping asked | starting asked | started asked => simp [asked.fuzzer] at idle
    | attending _ attending => exact absurd idle attending.begun
  · cases stepped

/-- A step of the fuzzer before it kills the child. -/
structure Advanced (s t : State) : Prop where
  before : s.fuzzer ≠ .late
  after : t.fuzzer ≠ .late
  server : t.server = s.server
  serverChild : t.serverChild = s.serverChild
  childStopped : t.childStopped = s.childStopped
  life : t.life = s.life
  killed : t.killed = s.killed
  relayed : t.relayed = s.relayed
  results : t.results = s.results

theorem Busy.advanced (busy : s.Busy) (moved : Advanced s t) : t.Busy := by
  obtain ⟨same, living, ended, unharmed, -⟩ := busy
  refine ⟨moved.childStopped.trans same, ?_, ?_, fun _ => ?_, fun late => absurd late moved.after⟩
  · rwa [moved.life, moved.serverChild]
  · rwa [moved.life, moved.serverChild]
  · rw [moved.serverChild, moved.killed]
    exact unharmed moved.before

theorem Waited.advanced (waited : s.Waited status) (moved : Advanced s t) : t.Waited status := by
  obtain ⟨same, resting, unharmed, -⟩ := waited
  refine ⟨moved.childStopped.trans same, ?_, fun _ => ?_, fun late => absurd late moved.after⟩
  · simpa [Resting, moved.before, moved.after, moved.serverChild, moved.childStopped, moved.life, moved.killed]
      using resting
  · rw [moved.serverChild, moved.killed]
    exact unharmed moved.before

theorem Served.advanced (served : s.Served tail) (moved : Advanced s t) : t.Served tail := by
  cases served with
  | waiting server busy told =>
    exact .waiting (moved.server.trans server) (busy.advanced moved) (by rw [moved.relayed, moved.results, told])
  | waited status server waited told =>
    exact .waited status (moved.server.trans server) (waited.advanced moved)
      (by rw [moved.relayed, moved.results, told])
  | sent status server waited told =>
    exact .sent status (moved.server.trans server) (waited.advanced moved)
      (by rw [moved.relayed, moved.results, moved.serverChild, told])

theorem Sound.advanced (sound : s.Sound) (served : s.Served tail) (moved : Advanced s t) (forks : t.forks = s.forks)
    (attending : t.Attending) (st : t.st = t.unread ++ tail) : t.Sound := by
  obtain ⟨⟨zero, others, known, fresh⟩, blamed, -⟩ := sound
  refine ⟨⟨?_, ?_, ?_, ?_⟩, ?_, .attending tail attending st (served.advanced moved)⟩
  · rwa [moved.life]
  · rwa [moved.life, moved.serverChild]
  · rwa [moved.serverChild, forks]
  · rwa [forks, moved.killed]
  · rwa [Blamed, moved.results]

theorem Sound.readPid (sound : s.Sound) (stepped : s.readPid = some t) : t.Sound := by
  unfold State.readPid at stepped
  split at stepped
  · next pid rest awaits word =>
    cases sound.phase with
    | idle fuzzer => simp [fuzzer] at awaits
    | asked _ asked | reaping asked | starting asked | started asked => simp [asked.st] at word
    | attending tail attending st served =>
      -- what is read is the pid of the child the server is with
      obtain ⟨rfl, rfl⟩ : s.serverChild = pid ∧ tail = rest := by simpa [unread, awaits, word] using st.symm
      rw [if_neg attending.forked] at stepped
      obtain rfl := Option.some.inj stepped
      refine sound.advanced served ⟨by simp [awaits], by simp, rfl, rfl, rfl, rfl, rfl, rfl, rfl⟩ rfl ?_ (by simp [unread])
      exact ⟨by simp, by simp, attending.ctl, by simp [attending.timedOut, awaits], attending.forked, fun _ => rfl,
        fun _ => rfl⟩
  · cases stepped

theorem Sound.timeout (sound : s.Sound) (stepped : s.timeout = some t) : t.Sound := by
  unfold State.timeout at stepped
  split at stepped
  · next ready =>
    obtain ⟨awaits, nothing⟩ := ready
    obtain rfl := Option.some.inj stepped
    cases sound.phase with
    | idle fuzzer => simp [fuzzer] at awaits
    | asked _ asked | reaping asked | starting asked | started asked => simp [asked.fuzzer] at awaits
    | attending tail attending st served =>
      refine sound.advanced served ⟨by simp [awaits], by simp, rfl, rfl, rfl, rfl, rfl, rfl, rfl⟩ rfl ?_ ?_
      · exact ⟨by simp, by simp, attending.ctl, by simp [attending.timedOut, awaits], attending.forked,
          fun _ => attending.runPid (by simp [awaits]), fun _ => attending.childPid (.inl awaits)⟩
      · simpa [unread, awaits] using st
  · cases stepped

theorem killed_of_living {life : Life} (living : ¬life.Gone) : ∃ status, life.killed = .dead status := by
  cases life with
  | absent => exact absurd (.inl rfl) living
  | reaped => exact absurd (.inr rfl) living
  | running | stopped => exact ⟨sigkill, rfl⟩
  | dead status => exact ⟨status, rfl⟩

theorem killed_gone {life : Life} (gone : life.Gone) : life.killed = life := by
  rcases gone with rfl | rfl <;> rfl

/-- The state after the kill. -/
def struck (s : State) : State := { s.strike s.serverChild with fuzzer := .late, lastRunTimedOut := true }

@[simp] theorem struck_life (s : State) : s.struck.life s.serverChild = (s.life s.serverChild).killed := by
  simp [struck, strike, setLife]

theorem Busy.struck (busy : s.Busy) : s.struck.Busy := by
  obtain ⟨status, ends⟩ := killed_of_living busy.living
  have now : s.struck.life s.serverChild = .dead status := (struck_life s).trans ends
  refine ⟨busy.childStopped, ?_, ?_, fun early => absurd rfl early, fun _ => ⟨List.mem_cons_self .., status, now⟩⟩
  · change ¬(s.struck.life s.serverChild).Gone
    simp [now, Life.Gone]
  · intro status is
    change s.struck.life s.serverChild = _ at is
    rw [struck_life] at is
    cases earlier : s.life s.serverChild with
    | dead status' =>
      obtain rfl : status' = status := by simpa [earlier, Life.killed] using is
      exact busy.ended _ earlier
    | running | stopped =>
      obtain rfl : sigkill = status := by simpa [earlier, Life.killed] using is
      rfl
    | absent | reaped => simp [earlier, Life.killed] at is

theorem Waited.struck (waited : s.Waited status) (before : s.fuzzer ≠ .late) : s.struck.Waited status := by
  obtain ⟨same, resting, -, -⟩ := waited
  refine ⟨same, ?_, fun early => absurd rfl early, fun _ => List.mem_cons_self ..⟩
  change if s.childStopped then
      if decide (Fuzzer.late = .late) then s.struck.life s.serverChild = .dead sigkill else _
    else (s.struck.life s.serverChild).Gone
  unfold Resting at resting
  rw [struck_life]
  split
  · next stopped =>
    rw [if_pos stopped, if_neg (by simpa using before)] at resting
    simp [resting.1, Life.killed]
  · next stopped =>
    rw [if_neg stopped] at resting
    rwa [killed_gone resting]

theorem Sound.kill (sound : s.Sound) (stepped : s.kill = some t) : t.Sound := by
  unfold State.kill at stepped
  split at stepped
  · next killing =>
    have before : s.fuzzer ≠ .late := by simp [killing]
    cases sound.phase with
    | idle fuzzer => simp [fuzzer] at killing
    | asked _ asked | reaping asked | starting asked | started asked => simp [asked.fuzzer] at killing
    | attending tail attending st served =>
      simp only [attending.childPid (.inr killing)] at stepped
      obtain rfl : s.struck = t := Option.some.inj stepped
      obtain ⟨zero, others, known, fresh⟩ := sound.alone
      have elsewhere : ∀ pid, pid ≠ s.serverChild → s.struck.life pid = s.life pid :=
        fun pid other => Function.update_of_ne other ..
      refine ⟨⟨?_, ?_, known, ?_⟩, sound.blamed, .attending tail ?_ ?_ ?_⟩
      · rw [elsewhere 0 attending.forked.symm]
        exact zero
      · intro pid other
        rw [elsewhere pid other]
        exact others pid other
      · intro pid new inside
        rcases List.mem_cons.mp inside with rfl | earlier
        · exact absurd known (Nat.not_le.mpr new)
        · exact fresh pid new earlier
      · exact ⟨nofun, nofun, attending.ctl, rfl, attending.forked, fun _ => attending.runPid (by simp [killing]),
          by simp [struck]⟩
      · simpa [unread, killing, struck, strike, setLife] using st
      · cases served with
        | waiting server busy told => exact .waiting server busy.struck told
        | waited status server waited told => exact .waited status server (waited.struck before) told
        | sent status server waited told => exact .sent status server (waited.struck before) told
  · cases stepped

/-- A run that the fuzzer did not have to end has its verdict from the status alone. -/
theorem verdict_tmout_iff (cfg : Settings) {execFailed timedOut : Bool} {status : Nat}
    (counts : cfg.verdict execFailed timedOut status ≠ .error) :
    cfg.verdict execFailed timedOut status = .tmout ↔ timedOut = true := by
  unfold Settings.verdict at counts ⊢
  cases execFailed with
  | true => simp at counts
  | false =>
    cases timedOut with
    | true => simp
    | false => cases cfg.crashed status <;> simp

theorem Sound.readStatus (sound : s.Sound) (stepped : s.readStatus cfg execFailed = some t) : t.Sound := by
  unfold State.readStatus at stepped
  split at stepped
  · cases stepped
  next status rest word =>
  split at stepped
  · next ready =>
    obtain rfl := Option.some.inj stepped
    cases sound.phase with
    | idle _ _ _ st => simp [st] at word
    | asked _ asked | reaping asked | starting asked | started asked => simp [asked.st] at word
    | attending tail attending st served =>
      have passed : s.fuzzer ≠ .awaitPid := by rcases ready with is | is <;> simp [is]
      rw [unread, if_neg passed, List.nil_append, word] at st
      cases served with
      | waiting | waited => cases st
      | sent status' server waited told =>
        obtain ⟨rfl, rfl⟩ := List.cons.inj st
        have own := attending.runPid passed
        refine ⟨⟨sound.alone.zero, sound.alone.others, sound.alone.known, sound.alone.fresh⟩, ?_, ?_⟩
        · intro result inside counts
          rcases List.mem_append.mp inside with earlier | new
          · exact sound.blamed result earlier counts
          · obtain rfl := List.mem_singleton.mp new
            rw [verdict_tmout_iff cfg counts, attending.timedOut, own, decide_eq_true_iff, decide_eq_true_iff]
            refine ⟨waited.killed, fun killed => ?_⟩
            by_contra early
            exact waited.unharmed early killed
        · refine .idle rfl server attending.ctl rfl ?_ ?_
          · have resting := waited.resting
            rw [← attending.timedOut] at resting
            exact resting
          · simp [finish, told, own, Result.told]
  · cases stepped

/-! ### The server's steps -/

theorem Alone.setLife (alone : s.Alone) (forked : s.serverChild ≠ 0) (life : Life) :
    (s.setLife s.serverChild life).Alone := by
  refine ⟨?_, fun pid other => ?_, alone.known, alone.fresh⟩
  · simpa [State.setLife, Function.update_of_ne forked.symm] using alone.zero
  · have elsewhere : (s.setLife s.serverChild life).life pid = s.life pid := Function.update_of_ne other ..
    rw [elsewhere]
    exact alone.others pid other

theorem Alone.forked (alone : s.Alone) (living : ¬(s.life s.serverChild).Gone) : s.serverChild ≠ 0 := by
  intro zero
  rw [zero] at living
  exact living alone.zero

/-- The server takes the command. -/
theorem Sound.serve_asked (sound : s.Sound) (asked : s.Asked .awaitCommand [wasKilled]) (resting : s.Resting wasKilled)
    (stepped : s.serve cfg = some t) : t.Sound := by
  obtain ⟨zero, others, known, fresh⟩ := sound.alone
  simp only [serve, asked.server, asked.ctl] at stepped
  split at stepped
  · next both =>
    obtain rfl := Option.some.inj stepped
    obtain ⟨stopped, rfl⟩ := Bool.and_eq_true_iff.mp both
    refine ⟨⟨zero, others, known, fresh⟩, sound.blamed,
      .reaping ⟨asked.fuzzer, rfl, rfl, asked.st, asked.timedOut, asked.told⟩ rfl ?_⟩
    simpa [Resting, stopped] using resting
  · next notBoth =>
    obtain rfl := Option.some.inj stepped
    refine ⟨⟨zero, others, known, fresh⟩, sound.blamed,
      .starting ⟨asked.fuzzer, rfl, rfl, asked.st, asked.timedOut, asked.told⟩ ?_⟩
    have same : s.Resting wasKilled ↔ s.Resting false := by
      cases stopped : s.childStopped with
      | false => simp [Resting, stopped]
      | true =>
        obtain rfl : wasKilled = false := by simpa [stopped] using notBoth
        rfl
    exact same.mp resting

/-- The killed child is waited for, and forgotten. -/
theorem Sound.serve_reaping (sound : s.Sound) (asked : s.Asked .reap []) (childStopped : s.childStopped = false)
    (dead : s.life s.serverChild = .dead sigkill) (stepped : s.serve cfg = some t) : t.Sound := by
  simp only [serve, asked.server, dead, Option.some.injEq] at stepped
  subst stepped
  have forked : s.serverChild ≠ 0 := sound.alone.forked (by simp [dead, Life.Gone])
  obtain ⟨zero, others, known, fresh⟩ := sound.alone.setLife forked .reaped
  refine ⟨⟨zero, others, known, fresh⟩, sound.blamed,
    .starting ⟨asked.fuzzer, rfl, asked.ctl, asked.st, asked.timedOut, asked.told⟩ ?_⟩
  simp [Resting, setLife, childStopped, Life.Gone]

/-- A child that was stopped goes on, and if there is none a new one is forked. -/
theorem Sound.serve_starting (sound : s.Sound) (asked : s.Asked .start []) (resting : s.Resting false)
    (stepped : s.serve cfg = some t) : t.Sound := by
  have early : s.fuzzer ≠ .late := by simp [asked.fuzzer]
  simp only [serve, asked.server] at stepped
  split at stepped
  · next stopped =>
    obtain rfl := Option.some.inj stepped
    obtain ⟨isStopped, unharmed⟩ : s.life s.serverChild = .stopped ∧ s.serverChild ∉ s.killed := by
      simpa [Resting, stopped] using resting
    have forked : s.serverChild ≠ 0 := sound.alone.forked (by simp [isStopped, Life.Gone])
    obtain ⟨zero, others, known, fresh⟩ := sound.alone.setLife forked (s.life s.serverChild).continued
    refine ⟨⟨zero, others, known, fresh⟩, sound.blamed,
      .started ⟨asked.fuzzer, rfl, asked.ctl, asked.st, asked.timedOut, asked.told⟩ ⟨rfl, ?_, ?_, ?_, ?_⟩⟩
    · simp [setLife, isStopped, Life.continued, Life.Gone]
    · simp [setLife, isStopped, Life.continued]
    · exact fun _ => unharmed
    · exact fun late => absurd late early
  · next stopped =>
    obtain rfl := Option.some.inj stepped
    obtain ⟨zero, others, known, fresh⟩ := sound.alone
    have gone : (s.life s.serverChild).Gone := by simpa [Resting, stopped] using resting
    refine ⟨⟨?_, ?_, le_rfl, fun pid new => fresh pid (Nat.lt_of_succ_lt new)⟩, sound.blamed,
      .started ⟨asked.fuzzer, rfl, asked.ctl, asked.st, asked.timedOut, asked.told⟩
        ⟨by simpa [setLife] using stopped, ?_, ?_, ?_, ?_⟩⟩
    · simpa [setLife] using zero
    · intro pid other
      simp only [setLife, Function.update_of_ne other]
      by_cases old : pid = s.serverChild
      · rwa [old]
      · exact others pid old
    · simp [setLife, Life.Gone]
    · simp [setLife]
    · exact fun _ => fresh _ (Nat.lt_succ_self _)
    · exact fun late => absurd late early

theorem Sound.serve_started (sound : s.Sound) (asked : s.Asked .writePid []) (busy : s.Busy)
    (stepped : s.serve cfg = some t) : t.Sound := by
  simp only [serve, asked.server, Option.some.injEq] at stepped
  subst stepped
  obtain ⟨zero, others, known, fresh⟩ := sound.alone
  refine ⟨⟨zero, others, known, fresh⟩, sound.blamed, .attending [] ?_ ?_ (.waiting rfl ?_ asked.told)⟩
  · exact ⟨by simp [asked.fuzzer], by simp [asked.fuzzer], asked.ctl, by simp [asked.timedOut, asked.fuzzer],
      sound.alone.forked busy.living, by simp [asked.fuzzer], by simp [asked.fuzzer]⟩
  · simp [unread, asked.fuzzer, asked.st]
  · exact ⟨busy.childStopped, busy.living, busy.ended, busy.unharmed, busy.killed⟩

/-- `waitpid` returns for a child that has ended and, in persistent mode, for a stopped one. -/
theorem Sound.serve_waiting (sound : s.Sound) (attending : s.Attending) (st : s.st = s.unread) (server : s.server = .wait)
    (busy : s.Busy) (told : s.relayed = s.results.map Result.told) (stepped : s.serve cfg = some t) : t.Sound := by
  obtain ⟨begun, unfailing, ctl, timedOut, forked, runPid, childPid⟩ := attending
  simp only [serve, server] at stepped
  cases now : s.life s.serverChild with
  | absent => exact absurd (.inl now) busy.living
  | reaped => exact absurd (.inr now) busy.living
  | running => simp [now] at stepped
  | dead status =>
    simp only [now, Option.some.injEq] at stepped
    subst stepped
    obtain ⟨zero, others, known, fresh⟩ := sound.alone.setLife forked .reaped
    refine ⟨⟨zero, others, known, fresh⟩, sound.blamed,
      .attending [] ⟨begun, unfailing, ctl, timedOut, forked, runPid, childPid⟩ (st.trans (List.append_nil _).symm)
        (.waited status rfl ⟨?_, ?_, busy.unharmed, fun late => (busy.killed late).1⟩ told)⟩
    · simp [busy.childStopped]
    · simp [Resting, setLife, busy.childStopped, busy.ended status now, Life.Gone]
  | stopped =>
    simp only [now] at stepped
    split at stepped
    · obtain rfl := Option.some.inj stepped
      -- a child that was killed does not stop any more
      have early : s.fuzzer ≠ .late := by
        intro late
        obtain ⟨-, status, is⟩ := busy.killed late
        simp [now] at is
      obtain ⟨zero, others, known, fresh⟩ := sound.alone
      refine ⟨⟨zero, others, known, fresh⟩, sound.blamed,
        .attending [] ⟨begun, unfailing, ctl, timedOut, forked, runPid, childPid⟩ (st.trans (List.append_nil _).symm)
          (.waited stopStatus rfl ⟨rfl, ?_, busy.unharmed, fun late => (busy.killed late).1⟩ told)⟩
      simp [Resting, early, now, busy.unharmed early]
    · cases stepped

theorem Sound.serve_waited (sound : s.Sound) (attending : s.Attending) (st : s.st = s.unread)
    (server : s.server = .writeStatus status) (waited : s.Waited status) (told : s.relayed = s.results.map Result.told)
    (stepped : s.serve cfg = some t) : t.Sound := by
  simp only [serve, server, Option.some.injEq] at stepped
  subst stepped
  obtain ⟨begun, unfailing, ctl, timedOut, forked, runPid, childPid⟩ := attending
  obtain ⟨zero, others, known, fresh⟩ := sound.alone
  refine ⟨⟨zero, others, known, fresh⟩, sound.blamed,
    .attending [status] ⟨begun, unfailing, ctl, timedOut, forked, runPid, childPid⟩ ?_ (.sent status rfl ?_ ?_)⟩
  · simp [st, unread]
  · exact ⟨waited.childStopped, waited.resting, waited.unharmed, waited.killed⟩
  · simp [told]

theorem Sound.serve (sound : s.Sound) (stepped : s.serve cfg = some t) : t.Sound := by
  cases sound.phase with
  | idle _ server ctl => simp [State.serve, server, ctl] at stepped
  | asked _ asked resting => exact sound.serve_asked asked resting stepped
  | reaping asked childStopped dead => exact sound.serve_reaping asked childStopped dead stepped
  | starting asked resting => exact sound.serve_starting asked resting stepped
  | started asked busy => exact sound.serve_started asked busy stepped
  | attending tail attending st served =>
    cases served with
    | waiting server busy told =>
      exact sound.serve_waiting attending (by simpa using st) server busy told stepped
    | waited status server waited told =>
      exact sound.serve_waited attending (by simpa using st) server waited told stepped
    | sent status server => simp [State.serve, server, attending.ctl] at stepped

/-! ### The child's steps -/

/-- A child runs only after the server has started it and before it has waited for it. -/
theorem Sound.running (sound : s.Sound) (runs : s.life pid = .running) :
    pid = s.serverChild ∧ (s.Asked .writePid [] ∧ s.Busy ∨
      s.Attending ∧ s.st = s.unread ∧ s.server = .wait ∧ s.Busy ∧ s.relayed = s.results.map Result.told) := by
  have own : pid = s.serverChild := by
    by_contra other
    have gone := sound.alone.others pid other
    simp [runs, Life.Gone] at gone
  subst own
  have restless : ∀ timedOut, ¬s.Resting timedOut := by
    intro timedOut resting
    unfold Resting at resting
    split at resting
    · split at resting <;> simp [runs] at resting
    · simp [runs, Life.Gone] at resting
  refine ⟨rfl, ?_⟩
  cases sound.phase with
  | idle _ _ _ _ resting => exact absurd resting (restless _)
  | asked _ _ resting | starting _ resting => exact absurd resting (restless _)
  | reaping _ _ dead => simp [runs] at dead
  | started asked busy => exact .inl ⟨asked, busy⟩
  | attending tail attending st served =>
    cases served with
    | waiting server busy told => exact .inr ⟨attending, by simpa using st, server, busy, told⟩
    | waited _ _ waited | sent _ _ waited => exact absurd waited.resting (restless _)

/-- A running child stops or ends. -/
theorem Sound.setLife (sound : s.Sound) (runs : s.life pid = .running) {life : Life} (living : ¬life.Gone)
    (ended : ∀ status, life = .dead status → wifstopped status = false) : (s.setLife pid life).Sound := by
  obtain ⟨rfl, place⟩ := sound.running runs
  have now : (s.setLife s.serverChild life).life s.serverChild = life := Function.update_self ..
  have busy : s.Busy → (s.setLife s.serverChild life).Busy := by
    intro busy
    refine ⟨busy.childStopped, ?_, ?_, busy.unharmed, fun late => ?_⟩
    · change ¬((s.setLife s.serverChild life).life s.serverChild).Gone
      rwa [now]
    · change ∀ status, (s.setLife s.serverChild life).life s.serverChild = _ → _
      rwa [now]
    · obtain ⟨-, status, is⟩ := busy.killed late
      simp [runs] at is
  have forked : s.serverChild ≠ 0 := sound.alone.forked (by simp [runs, Life.Gone])
  refine ⟨sound.alone.setLife forked life, sound.blamed, ?_⟩
  rcases place with ⟨asked, before⟩ | ⟨attending, st, server, before, told⟩
  · exact .started ⟨asked.fuzzer, asked.server, asked.ctl, asked.st, asked.timedOut, asked.told⟩ (busy before)
  · obtain ⟨begun, unfailing, ctl, timedOut, forked, runPid, childPid⟩ := attending
    exact .attending [] ⟨begun, unfailing, ctl, timedOut, forked, runPid, childPid⟩
      (st.trans (List.append_nil _).symm) (.waiting server (busy before) told)

theorem Sound.step (sound : s.Sound) (stepped : s.step cfg move = some t) : t.Sound := by
  cases move with
  | command => exact sound.command stepped
  | readPid => exact sound.readPid stepped
  | timeout => exact sound.timeout stepped
  | kill => exact sound.kill stepped
  | readStatus execFailed => exact sound.readStatus stepped
  | serve => exact sound.serve stepped
  | stop pid =>
    simp only [State.step, State.stop, Option.ite_none_right_eq_some, Option.some.injEq] at stepped
    obtain ⟨runs, rfl⟩ := stepped
    exact sound.setLife runs (by simp [Life.Gone]) (by simp)
  | exit pid status =>
    simp only [State.step, State.exit, Option.ite_none_right_eq_some, Option.some.injEq] at stepped
    obtain ⟨⟨runs, ends⟩, rfl⟩ := stepped
    refine sound.setLife runs (by simp [Life.Gone]) ?_
    rintro _ ⟨⟩
    exact ends

theorem start_sound : ({} : State).Sound :=
  ⟨⟨.inl rfl, fun _ _ => .inl rfl, le_rfl, nofun⟩, nofun, .idle rfl rfl rfl rfl (.inl rfl) rfl⟩

theorem run_sound (ran : run (State.step cfg) {} moves = some s) : s.Sound :=
  run_invariant Sound (fun _ _ _ sound stepped => sound.step stepped) start_sound ran

/-! ### Every run ends -/

end State

/-- The steps the fuzzer has taken in its run. -/
def Fuzzer.turn : Fuzzer → Nat
  | .idle | .fatal => 0
  | .awaitPid => 1
  | .awaitStatus => 2
  | .killing => 3
  | .late => 4

/-- The steps of the server, where a start counts twice since a child that runs may move once. -/
def Server.turn : Server → Nat
  | .awaitCommand | .exited => 0
  | .reap => 1
  | .start => 2
  | .writePid => 4
  | .wait => 5
  | .writeStatus _ => 6

def Life.turn : Life → Nat
  | .running => 0
  | _ => 1

namespace State
variable {cfg : Settings} {s t : State}

/-- The work done so far. -/
def work (s : State) : Nat :=
  5 * s.results.length + s.fuzzer.turn + 7 * s.relayed.length + s.server.turn + (s.life s.serverChild).turn

/-- Neither party gives up. -/
theorem Sound.unfailing (sound : s.Sound) : s.fuzzer ≠ .fatal ∧ s.server ≠ .exited := by
  cases sound.phase with
  | idle fuzzer server => simp [fuzzer, server]
  | asked _ asked | reaping asked | starting asked | started asked => simp [asked.fuzzer, asked.server]
  | attending _ attending _ served =>
    refine ⟨attending.unfailing, ?_⟩
    cases served with
    | waiting server | waited _ server | sent _ server => simp [server]

theorem life_turn_le (life : Life) : life.turn ≤ 1 := by
  cases life <;> simp [Life.turn]

theorem turn_le_killed (life : Life) : life.turn ≤ life.killed.turn := by
  cases life <;> simp [Life.turn, Life.killed]

theorem work_strike (s : State) (pid : Nat) : s.work ≤ (s.strike pid).work := by
  by_cases own : s.serverChild = pid
  · have more := turn_le_killed (s.life pid)
    simpa [work, strike, setLife, own] using more
  · simp [work, strike, setLife, Function.update_of_ne own]

theorem work_kill (stepped : s.kill = some t) : s.work < t.work := by
  simp only [kill, Option.ite_none_right_eq_some, Option.some.injEq] at stepped
  obtain ⟨killing, rfl⟩ := stepped
  cases child : s.childPid with
  | none => simp [work, killing, Fuzzer.turn]
  | some pid =>
    have more := work_strike s pid
    have same : (s.strike pid).fuzzer = .killing := killing
    simp only [work, same, Fuzzer.turn] at more ⊢
    omega

theorem work_serve (stepped : s.serve cfg = some t) (serving : t.server ≠ .exited) : s.work < t.work := by
  have alive := life_turn_le (s.life s.serverChild)
  unfold State.serve at stepped
  split at stepped
  · next server =>
    split at stepped
    · cases stepped
    · split at stepped
      all_goals
        obtain rfl := Option.some.inj stepped
        simp [work, server, Server.turn]
  · next server =>
    split at stepped
    · next dead =>
      obtain rfl := Option.some.inj stepped
      simp [work, server, Server.turn, setLife, dead, Life.turn]
    · cases stepped
    · cases stepped
    all_goals
      obtain rfl := Option.some.inj stepped
      exact absurd rfl serving
  · next server =>
    split at stepped
    all_goals
      obtain rfl := Option.some.inj stepped
      simp only [work, server, Server.turn, setLife, Function.update_self]
      omega
  · next server =>
    obtain rfl := Option.some.inj stepped
    simp [work, server, Server.turn]
  · next server =>
    split at stepped
    · next dead =>
      obtain rfl := Option.some.inj stepped
      simp [work, server, Server.turn, setLife, dead, Life.turn]
    · split at stepped
      · obtain rfl := Option.some.inj stepped
        simp [work, server, Server.turn]
      · cases stepped
    · cases stepped
    all_goals
      obtain rfl := Option.some.inj stepped
      exact absurd rfl serving
  · next server =>
    obtain rfl := Option.some.inj stepped
    simp only [work, server, Server.turn, List.length_append, List.length_singleton]
    omega
  · cases stepped

theorem Sound.work_step (sound : s.Sound) (stepped : s.step cfg move = some t) : s.work < t.work := by
  obtain ⟨unfailing, serving⟩ := (sound.step stepped).unfailing
  cases move with
  | command =>
    simp only [State.step, State.command, Option.ite_none_right_eq_some, Option.some.injEq] at stepped
    obtain ⟨idle, rfl⟩ := stepped
    simp [work, idle, Fuzzer.turn]
  | readPid =>
    simp only [State.step, State.readPid] at stepped
    split at stepped
    · next awaits _ =>
      split at stepped
      · obtain rfl := Option.some.inj stepped
        exact absurd rfl unfailing
      · obtain rfl := Option.some.inj stepped
        simp [work, awaits, Fuzzer.turn]
    · cases stepped
  | timeout =>
    simp only [State.step, State.timeout, Option.ite_none_right_eq_some, Option.some.injEq] at stepped
    obtain ⟨⟨awaits, -⟩, rfl⟩ := stepped
    simp [work, awaits, Fuzzer.turn]
  | kill => exact work_kill stepped
  | readStatus execFailed =>
    simp only [State.step, State.readStatus] at stepped
    split at stepped
    · cases stepped
    · simp only [Option.ite_none_right_eq_some, Option.some.injEq] at stepped
      obtain ⟨place, rfl⟩ := stepped
      rcases place with is | is <;> simp [work, finish, is, Fuzzer.turn] <;> omega
  | serve => exact work_serve stepped serving
  | stop pid =>
    simp only [State.step, State.stop, Option.ite_none_right_eq_some, Option.some.injEq] at stepped
    obtain ⟨runs, rfl⟩ := stepped
    obtain ⟨rfl, -⟩ := sound.running runs
    simp [work, State.setLife, runs, Life.turn]
  | exit pid status =>
    simp only [State.step, State.exit, Option.ite_none_right_eq_some, Option.some.injEq] at stepped
    obtain ⟨⟨runs, -⟩, rfl⟩ := stepped
    obtain ⟨rfl, -⟩ := sound.running runs
    simp [work, State.setLife, runs, Life.turn]

/-- The work of the runs returned and of the one under way. -/
theorem Sound.work_le (sound : s.Sound) : s.work ≤ 12 * (s.results.length + 1) := by
  have alive := life_turn_le (s.life s.serverChild)
  have fuzzer : s.fuzzer.turn ≤ 4 := by cases s.fuzzer <;> simp [Fuzzer.turn]
  have server : s.server.turn ≤ 6 := by cases s.server <;> simp [Server.turn]
  have balanced : s.relayed.length = s.results.length ∨
      s.relayed.length = s.results.length + 1 ∧ s.server = .awaitCommand := by
    cases sound.phase with
    | idle _ _ _ _ _ told => simp [told]
    | asked _ asked | reaping asked | starting asked | started asked => simp [asked.told]
    | attending _ _ _ served =>
      cases served with
      | waiting _ _ told | waited _ _ _ told => simp [told]
      | sent _ server _ told => simp [told, server]
  unfold work
  rcases balanced with same | ⟨more, await⟩
  · omega
  · simp only [await, Server.turn, more]
    omega

/-- A move of the fuzzer or the server within a run. -/
def Within : Move → Prop
  | .command | .stop _ | .exit _ _ => False
  | _ => True

/-- Whatever the child does, a run that is under way can go on. -/
theorem Sound.progress (sound : s.Sound) (busy : s.fuzzer ≠ .idle) :
    ∃ move, Within move ∧ (s.step cfg move).isSome := by
  cases sound.phase with
  | idle fuzzer => exact absurd fuzzer busy
  | asked wasKilled asked =>
    refine ⟨.serve, trivial, ?_⟩
    simp only [State.step, State.serve, asked.server, asked.ctl]
    split <;> rfl
  | reaping asked _ dead => exact ⟨.serve, trivial, by simp [State.step, State.serve, asked.server, dead]⟩
  | starting asked =>
    refine ⟨.serve, trivial, ?_⟩
    simp only [State.step, State.serve, asked.server]
    split <;> rfl
  | started asked => exact ⟨.serve, trivial, by simp [State.step, State.serve, asked.server]⟩
  | attending tail attending st served =>
    cases place : s.fuzzer with
    | idle => exact absurd place busy
    | fatal => exact absurd place attending.unfailing
    | awaitPid =>
      have word : s.st = s.serverChild :: tail := by simpa [unread, place] using st
      exact ⟨.readPid, trivial, by simp [State.step, State.readPid, place, word, attending.forked]⟩
    | killing => exact ⟨.kill, trivial, by simp [State.step, State.kill, place]⟩
    | awaitStatus =>
      have word : s.st = tail := by simpa [unread, place] using st
      cases tail with
      | nil => exact ⟨.timeout, trivial, by simp [State.step, State.timeout, place, word]⟩
      | cons status rest => exact ⟨.readStatus false, trivial, by simp [State.step, State.readStatus, place, word]⟩
    | late =>
      have word : s.st = tail := by simpa [unread, place] using st
      cases served with
      | waiting server waits =>
        obtain ⟨-, status, dead⟩ := waits.killed place
        exact ⟨.serve, trivial, by simp [State.step, State.serve, server, dead]⟩
      | waited status server => exact ⟨.serve, trivial, by simp [State.step, State.serve, server]⟩
      | sent status => exact ⟨.readStatus false, trivial, by simp [State.step, State.readStatus, place, word]⟩

/-! ### The results -/

/-- The fuzzer has returned what the server has sent, run by run; a time-out is reported
exactly for the runs whose child the fuzzer has killed, so that a crash never stems from its own
signal; there is at most one child; and neither party gives up. -/
structure Settled (s : State) : Prop where
  inOrder : s.relayed = s.results.map Result.told ∨
    ∃ status, s.relayed = s.results.map Result.told ++ [(s.serverChild, status)]
  blamed : s.Blamed
  alone : ∀ pid, ¬(s.life pid).Gone → pid = s.serverChild
  unfailing : s.fuzzer ≠ .fatal ∧ s.server ≠ .exited

theorem runs_settled (cfg : Settings) (moves : List Move) (s : State)
    (ran : run (State.step cfg) {} moves = some s) : s.Settled := by
  have sound := run_sound ran
  refine ⟨?_, sound.blamed, fun pid living => ?_, sound.unfailing⟩
  · cases sound.phase with
    | idle _ _ _ _ _ told => exact .inl told
    | asked _ asked | reaping asked | starting asked | started asked => exact .inl asked.told
    | attending _ _ _ served =>
      cases served with
      | waiting _ _ told | waited _ _ _ told => exact .inl told
      | sent status _ _ told => exact .inr ⟨status, told⟩
  · by_contra other
    exact living (sound.alone.others pid other)

/-- In persistent mode the child stops just when the time is up: the server relays the stop, the
fuzzer kills the stopped child, and the next run waits for it and has a child of its own. -/
def race : List Move :=
  [.command, .serve, .serve, .serve, .readPid, .timeout, .stop 1, .serve, .kill, .serve, .readStatus false,
    .command, .serve, .serve, .serve, .serve, .readPid, .exit 2 0, .serve, .serve, .readStatus false]

theorem race_settled : ∃ s, run (State.step ⟨true, false, false, none⟩) {} race = some s ∧
    s.results = [⟨1, stopStatus, .tmout, true⟩, ⟨2, 0, .ok, false⟩] ∧ s.Settled := by
  have ran : (run (State.step ⟨true, false, false, none⟩) {} race).map State.results =
      some [⟨1, stopStatus, .tmout, true⟩, ⟨2, 0, .ok, false⟩] := by decide
  obtain ⟨s, is, results⟩ := Option.map_eq_some_iff.mp ran
  exact ⟨s, is, results, runs_settled _ race s is⟩

/-- A run takes at most twelve steps, and at each of them fuzzer and server can go on without
the child: `afl_fsrv_run_target` returns even if the child hangs, or stops and is never waited for. -/
theorem runs_end (cfg : Settings) (moves : List Move) (s : State)
    (ran : run (State.step cfg) {} moves = some s) :
    moves.length ≤ 12 * (s.results.length + 1) ∧
      (s.fuzzer ≠ .idle → ∃ move, Within move ∧ (s.step cfg move).isSome) := by
  have sound := run_sound ran
  have length := run_length_le Sound work (fun _ _ _ sound stepped => ⟨sound.step stepped, sound.work_step stepped⟩)
    start_sound ran
  have bound := sound.work_le
  exact ⟨by omega, sound.progress⟩

/-- A child without persistent mode that stops itself and is never heard of again. -/
theorem hanging_ends : ∃ s, run (State.step ⟨false, false, false, none⟩) {}
      [.command, .serve, .serve, .serve, .readPid, .stop 1, .timeout] = some s ∧ s.fuzzer = .killing ∧
    7 ≤ 12 * (s.results.length + 1) ∧
      (s.fuzzer ≠ .idle → ∃ move, Within move ∧ (s.step ⟨false, false, false, none⟩ move).isSome) := by
  have ran : (run (State.step ⟨false, false, false, none⟩) {}
      [.command, .serve, .serve, .serve, .readPid, .stop 1, .timeout]).map State.fuzzer = some .killing := by decide
  obtain ⟨s, is, killing⟩ := Option.map_eq_some_iff.mp ran
  exact ⟨s, is, killing, runs_end _ _ s is⟩

end State

end AflLive.Fuzz.ForkServer
