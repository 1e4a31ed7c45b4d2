import AflLive.Common
import AflLive.Library.Delimited
import AflLive.Library.Pipe
import AflLive.Library.Runs

/-! The start of a fork server: `afl_fsrv_start` sends the recording flag and the target's
name through the control pipe, the constructor in the target reads them and says hello,
and from then on the pipe carries commands of four bytes. -/
namespace AflLive.Fuzz
open Runs

/-- A C string, without its terminator. -/
structure CString where
  bytes : Name
  noNul : 0 ∉ bytes

/-- What the server is started with. -/
structure Startup where
  recordArgs : UInt8
  targetFunctionName : Option CString

/-- The bytes of the second write. -/
def Startup.name (startup : Startup) : Name :=
  match startup.targetFunctionName with
  | none => ascii "__AH_NON_EXISTENT__"
  | some name => name.bytes

abbrev Command := { word : List UInt8 // word.length = 4 }

inductive Sender where
  | flag | name | awaitHello | commands
deriving DecidableEq

inductive Receiver where
  | flag | name | sayHello | serving | exited
deriving DecidableEq

/-- `received` holds what the four-byte reads returned. -/
structure Handshake where
  sender : Sender := .flag
  receiver : Receiver := .flag
  pipe : List UInt8 := []
  recording : UInt8 := 0
  currentTarget : Name := []
  sent : List Command := []
  received : List (List UInt8) := []

inductive Move where
  | send
  | command (word : Command)
  | receive

namespace Handshake

def send (startup : Startup) (s : Handshake) : Option Handshake :=
  match s.sender with
  | .flag => some { s with sender := .name, pipe := s.pipe ++ [startup.recordArgs] }
  | .name => some { s with sender := .awaitHello, pipe := s.pipe ++ startup.name }
  | .awaitHello => if s.receiver = .serving then some { s with sender := .commands } else none
  | .commands => none

/-- `__afl_auto_init`, then the loop of `__afl_start_forkserver`. The name is read into
a cleared buffer of 256 bytes; a short command ends the server. -/
def receive (s : Handshake) : Option Handshake :=
  match s.receiver with
  | .flag => (Pipe.read 1 s.pipe).map fun got =>
    { s with receiver := .name, recording := got.1.headD 0, pipe := got.2 }
  | .name => (Pipe.read 255 s.pipe).map fun got =>
    { s with receiver := .sayHello, currentTarget := got.1.takeWhile (· ≠ 0), pipe := got.2 }
  | .sayHello => some { s with receiver := .serving }
  | .serving => (Pipe.read 4 s.pipe).map fun got =>
    { s with
      receiver := if got.1.length = 4 then .serving else .exited
      received := s.received ++ [got.1]
      pipe := got.2 }
  | .exited => none

def step (startup : Startup) (s : Handshake) : Move → Option Handshake
  | .send => s.send startup
  | .command word =>
    if s.sender = .commands then some { s with pipe := s.pipe ++ word, sent := s.sent ++ [word] } else none
  | .receive => s.receive

end Handshake

/-- At the hello word flag and name have arrived and the pipe is empty, and every read
of the server has returned one command, in the order they were sent. -/
structure HandshakeKept (startup : Startup) (s : Handshake) : Prop where
  recording : s.receiver = .sayHello → s.recording = startup.recordArgs
  currentTarget : s.receiver = .sayHello → s.currentTarget = startup.name
  pipe : s.receiver = .sayHello → s.pipe = []
  commands : s.received <+: s.sent.map Subtype.val

namespace Handshake
variable {startup : Startup} {s t : Handshake}

theorem name_noNul (startup : Startup) : 0 ∉ startup.name := by
  unfold Startup.name
  split
  · decide
  · next name _ => exact name.noNul

theorem name_terminated (startup : Startup) : startup.name.takeWhile (· ≠ 0) = startup.name := by
  rw [List.takeWhile_eq_self_iff]
  exact Delimited.ne_of_free (name_noNul startup)

/-- The states of a handshake whose name fits one read. -/
inductive Phase (startup : Startup) : Handshake → Prop where
  | start : Phase startup {}
  | flagSent : Phase startup { sender := .name, pipe := [startup.recordArgs] }
  | flagRead : Phase startup { sender := .name, receiver := .name, recording := startup.recordArgs }
  | bothSent : Phase startup { sender := .awaitHello, pipe := startup.recordArgs :: startup.name }
  | nameSent : Phase startup
      { sender := .awaitHello, receiver := .name, recording := startup.recordArgs, pipe := startup.name }
  | hello : Phase startup
      { sender := .awaitHello, receiver := .sayHello, recording := startup.recordArgs, currentTarget := startup.name }
  | greeted : Phase startup
      { sender := .awaitHello, receiver := .serving, recording := startup.recordArgs, currentTarget := startup.name }
  | serving (done pending : List Command) : Phase startup
      { sender := .commands, receiver := .serving, recording := startup.recordArgs, currentTarget := startup.name,
        sent := done ++ pending, received := done.map Subtype.val, pipe := (pending.map Subtype.val).flatten }

theorem Phase.send (phase : Phase startup s) (sent : s.send startup = some t) : Phase startup t := by
  cases phase with
  | start =>
    obtain rfl := Option.some.inj sent
    exact .flagSent
  | flagSent =>
    obtain rfl := Option.some.inj sent
    exact .bothSent
  | flagRead =>
    obtain rfl := Option.some.inj sent
    exact .nameSent
  | bothSent | nameSent | hello => simp [Handshake.send] at sent
  | greeted =>
    obtain rfl := Option.some.inj sent
    exact .serving [] []
  | serving => cases sent

theorem Phase.command {word : Command} (phase : Phase startup s) (sent : s.step startup (.command word) = some t) :
    Phase startup t := by
  cases phase with
  | serving done pending =>
    obtain rfl := Option.some.inj sent
    have next : Phase startup _ := .serving done (pending ++ [word])
    simpa using next
  | _ => cases sent

theorem Phase.receive (short : startup.name.length ≤ 255) (phase : Phase startup s) (received : s.receive = some t) :
    Phase startup t := by
  cases phase with
  | start | flagRead | greeted => cases received
  | flagSent =>
    obtain rfl := Option.some.inj received
    exact .flagRead
  | bothSent =>
    obtain rfl := Option.some.inj received
    exact .nameSent
  | nameSent =>
    by_cases empty : startup.name = []
    · simp [Handshake.receive, empty, Pipe.read_nil] at received
    · simp only [Handshake.receive, Pipe.read_all empty short, Option.map_some, name_terminated] at received
      obtain rfl := Option.some.inj received
      exact .hello
  | hello =>
    obtain rfl := Option.some.inj received
    exact .greeted
  | serving done pending =>
    cases pending with
    | nil => cases received
    | cons word pending =>
      have nonempty : word.val ≠ [] := fun empty => by simpa [empty] using word.property
      have read := Pipe.read_first nonempty (pending.map Subtype.val).flatten
      rw [word.property] at read
      simp only [Handshake.receive, List.map_cons, List.flatten_cons, read, Option.map_some, word.property,
        if_true] at received
      obtain rfl := Option.some.inj received
      have next : Phase startup _ := .serving (done ++ [word]) pending
      simpa using next

theorem Phase.kept (phase : Phase startup s) : HandshakeKept startup s := by
  cases phase with
  | serving done pending => constructor <;> simp
  | _ => constructor <;> simp

/-- Both writes, then both reads. -/
def opening : List Move := [.send, .send, .receive, .receive]

theorem opening_run (nonempty : startup.name ≠ []) :
    run (step startup) {} opening = some {
      sender := .awaitHello
      receiver := .sayHello
      recording := startup.recordArgs
      currentTarget := (startup.name.take 255).takeWhile (· ≠ 0)
      pipe := startup.name.drop 255 } := by
  simp [opening, run, step, Handshake.send, Handshake.receive, Pipe.read, nonempty]

/-- The handshake and all that follows works exactly for names of at most 255 bytes. -/
theorem handshake_kept_iff (startup : Startup) :
    (∀ moves s, run (step startup) {} moves = some s → HandshakeKept startup s) ↔ startup.name.length ≤ 255 := by
  constructor
  · intro kept
    by_contra long
    have nonempty : startup.name ≠ [] := fun empty => long (by simp [empty])
    have empty := (kept opening _ (opening_run nonempty)).pipe rfl
    exact long (List.drop_eq_nil_iff.mp empty)
  · intro short moves s ran
    refine (run_invariant (Phase startup) ?_ .start ran).kept
    intro s move t phase stepped
    cases move with
    | send => exact phase.send stepped
    | command word => exact phase.command stepped
    | receive => exact phase.receive short stepped

/-- A name of 256 bytes. -/
def longName : Startup := ⟨0, some ⟨List.replicate 256 97, by decide⟩⟩

/-- Its last byte is left in the pipe and becomes the first byte of the first command. -/
theorem long_name_shifts_commands :
    (run (step longName) {} (opening ++ [.receive, .send, .command ⟨[1, 2, 3, 4], rfl⟩, .receive])).map
        (fun s => (s.currentTarget.length, s.received, s.pipe)) = some (255, [[97, 1, 2, 3]], [4]) := by
  decide +kernel

end Handshake

end AflLive.Fuzz
