import AflLive.Libgen.Shadow

/-! A process from `gen_init` on: when its fork server is started, and what the passes that
persistent mode makes in one process have in common. -/
namespace AflLive.Libgen.Passes
open Control Runs

/-! ### The fork server -/

/-- The config with the settings that say where to fork. -/
structure Entrance where
  cfg : Config
  exitOnReturn : Bool
  forkOnInit : Bool
  forkOnCallNr : Nat
  small : forkOnCallNr < 2 ^ 64

structure State where
  process : Process
  libraryCall : Nat := 0
  /-- `__afl_manual_init` has done its work: the process was forked for a run. -/
  initDone : Bool := false

inductive Event where
  | genInit
  | beforeLoop
  | libraryFunction
  | visit (v : Visit)

def Event.isLibraryFunction : Event → Bool
  | .libraryFunction => true
  | _ => false

def nonExistent : Name := ascii "__AH_NON_EXISTENT__"

/-- The condition of `__AFL_INIT` in `gen_values`; the calls counted before have no part in it. -/
def Entrance.starts (e : Entrance) (s : Process) : Visit → Bool
  | .enter fnName _ => !e.forkOnInit && e.forkOnCallNr == 0 &&
      (shouldFuzz e.cfg fnName s || shouldRecord e.cfg fnName s || e.cfg.currentTarget == some nonExistent)
  | .leave _ => false

def step (e : Entrance) (s : State) : Event → Option State
  | .genInit => some { s with initDone := s.initDone || e.cfg.recording || e.forkOnInit }
  | .beforeLoop => some { s with process := Libgen.beforeLoop s.process }
  | .libraryFunction =>
    let libraryCall := (s.libraryCall + 1) % 2 ^ 64
    some { s with
      libraryCall
      initDone := s.initDone || (e.forkOnCallNr != 0 && e.forkOnCallNr == libraryCall) }
  | .visit v => (Libgen.visit e.cfg e.exitOnReturn s.process v).map fun process =>
    { s with process, initDone := s.initDone || e.starts s.process v }

/-- What is known of a process after `calls` library calls. -/
structure Sound (e : Entrance) (calls : Nat) (s : State) : Prop where
  counted : s.libraryCall = calls % 2 ^ 64
  early : e.cfg.recording = true ∨ e.forkOnInit = true → s.initDone = true
  reached : e.forkOnCallNr ≠ 0 → e.forkOnCallNr ≤ calls → s.initDone = true
  only : e.forkOnCallNr ≠ 0 → s.initDone = true →
    e.cfg.recording = true ∨ e.forkOnInit = true ∨ e.forkOnCallNr ≤ calls

section
variable {e : Entrance} {s t : State} {calls : Nat} {events : List Event} {event : Event}

theorem Sound.step (sound : Sound e calls s) (stepped : step e s event = some t) :
    Sound e (calls + if event.isLibraryFunction then 1 else 0) t := by
  have small := e.small
  cases event with
  | genInit =>
    cases stepped
    refine ⟨sound.counted, fun early => ?_, fun later many => ?_, fun later done => ?_⟩
    · simp [sound.early early]
    · simp [sound.reached later many]
    · simp only [Bool.or_eq_true] at done
      rcases done with (done | recording) | onInit
      · exact sound.only later done
      · exact .inl recording
      · exact .inr (.inl onInit)
  | beforeLoop =>
    cases stepped
    exact ⟨sound.counted, sound.early, sound.reached, sound.only⟩
  | libraryFunction =>
    cases stepped
    have counted := sound.counted
    refine ⟨?_, fun early => ?_, fun later many => ?_, fun later done => ?_⟩
    · simp only [Event.isLibraryFunction, if_true, counted]
      omega
    · simp [sound.early early]
    · simp only [Event.isLibraryFunction, if_true] at many
      rcases Nat.lt_or_ge calls e.forkOnCallNr with fewer | enough
      · have now : e.forkOnCallNr = (s.libraryCall + 1) % 2 ^ 64 := by omega
        simp only [Bool.or_eq_true, Bool.and_eq_true, bne_iff_ne, beq_iff_eq]
        exact .inr ⟨later, now⟩
      · simp [sound.reached later enough]
    · simp only [Bool.or_eq_true, Bool.and_eq_true, beq_iff_eq] at done
      simp only [Event.isLibraryFunction, if_true]
      rcases done with done | ⟨-, now⟩
      · rcases sound.only later done with recording | onInit | enough
        · exact .inl recording
        · exact .inr (.inl onInit)
        · exact .inr (.inr (by omega))
      · exact .inr (.inr (by omega))
  | visit v =>
    obtain ⟨process, _, rfl⟩ := Option.map_eq_some_iff.mp stepped
    refine ⟨sound.counted, fun early => ?_, fun later many => ?_, fun later done => ?_⟩
    · simp [sound.early early]
    · simp [sound.reached later many]
    · have never : e.starts s.process v = false := by
        cases v with
        | enter fnName memory => simp [Entrance.starts, later]
        | leave fnName => rfl
      rw [never, Bool.or_false] at done
      exact sound.only later done

theorem run_sound (sound : Sound e calls s) (ran : run (Passes.step e) s events = some t) :
    Sound e (calls + events.countP Event.isLibraryFunction) t := by
  induction events generalizing s calls with
  | nil =>
    cases ran
    exact sound
  | cons event events ih =>
    obtain ⟨u, first, rest⟩ := run_cons.mp ran
    have after := ih (sound.step first) rest
    rw [List.countP_cons, ← Nat.add_assoc, Nat.add_right_comm]
    exact after

end

/-- A call whose arguments are recorded or replaced is made in a process that was forked for the
run exactly if the process forks in `gen_init` or `fork_on_call` library functions have been
entered before: a target that is called earlier gets its arguments before the fork, the same
for all runs. -/
theorem worked_on_in_child {e : Entrance} {process : Process} {events : List Event} {s t : State} {fnName : Name}
    {memory : Memory} (ran : run (step e) { process } (.genInit :: events) = some s)
    (entered : step e s (.visit (.enter fnName memory)) = some t)
    (worked : shouldFuzz e.cfg fnName s.process = true ∨ shouldRecord e.cfg fnName s.process = true) :
    t.initDone = true ↔ e.cfg.recording = true ∨ e.forkOnInit = true ∨
      e.forkOnCallNr ≤ events.countP Event.isLibraryFunction := by
  obtain ⟨first, initialised, rest⟩ := run_cons.mp ran
  cases initialised
  have start : Sound e 0 { process, initDone := e.cfg.recording || e.forkOnInit } := by
    refine ⟨rfl, fun early => ?_, fun later none => absurd (Nat.le_zero.mp none) later, fun _ done => ?_⟩
    · simpa using early
    · rcases Bool.or_eq_true_iff.mp done with recording | onInit
      · exact .inl recording
      · exact .inr (.inl onInit)
  have sound := run_sound start (by simpa using rest)
  rw [Nat.zero_add] at sound
  obtain ⟨after, _, rfl⟩ := Option.map_eq_some_iff.mp entered
  by_cases later : e.forkOnCallNr = 0
  · have starts : e.forkOnInit = false → e.starts s.process (.enter fnName memory) = true := by
      intro deferred
      rcases worked with fuzz | record
      · simp [Entrance.starts, deferred, later, fuzz]
      · simp [Entrance.starts, deferred, later, record]
    refine iff_of_true ?_ (.inr (.inr (by omega)))
    cases onInit : e.forkOnInit with
    | false => simp [starts onInit]
    | true => simp [sound.early (.inr onInit)]
  · have never : e.starts s.process (.enter fnName memory) = false := by simp [Entrance.starts, later]
    simp only [never, Bool.or_false]
    refine ⟨sound.only later, ?_⟩
    rintro (recording | onInit | enough)
    · exact sound.early (.inl recording)
    · exact sound.early (.inr onInit)
    · exact sound.reached later enough

/-- `fork_on_call` 2 with a target that is the first library function: its arguments are replaced
before there is a fork server. -/
def lateFork : Entrance := ⟨shadowConfig (ascii "f") false 1, false, false, 2, by decide⟩

theorem target_before_fork : ∃ t,
    step lateFork { process := freshProcess } (.visit (.enter (ascii "f") noMemory)) = some t ∧ t.initDone = false ∧
    (t.initDone = true ↔ lateFork.cfg.recording = true ∨ lateFork.forkOnInit = true ∨
      lateFork.forkOnCallNr ≤ List.countP Event.isLibraryFunction []) := by
  have ran : run (step lateFork) { process := freshProcess } [.genInit] = some { process := freshProcess } := rfl
  have entered : (step lateFork { process := freshProcess } (.visit (.enter (ascii "f") noMemory))).map
      State.initDone = some false := by decide
  obtain ⟨t, is, done⟩ := Option.map_eq_some_iff.mp entered
  exact ⟨t, is, done, worked_on_in_child ran is (.inl (by decide))⟩

/-! ### Passes -/

/-- Outside a recording. -/
structure Plain (cfg : Config) : Prop where
  recording : cfg.recording = false
  userRecording : cfg.userRecording = false

def Visit.fuzzed (cfg : Config) (s : Process) : Visit → Bool
  | .enter fnName _ => shouldFuzz cfg fnName s
  | .leave _ => false

/-- For every visit before the process ends, whether the call gets new arguments. -/
def replaced (cfg : Config) (exitOnReturn : Bool) : Process → List Visit → List Bool
  | _, [] => []
  | s, v :: rest =>
    match visit cfg exitOnReturn s v with
    | none => []
    | some t => Visit.fuzzed cfg s v :: replaced cfg exitOnReturn t rest

/-- Two processes that will decide alike. -/
structure Alike (s t : Process) : Prop where
  inFuzz : t.inFuzz = s.inFuzz
  currentCalls : t.currentCalls = s.currentCalls
  fuzzIdx : t.fuzzIdx = s.fuzzIdx
  shadow : s.inFuzz = true → t.shadowName = s.shadowName ∧ t.shadowRecurse = s.shadowRecurse

def Config.isTarget (cfg : Config) (fnName : Name) : Bool :=
  (cfg.userTarget ≠ [] && cfg.userTarget == fnName) || cfg.currentTarget == some fnName

section
variable {cfg : Config} {exitOnReturn : Bool} {s s' t : Process} {fnName : Name}

theorem Plain.shouldRecord (plain : Plain cfg) (fnName : Name) (s : Process) : shouldRecord cfg fnName s = false := by
  simp [Libgen.shouldRecord, plain.recording, plain.userRecording]

theorem Plain.shouldFuzz (plain : Plain cfg) (fnName : Name) (s : Process) :
    shouldFuzz cfg fnName s = (Config.isTarget cfg fnName && (!s.inFuzz || decide (s.fuzzIdx < cfg.maxFuzz))) := by
  simp only [Libgen.shouldFuzz, plain.shouldRecord, Config.isTarget, Bool.not_false, Bool.and_true]

theorem countCall_alike (cfg : Config) (fnName : Name) (alike : Alike s s') :
    (countCall cfg fnName s = .error .exit ∧ countCall cfg fnName s' = .error .exit) ∨
      ∃ t t', countCall cfg fnName s = .ok t ∧ countCall cfg fnName s' = .ok t' ∧ Alike t t' := by
  cases running : s.inFuzz with
  | false =>
    have other : s'.inFuzz = false := alike.inFuzz.trans running
    exact .inr ⟨s, s', by simp [countCall, running], by simp [countCall, other], alike⟩
  | true =>
    have other : s'.inFuzz = true := alike.inFuzz.trans running
    obtain ⟨name, recurse⟩ := alike.shadow running
    simp only [countCall, running, other, if_true, alike.currentCalls]
    generalize (if cfg.exitOnMaxCalls then (s.currentCalls + 1) % 2 ^ 32 else s.currentCalls) = calls
    by_cases many : cfg.exitOnMaxCalls = true ∧ cfg.maxCalls < calls
    · exact .inl ⟨if_pos many, if_pos many⟩
    · refine .inr ⟨_, _, if_neg many, if_neg many, ⟨rfl, rfl, alike.fuzzIdx, fun _ => ⟨name, ?_⟩⟩⟩
      simp only [name, recurse]

theorem visit_alike (exitOnReturn : Bool) (plain : Plain cfg) (alike : Alike s s') (v : Visit) :
    (visit cfg exitOnReturn s v = none ∧ visit cfg exitOnReturn s' v = none) ∨
      ∃ t t', visit cfg exitOnReturn s v = some t ∧ visit cfg exitOnReturn s' v = some t' ∧ Alike t t' := by
  cases v with
  | enter fnName memory =>
    rcases countCall_alike cfg fnName alike with ⟨first, second⟩ | ⟨u, u', first, second, alike⟩
    · left
      constructor
      · rw [visit, enter, first]
        rfl
      · rw [visit, enter, second]
        rfl
    · have same : shouldFuzz cfg fnName u' = shouldFuzz cfg fnName u := by
        rw [plain.shouldFuzz, plain.shouldFuzz, alike.inFuzz, alike.fuzzIdx]
      right
      simp only [visit, enter, first, second, ok_bind, plain.shouldRecord, same, Bool.false_eq_true, if_false]
      refine ⟨_, _, rfl, rfl, ?_⟩
      cases shouldFuzz cfg fnName u with
      | true => exact ⟨rfl, alike.currentCalls, congrArg (· + 1) alike.fuzzIdx, fun _ => ⟨rfl, rfl⟩⟩
      | false => exact ⟨alike.inFuzz, alike.currentCalls, alike.fuzzIdx, alike.shadow⟩
  | leave fnName =>
    cases running : s.inFuzz with
    | false =>
      have other : s'.inFuzz = false := alike.inFuzz.trans running
      right
      exact ⟨s, s', by simp [visit, epilogue, running, Except.toOption],
        by simp [visit, epilogue, other, Except.toOption], alike⟩
    | true =>
      have other : s'.inFuzz = true := alike.inFuzz.trans running
      obtain ⟨name, recurse⟩ := alike.shadow running
      simp only [visit, epilogue, running, other, name, recurse]
      split
      · split
        · exact .inl ⟨rfl, rfl⟩
        · exact .inr ⟨_, _, rfl, rfl, rfl, alike.currentCalls, alike.fuzzIdx, fun _ => ⟨rfl, rfl⟩⟩
      · exact .inr ⟨s, s', rfl, rfl, alike⟩

theorem fuzzed_alike (plain : Plain cfg) (alike : Alike s s') (v : Visit) :
    Visit.fuzzed cfg s' v = Visit.fuzzed cfg s v := by
  cases v with
  | enter fnName memory =>
    rw [Visit.fuzzed, Visit.fuzzed, plain.shouldFuzz, plain.shouldFuzz, alike.inFuzz, alike.fuzzIdx]
  | leave fnName => rfl

theorem run_alike (plain : Plain cfg) (alike : Alike s s') (visits : List Visit) :
    replaced cfg exitOnReturn s' visits = replaced cfg exitOnReturn s visits ∧
      (run (visit cfg exitOnReturn) s' visits).isSome = (run (visit cfg exitOnReturn) s visits).isSome := by
  induction visits generalizing s s' with
  | nil => exact ⟨rfl, rfl⟩
  | cons v visits ih =>
    have same := fuzzed_alike plain alike v
    rcases visit_alike exitOnReturn plain alike v with ⟨first, second⟩ | ⟨t, t', first, second, alike⟩
    · simp [replaced, run, first, second]
    · obtain ⟨calls, ends⟩ := ih alike
      simp [replaced, run, first, second, same, calls, ends]

def Visit.ofTarget (cfg : Config) : Visit → Bool
  | .enter fnName _ => Config.isTarget cfg fnName
  | .leave _ => false

theorem countCall_frame (counted : countCall cfg fnName s = .ok t) : t.fuzzIdx = s.fuzzIdx ∧ t.inFuzz = s.inFuzz := by
  cases running : s.inFuzz with
  | false =>
    simp only [countCall, running, Bool.false_eq_true, if_false] at counted
    cases counted
    exact ⟨rfl, running⟩
  | true =>
    simp only [countCall, running, if_true] at counted
    generalize (if cfg.exitOnMaxCalls then (s.currentCalls + 1) % 2 ^ 32 else s.currentCalls) = calls at counted
    split at counted
    · cases counted
    · cases counted
      exact ⟨rfl, rfl⟩

theorem visit_counts (plain : Plain cfg) {v : Visit} (visited : visit cfg exitOnReturn s v = some t) :
    t.fuzzIdx = s.fuzzIdx + (if Visit.fuzzed cfg s v then 1 else 0) ∧
      t.inFuzz = (s.inFuzz || Visit.fuzzed cfg s v) := by
  cases v with
  | enter fnName memory =>
    have called : enter cfg fnName memory s = .ok t := visit_enter.mp visited
    simp only [enter, bind_eq_ok] at called
    obtain ⟨u, counted, done⟩ := called
    obtain ⟨count, running⟩ := countCall_frame counted
    simp only [plain.shouldRecord, (decisions_counted counted).2, Bool.false_eq_true, if_false] at done
    obtain rfl := Except.ok.inj done
    simp only [Visit.fuzzed]
    by_cases fuzz : shouldFuzz cfg fnName s = true
    · simp only [fuzz, if_true, Bool.or_true]
      exact ⟨congrArg (· + 1) count, rfl⟩
    · simp only [Bool.eq_false_iff.mpr fuzz, Bool.false_eq_true, if_false, Bool.or_false]
      exact ⟨count, running⟩
  | leave fnName =>
    simp only [visit, epilogue] at visited
    rw [Visit.fuzzed, Bool.or_false]
    split at visited
    · split at visited
      · cases visited
      · cases visited
        exact ⟨rfl, rfl⟩
    · cases visited
      exact ⟨rfl, rfl⟩

/-- The process in the middle of a pass in which `calls` of the target have been made. -/
structure Counted (cfg : Config) (calls : Nat) (s : Process) : Prop where
  count : s.fuzzIdx = min (max 1 cfg.maxFuzz) calls
  running : s.inFuzz = decide (0 < calls)

theorem Counted.fuzzed (counted : Counted cfg calls s) (plain : Plain cfg) (v : Visit) :
    Visit.fuzzed cfg s v = (Visit.ofTarget cfg v && decide (calls < max 1 cfg.maxFuzz)) := by
  cases v with
  | leave fnName => rfl
  | enter fnName memory =>
    rw [Visit.fuzzed, plain.shouldFuzz, counted.count, counted.running, Visit.ofTarget]
    congr 1
    by_cases first : calls = 0
    · simp [first]
    · have some : 0 < calls := Nat.pos_of_ne_zero first
      simp only [some, decide_true, Bool.not_true, Bool.false_or, decide_eq_decide]
      omega

theorem Counted.visit (counted : Counted cfg calls s) (plain : Plain cfg) {v : Visit}
    (visited : visit cfg exitOnReturn s v = some t) :
    Counted cfg (calls + if Visit.ofTarget cfg v then 1 else 0) t := by
  obtain ⟨count, running⟩ := visit_counts plain visited
  rw [counted.fuzzed plain, counted.count] at count
  rw [counted.fuzzed plain, counted.running] at running
  cases target : Visit.ofTarget cfg v with
  | false =>
    simp only [target, Bool.false_and, Bool.false_eq_true, if_false, Bool.or_false, Nat.add_zero] at count running ⊢
    exact ⟨count, running⟩
  | true =>
    simp only [target, Bool.true_and, decide_eq_true_eq, if_true] at count running ⊢
    refine ⟨?_, ?_⟩
    · rw [count]
      split <;> omega
    · rw [running, ← Bool.decide_or, decide_eq_decide]
      omega

theorem run_counted (counted : Counted cfg calls s) (plain : Plain cfg) {visits : List Visit}
    (ran : run (Libgen.visit cfg exitOnReturn) s visits = some t) :
    min (max 1 cfg.maxFuzz) calls + (replaced cfg exitOnReturn s visits).count true =
      min (max 1 cfg.maxFuzz) (calls + visits.countP (Visit.ofTarget cfg)) := by
  induction visits generalizing s calls with
  | nil => simp [replaced]
  | cons v visits ih =>
    obtain ⟨u, first, rest⟩ := run_cons.mp ran
    have later := ih (counted.visit plain first) rest
    simp only [replaced, first, List.count_cons, List.countP_cons, counted.fuzzed plain]
    cases target : Visit.ofTarget cfg v with
    | false =>
      simp only [target, Bool.false_eq_true, if_false, Nat.add_zero] at later
      simpa using later
    | true =>
      simp only [target, if_true] at later
      simp only [Bool.true_and, beq_iff_eq, decide_eq_true_eq, if_true]
      split <;> omega

/-- Whether a call gets new arguments is decided by the calls of the target before it. -/
theorem replaced_at (counted : Counted cfg calls s) (plain : Plain cfg) {visits : List Visit} {i : Nat} {fuzzed : Bool}
    (decided : (replaced cfg exitOnReturn s visits)[i]? = some fuzzed) :
    ∃ v, visits[i]? = some v ∧ fuzzed = (Visit.ofTarget cfg v &&
      decide (calls + (visits.take i).countP (Visit.ofTarget cfg) < max 1 cfg.maxFuzz)) := by
  induction visits generalizing s calls i with
  | nil => simp [replaced] at decided
  | cons v visits ih =>
    rw [replaced] at decided
    split at decided
    · simp at decided
    · rename_i u visited
      cases i with
      | zero =>
        refine ⟨v, rfl, ?_⟩
        simpa [counted.fuzzed plain] using decided.symm
      | succ i =>
        obtain ⟨w, place, is⟩ := ih (counted.visit plain visited) decided
        refine ⟨w, place, ?_⟩
        rw [is, List.take_succ_cons, List.countP_cons, Nat.add_right_comm, Nat.add_assoc]

theorem replaced_length {visits : List Visit} (ran : run (Libgen.visit cfg exitOnReturn) s visits = some t) :
    (replaced cfg exitOnReturn s visits).length = visits.length := by
  induction visits generalizing s with
  | nil => rfl
  | cons v visits ih =>
    obtain ⟨u, first, rest⟩ := run_cons.mp ran
    simp only [replaced, first, List.length_cons, ih rest]

theorem beforeLoop_counted (cfg : Config) (s : Process) : Counted cfg 0 (beforeLoop s) := ⟨by simp [beforeLoop], rfl⟩

end

/-- Outside a recording, a pass does not depend on the passes before it: which calls get new
arguments and whether one of them ends the process is the same whatever the process has done
before. A call gets new arguments exactly if it is one of the first `max_fuzz` calls of the target in
the pass, the first one if `max_fuzz` is 0, so a pass that comes to its end replaces the arguments of
so many calls, or of all calls of the target if there are fewer. -/
theorem pass_like_first {cfg : Config} (plain : Plain cfg) (exitOnReturn : Bool) (visits : List Visit)
    (s s' : Process) :
    replaced cfg exitOnReturn (beforeLoop s') visits = replaced cfg exitOnReturn (beforeLoop s) visits ∧
      (run (visit cfg exitOnReturn) (beforeLoop s') visits).isSome =
        (run (visit cfg exitOnReturn) (beforeLoop s) visits).isSome ∧
      (∀ i fuzzed, (replaced cfg exitOnReturn (beforeLoop s) visits)[i]? = some fuzzed →
        ∃ v, visits[i]? = some v ∧ fuzzed = (Visit.ofTarget cfg v &&
          decide ((visits.take i).countP (Visit.ofTarget cfg) < max 1 cfg.maxFuzz))) ∧
      ∀ t, run (visit cfg exitOnReturn) (beforeLoop s) visits = some t →
        (replaced cfg exitOnReturn (beforeLoop s) visits).length = visits.length ∧
        (replaced cfg exitOnReturn (beforeLoop s) visits).count true =
          min (max 1 cfg.maxFuzz) (visits.countP (Visit.ofTarget cfg)) := by
  have alike : Alike (beforeLoop s) (beforeLoop s') := ⟨rfl, rfl, rfl, fun running => by cases running⟩
  obtain ⟨calls, ends⟩ := run_alike plain alike visits
  have start := beforeLoop_counted cfg s
  refine ⟨calls, ends, fun i fuzzed decided => ?_, fun t ran => ⟨replaced_length ran, ?_⟩⟩
  · simpa using replaced_at start plain decided
  · simpa using run_counted start plain ran

def fuzzTwice : Config := shadowConfig (ascii "f") false 2

/-- A process that has made a pass. -/
def usedUp : Process :=
  { freshProcess with
    inFuzz := true
    currentCalls := 9
    fuzzIdx := 2
    shadowName := some (ascii "f")
    shadowRecurse := 1 }

def threeCalls : List Visit :=
  [.enter (ascii "f") noMemory, .leave (ascii "f"), .enter (ascii "f") noMemory, .leave (ascii "f"),
    .enter (ascii "f") noMemory]

theorem second_pass_alike :
    replaced fuzzTwice false (beforeLoop freshProcess) threeCalls = [true, false, true, false, false] ∧
      replaced fuzzTwice false (beforeLoop usedUp) threeCalls =
        replaced fuzzTwice false (beforeLoop freshProcess) threeCalls :=
  ⟨by decide, (pass_like_first ⟨rfl, rfl⟩ false threeCalls freshProcess usedUp).1⟩

end AflLive.Libgen.Passes
