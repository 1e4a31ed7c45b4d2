import AflLive.Library.Binary64
import AflLive.Testamp.FuzzLog

/-! The loop of `setup_fuzzers.py` that starts one campaign after the other: always the command
with the most targets that no campaign has fuzzed so far. -/
namespace AflLive.Testamp

/-- The targets a run of the suite executes, and the command for it. -/
abbrev Command := Finset (List Char) × List Char

def executedTargets (cmds : List Command) : Finset (List Char) := cmds.foldr (fun cmd rest => cmd.1 ∪ rest) ∅

theorem mem_executedTargets : t ∈ executedTargets cmds ↔ ∃ cmd ∈ cmds, t ∈ cmd.1 := by
  induction cmds with
  | nil => simp [executedTargets]
  | cons cmd cmds ih =>
    have step : executedTargets (cmd :: cmds) = cmd.1 ∪ executedTargets cmds := rfl
    simp [step, ih]

theorem executedTargets_append (cmds : List Command) (cmd : Command) :
    executedTargets (cmds ++ [cmd]) = executedTargets cmds ∪ cmd.1 := by
  ext t
  simp [mem_executedTargets, or_and_right, exists_or]

theorem step_executed {r : Reader}
    (known : r.executedTargets = executedTargets r.fuzzingCommands ∪ r.targetsToFuzz) :
    (r.step targets line).executedTargets =
      executedTargets (r.step targets line).fuzzingCommands ∪ (r.step targets line).targetsToFuzz := by
  unfold Reader.step
  split_ifs
  · -- A new run: what the last one executed is in the list if there is any.
    by_cases some : r.targetsToFuzz.Nonempty
    · simp [Reader.flush, some, Reader.appendCommand, executedTargets_append, known]
    · have none : r.targetsToFuzz = ∅ := Finset.not_nonempty_iff_eq_empty.mp some
      simp [Reader.flush, known, none]
  · exact known
  · exact known
  · exact known
  · unfold Reader.content
    split
    · exact known
    · simp [known, Finset.union_assoc]
    · exact known
    · exact known
    · exact known

/-- The reader of the log keeps the set of all targets of the commands it returns. -/
theorem getFuzzingCommands_executed (read : getFuzzingCommands targets log = some r) :
    r.executedTargets = executedTargets r.fuzzingCommands := by
  have run : ∀ (lines : List (List Char)) (r : Reader),
      r.executedTargets = executedTargets r.fuzzingCommands ∪ r.targetsToFuzz →
        (lines.foldl (Reader.step targets) r).appendCommand.executedTargets =
          executedTargets (lines.foldl (Reader.step targets) r).appendCommand.fuzzingCommands := by
    intro lines
    induction lines with
    | nil =>
      intro r known
      simp [Reader.appendCommand, executedTargets_append, known]
    | cons line lines ih =>
      intro r known
      exact ih _ (step_executed known)
  simp only [getFuzzingCommands, Option.bind_eq_bind, Option.bind_eq_some_iff, Option.pure_def, Option.some.injEq] at read
  obtain ⟨_, -, text, -, rfl⟩ := read
  exact run (Text.lines text) {} rfl

/-! ### The command of a campaign -/

/-- Some order in which the script goes through a set. -/
structure SetOrder where
  list : Finset (List Char) → List (List Char)
  nodup : ∀ s, (list s).Nodup
  toFinset : ∀ s, (list s).toFinset = s

/-- `str.replace`, for at most `fuel` characters. -/
def replaceIn (old new : List Char) : Nat → List Char → List Char
  | 0, text => text
  | _, [] => []
  | fuel + 1, c :: text =>
    if old.isPrefixOf (c :: text) then new ++ replaceIn old new fuel ((c :: text).drop old.length)
    else c :: replaceIn old new fuel text

def replace (old new text : List Char) : List Char := replaceIn old new text.length text

/-- `math.ceil(24 * 60 * 60 * unfuzzed / executed)`: the quotient is a double. -/
def fuzzingQuota (unfuzzed executed : Nat) : Nat := ⌈Binary64.round ((24 * 60 * 60 * unfuzzed : Nat) / executed)⌉₊

def campaignText (fuzzedTargets : List (List Char)) (quota : Nat) (cmd : List Char) : List Char :=
  let cmd := replace " afl-fuzz ".toList
    ("AH_BLACKLIST=':".toList ++ [':'].intercalate fuzzedTargets ++ ":' afl-fuzz ".toList) cmd
  let cmd := replace "afl-fuzz ".toList
    ("timeout -k 1 ".toList ++ Nat.toDigits 10 (quota * 2 + 180) ++ " afl-fuzz -V ".toList ++ Nat.toDigits 10 quota ++
      [' ']) cmd
  if "ASAN_OPTIONS=".toList <:+: cmd then
    replace "ASAN_OPTIONS='".toList "ASAN_OPTIONS='symbolize=0:abort_on_error=1:".toList cmd
  else cmd

/-! ### The loop -/

structure Campaign where
  command : Command
  /-- The names in `AH_BLACKLIST`. -/
  blacklist : List (List Char)
  targets : Finset (List Char)
  quota : Nat
  text : List Char
  succeeded : Bool

/-- The variables of the loop, and the campaigns so far. -/
structure Scheduler where
  fuzzingCommands : List Command
  fuzzedTargets : Finset (List Char) := ∅
  campaigns : List Campaign := []

/-- `WEXITSTATUS(status) == 0 or WTERMSIG(status) == 2` -/
def successful (status : Nat) : Bool := status / 256 % 256 = 0 || status % 128 = 2

/-- One turn of the scan for the best command. -/
def consider (cmdBl : List (List Char)) (fuzzedTargets : Finset (List Char))
    (best : Option Command × Finset (List Char))
    (cmd : Command) : Option Command × Finset (List Char) :=
  if cmd.2 ∈ cmdBl then best
  else if best.2.card < (cmd.1 \ fuzzedTargets).card then (some cmd, cmd.1 \ fuzzedTargets)
  else best

/-- The list of failed commands is emptied before each scan. -/
def bestCommand (fuzzedTargets : Finset (List Char)) (cmds : List Command) : Option Command × Finset (List Char) :=
  cmds.foldl (consider [] fuzzedTargets) (none, ∅)

section
variable (order : SetOrder) (executed : Finset (List Char)) (status : Nat → Nat)

/-- The campaign the loop starts next, with the status `os.system` returns for it. -/
def campaign (s : Scheduler) (cmd : Command) (unfuzzed : Finset (List Char)) : Campaign :=
  let blacklist := order.list s.fuzzedTargets
  let quota := fuzzingQuota unfuzzed.card executed.card
  { command := cmd
    blacklist
    targets := cmd.1 \ s.fuzzedTargets
    quota
    text := campaignText blacklist quota cmd.2
    succeeded := successful (status s.campaigns.length) }

/-- One turn, or `none` where the script finds no suitable command. -/
def turn (s : Scheduler) : Option Scheduler :=
  match bestCommand s.fuzzedTargets s.fuzzingCommands with
  | (some cmd, unfuzzed) =>
    if 0 < unfuzzed.card then
      let c := campaign order executed status s cmd unfuzzed
      some {
        fuzzingCommands := s.fuzzingCommands.erase cmd
        fuzzedTargets := if c.succeeded then s.fuzzedTargets ∪ c.targets else s.fuzzedTargets
        campaigns := s.campaigns ++ [c] }
    else none
  | (none, _) => none

/-- The loop, for at most `fuel` turns. -/
def campaigns : Nat → Scheduler → Option Scheduler
  | 0, s => if s.fuzzedTargets.card < executed.card then none else some s
  | fuel + 1, s =>
    if s.fuzzedTargets.card < executed.card then
      match turn order executed status s with
      | some s' => campaigns fuel s'
      | none => some s
    else some s

end

/-! ### The choice of a command -/

/-- What a scan has found: nothing new, or a command with the most targets to fuzz. -/
def Found (fuzzedTargets : Finset (List Char)) (cmds : List Command) : Option Command × Finset (List Char) → Prop
  | (none, unfuzzed) => unfuzzed = ∅ ∧ ∀ d ∈ cmds, d.1 ⊆ fuzzedTargets
  | (some cmd, unfuzzed) =>
    cmd ∈ cmds ∧ unfuzzed = cmd.1 \ fuzzedTargets ∧ 0 < unfuzzed.card ∧
      ∀ d ∈ cmds, (d.1 \ fuzzedTargets).card ≤ unfuzzed.card

theorem consider_found (found : Found fuzzedTargets cmds best) :
    Found fuzzedTargets (cmds ++ [cmd]) (consider [] fuzzedTargets best cmd) := by
  obtain ⟨before, unfuzzed⟩ := best
  simp only [consider, List.not_mem_nil, if_false]
  split
  · next more =>
    refine ⟨by simp, rfl, by omega, fun d inside => ?_⟩
    rcases List.mem_append.mp inside with earlier | last
    · cases before with
      | none =>
        have empty : d.1 \ fuzzedTargets = ∅ := Finset.sdiff_eq_empty_iff_subset.mpr (found.2 d earlier)
        simp [empty]
      | some best => exact (found.2.2.2 d earlier).trans more.le
    · rw [List.mem_singleton.mp last]
  · next less =>
    push Not at less
    cases before with
    | none =>
      obtain ⟨rfl, known⟩ := found
      refine ⟨rfl, fun d inside => ?_⟩
      rcases List.mem_append.mp inside with earlier | last
      · exact known d earlier
      · rw [List.mem_singleton.mp last]
        exact Finset.sdiff_eq_empty_iff_subset.mp (Finset.card_eq_zero.mp (Nat.le_zero.mp less))
    | some best =>
      obtain ⟨inside, is, positive, most⟩ := found
      refine ⟨by simp [inside], is, positive, fun d member => ?_⟩
      rcases List.mem_append.mp member with earlier | last
      · exact most d earlier
      · rw [List.mem_singleton.mp last]
        exact less

theorem bestCommand_found (fuzzedTargets : Finset (List Char)) (cmds : List Command) :
    Found fuzzedTargets cmds (bestCommand fuzzedTargets cmds) := by
  have all : ∀ rest earlier best, Found fuzzedTargets earlier best →
      Found fuzzedTargets (earlier ++ rest) (rest.foldl (consider [] fuzzedTargets) best) := by
    intro rest
    induction rest with
    | nil => simp
    | cons cmd rest ih =>
      intro earlier best found
      have next := ih (earlier ++ [cmd]) _ (consider_found found)
      rwa [List.append_assoc, List.singleton_append] at next
  exact all cmds [] (none, ∅) ⟨rfl, by simp⟩

/-! ### The invariant -/

/-- The targets of the successful ones among some campaigns. -/
def coveredBy (cs : List Campaign) : Finset (List Char) :=
  executedTargets ((cs.filter Campaign.succeeded).map Campaign.command)

/-- What is known of a campaign that is started after those `before` it. -/
structure Greedy (executed : Finset (List Char)) (cmds : List Command) (before : List Campaign) (c : Campaign) :
    Prop where
  /-- The blacklist is the union of the targets of earlier successful campaigns. -/
  blacklist : c.blacklist.toFinset = coveredBy before
  targets : c.targets = c.command.1 \ coveredBy before
  quota : c.quota = fuzzingQuota c.targets.card executed.card
  text : c.text = campaignText c.blacklist c.quota c.command.2
  some : c.targets.Nonempty
  /-- Of the commands that remain none has more targets to fuzz. -/
  most : ∃ remaining : List Command, (before.map Campaign.command ++ remaining).Perm cmds ∧ c.command ∈ remaining ∧
    ∀ d ∈ remaining, (d.1 \ coveredBy before).card ≤ c.targets.card

structure Valid (executed : Finset (List Char)) (cmds : List Command) (s : Scheduler) : Prop where
  /-- Each entry of the list is still there or was run once. -/
  perm : (s.campaigns.map Campaign.command ++ s.fuzzingCommands).Perm cmds
  covered : s.fuzzedTargets = coveredBy s.campaigns
  greedy : ∀ before c after, s.campaigns = before ++ c :: after → Greedy executed cmds before c
  counted : ((s.campaigns.filter Campaign.succeeded).map fun c => c.targets.card).sum = s.fuzzedTargets.card

theorem coveredBy_append (cs : List Campaign) (c : Campaign) :
    coveredBy (cs ++ [c]) = if c.succeeded then coveredBy cs ∪ c.command.1 else coveredBy cs := by
  ext t
  cases won : c.succeeded with
  | true => simp [coveredBy, mem_executedTargets, won, or_and_right, exists_or]
  | false => simp [coveredBy, won]

section
variable {order : SetOrder} {executed : Finset (List Char)} {status : Nat → Nat} {cmds : List Command}
  {s s' : Scheduler}

/-- A turn takes the command with the most targets to fuzz off the list. -/
theorem turn_some (next : turn order executed status s = some s') :
    ∃ cmd ∈ s.fuzzingCommands, ∃ c, c = campaign order executed status s cmd (cmd.1 \ s.fuzzedTargets) ∧
      (cmd.1 \ s.fuzzedTargets).Nonempty ∧
      (∀ d ∈ s.fuzzingCommands, (d.1 \ s.fuzzedTargets).card ≤ (cmd.1 \ s.fuzzedTargets).card) ∧
      s' = ⟨s.fuzzingCommands.erase cmd, if c.succeeded then s.fuzzedTargets ∪ c.targets else s.fuzzedTargets,
        s.campaigns ++ [c]⟩ := by
  have found := bestCommand_found s.fuzzedTargets s.fuzzingCommands
  unfold turn at next
  generalize bestCommand s.fuzzedTargets s.fuzzingCommands = best at found next
  obtain ⟨best, unfuzzed⟩ := best
  cases best with
  | none => cases next
  | some cmd =>
    obtain ⟨inside, rfl, positive, most⟩ := found
    simp only [positive, if_true, Option.some.injEq] at next
    exact ⟨cmd, inside, _, rfl, Finset.card_pos.mp positive, most, next.symm⟩

theorem turn_none (stops : turn order executed status s = none) : ∀ d ∈ s.fuzzingCommands, d.1 ⊆ s.fuzzedTargets := by
  have found := bestCommand_found s.fuzzedTargets s.fuzzingCommands
  unfold turn at stops
  generalize bestCommand s.fuzzedTargets s.fuzzingCommands = best at found stops
  obtain ⟨best, unfuzzed⟩ := best
  cases best with
  | none => exact found.2
  | some cmd =>
    obtain ⟨inside, rfl, positive, most⟩ := found
    simp [positive] at stops

theorem Valid.turn (valid : Valid executed cmds s) (next : turn order executed status s = some s') :
    Valid executed cmds s' := by
  obtain ⟨cmd, inside, c, is, nonempty, most, rfl⟩ := turn_some next
  have command : c.command = cmd := by rw [is]; rfl
  have targets : c.targets = cmd.1 \ coveredBy s.campaigns := by rw [is, ← valid.covered]; rfl
  have listed : (s.campaigns.map Campaign.command ++ s.fuzzingCommands).Perm
      ((s.campaigns ++ [c]).map Campaign.command ++ s.fuzzingCommands.erase cmd) := by
    rw [List.map_append, List.append_assoc, List.map_singleton, command, List.singleton_append]
    exact (List.perm_cons_erase inside).append_left _
  constructor
  · exact listed.symm.trans valid.perm
  · rw [coveredBy_append, command, targets, valid.covered]
    simp
  · intro before c' after parts
    dsimp only at parts
    rcases List.eq_nil_or_concat after with rfl | ⟨earlier, last, rfl⟩
    · obtain ⟨rfl, only⟩ := List.append_inj' parts rfl
      obtain rfl : c = c' := (List.cons.inj only).1
      refine ⟨?_, by rw [targets, command], ?_, ?_, ?_, s.fuzzingCommands, valid.perm, command ▸ inside, ?_⟩
      · rw [is, ← valid.covered]
        exact order.toFinset _
      · rw [is]
        rfl
      · rw [is]
        rfl
      · rw [targets, ← valid.covered]
        exact nonempty
      · rw [targets, ← valid.covered]
        exact most
    · have whole : s.campaigns ++ [c] = (before ++ c' :: earlier) ++ [last] := by
        rw [parts]
        simp
      obtain ⟨same, -⟩ := List.append_inj' whole rfl
      exact valid.greedy before c' earlier same
  · have fresh : Disjoint s.fuzzedTargets c.targets := by
      rw [targets, ← valid.covered]
      exact Finset.disjoint_sdiff
    cases won : c.succeeded with
    | true => simp [won, valid.counted, Finset.card_union_of_disjoint fresh]
    | false => simp [won, valid.counted]

/-- Why the loop has ended: all targets are fuzzed, or no command is left that has others. -/
def Ended (executed : Finset (List Char)) (s : Scheduler) : Prop :=
  executed.card ≤ s.fuzzedTargets.card ∨ ∀ d ∈ s.fuzzingCommands, d.1 ⊆ s.fuzzedTargets

theorem campaigns_ends (valid : Valid executed cmds s) : ∃ final,
    (∀ fuel, s.fuzzingCommands.length < fuel → campaigns order executed status fuel s = some final) ∧
      Valid executed cmds final ∧ Ended executed final := by
  obtain ⟨n, size⟩ : ∃ n, s.fuzzingCommands.length = n := ⟨_, rfl⟩
  induction n using Nat.strong_induction_on generalizing s with
  | _ n ih =>
    by_cases more : s.fuzzedTargets.card < executed.card
    · cases next : Testamp.turn order executed status s with
      | none =>
        refine ⟨s, fun fuel enough => ?_, valid, .inr (turn_none next)⟩
        obtain ⟨less, rfl⟩ : ∃ less, fuel = less + 1 := ⟨fuel - 1, by omega⟩
        rw [campaigns, if_pos more, next]
      | some s' =>
        obtain ⟨cmd, inside, c, -, -, -, rfl⟩ := turn_some next
        have shorter := List.length_erase_of_mem inside
        have positive := List.length_pos_of_mem inside
        obtain ⟨final, runs, valid', ended⟩ := ih (n - 1) (by omega) (valid.turn next) (by rw [shorter, size])
        refine ⟨final, fun fuel enough => ?_, valid', ended⟩
        obtain ⟨less, rfl⟩ : ∃ less, fuel = less + 1 := ⟨fuel - 1, by omega⟩
        rw [campaigns, if_pos more, next]
        exact runs less (by rw [shorter]; omega)
    · refine ⟨s, fun fuel _ => ?_, valid, .inl (Nat.le_of_not_lt more)⟩
      cases fuel with
      | zero => rw [campaigns, if_neg more]
      | succ fuel => rw [campaigns, if_neg more]

theorem Valid.command_mem (valid : Valid executed cmds s) (inside : c ∈ s.campaigns) : c.command ∈ cmds :=
  valid.perm.mem_iff.mp (List.mem_append_left _ (List.mem_map_of_mem inside))

theorem mem_coveredBy : t ∈ coveredBy cs ↔ ∃ c ∈ cs, c.succeeded = true ∧ t ∈ c.command.1 := by
  simp only [coveredBy, mem_executedTargets, List.mem_map, List.mem_filter]
  constructor
  · rintro ⟨_, ⟨c, ⟨inside, won⟩, rfl⟩, member⟩
    exact ⟨c, inside, won, member⟩
  · rintro ⟨c, inside, won, member⟩
    exact ⟨_, ⟨c, ⟨inside, won⟩, rfl⟩, member⟩

theorem Valid.fuzzed_subset (valid : Valid (executedTargets cmds) cmds s) : s.fuzzedTargets ⊆ executedTargets cmds := by
  intro t fuzzed
  rw [valid.covered, mem_coveredBy] at fuzzed
  obtain ⟨c, inside, -, member⟩ := fuzzed
  exact mem_executedTargets.mpr ⟨c.command, valid.command_mem inside, member⟩

/-- At the end a target was fuzzed, or all commands for it were tried in vain. -/
theorem Valid.covers (valid : Valid (executedTargets cmds) cmds s) (ended : Ended (executedTargets cmds) s)
    (executes : t ∈ executedTargets cmds) :
    (∃ c ∈ s.campaigns, c.succeeded = true ∧ t ∈ c.command.1) ∨
      (∀ d ∈ s.fuzzingCommands, t ∉ d.1) ∧ ∀ c ∈ s.campaigns, t ∈ c.command.1 → c.succeeded = false := by
  by_cases fuzzed : t ∈ s.fuzzedTargets
  · rw [valid.covered, mem_coveredBy] at fuzzed
    exact .inl fuzzed
  · refine .inr ⟨fun d inside member => ?_, fun c inside member => ?_⟩
    · rcases ended with all | none
      · have same := Finset.eq_of_subset_of_card_le valid.fuzzed_subset all
        exact fuzzed (same ▸ executes)
      · exact fuzzed (none d inside member)
    · by_contra won
      rw [valid.covered, mem_coveredBy] at fuzzed
      exact fuzzed ⟨c, inside, Bool.not_eq_false _ ▸ won, member⟩

end

/-! ### The time -/

section
variable {n e : Nat} (positive : 0 < n) (part : n ≤ e)
include positive part

theorem share_pos : (0 : ℚ) < (24 * 60 * 60 * n : Nat) / e := by
  have some : (0 : ℚ) < e := by exact_mod_cast positive.trans_le part
  positivity

theorem share_lt : ((24 * 60 * 60 * n : Nat) : ℚ) / e < 2 ^ 17 := by
  have some : (0 : ℚ) < e := by exact_mod_cast positive.trans_le part
  have less : (n : ℚ) ≤ e := by exact_mod_cast part
  rw [div_lt_iff₀ some]
  push_cast
  linarith

theorem fuzzingQuota_lt : (fuzzingQuota n e : ℚ) < (24 * 60 * 60 * n : Nat) / e + 1 := by
  have pos := share_pos positive part
  have rounded := Binary64.round_le pos ((share_lt positive part).trans (by norm_num)) (Nat.le_ceil _)
  calc (fuzzingQuota n e : ℚ) ≤ ⌈((24 * 60 * 60 * n : Nat) : ℚ) / e⌉₊ := by exact_mod_cast Nat.ceil_le.mpr rounded
    _ < (24 * 60 * 60 * n : Nat) / e + 1 := Nat.ceil_lt_add_one pos.le

/-- Of two fractions of a day one is at least one part longer. -/
theorem share_gap {k : Nat} (few : e < 2 ^ 37) (above : (k : ℚ) < (24 * 60 * 60 * n : Nat) / e) :
    k + 1 / 2 ^ 37 < ((24 * 60 * 60 * n : Nat) : ℚ) / e := by
  have some : (0 : ℚ) < e := by exact_mod_cast positive.trans_le part
  rw [lt_div_iff₀ some] at above
  have next : k * e + 1 ≤ 24 * 60 * 60 * n := by exact_mod_cast above
  calc (k : ℚ) + 1 / 2 ^ 37 < k + 1 / e := by
        gcongr
        exact_mod_cast few
    _ = ((k * e + 1 : Nat) : ℚ) / e := by
        push_cast
        field_simp
    _ ≤ (24 * 60 * 60 * n : Nat) / e := by gcongr

/-- Below `2 ^ 37` targets a share that is not a whole number of seconds is not rounded down to
one. -/
theorem le_fuzzingQuota (few : e < 2 ^ 37) : ((24 * 60 * 60 * n : Nat) : ℚ) / e ≤ fuzzingQuota n e := by
  have pos := share_pos positive part
  have small := share_lt positive part
  have floor := Nat.floor_le pos.le
  have next := Nat.lt_floor_add_one (((24 * 60 * 60 * n : Nat) : ℚ) / e)
  have gap := share_gap positive part few (k := ⌊((24 * 60 * 60 * n : Nat) : ℚ) / e⌋₊)
  unfold fuzzingQuota
  generalize ((24 * 60 * 60 * n : Nat) : ℚ) / e = share at *
  generalize ⌊share⌋₊ = k at *
  rcases eq_or_lt_of_le floor with whole | above
  · have rounded := Binary64.le_round pos (small.trans (by norm_num)) floor
    exact whole.ge.trans (rounded.trans (Nat.le_ceil _))
  · have rounded := Binary64.lt_round pos (p := 36) (by decide) small (gap above)
    have more : k + 1 ≤ ⌈Binary64.round share⌉₊ := Nat.lt_ceil.mpr rounded
    exact next.le.trans (by exact_mod_cast more)

end

/-- Campaigns with disjoint shares of the targets: what they get in all. -/
theorem sum_quotas {e : Nat} (cs : List Campaign)
    (shares : ∀ c ∈ cs, 0 < c.targets.card ∧ c.targets.card ≤ e ∧ c.quota = fuzzingQuota c.targets.card e) :
    (e < 2 ^ 37 → ((24 * 60 * 60 * (cs.map fun c => c.targets.card).sum : Nat) : ℚ) / e ≤ (cs.map Campaign.quota).sum) ∧
      (cs ≠ [] → ((cs.map Campaign.quota).sum : ℚ) <
        ((24 * 60 * 60 * (cs.map fun c => c.targets.card).sum : Nat) : ℚ) / e + cs.length) := by
  induction cs with
  | nil => simp
  | cons c cs ih =>
    obtain ⟨lower, upper⟩ := ih fun d inside => shares d (List.mem_cons_of_mem _ inside)
    obtain ⟨positive, part, quota⟩ := shares c (List.mem_cons_self ..)
    have parts : ((24 * 60 * 60 * (c.targets.card + (cs.map fun c => c.targets.card).sum) : Nat) : ℚ) / e =
        (24 * 60 * 60 * c.targets.card : Nat) / e +
          (24 * 60 * 60 * (cs.map fun c => c.targets.card).sum : Nat) / e := by
      push_cast
      ring
    simp only [List.map_cons, List.sum_cons, parts, Nat.cast_add, quota]
    constructor
    · intro few
      exact add_le_add (le_fuzzingQuota positive part few) (lower few)
    · intro _
      have first := fuzzingQuota_lt positive part
      rcases eq_or_ne cs [] with rfl | others
      · simpa using first
      · have rest := upper others
        rw [List.length_cons, Nat.cast_succ]
        linarith

/-- The scheduler ends and has run each entry of the list at most once. Each campaign was the
best choice left and got the targets of the earlier successful ones as its blacklist. At the end
each executed target was in a successful campaign, or all its commands have failed. The
successful campaigns share the day by the targets they fuzz, up to a second each; that the
quotas are not too short takes fewer than `2 ^ 37` targets. -/
theorem campaigns_cover (order : SetOrder) (cmds : List Command) (status : Nat → Nat) : ∃ final : Scheduler,
    (∀ fuel, cmds.length < fuel →
      campaigns order (executedTargets cmds) status fuel { fuzzingCommands := cmds } = some final) ∧
    (final.campaigns.map Campaign.command ++ final.fuzzingCommands).Perm cmds ∧
    (∀ before c after, final.campaigns = before ++ c :: after → Greedy (executedTargets cmds) cmds before c) ∧
    (∀ t ∈ executedTargets cmds, (∃ c ∈ final.campaigns, c.succeeded = true ∧ t ∈ c.command.1) ∨
      (∀ d ∈ final.fuzzingCommands, t ∉ d.1) ∧ ∀ c ∈ final.campaigns, t ∈ c.command.1 → c.succeeded = false) ∧
    final.fuzzedTargets = coveredBy final.campaigns ∧
    ((executedTargets cmds).card < 2 ^ 37 →
      ((86400 * final.fuzzedTargets.card : Nat) : ℚ) / (executedTargets cmds).card ≤
        ((final.campaigns.filter Campaign.succeeded).map Campaign.quota).sum) ∧
    (final.campaigns.filter Campaign.succeeded ≠ [] →
      (((final.campaigns.filter Campaign.succeeded).map Campaign.quota).sum : ℚ) <
        ((86400 * final.fuzzedTargets.card : Nat) : ℚ) / (executedTargets cmds).card +
          (final.campaigns.filter Campaign.succeeded).length) := by
  have start : Valid (executedTargets cmds) cmds { fuzzingCommands := cmds } :=
    ⟨by simp, rfl, by simp, rfl⟩
  obtain ⟨final, runs, valid, ended⟩ : ∃ final : Scheduler, (∀ fuel, cmds.length < fuel →
      campaigns order (executedTargets cmds) status fuel { fuzzingCommands := cmds } = some final) ∧
      Valid (executedTargets cmds) cmds final ∧ Ended (executedTargets cmds) final := campaigns_ends start
  have shares : ∀ c ∈ final.campaigns.filter Campaign.succeeded, 0 < c.targets.card ∧
      c.targets.card ≤ (executedTargets cmds).card ∧
      c.quota = fuzzingQuota c.targets.card (executedTargets cmds).card := by
    intro c inside
    have member := (List.mem_filter.mp inside).1
    obtain ⟨before, after, parts⟩ := List.append_of_mem member
    have greedy := valid.greedy before c after parts
    refine ⟨Finset.card_pos.mpr greedy.some, Finset.card_le_card fun t target => ?_, greedy.quota⟩
    rw [greedy.targets, Finset.mem_sdiff] at target
    exact mem_executedTargets.mpr ⟨c.command, valid.command_mem member, target.1⟩
  have quotas := sum_quotas _ shares
  rw [valid.counted] at quotas
  exact ⟨final, runs, valid.perm, valid.greedy, fun t executes => valid.covers ended executes, valid.covered, quotas⟩

/-! ### A share that is cut off -/

/-- The first campaign succeeds, the others do not. -/
def firstOnly (i : Nat) : Nat := if i = 0 then 0 else 256

theorem turn_of_best {order : SetOrder} {executed : Finset (List Char)} {status : Nat → Nat} {s : Scheduler}
    (best : bestCommand s.fuzzedTargets s.fuzzingCommands = (some cmd, unfuzzed)) (positive : 0 < unfuzzed.card) :
    turn order executed status s = some
      { fuzzingCommands := s.fuzzingCommands.erase cmd
        fuzzedTargets :=
          if successful (status s.campaigns.length) then s.fuzzedTargets ∪ cmd.1 \ s.fuzzedTargets else s.fuzzedTargets
        campaigns := s.campaigns ++ [campaign order executed status s cmd unfuzzed] } := by
  unfold turn
  rw [best]
  exact if_pos positive

theorem campaigns_of_two (order : SetOrder) {first second : Finset (List Char)} (apart : Disjoint first second)
    (fewer : second.card < first.card) (nonempty : second.Nonempty) (a b : List Char) :
    ∃ final, campaigns order (first ∪ second) firstOnly 3 { fuzzingCommands := [(first, a), (second, b)] } = some final ∧
      final.fuzzedTargets = first ∧
      (final.campaigns.filter Campaign.succeeded).map Campaign.quota =
        [fuzzingQuota first.card (first ∪ second).card] := by
  have positive : 0 < second.card := Finset.card_pos.mpr nonempty
  have all : (first ∪ second).card = first.card + second.card := Finset.card_union_of_disjoint apart
  have alone : second \ first = second := Finset.sdiff_eq_self_of_disjoint apart.symm
  have best₁ : bestCommand ∅ [(first, a), (second, b)] = (some (first, a), first) := by
    have some : 0 < first.card := by omega
    simp [bestCommand, consider, Finset.card_pos.mp some, fewer.le]
  have best₂ : bestCommand first [(second, b)] = (some (second, b), second) := by
    simp [bestCommand, consider, alone, nonempty]
  obtain ⟨s₁, turn₁, cmds₁, fuzzed₁, campaigns₁⟩ : ∃ s₁,
      turn order (first ∪ second) firstOnly { fuzzingCommands := [(first, a), (second, b)] } = some s₁ ∧
        s₁.fuzzingCommands = [(second, b)] ∧ s₁.fuzzedTargets = first ∧
        ∃ c, s₁.campaigns = [c] ∧ c.succeeded = true ∧ c.quota = fuzzingQuota first.card (first ∪ second).card := by
    refine ⟨_, turn_of_best best₁ (by omega), ?_, ?_, _, rfl, ?_, rfl⟩
    · exact List.erase_cons_head ..
    · simp [successful, firstOnly]
    · simp [campaign, successful, firstOnly]
  obtain ⟨s₂, turn₂, cmds₂, fuzzed₂, campaigns₂⟩ : ∃ s₂, turn order (first ∪ second) firstOnly s₁ = some s₂ ∧
        s₂.fuzzingCommands = [] ∧ s₂.fuzzedTargets = first ∧
        ∃ c, s₂.campaigns = s₁.campaigns ++ [c] ∧ c.succeeded = false := by
    rw [← cmds₁, ← fuzzed₁] at best₂
    have lost : successful (firstOnly s₁.campaigns.length) = false := by
      obtain ⟨c, is, -⟩ := campaigns₁
      rw [is, List.length_singleton]
      decide
    refine ⟨_, turn_of_best best₂ positive, ?_, ?_, _, rfl, lost⟩
    · rw [cmds₁]
      exact List.erase_cons_head ..
    · simp [lost, fuzzed₁]
  have turn₃ : turn order (first ∪ second) firstOnly s₂ = none := by
    unfold turn
    rw [cmds₂]
    rfl
  refine ⟨s₂, ?_, fuzzed₂, ?_⟩
  · have more : ∀ s : Scheduler, s.fuzzedTargets = first → s.fuzzedTargets.card < (first ∪ second).card := by
      intro s is
      rw [is, all]
      omega
    have start : (∅ : Finset (List Char)).card < (first ∪ second).card := by
      rw [all, Finset.card_empty]
      omega
    rw [campaigns, if_pos start, turn₁]
    dsimp only
    rw [campaigns, if_pos (more s₁ fuzzed₁), turn₂]
    dsimp only
    rw [campaigns, if_pos (more s₂ fuzzed₂), turn₃]
  · obtain ⟨c, is, won, quota⟩ := campaigns₁
    obtain ⟨d, is', lost⟩ := campaigns₂
    simp [is', is, won, lost, quota]

theorem fuzzingQuota_cut_off : fuzzingQuota 137437394872 137438985601 = 86399 := by
  have share : ((24 * 60 * 60 * 137437394872 : Nat) : ℚ) / 137438985601 = 86399 + 1 / 137438985601 := by norm_num
  have rounded : Binary64.round ((24 * 60 * 60 * 137437394872 : Nat) / (137438985601 : Nat)) = (86399 : Nat) := by
    refine Binary64.round_eq_of_lt (p := 36) ?_ (by decide) ?_ ?_ ?_ ?_ <;> norm_num
  rw [fuzzingQuota, rounded, Nat.ceil_natCast]

/-- Names for a range of numbers. -/
def someNames (start count : Nat) : Finset (List Char) :=
  (Finset.Ico start (start + count)).map ⟨fun i => List.replicate i 'a', List.replicate_left_injective 'a'⟩

/-- A suite of more than `2 ^ 37` targets. -/
def hugeSuite : List Command := [(someNames 0 137437394872, []), (someNames 137437394872 1590729, [])]

noncomputable def anyOrder : SetOrder := ⟨Finset.toList, Finset.nodup_toList, Finset.toList_toFinset⟩

/-- The double next to `86399 + 1 / 137438985601` is `86399`. -/
theorem hugeSuite_quota_too_short : ∃ final,
    campaigns anyOrder (executedTargets hugeSuite) firstOnly 3 { fuzzingCommands := hugeSuite } = some final ∧
      (((final.campaigns.filter Campaign.succeeded).map Campaign.quota).sum : ℚ) <
        ((86400 * final.fuzzedTargets.card : Nat) : ℚ) / (executedTargets hugeSuite).card := by
  have apart : Disjoint (someNames 0 137437394872) (someNames 137437394872 1590729) := by
    refine (Finset.disjoint_map _).mpr (Finset.disjoint_left.mpr fun i low high => ?_)
    rw [Finset.mem_Ico] at low high
    omega
  have size : ∀ start count, (someNames start count).card = count := by
    intro start count
    rw [someNames, Finset.card_map, Nat.card_Ico]
    omega
  have executed : executedTargets hugeSuite = someNames 0 137437394872 ∪ someNames 137437394872 1590729 := by
    simp only [executedTargets, hugeSuite, List.foldr_cons, List.foldr_nil, Finset.union_empty]
  have total : (executedTargets hugeSuite).card = 137438985601 := by
    rw [executed, Finset.card_union_of_disjoint apart, size, size]
  have nonempty : (someNames 137437394872 1590729).Nonempty := Finset.card_pos.mp (by rw [size]; decide)
  obtain ⟨final, runs, fuzzed, quotas⟩ :=
    campaigns_of_two anyOrder apart (by rw [size, size]; decide) nonempty [] []
  rw [← executed] at runs quotas
  refine ⟨final, runs, ?_⟩
  rw [quotas, fuzzed, total, size, fuzzingQuota_cut_off]
  norm_num

end AflLive.Testamp
