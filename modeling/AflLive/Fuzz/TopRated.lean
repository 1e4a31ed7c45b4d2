import AflLive.Common
import AflLive.Fuzz.Calibrate
import AflLive.Library.Bits
import AflLive.Library.Control
import AflLive.Library.Runs

/-! `update_bitmap_score` keeps for every byte of the map an entry that hits it, with counts of
the places each entry holds and a packed trace as long as it holds any; `cull_queue` picks from
the holders the entries to be favored. Its counters are in `Pending`. -/
namespace AflLive.Fuzz.TopRated
open Bits Calibrate Runs

inductive Schedule where
  | explore | mmopt | exploit | fast | coe | lin | quad | rare | seek
deriving DecidableEq

def Schedule.num : Schedule → Nat
  | .explore => 0
  | .mmopt => 1
  | .exploit => 2
  | .fast => 3
  | .coe => 4
  | .lin => 5
  | .quad => 6
  | .rare => 7
  | .seek => 8

/-- The fields of a `queue_entry` that are read; `traceMini` is null at first. -/
structure Entry where
  execUs : Nat := 0
  len : Nat := 0
  fuzzLevel : Nat := 0
  nFuzzEntry : Nat := 0
  wasFuzzed : Bool := false
  disabled : Bool := false
  favored : Bool := false
  fsRedundant : Bool := false
  tcRef : Nat := 0
  traceMini : Option (List Byte) := none
deriving DecidableEq

structure Power where
  schedule : Schedule
  fixedSeed : Bool := false
  nFuzz : Nat → Nat := fun _ => 0

def Power.timeless (cfg : Power) : Bool := cfg.schedule.num ≥ Schedule.rare.num || cfg.fixedSeed

/-- `len << 2` is computed in 32 bits, the product in 64. -/
def Power.favFactor (cfg : Power) (q : Entry) : Nat :=
  if cfg.timeless then q.len * 4 % 2 ^ 32 else q.execUs * q.len % 2 ^ 64

def Power.fuzzP2 (cfg : Power) (q : Entry) : Nat :=
  if cfg.schedule.num ≥ Schedule.fast.num ∧ cfg.schedule.num < Schedule.rare.num then 0
  else if cfg.schedule = .rare then nextPow2 (cfg.nFuzz q.nFuzzEntry)
  else q.fuzzLevel

/-- The same for the holder of a place, with another comparison at the end of the range. -/
def Power.topRatedFuzzP2 (cfg : Power) (top : Entry) : Nat :=
  if cfg.schedule.num ≥ Schedule.fast.num ∧ cfg.schedule.num ≤ Schedule.rare.num then
    nextPow2 (cfg.nFuzz top.nFuzzEntry)
  else top.fuzzLevel

/-- The challenger takes the place of the holder. -/
def Power.wins (cfg : Power) (q top : Entry) : Bool :=
  if cfg.fuzzP2 q > cfg.topRatedFuzzP2 top then false
  else if cfg.fuzzP2 q = cfg.topRatedFuzzP2 top ∧ cfg.favFactor q > cfg.favFactor top then false
  else !(cfg.favFactor q > cfg.favFactor top)

/-- The map has `8 * n` bytes. -/
structure State (n : Nat) where
  queue : List Entry := []
  topRated : Fin (8 * n) → Option Nat := fun _ => none
  scoreChanged : Bool := false

/-- `minimize_bits` into a block of zeros. -/
def minimizeBits (traceBits : Bitmap (8 * n)) : List Byte :=
  (List.finRange (8 * n)).foldl (fun dst i => if traceBits i ≠ 0 then insert dst i else dst) (List.replicate n 0#8)

/-- The holder loses a place, and its trace with the last one. -/
def Entry.release (top : Entry) : Entry :=
  let tcRef := (top.tcRef + (2 ^ 32 - 1)) % 2 ^ 32
  { top with tcRef, traceMini := if tcRef = 0 then none else top.traceMini }

def Entry.claim (traceBits : Bitmap (8 * n)) (q : Entry) : Entry :=
  { q with tcRef := (q.tcRef + 1) % 2 ^ 32, traceMini := some (q.traceMini.getD (minimizeBits traceBits)) }

def Entry.favor (q : Entry) : Entry := { q with favored := true }

def Entry.unfavor (q : Entry) : Entry := { q with favored := false }

/-- `mark_as_redundant`, without the file. -/
def Entry.markAsRedundant (q : Entry) : Entry := if q.disabled then q else { q with fsRedundant := !q.favored }

/-- In the first cycle the seeds are to be fuzzed in any case. -/
def Entry.renew (q : Entry) : Entry := { q with fuzzLevel := 0, wasFuzzed := false, favored := true }

inductive Fault where
  | nullTrace
deriving DecidableEq

namespace State
variable {n : Nat}

def modify (s : State n) (i : Nat) (f : Entry → Entry) : State n := { s with queue := s.queue.modify i f }

def take (s : State n) (traceBits : Bitmap (8 * n)) (q : Nat) (i : Fin (8 * n)) : State n :=
  { s.modify q (Entry.claim traceBits) with topRated := Function.update s.topRated i (some q), scoreChanged := true }

/-- One turn of the loop of `update_bitmap_score`. -/
def rateAt (cfg : Power) (traceBits : Bitmap (8 * n)) (q : Nat) (s : State n) (i : Fin (8 * n)) : State n :=
  if traceBits i = 0 then s
  else
    match s.topRated i with
    | none => s.take traceBits q i
    | some top =>
      if cfg.wins (s.queue.getD q {}) (s.queue.getD top {}) then (s.modify top Entry.release).take traceBits q i
      else s

def updateBitmapScore (cfg : Power) (s : State n) (q : Nat) (traceBits : Bitmap (8 * n)) : State n :=
  (List.finRange (8 * n)).foldl (rateAt cfg traceBits q) s

/-- One turn of the loop over `top_rated`; `tempV` has the places no favored entry covers yet. -/
def cullAt (topRated : Fin (8 * n) → Option Nat) (s : List Entry × List Byte) (i : Fin (8 * n)) :
    Except Fault (List Entry × List Byte) :=
  match topRated i with
  | none => .ok s
  | some top =>
    if get s.2 i then
      match (s.1.getD top {}).traceMini with
      | none => .error .nullTrace
      | some mini => .ok (s.1.modify top Entry.favor, diff s.2 mini)
    else .ok s

/-- Both loops over the queue behind the one over `top_rated`. -/
def settle (firstCycleDone : Bool) (amountOfTargets : Nat) (queue : List Entry) : List Entry :=
  let queue := queue.map Entry.markAsRedundant
  if firstCycleDone then queue else (queue.take amountOfTargets).map Entry.renew ++ queue.drop amountOfTargets

def cullQueue (nonInstrumented firstCycleDone : Bool) (amountOfTargets : Nat) (s : State n) :
    Except Fault (State n) :=
  if s.scoreChanged = false ∨ nonInstrumented = true then .ok s
  else do
    let start := (s.queue.map Entry.unfavor, List.replicate n 255#8)
    let (queue, _) ← (List.finRange (8 * n)).foldlM (cullAt s.topRated) start
    return { s with queue := settle firstCycleDone amountOfTargets queue, scoreChanged := false }

end State

/-- What the rest of the fuzzer may make of an entry. -/
structure Changes where
  execUs : Nat
  len : Nat
  fuzzLevel : Nat
  nFuzzEntry : Nat
  wasFuzzed : Bool
  disabled : Bool

def Changes.apply (c : Changes) (q : Entry) : Entry :=
  { q with
    execUs := c.execUs
    len := c.len
    fuzzLevel := c.fuzzLevel
    nFuzzEntry := c.nFuzzEntry
    wasFuzzed := c.wasFuzzed
    disabled := c.disabled }

inductive Event (n : Nat) where
  /-- `add_to_queue`, or `add_favored_to_queue`. -/
  | addToQueue (c : Changes) (favored : Bool)
  | alter (i : Nat) (c : Changes)
  | rate (cfg : Power) (q : Nat) (traceBits : Bitmap (8 * n))
  | cull (nonInstrumented firstCycleDone : Bool) (amountOfTargets : Nat)

def State.step (s : State n) : Event n → Option (State n)
  | .addToQueue c favored => some { s with queue := s.queue ++ [c.apply { favored }] }
  | .alter i c => some (s.modify i c.apply)
  | .rate cfg q traceBits => if q < s.queue.length then some (s.updateBitmapScore cfg q traceBits) else none
  | .cull nonInstrumented firstCycleDone amountOfTargets =>
    match s.cullQueue nonInstrumented firstCycleDone amountOfTargets with
    | .ok t => some t
    | .error _ => none

/-! ### Counting places -/

/-- The number of places an entry holds. -/
def held {n : Nat} (topRated : Fin n → Option Nat) (e : Nat) : Nat := (Finset.univ.filter (topRated · = some e)).card

theorem held_update {n : Nat} (topRated : Fin n → Option Nat) (i : Fin n) (v : Option Nat) (e : Nat) :
    held (Function.update topRated i v) e + (if topRated i = some e then 1 else 0) =
      held topRated e + if v = some e then 1 else 0 := by
  have indicator : (fun j => if Function.update topRated i v j = some e then 1 else 0) =
      Function.update (fun j => if topRated j = some e then 1 else 0) i (if v = some e then 1 else 0) := by
    funext j
    by_cases same : j = i
    · subst same
      simp
    · simp [same]
  simp only [held, Finset.card_filter]
  rw [indicator, Finset.sum_update_of_mem (Finset.mem_univ i), Finset.sdiff_singleton_eq_erase,
    ← Finset.add_sum_erase _ _ (Finset.mem_univ i)]
  omega

theorem held_le {n : Nat} (topRated : Fin n → Option Nat) (e : Nat) : held topRated e ≤ n := by
  have le := Finset.card_filter_le Finset.univ (topRated · = some e)
  rwa [Finset.card_univ, Fintype.card_fin] at le

theorem held_pos {n : Nat} {topRated : Fin n → Option Nat} {i : Fin n} {e : Nat} (is : topRated i = some e) :
    0 < held topRated e :=
  Finset.card_pos.mpr ⟨i, by simp [is]⟩

/-! ### The packed trace -/

theorem minimizeBits_spec (traceBits : Bitmap (8 * n)) : (minimizeBits traceBits).length = n ∧
    ∀ i : Fin (8 * n), get (minimizeBits traceBits) i = decide (traceBits i ≠ 0) := by
  have loop : ∀ places : List (Fin (8 * n)), ∀ dst : List Byte, dst.length = n →
      let out := places.foldl (fun dst i => if traceBits i ≠ 0 then insert dst i else dst) dst
      out.length = n ∧ ∀ i : Fin (8 * n), get out i = (get dst i || decide (i ∈ places ∧ traceBits i ≠ 0)) := by
    intro places
    induction places with
    | nil => exact fun dst length => ⟨length, by simp⟩
    | cons j places ih =>
      intro dst length
      by_cases hit : traceBits j = 0
      · obtain ⟨out, bits⟩ := ih dst length
        simp only [List.foldl_cons, ne_eq, hit, not_true_eq_false, if_false]
        refine ⟨out, fun i => ?_⟩
        rw [bits i]
        congr 1
        rw [decide_eq_decide, List.mem_cons]
        constructor
        · exact fun ⟨member, set⟩ => ⟨.inr member, set⟩
        · rintro ⟨rfl | member, set⟩
          · exact absurd hit set
          · exact ⟨member, set⟩
      · obtain ⟨out, bits⟩ := ih (insert dst j) (by simpa using length)
        simp only [List.foldl_cons, ne_eq, hit, not_false_eq_true, if_true]
        refine ⟨out, fun i => ?_⟩
        rw [bits i, get_insert (by rw [length]; exact j.isLt), Bool.or_assoc]
        congr 1
        rw [Bool.eq_iff_iff]
        simp only [Bool.or_eq_true, decide_eq_true_eq, List.mem_cons, Fin.val_inj]
        constructor
        · rintro (rfl | ⟨member, set⟩)
          · exact ⟨.inl rfl, hit⟩
          · exact ⟨.inr member, set⟩
        · rintro ⟨rfl | member, set⟩
          · exact .inl rfl
          · exact .inr ⟨member, set⟩
  obtain ⟨length, bits⟩ := loop (List.finRange (8 * n)) (List.replicate n 0#8) List.length_replicate
  refine ⟨length, fun i => (bits i).trans ?_⟩
  rw [get_replicate_zero]
  simp

/-! ### Counts and traces are right -/

/-- An entry that holds so many places. -/
structure Entry.Keeps (n count : Nat) (q : Entry) : Prop where
  tcRef : q.tcRef = count
  trace : q.traceMini.isSome = true ↔ count ≠ 0
  length : ∀ mini, q.traceMini = some mini → mini.length = n

structure Counted (queue : List Entry) (topRated : Fin (8 * n) → Option Nat) : Prop where
  entries : ∀ (e : Nat) (q : Entry), queue[e]? = some q → q.Keeps n (held topRated e)
  known : ∀ i e, topRated i = some e → e < queue.length

section
variable {queue : List Entry} {topRated : Fin (8 * n) → Option Nat} {i : Fin (8 * n)} {e : Nat} {q : Entry}

theorem getElem?_modify_of_ne {f : Entry → Entry} {j : Nat} (ne : j ≠ e) : (queue.modify e f)[j]? = queue[j]? := by
  simp [Ne.symm ne]

theorem Counted.modify (counted : Counted queue topRated) {f : Entry → Entry} {v : Option Nat}
    (own : ∀ q, queue[e]? = some q → (f q).Keeps n (held (Function.update topRated i v) e))
    (others : ∀ j, j ≠ e → held (Function.update topRated i v) j = held topRated j)
    (known : ∀ j, v = some j → j < queue.length) :
    Counted (queue.modify e f) (Function.update topRated i v) := by
  refine ⟨fun j q is => ?_, fun j h is => ?_⟩
  · by_cases same : j = e
    · subst same
      rw [List.getElem?_modify] at is
      simp only [if_true, Option.map_eq_map, Option.map_eq_some_iff] at is
      obtain ⟨before, was, rfl⟩ := is
      exact own before was
    · rw [getElem?_modify_of_ne same] at is
      rw [others j same]
      exact counted.entries j q is
  · rw [List.length_modify]
    by_cases same : j = i
    · subst same
      rw [Function.update_self] at is
      exact known h is
    · rw [Function.update_of_ne same] at is
      exact counted.known j h is

theorem Counted.release (counted : Counted queue topRated) (small : 8 * n < 2 ^ 32) (is : topRated i = some e) :
    Counted (queue.modify e Entry.release) (Function.update topRated i none) := by
  refine counted.modify (fun q there => ?_) (fun j other => ?_) nofun
  · obtain ⟨tcRef, trace, length⟩ := counted.entries e q there
    have positive := held_pos is
    have bound := held_le topRated e
    have less : held (Function.update topRated i none) e + 1 = held topRated e := by
      simpa [is] using held_update topRated i none e
    have ref : q.release.tcRef = held (Function.update topRated i none) e := by
      simp only [Entry.release, tcRef]
      omega
    refine ⟨ref, ?_, fun mini kept => ?_⟩
    · rw [← ref]
      simp only [Entry.release]
      generalize (q.tcRef + (2 ^ 32 - 1)) % 2 ^ 32 = left
      split
      · next zero => simp [zero]
      · next rest => simp [trace, rest, positive.ne']
    · simp only [Entry.release] at kept
      split at kept
      · cases kept
      · exact length mini kept
  · simpa [is, Ne.symm other] using held_update topRated i none j

theorem Counted.claim (counted : Counted queue topRated) (small : 8 * n < 2 ^ 32) (free : topRated i = none)
    (there : e < queue.length) (traceBits : Bitmap (8 * n)) :
    Counted (queue.modify e (Entry.claim traceBits)) (Function.update topRated i (some e)) := by
  refine counted.modify (fun q there => ?_) (fun j other => ?_) fun j same => Option.some.inj same ▸ there
  · obtain ⟨tcRef, trace, length⟩ := counted.entries e q there
    have bound := held_le (Function.update topRated i (some e)) e
    have more : held (Function.update topRated i (some e)) e = held topRated e + 1 := by
      simpa [free] using held_update topRated i (some e) e
    refine ⟨?_, ?_, fun mini kept => ?_⟩
    · simp only [Entry.claim, tcRef]
      omega
    · simp [Entry.claim, more]
    · simp only [Entry.claim, Option.some.injEq] at kept
      cases old : q.traceMini with
      | none =>
        rw [← kept, old]
        exact (minimizeBits_spec traceBits).1
      | some before =>
        rw [← kept, old]
        exact length before old
  · simpa [free, Ne.symm other] using held_update topRated i (some e) j

end

/-! ### The loop of `update_bitmap_score` -/

namespace State
variable {n : Nat} {s t : State n} {cfg : Power} {traceBits : Bitmap (8 * n)} {q : Nat} {i : Fin (8 * n)}

/-- What a turn can do: nothing, or the entry takes a place, from another or for the first time. -/
inductive Turn (cfg : Power) (traceBits : Bitmap (8 * n)) (q : Nat) (s : State n) (i : Fin (8 * n)) : State n → Prop where
  | unhit (zero : traceBits i = 0) : Turn cfg traceBits q s i s
  | kept (hit : traceBits i ≠ 0) (top : Nat) (is : s.topRated i = some top)
      (loses : cfg.wins (s.queue.getD q {}) (s.queue.getD top {}) = false) : Turn cfg traceBits q s i s
  | first (hit : traceBits i ≠ 0) (is : s.topRated i = none) : Turn cfg traceBits q s i (s.take traceBits q i)
  | won (hit : traceBits i ≠ 0) (top : Nat) (is : s.topRated i = some top)
      (wins : cfg.wins (s.queue.getD q {}) (s.queue.getD top {}) = true) :
      Turn cfg traceBits q s i ((s.modify top Entry.release).take traceBits q i)

theorem rateAt_turn (cfg : Power) (traceBits : Bitmap (8 * n)) (q : Nat) (s : State n) (i : Fin (8 * n)) :
    Turn cfg traceBits q s i (s.rateAt cfg traceBits q i) := by
  unfold rateAt
  split
  · next zero => exact .unhit zero
  · next hit =>
    split
    · next is => exact .first hit is
    · next top is =>
      split
      · next wins => exact .won hit top is wins
      · next loses => exact .kept hit top is (by simpa using loses)

/-- What every turn keeps, the loop keeps. -/
theorem updateBitmapScore_invariant {P : State n → Prop} (start : P s)
    (kept : ∀ u i v, P u → Turn cfg traceBits q u i v → P v) : P (s.updateBitmapScore cfg q traceBits) := by
  have loop : ∀ places : List (Fin (8 * n)), ∀ u, P u → P (places.foldl (rateAt cfg traceBits q) u) := by
    intro places
    induction places with
    | nil => exact fun u holds => holds
    | cons i places ih => exact fun u holds => ih _ (kept u i _ holds (rateAt_turn cfg traceBits q u i))
  exact loop _ s start

/-- What the turn at a place brings about and no later turn undoes, holds after the loop. -/
theorem updateBitmapScore_at {P Q : State n → Prop} (start : Q s)
    (kept : ∀ u j v, Q u → Turn cfg traceBits q u j v → Q v) (turn : ∀ u v, Q u → Turn cfg traceBits q u i v → P v)
    (still : ∀ u j v, P u → Turn cfg traceBits q u j v → P v) : P (s.updateBitmapScore cfg q traceBits) := by
  have loop : ∀ places : List (Fin (8 * n)), ∀ u, (i ∈ places ∧ Q u) ∨ P u →
      P (places.foldl (rateAt cfg traceBits q) u) := by
    intro places
    induction places with
    | nil => rintro u (⟨⟨⟩, -⟩ | holds); exact holds
    | cons j places ih =>
      rintro u (⟨member, holds⟩ | holds)
      · rcases List.mem_cons.mp member with rfl | later
        · exact ih _ (.inr (turn u _ holds (rateAt_turn cfg traceBits q u _)))
        · exact ih _ (.inl ⟨later, kept u j _ holds (rateAt_turn cfg traceBits q u j)⟩)
      · exact ih _ (.inr (still u j _ holds (rateAt_turn cfg traceBits q u j)))
  exact loop _ s (.inl ⟨List.mem_finRange i, start⟩)

def Counted (s : State n) : Prop := TopRated.Counted s.queue s.topRated

@[simp] theorem modify_length (s : State n) (f : Entry → Entry) : (s.modify q f).queue.length = s.queue.length := by
  simp [modify]

@[simp] theorem take_length (s : State n) : (s.take traceBits q i).queue.length = s.queue.length := by
  simp [take]

theorem Turn.length (turn : Turn cfg traceBits q s i t) : t.queue.length = s.queue.length := by
  cases turn <;> simp

theorem Turn.counted (turn : Turn cfg traceBits q s i t) (small : 8 * n < 2 ^ 32) (counted : s.Counted)
    (there : q < s.queue.length) : t.Counted := by
  cases turn with
  | unhit | kept => exact counted
  | first _ is => exact TopRated.Counted.claim counted small is there traceBits
  | won _ top is _ =>
    have released := TopRated.Counted.release counted small is
    have claimed := released.claim small (i := i) (Function.update_self ..) (by simpa using there) traceBits
    rwa [Function.update_idem] at claimed

theorem Counted.updateBitmapScore (counted : s.Counted) (small : 8 * n < 2 ^ 32) (there : q < s.queue.length) :
    (s.updateBitmapScore cfg q traceBits).Counted := by
  refine (updateBitmapScore_invariant (P := fun t => t.Counted ∧ q < t.queue.length) ⟨counted, there⟩ ?_).1
  rintro u i v ⟨holds, inside⟩ turn
  exact ⟨turn.counted small holds inside, turn.length.symm ▸ inside⟩

end State

/-! ### `cull_queue` -/

/-- Nothing happened to what counts and scores are about. -/
structure Entry.Alike (q r : Entry) : Prop where
  tcRef : r.tcRef = q.tcRef
  trace : r.traceMini = q.traceMini
  execUs : r.execUs = q.execUs
  len : r.len = q.len

theorem Entry.Alike.refl (q : Entry) : q.Alike q := ⟨rfl, rfl, rfl, rfl⟩

theorem Entry.Alike.trans {p q r : Entry} (first : p.Alike q) (second : q.Alike r) : p.Alike r :=
  ⟨second.tcRef.trans first.tcRef, second.trace.trans first.trace, second.execUs.trans first.execUs,
    second.len.trans first.len⟩

theorem Entry.alike_markAsRedundant (q : Entry) : q.Alike q.markAsRedundant := by
  unfold Entry.markAsRedundant
  split <;> exact ⟨rfl, rfl, rfl, rfl⟩

theorem Counted.alike {queue later : List Entry} {topRated : Fin (8 * n) → Option Nat}
    (counted : Counted queue topRated) (length : later.length = queue.length)
    (alike : ∀ (e : Nat) (r : Entry), later[e]? = some r → ∃ q : Entry, queue[e]? = some q ∧ q.Alike r) :
    Counted later topRated := by
  refine ⟨fun e r there => ?_, fun i e is => length.symm ▸ counted.known i e is⟩
  obtain ⟨q, was, tcRef, trace, -, -⟩ := alike e r there
  have keeps := counted.entries e q was
  exact ⟨tcRef.trans keeps.tcRef, by rw [trace, keeps.trace], by rw [trace]; exact keeps.length⟩

/-- The holder of a place as the packed traces show it. -/
def Shown (queue : List Entry) (e i : Nat) : Prop :=
  ∃ (q : Entry) (mini : List Byte), queue[e]? = some q ∧ q.traceMini = some mini ∧ get mini i = true

/-- Some favored entry has the place in its trace. -/
def Covered (queue : List Entry) (i : Nat) : Prop :=
  ∃ (e : Nat) (q : Entry) (mini : List Byte), queue[e]? = some q ∧ q.favored = true ∧ q.traceMini = some mini ∧
    get mini i = true

/-- The queue later: the same entries, and those favored before are favored still. -/
structure Favors (queue later : List Entry) : Prop where
  length : later.length = queue.length
  alike : ∀ (e : Nat) (q : Entry), queue[e]? = some q →
    ∃ r : Entry, later[e]? = some r ∧ q.Alike r ∧ (q.favored = true → r.favored = true)

namespace Favors
variable {queue middle later : List Entry}

theorem trans (first : Favors queue middle) (second : Favors middle later) : Favors queue later := by
  refine ⟨second.length.trans first.length, fun e q there => ?_⟩
  obtain ⟨r, next, alike, favored⟩ := first.alike e q there
  obtain ⟨t, last, same, still⟩ := second.alike e r next
  exact ⟨t, last, alike.trans same, still ∘ favored⟩

theorem of_modify (e : Nat) : Favors queue (queue.modify e Entry.favor) := by
  refine ⟨by simp, fun j q there => ?_⟩
  by_cases same : e = j
  · exact ⟨q.favor, by simp [same, there], ⟨rfl, rfl, rfl, rfl⟩, fun _ => rfl⟩
  · exact ⟨q, by simp [same, there], .refl q, id⟩

theorem of_map {f : Entry → Entry} (alike : ∀ q : Entry, q.Alike (f q))
    (favored : ∀ q : Entry, q.favored = true → (f q).favored = true) : Favors queue (queue.map f) :=
  ⟨by simp, fun _ q there => ⟨f q, by simp [there], alike q, favored q⟩⟩

theorem append {left right : List Entry} (first : Favors queue left) (second : Favors middle right) :
    Favors (queue ++ middle) (left ++ right) := by
  refine ⟨by simp [first.length, second.length], fun e q there => ?_⟩
  by_cases low : e < queue.length
  · rw [List.getElem?_append_left low] at there
    rw [List.getElem?_append_left (first.length.symm ▸ low)]
    exact first.alike e q there
  · rw [List.getElem?_append_right (by omega)] at there
    rw [List.getElem?_append_right (by rw [first.length]; omega), first.length]
    exact second.alike _ q there

theorem settle (firstCycleDone : Bool) (amountOfTargets : Nat) :
    Favors queue (State.settle firstCycleDone amountOfTargets queue) := by
  have marked : Favors queue (queue.map Entry.markAsRedundant) := by
    refine of_map Entry.alike_markAsRedundant fun q favored => ?_
    unfold Entry.markAsRedundant
    split <;> exact favored
  unfold State.settle
  split
  · exact marked
  · refine marked.trans ?_
    have seeds : Favors ((queue.map Entry.markAsRedundant).take amountOfTargets)
        (((queue.map Entry.markAsRedundant).take amountOfTargets).map Entry.renew) :=
      of_map (fun _ => ⟨rfl, rfl, rfl, rfl⟩) fun _ _ => rfl
    have rest : Favors ((queue.map Entry.markAsRedundant).drop amountOfTargets)
        (((queue.map Entry.markAsRedundant).drop amountOfTargets).map id) := of_map .refl fun _ => id
    have all := seeds.append rest
    rwa [List.take_append_drop, List.map_id] at all

theorem shown (favors : Favors queue later) {e i : Nat} (shown : Shown queue e i) : Shown later e i := by
  obtain ⟨q, mini, there, trace, bit⟩ := shown
  obtain ⟨r, next, alike, -⟩ := favors.alike e q there
  exact ⟨r, mini, next, alike.trace.trans trace, bit⟩

theorem covered (favors : Favors queue later) {i : Nat} (covered : Covered queue i) : Covered later i := by
  obtain ⟨e, q, mini, there, favored, trace, bit⟩ := covered
  obtain ⟨r, next, alike, still⟩ := favors.alike e q there
  exact ⟨e, r, mini, next, still favored, alike.trace.trans trace, bit⟩

theorem before (favors : Favors queue later) {e : Nat} {r : Entry} (there : later[e]? = some r) :
    ∃ q : Entry, queue[e]? = some q ∧ q.Alike r := by
  have inside : e < queue.length := by
    rw [← favors.length]
    exact (List.getElem?_eq_some_iff.mp there).1
  obtain ⟨r', next, alike, -⟩ := favors.alike e queue[e] (List.getElem?_eq_getElem inside)
  obtain rfl := Option.some.inj (there.symm.trans next)
  exact ⟨queue[e], List.getElem?_eq_getElem inside, alike⟩

theorem counted (favors : Favors queue later) {topRated : Fin (8 * n) → Option Nat}
    (counted : Counted queue topRated) : Counted later topRated :=
  counted.alike favors.length fun _ _ => favors.before

end Favors

/-- What the loop over `top_rated` has made of queue and `tempV` after some places. -/
structure Culled (topRated : Fin (8 * n) → Option Nat) (places : List (Fin (8 * n))) (s t : List Entry × List Byte) :
    Prop where
  length : t.2.length = n
  favors : Favors s.1 t.1
  cleared : ∀ i : Fin (8 * n), get t.2 i = false → get s.2 i = true → Covered t.1 i
  kept : ∀ i : Fin (8 * n), get s.2 i = false → get t.2 i = false
  done : ∀ i ∈ places, ∀ e, topRated i = some e → Shown s.1 e i → get t.2 i = false

theorem cullAt_culled {topRated : Fin (8 * n) → Option Nat} {s : List Entry × List Byte} (counted : Counted s.1 topRated)
    (length : s.2.length = n) (i : Fin (8 * n)) : ∃ t, State.cullAt topRated s i = .ok t ∧ Culled topRated [i] s t := by
  have idle (done : ∀ e, topRated i = some e → get s.2 i = false) : Culled topRated [i] s s := by
    refine ⟨length, ⟨rfl, fun e q there => ⟨q, there, .refl q, id⟩⟩, ?_, fun _ => id, ?_⟩
    · intro j zero one
      rw [zero] at one
      cases one
    · intro j member e is _
      obtain rfl := List.mem_singleton.mp member
      exact done e is
  unfold State.cullAt
  split
  · next none => exact ⟨s, rfl, idle fun e is => by rw [none] at is; cases is⟩
  · next top is =>
    split
    · next bit =>
      have inside := counted.known i top is
      have there : s.1[top]? = some s.1[top] := List.getElem?_eq_getElem inside
      have keeps := counted.entries top _ there
      obtain ⟨mini, trace⟩ := Option.isSome_iff_exists.mp (keeps.trace.mpr (held_pos is).ne')
      have same : s.2.length = mini.length := by rw [length, keeps.length mini trace]
      have entry : s.1.getD top {} = s.1[top] := by simp [List.getD_eq_getElem?_getD, there]
      refine ⟨(s.1.modify top Entry.favor, diff s.2 mini), by rw [entry, trace], ?_, Favors.of_modify top, ?_, ?_, ?_⟩
      · rw [length_diff same, length]
      · intro j zero one
        rw [get_diff same, one, Bool.true_and, Bool.not_eq_false'] at zero
        exact ⟨top, s.1[top].favor, mini, by simp [there], rfl, trace, zero⟩
      · intro j zero
        rw [get_diff same, zero, Bool.false_and]
      · rintro j member e is' ⟨q, mini', there', trace', bit'⟩
        obtain rfl := List.mem_singleton.mp member
        obtain rfl := Option.some.inj (is.symm.trans is')
        obtain rfl := Option.some.inj (there.symm.trans there')
        obtain rfl := Option.some.inj (trace.symm.trans trace')
        rw [get_diff same, bit', Bool.not_true, Bool.and_false]
    · next bit => exact ⟨s, rfl, idle fun _ _ => by simpa using bit⟩

theorem foldlM_cullAt_culled {topRated : Fin (8 * n) → Option Nat} (places : List (Fin (8 * n)))
    {s : List Entry × List Byte} (counted : Counted s.1 topRated) (length : s.2.length = n) :
    ∃ t, places.foldlM (State.cullAt topRated) s = .ok t ∧ Culled topRated places s t := by
  induction places generalizing s with
  | nil =>
    refine ⟨s, rfl, length, ⟨rfl, fun e q there => ⟨q, there, .refl q, id⟩⟩, ?_, fun _ => id, nofun⟩
    intro j zero one
    rw [zero] at one
    cases one
  | cons i places ih =>
    obtain ⟨u, first, culled⟩ := cullAt_culled counted length i
    obtain ⟨t, rest, last⟩ := ih (culled.favors.counted counted) culled.length
    refine ⟨t, by simp [first, rest, Control.ok_bind], last.length, culled.favors.trans last.favors, ?_, ?_, ?_⟩
    · intro j zero one
      by_cases early : get u.2 j = true
      · exact last.cleared j zero early
      · exact last.favors.covered (culled.cleared j (by simpa using early) one)
    · exact fun j zero => last.kept j (culled.kept j zero)
    · intro j member e is shown
      rcases List.mem_cons.mp member with rfl | later
      · exact last.kept _ (culled.done _ (List.mem_singleton_self _) e is shown)
      · exact last.done j later e is (culled.favors.shown shown)

namespace State
variable {n : Nat} {s t : State n}

/-- What `cull_queue` leaves where it does something: the holders and counts as they were, and
favored entries that cover every place whose holder shows it in its trace. -/
structure Settled (s t : State n) : Prop where
  topRated : t.topRated = s.topRated
  counted : t.Counted
  length : t.queue.length = s.queue.length
  unchanged : t.scoreChanged = false
  alike : ∀ (e : Nat) (r : Entry), t.queue[e]? = some r → ∃ q : Entry, s.queue[e]? = some q ∧ q.Alike r
  covered : ∀ i e, s.topRated i = some e → Shown s.queue e i → Covered t.queue i

/-- Where `cull_queue` does something, it does not meet a null trace. -/
theorem cullQueue_settled (counted : s.Counted) (nonInstrumented firstCycleDone : Bool) (amountOfTargets : Nat) :
    s.cullQueue nonInstrumented firstCycleDone amountOfTargets = .ok s ∨
      ∃ t, s.cullQueue nonInstrumented firstCycleDone amountOfTargets = .ok t ∧ Settled s t := by
  unfold cullQueue
  split
  · exact .inl rfl
  · refine .inr ?_
    have unfavored : ∀ (e : Nat) (r : Entry), (s.queue.map Entry.unfavor)[e]? = some r →
        ∃ q : Entry, s.queue[e]? = some q ∧ q.Alike r := by
      intro e r there
      rw [List.getElem?_map, Option.map_eq_some_iff] at there
      obtain ⟨q, was, rfl⟩ := there
      exact ⟨q, was, rfl, rfl, rfl, rfl⟩
    have start := TopRated.Counted.alike counted (by simp) unfavored
    obtain ⟨⟨queue, tempV⟩, loop, culled⟩ :=
      foldlM_cullAt_culled (List.finRange (8 * n)) (s := (s.queue.map Entry.unfavor, List.replicate n 255#8)) start
        (by simp)
    have favors := culled.favors.trans (Favors.settle firstCycleDone amountOfTargets)
    refine ⟨{ s with queue := settle firstCycleDone amountOfTargets queue, scoreChanged := false },
      by dsimp only; rw [loop]; rfl, rfl, favors.counted start, favors.length.trans (by simp), rfl, ?_, ?_⟩
    · intro e r there
      obtain ⟨p, was, alike⟩ := favors.before there
      obtain ⟨q, first, same⟩ := unfavored e p was
      exact ⟨q, first, same.trans alike⟩
    · rintro i e is ⟨q, mini, there, trace, bit⟩
      have shown : Shown (s.queue.map Entry.unfavor) e i := ⟨q.unfavor, mini, by simp [there], trace, bit⟩
      have full : get (List.replicate n 255#8) i = true := get_replicate_full i.isLt
      have zero := culled.done i (List.mem_finRange i) e is shown
      exact (Favors.settle firstCycleDone amountOfTargets).covered (culled.cleared i zero full)

/-! ### Runs -/

theorem addToQueue_entry {added : Entry} {e : Nat} {r : Entry} (there : (s.queue ++ [added])[e]? = some r) :
    s.queue[e]? = some r ∨ (e = s.queue.length ∧ r = added) := by
  rcases Nat.lt_trichotomy e s.queue.length with low | rfl | high
  · rw [List.getElem?_append_left low] at there
    exact .inl there
  · simp at there
    exact .inr ⟨rfl, there.symm⟩
  · rw [List.getElem?_eq_none (by simp; omega)] at there
    cases there

theorem alter_entry {c : Changes} {i e : Nat} {r : Entry} (there : (s.modify i c.apply).queue[e]? = some r) :
    ∃ q : Entry, s.queue[e]? = some q ∧ r = if i = e then c.apply q else q := by
  simp only [modify, List.getElem?_modify, Option.map_eq_map, Option.map_eq_some_iff] at there
  obtain ⟨q, was, rfl⟩ := there
  exact ⟨q, was, rfl⟩

/-- What a step can do. -/
inductive Stepped (s : State n) : Event n → State n → Prop where
  | addToQueue (c : Changes) (favored : Bool) :
      Stepped s (.addToQueue c favored) { s with queue := s.queue ++ [c.apply { favored }] }
  | alter (e : Nat) (c : Changes) : Stepped s (.alter e c) (s.modify e c.apply)
  | rate (cfg : Power) (q : Nat) (traceBits : Bitmap (8 * n)) (there : q < s.queue.length) :
      Stepped s (.rate cfg q traceBits) (s.updateBitmapScore cfg q traceBits)
  | skip (nonInstrumented firstCycleDone : Bool) (amountOfTargets : Nat) :
      Stepped s (.cull nonInstrumented firstCycleDone amountOfTargets) s
  | cull (nonInstrumented firstCycleDone : Bool) (amountOfTargets : Nat) (t : State n) (settled : Settled s t) :
      Stepped s (.cull nonInstrumented firstCycleDone amountOfTargets) t

theorem Counted.stepped {event : Event n} (counted : s.Counted) (steps : s.step event = some t) :
    Stepped s event t := by
  cases event with
  | addToQueue c favored =>
    obtain rfl := Option.some.inj steps
    exact .addToQueue c favored
  | alter e c =>
    obtain rfl := Option.some.inj steps
    exact .alter e c
  | rate cfg q traceBits =>
    simp only [State.step] at steps
    split at steps
    · next there =>
      obtain rfl := Option.some.inj steps
      exact .rate cfg q traceBits there
    · cases steps
  | cull nonInstrumented firstCycleDone amountOfTargets =>
    simp only [State.step] at steps
    rcases cullQueue_settled counted nonInstrumented firstCycleDone amountOfTargets with same | ⟨u, culled, settled⟩
    · rw [same] at steps
      obtain rfl := Option.some.inj steps
      exact .skip _ _ _
    · rw [culled] at steps
      obtain rfl := Option.some.inj steps
      exact .cull _ _ _ u settled

theorem Stepped.counted {event : Event n} (stepped : Stepped s event t) (small : 8 * n < 2 ^ 32) (counted : s.Counted) :
    t.Counted := by
  cases stepped with
  | addToQueue c favored =>
    refine ⟨fun e r there => ?_, fun i e is => ?_⟩
    · rcases addToQueue_entry there with old | ⟨rfl, rfl⟩
      · exact counted.entries e r old
      · have none : held s.topRated s.queue.length = 0 := by
          rw [held, Finset.card_eq_zero, Finset.filter_eq_empty_iff]
          intro i _ is
          exact absurd (counted.known i _ is) (lt_irrefl _)
        exact ⟨none.symm, by simp [none, Changes.apply], nofun⟩
    · have inside := counted.known i e is
      simp only [List.length_append]
      omega
  | alter e c =>
    refine ⟨fun j r there => ?_, fun j e is => (modify_length s _).symm ▸ counted.known j e is⟩
    obtain ⟨q, was, rfl⟩ := alter_entry there
    have keeps := counted.entries j q was
    split
    · exact ⟨keeps.tcRef, keeps.trace, keeps.length⟩
    · exact keeps
  | rate cfg q traceBits there => exact counted.updateBitmapScore small there
  | skip => exact counted
  | cull _ _ _ _ settled => exact settled.counted

theorem Counted.empty : ({} : State n).Counted := ⟨fun e q there => by simp at there, fun i e is => by cases is⟩

theorem Counted.run (small : 8 * n < 2 ^ 32) {events : List (Event n)} (ran : run State.step {} events = some s) :
    s.Counted :=
  run_invariant State.Counted (fun _ _ _ counted steps => (counted.stepped steps).counted small counted) .empty ran

end State

section
variable {n : Nat} {events : List (Event n)} {s : State n}

/-- However the queue grows, entries change, are rated and culled: an entry's `tc_ref` is the
number of places it holds, its packed trace is there as long as it holds any, and so the next
`cull_queue` meets no null trace. -/
theorem runs_counted (small : 8 * n < 2 ^ 32) (ran : run State.step {} events = some s) :
    (∀ (e : Nat) (q : Entry), s.queue[e]? = some q →
      q.tcRef = held s.topRated e ∧ (q.traceMini.isSome = true ↔ ∃ i, s.topRated i = some e)) ∧
    ∀ nonInstrumented firstCycleDone amountOfTargets,
      ∃ t, s.cullQueue nonInstrumented firstCycleDone amountOfTargets = .ok t := by
  have counted : s.Counted := State.Counted.run small ran
  refine ⟨fun e q there => ?_, fun nonInstrumented firstCycleDone amountOfTargets => ?_⟩
  · have keeps := counted.entries e q there
    refine ⟨keeps.tcRef, keeps.trace.trans ?_⟩
    rw [← Nat.pos_iff_ne_zero, held, Finset.card_pos]
    simp [Finset.Nonempty]
  · rcases State.cullQueue_settled counted nonInstrumented firstCycleDone amountOfTargets with same | ⟨t, culled, -⟩
    · exact ⟨s, same⟩
    · exact ⟨t, culled⟩

end

/-- Two entries share four of the eight places; the second is the faster one. -/
def twoEntries : List (Event 1) :=
  [.addToQueue ⟨10, 4, 0, 0, false, false⟩ true, .addToQueue ⟨5, 4, 0, 0, false, false⟩ false,
    .rate ⟨.fast, false, fun _ => 1⟩ 0 (fun i => if i.val < 6 then 1 else 0),
    .rate ⟨.fast, false, fun _ => 1⟩ 1 (fun i => if 2 ≤ i.val then 1 else 0), .cull false true 0]

theorem twoEntries_counted : ∃ s, run State.step {} twoEntries = some s ∧ s.queue.map Entry.tcRef = [2, 6] ∧
    ∃ t, s.cullQueue false false 1 = .ok t := by
  have refs : (run State.step {} twoEntries).map (fun s => s.queue.map Entry.tcRef) = some [2, 6] := by decide +kernel
  obtain ⟨s, ran, refs⟩ := Option.map_eq_some_iff.mp refs
  exact ⟨s, ran, refs, (runs_counted (by decide) ran).2 false false 1⟩

/-! ### The favored entries cover the map -/

/-- The packed traces show what the entries hit. -/
def Traces (hits : Nat → Fin (8 * n) → Prop) (queue : List Entry) : Prop :=
  ∀ (e : Nat) (q : Entry) (mini : List Byte), queue[e]? = some q → q.traceMini = some mini →
    ∀ i : Fin (8 * n), get mini i = true ↔ hits e i

section
variable {n : Nat} {hits : Nat → Fin (8 * n) → Prop} {queue later : List Entry}

theorem Traces.modify (traces : Traces hits queue) {e : Nat} {f : Entry → Entry}
    (own : ∀ (q : Entry) (mini : List Byte), queue[e]? = some q → (f q).traceMini = some mini →
      ∀ i : Fin (8 * n), get mini i = true ↔ hits e i) : Traces hits (queue.modify e f) := by
  intro j r mini there trace
  simp only [List.getElem?_modify, Option.map_eq_map, Option.map_eq_some_iff] at there
  obtain ⟨q, was, rfl⟩ := there
  split at trace
  · next same =>
    subst same
    exact own q mini was trace
  · exact traces j q mini was trace

theorem Traces.release (traces : Traces hits queue) (e : Nat) : Traces hits (queue.modify e Entry.release) := by
  refine traces.modify fun q mini was trace => traces e q mini was ?_
  simp only [Entry.release] at trace
  split at trace
  · cases trace
  · exact trace

theorem Traces.claim (traces : Traces hits queue) {e : Nat} {traceBits : Bitmap (8 * n)}
    (same : ∀ i, traceBits i ≠ 0 ↔ hits e i) : Traces hits (queue.modify e (Entry.claim traceBits)) := by
  refine traces.modify fun q mini was trace i => ?_
  simp only [Entry.claim, Option.some.injEq] at trace
  cases old : q.traceMini with
  | none =>
    rw [old, Option.getD_none] at trace
    rw [← trace, (minimizeBits_spec traceBits).2, decide_eq_true_iff]
    exact same i
  | some before =>
    rw [old, Option.getD_some] at trace
    exact traces e q mini was (trace ▸ old) i

theorem Covered.alter {c : Changes} {e i : Nat} (covered : Covered queue i) : Covered (queue.modify e c.apply) i := by
  obtain ⟨j, q, mini, there, favored, trace, bit⟩ := covered
  refine ⟨j, if e = j then c.apply q else q, mini, by rw [List.getElem?_modify, there]; rfl, ?_, ?_, bit⟩
  · split <;> exact favored
  · split <;> exact trace

theorem Traces.alike (traces : Traces hits queue)
    (alike : ∀ (e : Nat) (r : Entry), later[e]? = some r → ∃ q : Entry, queue[e]? = some q ∧ q.Alike r) :
    Traces hits later := by
  intro e r mini there trace
  obtain ⟨q, was, same⟩ := alike e r there
  exact traces e q mini was (same.trace.symm.trans trace)

end

namespace State
variable {n : Nat} {hits : Nat → Fin (8 * n) → Prop} {s t : State n} {cfg : Power} {traceBits : Bitmap (8 * n)} {q : Nat}
  {i j : Fin (8 * n)}

/-- Each holder hits its place, and the favored entries cover the places held unless something
changed since the last `cull_queue`. -/
structure Faithful (hits : Nat → Fin (8 * n) → Prop) (s : State n) : Prop where
  traces : Traces hits s.queue
  owned : ∀ i e, s.topRated i = some e → hits e i
  covered : s.scoreChanged = false → ∀ i e, s.topRated i = some e → Covered s.queue i

theorem Faithful.empty : ({} : State n).Faithful hits :=
  ⟨fun e q mini there => by simp at there, fun i e is => (by cases is), fun _ i e is => by cases is⟩

theorem Turn.faithful (turn : Turn cfg traceBits q s i t) (same : ∀ i, traceBits i ≠ 0 ↔ hits q i)
    (faithful : s.Faithful hits) : t.Faithful hits := by
  have taken (hit : traceBits i ≠ 0) : ∀ j e, Function.update s.topRated i (some q) j = some e → hits e j := by
    intro j e is
    by_cases at_ : j = i
    · subst at_
      rw [Function.update_self] at is
      obtain rfl := Option.some.inj is
      exact (same j).mp hit
    · rw [Function.update_of_ne at_] at is
      exact faithful.owned j e is
  cases turn with
  | unhit | kept => exact faithful
  | first hit _ => exact ⟨faithful.traces.claim same, taken hit, nofun⟩
  | won hit top _ _ => exact ⟨(faithful.traces.release top).claim same, taken hit, nofun⟩

theorem Faithful.stepped {event : Event n} (faithful : s.Faithful hits) (counted : s.Counted)
    (same : ∀ cfg q traceBits, event = .rate cfg q traceBits → ∀ i, traceBits i ≠ 0 ↔ hits q i)
    (stepped : Stepped s event t) : t.Faithful hits := by
  cases stepped with
  | addToQueue c favored =>
    refine ⟨fun e r mini there trace => ?_, faithful.owned, fun unchanged i e is => ?_⟩
    · rcases addToQueue_entry there with old | ⟨rfl, rfl⟩
      · exact faithful.traces e r mini old trace
      · cases trace
    · obtain ⟨j, q, mini, there, rest⟩ := faithful.covered unchanged i e is
      exact ⟨j, q, mini, (List.getElem?_append_left (List.getElem?_eq_some_iff.mp there).1).trans there, rest⟩
  | alter e c =>
    refine ⟨?_, faithful.owned, fun unchanged i e is => (faithful.covered unchanged i e is).alter⟩
    exact faithful.traces.modify fun q mini was trace => faithful.traces e q mini was trace
  | rate cfg q traceBits =>
    exact updateBitmapScore_invariant faithful fun u i v holds turn => turn.faithful (same cfg q traceBits rfl) holds
  | skip => exact faithful
  | cull _ _ _ _ settled =>
    refine ⟨faithful.traces.alike settled.alike, settled.topRated ▸ faithful.owned, fun _ i e is => ?_⟩
    rw [settled.topRated] at is
    have inside := counted.known i e is
    have there : s.queue[e]? = some s.queue[e] := List.getElem?_eq_getElem inside
    obtain ⟨mini, trace⟩ := Option.isSome_iff_exists.mp ((counted.entries e _ there).trace.mpr (held_pos is).ne')
    have bit : get mini i = true := (faithful.traces e _ mini there trace i).mpr (faithful.owned i e is)
    exact settled.covered i e is ⟨_, mini, there, trace, bit⟩

/-- A place once held stays held. -/
theorem Turn.held (turn : Turn cfg traceBits q s i t) (taken : s.topRated j ≠ none) : t.topRated j ≠ none := by
  cases turn with
  | unhit | kept => exact taken
  | first | won =>
    by_cases same : j = i
    · subst same
      simp [take]
    · simpa [take, modify, Function.update_of_ne same] using taken

theorem Stepped.held {event : Event n} (stepped : Stepped s event t) (taken : s.topRated j ≠ none) :
    t.topRated j ≠ none := by
  cases stepped with
  | addToQueue | alter | skip => exact taken
  | rate cfg q traceBits =>
    exact updateBitmapScore_invariant (P := fun u => u.topRated j ≠ none) taken fun u i v holds turn => turn.held holds
  | cull _ _ _ _ settled => exact settled.topRated ▸ taken

theorem updateBitmapScore_held (hit : traceBits i ≠ 0) : (s.updateBitmapScore cfg q traceBits).topRated i ≠ none := by
  refine updateBitmapScore_at (i := i) (P := fun u => u.topRated i ≠ none) (Q := fun _ => True) trivial
    (fun _ _ _ _ _ => trivial) (fun u v _ turn => ?_) fun u j v taken turn => turn.held taken
  cases turn with
  | unhit zero => exact absurd zero hit
  | kept _ top is => simp [is]
  | first | won => simp [take]

end State

section
variable {n : Nat} {events : List (Event n)} {s : State n}

/-- What holds once an event has been taken and no step undoes, holds at the end of the run. -/
theorem run_after (small : 8 * n < 2 ^ 32) {P : State n → Prop} {allowed : State n → Event n → Prop}
    (along : Along State.step allowed {} events) (ran : run State.step {} events = some s)
    {event : Event n} (member : event ∈ events)
    (taken : ∀ u v, u.Counted → allowed u event → State.Stepped u event v → P v)
    (still : ∀ u later v, u.Counted → P u → allowed u later → State.Stepped u later v → P v) : P s := by
  obtain ⟨early, rest, rfl⟩ := List.append_of_mem member
  obtain ⟨u, before, after⟩ := run_append.mp ran
  obtain ⟨v, step, last⟩ := run_cons.mp after
  obtain ⟨permitted, later⟩ := (along_append.mp along).2 u before
  have counted := State.Counted.run small before
  have stepped := counted.stepped step
  have kept : ∀ (w : State n) (event : Event n) (x : State n), w.Counted ∧ P w → allowed w event →
      w.step event = some x → x.Counted ∧ P x := by
    rintro w event x ⟨counted, holds⟩ permitted steps
    have next := counted.stepped steps
    exact ⟨next.counted small counted, still w event x counted holds permitted next⟩
  exact ((later v step).invariant kept ⟨stepped.counted small counted, taken u v counted permitted stepped⟩ last).2

/-- Where an entry shows the same places whenever it is rated: unless scores changed since the
last `cull_queue`, every place that any rated entry hits is hit by a favored entry. -/
theorem favored_cover (small : 8 * n < 2 ^ 32) (ran : run State.step {} events = some s)
    (stable : ∀ q cfg traceBits cfg' traceBits', .rate cfg q traceBits ∈ events → .rate cfg' q traceBits' ∈ events →
      ∀ i, traceBits i ≠ 0 ↔ traceBits' i ≠ 0)
    (culled : s.scoreChanged = false) {cfg : Power} {q : Nat} {traceBits : Bitmap (8 * n)}
    (rated : .rate cfg q traceBits ∈ events) {i : Fin (8 * n)} (hit : traceBits i ≠ 0) :
    ∃ (e : Nat) (entry : Entry) (cfg' : Power) (traceBits' : Bitmap (8 * n)), s.queue[e]? = some entry ∧
      entry.favored = true ∧ .rate cfg' e traceBits' ∈ events ∧ traceBits' i ≠ 0 := by
  let hits (e : Nat) (j : Fin (8 * n)) : Prop :=
    ∃ cfg' traceBits', Event.rate cfg' e traceBits' ∈ events ∧ traceBits' j ≠ 0
  have faithful : s.Counted ∧ s.Faithful hits := by
    have along : Along State.step (fun _ event => event ∈ events) {} events := along_of_forall fun _ member _ => member
    have step : ∀ (u : State n) (event : Event n) (v : State n), u.Counted ∧ u.Faithful hits → event ∈ events →
        u.step event = some v → v.Counted ∧ v.Faithful hits := by
      rintro u event v ⟨counted, faithful⟩ member steps
      have stepped := counted.stepped steps
      refine ⟨stepped.counted small counted, faithful.stepped counted ?_ stepped⟩
      rintro cfg' e traceBits' rfl j
      exact ⟨fun set => ⟨cfg', traceBits', member, set⟩,
        fun ⟨_, _, other, set⟩ => (stable e _ _ _ _ member other j).mpr set⟩
    have holds := along.invariant step ⟨State.Counted.empty, State.Faithful.empty⟩ ran
    exact holds
  have held : s.topRated i ≠ none := by
    have along : Along State.step (fun _ _ => True) {} events := along_of_forall fun _ _ _ => trivial
    refine run_after small along ran rated (P := fun u => u.topRated i ≠ none) (fun u v _ _ stepped => ?_)
      fun u later v _ taken _ stepped => stepped.held taken
    cases stepped with
    | rate => exact State.updateBitmapScore_held hit
  obtain ⟨holder, is⟩ := Option.ne_none_iff_exists'.mp held
  obtain ⟨e, entry, mini, there, favored, trace, bit⟩ := faithful.2.covered culled i holder is
  obtain ⟨cfg', traceBits', member, set⟩ := (faithful.2.traces e entry mini there trace i).mp bit
  exact ⟨e, entry, cfg', traceBits', there, favored, member, set⟩

end

theorem twoEntries_cover : ∃ s, run State.step {} twoEntries = some s ∧ s.scoreChanged = false ∧
    ∃ (e : Nat) (entry : Entry) (cfg : Power) (traceBits : Bitmap 8), s.queue[e]? = some entry ∧
      entry.favored = true ∧ .rate cfg e traceBits ∈ twoEntries ∧ traceBits 0 ≠ 0 := by
  have changed : (run State.step {} twoEntries).map State.scoreChanged = some false := by decide +kernel
  obtain ⟨s, ran, culled⟩ := Option.map_eq_some_iff.mp changed
  refine ⟨s, ran, culled, favored_cover (n := 1) (by decide) ran ?_ culled (.tail _ (.tail _ (.head _))) (i := 0)
    (by decide)⟩
  intro q cfg traceBits cfg' traceBits' first second i
  simp only [twoEntries, List.mem_cons, reduceCtorEq, Event.rate.injEq, List.not_mem_nil, or_false, false_or]
    at first second
  rcases first with ⟨rfl, rfl, rfl⟩ | ⟨rfl, rfl, rfl⟩ <;> rcases second with ⟨rfl, other, rfl⟩ | ⟨rfl, other, rfl⟩
  · rfl
  · cases other
  · cases other
  · rfl

/-! ### The holder is the best -/

def Power.scores (cfg : Power) (queue : List Entry) : List Nat := queue.map cfg.favFactor

/-- One of the schedules that skip the comparison of `fuzz_p2`. -/
def Power.Skips (cfg : Power) : Prop :=
  cfg.schedule.num ≥ Schedule.fast.num ∧ cfg.schedule.num < Schedule.rare.num

theorem Power.favFactor_congr (cfg : Power) {p q : Entry} (execUs : p.execUs = q.execUs) (len : p.len = q.len) :
    cfg.favFactor p = cfg.favFactor q := by
  rw [Power.favFactor, Power.favFactor, execUs, len]

theorem Power.favFactor_release (cfg : Power) (top : Entry) : cfg.favFactor top.release = cfg.favFactor top := by
  cases top
  exact cfg.favFactor_congr rfl rfl

theorem Power.favFactor_claim (cfg : Power) (traceBits : Bitmap (8 * n)) (q : Entry) :
    cfg.favFactor (q.claim traceBits) = cfg.favFactor q := by
  cases q
  exact cfg.favFactor_congr rfl rfl

theorem Power.scores_modify (cfg : Power) {queue : List Entry} {e : Nat} {f : Entry → Entry}
    (same : ∀ q : Entry, queue[e]? = some q → cfg.favFactor (f q) = cfg.favFactor q) :
    cfg.scores (queue.modify e f) = cfg.scores queue := by
  apply List.ext_getElem?
  intro j
  simp only [Power.scores, List.getElem?_map, List.getElem?_modify, Option.map_eq_map, Option.map_map]
  cases there : queue[j]? with
  | none => rfl
  | some q =>
    simp only [Option.map_some, Function.comp_apply, Option.some.injEq]
    split
    · next at_ => exact same q (at_ ▸ there)
    · rfl

namespace State
variable {n : Nat} {s t : State n} {cfg rating : Power} {traceBits : Bitmap (8 * n)} {q v : Nat} {i j : Fin (8 * n)}

/-- The holder of a place scores no more than this. -/
def Bounded (cfg : Power) (i : Fin (8 * n)) (v : Nat) (s : State n) : Prop :=
  ∃ e w, s.topRated i = some e ∧ (cfg.scores s.queue)[e]? = some w ∧ w ≤ v

theorem length_of_scores {queue later : List Entry} (scores : cfg.scores later = cfg.scores queue) :
    later.length = queue.length := by
  simpa [Power.scores] using congrArg List.length scores

theorem scores_getElem? (cfg : Power) {queue : List Entry} {e : Nat} (there : e < queue.length) :
    (cfg.scores queue)[e]? = some (cfg.favFactor (queue.getD e {})) := by
  simp [Power.scores, List.getD_eq_getElem?_getD, List.getElem?_eq_getElem there]

theorem Turn.scores (cfg : Power) (turn : Turn rating traceBits q s i t) : cfg.scores t.queue = cfg.scores s.queue := by
  have claim (s : State n) : cfg.scores (s.take traceBits q i).queue = cfg.scores s.queue :=
    cfg.scores_modify fun q _ => cfg.favFactor_claim traceBits q
  cases turn with
  | unhit | kept => rfl
  | first => exact claim s
  | won _ top => exact (claim _).trans (cfg.scores_modify fun top _ => cfg.favFactor_release top)

/-- In the schedules that skip the first comparison the place goes to the lower score. -/
theorem wins_iff {challenger top : Entry} (window : rating.Skips) :
    rating.wins challenger top = true ↔ rating.favFactor challenger ≤ rating.favFactor top := by
  have zero : rating.fuzzP2 challenger = 0 := if_pos window
  unfold Power.wins
  rw [zero, if_neg (Nat.not_lt_zero _)]
  split
  · next less => exact iff_of_false (by simp) (not_le.mpr less.2)
  · simp

/-- The score of an entry depends on nothing else of the settings. -/
structure Same (cfg rating : Power) : Prop where
  schedule : rating.schedule = cfg.schedule
  fixedSeed : rating.fixedSeed = cfg.fixedSeed

theorem Same.favFactor (same : Same cfg rating) (entry : Entry) : rating.favFactor entry = cfg.favFactor entry := by
  simp [Power.favFactor, Power.timeless, same.schedule, same.fixedSeed]

theorem Same.wins_iff (same : Same cfg rating) (window : cfg.Skips) {challenger top : Entry} :
    rating.wins challenger top = true ↔ cfg.favFactor challenger ≤ cfg.favFactor top := by
  have skips : rating.Skips := by
    unfold Power.Skips
    rw [same.schedule]
    exact window
  rw [State.wins_iff skips, same.favFactor, same.favFactor]

theorem Turn.bounded (turn : Turn rating traceBits q s j t) (same : Same cfg rating) (window : cfg.Skips)
    (there : q < s.queue.length) (bounded : s.Bounded cfg i v) : t.Bounded cfg i v := by
  obtain ⟨e, w, is, score, le⟩ := bounded
  have scores := turn.scores cfg
  cases turn with
  | unhit | kept => exact ⟨e, w, is, score, le⟩
  | first _ free =>
    have other : i ≠ j := by
      rintro rfl
      rw [free] at is
      cases is
    exact ⟨e, w, (Function.update_of_ne other ..).trans is, scores ▸ score, le⟩
  | won _ top holds wins =>
    by_cases at_ : i = j
    · subst at_
      obtain rfl := Option.some.inj (holds.symm.trans is)
      have inside : top < s.queue.length := by
        have := (List.getElem?_eq_some_iff.mp score).1
        simpa [Power.scores] using this
      obtain rfl := Option.some.inj ((scores_getElem? cfg inside).symm.trans score)
      refine ⟨q, _, Function.update_self .., scores ▸ scores_getElem? cfg there, ?_⟩
      exact ((same.wins_iff window).mp wins).trans le
    · exact ⟨e, w, (Function.update_of_ne at_ ..).trans is, scores ▸ score, le⟩

theorem updateBitmapScore_bounded (small : 8 * n < 2 ^ 32) (counted : s.Counted) (same : Same cfg rating)
    (window : cfg.Skips) (there : q < s.queue.length) (hit : traceBits i ≠ 0) :
    let t := s.updateBitmapScore rating q traceBits
    t.Bounded cfg i (cfg.favFactor (s.queue.getD q {})) ∧ cfg.scores t.queue = cfg.scores s.queue := by
  refine updateBitmapScore_at (i := i) (Q := fun u => u.Counted ∧ cfg.scores u.queue = cfg.scores s.queue)
    (P := fun u => u.Bounded cfg i (cfg.favFactor (s.queue.getD q {})) ∧ cfg.scores u.queue = cfg.scores s.queue)
    ⟨counted, rfl⟩ ?_ ?_ ?_
  · rintro u j v ⟨counted, scores⟩ turn
    exact ⟨turn.counted small counted (length_of_scores scores ▸ there), (turn.scores cfg).trans scores⟩
  · rintro u v ⟨counted, scores⟩ turn
    refine ⟨?_, (turn.scores cfg).trans scores⟩
    have own : (cfg.scores v.queue)[q]? = some (cfg.favFactor (s.queue.getD q {})) := by
      rw [turn.scores cfg, scores, scores_getElem? cfg there]
    cases turn with
    | unhit zero => exact absurd zero hit
    | kept _ top is loses =>
      have less : ¬ cfg.favFactor (u.queue.getD q {}) ≤ cfg.favFactor (u.queue.getD top {}) := by
        rw [← same.wins_iff window, loses]
        exact Bool.false_ne_true
      rw [scores_getElem? cfg (length_of_scores scores ▸ there), Option.some.injEq] at own
      exact ⟨top, _, is, scores_getElem? cfg (counted.known i top is), own ▸ (not_le.mp less).le⟩
    | first | won => exact ⟨q, _, Function.update_self .., own, le_rfl⟩
  · rintro u j v ⟨bounded, scores⟩ turn
    exact ⟨turn.bounded same window (length_of_scores scores ▸ there) bounded, (turn.scores cfg).trans scores⟩

/-- Nobody touches what the scores are computed from. -/
def Steady (cfg : Power) (s : State n) : Event n → Prop
  | .alter e c => ∀ q : Entry, s.queue[e]? = some q → cfg.favFactor (c.apply q) = cfg.favFactor q
  | .rate rating _ _ => Same cfg rating
  | _ => True

/-- The place is held for a score no higher than that of the entry. -/
def Beaten (cfg : Power) (i : Fin (8 * n)) (q : Nat) (s : State n) : Prop :=
  ∃ v, s.Bounded cfg i v ∧ (cfg.scores s.queue)[q]? = some v

theorem Settled.scores (settled : Settled s t) (cfg : Power) : cfg.scores t.queue = cfg.scores s.queue := by
  refine List.ext_getElem (by simp [Power.scores, settled.length]) fun e low high => ?_
  have inside : e < t.queue.length := by simpa [Power.scores] using low
  obtain ⟨q, was, alike⟩ := settled.alike e t.queue[e] (List.getElem?_eq_getElem inside)
  obtain ⟨_, rfl⟩ := List.getElem?_eq_some_iff.mp was
  simp [Power.scores, Power.favFactor, alike.execUs, alike.len]

theorem Stepped.beaten {event : Event n} (stepped : Stepped s event t) (window : cfg.Skips)
    (steady : Steady cfg s event) (beaten : s.Beaten cfg i q) : t.Beaten cfg i q := by
  obtain ⟨v, ⟨e, w, is, score, le⟩, own⟩ := beaten
  cases stepped with
  | addToQueue c favored =>
    have grown {e w : Nat} (old : (cfg.scores s.queue)[e]? = some w) :
        (cfg.scores (s.queue ++ [c.apply { favored }]))[e]? = some w := by
      rw [show cfg.scores (s.queue ++ [c.apply { favored }]) =
          cfg.scores s.queue ++ [cfg.favFactor (c.apply { favored })] from List.map_append,
        List.getElem?_append_left (List.getElem?_eq_some_iff.mp old).1]
      exact old
    exact ⟨v, ⟨e, w, is, grown score, le⟩, grown own⟩
  | alter j c =>
    have scores : cfg.scores (s.modify j c.apply).queue = cfg.scores s.queue := cfg.scores_modify steady
    exact ⟨v, ⟨e, w, is, scores ▸ score, le⟩, scores ▸ own⟩
  | rate rating challenger traceBits there =>
    have kept : (s.updateBitmapScore rating challenger traceBits).Bounded cfg i v ∧
        cfg.scores (s.updateBitmapScore rating challenger traceBits).queue = cfg.scores s.queue := by
      refine updateBitmapScore_invariant (P := fun u => u.Bounded cfg i v ∧ cfg.scores u.queue = cfg.scores s.queue)
        ⟨⟨e, w, is, score, le⟩, rfl⟩ fun u j x holds turn => ?_
      exact ⟨turn.bounded steady window (length_of_scores holds.2 ▸ there) holds.1, (turn.scores cfg).trans holds.2⟩
    exact ⟨v, kept.1, kept.2 ▸ own⟩
  | skip => exact ⟨v, ⟨e, w, is, score, le⟩, own⟩
  | cull _ _ _ _ settled =>
    have scores := settled.scores cfg
    exact ⟨v, ⟨e, w, settled.topRated ▸ is, scores ▸ score, le⟩, scores ▸ own⟩

end State

/-- In the schedules from fast to quad, as long as no entry's speed or length changes, a place is
held by the best of all entries that were ever rated with a trace that hits it. -/
theorem holder_least (small : 8 * n < 2 ^ 32) {cfg : Power} (window : cfg.Skips) {events : List (Event n)}
    {s : State n} (steady : Along State.step (State.Steady cfg) {} events) (ran : run State.step {} events = some s)
    {rating : Power} {q : Nat} {traceBits : Bitmap (8 * n)} (rated : .rate rating q traceBits ∈ events)
    {i : Fin (8 * n)} (hit : traceBits i ≠ 0) :
    ∃ (e : Nat) (holder entry : Entry), s.topRated i = some e ∧ s.queue[e]? = some holder ∧ s.queue[q]? = some entry ∧
      cfg.favFactor holder ≤ cfg.favFactor entry := by
  have beaten : s.Beaten cfg i q := by
    refine run_after small steady ran rated (fun u v counted same stepped => ?_)
      fun u later v _ holds allowed stepped => stepped.beaten window allowed holds
    cases stepped with
    | rate _ _ _ there =>
      obtain ⟨bounded, scores⟩ := State.updateBitmapScore_bounded small counted same window there hit
      exact ⟨_, bounded, scores ▸ State.scores_getElem? cfg there⟩
  obtain ⟨v, ⟨e, w, is, score, le⟩, own⟩ := beaten
  simp only [Power.scores, List.getElem?_map, Option.map_eq_some_iff] at score own
  obtain ⟨holder, held, rfl⟩ := score
  obtain ⟨entry, there, rfl⟩ := own
  exact ⟨e, holder, entry, is, held, there, le⟩

theorem twoEntries_least : ∃ s, run State.step {} twoEntries = some s ∧
    ∃ (e : Nat) (holder entry : Entry), s.topRated 3 = some e ∧ s.queue[e]? = some holder ∧ s.queue[0]? = some entry ∧
      holder.execUs * holder.len % 2 ^ 64 ≤ entry.execUs * entry.len % 2 ^ 64 := by
  have ran : (run State.step {} twoEntries).isSome = true := by decide +kernel
  obtain ⟨s, ran⟩ := Option.isSome_iff_exists.mp ran
  have fast : Power.Skips ⟨.fast, false, fun _ => 0⟩ := ⟨by decide, by decide⟩
  refine ⟨s, ran, holder_least (n := 1) (by decide) fast ?_ ran (.tail _ (.tail _ (.head _))) (i := 3) (by decide)⟩
  exact along_of_forall fun event member u => by
    simp only [twoEntries, List.mem_cons, List.not_mem_nil, or_false] at member
    rcases member with rfl | rfl | rfl | rfl | rfl <;> first | trivial | exact ⟨rfl, rfl⟩

end AflLive.Fuzz.TopRated
