import AflLive.Libgen.Heap
import AflLive.Library.Clamp

/-! `ConstraintFactory.cc`. A constraint is a closure over a constant or over the
address of another argument's slot; it rewrites the low bytes of a 64-bit
variable. The comparisons for each width and signedness are one family. -/
namespace AflLive.Libgen
open Bytes

inductive Kind where
  | EQ | LE | GE
deriving DecidableEq, Repr

/-- `ConstantConstraintFactory` and `ArgConstraintFactory`. The type of the
right-hand argument is stored by the source and never read. -/
inductive Rhs where
  | constant (value : Nat)
  | arg (ptr : Nat)
deriving DecidableEq, Repr

structure Constraint where
  kind : Kind
  rhs : Rhs
  isSigned : Bool
deriving DecidableEq, Repr

/-- The dynamic type of the object that invokes a constraint. -/
inductive LhsType where
  | pointer
  | integer (size : Nat)
  | floating (size : Nat)
deriving DecidableEq, Repr

def Rhs.load (h : Heap) : Rhs → Nat → Except Fault (List UInt8)
  | .constant c, n => .ok (number n c)
  | .arg ptr, n => h.load ptr n

/-- `memcpy(lhs, bytes, n)` on a 64-bit variable. -/
def overwrite (n lhs : Nat) (bytes : List UInt8) : Nat := lhs - lhs % 256 ^ n + value bytes

/-- The `n`-byte pattern read as a two's complement or as an unsigned number. -/
def interpret (isSigned : Bool) (n v : Nat) : Int :=
  if isSigned && decide (256 ^ n ≤ 2 * v) then (v : Int) - 256 ^ n else v

/-- Order of IEEE patterns: comparisons with a NaN are false and the two zeros
are equal. `top` is the weight of the sign bit, `infinity` the pattern of it. -/
def floatLess (top infinity a b : Nat) : Bool :=
  let key := fun v : Nat => if top ≤ v then -((v - top : Nat) : Int) else v
  decide (a % top ≤ infinity) && decide (b % top ≤ infinity) && decide (key a < key b)

/-- One branch of `constrain`: compare the low `n` bytes and copy the bound. -/
def clampWith (less : Nat → Nat → Bool) (n : Nat) (h : Heap) (kind : Kind) (rhs : Rhs) (lhs : Nat) :
    Except Fault Nat := do
  let bytes ← rhs.load h n
  let rhsVal := value bytes
  let lhsVal := lhs % 256 ^ n
  let shouldCopy := if kind = .LE then less rhsVal lhsVal else less lhsVal rhsVal
  return if shouldCopy then overwrite n lhs bytes else lhs

def integerLess (isSigned : Bool) (n a b : Nat) : Bool :=
  decide (interpret isSigned n a < interpret isSigned n b)

def constrain (h : Heap) (kind : Kind) (isSigned : Bool) (lhsType : LhsType) (rhs : Rhs) (lhs : Nat) :
    Except Fault Nat :=
  match lhsType with
  | .pointer => clampWith (integerLess false 4) 4 h kind rhs lhs
  | .floating 4 => clampWith (floatLess (2 ^ 31) 0x7f800000) 4 h kind rhs lhs
  | .floating 8 => clampWith (floatLess (2 ^ 63) 0x7ff0000000000000) 8 h kind rhs lhs
  | .integer 1 => clampWith (integerLess isSigned 1) 1 h kind rhs lhs
  | .integer 2 => clampWith (integerLess isSigned 2) 2 h kind rhs lhs
  | .integer 4 => clampWith (integerLess isSigned 4) 4 h kind rhs lhs
  | .integer 8 => clampWith (integerLess isSigned 8) 8 h kind rhs lhs
  | .floating _ | .integer _ => .ok lhs

def LhsType.copySize : LhsType → Nat
  | .pointer => 4
  | .integer size | .floating size => size

/-- The closure returned by `getConstraint`. -/
def Constraint.run (c : Constraint) (h : Heap) (lhsType : LhsType) (lhs : Nat) : Except Fault Nat :=
  match c.kind with
  | .EQ => do
    let bytes ← c.rhs.load h lhsType.copySize
    return overwrite lhsType.copySize lhs bytes
  | .LE | .GE => constrain h c.kind c.isSigned lhsType c.rhs lhs

/-- `for (const auto &it : constraints) it(&lhs, this);` -/
def runConstraints (h : Heap) (lhsType : LhsType) (cs : List Constraint) (lhs : Nat) : Except Fault Nat :=
  cs.foldlM (fun value c => c.run h lhsType value) lhs

/-- What a right-hand side reads where the read succeeds. -/
def Rhs.bytes (h : Heap) : Rhs → Nat → List UInt8
  | .constant c, n => number n c
  | .arg ptr, n => h.bytes.peek ptr n

def Rhs.Readable (h : Heap) (rhs : Rhs) (n : Nat) : Prop :=
  match rhs with
  | .constant _ => True
  | .arg ptr => h.readable ptr n = true

theorem Rhs.load_eq_ok {h : Heap} {rhs : Rhs} {n : Nat} {bytes : List UInt8} :
    rhs.load h n = .ok bytes ↔ rhs.Readable h n ∧ bytes = rhs.bytes h n := by
  cases rhs with
  | constant c => simp only [Rhs.load, Rhs.Readable, Rhs.bytes, Except.ok.injEq, true_and]; exact eq_comm
  | arg ptr => exact Heap.load_eq_ok

theorem Rhs.load_length {h : Heap} {rhs : Rhs} {n : Nat} {bytes : List UInt8}
    (loaded : rhs.load h n = .ok bytes) : bytes.length = n := by
  cases rhs with
  | constant c => rw [← Except.ok.inj loaded, number_length]
  | arg ptr =>
    obtain ⟨_, rfl⟩ := Heap.load_eq_ok.mp loaded
    exact Image.peek_length _ _ _

theorem overwrite_mod {n lhs : Nat} {bytes : List UInt8} (width : bytes.length = n) :
    overwrite n lhs bytes % 256 ^ n = value bytes := by
  have small := value_lt bytes
  rw [width] at small
  have whole : lhs - lhs % 256 ^ n = 256 ^ n * (lhs / 256 ^ n) := by
    have := Nat.div_add_mod lhs (256 ^ n)
    omega
  rw [overwrite, whole, Nat.mul_add_mod, Nat.mod_eq_of_lt small]

theorem overwrite_same {n lhs : Nat} {bytes : List UInt8} (same : value bytes = lhs % 256 ^ n) :
    overwrite n lhs bytes = lhs := by
  have := Nat.mod_le lhs (256 ^ n)
  rw [overwrite, same]
  omega

theorem overwrite_lt {n k lhs : Nat} {bytes : List UInt8} (width : bytes.length = n) (fits : n ≤ k)
    (small : lhs < 256 ^ k) : overwrite n lhs bytes < 256 ^ k := by
  have bound := value_lt bytes
  rw [width] at bound
  obtain ⟨d, rfl⟩ := Nat.exists_eq_add_of_le fits
  rw [Nat.pow_add] at small ⊢
  have quotient := Nat.div_add_mod lhs (256 ^ n)
  have below : lhs / 256 ^ n < 256 ^ d := Nat.div_lt_of_lt_mul small
  have step : 256 ^ n * (lhs / 256 ^ n + 1) ≤ 256 ^ n * 256 ^ d := Nat.mul_le_mul_left _ below
  rw [Nat.mul_add, Nat.mul_one] at step
  simp only [overwrite]
  omega

/-- The integer widths for which `constrain` has a branch. -/
def LhsType.Comparable : LhsType → Prop
  | .pointer => True
  | .integer size => size = 1 ∨ size = 2 ∨ size = 4 ∨ size = 8
  | .floating size => size = 4 ∨ size = 8

def LhsType.less (isSigned : Bool) : LhsType → Nat → Nat → Bool
  | .pointer => integerLess false 4
  | .integer size => integerLess isSigned size
  | .floating 4 => floatLess (2 ^ 31) 0x7f800000
  | .floating _ => floatLess (2 ^ 63) 0x7ff0000000000000

theorem constrain_eq {lhsType : LhsType} (comparable : lhsType.Comparable) (h : Heap) (kind : Kind)
    (isSigned : Bool) (rhs : Rhs) (lhs : Nat) :
    constrain h kind isSigned lhsType rhs lhs =
      clampWith (lhsType.less isSigned) lhsType.copySize h kind rhs lhs := by
  cases lhsType with
  | pointer => rfl
  | integer size => rcases comparable with rfl | rfl | rfl | rfl <;> rfl
  | floating size => rcases comparable with rfl | rfl <;> rfl

/-- The relation a constraint stands for, between the value it is applied to
and what it reads from its right-hand side. -/
def Constraint.Met (c : Constraint) (lhsType : LhsType) (lhsVal rhsVal : Nat) : Prop :=
  match c.kind with
  | .EQ => lhsVal = rhsVal
  | .LE => lhsType.less c.isSigned rhsVal lhsVal = false
  | .GE => lhsType.less c.isSigned lhsVal rhsVal = false

/-- A value that meets a constraint is left alone. -/
theorem Constraint.run_met {c : Constraint} {h : Heap} {lhsType : LhsType} {lhs : Nat}
    {bytes : List UInt8} (comparable : lhsType.Comparable)
    (loaded : c.rhs.load h lhsType.copySize = .ok bytes)
    (met : c.Met lhsType (lhs % 256 ^ lhsType.copySize) (value bytes)) :
    c.run h lhsType lhs = .ok lhs := by
  unfold Constraint.run
  unfold Constraint.Met at met
  cases kind : c.kind with
  | EQ =>
    simp only [kind] at met
    simp only [loaded, bind, Except.bind, pure, Except.pure, overwrite_same met.symm]
  | LE | GE =>
    simp only [kind] at met
    simp only [constrain_eq comparable, clampWith, loaded, bind, Except.bind, pure, Except.pure]
    simp [met]

theorem runConstraints_met {cs : List Constraint} {h : Heap} {lhsType : LhsType} {lhs : Nat}
    (comparable : lhsType.Comparable)
    (met : ∀ c ∈ cs, ∃ bytes, c.rhs.load h lhsType.copySize = .ok bytes ∧
      c.Met lhsType (lhs % 256 ^ lhsType.copySize) (value bytes)) :
    runConstraints h lhsType cs lhs = .ok lhs := by
  induction cs with
  | nil => rfl
  | cons c rest ih =>
    obtain ⟨bytes, loaded, holds⟩ := met c (by simp)
    have first := Constraint.run_met comparable loaded holds
    have remaining := ih (fun d member => met d (by simp [member]))
    simp only [runConstraints, List.foldlM_cons, first, bind, Except.bind] at remaining ⊢
    exact remaining

/-! ### Numeric meaning of the integer and length constraints -/

def Kind.rel : Kind → Clamp.Rel
  | .EQ => .eq
  | .LE => .le
  | .GE => .ge

/-- Lengths are compared without sign whatever the constraint says. -/
def LhsType.signed (isSigned : Bool) : LhsType → Bool
  | .pointer => false
  | _ => isSigned

def LhsType.Numeric : LhsType → Prop
  | .pointer => True
  | .integer size => size = 1 ∨ size = 2 ∨ size = 4 ∨ size = 8
  | .floating _ => False

/-- The number a value stands for under a constraint. -/
def Constraint.number (c : Constraint) (lhsType : LhsType) (v : Nat) : Int :=
  interpret (lhsType.signed c.isSigned) lhsType.copySize v

theorem LhsType.Numeric.comparable {lhsType : LhsType} (numeric : lhsType.Numeric) :
    lhsType.Comparable := by
  cases lhsType with
  | pointer => trivial
  | integer size => exact numeric
  | floating size => exact False.elim numeric

theorem LhsType.Numeric.less_eq {lhsType : LhsType} (numeric : lhsType.Numeric) (isSigned : Bool)
    (a b : Nat) : lhsType.less isSigned a b =
      decide (interpret (lhsType.signed isSigned) lhsType.copySize a <
        interpret (lhsType.signed isSigned) lhsType.copySize b) := by
  cases lhsType with
  | pointer => rfl
  | integer size => rfl
  | floating size => exact False.elim numeric

/-- One constraint applied to an integer or a length is one clamp of the
number it stands for. -/
theorem Constraint.run_clamps {c : Constraint} {h : Heap} {lhsType : LhsType} (lhs : Nat)
    (numeric : lhsType.Numeric) (readable : c.rhs.Readable h lhsType.copySize) :
    ∃ after, c.run h lhsType lhs = .ok after ∧
      c.number lhsType (after % 256 ^ lhsType.copySize) =
        Clamp.Bound.apply ⟨c.kind.rel, c.number lhsType (value (c.rhs.bytes h lhsType.copySize))⟩
          (c.number lhsType (lhs % 256 ^ lhsType.copySize)) ∧
      (∀ k, lhsType.copySize ≤ k → lhs < 256 ^ k → after < 256 ^ k) := by
  have loaded := Rhs.load_eq_ok.mpr ⟨readable, rfl⟩
  have width := Rhs.load_length loaded
  have copied : overwrite lhsType.copySize lhs (c.rhs.bytes h lhsType.copySize) % 256 ^ lhsType.copySize =
      value (c.rhs.bytes h lhsType.copySize) := overwrite_mod width
  unfold Constraint.run
  cases kind : c.kind with
  | EQ =>
    simp only [loaded, bind, Except.bind, pure, Except.pure]
    exact ⟨_, rfl, by rw [copied]; rfl, fun k fits small => overwrite_lt width fits small⟩
  | LE =>
    simp only [constrain_eq numeric.comparable, clampWith, loaded, bind, Except.bind, pure,
      Except.pure, numeric.less_eq, if_true, decide_eq_true_eq]
    refine ⟨_, rfl, ?_, ?_⟩
    · simp only [Clamp.Bound.apply, Kind.rel, Constraint.number]
      split
      · rw [copied, min_eq_right (by omega)]
      · rw [min_eq_left (by omega)]
    · intro k fits small
      split
      · exact overwrite_lt width fits small
      · exact small
  | GE =>
    simp only [constrain_eq numeric.comparable, clampWith, loaded, bind, Except.bind, pure,
      Except.pure, numeric.less_eq, reduceCtorEq, if_false, decide_eq_true_eq]
    refine ⟨_, rfl, ?_, ?_⟩
    · simp only [Clamp.Bound.apply, Kind.rel, Constraint.number]
      split
      · rw [copied, max_eq_right (by omega)]
      · rw [max_eq_left (by omega)]
    · intro k fits small
      split
      · exact overwrite_lt width fits small
      · exact small

theorem Constraint.run_readable {c : Constraint} {h : Heap} {lhsType : LhsType} {lhs after : Nat}
    (comparable : lhsType.Comparable) (ran : c.run h lhsType lhs = .ok after) :
    c.rhs.Readable h lhsType.copySize := by
  have loaded : ∃ bytes, c.rhs.load h lhsType.copySize = .ok bytes := by
    unfold Constraint.run at ran
    split at ran
    · obtain ⟨bytes, loaded, _⟩ := Control.bind_eq_ok.mp ran
      exact ⟨bytes, loaded⟩
    all_goals
      rw [constrain_eq comparable] at ran
      obtain ⟨bytes, loaded, _⟩ := Control.bind_eq_ok.mp ran
      exact ⟨bytes, loaded⟩
  obtain ⟨bytes, loaded⟩ := loaded
  exact (Rhs.load_eq_ok.mp loaded).1

/-- The bound a constraint sets on numbers of a common signedness. -/
def Constraint.bound (h : Heap) (lhsType : LhsType) (isSigned : Bool) (c : Constraint) : Clamp.Bound Int :=
  ⟨c.kind.rel, interpret isSigned lhsType.copySize (value (c.rhs.bytes h lhsType.copySize))⟩

/-- A list of constraints of one signedness is a sequence of clamps. -/
theorem runConstraints_clamps {cs : List Constraint} {h : Heap} {lhsType : LhsType} {isSigned : Bool}
    (numeric : lhsType.Numeric) (same : ∀ c ∈ cs, lhsType.signed c.isSigned = isSigned)
    (readable : ∀ c ∈ cs, c.rhs.Readable h lhsType.copySize) (lhs : Nat) :
    ∃ after, runConstraints h lhsType cs lhs = .ok after ∧
      interpret isSigned lhsType.copySize (after % 256 ^ lhsType.copySize) =
        Clamp.applyAll (cs.map (Constraint.bound h lhsType isSigned))
          (interpret isSigned lhsType.copySize (lhs % 256 ^ lhsType.copySize)) ∧
      (∀ k, lhsType.copySize ≤ k → lhs < 256 ^ k → after < 256 ^ k) := by
  induction cs generalizing lhs with
  | nil => exact ⟨lhs, rfl, rfl, fun _ _ small => small⟩
  | cons c rest ih =>
    obtain ⟨middle, ran, clamped, bounded⟩ := c.run_clamps lhs numeric (readable c (by simp))
    obtain ⟨after, ranRest, clampedRest, boundedRest⟩ := ih (fun d member => same d (by simp [member]))
      (fun d member => readable d (by simp [member])) middle
    refine ⟨after, ?_, ?_, fun k fits small => boundedRest k fits (bounded k fits small)⟩
    · simp only [runConstraints, List.foldlM_cons, ran, bind, Except.bind]
      exact ranRest
    · rw [clampedRest]
      simp only [Constraint.number, same c (by simp)] at clamped
      simp only [List.map_cons, Clamp.applyAll, List.foldl_cons, clamped, Constraint.bound]

/-- A length stays a 32-bit number. -/
theorem runConstraints_lt {cs : List Constraint} {h : Heap} {lhs after : Nat} (small : lhs < 2 ^ 32)
    (ran : runConstraints h .pointer cs lhs = .ok after) : after < 2 ^ 32 := by
  induction cs generalizing lhs with
  | nil =>
    cases ran
    exact small
  | cons c rest ih =>
    obtain ⟨middle, first, remaining⟩ := Control.bind_eq_ok.mp ran
    obtain ⟨same, again, _, bounded⟩ := @Constraint.run_clamps c h .pointer lhs trivial
      (c.run_readable (show LhsType.pointer.Comparable from trivial) first)
    obtain rfl : middle = same := Except.ok.inj (first.symm.trans again)
    exact ih (bounded 4 le_rfl small) remaining

end AflLive.Libgen
