import AflLive.Libgen.GenValues

/-! The bound a constraint enforces, against the number its right-hand side stands for. A
constraint reads as many bytes of the right-hand side as its left-hand side has, four for a
length, from the address the set-up found for the argument. -/
namespace AflLive.Libgen
open Bytes Clamp

/-- The smallest number of `n` bytes. -/
def least (isSigned : Bool) (n : Nat) : Int := if isSigned then -(256 ^ n / 2) else 0

/-- The largest number of `n` bytes. -/
def greatest (isSigned : Bool) (n : Nat) : Int := if isSigned then 256 ^ n / 2 - 1 else 256 ^ n - 1

section Interpret
variable {isSigned : Bool} {n v w : Nat} {x : Int}

theorem pow_even (positive : 0 < n) : ∃ k, 0 < k ∧ 256 ^ n = 2 * k := by
  obtain ⟨m, rfl⟩ := Nat.exists_eq_add_of_lt positive
  refine ⟨128 * 256 ^ m, by positivity, ?_⟩
  rw [Nat.zero_add, Nat.pow_succ]
  ring

theorem interpret_range (positive : 0 < n) (small : v < 256 ^ n) :
    least isSigned n ≤ interpret isSigned n v ∧ interpret isSigned n v ≤ greatest isSigned n := by
  obtain ⟨k, _, double⟩ := pow_even positive
  have power : (256 : Int) ^ n = 2 * k := by exact_mod_cast double
  simp only [least, greatest, interpret, power, double] at small ⊢
  cases isSigned with
  | false =>
    simp only [Bool.false_and, Bool.false_eq_true, if_false]
    omega
  | true =>
    simp only [Bool.true_and, decide_eq_true_eq, if_true]
    split <;> omega

theorem interpret_surjective (positive : 0 < n) (lower : least isSigned n ≤ x) (upper : x ≤ greatest isSigned n) :
    ∃ v < 256 ^ n, interpret isSigned n v = x := by
  obtain ⟨k, _, double⟩ := pow_even positive
  have power : (256 : Int) ^ n = 2 * k := by exact_mod_cast double
  simp only [least, greatest, interpret, power, double] at lower upper ⊢
  cases isSigned with
  | false =>
    simp only [Bool.false_and, Bool.false_eq_true, if_false] at lower upper ⊢
    exact ⟨x.toNat, by omega, by omega⟩
  | true =>
    simp only [Bool.true_and, decide_eq_true_eq, if_true] at lower upper ⊢
    by_cases negative : x < 0
    · refine ⟨(x + 2 * k).toNat, by omega, ?_⟩
      rw [if_pos (by omega)]
      omega
    · refine ⟨x.toNat, by omega, ?_⟩
      rw [if_neg (by omega)]
      omega

theorem interpret_injective (small : v < 256 ^ n) (small' : w < 256 ^ n)
    (same : interpret isSigned n v = interpret isSigned n w) : v = w := by
  have power : (256 : Int) ^ n = ((256 ^ n : Nat) : Int) := by push_cast; rfl
  simp only [interpret, power] at same
  generalize 256 ^ n = p at *
  split at same <;> split at same <;> omega

end Interpret

/-- The right-hand sides a user can name: a 64-bit constant, an integer argument in its slot,
or a pointer argument in its slot, which counts as its length. -/
inductive Operand where
  | constant (pattern : Nat)
  | integer (slot size : Nat)
  | pointer (slot length : Nat)
deriving DecidableEq, Repr

namespace Operand

def number (h : Heap) (isSigned : Bool) : Operand → Int
  | .constant pattern => interpret isSigned 8 pattern
  | .integer slot size => interpret isSigned size (value (h.bytes.peek slot size))
  | .pointer _ length => length

/-- Start and size of the slot; a constant has none. -/
def place : Operand → Nat × Nat
  | .constant _ => (0, 0)
  | .integer slot size => (slot, size)
  | .pointer slot _ => (slot, 8)

def Has (operand : Operand) (x : Nat) : Prop := operand.place.1 ≤ x ∧ x < operand.place.1 + operand.place.2

def Held (operand : Operand) (h : Heap) : Prop := ∀ x, operand.Has x → h.mapped x = true

/-- The bytes a constraint on `n` bytes reads are the argument's. -/
def Covers (operand : Operand) (n : Nat) : Rhs → Prop
  | .constant _ => True
  | .arg ptr => operand.place.1 ≤ ptr ∧ ptr + n ≤ operand.place.1 + operand.place.2

/-- The constraint built for the operand. The address is the one `addressOfArg` has for the
argument by then: that of its slot, with the tags set so far. -/
def constraint (operand : Operand) (kind : Kind) (isSigned : Bool) (address : Nat) : Constraint where
  kind := kind
  rhs := match operand with
    | .constant pattern => .constant pattern
    | .integer _ _ | .pointer _ _ => .arg address
  isSigned := isSigned

end Operand

/-- What the `rhs` of a user constraint stands for. -/
inductive UserRhs.Denotes (types : List Ty) (slots : List Nat) (h : Heap) : UserRhs → Operand → Prop
  | constant (n : Int) : Denotes types slots h (.constant n) (.constant (n % 2 ^ 64).toNat)
  | integer : types[i]? = some (.integer w) → slots[i]? = some slot →
      Denotes types slots h (.arg i) (.integer slot (w / 8))
  | pointer : types[i]? = some (.pointer pointee) → slots[i]? = some slot → h.Points slot length →
      Denotes types slots h (.arg i) (.pointer slot length)

namespace Constraint

/-- The bound the user asked for. -/
def wanted (c : Constraint) (h : Heap) (operand : Operand) : Bound Int := ⟨c.kind.rel, operand.number h c.isSigned⟩

/-- The number the constraint compares with. -/
def found (c : Constraint) (h : Heap) (lhsType : LhsType) : Int :=
  c.number lhsType (value (c.rhs.bytes h lhsType.copySize))

/-- Some value of the left-hand side would do. -/
def Satisfiable (c : Constraint) (h : Heap) (lhsType : LhsType) (operand : Operand) : Prop :=
  ∃ v < 256 ^ lhsType.copySize, (c.wanted h operand).Holds (c.number lhsType v)

/-- The number of the left-hand side's width that is nearest to the right-hand side. -/
def nearest (c : Constraint) (h : Heap) (lhsType : LhsType) (operand : Operand) : Int :=
  max (least (lhsType.signed c.isSigned) lhsType.copySize)
    (min (operand.number h c.isSigned) (greatest (lhsType.signed c.isSigned) lhsType.copySize))

/-- The constraint function enforces its relation to the right-hand side's number: a value
that satisfies it stays, any other is replaced by one that does if there is one, and no byte
outside the argument has a say. -/
structure TrueTo (c : Constraint) (lhsType : LhsType) (operand : Operand) (h : Heap) : Prop where
  keeps : ∀ lhs, (c.wanted h operand).Holds (c.number lhsType (lhs % 256 ^ lhsType.copySize)) →
    c.run h lhsType lhs = .ok lhs
  meets : ∀ lhs, ¬(c.wanted h operand).Holds (c.number lhsType (lhs % 256 ^ lhsType.copySize)) →
    c.Satisfiable h lhsType operand → ∃ after, c.run h lhsType lhs = .ok after ∧
      (c.wanted h operand).Holds (c.number lhsType (after % 256 ^ lhsType.copySize))
  confined : ∀ h' : Heap, (∀ x, operand.Has x → h'.bytes x = h.bytes x ∧ h'.mapped x = h.mapped x) →
    ∀ lhs, c.run h' lhsType lhs = c.run h lhsType lhs

section
variable {c : Constraint} {lhsType : LhsType} {operand : Operand} {h h' : Heap} {lhs : Nat}

theorem copySize_pos (numeric : lhsType.Numeric) : 0 < lhsType.copySize := by
  cases lhsType with
  | pointer => exact Nat.succ_pos 3
  | integer size => rcases numeric with rfl | rfl | rfl | rfl <;> decide
  | floating size => exact numeric.elim

theorem rhs_lt (c : Constraint) (h : Heap) (n : Nat) : value (c.rhs.bytes h n) < 256 ^ n := by
  have small := value_lt (c.rhs.bytes h n)
  have width : (c.rhs.bytes h n).length = n := by
    cases c.rhs with
    | constant c => exact number_length n c
    | arg ptr => exact Image.peek_length _ _ _
  rwa [width] at small

theorem number_range (c : Constraint) (numeric : lhsType.Numeric) (v : Nat) :
    least (lhsType.signed c.isSigned) lhsType.copySize ≤ c.number lhsType (v % 256 ^ lhsType.copySize) ∧
      c.number lhsType (v % 256 ^ lhsType.copySize) ≤ greatest (lhsType.signed c.isSigned) lhsType.copySize :=
  interpret_range (copySize_pos numeric) (Nat.mod_lt _ (by positivity))

theorem number_surjective (c : Constraint) (numeric : lhsType.Numeric) {x : Int}
    (lower : least (lhsType.signed c.isSigned) lhsType.copySize ≤ x)
    (upper : x ≤ greatest (lhsType.signed c.isSigned) lhsType.copySize) :
    ∃ v < 256 ^ lhsType.copySize, c.number lhsType v = x :=
  interpret_surjective (copySize_pos numeric) lower upper

/-- A value the clamp leaves alone is left alone to the last bit. -/
theorem met_of_apply (numeric : lhsType.Numeric)
    (same : Bound.apply ⟨c.kind.rel, c.found h lhsType⟩ (c.number lhsType (lhs % 256 ^ lhsType.copySize)) =
      c.number lhsType (lhs % 256 ^ lhsType.copySize)) :
    c.Met lhsType (lhs % 256 ^ lhsType.copySize) (value (c.rhs.bytes h lhsType.copySize)) := by
  have low : lhs % 256 ^ lhsType.copySize < 256 ^ lhsType.copySize := Nat.mod_lt _ (by positivity)
  unfold Met
  cases kind : c.kind with
  | EQ =>
    simp only [kind, Kind.rel, Bound.apply] at same
    exact (interpret_injective (c.rhs_lt h _) low same).symm
  | LE =>
    simp only [kind, Kind.rel, Bound.apply, min_eq_left_iff] at same
    dsimp only
    rw [numeric.less_eq, decide_eq_false_iff_not, not_lt]
    exact same
  | GE =>
    simp only [kind, Kind.rel, Bound.apply, max_eq_left_iff] at same
    dsimp only
    rw [numeric.less_eq, decide_eq_false_iff_not, not_lt]
    exact same

theorem satisfiable_iff (numeric : lhsType.Numeric) : c.Satisfiable h lhsType operand ↔
    ∃ y, least (lhsType.signed c.isSigned) lhsType.copySize ≤ y ∧
      y ≤ greatest (lhsType.signed c.isSigned) lhsType.copySize ∧ (c.wanted h operand).Holds y := by
  constructor
  · rintro ⟨v, small, holds⟩
    have range := c.number_range numeric v
    rw [Nat.mod_eq_of_lt small] at range
    exact ⟨_, range.1, range.2, holds⟩
  · rintro ⟨y, lower, upper, holds⟩
    obtain ⟨v, small, rfl⟩ := c.number_surjective numeric lower upper
    exact ⟨v, small, holds⟩

/-- Where the right-hand side can be read, the constraint keeps and meets what the clamp with
the number it reads keeps and meets. -/
theorem serves_iff_run (numeric : lhsType.Numeric) (readable : c.rhs.Readable h lhsType.copySize) :
    Bound.Serves ⟨c.kind.rel, c.found h lhsType⟩ (c.wanted h operand)
        (least (lhsType.signed c.isSigned) lhsType.copySize)
        (greatest (lhsType.signed c.isSigned) lhsType.copySize) ↔
      (∀ lhs, (c.wanted h operand).Holds (c.number lhsType (lhs % 256 ^ lhsType.copySize)) →
        c.run h lhsType lhs = .ok lhs) ∧
      ∀ lhs, ¬(c.wanted h operand).Holds (c.number lhsType (lhs % 256 ^ lhsType.copySize)) →
        c.Satisfiable h lhsType operand → ∃ after, c.run h lhsType lhs = .ok after ∧
          (c.wanted h operand).Holds (c.number lhsType (after % 256 ^ lhsType.copySize)) := by
  have loaded := Rhs.load_eq_ok.mpr ⟨readable, rfl⟩
  constructor
  · rintro ⟨keeps, meets⟩
    refine ⟨fun lhs holds => ?_, fun lhs fails possible => ?_⟩
    · have range := c.number_range numeric lhs
      exact run_met numeric.comparable loaded (met_of_apply numeric (keeps _ range.1 range.2 holds))
    · have range := c.number_range numeric lhs
      obtain ⟨after, ran, clamped, _⟩ := c.run_clamps lhs numeric readable
      refine ⟨after, ran, ?_⟩
      rw [clamped]
      exact meets _ range.1 range.2 fails ((satisfiable_iff numeric).mp possible)
  · rintro ⟨keeps, meets⟩
    refine ⟨fun x lower upper holds => ?_, fun x lower upper fails possible => ?_⟩
    · obtain ⟨v, small, rfl⟩ := c.number_surjective numeric lower upper
      have stays := keeps v (by rwa [Nat.mod_eq_of_lt small])
      obtain ⟨after, ran, clamped, _⟩ := c.run_clamps v numeric readable
      obtain rfl := Except.ok.inj (stays.symm.trans ran)
      rw [Nat.mod_eq_of_lt small] at clamped
      exact clamped.symm
    · obtain ⟨v, small, rfl⟩ := c.number_surjective numeric lower upper
      obtain ⟨after, ran, holds⟩ := meets v (by rwa [Nat.mod_eq_of_lt small]) ((satisfiable_iff numeric).mpr possible)
      obtain ⟨after', ran', clamped, _⟩ := c.run_clamps v numeric readable
      obtain rfl := Except.ok.inj (ran.symm.trans ran')
      rw [clamped, Nat.mod_eq_of_lt small] at holds
      exact holds

/-- A constraint sees the heap through its right-hand side only. -/
theorem run_congr (same : c.rhs.load h' lhsType.copySize = c.rhs.load h lhsType.copySize)
    (numeric : lhsType.Numeric) : c.run h' lhsType lhs = c.run h lhsType lhs := by
  unfold run
  cases c.kind with
  | EQ => simp only [same]
  | LE | GE => simp only [constrain_eq numeric.comparable, clampWith, same]

theorem load_of_covers (covers : operand.Covers lhsType.copySize c.rhs)
    (agree : ∀ x, operand.Has x → h'.bytes x = h.bytes x ∧ h'.mapped x = h.mapped x) :
    c.rhs.load h' lhsType.copySize = c.rhs.load h lhsType.copySize := by
  cases rhs : c.rhs with
  | constant n => rfl
  | arg ptr =>
    rw [rhs] at covers
    have here : ∀ x, ptr ≤ x → x < ptr + lhsType.copySize → operand.Has x := fun x lower upper =>
      ⟨covers.1.trans lower, by have := covers.2; omega⟩
    have readable : h'.readable ptr lhsType.copySize = h.readable ptr lhsType.copySize := by
      rw [Bool.eq_iff_iff, Heap.readable_iff, Heap.readable_iff]
      exact forall₃_congr fun x lower upper => by rw [(agree x (here x lower upper)).2]
    have bytes : h'.bytes.peek ptr lhsType.copySize = h.bytes.peek ptr lhsType.copySize :=
      Image.peek_congr fun x lower upper => (agree x (here x lower upper)).1
    simp only [Rhs.load, Heap.load, readable, bytes]

/-- The heap with another byte at one place, and everything mapped. -/
def withByte (h : Heap) (place : Nat) (byte : UInt8) : Heap :=
  { h with bytes := fun x => if x = place then byte else h.bytes x, mapped := fun _ => true }

theorem found_withByte_ne {ptr place : Nat} (rhs : c.rhs = .arg ptr) (lower : ptr ≤ place)
    (upper : place < ptr + lhsType.copySize) :
    c.found (withByte h place 0) lhsType ≠ c.found (withByte h place 1) lhsType := by
  intro same
  have values := interpret_injective (c.rhs_lt _ _) (c.rhs_lt _ _) same
  have bytes : (withByte h place 0).bytes.peek ptr lhsType.copySize =
      (withByte h place 1).bytes.peek ptr lhsType.copySize := by
    have left := number_value ((withByte h place 0).bytes.peek ptr lhsType.copySize)
    have right := number_value ((withByte h place 1).bytes.peek ptr lhsType.copySize)
    rw [Image.peek_length] at left right
    simp only [rhs, Rhs.bytes] at values
    rw [← left, values, right]
  have differ := Image.peek_eq_iff.mp bytes place lower upper
  simp [withByte] at differ

/-- Only a constraint that reads nothing but the argument's bytes is independent of the others. -/
theorem confined_iff (numeric : lhsType.Numeric) (held : operand.Held h) :
    (∀ h' : Heap, (∀ x, operand.Has x → h'.bytes x = h.bytes x ∧ h'.mapped x = h.mapped x) →
      ∀ lhs, c.run h' lhsType lhs = c.run h lhsType lhs) ↔ operand.Covers lhsType.copySize c.rhs := by
  constructor
  · intro confined
    cases rhs : c.rhs with
    | constant n => trivial
    | arg ptr =>
      by_contra outside
      have positive := copySize_pos numeric
      -- one of the bytes read is not the argument's
      obtain ⟨place, lower, upper, other⟩ : ∃ x, ptr ≤ x ∧ x < ptr + lhsType.copySize ∧ ¬operand.Has x := by
        by_cases before : ptr < operand.place.1
        · exact ⟨ptr, le_rfl, by omega, fun has => by have := has.1; omega⟩
        · refine ⟨ptr + lhsType.copySize - 1, by omega, by omega, fun has => outside ⟨by omega, ?_⟩⟩
          have := has.2
          omega
      have same : ∀ byte lhs, c.run (withByte h place byte) lhsType lhs = c.run h lhsType lhs := fun byte =>
        confined _ fun x has => ⟨if_neg fun (is : x = place) => other (is ▸ has), (held x has).symm⟩
      have readable : ∀ byte, c.rhs.Readable (withByte h place byte) lhsType.copySize := by
        intro byte
        rw [rhs]
        exact Heap.readable_iff.mpr fun _ _ _ => rfl
      have ranges : ∀ byte, least (lhsType.signed c.isSigned) lhsType.copySize ≤ c.found (withByte h place byte) lhsType ∧
          c.found (withByte h place byte) lhsType ≤ greatest (lhsType.signed c.isSigned) lhsType.copySize :=
        fun byte => interpret_range positive (c.rhs_lt _ _)
      have alike : ∀ x, least (lhsType.signed c.isSigned) lhsType.copySize ≤ x →
          x ≤ greatest (lhsType.signed c.isSigned) lhsType.copySize →
          Bound.apply ⟨c.kind.rel, c.found (withByte h place 0) lhsType⟩ x =
            Bound.apply ⟨c.kind.rel, c.found (withByte h place 1) lhsType⟩ x := by
        intro x low high
        obtain ⟨v, small, rfl⟩ := c.number_surjective numeric low high
        obtain ⟨after, ran, clamped, _⟩ := c.run_clamps v numeric (readable 0)
        obtain ⟨after', ran', clamped', _⟩ := c.run_clamps v numeric (readable 1)
        rw [same] at ran ran'
        obtain rfl := Except.ok.inj (ran.symm.trans ran')
        rw [Nat.mod_eq_of_lt small] at clamped clamped'
        exact clamped.symm.trans clamped'
      exact found_withByte_ne rhs lower upper
        (Bound.rhs_unique ⟨(ranges 0).1, (ranges 1).1⟩ ⟨(ranges 0).2, (ranges 1).2⟩ alike)
  · intro covers h' agree lhs
    exact run_congr (load_of_covers covers agree) numeric

end
end Constraint

section
variable {types : List Ty} {slots addressOfArg : List Nat} {h₀ h : Heap} {uc : UserConstraint} {rhs : Rhs}
  {edges : List (Nat × Nat)} {operand : Operand} {lhsType : LhsType}

/-- What the set-up makes of a right-hand side is the constraint of what it stands for. -/
theorem makeRhs_operand (denotes : uc.rhs.Denotes types slots h operand)
    (made : makeRhs types addressOfArg h₀ uc = .ok (rhs, edges)) :
    ∃ address, (⟨uc.rel, rhs, uc.signed⟩ : Constraint) = operand.constraint uc.rel uc.signed address ∧
      ∀ i, uc.rhs = .arg i → addressOfArg[i]? = some address := by
  unfold makeRhs at made
  cases kind : uc.rhs with
  | constant n =>
    simp only [kind] at made denotes
    cases made
    cases denotes
    exact ⟨0, rfl, by simp⟩
  | recorded =>
    rw [kind] at denotes
    cases denotes
  | arg i =>
    simp only [kind] at made denotes
    obtain ⟨address, found, rest⟩ := Control.bind_eq_ok.mp made
    obtain ⟨_, _, same⟩ := Control.bind_eq_ok.mp rest
    cases same
    have listed : addressOfArg[i]? = some address := by
      unfold getAt at found
      split at found
      · rename_i is
        rw [is, Except.ok.inj found]
      · cases found
    refine ⟨address, ?_, fun j same => by cases same; exact listed⟩
    cases denotes with
    | integer _ _ => rfl
    | pointer _ _ _ => rfl

theorem readable_of_covers {c : Constraint} (held : operand.Held h) (covers : operand.Covers lhsType.copySize c.rhs) :
    c.rhs.Readable h lhsType.copySize := by
  cases rhs : c.rhs with
  | constant n => trivial
  | arg ptr =>
    rw [rhs] at covers
    refine Heap.readable_iff.mpr fun x lower upper => held x ⟨covers.1.trans lower, ?_⟩
    have := covers.2
    omega

/-- A constraint enforces its relation to the number the right-hand side stands for exactly
if it reads nothing but the argument, and what it reads is that number as near as the
left-hand side can come to it. -/
theorem bound_true_iff (operand : Operand) (kind : Kind) (isSigned : Bool) (address : Nat)
    (numeric : lhsType.Numeric) (held : operand.Held h) :
    (operand.constraint kind isSigned address).TrueTo lhsType operand h ↔
      operand.Covers lhsType.copySize (operand.constraint kind isSigned address).rhs ∧
        ((operand.constraint kind isSigned address).Satisfiable h lhsType operand →
          (operand.constraint kind isSigned address).found h lhsType =
            (operand.constraint kind isSigned address).nearest h lhsType operand) := by
  generalize operand.constraint kind isSigned address = c
  have range : least (lhsType.signed c.isSigned) lhsType.copySize ≤ c.found h lhsType ∧
      c.found h lhsType ≤ greatest (lhsType.signed c.isSigned) lhsType.copySize :=
    interpret_range (Constraint.copySize_pos numeric) (c.rhs_lt h lhsType.copySize)
  have serves : Bound.Serves ⟨c.kind.rel, c.found h lhsType⟩ (c.wanted h operand)
        (least (lhsType.signed c.isSigned) lhsType.copySize)
        (greatest (lhsType.signed c.isSigned) lhsType.copySize) ↔
      (c.Satisfiable h lhsType operand → c.found h lhsType = c.nearest h lhsType operand) := by
    rw [Constraint.satisfiable_iff numeric]
    exact Bound.serves_iff range.1 range.2
  constructor
  · rintro ⟨keeps, meets, confined⟩
    have covers := (Constraint.confined_iff numeric held).mp confined
    refine ⟨covers, serves.mp ?_⟩
    exact (Constraint.serves_iff_run numeric (readable_of_covers held covers)).mpr ⟨keeps, meets⟩
  · rintro ⟨covers, nearest⟩
    obtain ⟨keeps, meets⟩ :=
      (Constraint.serves_iff_run numeric (readable_of_covers held covers)).mp (serves.mpr nearest)
    exact ⟨keeps, meets, (Constraint.confined_iff numeric held).mpr covers⟩

/-- An argument of the left-hand side's own width is read as what it is. -/
theorem same_width_nearest {size : Nat} (numeric : (LhsType.integer size).Numeric) (kind : Kind) (isSigned : Bool)
    (slot : Nat) (h : Heap) :
    ((Operand.integer slot size).constraint kind isSigned slot).found h (.integer size) =
      ((Operand.integer slot size).constraint kind isSigned slot).nearest h (.integer size) (.integer slot size) := by
  have small := value_lt (h.bytes.peek slot size)
  rw [Image.peek_length] at small
  have range : least isSigned size ≤ interpret isSigned size (value (h.bytes.peek slot size)) ∧
      interpret isSigned size (value (h.bytes.peek slot size)) ≤ greatest isSigned size :=
    interpret_range (Constraint.copySize_pos numeric) small
  have inside : max (least isSigned size) (min (interpret isSigned size (value (h.bytes.peek slot size)))
      (greatest isSigned size)) = interpret isSigned size (value (h.bytes.peek slot size)) := by
    rw [min_eq_left range.2, max_eq_right range.1]
  exact inside.symm

end

/-- A byte with the value 10 next to one with the value 1, and a pointer to a block of two
elements at address 64. -/
def neighbours : Heap where
  bytes := Image.poke (Image.poke (fun _ => 0) 16 [10, 1]) 32 [64]
  mapped := fun x => decide (x < 128)
  blocks := [⟨64, 3, 2⟩]
  file := []

theorem word_bound_true :
    ((Operand.integer 16 4).constraint .LE true 16).TrueTo (.integer 4) (.integer 16 4) neighbours := by
  have held : (Operand.integer 16 4).Held neighbours := by
    rintro x ⟨_, upper⟩
    have below : x < 128 := by
      simp only [Operand.place] at upper
      omega
    simpa [neighbours] using below
  have numeric : (LhsType.integer 4).Numeric := .inr (.inr (.inl rfl))
  have covers : (Operand.integer 16 4).Covers 4 (.arg 16) := ⟨le_rfl, le_rfl⟩
  exact (bound_true_iff _ .LE true 16 numeric held).mpr
    ⟨covers, fun _ => same_width_nearest numeric .LE true 16 neighbours⟩

/-- `le 300` cuts the byte 100 down to 44; `le` of the byte 10 does not cut the word 100; `le`
of a pointer to two elements allows 64. -/
theorem bounds_misread :
    (((Operand.constant 300).constraint .LE false 0).run neighbours (.integer 1) 100 = .ok 44 ∧
      ¬((Operand.constant 300).constraint .LE false 0).TrueTo (.integer 1) (.constant 300) neighbours) ∧
    (((Operand.integer 16 1).constraint .LE false 16).run neighbours (.integer 4) 100 = .ok 100 ∧
      ¬((Operand.integer 16 1).constraint .LE false 16).TrueTo (.integer 4) (.integer 16 1) neighbours) ∧
    (neighbours.Points 32 2 ∧ ((Operand.pointer 32 2).constraint .LE false 32).run neighbours (.integer 4) 64 = .ok 64 ∧
      ¬((Operand.pointer 32 2).constraint .LE false 32).TrueTo (.integer 4) (.pointer 32 2) neighbours) := by
  have constant : ((Operand.constant 300).constraint .LE false 0).run neighbours (.integer 1) 100 = .ok 44 := by
    decide +kernel
  have narrow : ((Operand.integer 16 1).constraint .LE false 16).run neighbours (.integer 4) 100 = .ok 100 := by
    decide +kernel
  have pointer : ((Operand.pointer 32 2).constraint .LE false 32).run neighbours (.integer 4) 64 = .ok 64 := by
    decide +kernel
  refine ⟨⟨constant, fun enforced => ?_⟩, ⟨narrow, fun enforced => ?_⟩, ⟨⟨64, 3, 2⟩, by simp [neighbours], rfl, ?_⟩, pointer,
    fun enforced => ?_⟩
  · have stays := enforced.keeps 100 (show (100 : Int) ≤ 300 by decide)
    rw [constant] at stays
    exact absurd stays (by decide)
  · obtain ⟨after, ran, holds⟩ := enforced.meets 100 (show ¬(100 : Int) ≤ 10 by decide)
      ⟨0, by decide, show (0 : Int) ≤ 10 by decide⟩
    rw [narrow] at ran
    obtain rfl := Except.ok.inj ran
    exact absurd (show (100 : Int) ≤ 10 from holds) (by decide)
  · decide +kernel
  · obtain ⟨after, ran, holds⟩ := enforced.meets 64 (show ¬(64 : Int) ≤ 2 by decide)
      ⟨0, by decide, show (0 : Int) ≤ 2 by decide⟩
    rw [pointer] at ran
    obtain rfl := Except.ok.inj ran
    exact absurd (show (64 : Int) ≤ 2 from holds) (by decide)

end AflLive.Libgen
