import AflLive.Fuzz.Calibrate
import AflLive.Library.Lanes

/-! The functions on coverage maps as they are compiled for 64 bits: they read and write the
maps by words and skip words that are zero. `Calibrate` has what they compute byte by byte. -/
namespace AflLive.Fuzz.WordCoverage
open Calibrate Lanes

/-- `map_size` is a multiple of 64; `real_map_size` is the number of bytes the target uses. -/
structure MapSize where
  lines : Nat
  realMapSize : Nat
  real_le : realMapSize ≤ 64 * lines

abbrev MapSize.mapSize (m : MapSize) : Nat := 64 * m.lines

/-! ### Memory by words -/

section
variable {n : Nat}

def byteAt (mem : Bitmap n) (k : Nat) : BitVec 8 := if inside : k < n then (mem ⟨k, inside⟩).toBitVec else 0#8

def load64 (mem : Bitmap n) (i : Nat) : BitVec 64 := join 64 fun j => byteAt mem (8 * i + j)

def store64 (mem : Bitmap n) (i : Nat) (word : BitVec 64) : Bitmap n := fun k =>
  if k.val / 8 = i then ⟨lane 8 word (k % 8)⟩ else mem k

def load32 (mem : Bitmap n) (i : Nat) : BitVec 32 := join 32 fun j => byteAt mem (4 * i + j)

end

/-! ### Classes of counts -/

def countClassLookup8 (hits : Nat) : BitVec 8 := (countClass (UInt8.ofNat hits)).toBitVec

/-- The table `count_class_lookup16` that `init_count_class16` fills. -/
def initCountClass16 : Nat → BitVec 16 :=
  (List.range 256).foldl (fun table b1 => (List.range 256).foldl (fun table b2 =>
    Function.update table (b1 * 2 ^ 8 + b2)
      ((countClassLookup8 b1).setWidth 16 <<< 8 ||| (countClassLookup8 b2).setWidth 16)) table) fun _ => 0#16

def classifyWord (word : BitVec 64) : BitVec 64 := join 64 fun j => initCountClass16 (lane 16 word j).toNat

section
variable {n : Nat}

def classifyCounts (traceBits : Bitmap n) : Bitmap n :=
  (List.range (n / 8)).foldl (fun mem i =>
    if load64 mem i ≠ 0#64 then store64 mem i (classifyWord (load64 mem i)) else mem) traceBits

def simplifyLookup (hits : BitVec 8) : BitVec 8 := if hits = 0#8 then 1#8 else 128#8

def simplifyTrace (bytes : Bitmap n) : Bitmap n :=
  (List.range (n / 8)).foldl (fun mem i =>
    if load64 mem i ≠ 0#64 then store64 mem i (join 64 fun j => simplifyLookup (lane 8 (load64 mem i) j))
    else store64 mem i 0x0101010101010101#64) bytes

/-- The new value of `ret` and the new word of the virgin map. -/
def discoverWord (ret : Nat) (current virgin : BitVec 64) : Nat × BitVec 64 :=
  if current &&& virgin ≠ 0#64 then
    (if ret < 2 then
        if (List.range 8).any fun j => lane 8 current j != 0#8 && lane 8 virgin j == 0xff#8 then 2 else 1
      else ret,
      virgin &&& ~~~current)
  else (ret, virgin)

/-- One turn of the loop of `has_new_bits`. -/
def discoverAt (current : Bitmap n) (s : Nat × Bitmap n) (i : Nat) : Nat × Bitmap n :=
  if load64 current i ≠ 0#64 then
    let (ret, word) := discoverWord s.1 (load64 current i) (load64 s.2 i)
    (ret, store64 s.2 i word)
  else s

/-- Four words at a time, as far as there are any. -/
def skim (virgin current : Bitmap n) : Bool :=
  (List.range ((n + 31) / 32)).any fun pack => (List.range 4).any fun j =>
    load64 current (4 * pack + j) != 0#64 &&
      classifyWord (load64 current (4 * pack + j)) &&& load64 virgin (4 * pack + j) != 0#64

end

variable {m : MapSize}

def hasNewBits (current virgin : Bitmap m.mapSize) : Nat × Bitmap m.mapSize :=
  (List.range ((m.realMapSize + 7) / 8)).foldl (discoverAt current) (0, virgin)

/-- What is returned, the trace and the virgin map. -/
def hasNewBitsUnclassified (traceBits virgin : Bitmap m.mapSize) : Nat × Bitmap m.mapSize × Bitmap m.mapSize :=
  if skim virgin traceBits then
    let classified := classifyCounts traceBits
    let (ret, virgin) := hasNewBits classified virgin
    (ret, classified, virgin)
  else (0, traceBits, virgin)

/-- Four bytes at a time. -/
def countWords (counts : BitVec 8 → Bool) (mem : Bitmap m.mapSize) : Nat :=
  (List.range ((m.realMapSize + 3) / 4)).foldl (fun ret i =>
    ret + (List.range 4).countP fun j => counts (lane 8 (load32 mem i) j)) 0

def countBytes (mem : Bitmap m.mapSize) : Nat := countWords (· != 0#8) mem

/-! ### Bytes of words -/

section
variable {n : Nat} {mem : Bitmap n} {i j : Nat}

theorem byteAt_val (mem : Bitmap n) (k : Fin n) : byteAt mem k = (mem k).toBitVec := dif_pos k.isLt

theorem lane_load64 (mem : Bitmap n) (i : Nat) (low : j < 8) : lane 8 (load64 mem i) j = byteAt mem (8 * i + j) :=
  lane_join _ (by omega)

theorem lane_load32 (mem : Bitmap n) (i : Nat) (low : j < 4) : lane 8 (load32 mem i) j = byteAt mem (4 * i + j) :=
  lane_join _ (by omega)

theorem store64_load64 (mem : Bitmap n) (i : Nat) : store64 mem i (load64 mem i) = mem := by
  funext k
  unfold store64
  split
  · next at_ =>
    rw [lane_load64 mem i (Nat.mod_lt _ (by omega)), ← at_, Nat.div_add_mod, byteAt_val]
  · rfl

end

/-! ### The table -/

/-- A cell that every write to it gives the same value has it in the end, if there was a write. -/
theorem foldl_update_eq {ι κ α : Type} [DecidableEq κ] {key : ι → κ} {value : ι → α} {x : κ} {v : α} {l : List ι}
    {table : κ → α} (own : ∀ a ∈ l, key a = x → value a = v) (written : (∃ a ∈ l, key a = x) ∨ table x = v) :
    l.foldl (fun table a => Function.update table (key a) (value a)) table x = v := by
  induction l generalizing table with
  | nil =>
    rcases written with ⟨a, ⟨⟩, -⟩ | same
    exact same
  | cons a l ih =>
    refine ih (fun b member => own b (List.mem_cons_of_mem a member)) ?_
    by_cases at_ : key a = x
    · subst at_
      exact .inr ((Function.update_self ..).trans (own a List.mem_cons_self rfl))
    · rcases written with ⟨b, member, is⟩ | same
      · rcases List.mem_cons.mp member with rfl | later
        · exact absurd is at_
        · exact .inl ⟨b, later, is⟩
      · exact .inr ((Function.update_of_ne (Ne.symm at_) ..).trans same)

theorem initCountClass16_eq {x : Nat} (inside : x < 2 ^ 16) : initCountClass16 x =
    (countClassLookup8 (x / 2 ^ 8)).setWidth 16 <<< 8 ||| (countClassLookup8 (x % 2 ^ 8)).setWidth 16 := by
  have pairs : initCountClass16 = (List.range 256 ×ˢ List.range 256).foldl (fun table b =>
      Function.update table (b.1 * 2 ^ 8 + b.2)
        ((countClassLookup8 b.1).setWidth 16 <<< 8 ||| (countClassLookup8 b.2).setWidth 16)) fun _ => 0#16 := by
    simp only [initCountClass16, SProd.sprod, List.product, List.foldl_flatMap, List.foldl_map]
  rw [pairs]
  refine foldl_update_eq (fun b member is => ?_) (.inl ⟨(x / 2 ^ 8, x % 2 ^ 8), ?_, Nat.div_add_mod' x _⟩)
  · rw [List.mem_product, List.mem_range, List.mem_range] at member
    have high : x / 2 ^ 8 = b.1 := by omega
    have low : x % 2 ^ 8 = b.2 := by omega
    rw [high, low]
  · rw [List.mem_product, List.mem_range, List.mem_range]
    omega

theorem lane_initCountClass16 (x : BitVec 16) {i : Nat} (low : i < 2) :
    lane 8 (initCountClass16 x.toNat) i = countClassLookup8 (lane 8 x i).toNat := by
  have high : (lane 8 x 1).toNat = x.toNat / 2 ^ 8 := by
    simp [lane, BitVec.extractLsb'_toNat, Nat.shiftRight_eq_div_pow]
    omega
  have rest : (lane 8 x 0).toNat = x.toNat % 2 ^ 8 := by
    simp [lane, BitVec.extractLsb'_toNat]
  rw [initCountClass16_eq x.isLt]
  apply BitVec.eq_of_getLsbD_eq
  intro k inside
  obtain rfl | rfl : i = 0 ∨ i = 1 := by omega
  · rw [rest, getLsbD_lane]
    simp only [BitVec.getLsbD_or, BitVec.getLsbD_shiftLeft, BitVec.getLsbD_setWidth, Nat.mul_zero, Nat.zero_add, inside,
      show k < 16 by omega, decide_true, Bool.true_and, Bool.not_true, Bool.false_and, Bool.false_or]
  · have above : (countClassLookup8 (x.toNat % 2 ^ 8)).getLsbD (8 * 1 + k) = false :=
      BitVec.getLsbD_of_ge _ _ (by omega)
    rw [high, getLsbD_lane]
    simp only [BitVec.getLsbD_or, BitVec.getLsbD_shiftLeft, BitVec.getLsbD_setWidth, above, inside,
      show 8 * 1 + k < 16 by omega, show ¬ 8 * 1 + k < 8 by omega, show 8 * 1 + k - 8 = k by omega,
      show k < 16 by omega, decide_true, decide_false, Bool.true_and, Bool.not_false, Bool.and_false, Bool.or_false]

/-- `classify_word` classifies each of the eight bytes. -/
theorem lane_classifyWord (word : BitVec 64) {j : Nat} (low : j < 8) :
    lane 8 (classifyWord word) j = countClassLookup8 (lane 8 word j).toNat := by
  have split : j = 2 * (j / 2) + j % 2 := (Nat.div_add_mod j 2).symm
  have bit : j % 2 < 2 := Nat.mod_lt _ (by omega)
  have half {x : BitVec 64} : lane 8 x j = lane 8 (lane 16 x (j / 2)) (j % 2) := by
    rw [lane_lane (a := 8) (b := 2) bit, ← split]
  rw [half, classifyWord, lane_join _ (by omega), lane_initCountClass16 _ bit, ← half]

/-! ### Words and the bytes below them -/

section
variable {n : Nat} {mem mem' current virgin : Bitmap n} {i k : Nat}

theorem load64_congr (same : ∀ b : Fin n, b.val / 8 = i → mem b = mem' b) : load64 mem i = load64 mem' i := by
  refine lane_ext (w := 8) (by omega) fun j low => ?_
  rw [lane_load64 mem i (by omega), lane_load64 mem' i (by omega)]
  unfold byteAt
  split
  · next inside => rw [same ⟨8 * i + j, inside⟩ (show (8 * i + j) / 8 = i by omega)]
  · rfl

/-- What some byte of a word has, as a fact about the map. -/
theorem exists_lane (mem mem' : Bitmap n) {P : BitVec 8 → BitVec 8 → Prop} (fits : 8 * (i + 1) ≤ n) :
    (∃ j < 8, P (lane 8 (load64 mem i) j) (lane 8 (load64 mem' i) j)) ↔
      ∃ b : Fin n, b.val / 8 = i ∧ P (mem b).toBitVec (mem' b).toBitVec := by
  constructor
  · rintro ⟨j, low, holds⟩
    rw [lane_load64 mem i low, lane_load64 mem' i low] at holds
    refine ⟨⟨8 * i + j, by omega⟩, show (8 * i + j) / 8 = i by omega, ?_⟩
    rwa [← byteAt_val, ← byteAt_val]
  · rintro ⟨b, rfl, holds⟩
    have low : b.val % 8 < 8 := Nat.mod_lt _ (by omega)
    refine ⟨b % 8, low, ?_⟩
    rwa [lane_load64 _ _ low, lane_load64 _ _ low, Nat.div_add_mod, byteAt_val, byteAt_val]

theorem toBitVec_eq_zero {x : UInt8} : x.toBitVec = 0#8 ↔ x = 0 := by
  rw [← UInt8.toBitVec_inj]
  rfl

theorem load64_ne_zero (fits : 8 * (i + 1) ≤ n) : load64 mem i ≠ 0#64 ↔ ∃ b : Fin n, b.val / 8 = i ∧ mem b ≠ 0 := by
  rw [ne_eq, eq_zero_iff (w := 8) (by omega)]
  simp only [not_forall]
  have bytes := exists_lane mem mem (P := fun x _ => x ≠ 0#8) fits
  simp only [ne_eq, toBitVec_eq_zero] at bytes
  rw [← bytes]
  constructor
  · rintro ⟨j, low, set⟩
    exact ⟨j, by omega, set⟩
  · rintro ⟨j, low, set⟩
    exact ⟨j, by omega, set⟩

/-- Two words share a bit if two of their bytes do. -/
theorem and_ne_zero {x y : BitVec 64} : x &&& y ≠ 0#64 ↔ ∃ j < 8, lane 8 x j &&& lane 8 y j ≠ 0#8 := by
  rw [ne_eq, eq_zero_iff (w := 8) (by omega)]
  simp only [not_forall, lane_and]
  constructor
  · rintro ⟨j, low, set⟩
    exact ⟨j, by omega, set⟩
  · rintro ⟨j, low, set⟩
    exact ⟨j, by omega, set⟩

theorem toBitVec_and_eq_zero {x y : UInt8} : x.toBitVec &&& y.toBitVec = 0#8 ↔ x &&& y = 0 := by
  rw [← toBitVec_eq_zero, UInt8.toBitVec_and]

theorem fresh_iff (fits : 8 * (i + 1) ≤ n) :
    load64 current i &&& load64 virgin i ≠ 0#64 ↔ ∃ b : Fin n, b.val / 8 = i ∧ current b &&& virgin b ≠ 0 := by
  rw [and_ne_zero, exists_lane current virgin (P := fun x y => x &&& y ≠ 0#8) fits]
  simp only [ne_eq, toBitVec_and_eq_zero]

theorem pristine_iff (fits : 8 * (i + 1) ≤ n) :
    ((List.range 8).any fun j => lane 8 (load64 current i) j != 0#8 && lane 8 (load64 virgin i) j == 0xff#8) = true ↔
      ∃ b : Fin n, b.val / 8 = i ∧ current b ≠ 0 ∧ virgin b = 0xff := by
  have bytes := exists_lane current virgin (P := fun x y => x ≠ 0#8 ∧ y = 0xff#8) fits
  simp only [List.any_eq_true, List.mem_range, Bool.and_eq_true, bne_iff_ne, beq_iff_eq]
  rw [bytes]
  simp only [ne_eq, toBitVec_eq_zero, ← UInt8.toBitVec_inj]
  rfl

/-! ### Loops that rewrite a map word by word -/

theorem foldl_store64 (f : BitVec 64 → BitVec 64) (mem : Bitmap n) (k : Nat) :
    (List.range k).foldl (fun mem i => store64 mem i (f (load64 mem i))) mem =
      fun b => if b.val / 8 < k then ⟨lane 8 (f (load64 mem (b / 8))) (b % 8)⟩ else mem b := by
  induction k with
  | zero => simp
  | succ k ih =>
    rw [List.range_succ, List.foldl_append, ih, List.foldl_cons, List.foldl_nil]
    -- the loop has not come to the bytes of this word yet
    have unread : load64 (fun b : Fin n => if b.val / 8 < k then ⟨lane 8 (f (load64 mem (b / 8))) (b % 8)⟩ else mem b) k =
        load64 mem k := load64_congr fun b at_ => if_neg (by omega)
    rw [unread]
    funext b
    simp only [store64]
    by_cases at_ : b.val / 8 = k
    · rw [if_pos at_, if_pos (by omega), at_]
    · rw [if_neg at_]
      by_cases before : b.val / 8 < k
      · rw [if_pos before, if_pos (by omega)]
      · rw [if_neg before, if_neg (by omega)]

theorem countClassLookup8_toNat (x : UInt8) : countClassLookup8 x.toBitVec.toNat = (countClass x).toBitVec := by
  rw [countClassLookup8]
  exact congrArg (fun x => (countClass x).toBitVec) UInt8.ofNat_toNat

theorem countClass_eq_zero {x : UInt8} : countClass x = 0 ↔ x = 0 := by
  revert x
  decide +kernel

/-- The loop of `classify_counts` classifies every byte. -/
theorem classifyCounts_eq (whole : 8 ∣ n) (mem : Bitmap n) : classifyCounts mem = Calibrate.classifyCounts mem := by
  have body (mem : Bitmap n) (i : Nat) :
      (if load64 mem i ≠ 0#64 then store64 mem i (classifyWord (load64 mem i)) else mem) =
        store64 mem i (if load64 mem i ≠ 0#64 then classifyWord (load64 mem i) else load64 mem i) := by
    split
    · rfl
    · exact (store64_load64 mem i).symm
  unfold classifyCounts
  simp only [body]
  rw [foldl_store64 fun word => if word ≠ 0#64 then classifyWord word else word]
  funext b
  have low : b.val % 8 < 8 := Nat.mod_lt _ (by omega)
  have here : lane 8 (load64 mem (b.val / 8)) (b.val % 8) = (mem b).toBitVec := by
    rw [lane_load64 _ _ low, Nat.div_add_mod, byteAt_val]
  rw [if_pos (by omega), Calibrate.classifyCounts, ← UInt8.toBitVec_inj]
  show lane 8 _ _ = _
  split
  · rw [lane_classifyWord _ low, here, countClassLookup8_toNat]
  · next zero =>
    rw [not_not] at zero
    rw [zero, lane_zero] at here
    rw [zero, lane_zero, eq_comm, toBitVec_eq_zero, countClass_eq_zero]
    exact toBitVec_eq_zero.mp here.symm

theorem simplifyTrace_eq (whole : 8 ∣ n) (bytes : Bitmap n) :
    simplifyTrace bytes = fun b => if bytes b = 0 then 1 else 128 := by
  have body (mem : Bitmap n) (i : Nat) :
      (if load64 mem i ≠ 0#64 then store64 mem i (join 64 fun j => simplifyLookup (lane 8 (load64 mem i) j))
        else store64 mem i 0x0101010101010101#64) =
      store64 mem i (if load64 mem i ≠ 0#64 then join 64 fun j => simplifyLookup (lane 8 (load64 mem i) j)
        else 0x0101010101010101#64) := by
    split <;> rfl
  unfold simplifyTrace
  simp only [body]
  rw [foldl_store64 fun word => if word ≠ 0#64 then join 64 fun j => simplifyLookup (lane 8 word j)
    else 0x0101010101010101#64]
  funext b
  have low : b.val % 8 < 8 := Nat.mod_lt _ (by omega)
  have here : lane 8 (load64 bytes (b.val / 8)) (b.val % 8) = (bytes b).toBitVec := by
    rw [lane_load64 _ _ low, Nat.div_add_mod, byteAt_val]
  rw [if_pos (by omega), ← UInt8.toBitVec_inj]
  show lane 8 _ _ = _
  split
  · rw [lane_join _ (by omega), here, simplifyLookup]
    simp only [toBitVec_eq_zero]
    split <;> rfl
  · next zero =>
    rw [not_not] at zero
    rw [zero, lane_zero] at here
    rw [if_pos (toBitVec_eq_zero.mp here.symm)]
    generalize b.val % 8 = j at low
    revert j
    decide

/-! ### The loop of `has_new_bits` -/

/-- The first bytes of a map, with zeros behind them. -/
def upto (k : Nat) (mem : Bitmap n) : Bitmap n := fun b => if b.val < k then mem b else 0

theorem upto_here {b : Fin n} (at_ : b.val / 8 = k) (mem : Bitmap n) :
    upto (8 * k) mem b = 0 ∧ upto (8 * (k + 1)) mem b = mem b :=
  ⟨if_neg (by omega), if_pos (by omega)⟩

theorem upto_elsewhere {b : Fin n} (other : b.val / 8 ≠ k) (mem : Bitmap n) :
    upto (8 * (k + 1)) mem b = upto (8 * k) mem b := by
  unfold upto
  by_cases before : b.val < 8 * k
  · rw [if_pos before, if_pos (by omega)]
  · rw [if_neg before, if_neg (by omega)]

/-- One more word adds what its bytes have. -/
theorem exists_upto {P : UInt8 → UInt8 → Prop} (zero : ∀ y, ¬ P 0 y) (mem mem' : Bitmap n) (k : Nat) :
    (∃ b, P (upto (8 * (k + 1)) mem b) (mem' b)) ↔
      (∃ b, P (upto (8 * k) mem b) (mem' b)) ∨ ∃ b : Fin n, b.val / 8 = k ∧ P (mem b) (mem' b) := by
  constructor
  · rintro ⟨b, holds⟩
    by_cases at_ : b.val / 8 = k
    · exact .inr ⟨b, at_, (upto_here at_ mem).2 ▸ holds⟩
    · exact .inl ⟨b, upto_elsewhere at_ mem ▸ holds⟩
  · rintro (⟨b, holds⟩ | ⟨b, at_, holds⟩)
    · by_cases at_ : b.val / 8 = k
      · rw [(upto_here at_ mem).1] at holds
        exact absurd holds (zero _)
      · exact ⟨b, (upto_elsewhere at_ mem).symm ▸ holds⟩
    · exact ⟨b, (upto_here at_ mem).2.symm ▸ holds⟩

theorem and_not_zero (x : UInt8) : x &&& ~~~0 = x := by
  rw [← UInt8.toBitVec_inj]
  simp

theorem and_not_of_disjoint {x y : UInt8} (disjoint : x &&& y = 0) : y &&& ~~~x = y := by
  rw [← toBitVec_and_eq_zero] at disjoint
  rw [← UInt8.toBitVec_inj, UInt8.toBitVec_and, UInt8.toBitVec_not]
  apply BitVec.eq_of_getLsbD_eq
  intro i low
  have bit := congrArg (·.getLsbD i) disjoint
  simp only [BitVec.getLsbD_and, BitVec.getLsbD_zero] at bit
  simp only [BitVec.getLsbD_and, BitVec.getLsbD_not, low, decide_true, Bool.true_and]
  revert bit
  cases x.toBitVec.getLsbD i <;> simp

/-- What the turn at a word makes of the virgin map. -/
theorem discoverAt_map (current : Bitmap n) (ret : Nat) (virgin : Bitmap n) (fits : 8 * (k + 1) ≤ n) :
    (discoverAt current (ret, virgin) k).2 = fun b => if b.val / 8 = k then virgin b &&& ~~~current b else virgin b := by
  have idle (disjoint : ∀ b : Fin n, b.val / 8 = k → current b &&& virgin b = 0) :
      virgin = fun b => if b.val / 8 = k then virgin b &&& ~~~current b else virgin b := by
    funext b
    split
    · next at_ => exact (and_not_of_disjoint (disjoint b at_)).symm
    · rfl
  unfold discoverAt discoverWord
  dsimp only
  split
  · split
    · funext b
      simp only [store64]
      split
      · next at_ =>
        have low : b.val % 8 < 8 := Nat.mod_lt _ (by omega)
        rw [← UInt8.toBitVec_inj, UInt8.toBitVec_and, UInt8.toBitVec_not]
        show lane 8 _ _ = _
        rw [lane_and, lane_not (by omega), lane_load64 _ _ low, lane_load64 _ _ low, ← at_, Nat.div_add_mod,
          byteAt_val, byteAt_val]
      · rfl
    · next none =>
      rw [store64_load64]
      exact idle fun b at_ => by_contra fun shared => none ((fresh_iff fits).mpr ⟨b, at_, shared⟩)
  · next zero =>
    refine idle fun b at_ => ?_
    have byte : current b = 0 := by_contra fun set => zero ((load64_ne_zero fits).mpr ⟨b, at_, set⟩)
    rw [byte, UInt8.zero_and]

/-- What the turn at a word makes of `ret`. -/
theorem discoverAt_ret (current : Bitmap n) (ret : Nat) (virgin : Bitmap n) (fits : 8 * (k + 1) ≤ n) :
    (discoverAt current (ret, virgin) k).1 =
      if ∃ b : Fin n, b.val / 8 = k ∧ current b &&& virgin b ≠ 0 then
        if ret < 2 then if ∃ b : Fin n, b.val / 8 = k ∧ current b ≠ 0 ∧ virgin b = 0xff then 2 else 1 else ret
      else ret := by
  unfold discoverAt discoverWord
  dsimp only
  simp only [fresh_iff fits, pristine_iff fits, load64_ne_zero fits]
  split
  · split <;> rfl
  · next zero =>
    rw [if_neg]
    rintro ⟨b, at_, shared⟩
    refine zero ⟨b, at_, fun byte => shared ?_⟩
    rw [byte, UInt8.zero_and]

theorem pristine_fresh {x y : UInt8} (set : x ≠ 0) (pristine : y = 0xff) : x &&& y ≠ 0 := by
  subst pristine
  revert x
  decide +kernel

theorem discoverAt_eq (current virgin : Bitmap n) (fits : 8 * (k + 1) ≤ n) :
    discoverAt current (Calibrate.hasNewBits (upto (8 * k) current) virgin) k =
      Calibrate.hasNewBits (upto (8 * (k + 1)) current) virgin := by
  have later (b : Fin n) (at_ : b.val / 8 = k) : (Calibrate.hasNewBits (upto (8 * k) current) virgin).2 b = virgin b := by
    show virgin b &&& ~~~upto (8 * k) current b = virgin b
    rw [(upto_here at_ current).1, and_not_zero]
  have here {P : UInt8 → UInt8 → Prop} :
      (∃ b : Fin n, b.val / 8 = k ∧ P (current b) ((Calibrate.hasNewBits (upto (8 * k) current) virgin).2 b)) ↔
        ∃ b : Fin n, b.val / 8 = k ∧ P (current b) (virgin b) :=
    exists_congr fun b => and_congr_right fun at_ => by rw [later b at_]
  apply Prod.ext
  · rw [← Prod.eta (Calibrate.hasNewBits (upto (8 * k) current) virgin), discoverAt_ret current _ _ fits]
    have fresh := exists_upto (P := fun x y => x &&& y ≠ 0) (by simp) current virgin k
    have pristine := exists_upto (P := fun x y => x ≠ 0 ∧ y = 0xff) (by simp) current virgin k
    have implied : (∃ b : Fin n, b.val / 8 = k ∧ current b ≠ 0 ∧ virgin b = 0xff) →
        ∃ b : Fin n, b.val / 8 = k ∧ current b &&& virgin b ≠ 0 :=
      fun ⟨b, at_, set, full⟩ => ⟨b, at_, pristine_fresh set full⟩
    have freshHere : (∃ b : Fin n, b.val / 8 = k ∧
        current b &&& (Calibrate.hasNewBits (upto (8 * k) current) virgin).2 b ≠ 0) ↔
          ∃ b : Fin n, b.val / 8 = k ∧ current b &&& virgin b ≠ 0 := here (P := fun x y => x &&& y ≠ 0)
    have pristineHere : (∃ b : Fin n, b.val / 8 = k ∧
        current b ≠ 0 ∧ (Calibrate.hasNewBits (upto (8 * k) current) virgin).2 b = 0xff) ↔
          ∃ b : Fin n, b.val / 8 = k ∧ current b ≠ 0 ∧ virgin b = 0xff := here (P := fun x y => x ≠ 0 ∧ y = 0xff)
    simp only [freshHere, pristineHere]
    simp only [Calibrate.hasNewBits, fresh, pristine]
    by_cases p : ∃ b : Fin n, b.val / 8 = k ∧ current b ≠ 0 ∧ virgin b = 0xff
    · have f := implied p
      by_cases P : ∃ b, upto (8 * k) current b ≠ 0 ∧ virgin b = 0xff <;>
        by_cases F : ∃ b, upto (8 * k) current b &&& virgin b ≠ 0 <;>
        simp only [p, f, P, F, if_true, if_false, or_true, lt_self_iff_false, Nat.one_lt_ofNat, Nat.zero_lt_two]
    · by_cases f : ∃ b : Fin n, b.val / 8 = k ∧ current b &&& virgin b ≠ 0 <;>
        by_cases P : ∃ b, upto (8 * k) current b ≠ 0 ∧ virgin b = 0xff <;>
        by_cases F : ∃ b, upto (8 * k) current b &&& virgin b ≠ 0 <;>
        simp only [p, f, P, F, if_true, if_false, or_true, or_false, lt_self_iff_false, Nat.one_lt_ofNat, Nat.zero_lt_two]
  · rw [← Prod.eta (Calibrate.hasNewBits (upto (8 * k) current) virgin), discoverAt_map current _ _ fits]
    funext b
    show _ = virgin b &&& ~~~upto (8 * (k + 1)) current b
    split
    · next at_ => rw [later b at_, (upto_here at_ current).2]
    · next other => rw [upto_elsewhere other]; rfl

theorem upto_zero (mem : Bitmap n) : upto 0 mem = fun _ => 0 := by
  funext b
  exact if_neg (Nat.not_lt_zero _)

/-- The loop by words finds what the bytes have. -/
theorem foldl_discoverAt (current virgin : Bitmap n) (fits : 8 * k ≤ n) :
    (List.range k).foldl (discoverAt current) (0, virgin) = Calibrate.hasNewBits (upto (8 * k) current) virgin := by
  induction k with
  | zero =>
    have nothing : virgin = fun b => virgin b &&& ~~~0 := funext fun b => (and_not_zero (virgin b)).symm
    rw [upto_zero, Calibrate.hasNewBits, ← nothing]
    simp
  | succ k ih =>
    rw [List.range_succ, List.foldl_append, ih (by omega)]
    exact discoverAt_eq current virgin fits

/-! ### `skim` -/

theorem classified_iff (fits : 8 * (i + 1) ≤ n) : classifyWord (load64 current i) &&& load64 virgin i ≠ 0#64 ↔
    ∃ b : Fin n, b.val / 8 = i ∧ countClass (current b) &&& virgin b ≠ 0 := by
  rw [and_ne_zero]
  have lanes : (∃ j < 8, lane 8 (classifyWord (load64 current i)) j &&& lane 8 (load64 virgin i) j ≠ 0#8) ↔
      ∃ j < 8, countClassLookup8 (lane 8 (load64 current i) j).toNat &&& lane 8 (load64 virgin i) j ≠ 0#8 :=
    exists_congr fun j => and_congr_right fun low => by rw [lane_classifyWord _ low]
  rw [lanes, exists_lane current virgin (P := fun x y => countClassLookup8 x.toNat &&& y ≠ 0#8) fits]
  simp only [countClassLookup8_toNat, ne_eq, toBitVec_and_eq_zero]

theorem skim_iff (whole : 32 ∣ n) (virgin current : Bitmap n) :
    skim virgin current = true ↔ ∃ b, Calibrate.classifyCounts current b &&& virgin b ≠ 0 := by
  simp only [skim, List.any_eq_true, List.mem_range, Bool.and_eq_true, bne_iff_ne, Calibrate.classifyCounts]
  constructor
  · rintro ⟨pack, inside, j, low, -, shared⟩
    obtain ⟨b, -, set⟩ := (classified_iff (by omega)).mp shared
    exact ⟨b, set⟩
  · rintro ⟨b, set⟩
    have word : 4 * (b.val / 8 / 4) + b.val / 8 % 4 = b.val / 8 := Nat.div_add_mod _ _
    have inside := b.isLt
    have fits : 8 * (b.val / 8 + 1) ≤ n := by omega
    refine ⟨b / 8 / 4, by omega, b / 8 % 4, by omega, ?_, ?_⟩
    · rw [word, load64_ne_zero fits]
      refine ⟨b, rfl, fun zero => set ?_⟩
      rw [countClass_eq_zero.mpr zero, UInt8.zero_and]
    · rw [word, classified_iff fits]
      exact ⟨b, rfl, set⟩

end

/-! ### Against the bytes -/

theorem hasNewBits_eq (current virgin : Bitmap m.mapSize) :
    hasNewBits current virgin = Calibrate.hasNewBits (upto (8 * ((m.realMapSize + 7) / 8)) current) virgin := by
  have fits := m.real_le
  exact foldl_discoverAt current virgin (show _ ≤ 64 * m.lines by omega)

/-- Nothing shared, nothing found. -/
theorem hasNewBits_disjoint {n : Nat} {current virgin : Bitmap n} (disjoint : ∀ b, current b &&& virgin b = 0) :
    Calibrate.hasNewBits current virgin = (0, virgin) := by
  unfold Calibrate.hasNewBits
  rw [if_neg, if_neg]
  · exact Prod.ext rfl (funext fun b => and_not_of_disjoint (disjoint b))
  · exact fun ⟨b, shared⟩ => shared (disjoint b)
  · exact fun ⟨b, set, full⟩ => pristine_fresh set full (disjoint b)

/-- The scan by words that leaves most traces alone returns, and makes of the virgin map, what
the classified bytes would; what it reports has been classified. -/
theorem hasNewBitsUnclassified_eq (traceBits virgin : Bitmap m.mapSize) :
    let r := hasNewBitsUnclassified traceBits virgin
    (r.1, r.2.2) =
      Calibrate.hasNewBits (upto (8 * ((m.realMapSize + 7) / 8)) (Calibrate.classifyCounts traceBits)) virgin ∧
    (r.2.1 = Calibrate.classifyCounts traceBits ∨ r.1 = 0 ∧ r.2.1 = traceBits) := by
  have whole : 8 ∣ m.mapSize := ⟨8 * m.lines, by rw [MapSize.mapSize]; omega⟩
  unfold hasNewBitsUnclassified
  split
  · dsimp only
    rw [classifyCounts_eq whole, hasNewBits_eq]
    exact ⟨rfl, .inl rfl⟩
  · next none =>
    refine ⟨(hasNewBits_disjoint fun b => ?_).symm, .inr ⟨rfl, rfl⟩⟩
    rw [skim_iff ⟨2 * m.lines, by rw [MapSize.mapSize]; omega⟩] at none
    unfold upto
    split
    · exact by_contra fun shared => none ⟨b, shared⟩
    · exact UInt8.zero_and

/-! ### Counting bytes -/

theorem countWords_eq (counts : BitVec 8 → Bool) (mem : Bitmap m.mapSize) :
    countWords counts mem = (List.range (4 * ((m.realMapSize + 3) / 4))).countP fun b => counts (byteAt mem b) := by
  unfold countWords
  generalize (m.realMapSize + 3) / 4 = k
  induction k with
  | zero => rfl
  | succ k ih =>
    have lanes : (List.range 4).countP (fun j => counts (lane 8 (load32 mem k) j)) =
        (List.range 4).countP fun j => counts (byteAt mem (4 * k + j)) :=
      List.countP_congr fun j member => by rw [lane_load32 mem k (List.mem_range.mp member)]
    rw [List.range_succ (n := k), List.foldl_append, ih, List.foldl_cons, List.foldl_nil, lanes, Nat.mul_succ,
      List.range_add, List.countP_append, List.countP_map]
    rfl

theorem countP_upto {n k : Nat} (inside : k ≤ n) (mem : Bitmap n) :
    ((List.range k).countP fun b => byteAt mem b != 0#8) = Calibrate.countBytes (upto k mem) := by
  have bytes : Calibrate.countBytes (upto k mem) =
      (List.range n).countP fun b => decide (b < k) && byteAt mem b != 0#8 := by
    rw [Calibrate.countBytes, ← List.map_coe_finRange_eq_range, List.countP_map]
    refine List.countP_congr fun b _ => ?_
    simp only [Function.comp_apply, upto, byteAt_val, Bool.and_eq_true, decide_eq_true_eq, bne_iff_ne, ne_eq,
      toBitVec_eq_zero]
    split <;> simp [*]
  have split : List.range n = List.range k ++ (List.range (n - k)).map (k + ·) := by
    rw [← List.range_add, Nat.add_sub_cancel' inside]
  rw [bytes, split, List.countP_append, List.countP_map]
  have first : (List.range k).countP (fun b => decide (b < k) && byteAt mem b != 0#8) =
      (List.range k).countP fun b => byteAt mem b != 0#8 :=
    List.countP_congr fun b member => by simp [List.mem_range.mp member]
  have rest : (List.range (n - k)).countP ((fun b => decide (b < k) && byteAt mem b != 0#8) ∘ (k + ·)) = 0 :=
    List.countP_eq_zero.mpr fun b _ => by simp
  rw [first, rest, Nat.add_zero]

/-- `count_bytes` counts the bytes of the first words. -/
theorem countBytes_eq (mem : Bitmap m.mapSize) :
    countBytes mem = Calibrate.countBytes (upto (4 * ((m.realMapSize + 3) / 4)) mem) := by
  have fits := m.real_le
  exact (countWords_eq _ mem).trans (countP_upto (show _ ≤ 64 * m.lines by omega) mem)

end AflLive.Fuzz.WordCoverage
