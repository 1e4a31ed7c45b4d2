import AflLive.Common
import AflLive.Library.Delimited

/-! How the fuzzer names its files after their targets, and how `afl-fuzz.h` gets a
target back from a file name. -/
namespace AflLive.Fuzz

def dash : UInt8 := 45

def digits (n : Nat) : Name := (Nat.toDigits 10 n).map fun c => UInt8.ofNat c.toNat

/-- `%06u`. -/
def pad6 (n : Nat) : Name := List.leftpad 6 48 (digits n)

/-- The names of `save_if_interesting`; `pivot_inputs` invents its own in the same form.
The note is what stands behind the number. -/
def caseName (target : Name) (id : Nat) (note : Name) : Name :=
  target ++ ascii "-id:" ++ pad6 id ++ ascii "," ++ note

/-- What `sscanf` takes for a digit, a sign or white space. -/
def isDigit (c : UInt8) : Bool := 48 ≤ c && c ≤ 57

def isSpace (c : UInt8) : Bool := c == 32 || 9 ≤ c && c ≤ 13

def decimalValue (text : Name) : Nat := text.foldl (fun n c => 10 * n + (c.toNat - 48)) 0

/-- `sscanf(text, "%06u", &id)`: a number of at most six characters, sign included. -/
def scan6 (text : Name) : Option Nat :=
  let field := (text.dropWhile isSpace).take 6
  let unsigned := if field.head? = some 43 ∨ field.head? = some dash then field.tail else field
  let number := unsigned.takeWhile isDigit
  if number = [] then none
  else if field.head? = some dash then some ((2 ^ 32 - decimalValue number) % 2 ^ 32)
  else some (decimalValue number)

/-- The part in front of the first dash. -/
def front (name : Name) : Name := name.takeWhile (· ≠ dash)

/-- `getTargetName`: the name in front of the first dash. Without a dash the length is
computed from a null pointer; there is no result then. -/
def getTargetName (fnName : Name) : Option Name :=
  if dash ∈ fnName then some (front fnName) else none

/-- `getTargetIdx`: the first target of that name; 0 if there is none. -/
def getTargetIdx (targetNames : List Name) (fnName : Name) : Nat :=
  if fnName ∈ targetNames then targetNames.idxOf fnName else 0

theorem pad6_length (n : Nat) : 6 ≤ (pad6 n).length := by
  rw [pad6, List.length_leftpad]
  exact le_max_left _ _

theorem isDigit_of_mem_digits {n : Nat} {c : UInt8} (inside : c ∈ digits n) : isDigit c = true := by
  obtain ⟨d, written, rfl⟩ := List.mem_map.mp inside
  have digit := Nat.isDigit_of_mem_toDigits (by decide) (by decide) written
  rw [Char.isDigit_iff_toNat] at digit
  have low : 48 ≤ d.toNat := digit.1
  have high : d.toNat ≤ 57 := digit.2
  have same : (UInt8.ofNat d.toNat).toNat = d.toNat := 
    UInt8.toNat_ofNat_of_lt' (Nat.lt_of_le_of_lt high (by decide))
  simp [isDigit, UInt8.le_iff_toNat_le, same, low, high]

theorem isDigit_of_mem_pad6 {n : Nat} {c : UInt8} (inside : c ∈ pad6 n) : isDigit c = true := by
  rw [pad6, List.leftpad, List.mem_append, List.mem_replicate] at inside
  cases inside with
  | inl zero => exact zero.2 ▸ rfl
  | inr inside => exact isDigit_of_mem_digits inside

theorem front_append (target rest : Name) : front (target ++ dash :: rest) = front target := by
  rw [front, front, List.takeWhile_append]
  split
  · next whole =>
    rw [List.takeWhile_cons_of_neg (by simp), (List.takeWhile_prefix _).eq_of_length whole, List.append_nil]
  · rfl

theorem dash_notMem_front (name : Name) : dash ∉ front name := by
  intro inside
  exact absurd (List.mem_takeWhile_imp inside) (by simp)

theorem front_eq_self_iff {name : Name} : front name = name ↔ dash ∉ name := by
  constructor
  · intro same
    exact same ▸ dash_notMem_front name
  · intro free
    rw [front, List.takeWhile_eq_self_iff]
    exact Delimited.ne_of_free free

/-- The name that comes back is the one that was written, unless it holds a dash itself. -/
theorem getTargetName_written (target rest : Name) :
    getTargetName (target ++ dash :: rest) = some (front target) := by
  rw [getTargetName, if_pos (by simp), front_append]

theorem getTargetName_caseName (target : Name) (id : Nat) (note : Name) :
    getTargetName (caseName target id note) = some (front target) := by
  simp only [caseName, List.append_assoc]
  exact getTargetName_written _ _

theorem getTargetName_eq_some {file name : Name} (parsed : getTargetName file = some name) :
    dash ∉ name := by
  rw [getTargetName, Option.ite_none_right_eq_some] at parsed
  exact Option.some.inj parsed.2 ▸ dash_notMem_front file

end AflLive.Fuzz
