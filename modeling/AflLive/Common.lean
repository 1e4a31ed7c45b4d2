import Mathlib

/-! What the components share: C strings as the byte lists in front of their
terminator, the name comparison of `utils_common.h`, and the size limits of
`config.h`. -/
namespace AflLive

/-- `MAX_FILE`. -/
def maxFile : Nat := 25 * 1024 * 1024

abbrev Name := List UInt8

instance : LawfulBEq Name := inferInstance

def ascii (s : String) : Name := s.toList.map fun c => UInt8.ofNat c.toNat

def colon : UInt8 := 58

def slash : UInt8 := 47

/-- `[module:]function` cut at the first colon; the module may be empty. -/
def splitColon (name : Name) : Name × Name :=
  if colon ∈ name then (name.takeWhile (· ≠ colon), (name.dropWhile (· ≠ colon)).drop 1) else ([], name)

/-- A relative module name stands for every absolute path that ends in it. -/
def areModulesEquivalent (a b : Name) : Bool :=
  let relative := fun a b : Name =>
    a.head? == some slash && b ≠ [] && b.head? != some slash && (slash :: b).isSuffixOf a
  a == b || relative a b || relative b a

def areModuleColonFunctionNamesEquivalent (a b : Name) : Bool :=
  let (aMod, aFunc) := splitColon a
  let (bMod, bFunc) := splitColon b
  (if aMod ≠ [] ∧ bMod ≠ [] then areModulesEquivalent aMod bMod else true) && aFunc == bFunc

/-- `strstr` and `std::string::find`: the pattern starts somewhere in the text. -/
def contains (text pattern : Name) : Bool := text.tails.any fun rest => pattern.isPrefixOf rest

theorem contains_iff {text pattern : Name} : contains text pattern = true ↔ pattern <:+: text := by
  simp only [contains, List.any_eq_true, List.mem_tails, List.isPrefixOf_iff_prefix]
  constructor
  · rintro ⟨rest, suffix, start⟩
    exact start.isInfix.trans suffix.isInfix
  · intro inside
    obtain ⟨rest, start, suffix⟩ := List.infix_iff_prefix_suffix.mp inside
    exact ⟨rest, suffix, start⟩

/-- `next_pow2` on a `size_t`. -/
def nextPow2 (n : Nat) : Nat :=
  let out := (n + (2 ^ 64 - 1)) % 2 ^ 64
  let out := out ||| out >>> 1
  let out := out ||| out >>> 2
  let out := out ||| out >>> 4
  let out := out ||| out >>> 8
  let out := out ||| out >>> 16
  (out + 1) % 2 ^ 64

end AflLive
