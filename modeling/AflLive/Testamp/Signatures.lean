import AflLive.Testamp.FuzzLog

/-! The signatures in the log: the pass of `testamp` writes them, and `setup_fuzzers.py` searches
them for the names of the targets. -/
namespace AflLive.Testamp
open Delimited

/-- An argument as LLVM prints it; it may have no name. -/
structure Argument where
  type : List Char
  name : Option (List Char)

structure Function where
  returnType : List Char
  name : List Char
  args : List Argument

/-- A module, with its constants. -/
structure Module where
  name : List Char
  globals : List (List Char × List Char)

def Argument.text (arg : Argument) : List Char :=
  arg.type ++ match arg.name with
    | some name => ' ' :: name
    | none => []

/-- The text, and the module with the constant; an old constant is used again. -/
def getFunctionSignatureConstant (demangle : List Char → List Char) (M : Module) (f : Function) (extras : List Char) :
    List Char × Module :=
  let globalName := "__function_signature_".toList ++ f.name
  match M.globals.lookup globalName with
  | some res => (res, M)
  | none =>
    let signature := f.returnType ++ " ".toList ++ M.name ++ ":".toList ++ demangle f.name ++ " (".toList ++
      f.args.flatMap fun arg => arg.text ++ ", ".toList
    let signature := signature.dropLast.dropLast ++ ")".toList ++ extras
    (signature, { M with globals := (globalName, signature) :: M.globals })

/-! ### The text of a signature -/

/-- `module:name` -/
def qualified (M : Module) (f : Function) : List Char := M.name ++ ':' :: f.name

/-- The list of parameters, with its parentheses. -/
def Function.parameters (f : Function) : List Char :=
  '(' :: (", ".toList.intercalate (f.args.map Argument.text) ++ [')'])

section
variable {demangle : List Char → List Char} {M : Module} {f : Function}

theorem dropLast_dropLast (text : List Char) (a b : Char) : (text ++ [a, b]).dropLast.dropLast = text := by
  have parts : text ++ [a, b] = text ++ [a] ++ [b] := by simp
  rw [parts, List.dropLast_concat, List.dropLast_concat]

theorem flatMap_ended {texts : List (List Char)} (some : texts ≠ []) :
    texts.flatMap (· ++ ", ".toList) = ", ".toList.intercalate texts ++ ", ".toList := by
  induction texts with
  | nil => exact absurd rfl some
  | cons first rest ih =>
    cases rest with
    | nil => simp
    | cons second rest =>
      rw [List.flatMap_cons, ih (by simp)]
      simp

variable (unmangled : demangle f.name = f.name)
  (built : M.globals.lookup ("__function_signature_".toList ++ f.name) = none)
include unmangled built

/-- The last separator is taken away again. -/
theorem signature_eq (some : f.args ≠ []) :
    (getFunctionSignatureConstant demangle M f []).1 =
      f.returnType ++ ' ' :: (qualified M f ++ ' ' :: f.parameters) := by
  have ended := @flatMap_ended (f.args.map Argument.text) (by simpa using some)
  rw [List.flatMap_map] at ended
  unfold getFunctionSignatureConstant
  dsimp only
  rw [built]
  dsimp only
  have pair : ", ".toList = [',', ' '] := rfl
  rw [unmangled, ended, ← List.append_assoc, pair, dropLast_dropLast]
  simp [qualified, Function.parameters]

/-- Without arguments, the opening parenthesis is taken for the last separator. -/
theorem signature_eq_of_nil (none : f.args = []) :
    (getFunctionSignatureConstant demangle M f []).1 = f.returnType ++ ' ' :: (qualified M f ++ [')']) := by
  unfold getFunctionSignatureConstant
  dsimp only
  rw [built]
  dsimp only
  have pair : " (".toList = [' ', '('] := rfl
  rw [unmangled, none, List.flatMap_nil, List.append_nil, List.append_nil, pair, dropLast_dropLast]
  simp [qualified]

end

/-! ### The search -/

/-- The search of `isTargetInSignature`, in a part of a signature with the blanks around it. -/
def Occurs (target text : List Char) : Prop :=
  ' ' :: (target ++ [' ']) <:+: text ∨ ':' :: (target ++ [' ']) <:+: text

theorem isTargetInSignature_iff {target signature : List Char} :
    isTargetInSignature target signature = true ↔ Occurs target signature := by
  simp [isTargetInSignature, Occurs]

/-- The target is the function's, by its name or with its module. -/
def Identifies (target : List Char) (M : Module) (f : Function) : Prop := target = f.name ∨ target = qualified M f

/-- The text ends in the target, behind a blank or a colon. -/
def Behind (target text : List Char) : Prop := ' ' :: target <:+ text ∨ ':' :: target <:+ text

/-- The places at which the search finds a target other than as the name of the function, with its
module or without: in front of a blank of the return type or of the module; in front of the blank
behind the name, where the target begins further ahead than the module or within it; or in front of
a blank of the parameters. -/
inductive Stray (target : List Char) (M : Module) (f : Function) : Prop where
  | before (found : Occurs target (f.returnType ++ ' ' :: M.name))
  | fromModule {rest} (some : f.args ≠ []) (part : Behind rest M.name) (same : target = rest ++ ':' :: f.name)
  | fromReturnType {rest} (some : f.args ≠ []) (part : Behind rest f.returnType)
      (same : target = rest ++ ' ' :: qualified M f)
  | parameters {front} (some : f.args ≠ []) (blank : front ++ [' '] <+: f.parameters)
      (found : Behind target (f.returnType ++ ' ' :: (qualified M f ++ ' ' :: front)))

section
variable {target first second : List Char} {M : Module} {f : Function}

theorem occurs_iff {text : List Char} :
    Occurs target text ↔ ∃ front, front ++ [' '] <+: text ∧ Behind target front := by
  have blank := @ended_infix_iff _ ' ' (' ' :: target) text
  have colon := @ended_infix_iff _ ' ' (':' :: target) text
  rw [List.cons_append] at blank colon
  rw [Occurs, blank, colon, ← exists_or]
  exact exists_congr fun front => (and_or_left).symm

theorem occurs_append_free (free : ' ' ∉ second) : Occurs target (first ++ second) ↔ Occurs target first := by
  simp only [occurs_iff, front_append_free free]

/-- A blank divides the search: in front of it, at it, and behind it. -/
theorem occurs_split : Occurs target (first ++ ' ' :: second) ↔ Occurs target first ∨ Behind target first ∨
    ∃ front, front ++ [' '] <+: second ∧ Behind target (first ++ ' ' :: front) := by
  simp only [occurs_iff, front_split, or_and_right, exists_or, exists_eq_left]
  refine or_congr_right (or_congr_right ⟨?_, ?_⟩)
  · rintro ⟨_, ⟨front, rfl, blank⟩, found⟩
    exact ⟨front, blank, found⟩
  · rintro ⟨front, blank, found⟩
    exact ⟨_, ⟨front, rfl, blank⟩, found⟩

theorem behind_append : Behind target (first ++ second) ↔
    Behind target second ∨ ∃ rest, Behind rest first ∧ target = rest ++ second := by
  simp only [Behind, suffix_append_iff, or_and_right, exists_or]
  exact or_or_or_comm

theorem behind_colon (free : ' ' ∉ second) (solid : ':' ∉ second) :
    Behind target (':' :: second) ↔ target = second := by
  simp [Behind, List.suffix_cons_iff, not_suffix_of_free free, not_suffix_of_free solid]

theorem behind_blank : Behind target (' ' :: second) ↔ target = second ∨ Behind target second := by
  simp [Behind, List.suffix_cons_iff, or_assoc]

/-- In front of the blank behind the name of the function. -/
theorem behind_name (solidName : ' ' ∉ f.name ∧ ':' ∉ f.name) :
    Behind target (f.returnType ++ ' ' :: qualified M f) ↔ Identifies target M f ∨
      (∃ rest, Behind rest M.name ∧ target = rest ++ ':' :: f.name) ∨
      ∃ rest, Behind rest f.returnType ∧ target = rest ++ ' ' :: qualified M f := by
  have inside : Behind target (qualified M f) ↔
      target = f.name ∨ ∃ rest, Behind rest M.name ∧ target = rest ++ ':' :: f.name := by
    rw [qualified, behind_append, behind_colon solidName.1 solidName.2]
  rw [behind_append, behind_blank, inside, Identifies, ← or_assoc, or_comm (b := target = f.name), or_assoc]

/-- The search finds the function's own target, if it has parameters, and stray ones. -/
theorem found_iff {demangle : List Char → List Char} (unmangled : demangle f.name = f.name)
    (built : M.globals.lookup ("__function_signature_".toList ++ f.name) = none)
    (solidName : ' ' ∉ f.name ∧ ':' ∉ f.name) :
    isTargetInSignature target (getFunctionSignatureConstant demangle M f []).1 = true ↔
      f.args ≠ [] ∧ Identifies target M f ∨ Stray target M f := by
  -- the name has no blank, so what stands before it ends with the module
  have ahead (rest : List Char) (free : ' ' ∉ rest) :
      Occurs target (f.returnType ++ ' ' :: (qualified M f ++ rest)) ↔
        Occurs target (f.returnType ++ ' ' :: M.name) := by
    have parts : f.returnType ++ ' ' :: (qualified M f ++ rest) =
        (f.returnType ++ ' ' :: M.name) ++ (':' :: f.name ++ rest) := by simp [qualified]
    rw [parts, occurs_append_free (by simp [solidName.1, free])]
  rw [isTargetInSignature_iff]
  by_cases none : f.args = []
  · rw [signature_eq_of_nil unmangled built none, ahead _ (by simp)]
    refine ⟨fun found => .inr (.before found), ?_⟩
    rintro (⟨some, -⟩ | found | ⟨some, -⟩ | ⟨some, -⟩ | ⟨some, -⟩)
    · exact absurd none some
    · exact found
    all_goals exact absurd none some
  · have parts : f.returnType ++ ' ' :: (qualified M f ++ ' ' :: f.parameters) =
        (f.returnType ++ ' ' :: qualified M f) ++ ' ' :: f.parameters := by simp
    have whole := ahead [] (List.not_mem_nil)
    rw [List.append_nil] at whole
    rw [signature_eq unmangled built none, parts, occurs_split, whole, behind_name solidName]
    constructor
    · rintro (found | (mine | ⟨rest, part, same⟩ | ⟨rest, part, same⟩) | ⟨front, blank, found⟩)
      · exact .inr (.before found)
      · exact .inl ⟨none, mine⟩
      · exact .inr (.fromModule none part same)
      · exact .inr (.fromReturnType none part same)
      · exact .inr (.parameters none blank (by simpa using found))
    · rintro (⟨-, mine⟩ | found | ⟨-, part, same⟩ | ⟨-, part, same⟩ | ⟨-, blank, found⟩)
      · exact .inr (.inl (.inl mine))
      · exact .inl found
      · exact .inr (.inl (.inr (.inl ⟨_, part, same⟩)))
      · exact .inr (.inl (.inr (.inr ⟨_, part, same⟩)))
      · exact .inr (.inr ⟨_, blank, by simpa using found⟩)

/-- A target without a blank begins behind the last blank or later. -/
theorem behind_split (solid : ' ' ∉ target) : Behind target (first ++ ' ' :: second) ↔
    ' ' :: target <:+ ' ' :: second ∨ ':' :: target <:+ second := by
  have longer (rest : List Char) : target ≠ rest ++ ' ' :: second := by
    rintro rfl
    simp at solid
  simp [Behind, suffix_append_iff, longer, List.suffix_cons_iff]

/-- Without blanks in the target and the module, the stray places are the words of the types and
names around. -/
theorem stray_iff_of_solid (solid : ' ' ∉ target) (solidModule : ' ' ∉ M.name ∧ ':' ∉ M.name) :
    Stray target M f ↔ Occurs target (f.returnType ++ [' ']) ∨ f.args ≠ [] ∧
      (' ' :: (target ++ [' ']) <:+: ' ' :: f.parameters ∨ ':' :: (target ++ [' ']) <:+: f.parameters) := by
  have before : Occurs target (f.returnType ++ ' ' :: M.name) ↔ Occurs target (f.returnType ++ [' ']) := by
    have parts : f.returnType ++ ' ' :: M.name = (f.returnType ++ [' ']) ++ M.name := by simp
    rw [parts, occurs_append_free solidModule.1]
  have after : (' ' :: (target ++ [' ']) <:+: ' ' :: f.parameters ∨ ':' :: (target ++ [' ']) <:+: f.parameters) ↔
      ∃ front, front ++ [' '] <+: f.parameters ∧
        Behind target (f.returnType ++ ' ' :: (qualified M f ++ ' ' :: front)) := by
    have split (front : List Char) := @behind_split target (f.returnType ++ ' ' :: qualified M f) front solid
    have blank := @ended_infix_iff _ ' ' (' ' :: target) (' ' :: f.parameters)
    have colon := @ended_infix_iff _ ' ' (':' :: target) f.parameters
    have front (rest : List Char) := @front_split _ ' ' [] f.parameters rest
    simp only [List.append_assoc, List.cons_append] at split blank colon
    simp only [List.nil_append, List.prefix_nil, List.append_eq_nil_iff, List.cons_ne_nil, and_false, false_or] at front
    simp only [split, blank, colon, front, and_or_left, exists_or]
    refine or_congr_left ⟨?_, ?_⟩
    · rintro ⟨_, rfl | ⟨rest, rfl, inside⟩, ending⟩
      · simp at ending
      · exact ⟨rest, inside, ending⟩
    · rintro ⟨rest, inside, ending⟩
      exact ⟨_, .inr ⟨rest, rfl, inside⟩, ending⟩
  rw [← before, after]
  constructor
  · rintro (found | ⟨-, part, -⟩ | ⟨-, -, rfl⟩ | ⟨some, blank, found⟩)
    · exact .inl found
    · exact part.elim (absurd · (not_suffix_of_free solidModule.1)) (absurd · (not_suffix_of_free solidModule.2))
    · simp at solid
    · exact .inr ⟨some, _, blank, found⟩
  · rintro (found | ⟨some, front, blank, found⟩)
    · exact .before found
    · exact .parameters some blank found

end

/-- The search is exact if and only if the function has parameters, or its target strays; and no
other target strays. Targets and modules are arbitrary; without blanks, the stray targets are the
words of the return type and of the parameters. -/
theorem signature_identifies_iff (demangle : List Char → List Char) (M : Module) (f : Function) (target : List Char)
    (unmangled : demangle f.name = f.name)
    (built : M.globals.lookup ("__function_signature_".toList ++ f.name) = none)
    (solidName : ' ' ∉ f.name ∧ ':' ∉ f.name) :
    ((isTargetInSignature target (getFunctionSignatureConstant demangle M f []).1 = true ↔ Identifies target M f) ↔
      (Identifies target M f → f.args ≠ [] ∨ Stray target M f) ∧ (Stray target M f → Identifies target M f)) ∧
    (' ' ∉ target → ' ' ∉ M.name ∧ ':' ∉ M.name →
      (Stray target M f ↔ Occurs target (f.returnType ++ [' ']) ∨ f.args ≠ [] ∧
        (' ' :: (target ++ [' ']) <:+: ' ' :: f.parameters ∨ ':' :: (target ++ [' ']) <:+: f.parameters))) := by
  refine ⟨?_, stray_iff_of_solid⟩
  rw [found_iff unmangled built solidName]
  constructor
  · intro found
    refine ⟨fun mine => ?_, fun stray => found.mp (.inr stray)⟩
    exact (found.mpr mine).imp And.left id
  · rintro ⟨there, only⟩
    constructor
    · rintro (⟨-, mine⟩ | stray)
      · exact mine
      · exact only stray
    · exact fun mine => (there mine).imp (⟨·, mine⟩) id

/-- `int scale(int n)` in `my file.c`, with the targets `scale` and `my file.c:scale`. -/
theorem scale_identified :
    (getFunctionSignatureConstant id ⟨"my file.c".toList, []⟩
      ⟨"i32".toList, "scale".toList, [⟨"i32".toList, some "n".toList⟩]⟩ []).1 =
        "i32 my file.c:scale (i32 n)".toList ∧
    isTargetInSignature "scale".toList "i32 my file.c:scale (i32 n)".toList = true ∧
    isTargetInSignature "my file.c:scale".toList "i32 my file.c:scale (i32 n)".toList = true := by
  have text : (getFunctionSignatureConstant id ⟨"my file.c".toList, []⟩
      ⟨"i32".toList, "scale".toList, [⟨"i32".toList, some "n".toList⟩]⟩ []).1 =
        "i32 my file.c:scale (i32 n)".toList := by
    decide +kernel
  have found (target : List Char) (mine : Identifies target ⟨"my file.c".toList, []⟩
      ⟨"i32".toList, "scale".toList, [⟨"i32".toList, some "n".toList⟩]⟩) :=
    (signature_identifies_iff id ⟨"my file.c".toList, []⟩
      ⟨"i32".toList, "scale".toList, [⟨"i32".toList, some "n".toList⟩]⟩ target rfl rfl (by decide)).1.mpr
      ⟨fun _ => .inl (by simp), fun _ => mine⟩
  rw [text] at found
  exact ⟨text, (found _ (.inl rfl)).mpr (.inl rfl), (found _ (.inr rfl)).mpr (.inr rfl)⟩

/-- `int poll(void)` is not found by its name, `char (*row(int n))[4]` is found by the target `x`,
and `int scale(int n)` by a target that goes on behind its name. -/
theorem signatures_mistaken :
    ((getFunctionSignatureConstant id ⟨"a.c".toList, []⟩ ⟨"i32".toList, "poll".toList, []⟩ []).1 =
        "i32 a.c:poll)".toList ∧
      isTargetInSignature "poll".toList "i32 a.c:poll)".toList = false ∧
      isTargetInSignature "a.c:poll".toList "i32 a.c:poll)".toList = false) ∧
    ((getFunctionSignatureConstant id ⟨"a.c".toList, []⟩
        ⟨"[4 x i8]*".toList, "row".toList, [⟨"i32".toList, some "n".toList⟩]⟩ []).1 =
        "[4 x i8]* a.c:row (i32 n)".toList ∧
      isTargetInSignature "x".toList "[4 x i8]* a.c:row (i32 n)".toList = true) ∧
    (getFunctionSignatureConstant id ⟨"a.c".toList, []⟩
        ⟨"i32".toList, "scale".toList, [⟨"i32".toList, some "n".toList⟩]⟩ []).1 = "i32 a.c:scale (i32 n)".toList ∧
      isTargetInSignature "scale (i32".toList "i32 a.c:scale (i32 n)".toList = true := by
  decide +kernel

end AflLive.Testamp
