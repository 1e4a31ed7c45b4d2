import AflLive.Library.Listing
import AflLive.Fuzz.FileNames
import AflLive.Fuzz.Seeds

/-! `sync_fuzzers`: what one instance imports from the queue directory of another one,
and what it remembers of it under `.synced`. -/
namespace AflLive.Fuzz

/-- What stands behind `-id:` in a queue file's name. -/
inductive Numbered : Name → Nat → Prop where
  | fresh (id : Nat) (note : Name) : Numbered (pad6 id ++ ascii "," ++ note) id
  -- `pivot_inputs` keeps a name that already carries the number it would give
  | kept (text : Name) (id : Nat) : scan6 text = some id → Numbered text id

structure QueueFile where
  target : Name
  id : Nat
  text : Name
  data : List UInt8
  numbered : Numbered text id

def QueueFile.name (file : QueueFile) : Name := file.target ++ ascii "-id:" ++ file.text

structure QueueDir where
  files : List QueueFile
  distinct : (files.map QueueFile.name).Nodup

/-- An entry of `scandir`; a directory has no data. -/
structure Dirent where
  name : Name
  data : Option (List UInt8)
deriving DecidableEq

def QueueFile.dirent (file : QueueFile) : Dirent := ⟨file.name, some file.data⟩

def dotEntries : List Dirent := [⟨ascii ".", none⟩, ⟨ascii "..", none⟩, ⟨ascii ".state", none⟩]

def alphasort (entries : List Dirent) : List Dirent := entries.mergeSort fun a b => a.name ≤ b.name

def QueueDir.listing (dir : QueueDir) : List Dirent := alphasort (dotEntries ++ dir.files.map QueueFile.dirent)

inductive SyncFatal where
  /-- The text does not fit `entry[12]`. -/
  | overrun
  /-- A directory is opened, but cannot be mapped. -/
  | mmap
  | noSeparator
deriving DecidableEq

structure Import where
  file : Name
  target : Name
  data : List UInt8
deriving DecidableEq

/-- `if (st.st_size && st.st_size <= MAX_FILE)`. -/
def sizeAccepted (data : List UInt8) : Prop := data.length ≠ 0 ∧ data.length ≤ maxFile

instance : DecidablePred sizeAccepted := fun _ => inferInstanceAs (Decidable (_ ∧ _))

/-- The loop over `namelist[m..]`: the executions and `next_min_accept`. -/
def importAll : List Dirent → UInt32 → Except SyncFatal (List Import × UInt32)
  | [], next => .ok ([], next)
  | entry :: rest, next =>
    match entry.data with
    | none => .error .mmap
    | some data =>
      if sizeAccepted data then
        match getTargetName entry.name with
        | none => .error .noSeparator
        | some target => (importAll rest (next + 1)).map fun done => (⟨entry.name, target, data⟩ :: done.1, done.2)
      else importAll rest (next + 1)

def entryText (next : UInt32) : Name := ascii "id:" ++ pad6 next.toNat

/-- One directory; `stored` is the content of its `.synced` file. -/
def syncFuzzer (stored : Option UInt32) (namelist : List Dirent) :
    Except SyncFatal (List Import × Option UInt32) :=
  if namelist = [] then .ok ([], stored)
  else
    let minAccept := stored.getD 0
    if 12 ≤ (entryText minAccept).length then .error .overrun
    else
      let new := namelist.dropWhile fun entry => !strncmpEq 9 entry.name (entryText minAccept)
      if new = [] then .ok ([], stored)
      else (importAll new minAccept).map fun done => (done.1, some done.2)

theorem strncmpEq_iff_start {n : Nat} {a b : Name} (noNul : 0 ∉ b) (long : n ≤ b.length) :
    strncmpEq n a b = true ↔ b.take n <+: a := by
  induction n generalizing a b with
  | zero => simp [strncmpEq]
  | succ n ih =>
    cases b with
    | nil => simp at long
    | cons y b =>
      have nonzero : y ≠ 0 := fun same => noNul (by simp [same])
      cases a with
      | nil => simp [strncmpEq, nonzero.symm]
      | cons x a =>
        have rest := @ih a b (fun inside => noNul (by simp [inside])) (by simpa using long)
        by_cases same : x = y
        · simp [strncmpEq, same, nonzero, rest]
        · have other : y ≠ x := fun same' => same same'.symm
          simp [strncmpEq, same, List.cons_prefix_cons, other]

/-- What the reader looks for at the beginning of a name. -/
def sought (next : UInt32) : Name := (entryText next).take 9

theorem sought_eq (next : UInt32) : sought next = ascii "id:" ++ (pad6 next.toNat).take 6 := by
  rw [sought, entryText, List.take_append]
  rfl

theorem sought_hit (next : UInt32) (entry : Dirent) :
    strncmpEq 9 entry.name (entryText next) = true ↔ sought next <+: entry.name := by
  apply strncmpEq_iff_start
  · rw [entryText, List.mem_append, not_or]
    exact ⟨by decide, fun inside => absurd (isDigit_of_mem_pad6 inside) (by decide)⟩
  · have long := pad6_length next.toNat
    rw [entryText, List.length_append]
    have three : (ascii "id:").length = 3 := rfl
    omega

theorem listing_perm (dir : QueueDir) : dir.listing.Perm (dotEntries ++ dir.files.map QueueFile.dirent) :=
  List.mergeSort_perm _ _

theorem listing_sorted (dir : QueueDir) : dir.listing.Pairwise fun a b => a.name ≤ b.name := by
  have sorted := @List.pairwise_mergeSort Dirent (fun a b => decide (a.name ≤ b.name))
    (by simpa using fun _ _ _ first second => List.le_trans first second)
    (by simpa using fun _ _ => List.le_total _ _) (dotEntries ++ dir.files.map QueueFile.dirent)
  exact sorted.imp fun before => by simpa using before

/-- No dot entry starts with the text or stands behind it. -/
theorem dot_before_sought (next : UInt32) : ∀ entry ∈ dotEntries, ¬sought next ≤ entry.name := by
  have first : sought next = 105 :: (ascii "d:" ++ (pad6 next.toNat).take 6) := sought_eq next
  have dot : ∀ rest : Name, ¬sought next ≤ 46 :: rest := by
    intro rest
    rw [first, List.cons_le_cons_iff]
    simp
  simp only [dotEntries, List.forall_mem_cons]
  exact ⟨dot [], dot (ascii "."), dot (ascii "state"), by simp⟩

/-- Some file stands where the scan stops. -/
def QueueDir.Hit (dir : QueueDir) (next : UInt32) : Prop := ∃ file ∈ dir.files, sought next <+: file.name

theorem hit_iff (dir : QueueDir) (next : UInt32) :
    (∃ entry ∈ dir.listing, sought next <+: entry.name) ↔ dir.Hit next := by
  constructor
  · rintro ⟨entry, inside, starts⟩
    rw [(listing_perm dir).mem_iff, List.mem_append, List.mem_map] at inside
    rcases inside with dot | ⟨file, inside, rfl⟩
    · exact absurd starts.le (dot_before_sought next entry dot)
    · exact ⟨file, inside, starts⟩
  · rintro ⟨file, inside, starts⟩
    refine ⟨file.dirent, ?_, starts⟩
    rw [(listing_perm dir).mem_iff, List.mem_append]
    exact .inr (List.mem_map_of_mem inside)

/-- The files at and behind the place where the scan stops. -/
theorem behind_perm (dir : QueueDir) (next : UInt32) :
    (dir.listing.filter fun entry => sought next ≤ entry.name).Perm
      ((dir.files.filter fun file => sought next ≤ file.name).map QueueFile.dirent) := by
  have dots : (dotEntries.filter fun entry => sought next ≤ entry.name) = [] := by
    simpa using dot_before_sought next
  refine ((listing_perm dir).filter _).trans ?_
  rw [List.filter_append, dots, List.nil_append, List.filter_map]
  rfl

/-- Every file behind that place is counted; those of an accepted size are executed. -/
theorem importAll_files (entries : List Dirent) (next : UInt32)
    (files : ∀ entry ∈ entries, ∃ file : QueueFile, file.dirent = entry) :
    ∃ imports, importAll entries next = .ok (imports, next + UInt32.ofNat entries.length) ∧
      imports.map Import.file = (entries.filter fun entry => entry.data.any (sizeAccepted ·)).map Dirent.name := by
  induction entries generalizing next with
  | nil => exact ⟨[], by simp [importAll], rfl⟩
  | cons entry rest ih =>
    obtain ⟨file, rfl⟩ := files entry (by simp)
    obtain ⟨imports, run, same⟩ := ih (next + 1) fun entry inside => files entry (by simp [inside])
    have count : next + 1 + UInt32.ofNat rest.length = next + UInt32.ofNat (rest.length + 1) := by
      rw [UInt32.ofNat_add, UInt32.add_comm (UInt32.ofNat rest.length), ← UInt32.add_assoc]
      rfl
    have separated : getTargetName file.name = some (front file.target) := by
      rw [QueueFile.name, List.append_assoc]
      exact getTargetName_written _ _
    by_cases size : sizeAccepted file.data
    · refine ⟨⟨file.name, front file.target, file.data⟩ :: imports, ?_, ?_⟩
      · simp [importAll, QueueFile.dirent, size, separated, run, count, Except.map]
      · simp [QueueFile.dirent, size, same]
    · refine ⟨imports, ?_, ?_⟩
      · simp [importAll, QueueFile.dirent, size, run, count]
      · simp [QueueFile.dirent, size, same]

instance (dir : QueueDir) (next : UInt32) : Decidable (dir.Hit next) :=
  inferInstanceAs (Decidable (∃ file ∈ dir.files, sought next <+: file.name))

/-- The file is executed by a sync that starts from `next`. -/
def QueueDir.Imports (dir : QueueDir) (next : UInt32) (file : QueueFile) : Prop :=
  dir.Hit next ∧ sought next ≤ file.name ∧ sizeAccepted file.data

instance (dir : QueueDir) (next : UInt32) : DecidablePred (dir.Imports next) :=
  fun _ => inferInstanceAs (Decidable (_ ∧ _ ∧ _))

def QueueDir.nextAccept (dir : QueueDir) (next : UInt32) : UInt32 :=
  if dir.Hit next then next + UInt32.ofNat (dir.files.filter fun file => sought next ≤ file.name).length else next

/-- The sought text fits its buffer, its terminator included. -/
def EntryFits (next : UInt32) : Prop := (entryText next).length < 12

theorem listing_nonempty (dir : QueueDir) : dir.listing ≠ [] := by
  intro empty
  have perm := listing_perm dir
  rw [empty] at perm
  exact absurd perm.nil_eq (by simp [dotEntries])

/-- Where the scan finds nothing, nothing is executed and nothing is written. -/
theorem syncFuzzer_miss (dir : QueueDir) (stored : Option UInt32) (fits : EntryFits (stored.getD 0))
    (miss : ¬dir.Hit (stored.getD 0)) : syncFuzzer stored dir.listing = .ok ([], stored) := by
  have none_new : dir.listing.dropWhile (fun entry => !strncmpEq 9 entry.name (entryText (stored.getD 0))) = [] := by
    rw [List.dropWhile_eq_nil_iff]
    intro entry inside
    rw [Bool.not_eq_true', Bool.eq_false_iff, ne_eq, sought_hit]
    exact fun starts => miss ((hit_iff dir _).mp ⟨entry, inside, starts⟩)
  rw [syncFuzzer, if_neg (listing_nonempty dir), if_neg (Nat.not_le.mpr fits), if_pos none_new]

theorem syncFuzzer_files (dir : QueueDir) (stored : Option UInt32) (fits : EntryFits (stored.getD 0)) :
    ∃ imports last, syncFuzzer stored dir.listing = .ok (imports, last) ∧
      last.getD 0 = dir.nextAccept (stored.getD 0) ∧
      (imports.map Import.file).Perm ((dir.files.filter (dir.Imports (stored.getD 0) ·)).map QueueFile.name) := by
  by_cases hit : dir.Hit (stored.getD 0)
  · simp only [syncFuzzer, listing_nonempty, Nat.not_le.mpr fits, if_false]
    generalize stored.getD 0 = next at hit
    rw [Listing.dropWhile_eq_filter (sought_hit next) (listing_sorted dir) ((hit_iff dir next).mpr hit)]
    have perm := behind_perm dir next
    obtain ⟨imports, run, same⟩ := importAll_files _ next (fun entry inside => by
      rw [perm.mem_iff, List.mem_map] at inside
      obtain ⟨file, _, same⟩ := inside
      exact ⟨file, same⟩)
    have some_new : (dir.listing.filter fun entry => sought next ≤ entry.name) ≠ [] := by
      obtain ⟨file, inside, starts⟩ := hit
      have listed : file.dirent ∈ (dir.files.filter fun file => sought next ≤ file.name).map QueueFile.dirent :=
        List.mem_map_of_mem (List.mem_filter.mpr ⟨inside, by simpa using starts.le⟩)
      exact List.ne_nil_of_mem (perm.mem_iff.mpr listed)
    have count : dir.nextAccept next = next + UInt32.ofNat (dir.listing.filter fun entry =>
        sought next ≤ entry.name).length := by
      rw [QueueDir.nextAccept, if_pos hit, perm.length_eq, List.length_map]
    refine ⟨imports, some (dir.nextAccept next), ?_, rfl, ?_⟩
    · rw [if_neg some_new, run, count]
      rfl
    · rw [same]
      refine ((perm.filter _).map _).trans ?_
      rw [List.filter_map, List.filter_filter, List.map_map]
      refine List.Perm.of_eq (congrArg₂ List.map rfl (List.filter_congr fun file _ => ?_))
      simp [QueueDir.Imports, hit, QueueFile.dirent, and_comm]
  · refine ⟨[], stored, syncFuzzer_miss dir stored fits hit, ?_, ?_⟩
    · rw [QueueDir.nextAccept, if_neg hit]
    · simp [QueueDir.Imports, hit]

theorem syncFuzzer_overrun (dir : QueueDir) (stored : Option UInt32) (long : ¬EntryFits (stored.getD 0)) :
    ∀ done, syncFuzzer stored dir.listing ≠ .ok done := by
  intro done
  simp [syncFuzzer, listing_nonempty, Nat.not_lt.mp long]

/-- A sync of the directory executes the wanted files, each once, and leaves `last`. -/
def Executes (stored : Option UInt32) (dir : QueueDir) (wanted : QueueFile → Prop) [DecidablePred wanted]
    (last : Option UInt32) : Prop :=
  ∃ imports, syncFuzzer stored dir.listing = .ok (imports, last) ∧
    (imports.map Import.file).Perm ((dir.files.filter (wanted ·)).map QueueFile.name)

/-- The contract: the files from `min_accept` on are executed, a second sync of the same
directory executes nothing, and one of the later directory the files that are new in it. -/
def SyncExact (before : QueueDir) (stored : Option UInt32) (after : QueueDir) : Prop :=
  ∃ last, Executes stored before (fun file => (stored.getD 0).toNat ≤ file.id) last ∧
    (∃ last', Executes last before (fun _ => False) last') ∧
    ∃ last', Executes last after (fun file => file.name ∉ before.files.map QueueFile.name) last'

theorem executes_iff (stored : Option UInt32) (dir : QueueDir) (wanted : QueueFile → Prop) [DecidablePred wanted] :
    (∃ last, Executes stored dir wanted last) ↔
      EntryFits (stored.getD 0) ∧ ∀ file ∈ dir.files, dir.Imports (stored.getD 0) file ↔ wanted file := by
  by_cases fits : EntryFits (stored.getD 0)
  · obtain ⟨imports, last, run, _, files⟩ := syncFuzzer_files dir stored fits
    have meaning : (∃ last, Executes stored dir wanted last) ↔
        (imports.map Import.file).Perm ((dir.files.filter (wanted ·)).map QueueFile.name) := by
      simp [Executes, run]
    rw [meaning, files.congr_left, Listing.filter_map_perm_iff dir.distinct]
    simp [fits]
  · have failed := syncFuzzer_overrun dir stored fits
    simp [Executes, failed, fits]

theorem Executes.last_eq [DecidablePred wanted] (run : Executes stored dir wanted last) :
    last.getD 0 = dir.nextAccept (stored.getD 0) := by
  obtain ⟨imports, run, _⟩ := run
  by_cases fits : EntryFits (stored.getD 0)
  · obtain ⟨imports', last', run', next, _⟩ := syncFuzzer_files dir stored fits
    rw [run'] at run
    obtain ⟨-, rfl⟩ := Prod.mk.inj (Except.ok.inj run)
    exact next
  · exact absurd run (syncFuzzer_overrun dir stored fits _)

/-- The reader's text starts with `id:`, a file's name with its target. -/
theorem target_start {file : QueueFile} {next : UInt32} (starts : sought next <+: file.name) :
    ascii "id:" <+: file.target := by
  have start : ascii "id:" <+: file.target ++ (dash :: (ascii "id:" ++ file.text)) := by
    rw [sought_eq] at starts
    rw [QueueFile.name, List.append_assoc] at starts
    exact (List.prefix_append _ _).trans starts
  have text : ascii "id:" = [105, 100, 58] := by decide
  rw [text] at start ⊢
  match target : file.target with
  | [] | [_] | [_, _] => simp [target, dash, List.cons_prefix_cons] at start
  | a :: b :: c :: rest => simpa [target, List.cons_prefix_cons] using start

theorem no_hit {dir : QueueDir} (plain : ∀ file ∈ dir.files, ¬ascii "id:" <+: file.target) (next : UInt32) :
    ¬dir.Hit next := by
  rintro ⟨file, inside, starts⟩
  exact plain file inside (target_start starts)

/-- Files are found through the beginning of their name, which is their target's. With
ordinary targets nothing is ever imported, so the contract holds only if nothing is to be. -/
theorem sync_exact_iff (before : QueueDir) (stored : Option UInt32) (after : QueueDir) :
    (SyncExact before stored after ↔
      EntryFits (stored.getD 0) ∧ EntryFits (before.nextAccept (stored.getD 0)) ∧
        (∀ file ∈ before.files, before.Imports (stored.getD 0) file ↔ (stored.getD 0).toNat ≤ file.id) ∧
        (∀ file ∈ before.files, ¬before.Imports (before.nextAccept (stored.getD 0)) file) ∧
        ∀ file ∈ after.files, after.Imports (before.nextAccept (stored.getD 0)) file ↔
          file.name ∉ before.files.map QueueFile.name) ∧
    ((∀ file ∈ before.files ++ after.files, ¬ascii "id:" <+: file.target) →
      (SyncExact before stored after ↔
        EntryFits (stored.getD 0) ∧ (∀ file ∈ before.files, file.id < (stored.getD 0).toNat) ∧
          ∀ file ∈ after.files, file.name ∈ before.files.map QueueFile.name)) := by
  have general : SyncExact before stored after ↔ EntryFits (stored.getD 0) ∧
      EntryFits (before.nextAccept (stored.getD 0)) ∧
      (∀ file ∈ before.files, before.Imports (stored.getD 0) file ↔ (stored.getD 0).toNat ≤ file.id) ∧
      (∀ file ∈ before.files, ¬before.Imports (before.nextAccept (stored.getD 0)) file) ∧
      ∀ file ∈ after.files, after.Imports (before.nextAccept (stored.getD 0)) file ↔
        file.name ∉ before.files.map QueueFile.name := by
    constructor
    · rintro ⟨last, first, again, later⟩
      have next := first.last_eq
      rw [executes_iff, next] at again later
      obtain ⟨fits, exact⟩ := (executes_iff stored before _).mp ⟨last, first⟩
      exact ⟨fits, again.1, exact, by simpa using again.2, later.2⟩
    · rintro ⟨fits, fits', exact, again, later⟩
      obtain ⟨last, first⟩ := (executes_iff stored before _).mpr ⟨fits, exact⟩
      have next := first.last_eq
      refine ⟨last, first, (executes_iff last before _).mpr ⟨next ▸ fits', ?_⟩,
        (executes_iff last after _).mpr ⟨next ▸ fits', ?_⟩⟩
      · simpa [next] using again
      · simpa [next] using later
  refine ⟨general, fun plain => ?_⟩
  have quiet : ∀ next, ¬before.Hit next := no_hit fun file inside => plain file (by simp [inside])
  have quiet' : ∀ next, ¬after.Hit next := no_hit fun file inside => plain file (by simp [inside])
  rw [general]
  simp [QueueDir.Imports, QueueDir.nextAccept, quiet, quiet']

/-- A find of the target `f` that no sync has seen yet. -/
def freshFind : QueueFile :=
  ⟨ascii "f", 0, pad6 0 ++ ascii "," ++ ascii "orig:f-initialAbCdEf", [7], .fresh _ _⟩

def freshQueue : QueueDir := ⟨[freshFind], by simp⟩

/-- It is never executed, and nothing is stored. -/
theorem fresh_find_never_imported :
    syncFuzzer none freshQueue.listing = .ok ([], none) ∧ ¬SyncExact freshQueue none freshQueue := by
  have miss : ¬freshQueue.Hit 0 := by decide +kernel
  refine ⟨syncFuzzer_miss freshQueue none (by unfold EntryFits; decide +kernel) miss, ?_⟩
  rintro ⟨last, first, _⟩
  obtain ⟨_, exact⟩ := (executes_iff none freshQueue _).mp ⟨last, first⟩
  exact miss ((exact freshFind (by simp [freshQueue])).mpr (Nat.zero_le _)).1

end AflLive.Fuzz
