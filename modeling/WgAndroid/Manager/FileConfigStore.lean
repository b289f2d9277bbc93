import WgAndroid.Java.Utf8
import WgAndroid.Lib.Routine
import WgAndroid.Manager.Ownership

/-!
# The files of the config store

`FileConfigStore` keeps each config in a file of its own. Its operations are a few steps on the files
directory, any of which may fail: a step that fails changes nothing, but for a write, which may have
written a part.

Results:
1. `unchanged_iff`: that every stored name loads what it did and that no name is new is that all names
   load the same.
2. `atomic_iff`: which failures of which operations leave the store as it was.
-/

namespace WgAndroid.FileConfigStore

open Routine

/-- The files directory: contents by file name. -/
abbrev Files := AList fun _ : JString => Bytes

inductive IOException where
  | fileExists (file : JString)
  | deleteError (file : JString)
  | exists (replacement : JString)
  | renameError (file : JString)
  | notFound (file : JString)
  | system  -- what a step on the directory threw

/-- Which steps fail; a write fails after some number of bytes. -/
structure Faults where
  createNewFile : Bool
  opens : Bool
  write : Option Nat
  renameTo : Bool
  delete : Bool

/-! ## The steps -/

section Steps

variable (f : Faults)

def createNewFile (file : JString) : Routine Files IOException Bool := do
  require (!f.createNewFile) .system
  let files ← get
  if file ∈ files then
    return false
  else
    set (files.insert file [])
    return true

/-- The constructor of `FileOutputStream` without appending: the file is created, or emptied. -/
def openOutput (file : JString) : Routine Files IOException Unit := do
  require (!f.opens) .system
  modify (·.insert file [])

def write (file : JString) (bytes : Bytes) : Routine Files IOException Unit :=
  match f.write with
  | none => modify (·.insert file bytes)
  | some n => do
    modify (·.insert file (bytes.take n))
    throw .system

def renameTo (file replacement : JString) : Routine Files IOException Bool := do
  let files ← get
  match if f.renameTo then none else files.lookup file with
  | none => return false
  | some bytes =>
    set ((files.erase file).insert replacement bytes)
    return true

def deleteFile (file : JString) : Routine Files IOException Bool := do
  let files ← get
  if f.delete ∨ file ∉ files then
    return false
  else
    set (files.erase file)
    return true

/-! ## The operations -/

def fileFor (name : JString) : JString := name ++ text ".conf"

/-- What is written for a config. -/
def contents (P : Platform) (config : Config) : Bytes := getBytes (config.toWgQuickString P)

def create (P : Platform) (name : JString) (config : Config) : Routine Files IOException Config := do
  let file := fileFor name
  let created ← createNewFile f file
  require created (.fileExists file)
  openOutput f file
  write f file (contents P config)
  return config

def delete (name : JString) : Routine Files IOException Unit := do
  let file := fileFor name
  let deleted ← deleteFile f file
  require deleted (.deleteError file)

def rename (name replacement : JString) : Routine Files IOException Unit := do
  let file := fileFor name
  let replacementFile := fileFor replacement
  let created ← createNewFile f replacementFile
  require created (.exists replacement)
  let renamed ← renameTo f file replacementFile
  if renamed then
    return
  else
    -- a marker that cannot be deleted is only logged
    let _ ← deleteFile f replacementFile
    throw (.renameError file)

def save (P : Platform) (name : JString) (config : Config) : Routine Files IOException Config := do
  let file := fileFor name
  let files ← get
  require (decide (file ∈ files)) (.notFound file)
  openOutput f file
  write f file (contents P config)
  return config

end Steps

def enumerate (files : Files) : List JString :=
  (files.keys.filter fun file => (text ".conf").isSuffixOf file).map fun file =>
    file.take (file.length - (text ".conf").length)

/-- The bytes that `load` reads. -/
def load (files : Files) (name : JString) : Option Bytes := files.lookup (fileFor name)

variable {f : Faults} {P : Platform} {files files' : Files} {name replacement file : JString}

theorem fileFor_injective : Function.Injective fileFor := fun _ _ h => List.append_cancel_right h

theorem mem_enumerate : name ∈ enumerate files ↔ fileFor name ∈ files := by
  simp only [enumerate, List.mem_map, List.mem_filter, List.isSuffixOf_iff_suffix]
  constructor
  · rintro ⟨_, ⟨hmem, rest, rfl⟩, hname⟩
    rw [List.length_append, Nat.add_sub_cancel, List.take_left] at hname
    exact hname ▸ hmem
  · intro hmem
    refine ⟨fileFor name, ⟨hmem, name, rfl⟩, ?_⟩
    rw [fileFor, List.length_append, Nat.add_sub_cancel, List.take_left]

/-- Every name that was stored loads the same bytes, and no name is new. -/
structure Unchanged (files files' : Files) : Prop where
  loads : ∀ name bytes, load files name = some bytes → load files' name = some bytes
  enumerates : ∀ name ∈ enumerate files', name ∈ enumerate files

theorem unchanged_iff : Unchanged files files' ↔ ∀ name, load files' name = load files name := by
  constructor
  · intro h name
    cases hload : load files name with
    | some bytes => exact h.loads name bytes hload
    | none =>
      have hnew : name ∉ enumerate files' := fun hmem =>
        AList.lookup_eq_none.mp hload (mem_enumerate.mp (h.enumerates name hmem))
      exact AList.lookup_eq_none.mpr fun hmem => hnew (mem_enumerate.mpr hmem)
  · intro h
    refine ⟨fun name bytes hload => (h name).trans hload, fun name hmem => ?_⟩
    rw [mem_enumerate, ← AList.lookup_isSome] at hmem ⊢
    exact (congrArg Option.isSome (h name)).symm.trans hmem

theorem Unchanged.refl (files : Files) : Unchanged files files := unchanged_iff.mpr fun _ => rfl

/-! ## Failures -/

inductive Operation where
  | create (name : JString) (config : Config)
  | delete (name : JString)
  | rename (name replacement : JString)
  | save (name : JString) (config : Config)

/-- Whether the operation throws, and the directory after it. -/
def ended {α : Type} : Except IOException α × Files → Bool × Files
  | (.ok _, files) => (false, files)
  | (.error _, files) => (true, files)

def Operation.perform (f : Faults) (P : Platform) (files : Files) : Operation → Bool × Files
  | .create name config => ended (exec (FileConfigStore.create f P name config) files)
  | .delete name => ended (exec (FileConfigStore.delete f name) files)
  | .rename name replacement => ended (exec (FileConfigStore.rename f name replacement) files)
  | .save name config => ended (exec (FileConfigStore.save f P name config) files)

section Perform

variable {config : Config}

theorem perform_create : Operation.perform f P files (.create name config) =
    if f.createNewFile ∨ fileFor name ∈ files then (true, files)
    else if f.opens then (true, files.insert (fileFor name) [])
    else (f.write.isSome, (files.insert (fileFor name) []).insert (fileFor name)
      ((contents P config).take (f.write.getD (contents P config).length))) := by
  rcases f with ⟨createFails, openFails, writes, -, -⟩
  by_cases hmem : fileFor name ∈ files <;> cases createFails <;> cases openFails <;> cases writes <;>
    simp [Operation.perform, create, createNewFile, openOutput, write, ended, hmem]

theorem perform_save : Operation.perform f P files (.save name config) =
    if fileFor name ∉ files ∨ f.opens then (true, files)
    else (f.write.isSome, (files.insert (fileFor name) []).insert (fileFor name)
      ((contents P config).take (f.write.getD (contents P config).length))) := by
  rcases f with ⟨-, openFails, writes, -, -⟩
  by_cases hmem : fileFor name ∈ files <;> cases openFails <;> cases writes <;>
    simp [Operation.perform, save, openOutput, write, ended, hmem]

theorem perform_delete : Operation.perform f P files (.delete name) =
    if f.delete ∨ fileFor name ∉ files then (true, files) else (false, files.erase (fileFor name)) := by
  rcases f with ⟨-, -, -, -, deleteFails⟩
  by_cases hmem : fileFor name ∈ files <;> cases deleteFails <;>
    simp [Operation.perform, delete, deleteFile, ended, hmem]

/-- The marker is created, and either becomes the renamed file or is deleted again. -/
theorem perform_rename : Operation.perform f P files (.rename name replacement) =
    if f.createNewFile ∨ fileFor replacement ∈ files then (true, files)
    else
      match if f.renameTo then none
          else (files.insert (fileFor replacement) []).lookup (fileFor name) with
      | some bytes => (false,
          ((files.insert (fileFor replacement) []).erase (fileFor name)).insert (fileFor replacement) bytes)
      | none => (true,
          if f.delete then files.insert (fileFor replacement) []
          else (files.insert (fileFor replacement) []).erase (fileFor replacement)) := by
  rcases f with ⟨createFails, -, -, renameFails, deleteFails⟩
  by_cases hmem : fileFor replacement ∈ files <;> cases createFails <;> cases renameFails <;>
    cases deleteFails <;> simp [Operation.perform, rename, createNewFile, renameTo, deleteFile, ended, hmem]
  all_goals cases (files.insert (fileFor replacement) []).lookup (fileFor name) <;> simp

end Perform

/-- The failures that leave the store as it was: those before the first change, and those that happen to
put back what was there. -/
def Operation.Harmless (f : Faults) (P : Platform) (files : Files) : Operation → Prop
  | .create name _ =>
    f.createNewFile ∨ fileFor name ∈ files ∨ f.opens = false ∧ f.write = none
  | .delete _ => True
  | .rename name replacement =>
    f.createNewFile ∨ fileFor replacement ∈ files ∨
      f.renameTo = false ∧ (fileFor name ∈ files ∨ name = replacement) ∨ f.delete = false
  | .save name config =>
    fileFor name ∉ files ∨ f.opens ∨
      ∀ n ∈ f.write, files.lookup (fileFor name) = some ((contents P config).take n)

theorem load_insert {bytes : Bytes} {other : JString} :
    load (files.insert (fileFor name) bytes) other = if other = name then some bytes else load files other := by
  split
  · next heq => exact heq ▸ AList.lookup_insert _
  · next hne => exact AList.lookup_insert_ne fun h => hne (fileFor_injective h)

theorem load_erase {other : JString} :
    load (files.erase (fileFor name)) other = if other = name then none else load files other := by
  split
  · next heq => exact heq ▸ AList.lookup_erase _ _
  · next hne => exact AList.lookup_erase_ne fun h => hne (fileFor_injective h)

theorem unchanged_insert_iff {bytes : Bytes} :
    Unchanged files (files.insert (fileFor name) bytes) ↔ load files name = some bytes := by
  rw [unchanged_iff]
  constructor
  · intro h
    rw [← h name, load_insert, if_pos rfl]
  · intro h other
    rw [load_insert]
    split
    · next heq => rw [heq, h]
    · rfl

/-- The operation changes nothing when it throws. -/
def Operation.Atomic (f : Faults) (P : Platform) (files : Files) (op : Operation) : Prop :=
  (op.perform f P files).1 = true → Unchanged files (op.perform f P files).2

/-- A new file is left behind once it is created. -/
theorem atomic_create {config : Config} : (Operation.create name config).Atomic f P files ↔
    (Operation.create name config).Harmless f P files := by
  rw [Operation.Atomic, Operation.Harmless, perform_create]
  by_cases hrefused : f.createNewFile ∨ fileFor name ∈ files
  · rw [if_pos hrefused]
    exact iff_of_true (fun _ => .refl files) (hrefused.imp_right .inl)
  · rw [if_neg hrefused]
    obtain ⟨hcreated, hnew⟩ := not_or.mp hrefused
    have hleft : ∀ bytes, ¬ Unchanged files (files.insert (fileFor name) bytes) := fun bytes h => by
      have hload : load files name = none := AList.lookup_eq_none.mpr hnew
      cases hload.symm.trans (unchanged_insert_iff.mp h)
    rw [or_iff_right hcreated, or_iff_right hnew, AList.insert_insert]
    cases hopens : f.opens with
    | true => exact iff_of_false (fun h => hleft _ (h rfl)) fun h => by cases h.1
    | false =>
      cases hwrite : f.write with
      | none => exact iff_of_true (fun h => by cases h) ⟨rfl, rfl⟩
      | some n => exact iff_of_false (fun h => hleft _ (h rfl)) fun h => by cases h.2

/-- The old contents are gone once the file is open, unless what was written is the same. -/
theorem atomic_save {config : Config} : (Operation.save name config).Atomic f P files ↔
    (Operation.save name config).Harmless f P files := by
  rw [Operation.Atomic, Operation.Harmless, perform_save]
  by_cases hrefused : fileFor name ∉ files ∨ f.opens
  · rw [if_pos hrefused]
    exact iff_of_true (fun _ => .refl files) (hrefused.imp_right .inl)
  · rw [if_neg hrefused, AList.insert_insert]
    obtain ⟨hstored, hopened⟩ := not_or.mp hrefused
    rw [or_iff_right hstored, or_iff_right hopened]
    cases hwrite : f.write with
    | none => exact iff_of_true (fun h => by cases h) fun n h => by cases h
    | some n =>
      refine (forall_prop_of_true rfl).trans (unchanged_insert_iff.trans ?_)
      exact ⟨fun h m hm => Option.some.inj hm ▸ h, fun h => h n rfl⟩

/-- The marker is left behind if it cannot be deleted. -/
theorem atomic_rename : (Operation.rename name replacement).Atomic f P files ↔
    (Operation.rename name replacement).Harmless f P files := by
  rw [Operation.Atomic, Operation.Harmless, perform_rename]
  by_cases hrefused : f.createNewFile ∨ fileFor replacement ∈ files
  · rw [if_pos hrefused]
    exact iff_of_true (fun _ => .refl files) (hrefused.imp_right .inl)
  · rw [if_neg hrefused]
    obtain ⟨hcreated, hnew⟩ := not_or.mp hrefused
    rw [or_iff_right hcreated, or_iff_right hnew]
    have hload : load files replacement = none := AList.lookup_eq_none.mpr hnew
    have hsource : (load (files.insert (fileFor replacement) []) name).isSome ↔
        fileFor name ∈ files ∨ name = replacement := by
      rw [load, AList.lookup_isSome, AList.mem_insert, fileFor_injective.eq_iff, or_comm]
    cases hmoved : if f.renameTo then none else load (files.insert (fileFor replacement) []) name with
    | some bytes =>
      have hrenamed : f.renameTo = false ∧ (fileFor name ∈ files ∨ name = replacement) := by
        split at hmoved
        · cases hmoved
        · next hfails => exact ⟨Bool.eq_false_iff.mpr hfails, hsource.mp (hmoved ▸ rfl)⟩
      rw [show (if f.renameTo then none else AList.lookup _ _) = _ from hmoved]
      exact iff_of_true (fun h => by cases h) (.inl hrenamed)
    | none =>
      have hstays : ¬ (f.renameTo = false ∧ (fileFor name ∈ files ∨ name = replacement)) := by
        rintro ⟨hworks, hstored⟩
        rw [hworks] at hmoved
        have hsome := hsource.mpr hstored
        rw [show load _ name = none from hmoved] at hsome
        cases hsome
      rw [show (if f.renameTo then none else AList.lookup _ _) = _ from hmoved, or_iff_right hstays]
      refine (forall_prop_of_true rfl).trans ?_
      cases f.delete with
      | true =>
        refine iff_of_false (fun h => ?_) fun h => by cases h
        cases hload.symm.trans (unchanged_insert_iff.mp h)
      | false =>
        refine iff_of_true (unchanged_iff.mpr fun other => ?_) rfl
        simp only [Bool.false_eq_true, if_false, load_erase, load_insert]
        split
        · next heq => rw [heq, hload]
        · rfl

/-- An operation that throws leaves the store as it was exactly if its failures are harmless. -/
theorem atomic_iff (f : Faults) (P : Platform) (files : Files) (op : Operation) :
    op.Atomic f P files ↔ op.Harmless f P files := by
  cases op with
  | create name config => exact atomic_create
  | rename name replacement => exact atomic_rename
  | save name config => exact atomic_save
  | delete name =>
    rw [Operation.Atomic, perform_delete]
    refine iff_of_true ?_ trivial
    split
    · exact fun _ => .refl files
    · rintro ⟨⟩

/-- The directory with one file, `wg0.conf`. -/
def sampleFiles : Files := AList.singleton (fileFor (text "wg0")) (ascii (text "[Interface]"))

/-- A disk on which nothing can be written. -/
def fullDisk : Faults := ⟨false, false, some 0, false, false⟩

/-- No file can be renamed or deleted. -/
def stuckNames : Faults := ⟨false, false, none, true, true⟩

/-- On a full disk `save` loses what was stored and `create` leaves an empty file; a failed `rename`
leaves its marker. -/
theorem failures_not_atomic :
    let saved := (Operation.save (text "wg0") TunnelManager.sampleConfig).perform fullDisk samplePlatform
      sampleFiles
    let created := (Operation.create (text "home") TunnelManager.sampleConfig).perform fullDisk samplePlatform
      sampleFiles
    let renamed := (Operation.rename (text "wg0") (text "home")).perform stuckNames samplePlatform sampleFiles
    (saved.1 = true ∧ load sampleFiles (text "wg0") = some (ascii (text "[Interface]")) ∧
      load saved.2 (text "wg0") = some []) ∧
    (created.1 = true ∧ enumerate created.2 = [text "home", text "wg0"]) ∧
    renamed.1 = true ∧ enumerate renamed.2 = [text "home", text "wg0"] := by
  decide

end WgAndroid.FileConfigStore
