import EuhatExpert.FileMan.Os

/-!
# FileMan/Disk — a system whose file operations do what they are asked

A disk is a finite table of files and folders.  Deleting fails exactly when there is nothing of the kind
to delete, or a folder is not empty; creating and writing succeed wherever no folder or file of the other
kind stands.  `Disk.os` is the system on it; times are not kept, and free space is as it is given.
-/

namespace EuhatExpert

open Machinery

/-- What stands under a path. -/
inductive Entry
  | file (content : Bytes)
  | folder
  deriving DecidableEq, Repr

/-- The files and folders, by path. -/
abbrev Disk := List (Bytes × Entry)

namespace Disk

/-- The entry of a path, if there is one. -/
def get (d : Disk) (path : Bytes) : Option Entry := d.lookup path

/-- Without an entry of this path. -/
def unset (d : Disk) (path : Bytes) : Disk := d.filter fun e => e.1 ≠ path

/-- The entry of a path, in place of the one before. -/
def set (d : Disk) (path : Bytes) (e : Entry) : Disk := (path, e) :: d.unset path

/-- The content of a file; nothing where there is none. -/
def file (d : Disk) (path : Bytes) : Option Bytes :=
  match d.get path with
  | some (.file content) => some content
  | _ => none

variable (d : Disk) {path path' : Bytes} (e : Entry)

/-- What was set is there. -/
@[simp] theorem get_set_self : (d.set path e).get path = some e := by
  rw [get, set, List.lookup_cons_self]

/-- An entry of another path is passed over. -/
theorem lookup_cons_of_ne (h : path' ≠ path) : List.lookup path' ((path, e) :: d) = d.lookup path' := by
  rw [List.lookup_cons, beq_false_of_ne h]

/-- What was taken away is not there. -/
theorem get_unset_self : (d.unset path).get path = none := by
  rw [get, List.lookup_eq_none_iff]
  intro x hx
  have hne : x.1 ≠ path := of_decide_eq_true (List.mem_filter.mp hx).2
  exact bne_iff_ne.mpr hne.symm

/-- Nothing else was taken away. -/
theorem get_unset_of_ne (h : path' ≠ path) : (d.unset path).get path' = d.get path' := by
  rw [get, get, unset]
  induction d with
  | nil => rfl
  | cons x d ih =>
    obtain ⟨p, e⟩ := x
    rw [List.filter_cons]
    by_cases hp : p = path
    · subst hp
      rw [if_neg (by simp), ih, lookup_cons_of_ne d e h]
    · rw [if_pos (by simpa using hp), List.lookup_cons, List.lookup_cons, ih]

/-- Nothing else was set. -/
theorem get_set_of_ne (h : path' ≠ path) : (d.set path e).get path' = d.get path' := by
  rw [get, set, lookup_cons_of_ne _ e h]
  exact d.get_unset_of_ne h

/-- What is taken away need not have been set. -/
theorem unset_set : (d.set path e).unset path = d.unset path := by
  rw [set, unset, List.filter_cons, if_neg (by simp), unset, List.filter_filter]
  simp

/-- Setting an entry twice is setting it once. -/
theorem set_set (e' : Entry) : (d.set path e).set path e' = d.set path e' := by
  rw [set, unset_set, ← set]

@[simp] theorem file_set_self (content : Bytes) : (d.set path (.file content)).file path = some content := by
  rw [file, get_set_self]

/-- The other files are as they were. -/
theorem file_set_of_ne (h : path' ≠ path) : (d.set path e).file path' = d.file path' := by
  rw [file, file, get_set_of_ne d e h]

/-! ## The system on a disk -/

/-- Some entry stands in the folder `path`. -/
def hasSub (d : Disk) (path : Bytes) : Bool :=
  d.any fun e => strIsStartWith e.1 (path ++ [slash]) || strIsStartWith e.1 (path ++ [backslash])

/-- `opUnlink` deletes a file, and no folder. -/
def opUnlink (path : Bytes) (d : Disk) : Bool × Disk :=
  match d.get path with
  | some (.file _) => (true, d.unset path)
  | _ => (false, d)

/-- `opRmDir` deletes a folder with nothing in it. -/
def opRmDir (path : Bytes) (d : Disk) : Bool × Disk :=
  match d.get path with
  | some .folder => if d.hasSub path then (false, d) else (true, d.unset path)
  | _ => (false, d)

/-- `opMkDir`: an entry that is there already is no failure. -/
def opMkDir (path : Bytes) (d : Disk) : Bool × Disk :=
  match d.get path with
  | some _ => (true, d)
  | none => (true, d.set path .folder)

/-- The folders above a path: what stands before each separator but the first byte. -/
def containers (path : Bytes) : List Bytes :=
  (List.range path.length).filterMap fun i =>
    if 0 < i ∧ (path.getD i 0 = slash ∨ path.getD i 0 = backslash) then some (path.take i) else none

/-- Each folder above the path is made, from the top. -/
def whPrepareFolder (path : Bytes) (d : Disk) : Disk :=
  (containers path).foldl (fun d p => (opMkDir p d).2) d

/-- `fopen` with `ab+` makes a file where there is none; a folder has none. -/
def fopenAppend (path : Bytes) (d : Disk) : Bool × Disk :=
  match path, d.get path with
  | [], _ => (false, d)
  | _, some (.file _) => (true, d)
  | _, some .folder => (false, d)
  | _, none => (true, d.set path (.file []))

/-- `fopen` with `wb` empties the file that is there. -/
def fopenCreate (path : Bytes) (d : Disk) : Bool × Disk :=
  match path, d.get path with
  | [], _ => (false, d)
  | _, some .folder => (false, d)
  | _, _ => (true, d.set path (.file []))

/-- What is written goes behind what the file has. -/
def fwrite (path buf : Bytes) (d : Disk) : Disk :=
  match d.file path with
  | some content => d.set path (.file (content ++ buf))
  | none => d

/-- The system on a disk. -/
def os (isUnix : Bool) (freeSpaceInMB : Bytes → ℤ) : Os Disk where
  isUnix_ := isUnix
  fopenRead path d := (d.file path).isSome
  fopenAppend := fopenAppend
  fopenCreate := fopenCreate
  whGetFileSize path d := ((d.file path).getD []).length
  fread path pos n d := (((d.file path).getD []).drop pos.toNat).take n
  fwrite := fwrite
  opUnlink := opUnlink
  opMkDir := opMkDir
  opRmDir := opRmDir
  whPrepareFolder := whPrepareFolder
  freeSpaceInMB path _ := freeSpaceInMB path
  whSetFileLastWriteTime _ _ d := d
  whGetSubFiles path d := if d.get path = some .folder then some [] else none

end Disk

end EuhatExpert
