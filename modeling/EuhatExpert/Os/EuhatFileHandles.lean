import EuhatExpert.FileMan.ShareGuard

/-!
# Os/EuhatFileHandles — files opened by their paths, and the database's folder among them

`EuhatFileHandles::fopen` of the Android build opens a file first and compares bytes afterwards: a path that
starts with `EUHAT_PATH_DB` gets its handle closed again.  Other spellings of the folder pass, and for its own
spelling the open has already had its effect.  The folder is safe from a call exactly in the cases
`keepsDbPrivate_iff` lists.
-/

namespace EuhatExpert

open Machinery

/-! ## Paths -/

def EUHAT_PATH_DB : Bytes := EUHAT_PATH_BASE ++ ofAscii "euhat/"

def EUHAT_PATH_CLIPBOARD : Bytes := EUHAT_PATH_BASE ++ ofAscii "clipboard/"

/-- The parts of a file in the database's folder, which are more than those of the folder. -/
def UnderDb (file : List Bytes) : Prop :=
  resolved EUHAT_PATH_DB <+: file ∧ file ≠ resolved EUHAT_PATH_DB

instance : DecidablePred UnderDb := fun file =>
  inferInstanceAs (Decidable (resolved EUHAT_PATH_DB <+: file ∧ file ≠ resolved EUHAT_PATH_DB))

/-- No path starts with both folders. -/
theorem not_clipboard_of_db {path : Bytes} (h : strIsStartWith path EUHAT_PATH_DB = true) :
    strIsStartWith path EUHAT_PATH_CLIPBOARD = false := by
  refine Bool.eq_false_iff.mpr fun hclip => ?_
  rw [strIsStartWith, List.isPrefixOf_iff_prefix] at h hclip
  rcases List.prefix_or_prefix_of_prefix h hclip with h | h
  · exact absurd h (by decide +kernel)
  · exact absurd h (by decide +kernel)

/-! ## The C library's `fopen` -/

/-- What the first character of a mode asks for. -/
inductive OpenMode
  | read
  | write
  | append
  deriving DecidableEq, Repr

/-- A mode that starts with none of the three letters opens nothing. -/
def OpenMode.ofMode (mode : Bytes) : Option OpenMode :=
  match mode.head? with
  | some 114 => some .read
  | some 119 => some .write
  | some 97 => some .append
  | _ => none

/-- What opening a file makes of its content, `none` where there is no file. -/
def OpenMode.effect : OpenMode → Option Bytes → Option Bytes
  | .read, content => content
  | .write, _ => some []
  | .append, content => some (content.getD [])

/-- An open leaves a file as it was if it reads, or appends to what is there, or empties what is empty. -/
theorem OpenMode.effect_eq_iff (as : OpenMode) (content : Option Bytes) : as.effect content = content ↔
    as = .read ∨ ∃ bytes, content = some bytes ∧ (as = .append ∨ bytes = []) := by
  cases as with
  | read => simp [effect]
  | write => cases content <;> simp [effect, eq_comm]
  | append => cases content <;> simp [effect]

/-- The files of a system, by the names from the root. -/
abbrev Files := List Bytes → Option Bytes

/-- A `FILE *`. -/
structure FileHandle where
  file : List Bytes
  mode : OpenMode
  deriving DecidableEq, Repr

section System

-- rights, and whatever else of a path, a mode or a folder makes an open fail
variable (permits : Files → List Bytes → Bytes → Bool)

/-- How a file is opened, if at all: for reading it is to be there. -/
def openedAs (files : Files) (file : List Bytes) (mode : Bytes) : Option OpenMode :=
  (OpenMode.ofMode mode).filter fun as =>
    (as ≠ .read || (files file).isSome) && permits files file mode

def whFopen (path mode : Bytes) (files : Files) : Option FileHandle × Files :=
  match openedAs permits files (resolved path) mode with
  | none => (none, files)
  | some as => (some ⟨resolved path, as⟩,
      Function.update files (resolved path) (as.effect (files (resolved path))))

/-! ## `EuhatFileHandles` -/

inductive FileEntry.Type
  | TypeNormalFile
  | TypeClipboard
  | TypePicture
  | TypeVideo
  | TypeDownload
  deriving DecidableEq, Repr

structure FileEntry where
  key_ : Bytes
  mode_ : Bytes
  type_ : FileEntry.Type
  fp_ : Option FileHandle

structure EuhatFileHandles where
  files_ : List FileEntry
  files : Files

/-- `EuhatFileHandles::fopen`. -/
def EuhatFileHandles.fopen (filePath mode : Bytes) (t : EuhatFileHandles) :
    Option FileHandle × EuhatFileHandles :=
  if filePath = [] then (none, t)
  else
    let path := whGetAbsolutePath filePath
    match whFopen permits path mode t.files with
    | (none, files) => (none, { t with files })
    | (some fp, files) =>
      if strIsStartWith path EUHAT_PATH_CLIPBOARD then
        (some fp, { files, files_ := t.files_ ++ [⟨path, mode, .TypeClipboard, some fp⟩] })
      else if strIsStartWith path EUHAT_PATH_DB then
        -- the entry stays as `newEntry` made it
        (none, { files, files_ := t.files_ ++ [⟨path, [], .TypeNormalFile, none⟩] })
      else (some fp, { files, files_ := t.files_ ++ [⟨path, mode, .TypeNormalFile, some fp⟩] })

/-- A call gives no handle to a file of the database's folder, and creates and empties none of them. -/
def KeepsDbPrivate (filePath mode : Bytes) (t : EuhatFileHandles) : Prop :=
  (∀ fp, (EuhatFileHandles.fopen permits filePath mode t).1 = some fp → ¬ UnderDb fp.file) ∧
    ∀ file, UnderDb file →
      (EuhatFileHandles.fopen permits filePath mode t).2.files file = t.files file

/-- What a call opens, by the mode the system opens it with. -/
def OpensFile (filePath mode : Bytes) (files : Files) (as : OpenMode) : Prop :=
  filePath ≠ [] ∧ openedAs permits files (resolved (whGetAbsolutePath filePath)) mode = some as

variable {permits} {filePath mode : Bytes} {t : EuhatFileHandles}

/-- What a call returns, and what it makes of the files. -/
theorem fopen_eq : (EuhatFileHandles.fopen permits filePath mode t).1 =
      (if filePath = [] ∨ strIsStartWith (whGetAbsolutePath filePath) EUHAT_PATH_DB = true then none
        else (whFopen permits (whGetAbsolutePath filePath) mode t.files).1) ∧
    (EuhatFileHandles.fopen permits filePath mode t).2.files =
      if filePath = [] then t.files
        else (whFopen permits (whGetAbsolutePath filePath) mode t.files).2 := by
  rw [EuhatFileHandles.fopen]
  by_cases hnil : filePath = []
  · simp [hnil]
  · rw [if_neg hnil]
    dsimp only
    by_cases hdb : strIsStartWith (whGetAbsolutePath filePath) EUHAT_PATH_DB = true
    · rcases whFopen permits (whGetAbsolutePath filePath) mode t.files with ⟨_ | fp, files⟩ <;>
        simp [hnil, hdb, not_clipboard_of_db hdb]
    · rcases whFopen permits (whGetAbsolutePath filePath) mode t.files with ⟨_ | fp, files⟩
      · simp [hnil]
      · dsimp only
        split_ifs <;> simp_all

/-- **A call keeps the folder private exactly if it opens nothing in it, or its path starts with the folder's
own name and the open leaves the file as it was.** -/
theorem keepsDbPrivate_iff : KeepsDbPrivate permits filePath mode t ↔
    ∀ as, OpensFile permits filePath mode t.files as → UnderDb (resolved (whGetAbsolutePath filePath)) →
      strIsStartWith (whGetAbsolutePath filePath) EUHAT_PATH_DB = true ∧
        (as = .read ∨ ∃ content, t.files (resolved (whGetAbsolutePath filePath)) = some content ∧
          (as = .append ∨ content = [])) := by
  rw [KeepsDbPrivate, fopen_eq.1, fopen_eq.2]
  by_cases hnil : filePath = []
  · simp [hnil, OpensFile]
  simp only [hnil, false_or, if_false, OpensFile, ne_eq, not_false_eq_true, true_and]
  generalize hfile : resolved (whGetAbsolutePath filePath) = file
  cases hopen : openedAs permits t.files file mode with
  | none => simp [whFopen, hfile, hopen]
  | some as =>
    simp only [whFopen, hfile, hopen, Option.some.injEq, forall_eq', ← as.effect_eq_iff]
    refine ⟨fun ⟨hgiven, hfiles⟩ hunder => ⟨?_, ?_⟩, fun h => ⟨fun fp hfp hunder => ?_, fun other hother => ?_⟩⟩
    · by_contra hdb
      exact hgiven _ (if_neg hdb) hunder
    · simpa using hfiles file hunder
    · split_ifs at hfp with hdb
      cases hfp
      exact hdb (h hunder).1
    · by_cases heq : other = file
      · subst heq
        rw [Function.update_self, (h hother).2]
      · exact Function.update_of_ne heq _ _

end System

/-! ## Spellings that pass -/

/-- A system that opens whatever is asked for. -/
def permitsAll (_ : Files) (_ : List Bytes) (_ : Bytes) : Bool := true

/-- The file `a` in the database's folder, and no other. -/
def dbFiles : Files := fun file => if file = resolved (EUHAT_PATH_DB ++ [97]) then some [1] else none

/-- `/./sdcard/…/euhat/a` is another spelling of a file in the folder: it can be read.  By the folder's own name
it is emptied before the handle is taken back. -/
theorem not_keepsDbPrivate_dbFiles :
    ¬ KeepsDbPrivate permitsAll (ofAscii "/." ++ EUHAT_PATH_DB ++ [97]) (ofAscii "rb") ⟨[], dbFiles⟩ ∧
      ¬ KeepsDbPrivate permitsAll (EUHAT_PATH_DB ++ [97]) (ofAscii "wb") ⟨[], dbFiles⟩ := by
  refine ⟨fun h => ?_, fun h => ?_⟩
  · exact h.1 ⟨resolved (EUHAT_PATH_DB ++ [97]), .read⟩ (by decide +kernel) (by decide +kernel)
  · exact absurd (h.2 (resolved (EUHAT_PATH_DB ++ [97])) (by decide +kernel)) (by decide +kernel)

end EuhatExpert
