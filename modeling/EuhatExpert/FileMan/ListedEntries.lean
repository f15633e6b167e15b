import EuhatExpert.FileMan.PathParts

/-!
# FileMan/ListedEntries — can what is listed be asked for

A client puts the name of an entry behind the path of its folder, and the server corrects what it gets.  On
the way both take backslashes for separators, and a lone slash for no absolute path: the entry is the one
that is asked for exactly if neither name nor path has a backslash and the folder is not the root
(`addresses_iff`).
-/

namespace EuhatExpert

open Machinery

/-- The path a client makes of a folder and a name of a Unix server's, as the server corrects it. -/
def askedPath (curDir name : Bytes) : Bytes :=
  whCorrectFilePath true (FmLoop.combinePath ⟨true, true⟩ curDir name)

/-- It names the entry: it is absolute, and its parts are the folder's and the name. -/
structure Addresses (curDir name : Bytes) : Prop where
  absolute : (askedPath curDir name).head? = some slash
  parts : unixParts (askedPath curDir name) = unixParts curDir ++ [name]

/-- What a client takes a folder for, with a name behind. -/
def subPath (curDir name : Bytes) : EuhatPath := { EuhatPath.inStr curDir with isUnix_ := true }.goSub name

theorem combinePath_eq (curDir name : Bytes) :
    FmLoop.combinePath ⟨true, true⟩ curDir name = (subPath curDir name).toStr := rfl

/-- The parts of a corrected path have no backslash. -/
theorem not_mem_of_mem_whCorrectFilePath {path part : Bytes}
    (h : part ∈ unixParts (whCorrectFilePath true path)) : backslash ∉ part := by
  rw [unixParts_whCorrectFilePath, ← EuhatPath.path_inStr] at h
  exact (EuhatPath.isPart_of_mem_inStr h).noBackslash

/-- A byte that is no slash is in some part. -/
theorem exists_mem_unixParts {path : Bytes} {c : UInt8} (h : c ∈ path) (hc : c ≠ slash) :
    ∃ part ∈ unixParts path, c ∈ part := by
  have hjoin : [slash].intercalate (path.splitOn slash) = path := List.intercalate_splitOn slash
  rw [← hjoin] at h
  obtain ⟨part, hpart, hmem⟩ := (mem_intercalate h).resolve_left hc
  exact ⟨part, List.mem_filter.mpr ⟨hpart, by simpa using List.ne_nil_of_mem hmem⟩, hmem⟩

section Whole

variable {curDir name : Bytes} (hname : IsPart name)

include hname

theorem isPart_subPath : ∀ part ∈ (subPath curDir name).path_, IsPart part := by
  intro part hpart
  rcases List.mem_append.mp hpart with hpart | hpart
  · exact EuhatPath.isPart_of_mem_inStr hpart
  · exact List.mem_singleton.mp hpart ▸ hname

/-- A name in one piece stays in one piece. -/
theorem unixParts_askedPath : unixParts (askedPath curDir name) = (EuhatPath.inStr curDir).path_ ++ [name] := by
  rw [askedPath, combinePath_eq, unixParts_whCorrectFilePath, ← EuhatPath.path_inStr,
    EuhatPath.path_inStr_toStr (isPart_subPath hname)]
  rfl

theorem head_askedPath_iff :
    (askedPath curDir name).head? = some slash ↔ (EuhatPath.inStr curDir).isAbsPath_ = true := by
  have hne : (subPath curDir name).path_.isEmpty = false :=
    List.isEmpty_eq_false_iff.mpr (List.append_ne_nil_of_right_ne_nil _ (List.cons_ne_nil _ _))
  rw [askedPath, combinePath_eq, head_whCorrectFilePath_iff,
    EuhatPath.isAbsPath_inStr_toStr (isPart_subPath hname), hne, Bool.not_false, Bool.and_true]
  exact Iff.rfl

end Whole

/-- **What is listed can be asked for exactly if the path has no backslash and the folder is not the root.** -/
theorem addresses_iff {curDir name : Bytes} (hcurDir : curDir.head? = some slash)
    (hname : name ≠ [] ∧ slash ∉ name) :
    Addresses curDir name ↔ backslash ∉ curDir ∧ backslash ∉ name ∧ curDir ≠ [slash] := by
  have hlen : 1 < curDir.length ↔ curDir ≠ [slash] := by
    obtain ⟨rest, rfl⟩ := List.head?_eq_some_iff.mp hcurDir
    cases rest with
    | nil => simp
    | cons c rest => simp
  have habs : (EuhatPath.inStr curDir).isAbsPath_ = true ↔ curDir ≠ [slash] := by
    rw [isAbsPath_inStr_iff, hlen]
    exact and_iff_left (.inl hcurDir)
  refine ⟨fun h => ?_, fun ⟨hdir, hbackslash, hroot⟩ => ?_⟩
  · have hmem : ∀ part ∈ unixParts curDir ++ [name], backslash ∉ part := by
      rw [← h.parts]
      exact fun part => not_mem_of_mem_whCorrectFilePath
    have hbackslash := hmem name (List.mem_append_right _ List.mem_cons_self)
    refine ⟨fun hdir => ?_, hbackslash, ?_⟩
    · obtain ⟨part, hpart, hin⟩ := exists_mem_unixParts hdir (by decide)
      exact hmem part (List.mem_append_left _ hpart) hin
    · exact habs.mp ((head_askedPath_iff ⟨hname.1, hname.2, hbackslash⟩).mp h.absolute)
  · have hpart : IsPart name := ⟨hname.1, hname.2, hbackslash⟩
    refine ⟨(head_askedPath_iff hpart).mpr (habs.mpr hroot), ?_⟩
    rw [unixParts_askedPath hpart, EuhatPath.path_inStr, strReplaceChar_of_not_mem hdir]

/-- **The file `b` in the folder `/a` can be asked for.** -/
theorem plain_addresses : Addresses [47, 97] [98] :=
  (addresses_iff rfl (by decide)).mpr (by decide)

/-- **Asked for the file `b\c` in the folder `/a`, the server looks for `c` in `/a/b`.** -/
theorem backslash_not_addresses : askedPath [47, 97] [98, 92, 99] = [47, 97, 47, 98, 47, 99] ∧
    ¬ Addresses [47, 97] [98, 92, 99] := by
  refine ⟨by decide +kernel, fun h => ?_⟩
  have hparts := h.parts
  revert hparts
  decide +kernel

end EuhatExpert
