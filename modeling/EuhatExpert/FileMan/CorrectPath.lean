import EuhatExpert.FileMan.SubListBytes
import EuhatExpert.Machinery.Intercalate

/-!
# FileMan/CorrectPath — what becomes of a path on the way through `EuhatPath`

Taking a path apart and putting it together drops separators and changes them, and adds nothing.
-/

namespace EuhatExpert

open Machinery

theorem length_strReplaceChar (str : Bytes) (pattern replace : UInt8) :
    (strReplaceChar str pattern replace).length = str.length := List.length_map _

namespace EuhatPath

theorem path_inStr_sublist (path : Bytes) :
    (inStr path).path_.Sublist ((strReplaceChar path backslash slash).splitOn slash) :=
  List.filter_sublist

/-- The parts of a path that starts with a separator are the parts of what follows it. -/
theorem path_inStr_sublist_tail {path rest : Bytes} (h : strReplaceChar path backslash slash = slash :: rest) :
    (inStr path).path_.Sublist (rest.splitOn slash) := by
  have hsplit : (slash :: rest).splitOn slash = [] :: rest.splitOn slash := by
    have happend := List.splitOn_append_cons_self (a := slash) [] rest
    rwa [List.nil_append, List.splitOn_nil] at happend
  rw [inStr, splitTokenString, h, hsplit]
  dsimp only
  rw [List.filter_cons_of_neg (by decide)]
  exact List.filter_sublist

/-- **A path does not get longer.** -/
theorem length_toStr_inStr_le (path : Bytes) (isUnix : Bool) :
    ({ inStr path with isUnix_ := isUnix }.toStr).length ≤ path.length := by
  have hlen := length_strReplaceChar path backslash slash
  have hle : ∀ {parts : Bytes} (split : UInt8), (inStr path).path_.Sublist (parts.splitOn slash) →
      ([split].intercalate (inStr path).path_).length ≤ parts.length := by
    intro parts split hparts
    have h := length_intercalate_le hparts split slash
    rwa [List.intercalate_splitOn] at h
  rw [toStr, List.length_append]
  dsimp only
  generalize (if isUnix then slash else backslash) = split
  by_cases habs : (isUnix && (inStr path).isAbsPath_) = true
  · obtain ⟨-, habs⟩ := Bool.and_eq_true_iff.mp habs
    have hhead : (strReplaceChar path backslash slash).head? = some slash :=
      beq_iff_eq.mp (Bool.and_eq_true_iff.mp habs).2
    obtain ⟨rest, hrest⟩ := List.head?_eq_some_iff.mp hhead
    have htail := hle split (path_inStr_sublist_tail hrest)
    rw [hrest, List.length_cons] at hlen
    split_ifs
    rw [List.length_singleton]
    omega
  · have hall := hle split (path_inStr_sublist path)
    rw [if_neg habs, List.length_nil]
    omega

/-- Nothing but separators is added. -/
theorem mem_toStr_inStr {path : Bytes} {isUnix : Bool} {c : UInt8}
    (h : c ∈ { inStr path with isUnix_ := isUnix }.toStr) : c = slash ∨ c = backslash ∨ c ∈ path := by
  have hsplit : ∀ {d : UInt8}, d = (if isUnix then slash else backslash) →
      d = slash ∨ d = backslash ∨ d ∈ path := by
    intro d hd
    split_ifs at hd
    · exact .inl hd
    · exact .inr (.inl hd)
  rw [toStr, List.mem_append] at h
  dsimp only at h
  generalize (if isUnix then slash else backslash) = split at h hsplit
  rcases h with h | h
  · split_ifs at h
    · exact hsplit (List.mem_singleton.mp h)
    · cases h
  · rcases mem_intercalate h with h | ⟨part, hpart, h⟩
    · exact hsplit h
    · have hmem := subset_of_mem_splitOn ((path_inStr_sublist path).subset hpart) h
      obtain ⟨d, hd, hdc⟩ := List.mem_map.mp hmem
      split_ifs at hdc
      · exact .inl hdc.symm
      · exact .inr (.inr (hdc ▸ hd))

end EuhatPath

/-- **A C string stays one when it is corrected.** -/
theorem isCStr_whCorrectFilePath {path : Bytes} (h : IsCStr path) (isUnix : Bool) :
    IsCStr (whCorrectFilePath isUnix path) where
  noNul hnul := by
    rcases EuhatPath.mem_toStr_inStr hnul with h₀ | h₀ | h₀
    · cases h₀
    · cases h₀
    · exact h.noNul h₀
  short := by
    have hle := EuhatPath.length_toStr_inStr_le path isUnix
    have hshort := h.short
    rw [whCorrectFilePath]
    omega

end EuhatExpert
