import EuhatExpert.FileMan.CorrectPath

/-!
# FileMan/PathParts — the parts of a path, before and after it is corrected

On Unix the parts of a path are what stands between its slashes, without the empty ones.  `EuhatPath` takes
a backslash for a slash, and a path for absolute that starts with either and has a second character; what
it prints it reads back, but for the root (`isFaithful_iff`).
-/

namespace EuhatExpert

open Machinery

/-- The parts of a path on Unix. -/
def unixParts (path : Bytes) : List Bytes := (path.splitOn slash).filter fun part => !part.isEmpty

/-- A name that `EuhatPath` keeps in one piece. -/
structure IsPart (part : Bytes) : Prop where
  ne_nil : part ≠ []
  noSlash : slash ∉ part
  noBackslash : backslash ∉ part

/-! ## Replacing separators -/

/-- Without backslashes a path is as it should be. -/
theorem strReplaceChar_of_not_mem {path : Bytes} (h : backslash ∉ path) :
    strReplaceChar path backslash slash = path := by
  refine (List.map_congr_left fun c hc => ?_).trans (List.map_id' path)
  exact if_neg fun hb : c = backslash => h (hb ▸ hc)

/-- No backslash is left. -/
theorem backslash_not_mem_strReplaceChar (path : Bytes) :
    backslash ∉ strReplaceChar path backslash slash := by
  intro h
  obtain ⟨c, -, hc⟩ := List.mem_map.mp h
  split_ifs at hc with hb
  · exact absurd hc (by decide)
  · exact hb hc

/-- Parts have no separator of their own, so only those between them are replaced. -/
theorem strReplaceChar_intercalate {split : UInt8} (hsplit : split = slash ∨ split = backslash)
    {parts : List Bytes} (h : ∀ part ∈ parts, IsPart part) :
    strReplaceChar ([split].intercalate parts) backslash slash = [slash].intercalate parts := by
  have hone : strReplaceChar [split] backslash slash = [slash] := by
    rcases hsplit with rfl | rfl
    · decide
    · decide
  induction parts with
  | nil => rfl
  | cons part parts ih =>
    have hpart := strReplaceChar_of_not_mem (h part List.mem_cons_self).noBackslash
    cases parts with
    | nil =>
      rw [List.intercalate_singleton, List.intercalate_singleton]
      exact hpart
    | cons part' parts =>
      have ih := ih fun q hq => h q (List.mem_cons_of_mem _ hq)
      rw [strReplaceChar] at hpart ih hone ⊢
      rw [List.intercalate_cons_cons, List.intercalate_cons_cons, List.map_append, List.map_append, ih,
        hpart, hone]

/-! ## Parts -/

/-- Nothing has no parts. -/
theorem unixParts_nil : unixParts [] = [] := by
  rw [unixParts, List.splitOn_nil]
  rfl

/-- A slash in front is no part. -/
theorem unixParts_cons_slash (path : Bytes) : unixParts (slash :: path) = unixParts path := by
  have happend := List.splitOn_append_cons_self (a := slash) [] path
  rw [List.nil_append, List.splitOn_nil] at happend
  rw [unixParts, happend, List.singleton_append, List.filter_cons_of_neg (by decide), unixParts]

/-- **Parts put together are found again.** -/
theorem unixParts_intercalate {parts : List Bytes} (h : ∀ part ∈ parts, part ≠ [] ∧ slash ∉ part) :
    unixParts ([slash].intercalate parts) = parts := by
  rcases eq_or_ne parts [] with rfl | hne
  · exact unixParts_nil
  · rw [unixParts, List.splitOn_intercalate slash (fun part hpart => (h part hpart).2) hne,
      List.filter_eq_self]
    intro part hpart
    simp [(h part hpart).1]

/-- A part is some of the path, and has no slash. -/
theorem mem_unixParts {path part : Bytes} (h : part ∈ unixParts path) : part ≠ [] ∧ slash ∉ part ∧ part ⊆ path := by
  obtain ⟨hmem, hne⟩ := List.mem_filter.mp h
  refine ⟨by simpa using hne, ?_, subset_of_mem_splitOn hmem⟩
  exact not_mem_of_mem_splitOn hmem

namespace EuhatPath

theorem path_inStr (path : Bytes) : (inStr path).path_ = unixParts (strReplaceChar path backslash slash) := rfl

/-- They are parts of neither kind of system. -/
theorem isPart_of_mem_inStr {path part : Bytes} (h : part ∈ (inStr path).path_) : IsPart part := by
  obtain ⟨hne, hslash, hsub⟩ := mem_unixParts h
  exact ⟨hne, hslash, fun hb => backslash_not_mem_strReplaceChar path (hsub hb)⟩

/-! ## What is printed is read back -/

section Printed

variable {p : EuhatPath} (h : ∀ part ∈ p.path_, IsPart part)

include h

/-- A path written for a Windows server is one for a Unix server with its separators replaced. -/
theorem strReplaceChar_toStr : strReplaceChar p.toStr backslash slash
    = (if p.isUnix_ && p.isAbsPath_ then [slash] else []) ++ [slash].intercalate p.path_ := by
  have hsplit : (if p.isUnix_ then slash else backslash) = slash ∨
      (if p.isUnix_ then slash else backslash) = backslash := by
    split_ifs
    · exact .inl rfl
    · exact .inr rfl
  have hhead : strReplaceChar (if p.isUnix_ && p.isAbsPath_ then
      [if p.isUnix_ then slash else backslash] else []) backslash slash
        = if p.isUnix_ && p.isAbsPath_ then [slash] else [] := by
    cases p.isUnix_ <;> cases p.isAbsPath_ <;> decide
  have hparts := strReplaceChar_intercalate hsplit h
  rw [strReplaceChar] at hhead hparts ⊢
  rw [toStr, List.map_append, hhead, hparts]

/-- **The parts of a path are found in what is printed of it.** -/
theorem path_inStr_toStr : (inStr p.toStr).path_ = p.path_ := by
  have hparts := unixParts_intercalate fun part hpart => ⟨(h part hpart).ne_nil, (h part hpart).noSlash⟩
  rw [path_inStr, strReplaceChar_toStr h]
  split_ifs
  · rw [List.singleton_append, unixParts_cons_slash, hparts]
  · rw [List.nil_append, hparts]

theorem head_intercalate : ([slash].intercalate p.path_).head? ≠ some slash := by
  cases hpath : p.path_ with
  | nil => exact nofun
  | cons part parts =>
    have hpart := h part (hpath ▸ List.mem_cons_self)
    obtain ⟨c, cs, rfl⟩ := List.exists_cons_of_ne_nil hpart.ne_nil
    have hc : c ≠ slash := fun hc => hpart.noSlash (hc ▸ List.mem_cons_self)
    cases parts with
    | nil =>
      rw [List.intercalate_singleton]
      exact fun heq => hc (Option.some.inj heq)
    | cons part' parts =>
      rw [List.intercalate_cons_cons]
      exact fun heq => hc (Option.some.inj heq)

/-- What is printed is read back as absolute where it was printed so, and has a part. -/
theorem isAbsPath_inStr_toStr :
    (inStr p.toStr).isAbsPath_ = (p.isUnix_ && p.isAbsPath_ && !p.path_.isEmpty) := by
  have hbuf := strReplaceChar_toStr h
  rw [inStr]
  dsimp only
  rw [hbuf]
  cases hroot : p.isUnix_ && p.isAbsPath_ with
  | false =>
    rw [if_neg Bool.false_ne_true, List.nil_append, Bool.false_and, beq_eq_false_iff_ne.mpr (head_intercalate h),
      Bool.and_false]
  | true =>
    have hhead : (slash :: [slash].intercalate p.path_).head? == some slash := BEq.rfl
    rw [if_pos rfl, List.singleton_append, hhead, Bool.and_true, Bool.true_and, List.length_cons]
    cases hpath : p.path_ with
    | nil => rfl
    | cons part parts =>
      have hne := (h part (hpath ▸ List.mem_cons_self)).ne_nil
      have hpos := List.length_pos_of_ne_nil hne
      have hle : part.length ≤ ([slash].intercalate (part :: parts)).length := by
        rw [length_intercalate, List.map_cons, List.sum_cons]
        omega
      exact decide_eq_true (by omega)

end Printed

end EuhatPath

/-! ## Corrected paths -/

/-- **A path is absolute if it starts with a separator.** -/
theorem isAbsPath_inStr_iff (path : Bytes) : (EuhatPath.inStr path).isAbsPath_ = true ↔
    1 < path.length ∧ (path.head? = some slash ∨ path.head? = some backslash) := by
  rw [EuhatPath.inStr]
  dsimp only
  rw [Bool.and_eq_true, decide_eq_true_iff, length_strReplaceChar, beq_iff_eq]
  refine and_congr_right fun _ => ?_
  cases path with
  | nil => simp [strReplaceChar]
  | cons c path =>
    simp only [strReplaceChar, List.map_cons, List.head?_cons, Option.some_inj]
    split_ifs with hc
    · simp [hc]
    · simp [hc]

/-- What a Unix server makes of a path it is sent. -/
theorem whCorrectFilePath_eq (path : Bytes) : whCorrectFilePath true path
    = (if (EuhatPath.inStr path).isAbsPath_ then [slash] else [])
      ++ [slash].intercalate (EuhatPath.inStr path).path_ := by
  rw [whCorrectFilePath, EuhatPath.toStr]
  dsimp only
  rw [Bool.true_and, if_pos rfl]

/-- **The parts of a corrected path** are those between its slashes and backslashes. -/
theorem unixParts_whCorrectFilePath (path : Bytes) :
    unixParts (whCorrectFilePath true path) = unixParts (strReplaceChar path backslash slash) := by
  have hparts := unixParts_intercalate fun part (hpart : part ∈ (EuhatPath.inStr path).path_) =>
    ⟨(EuhatPath.isPart_of_mem_inStr hpart).ne_nil, (EuhatPath.isPart_of_mem_inStr hpart).noSlash⟩
  rw [whCorrectFilePath_eq, ← EuhatPath.path_inStr]
  split_ifs
  · rw [List.singleton_append, unixParts_cons_slash, hparts]
  · rw [List.nil_append, hparts]

theorem head_whCorrectFilePath_iff (path : Bytes) : (whCorrectFilePath true path).head? = some slash ↔
    (EuhatPath.inStr path).isAbsPath_ = true := by
  rw [whCorrectFilePath_eq]
  split_ifs with habs
  · exact iff_of_true rfl habs
  · exact iff_of_false
      (EuhatPath.head_intercalate (p := EuhatPath.inStr path) fun part => EuhatPath.isPart_of_mem_inStr) habs

/-- Correcting a path again prints the same parts, absolute only where there is one. -/
theorem whCorrectFilePath_whCorrectFilePath (path : Bytes) :
    whCorrectFilePath true (whCorrectFilePath true path)
      = (if (EuhatPath.inStr path).isAbsPath_ && !(EuhatPath.inStr path).path_.isEmpty then [slash] else [])
        ++ [slash].intercalate (EuhatPath.inStr path).path_ := by
  have hparts : ∀ part ∈ ({ EuhatPath.inStr path with isUnix_ := true } : EuhatPath).path_, IsPart part :=
    fun part => EuhatPath.isPart_of_mem_inStr
  have hpath := EuhatPath.path_inStr_toStr hparts
  have habs := EuhatPath.isAbsPath_inStr_toStr hparts
  rw [← whCorrectFilePath] at hpath habs
  rw [whCorrectFilePath_eq, hpath, habs]
  rfl

/-- A path keeps its meaning when it is corrected, and is corrected once and for all. -/
structure IsFaithful (path : Bytes) : Prop where
  idempotent : whCorrectFilePath true (whCorrectFilePath true path) = whCorrectFilePath true path
  absolute : (whCorrectFilePath true path).head? = some slash ↔
    path.head? = some slash ∨ path.head? = some backslash
  parts : unixParts (whCorrectFilePath true path) = unixParts (strReplaceChar path backslash slash)

/-- A path of separators has no parts, and every other has some. -/
theorem path_inStr_eq_nil_iff (path : Bytes) :
    (EuhatPath.inStr path).path_ = [] ↔ ∀ c ∈ path, c = slash ∨ c = backslash := by
  rw [EuhatPath.path_inStr]
  refine ⟨fun h c hc => ?_, fun h => List.filter_eq_nil_iff.mpr fun part hpart => ?_⟩
  · by_contra hne
    rw [not_or] at hne
    have hmem : c ∈ strReplaceChar path backslash slash := List.mem_map.mpr ⟨c, hc, if_neg hne.2⟩
    have hjoin : [slash].intercalate ((strReplaceChar path backslash slash).splitOn slash) =
        strReplaceChar path backslash slash := List.intercalate_splitOn slash
    rw [← hjoin] at hmem
    obtain ⟨part, hpart, hcpart⟩ := (mem_intercalate hmem).resolve_left hne.1
    have hin : part ∈ unixParts (strReplaceChar path backslash slash) :=
      List.mem_filter.mpr ⟨hpart, by simpa using List.ne_nil_of_mem hcpart⟩
    rw [h] at hin
    cases hin
  · have hslash := not_mem_of_mem_splitOn hpart
    cases part with
    | nil => simp
    | cons c part =>
      obtain ⟨d, hd, hdc⟩ := List.mem_map.mp (subset_of_mem_splitOn hpart List.mem_cons_self)
      refine absurd (List.mem_cons.mpr (.inl ?_)) hslash
      rw [← hdc]
      rcases h d hd with rfl | rfl
      · decide
      · decide

/-- **Correcting keeps a path's meaning exactly if the path is empty or has another byte than separators.** -/
theorem isFaithful_iff (path : Bytes) :
    IsFaithful path ↔ path = [] ∨ ∃ c ∈ path, c ≠ slash ∧ c ≠ backslash := by
  have hnil := path_inStr_eq_nil_iff path
  have habs := isAbsPath_inStr_iff path
  refine ⟨fun h => ?_, fun h => ?_⟩
  · by_contra hseps
    rw [not_or] at hseps
    obtain ⟨hne, hseps⟩ := hseps
    have hall : ∀ c ∈ path, c = slash ∨ c = backslash := by
      intro c hc
      by_contra hc'
      rw [not_or] at hc'
      exact hseps ⟨c, hc, hc'⟩
    have hhead : path.head? = some slash ∨ path.head? = some backslash := by
      obtain ⟨c, path, rfl⟩ := List.exists_cons_of_ne_nil hne
      exact (hall c List.mem_cons_self).imp (congrArg some) (congrArg some)
    have habsolute := (head_whCorrectFilePath_iff path).mp (h.absolute.mpr hhead)
    have hidem := h.idempotent
    rw [whCorrectFilePath_whCorrectFilePath, whCorrectFilePath_eq, habsolute, hnil.mpr hall] at hidem
    exact absurd hidem (by decide)
  · have hsome : (EuhatPath.inStr path).isAbsPath_ = true → (EuhatPath.inStr path).path_ ≠ [] := by
      intro habsolute hparts
      rcases h with rfl | ⟨c, hc, hslash, hbackslash⟩
      · cases habsolute
      · exact (hnil.mp hparts c hc).elim hslash hbackslash
    refine ⟨?_, ?_, unixParts_whCorrectFilePath path⟩
    · rw [whCorrectFilePath_whCorrectFilePath, whCorrectFilePath_eq]
      cases habsolute : (EuhatPath.inStr path).isAbsPath_ with
      | false => rfl
      | true => rw [Bool.true_and, List.isEmpty_eq_false_iff.mpr (hsome habsolute)]; rfl
    · rw [head_whCorrectFilePath_iff, habs, and_iff_right_iff_imp]
      intro hhead
      rcases h with rfl | ⟨c, hc, hslash, hbackslash⟩
      · rcases hhead with hhead | hhead
        all_goals cases hhead
      · -- a path of one separator has no other byte
        obtain ⟨d, path, rfl⟩ := List.exists_cons_of_ne_nil (List.ne_nil_of_mem hc)
        cases path with
        | nil =>
          obtain rfl := List.mem_singleton.mp hc
          rcases hhead with hhead | hhead
          · exact absurd (Option.some.inj hhead) hslash
          · exact absurd (Option.some.inj hhead) hbackslash
        | cons e path => simp

/-- **The root is corrected to the empty path.** -/
theorem root_not_isFaithful : ¬ IsFaithful [slash] := by
  rw [isFaithful_iff]
  decide

end EuhatExpert
