import EuhatExpert.Machinery.Run
import EuhatExpert.Os.EuhatFileHandles

/-!
# Os/FileHandleTable — the entries of `files_` and the handles they stand for

`EuhatFileHandles` makes an entry for every file it opens, and finds it again by the handle.  Handles are
addresses that the C library chooses: other ones than those that are open, but maybe ones that were closed.
`consistent_iff`: entries and open handles correspond exactly as long as no open of a path that starts with
`EUHAT_PATH_DB` succeeded, for the entry made for such a path stays in the table without a handle.
-/

namespace EuhatExpert

open Machinery

/-- A `FileEntry`, with the address of its `FILE`. -/
structure HandleEntry where
  key_ : Bytes
  mode_ : Bytes
  type_ : FileEntry.Type
  fp_ : Option ℕ
  deriving DecidableEq, Repr

/-- `files_`, and the handles that are open in the C library, with the paths they were opened with. -/
structure HandleTable where
  files_ : List HandleEntry
  opened : ℕ → Option Bytes

namespace HandleTable

/-- `EuhatFileHandles::fopen`, where `whFopen` returns `result`. -/
def fopen (filePath mode : Bytes) (result : Option ℕ) (t : HandleTable) : Option ℕ × HandleTable :=
  if filePath = [] then (none, t)
  else
    let path := whGetAbsolutePath filePath
    match result with
    | none => (none, t)
    | some fp =>
      let opened := Function.update t.opened fp (some path)
      if strIsStartWith path EUHAT_PATH_CLIPBOARD then
        (some fp, ⟨t.files_ ++ [⟨path, mode, .TypeClipboard, some fp⟩], opened⟩)
      else if strIsStartWith path EUHAT_PATH_DB then
        -- the handle is closed again, and the entry stays as `newEntry` made it
        (none, ⟨t.files_ ++ [⟨path, [], .TypeNormalFile, none⟩], Function.update opened fp none⟩)
      else (some fp, ⟨t.files_ ++ [⟨path, mode, .TypeNormalFile, some fp⟩], opened⟩)

/-- `find_if` of a handle. -/
def find (fp : Option ℕ) (t : HandleTable) : Option HandleEntry := t.files_.find? fun entry => entry.fp_ = fp

def fgetPath (fp : Option ℕ) (t : HandleTable) : Bytes := ((t.find fp).map HandleEntry.key_).getD []

/-- What closing an entry does to the clipboard: `content` is that of the file of the entry, if it is there. -/
def clipboard (content : Option Bytes) (entry : HandleEntry) : Option (Option Bytes) :=
  if entry.type_ = .TypeClipboard ∧ (119 ∈ entry.mode_ ∨ 97 ∈ entry.mode_) ∧
      (content.getD []).length ≤ 1024 * 1024 * 5 then some content
  else none

/-- `EuhatFileHandles::fclose`, with what it puts on the clipboard; `whFClose` of a null handle does not
return. -/
def fclose (content : Option Bytes) (fp : Option ℕ) (t : HandleTable) :
    Option (HandleTable × Option (Option Bytes)) :=
  match t.find fp with
  | none => some (t, none)
  | some entry => fp.map fun fp =>
    (⟨t.files_.eraseP fun entry => entry.fp_ = some fp, Function.update t.opened fp none⟩, clipboard content entry)

def start : HandleTable := ⟨[], fun _ => none⟩

end HandleTable

/-! ## Runs -/

/-- A call: of `fopen` with what `whFopen` returned and what it returned itself, or of `fclose`. -/
inductive HandleCall
  | fopen (filePath mode : Bytes) (result ret : Option ℕ)
  | fclose (fp : Option ℕ)
  deriving DecidableEq, Repr

namespace HandleTable

/-- A call on any paths, modes and handles.  A new handle is another one than those that are open. -/
inductive Step : HandleTable → HandleCall → HandleTable → Prop
  | fopen {t : HandleTable} (filePath mode : Bytes) (result : Option ℕ)
      (hnew : ∀ fp, result = some fp → t.opened fp = none) :
      Step t (.fopen filePath mode result (t.fopen filePath mode result).1) (t.fopen filePath mode result).2
  | fclose {t t' : HandleTable} (content : Option Bytes) (fp : Option ℕ) {posted : Option (Option Bytes)}
      (h : t.fclose content fp = some (t', posted)) : Step t (.fclose fp) t'

/-- The handles that calls handed out and did not close since, with the paths they were opened with. -/
def handed (calls : List HandleCall) : ℕ → Option Bytes :=
  calls.foldl (fun handles c => match c with
    | .fopen filePath _ _ (some fp) => Function.update handles fp (some (whGetAbsolutePath filePath))
    | .fopen _ _ _ none => handles
    | .fclose (some fp) => Function.update handles fp none
    | .fclose none => handles) fun _ => none

/-- The entries are one for each handle that was handed out and not closed, which are the open ones; the path of
such a handle is the one it was opened with, and closing it closes it and removes its entry, and nothing else. -/
structure Consistent (calls : List HandleCall) (t : HandleTable) : Prop where
  entries : ∀ entry ∈ t.files_, ∃ fp, entry.fp_ = some fp ∧ handed calls fp = some entry.key_
  handles : ∀ fp path, handed calls fp = some path → ∃ entry ∈ t.files_, entry.fp_ = some fp ∧ entry.key_ = path
  nodup : (t.files_.map HandleEntry.fp_).Nodup
  opened : t.opened = handed calls
  paths : ∀ fp path, handed calls fp = some path → t.fgetPath (some fp) = path
  closes : ∀ fp path, handed calls fp = some path → ∀ content, ∃ posted, t.fclose content (some fp) =
    some (⟨t.files_.filter fun entry => entry.fp_ ≠ some fp, Function.update t.opened fp none⟩, posted)

/-- An open that succeeds, and is refused for its path. -/
def Refused : HandleCall → Prop
  | .fopen filePath _ (some _) _ =>
    filePath ≠ [] ∧ strIsStartWith (whGetAbsolutePath filePath) EUHAT_PATH_DB = true
  | _ => False

/-! ## The table by its handles -/

/-- What the entries say about the handles. -/
structure Sound (calls : List HandleCall) (t : HandleTable) : Prop where
  entries : ∀ entry ∈ t.files_, ∃ fp, entry.fp_ = some fp ∧ handed calls fp = some entry.key_
  handles : ∀ fp path, handed calls fp = some path → ∃ entry ∈ t.files_, entry.fp_ = some fp ∧ entry.key_ = path
  nodup : (t.files_.map HandleEntry.fp_).Nodup
  opened : t.opened = handed calls

variable {calls : List HandleCall} {c : HandleCall} {t t' : HandleTable}

/-- With different handles, the entry of a handle is found. -/
theorem find_eq (hnodup : (t.files_.map HandleEntry.fp_).Nodup) {entry : HandleEntry} (h : entry ∈ t.files_) :
    t.find entry.fp_ = some entry := by
  rw [find]
  obtain ⟨files, opened⟩ := t
  dsimp only at *
  induction files with
  | nil => cases h
  | cons first files ih =>
    rw [List.map_cons, List.nodup_cons] at hnodup
    rcases List.mem_cons.mp h with rfl | h
    · exact List.find?_cons_of_pos (decide_eq_true rfl)
    · have hne : first.fp_ ≠ entry.fp_ := fun heq => hnodup.1 (heq ▸ List.mem_map_of_mem h)
      rw [List.find?_cons_of_neg (by simpa using hne)]
      exact ih hnodup.2 h

/-- With different handles, the first entry of a handle is the only one. -/
theorem eraseP_eq_filter {files : List HandleEntry} (hnodup : (files.map HandleEntry.fp_).Nodup) (fp : Option ℕ) :
    files.eraseP (fun entry => entry.fp_ = fp) = files.filter fun entry => entry.fp_ ≠ fp := by
  induction files with
  | nil => rfl
  | cons first files ih =>
    rw [List.map_cons, List.nodup_cons] at hnodup
    by_cases hfirst : first.fp_ = fp
    · rw [List.eraseP_cons_of_pos (by simpa using hfirst), List.filter_cons_of_neg (by simpa using hfirst)]
      have hother : ∀ entry ∈ files, entry.fp_ ≠ fp := fun entry hentry heq =>
        hnodup.1 (List.mem_map.mpr ⟨entry, hentry, heq.trans hfirst.symm⟩)
      exact (List.filter_eq_self.mpr fun entry hentry => decide_eq_true (hother entry hentry)).symm
    · rw [List.eraseP_cons_of_neg (by simpa using hfirst), List.filter_cons_of_pos (by simpa using hfirst),
        ih hnodup.2]

/-- **Sound entries make the table consistent.** -/
theorem Sound.consistent (h : Sound calls t) : Consistent calls t where
  entries := h.entries
  handles := h.handles
  nodup := h.nodup
  opened := h.opened
  paths fp path hfp := by
    obtain ⟨entry, hmem, hentry, rfl⟩ := h.handles fp path hfp
    rw [fgetPath, ← hentry, find_eq h.nodup hmem]
    rfl
  closes fp path hfp content := by
    obtain ⟨entry, hmem, hentry, -⟩ := h.handles fp path hfp
    refine ⟨clipboard content entry, ?_⟩
    rw [fclose, ← hentry, find_eq h.nodup hmem, hentry]
    dsimp only
    rw [Option.map_some, eraseP_eq_filter h.nodup]

/-! ## One call -/

theorem handed_concat (calls : List HandleCall) (c : HandleCall) :
    handed (calls ++ [c]) = match c with
      | .fopen filePath _ _ (some fp) =>
        Function.update (handed calls) fp (some (whGetAbsolutePath filePath))
      | .fopen _ _ _ none => handed calls
      | .fclose (some fp) => Function.update (handed calls) fp none
      | .fclose none => handed calls := by
  rw [handed, List.foldl_append]
  rfl

/-- A new entry for a new handle. -/
theorem Sound.push (h : Sound calls t) {fp : ℕ} {entry : HandleEntry} (hnew : t.opened fp = none)
    (hentry : entry.fp_ = some fp)
    (hc : handed (calls ++ [c]) = Function.update (handed calls) fp (some entry.key_)) :
    Sound (calls ++ [c]) ⟨t.files_ ++ [entry], Function.update t.opened fp (some entry.key_)⟩ := by
  have hfree : handed calls fp = none := h.opened ▸ hnew
  have hother : ∀ e ∈ t.files_, e.fp_ ≠ some fp := by
    intro e he heq
    obtain ⟨fp', hfp', hhanded⟩ := h.entries e he
    obtain rfl : fp' = fp := Option.some.inj (hfp'.symm.trans heq)
    rw [hfree] at hhanded
    cases hhanded
  refine ⟨fun e he => ?_, fun fp' path hpath => ?_, ?_, ?_⟩
  · rcases List.mem_append.mp he with he | he
    · obtain ⟨fp', hfp', hhanded⟩ := h.entries e he
      have hne : fp' ≠ fp := fun heq => hother e he (heq ▸ hfp')
      exact ⟨fp', hfp', by rw [hc, Function.update_of_ne hne, hhanded]⟩
    · rw [List.mem_singleton.mp he]
      exact ⟨fp, hentry, by rw [hc, Function.update_self]⟩
  · rw [hc] at hpath
    by_cases heq : fp' = fp
    · subst heq
      rw [Function.update_self] at hpath
      exact ⟨entry, List.mem_append_right _ (List.mem_singleton_self _), hentry, Option.some.inj hpath⟩
    · rw [Function.update_of_ne heq] at hpath
      obtain ⟨e, he, hrest⟩ := h.handles fp' path hpath
      exact ⟨e, List.mem_append_left _ he, hrest⟩
  · rw [List.map_append, List.map_singleton, List.nodup_append]
    refine ⟨h.nodup, List.nodup_singleton _, fun a ha b hb => ?_⟩
    obtain ⟨e, he, rfl⟩ := List.mem_map.mp ha
    rw [List.mem_singleton.mp hb, hentry]
    exact hother e he
  · dsimp only
    rw [hc, h.opened]

/-- An entry that is gone with its handle. -/
theorem Sound.erase (h : Sound calls t) {fp : ℕ}
    (hc : handed (calls ++ [c]) = Function.update (handed calls) fp none) :
    Sound (calls ++ [c])
      ⟨t.files_.filter fun entry => entry.fp_ ≠ some fp, Function.update t.opened fp none⟩ := by
  refine ⟨fun e he => ?_, fun fp' path hpath => ?_, ?_, ?_⟩
  · rw [List.mem_filter, decide_eq_true_eq] at he
    obtain ⟨fp', hfp', hhanded⟩ := h.entries e he.1
    have hne : fp' ≠ fp := fun heq => he.2 (heq ▸ hfp')
    exact ⟨fp', hfp', by rw [hc, Function.update_of_ne hne, hhanded]⟩
  · rw [hc] at hpath
    have hne : fp' ≠ fp := by
      rintro rfl
      rw [Function.update_self] at hpath
      cases hpath
    rw [Function.update_of_ne hne] at hpath
    obtain ⟨e, he, hfp', hkey⟩ := h.handles fp' path hpath
    exact ⟨e, List.mem_filter.mpr ⟨he, decide_eq_true fun heq => hne (Option.some.inj (hfp'.symm.trans heq))⟩,
      hfp', hkey⟩
  · exact h.nodup.sublist (List.filter_sublist.map _)
  · dsimp only
    rw [hc, h.opened]

/-- A call that hands out and closes nothing. -/
theorem Sound.of_handed_eq (h : Sound calls t) (hc : handed (calls ++ [c]) = handed calls) :
    Sound (calls ++ [c]) t :=
  ⟨hc.symm ▸ h.entries, hc.symm ▸ h.handles, h.nodup, h.opened.trans hc.symm⟩

/-- **What `fopen` does**: nothing, or it leaves an entry without a handle, or it hands out a handle and makes
an entry for it. -/
theorem fopen_cases (filePath mode : Bytes) (result : Option ℕ) (t : HandleTable) :
    t.fopen filePath mode result = (none, t) ∧ (filePath = [] ∨ result = none) ∨
    (∃ fp, result = some fp ∧ filePath ≠ [] ∧
      strIsStartWith (whGetAbsolutePath filePath) EUHAT_PATH_DB = true ∧
      ∃ opened, t.fopen filePath mode result =
        (none, ⟨t.files_ ++ [⟨whGetAbsolutePath filePath, [], .TypeNormalFile, none⟩], opened⟩)) ∨
    ∃ fp type, result = some fp ∧ ¬ strIsStartWith (whGetAbsolutePath filePath) EUHAT_PATH_DB = true ∧
      t.fopen filePath mode result = (some fp,
        ⟨t.files_ ++ [⟨whGetAbsolutePath filePath, mode, type, some fp⟩],
          Function.update t.opened fp (some (whGetAbsolutePath filePath))⟩) := by
  rw [fopen]
  by_cases hnil : filePath = []
  · exact .inl ⟨if_pos hnil, .inl hnil⟩
  rw [if_neg hnil]
  cases result with
  | none => exact .inl ⟨rfl, .inr rfl⟩
  | some fp =>
    dsimp only
    by_cases hdb : strIsStartWith (whGetAbsolutePath filePath) EUHAT_PATH_DB = true
    · rw [if_neg (Bool.eq_false_iff.mp (not_clipboard_of_db hdb)), if_pos hdb]
      exact .inr (.inl ⟨fp, rfl, hnil, hdb, _, rfl⟩)
    · refine .inr (.inr ?_)
      rw [if_neg hdb]
      split_ifs
      · exact ⟨fp, _, rfl, hdb, rfl⟩
      · exact ⟨fp, _, rfl, hdb, rfl⟩

/-- A handle that is not in the table was not handed out. -/
theorem Sound.handed_of_find (h : Sound calls t) {fp : ℕ} (hfind : t.find (some fp) = none) :
    handed calls fp = none := by
  cases hhanded : handed calls fp with
  | none => rfl
  | some path =>
    obtain ⟨entry, hmem, hentry, -⟩ := h.handles fp path hhanded
    rw [← hentry, find_eq h.nodup hmem] at hfind
    cases hfind

/-- **A call that refuses no open file keeps the table sound.** -/
theorem Sound.step (h : Sound calls t) (hstep : Step t c t') (hc : ¬ Refused c) : Sound (calls ++ [c]) t' := by
  cases hstep with
  | fopen filePath mode result hnew =>
    rcases fopen_cases filePath mode result t with ⟨heq, -⟩ | ⟨fp, rfl, hnil, hdb, -⟩ | ⟨fp, type, rfl, -, heq⟩
    · rw [heq]
      exact h.of_handed_eq (handed_concat _ _)
    · exact absurd ⟨hnil, hdb⟩ hc
    · rw [heq]
      exact h.push (hnew fp rfl) rfl (handed_concat _ _)
  | fclose content fp hclose =>
    rw [HandleTable.fclose] at hclose
    cases hfind : t.find fp with
    | none =>
      rw [hfind] at hclose
      obtain ⟨rfl, -⟩ := Prod.mk.inj (Option.some.inj hclose)
      refine h.of_handed_eq ?_
      rw [handed_concat]
      cases fp with
      | none => rfl
      | some fp => exact Function.update_eq_self_iff.mpr (h.handed_of_find hfind).symm
    | some entry =>
      rw [hfind] at hclose
      cases fp with
      | none => cases hclose
      | some fp =>
        obtain ⟨rfl, -⟩ := Prod.mk.inj (Option.some.inj hclose)
        rw [eraseP_eq_filter h.nodup]
        exact h.erase (handed_concat _ _)

/-- An entry without a handle. -/
def Leftover (t : HandleTable) : Prop := ∃ entry ∈ t.files_, entry.fp_ = none

/-- No call that returns removes it. -/
theorem Leftover.step (h : Leftover t) (hstep : Step t c t') : Leftover t' := by
  obtain ⟨entry, hmem, hentry⟩ := h
  cases hstep with
  | fopen filePath mode result hnew =>
    rcases fopen_cases filePath mode result t with ⟨heq, -⟩ | ⟨fp, -, -, -, opened, heq⟩ | ⟨fp, type, -, -, heq⟩
    · rw [heq]
      exact ⟨entry, hmem, hentry⟩
    · rw [heq]
      exact ⟨entry, List.mem_append_left _ hmem, hentry⟩
    · rw [heq]
      exact ⟨entry, List.mem_append_left _ hmem, hentry⟩
  | fclose content fp hclose =>
    rw [HandleTable.fclose] at hclose
    cases hfind : t.find fp with
    | none =>
      rw [hfind] at hclose
      obtain ⟨rfl, -⟩ := Prod.mk.inj (Option.some.inj hclose)
      exact ⟨entry, hmem, hentry⟩
    | some found =>
      rw [hfind] at hclose
      cases fp with
      | none => cases hclose
      | some fp =>
        obtain ⟨rfl, -⟩ := Prod.mk.inj (Option.some.inj hclose)
        refine ⟨entry, (List.mem_eraseP_of_neg ?_).mpr hmem, hentry⟩
        simp [hentry]

/-- A refused open leaves one. -/
theorem leftover_of_refused (hstep : Step t c t') (hc : Refused c) : Leftover t' := by
  cases hstep with
  | fopen filePath mode result hnew =>
    rcases fopen_cases filePath mode result t with ⟨-, hnil | rfl⟩ | ⟨fp, -, -, -, opened, heq⟩ |
      ⟨fp, type, rfl, hdb, -⟩
    · cases result with
      | none => exact hc.elim
      | some fp => exact absurd hnil hc.1
    · exact hc.elim
    · rw [heq]
      exact ⟨_, List.mem_append_right _ (List.mem_singleton_self _), rfl⟩
    · exact absurd hc.2 hdb
  | fclose => exact hc.elim

theorem Leftover.not_consistent (h : Leftover t) : ¬ Consistent calls t := by
  intro hcons
  obtain ⟨entry, hmem, hentry⟩ := h
  obtain ⟨fp, hfp, -⟩ := hcons.entries entry hmem
  rw [hentry] at hfp
  cases hfp

theorem sound_start : Sound [] start := ⟨nofun, nofun, List.nodup_nil, rfl⟩

/-- **The table is consistent exactly as long as no open file was refused**, after any calls of `fopen` and
`fclose`. -/
theorem consistent_iff (h : Run Step start calls t) : Consistent calls t ↔ ∀ c ∈ calls, ¬ Refused c := by
  have hinv : (∀ c ∈ calls, ¬ Refused c) ∧ Sound calls t ∨ (∃ c ∈ calls, Refused c) ∧ Leftover t := by
    refine h.invariant_hist (I := fun calls t =>
      (∀ c ∈ calls, ¬ Refused c) ∧ Sound calls t ∨ (∃ c ∈ calls, Refused c) ∧ Leftover t)
      (.inl ⟨nofun, sound_start⟩) ?_
    rintro calls t c t' (⟨hall, hsound⟩ | ⟨⟨bad, hbad, href⟩, hleft⟩) hstep
    · by_cases hc : Refused c
      · exact .inr ⟨⟨c, List.mem_append_right _ (List.mem_singleton_self c), hc⟩, leftover_of_refused hstep hc⟩
      · refine .inl ⟨fun c' hc' => ?_, hsound.step hstep hc⟩
        rcases List.mem_append.mp hc' with hc' | hc'
        · exact hall c' hc'
        · rwa [List.mem_singleton.mp hc']
    · exact .inr ⟨⟨bad, List.mem_append_left _ hbad, href⟩, hleft.step hstep⟩
  rcases hinv with ⟨hall, hsound⟩ | ⟨⟨c, hc, href⟩, hleft⟩
  · exact ⟨fun _ => hall, fun _ => hsound.consistent⟩
  · exact ⟨fun hcons => absurd hcons hleft.not_consistent, fun hall => absurd href (hall c hc)⟩

/-- A file opened and closed, and another one that is given the same handle. -/
def reopened : List HandleCall :=
  [.fopen [slash, 97] [114] (some 1) (some 1), .fclose (some 1), .fopen [slash, 98] [119] (some 1) (some 1)]

/-- The table with one entry, of a file opened under handle 1. -/
def oneOpen (path mode : Bytes) : HandleTable :=
  ⟨[⟨path, mode, .TypeNormalFile, some 1⟩], Function.update (fun _ => none) 1 (some path)⟩

theorem fopen_start (ch : UInt8) (mode : Bytes) (hch : ch = 97 ∨ ch = 98) :
    start.fopen [slash, ch] mode (some 1) = (some 1, oneOpen [slash, ch] mode) := by
  have hpath : whGetAbsolutePath [slash, ch] = [slash, ch] := by
    obtain rfl | rfl := hch <;> decide +kernel
  rw [fopen, if_neg (List.cons_ne_nil _ _), hpath]
  dsimp only
  rw [if_neg, if_neg]
  · rfl
  · obtain rfl | rfl := hch <;> decide +kernel
  · obtain rfl | rfl := hch <;> decide +kernel

theorem fclose_oneOpen (path mode : Bytes) : (oneOpen path mode).fclose none (some 1) = some (start, none) := by
  have hopened : Function.update (Function.update (fun _ : ℕ => (none : Option Bytes)) 1 (some path)) 1 none
      = fun _ => none := by
    rw [Function.update_idem]
    exact Function.update_eq_self 1 fun _ : ℕ => (none : Option Bytes)
  rw [fclose, find, oneOpen]
  simp only [List.find?_cons, decide_true, Option.map_some, List.eraseP_cons, cond_true]
  rw [hopened]
  rfl

/-- The handle that was closed is another file's, under whose path it is found. -/
theorem consistent_of_open : ∃ t, Run Step start reopened t ∧ t.fgetPath (some 1) = [slash, 98] ∧
    Consistent reopened t := by
  have hfirst : Run Step start [.fopen [slash, 97] [114] (some 1) (some 1)] (oneOpen [slash, 97] [114]) := by
    have hstep := Step.fopen (t := start) [slash, 97] [114] (some 1) fun _ _ => rfl
    rw [fopen_start 97 [114] (.inl rfl)] at hstep
    exact .single hstep
  have hclosed := hfirst.snoc (.fclose none (some 1) (fclose_oneOpen [slash, 97] [114]))
  have hrun : Run Step start reopened (oneOpen [slash, 98] [119]) := by
    have hstep := Step.fopen (t := start) [slash, 98] [119] (some 1) fun _ _ => rfl
    rw [fopen_start 98 [119] (.inr rfl)] at hstep
    exact hclosed.snoc hstep
  refine ⟨_, hrun, rfl, (consistent_iff hrun).mpr fun c hc href => ?_⟩
  simp only [reopened, List.mem_cons, List.not_mem_nil, or_false] at hc
  obtain rfl | rfl | rfl := hc
  · exact absurd href.2 (by decide +kernel)
  · exact href
  · exact absurd href.2 (by decide +kernel)

/-- **A file of the database's folder is refused, and its entry stays.** -/
theorem not_consistent_of_db : ¬ ∀ calls t, Run Step start calls t → Consistent calls t := by
  intro h
  have hstep := Step.fopen (t := start) (EUHAT_PATH_DB ++ [97]) [114] (some 1) fun _ _ => rfl
  have href : Refused (.fopen (EUHAT_PATH_DB ++ [97]) [114] (some 1)
      (start.fopen (EUHAT_PATH_DB ++ [97]) [114] (some 1)).1) := ⟨by decide +kernel, by decide +kernel⟩
  exact (leftover_of_refused hstep href).not_consistent (h _ _ (.single hstep))

end HandleTable

end EuhatExpert
