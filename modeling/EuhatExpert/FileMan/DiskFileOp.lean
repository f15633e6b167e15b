import EuhatExpert.FileMan.Disk
import EuhatExpert.FileMan.FileManFileOp

/-!
# FileMan/DiskFileOp — the file operations on a disk, by the entry at their path

What an operation answers, and what it makes of the entry at its path, is told by that entry alone
(`fmWriteFile_yields`, `fmReadFile_yields`).
-/

namespace EuhatExpert

open Machinery TraceM

namespace Disk

/-! ## Folders and deletions -/

theorem get_opMkDir_of_ne {path path' : Bytes} (d : Disk) (h : path' ≠ path) :
    (opMkDir path d).2.get path' = d.get path' := by
  rw [opMkDir]
  split
  · rfl
  · exact d.get_set_of_ne _ h

/-- The folders above a path are shorter. -/
theorem not_mem_containers (path : Bytes) : path ∉ containers path := by
  intro h
  obtain ⟨i, hi, h⟩ := List.mem_filterMap.mp h
  split_ifs at h
  have hlength : (path.take i).length = path.length := congrArg List.length (Option.some.inj h)
  rw [List.length_take] at hlength
  have hi' : i < path.length := List.mem_range.mp hi
  omega

/-- Making the folders above a path leaves its entry alone. -/
theorem get_whPrepareFolder (path : Bytes) (d : Disk) : (whPrepareFolder path d).get path = d.get path := by
  have key : ∀ (folders : List Bytes) (d : Disk), path ∉ folders →
      (folders.foldl (fun d p => (opMkDir p d).2) d).get path = d.get path := by
    intro folders
    induction folders with
    | nil => exact fun _ _ => rfl
    | cons p folders ih =>
      intro d h
      rw [List.foldl_cons, ih _ (List.not_mem_of_not_mem_cons h)]
      exact d.get_opMkDir_of_ne (List.ne_of_not_mem_cons h)
  exact key _ d (not_mem_containers path)

theorem isSome_opMkDir {p q : Bytes} {d : Disk} (h : (d.get q).isSome) : ((opMkDir p d).2.get q).isSome := by
  rw [opMkDir]
  split
  · exact h
  · by_cases hq : q = p
    · rw [hq, get_set_self]
      rfl
    · rw [d.get_set_of_ne _ hq]
      exact h

theorem isSome_opMkDir_self (p : Bytes) (d : Disk) : ((opMkDir p d).2.get p).isSome := by
  rw [opMkDir]
  split
  · rename_i hget
    rw [hget]
    rfl
  · rw [get_set_self]
    rfl

theorem opMkDir_of_isSome {p : Bytes} {d : Disk} (h : (d.get p).isSome) : opMkDir p d = (true, d) := by
  obtain ⟨e, he⟩ := Option.isSome_iff_exists.mp h
  rw [opMkDir, he]

/-- Folders that are there are not made again. -/
theorem whPrepareFolder_of_isSome {path : Bytes} {d : Disk} (h : ∀ p ∈ containers path, (d.get p).isSome) :
    whPrepareFolder path d = d := by
  have key : ∀ folders : List Bytes, (∀ p ∈ folders, (d.get p).isSome) →
      folders.foldl (fun d p => (opMkDir p d).2) d = d := by
    intro folders
    induction folders with
    | nil => exact fun _ => rfl
    | cons p folders ih =>
      intro h
      rw [List.foldl_cons, opMkDir_of_isSome (h p List.mem_cons_self)]
      exact ih fun q hq => h q (List.mem_cons_of_mem _ hq)
  exact key _ h

theorem isSome_whPrepareFolder {path : Bytes} (d : Disk) {p : Bytes} (hp : p ∈ containers path) :
    ((whPrepareFolder path d).get p).isSome := by
  have kept : ∀ (folders : List Bytes) (d : Disk), (d.get p).isSome →
      ((folders.foldl (fun d p => (opMkDir p d).2) d).get p).isSome := by
    intro folders
    induction folders with
    | nil => exact fun _ h => h
    | cons q folders ih => exact fun d h => ih _ (isSome_opMkDir h)
  have key : ∀ (folders : List Bytes) (d : Disk), p ∈ folders →
      ((folders.foldl (fun d p => (opMkDir p d).2) d).get p).isSome := by
    intro folders
    induction folders with
    | nil => exact fun _ h => by cases h
    | cons q folders ih =>
      intro d h
      obtain rfl | h := List.mem_cons.mp h
      · exact kept folders _ (isSome_opMkDir_self p d)
      · exact ih _ h
  exact key _ d hp

/-- What is left of an entry by `opUnlink`. -/
def unlinked : Option Entry → Option Entry
  | some (.file _) => none
  | e => e

theorem get_opUnlink (path : Bytes) (d : Disk) : (opUnlink path d).2.get path = unlinked (d.get path) := by
  rw [opUnlink]
  cases hget : d.get path with
  | none => exact hget
  | some e =>
    cases e with
    | file content => exact d.get_unset_self
    | folder => exact hget

theorem unlinked_unlinked (e : Option Entry) : unlinked (unlinked e) = unlinked e := by
  obtain _ | _ | _ := e
  all_goals rfl

/-! ## Writing -/

/-- The content `fopen` finds at a path for appending, or makes. -/
def opens (path : Bytes) (e : Option Entry) : Option Bytes :=
  match path, e with
  | [], _ => none
  | _, some (.file content) => some content
  | _, some .folder => none
  | _, none => some []

/-- What an entry holds. -/
def contentOf : Option Entry → Bytes
  | some (.file content) => content
  | _ => []

theorem getD_file (d : Disk) (path : Bytes) : (d.file path).getD [] = contentOf (d.get path) := by
  rw [file]
  obtain _ | _ | _ := d.get path
  all_goals rfl

theorem contentOf_unlinked (e : Option Entry) : contentOf (unlinked e) = [] := by
  obtain _ | _ | _ := e
  all_goals rfl

theorem opens_eq {path content : Bytes} {e : Option Entry} (h : opens path e = some content) :
    content = contentOf e := by
  obtain _ | ⟨c, path⟩ := path
  · cases h
  · obtain _ | _ | _ := e
    all_goals cases h
    all_goals rfl

/-- Where one content can be appended to, every one can. -/
theorem opens_file {path content : Bytes} {e : Option Entry} (h : opens path e = some content)
    (content' : Bytes) : opens path (some (.file content')) = some content' := by
  obtain _ | ⟨c, path⟩ := path
  · cases h
  · rfl

theorem fopenAppend_of_none {path : Bytes} {d : Disk} (h : opens path (d.get path) = none) :
    fopenAppend path d = (false, d) := by
  cases path with
  | nil => rfl
  | cons c path =>
    rw [fopenAppend.eq_def]
    cases hget : d.get (c :: path) with
    | none => rw [hget] at h; cases h
    | some e =>
      cases e with
      | file content => rw [hget] at h; cases h
      | folder => rfl

theorem fopenAppend_of_some {path content : Bytes} {d : Disk} (h : opens path (d.get path) = some content) :
    ∃ d', fopenAppend path d = (true, d') ∧ d'.get path = some (.file content) := by
  cases path with
  | nil => cases h
  | cons c path =>
    rw [fopenAppend.eq_def]
    cases hget : d.get (c :: path) with
    | none =>
      rw [hget] at h
      cases h
      exact ⟨_, rfl, d.get_set_self _⟩
    | some e =>
      cases e with
      | file content => rw [hget] at h; cases h; exact ⟨d, rfl, hget⟩
      | folder => rw [hget] at h; cases h

/-- What `fmWriteFile` returns, and makes of a content. -/
def written (pos : ℤ) (buf content : Bytes) : ℤ × Bytes :=
  if pos ≠ content.length then
    if pos + buf.length = content.length then (buf.length, content) else (-1, content)
  else (buf.length, content ++ buf)

/-- **A segment written again is taken for what it is.** -/
theorem written_written (pos : ℤ) (buf content : Bytes) :
    written pos buf (written pos buf content).2 = written pos buf content := by
  by_cases hpos : pos = content.length
  · have hwritten : written pos buf content = ((buf.length : ℤ), content ++ buf) :=
      if_neg (not_not_intro hpos)
    rw [hwritten, written]
    dsimp only
    rw [List.length_append, Nat.cast_add, ← hpos]
    split_ifs with hne hlength
    · rfl
    · exact absurd rfl hlength
    · have hbuf : buf = [] := List.length_eq_zero_iff.mp (by omega)
      rw [hbuf, List.append_nil, List.append_nil]
  · have hcontent : (written pos buf content).2 = content := by
      rw [written, if_pos hpos]
      split_ifs
      · rfl
      · rfl
    rw [hcontent]

variable {isUnix : Bool} {free : Bytes → ℤ} {path : Bytes} {d : Disk}

theorem file_of_get {content : Bytes} (h : d.get path = some (.file content)) :
    d.file path = some content := by
  rw [file, h]

theorem fmWriteFile_yields_of_none (h : opens path (d.get path) = none) (segment : Except Fault Segment) :
    Yields (fmWriteFile (os isUnix free) segment path) d (-1) d := by
  refine Yields.bind (yields_call _ _ d) ?_
  dsimp only [os]
  rw [fopenAppend_of_none h]
  exact yields_pure _ _

/-- **`fmWriteFile` on a disk.** -/
theorem fmWriteFile_yields {content : Bytes} (h : opens path (d.get path) = some content) (pos : ℤ)
    (buf : Bytes) :
    ∃ d', Yields (fmWriteFile (os isUnix free) (.ok ⟨pos, buf.length, .ok buf⟩) path) d
        (written pos buf content).1 d' ∧
      d'.get path = some (.file (written pos buf content).2) := by
  obtain ⟨d₁, hopen, hget⟩ := fopenAppend_of_some h
  have hfile : (d₁.file path).getD [] = content := by rw [file_of_get hget]; rfl
  have hrun : ∀ {a : ℤ} {d' : Disk},
      Yields (if pos ≠ content.length then
          if pos + buf.length = content.length then pure (buf.length : ℤ) else pure (-1)
        else do
          Os.onHandle fun w => ((), fwrite path buf w)
          pure (buf.length : ℤ) : FsM Disk ℤ) d₁ a d' →
      Yields (fmWriteFile (os isUnix free) (.ok ⟨pos, buf.length, .ok buf⟩) path) d a d' := by
    intro a d' hrest
    refine Yields.bind (yields_call _ _ d) ?_
    dsimp only [os]
    rw [hopen]
    refine Yields.bind (yields_pure _ _) ?_
    refine Yields.bind (Os.yields_onHandle _ d₁) ?_
    dsimp only
    rw [hfile]
    exact hrest
  rw [written]
  split_ifs with hpos hlength
  · exact ⟨d₁, hrun (by rw [if_pos hpos, if_pos hlength]; exact yields_pure _ _), hget⟩
  · exact ⟨d₁, hrun (by rw [if_pos hpos, if_neg hlength]; exact yields_pure _ _), hget⟩
  · refine ⟨fwrite path buf d₁, hrun ?_, ?_⟩
    · rw [if_neg hpos]
      exact Yields.bind (Os.yields_onHandle _ d₁) (yields_pure _ _)
    · rw [fwrite, file_of_get hget]
      exact d₁.get_set_self _

/-! ## Reading -/

/-- What a request for `len` bytes from `k` on reads of a file. -/
def segmentOf (content : Bytes) (k len : ℕ) : FileRead :=
  ⟨if k + len < content.length then FmResultOk else FmResultFileReachEnd,
    some (k, (content.drop k).take len)⟩

/-- **`fmReadFile` on an open file.** -/
theorem fmReadFile_yields_of {W : Type} {sys : Os W} {path content : Bytes} {x : W}
    (hopened : sys.fopenRead path x = true) (hsize : sys.whGetFileSize path x = content.length)
    (hread : ∀ (pos : ℤ) (len : ℕ), sys.fread path pos len x = (content.drop pos.toNat).take len) {k : ℕ}
    (hk : k ≤ content.length) (len : ℕ) :
    Yields (fmReadFile sys path k len) x (segmentOf content k len) x := by
  refine Yields.bind (yields_call _ _ x) ?_
  dsimp only
  rw [hopened, if_pos rfl]
  refine Yields.bind (Os.yields_onHandle _ x) ?_
  dsimp only
  rw [hsize, if_neg (by omega)]
  by_cases hleft : k + len < content.length
  · have hmore : (content.length : ℤ) - k > len := by omega
    rw [segmentOf, if_pos hleft]
    rw [if_pos hmore, if_pos hmore, if_neg (by omega)]
    refine Yields.bind (Os.yields_onHandle _ x) ?_
    dsimp only
    rw [hread]
    exact yields_pure _ _
  · have hmore : ¬ (content.length : ℤ) - k > len := by omega
    rw [segmentOf, if_neg hleft]
    rw [if_neg hmore, if_neg hmore, if_neg (by omega)]
    refine Yields.bind (Os.yields_onHandle _ x) ?_
    have htake : (content.drop k).take len = (content.drop k).take ((content.length : ℤ) - k).toNat := by
      rw [List.take_of_length_le (by rw [List.length_drop]; omega),
        List.take_of_length_le (by rw [List.length_drop]; omega)]
    dsimp only
    rw [hread, htake]
    exact yields_pure _ _

/-- **`fmReadFile` on a disk.** -/
theorem fmReadFile_yields {content : Bytes} {k : ℕ} (hfile : d.file path = some content)
    (hk : k ≤ content.length) (len : ℕ) :
    Yields (fmReadFile (os isUnix free) path k len) d (segmentOf content k len) d := by
  have hgetD : (d.file path).getD [] = content := by rw [hfile]; rfl
  refine fmReadFile_yields_of ?_ ?_ (fun pos len => ?_) hk len
  · exact Option.isSome_of_mem hfile
  · exact congrArg (fun c : Bytes => (c.length : ℤ)) hgetD
  · exact congrArg (fun c : Bytes => (c.drop pos.toNat).take len) hgetD

/-! ## Storing what was read -/

/-- What a segment from `k` on comes to at the other end: the new offset and the result, and the entry
that is left. -/
def stored (path src : Bytes) (k len : ℕ) (e : Option Entry) : (ℤ × ℤ) × Option Entry :=
  match opens path e with
  | none => ((k, FmResultFailed), e)
  | some content =>
    let w := written k ((src.drop k).take len) content
    if w.1 < 0 then ((k, FmResultFailed), some (.file w.2))
    else ((k + w.1, (segmentOf src k len).result), some (.file w.2))

/-- **`storeFile` on a disk**, for a segment of `src`. -/
theorem storeFile_yields (src : Bytes) (k len : ℕ) :
    ∃ d', Yields (storeFile (os isUnix free) (segmentOf src k len).found path k) d
        (stored path src k len (d.get path)).1 d' ∧
      d'.get path = (stored path src k len (d.get path)).2 := by
  have hresult : (segmentOf src k len).result = FmResultOk ∨
      (segmentOf src k len).result = FmResultFileReachEnd := by
    rw [segmentOf]
    dsimp only
    split_ifs
    · exact .inl rfl
    · exact .inr rfl
  have hrun : ∀ {a : ℤ} {d' : Disk},
      Yields (fmWriteFile (os isUnix free) (segmentOf src k len).found.segment path) d a d' →
      Yields (storeFile (os isUnix free) (segmentOf src k len).found path k) d
        (if a < 0 then (k, FmResultFailed) else (k + a, (segmentOf src k len).result)) d' := by
    intro a d' hwrite
    refine Yields.bind (yields_pure _ d) ?_
    rw [if_pos hresult]
    refine Yields.bind hwrite ?_
    split_ifs
    · exact yields_pure _ _
    · exact yields_pure _ _
  rw [stored]
  cases hopens : opens path (d.get path) with
  | none => exact ⟨d, hrun (fmWriteFile_yields_of_none hopens _), rfl⟩
  | some content =>
    obtain ⟨d', hwrite, hget⟩ := @fmWriteFile_yields isUnix free path d content hopens k
      ((src.drop k).take len)
    refine ⟨d', ?_⟩
    dsimp only
    have hstore := hrun hwrite
    split_ifs at hstore ⊢ with hw
    · exact ⟨hstore, hget⟩
    · exact ⟨hstore, hget⟩

/-- Stored again, the same is answered, and the same is left. -/
theorem stored_stored (path src : Bytes) (k len : ℕ) (e : Option Entry) :
    stored path src k len (stored path src k len e).2 = stored path src k len e := by
  simp only [stored]
  cases hopens : opens path e with
  | none => simp only [hopens]
  | some content =>
    dsimp only
    split_ifs with hw
    · simp only [opens_file hopens, written_written, if_pos hw]
    · simp only [opens_file hopens, written_written, if_neg hw]

/-- **A segment goes on where what is before it ends** — as one of several, or as the last. -/
theorem stored_of_opens {path src : Bytes} {k : ℕ} {e : Option Entry} (hk : k ≤ src.length)
    (hopens : opens path e = some (src.take k)) (len : ℕ) :
    (k + len < src.length ∧ stored path src k len e
        = ((((k + len : ℕ) : ℤ), FmResultOk), some (.file (src.take (k + len))))) ∨
      stored path src k len e = (((src.length : ℤ), FmResultFileReachEnd), some (.file src)) := by
  have hlength : (k : ℤ) = (src.take k).length := by rw [List.length_take, Nat.min_eq_left hk]
  have hwritten : written k ((src.drop k).take len) (src.take k)
      = ((((src.drop k).take len).length : ℤ), src.take (k + len)) := by
    rw [written, if_neg (not_not_intro hlength), ← List.take_add]
  rw [stored, hopens]
  dsimp only
  rw [hwritten]
  dsimp only
  rw [if_neg (by omega), List.length_take, List.length_drop, segmentOf]
  by_cases hmore : k + len < src.length
  · rw [if_pos hmore, Nat.min_eq_left (by omega), ← Nat.cast_add]
    exact .inl ⟨hmore, rfl⟩
  · have hsum : (k : ℤ) + (min len (src.length - k) : ℕ) = src.length := by omega
    rw [if_neg hmore, hsum, List.take_of_length_le (not_lt.mp hmore)]
    exact .inr rfl

/-- The whole of `src` is there, or as much of it as the new offset says. -/
theorem stored_reached {path src : Bytes} {k : ℕ} {e : Option Entry} (hk : k ≤ src.length)
    (he : contentOf e = src.take k) (len : ℕ) :
    ((stored path src k len e).1.2 = FmResultFileReachEnd ∧
        (stored path src k len e).2 = some (.file src)) ∨
      ((stored path src k len e).1.2 ≠ FmResultFileReachEnd ∧
        ∃ k' : ℕ, (stored path src k len e).1.1 = k' ∧ k' ≤ src.length ∧
          contentOf (stored path src k len e).2 = src.take k') := by
  have hends : FmResultOk ≠ FmResultFileReachEnd ∧ FmResultFailed ≠ FmResultFileReachEnd := by decide
  cases hopens : opens path e with
  | none =>
    have hfailed : stored path src k len e = (((k : ℤ), FmResultFailed), e) := by rw [stored, hopens]
    rw [hfailed]
    exact .inr ⟨hends.2, k, rfl, hk, he⟩
  | some content =>
    obtain rfl : content = src.take k := (opens_eq hopens).trans he
    obtain ⟨hmore, hok⟩ | hend := stored_of_opens hk hopens len
    · rw [hok]
      exact .inr ⟨hends.1, k + len, rfl, hmore.le, rfl⟩
    · rw [hend]
      exact .inl ⟨rfl, rfl⟩

end Disk

end EuhatExpert
