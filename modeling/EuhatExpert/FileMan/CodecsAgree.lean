import EuhatExpert.FileMan.CorrectPath
import EuhatExpert.FileMan.FileSlice
import EuhatExpert.FileMan.FmPacket
import EuhatExpert.FileMan.RightToSend

/-!
# FileMan/CodecsAgree — both ends of the five commands

The ten encoders and decoders put and get the same fields in the same order, and where a result says that
nothing follows, nothing is looked at (`codecs_agree`).
-/

namespace EuhatExpert

open Machinery TraceM JyDataReadStream JyDataWriteStream

/-! ## Fields -/

/-- A 32-bit integer. -/
def IsInt (v : ℤ) : Prop := -2 ^ 31 ≤ v ∧ v < 2 ^ 31

theorem reads_int {v : ℤ} (h : IsInt v) : Reads (get 4) (putInt 4 v) v := by
  obtain ⟨h₁, h₂⟩ := h
  exact reads_get (by norm_num at h₁ ⊢; omega) (by norm_num at h₂ ⊢; omega)

theorem reads_int64 {v : ℤ} (h : IsInt64 v) : Reads (get 8) (putInt 8 v) v := by
  obtain ⟨h₁, h₂⟩ := h
  exact reads_get (by norm_num at h₁ ⊢; omega) (by norm_num at h₂ ⊢; omega)

theorem reads_getStr {str : Bytes} (h : IsCStr str) : Reads getStr (putStr str) str :=
  fun _ _ hds => run_getStr hds h

theorem emits_putStr (str : Bytes) : Emits (JyDataWriteStream.putStr str) (putStr str) (.ok ()) := by
  have h := emits_putBuf 2 (str ++ [0])
  rw [List.length_append, List.length_singleton, ← List.append_assoc] at h
  exact h

/-! ## Segments -/

/-- A result with a segment behind it exactly if it says so. -/
structure FileRead.Whole (file : FileRead) : Prop where
  isInt : IsInt file.result
  pos_isInt64 : ∀ pos buf, file.segment = some (pos, buf) → IsInt64 pos
  isSome_iff : file.segment.isSome ↔ file.result = FmResultOk ∨ file.result = FmResultFileReachEnd

theorem emits_fileRead (file : FileRead) : Emits file.write (FileSlice.bytesOf file) (.ok ()) := by
  rw [FileRead.write, FileSlice.bytesOf]
  rcases file.segment with _ | ⟨pos, buf⟩
  · exact emits_put 4 _
  · exact (emits_put 4 _).bind ((emits_put 8 _).bind (emits_putBuf 4 buf))

/-- **A handler's `fmReadFile`, which reads right into its packet, leaves what the segment it reads is
written as.** -/
theorem run_fmReadFile_eq_write {content : FileSlice.Content} {k l : ℕ} (hk : k ≤ content.val.length)
    (hl : l < 2 ^ 31) (stale : ℕ → UInt8) (s : JyDataWriteStream)
    (h : s.idx_ + (FileSlice.bytesOf (Disk.segmentOf content.val k l)).length < 2 ^ 31) :
    (FileSlice.fmReadFile (some content) stale k l).run s = (Disk.segmentOf content.val k l).write.run s := by
  rw [(FileSlice.emits_segmentOf hk hl).run s h, (emits_fileRead _).run s h]

theorem bytesAt_eq {ds : JyDataReadStream} {buf : Bytes} (h : ds.Ahead buf) :
    ds.bytesAt buf.length = .ok buf := by
  have htake := h.run_take buf.length
  rw [if_pos le_rfl, List.take_length] at htake
  rw [bytesAt, if_pos (Int.natCast_nonneg _), Int.toNat_natCast, htake]
  rfl

theorem readsLast_segment {pos : ℤ} {buf : Bytes} (hpos : IsInt64 pos) (hlen : buf.length < 2 ^ 31) :
    ReadsLast readSegment (putInt 8 pos ++ (putInt 4 buf.length ++ buf)) ⟨pos, buf.length, .ok buf⟩ := by
  refine (reads_int64 hpos).bind_last ((reads_int ⟨by omega, by omega⟩).bind_last fun ds hds => ⟨ds, ?_⟩)
  change Except.ok (Segment.mk pos buf.length (ds.bytesAt buf.length), ds) = _
  rw [bytesAt_eq hds]

/-- **A result, and what stands behind it, are found as they were put.** -/
theorem readFile_bytesOf {file : FileRead} (h : file.Whole) (hlen : (FileSlice.bytesOf file).length < 2 ^ 31)
    {ds : JyDataReadStream} (hds : ds.Ahead (FileSlice.bytesOf file)) : readFile ds = file.found := by
  obtain ⟨result, segment⟩ := file
  rcases segment with _ | ⟨pos, buf⟩
  · have hds' : ds.Ahead (putInt 4 result ++ []) := by rwa [List.append_nil]
    have hend : (get 8).run (ds.skip (putInt 4 result).length) = .error .outside := by
      rw [hds'.skip.run_get, if_neg (by decide)]
    have hsegment : readSegment.run (ds.skip (putInt 4 result).length) = .error .outside := by
      rw [readSegment, StateT.run_bind, hend]
      rfl
    rw [readFile, reads_int h.isInt ds [] hds']
    dsimp only
    rw [hsegment]
    rfl
  · have hbuf : buf.length < 2 ^ 31 := by
      change (FileSlice.segmentBytes result pos buf).length < 2 ^ 31 at hlen
      rw [FileSlice.length_segmentBytes] at hlen
      omega
    obtain ⟨ds', hsegment⟩ := readsLast_segment (h.pos_isInt64 pos buf rfl) hbuf _ hds.skip
    rw [readFile, reads_int h.isInt ds _ hds]
    dsimp only
    rw [hsegment]
    rfl

/-! ## Requests -/

namespace FmcPacket

/-- The fields fit their places, and there is a segment unless it is a first request for an upload. -/
def InRange : FmcPacket → Prop
  | down r => IsInt r.id ∧ IsCStr r.path ∧ 0 ≤ r.filePos ∧ IsInt64 r.filePos ∧
      r.reqLen = FILE_MAN_RECV_FILE_SEGMENT_MAX_LEN
  | up id t file => IsInt id ∧ IsCStr t.peerPath_ ∧ IsInt64 t.lastWriteTime_ ∧ IsInt64 t.totalFileSize_ ∧
      IsInt64 t.offset_ ∧ (file = none ↔ t.offset_ < 0) ∧ ∀ f ∈ file, f.Whole ∧
        ∀ pos buf, f.segment = some (pos, buf) → IsInt64 (t.offset_ + buf.length)
  | list r => IsInt r.id ∧ IsCStr r.path
  | del r | new r => IsInt r.id ∧ IsCStr r.path ∧ IsInt r.isFolder

end FmcPacket

theorem readBack_node {r : NodeReq} (hid : IsInt r.id) (hpath : IsCStr r.path) (hfolder : IsInt r.isFolder) :
    ReadBack r.write readNodeReq r :=
  .of_emits ((emits_put 4 _).bind ((emits_putStr _).bind (emits_put 4 _))) fun _ =>
    ((reads_int hid).bind ((reads_getStr hpath).bind ((reads_int hfolder).map _))).last

theorem readsLast_readFile {α : Type} {bs : Bytes} {file : FileFound} (g : FileFound → α)
    (h : ∀ ds : JyDataReadStream, ds.Ahead bs → readFile ds = file) :
    ReadsLast (fun ds => .ok (g (readFile ds), ds)) bs (g file) :=
  fun ds hds => ⟨ds, by rw [← h ds hds]; rfl⟩

theorem readFile_nil {ds : JyDataReadStream} (h : ds.Ahead []) : readFile ds = .nothing := by
  rw [readFile, h.run_get, if_neg (by decide)]
  rfl

/-- A read that is followed by another of the same outcome. -/
theorem ReadBack.map {α β : Type} {write : WriteM Unit} {read : ReadM α} {a : α} (h : ReadBack write read a)
    (g : α → β) : ReadBack write (read >>= fun a => pure (g a)) (g a) := by
  intro s s' hrun
  obtain ⟨payload, hwritten, hread⟩ := h s s' hrun
  refine ⟨payload, hwritten, fun ds hds => ?_⟩
  obtain ⟨ds', hds'⟩ := hread ds hds
  exact ⟨ds', by rw [StateT.run_bind, hds']; rfl⟩

/-- **A server reads the request its client wrote.** -/
theorem readBack_packet {p : FmcPacket} (h : p.InRange) : ReadBack p.write p.handler.read p.req := by
  cases p with
  | down r =>
    obtain ⟨hid, hpath, -, hpos, hlen⟩ := h
    have hint : IsInt r.reqLen := by
      rw [hlen, IsInt, FILE_MAN_RECV_FILE_SEGMENT_MAX_LEN]
      omega
    have hread : ReadBack (FmcDownFile.write r) readDownReq r :=
      .of_emits ((emits_put 4 _).bind ((emits_putStr _).bind ((emits_put 8 _).bind (emits_put 4 _))))
        fun _ => ((reads_int hid).bind ((reads_getStr hpath).bind
          ((reads_int64 hpos).bind ((reads_int hint).map _)))).last
    exact hread.map FmReq.down
  | up id t file =>
    obtain ⟨hid, hpath, htime, hsize, hoffset, -, hfile⟩ := h
    have hread : ∀ {bs : Bytes} {found : FileFound} {w : WriteM Unit}, Emits w bs (.ok ()) →
        (bs.length < 2 ^ 31 → ∀ ds : JyDataReadStream, ds.Ahead bs → readFile ds = found) →
        ReadBack (do
          put 4 id
          JyDataWriteStream.putStr t.peerPath_
          put 8 t.lastWriteTime_
          put 8 t.totalFileSize_
          put 8 t.offset_
          w) readUpReq ⟨id, t.peerPath_, t.lastWriteTime_, t.totalFileSize_, t.offset_, found⟩ := by
      intro bs found w hw hfound
      refine .of_emits ((emits_put 4 _).bind ((emits_putStr _).bind ((emits_put 8 _).bind
        ((emits_put 8 _).bind ((emits_put 8 _).bind hw))))) fun hlen => ?_
      have hbs : bs.length < 2 ^ 31 := by
        simp only [List.length_append] at hlen
        omega
      exact (reads_int hid).bind_last ((reads_getStr hpath).bind_last ((reads_int64 htime).bind_last
        ((reads_int64 hsize).bind_last ((reads_int64 hoffset).bind_last
          (readsLast_readFile (UpReq.mk id t.peerPath_ t.lastWriteTime_ t.totalFileSize_ t.offset_)
            (hfound hbs))))))
    cases file with
    | none => exact (hread (emits_pure ()) fun _ _ => readFile_nil).map FmReq.up
    | some file =>
      exact (hread (emits_fileRead file) fun hlen _ =>
        readFile_bytesOf (hfile file rfl).1 hlen).map FmReq.up
  | list r =>
    obtain ⟨hid, hpath⟩ := h
    have hread : ReadBack (FmcPeerFileList.write r) readListReq r :=
      .of_emits ((emits_put 4 _).bind (emits_putStr _)) fun _ =>
        ((reads_int hid).bind ((reads_getStr hpath).map _)).last
    exact hread.map FmReq.list
  | del r => exact (readBack_node h.1 h.2.1 h.2.2).map FmReq.del
  | new r => exact (readBack_node h.1 h.2.1 h.2.2).map FmReq.new

/-! ## Answers -/

/-- The fields fit their places, and there is a segment where the result says so. -/
def FmAck.InRange : FmAck → Prop
  | .down a => IsInt a.id ∧ IsCStr a.path ∧ a.file.Whole
  | .up a => IsInt a.id ∧ IsCStr a.path ∧ IsInt64 a.filePos ∧ IsInt a.retResult
  | .list a => IsInt a.id ∧ IsCStr a.path
  | .del a | .new a => IsInt a.id ∧ IsCStr a.path ∧ IsInt a.isFolder

theorem emits_writeBlank (subFiles : Bytes) : Emits (FmsPeerFileList.writeBlank subFiles)
    ([] ++ (putInt 4 0 ++ (putInt 4 0 ++ subFiles))) (.ok ()) :=
  (emits_put 4 0).bind ((emits_put 4 0).bind (emits_putBufWithoutLen subFiles))

/-- **The placeholders are filled with the result and the length of the listing.** -/
theorem emits_writeFiles (a : ListAck) : Emits (FmsPeerFileList.writeFiles a)
    (putInt 4 (if a.isOk then 1 else 0) ++ (putInt 4 a.subFiles.length ++ a.subFiles)) (.ok ()) where
  run s h := by
    have hblank : s.idx_ + ([] ++ (putInt 4 0 ++ (putInt 4 0 ++ a.subFiles))).length < 2 ^ 31 := by
      simpa only [List.nil_append, List.length_append, length_putInt] using h
    have hresult : s.idx_ + ([] ++ (putInt 4 (if a.isOk then 1 else 0) ++ (putInt 4 0 ++ a.subFiles))).length
        < 2 ^ 31 := by
      simpa only [List.nil_append, List.length_append, length_putInt] using h
    have hfirst := run_putAt_push s (v := if a.isOk then 1 else 0) (length_putInt 4 0) hblank hresult
    have hsecond := run_putAt_push s (a := putInt 4 (if a.isOk then 1 else 0)) (v := a.subFiles.length)
      (c := a.subFiles) (length_putInt 4 0) hresult h
    have hlen : ((s.push _ hresult).idx_ : ℤ) - (s.idx_ + 4) - 4 = a.subFiles.length := by
      rw [push_idx]
      simp only [List.nil_append, List.length_append, length_putInt]
      push_cast
      ring
    rw [FmsPeerFileList.writeFiles]
    change ((FmsPeerFileList.writeBlank a.subFiles >>= _).run s) = _
    rw [EStateM.run_bind, (emits_writeBlank a.subFiles).run s hblank]
    rw [length_putInt] at hsecond
    change ((putAt 4 (if a.isOk then 1 else 0) (s.idx_ + ([] : Bytes).length) >>= _).run _) = _
    rw [EStateM.run_bind, hfirst]
    change (putAt 4 (((s.push _ hresult).idx_ : ℤ) - (s.idx_ + 4) - 4) (s.idx_ + 4)).run (s.push _ hresult) = _
    rw [hlen]
    exact hsecond
  overrun s ho := by
    obtain ⟨t, ht, hheap⟩ := (emits_writeBlank a.subFiles).overrun s (by
      simpa only [List.nil_append, List.length_append, length_putInt] using ho)
    refine ⟨t, ?_, hheap⟩
    rw [FmsPeerFileList.writeFiles]
    change ((FmsPeerFileList.writeBlank a.subFiles >>= _).run s) = _
    rw [EStateM.run_bind, ht]

theorem readBack_nodeAck {a : NodeAck} (hid : IsInt a.id) (hpath : IsCStr a.path) (hfolder : IsInt a.isFolder) :
    ReadBack a.write NodeAck.read a := by
  obtain ⟨id, path, isFolder, retResult⟩ := a
  refine .of_emits ((emits_put 4 _).bind ((emits_putStr _).bind ((emits_put 4 _).bind (emits_put 4 _))))
    fun _ => ((reads_int hid).bind ((reads_getStr hpath).bind ((reads_int hfolder).bind ?_))).last
  cases retResult with
  | true => exact (@reads_int 1 ⟨by decide, by decide⟩).map _
  | false => exact (@reads_int 0 ⟨by decide, by decide⟩).map _

/-- **A client reads the answer its server wrote.** -/
theorem readBack_ack {a : FmAck} (h : a.InRange) : ReadBack a.write a.handler.readAck a.found := by
  cases a with
  | down a =>
    obtain ⟨hid, hpath, hfile⟩ := h
    refine .of_emits ((emits_put 4 _).bind ((emits_putStr _).bind (emits_fileRead _))) fun hlen => ?_
    have hbs : (FileSlice.bytesOf a.file).length < 2 ^ 31 := by
      simp only [List.length_append] at hlen
      omega
    exact (reads_int hid).bind_last ((reads_getStr hpath).bind_last
      (readsLast_readFile (FmAckFound.down a.id a.path) fun _ => readFile_bytesOf hfile hbs))
  | up a =>
    obtain ⟨hid, hpath, hpos, hresult⟩ := h
    have hread : ReadBack (FmsUpFile.write a) FmcUpFile.readAck a :=
      .of_emits ((emits_put 4 _).bind ((emits_putStr _).bind ((emits_put 8 _).bind (emits_put 4 _))))
        fun _ => ((reads_int hid).bind ((reads_getStr hpath).bind
          ((reads_int64 hpos).bind ((reads_int hresult).map _)))).last
    exact hread.map FmAckFound.up
  | list a =>
    obtain ⟨hid, hpath⟩ := h
    obtain ⟨id, path, isOk, subFiles⟩ := a
    refine .of_emits ((emits_put 4 _).bind ((emits_putStr _).bind (emits_writeFiles _))) fun hlen => ?_
    have hbs : subFiles.length < 2 ^ 31 := by
      simp only [List.length_append] at hlen
      omega
    have hbytes : ∀ ok : ℤ, ReadsLast (fun ds : JyDataReadStream =>
        .ok (FmAckFound.list id path (ok ≠ 0) subFiles.length (ds.bytesAt subFiles.length), ds))
          subFiles (.list id path (ok ≠ 0) subFiles.length (.ok subFiles)) :=
      fun ok ds hds => ⟨ds, by rw [← bytesAt_eq hds]; rfl⟩
    have hlen' := @reads_int subFiles.length ⟨by omega, by omega⟩
    refine (reads_int hid).bind_last ((reads_getStr hpath).bind_last ?_)
    cases isOk with
    | true => exact (@reads_int 1 ⟨by decide, by decide⟩).bind_last (hlen'.bind_last (hbytes 1))
    | false => exact (@reads_int 0 ⟨by decide, by decide⟩).bind_last (hlen'.bind_last (hbytes 0))
  | del a => exact (readBack_nodeAck h.1 h.2.1 h.2.2).map FmAckFound.del
  | new a => exact (readBack_nodeAck h.1 h.2.1 h.2.2).map FmAckFound.new

/-! ## What the handlers make of them -/

section Handlers

variable {W : Type} (os : Os W)

/-- What `fmReadFile` reads on a system. -/
def readOf (path : Bytes) (pos len : ℤ) (w : W) : FileRead :=
  if os.fopenRead path w then
    if os.whGetFileSize path w < pos then ⟨FmResultFileSeekExceed, none⟩
    else if os.whGetFileSize path w - pos > len then ⟨FmResultOk, some (pos, os.fread path pos len.toNat w)⟩
    else ⟨FmResultFileReachEnd, some (pos, os.fread path pos (os.whGetFileSize path w - pos).toNat w)⟩
  else ⟨FmResultFileNotExist, none⟩

theorem fmReadFile_yields {len : ℤ} (hlen : 0 ≤ len) (path : Bytes) (pos : ℤ) (w : W) :
    Yields (fmReadFile os path pos len) w (readOf os path pos len w) w := by
  refine Yields.bind (yields_call _ _ w) ?_
  rw [readOf]
  dsimp only
  split_ifs with hopen hseek hmore
  · refine Yields.bind (Os.yields_onHandle _ w) ?_
    dsimp only
    rw [if_pos hseek]
    exact yields_pure _ _
  · refine Yields.bind (Os.yields_onHandle _ w) ?_
    dsimp only
    rw [if_neg hseek, if_pos hmore, if_pos hmore, if_neg (not_lt.mpr hlen)]
    exact Yields.bind (Os.yields_onHandle _ w) (yields_pure _ _)
  · refine Yields.bind (Os.yields_onHandle _ w) ?_
    dsimp only
    rw [if_neg hseek, if_neg hmore, if_neg hmore, if_neg (by omega)]
    exact Yields.bind (Os.yields_onHandle _ w) (yields_pure _ _)
  · exact yields_pure _ _

/-- Reading a file leaves the disk as it is. -/
theorem ends_fmReadFile {path : Bytes} {pos len : ℤ} {w w' : W} {file : FileRead}
    (h : Ends (fmReadFile os path pos len) w file w') : file = readOf os path pos len w ∧ w' = w := by
  rcases le_or_gt 0 len with hlen | hneg
  · exact (fmReadFile_yields os hlen path pos w).eq_of_ends h
  · -- nothing is read, or the call does not come back
    obtain ⟨opened, w₁, hopen, h⟩ := h.bind
    obtain ⟨rfl, rfl⟩ := Prod.mk.inj (ends_call (f := fun w => (os.fopenRead path w, w)) hopen)
    rw [readOf]
    by_cases hopened : os.fopenRead path w = true
    · rw [if_pos hopened] at h ⊢
      obtain ⟨endPos, w₂, hsize, h⟩ := h.bind
      obtain ⟨rfl, hw⟩ := (Os.yields_onHandle _ w).eq_of_ends hsize
      dsimp only at h hw
      rw [hw] at h
      by_cases hseek : os.whGetFileSize path w < pos
      · rw [if_pos hseek] at h ⊢
        exact ends_pure h
      · have hmore : os.whGetFileSize path w - pos > len := by omega
        rw [if_neg hseek, if_pos hmore, if_pos hmore, if_pos hneg] at h
        exact (ends_throw h).elim
    · rw [if_neg hopened] at h ⊢
      exact ends_pure h

theorem whole_readOf (path : Bytes) {pos : ℤ} (hpos : IsInt64 pos) (len : ℤ) (w : W) :
    (readOf os path pos len w).Whole := by
  have hlone : ∀ {code : ℤ}, IsInt code → ¬ (code = FmResultOk ∨ code = FmResultFileReachEnd) →
      (FileRead.mk code none).Whole := fun hint hcode =>
    ⟨hint, nofun, iff_of_false Bool.false_ne_true hcode⟩
  have hsegment : ∀ {code : ℤ} (buf : Bytes), IsInt code → (code = FmResultOk ∨ code = FmResultFileReachEnd) →
      (FileRead.mk code (some (pos, buf))).Whole := fun buf hint hcode =>
    ⟨hint, fun pos' buf' h => (Prod.mk.inj (Option.some.inj h)).1 ▸ hpos, iff_of_true rfl hcode⟩
  rw [readOf]
  split_ifs
  · exact hlone ⟨by decide, by decide⟩ (by decide)
  · exact hsegment _ ⟨by decide, by decide⟩ (.inl rfl)
  · exact hsegment _ ⟨by decide, by decide⟩ (.inr rfl)
  · exact hlone ⟨by decide, by decide⟩ (by decide)

/-- What is written of a segment is the whole of it, or the writing failed. -/
theorem returns_fmWriteFile (pos : ℤ) (buf path : Bytes) :
    Returns (fun n : ℤ => n = -1 ∨ n = buf.length) (fmWriteFile os (.ok ⟨pos, buf.length, .ok buf⟩) path) := by
  refine Returns.bind (P := fun _ => True) (returns_call fun _ => trivial) fun opened _ => ?_
  refine Returns.ite (fun _ => ?_) fun _ => returns_pure (.inl rfl)
  refine Returns.bind (P := fun segment => segment = ⟨pos, buf.length, .ok buf⟩) (returns_pure rfl) ?_
  rintro _ rfl
  refine Returns.bind (P := fun _ => True) (fun w => ⟨_, _, Os.yields_onHandle _ w, trivial⟩) fun fileSize _ => ?_
  refine Returns.ite (fun _ => Returns.ite (fun _ => returns_pure (.inr rfl)) fun _ => returns_pure (.inl rfl))
    fun _ => ?_
  refine Returns.bind (P := fun _ => True) (returns_pure trivial) fun bytes _ => ?_
  exact Returns.bind (P := fun _ => True) (fun w => ⟨_, _, Os.yields_onHandle _ w, trivial⟩)
    fun _ _ => returns_pure (.inr rfl)

/-- **Behind a result nothing is looked for that is not there**, and the offset moves over the segment
or not at all. -/
theorem returns_storeFile {file : FileRead} (h : file.Whole) (path : Bytes) (offset : ℤ) :
    Returns (fun x => IsInt x.2 ∧ (x.1 = offset ∨ ∃ pos buf, file.segment = some (pos, buf) ∧
      x.1 = offset + buf.length)) (storeFile os file.found path offset) := by
  obtain ⟨result, segment⟩ := file
  refine Returns.bind (P := fun r => r = result) (returns_pure rfl) ?_
  rintro _ rfl
  refine Returns.ite (fun hresult => ?_) fun _ => returns_pure ⟨h.isInt, .inl rfl⟩
  obtain ⟨⟨pos, buf⟩, hsegment⟩ := Option.isSome_iff_exists.mp (h.isSome_iff.mpr hresult)
  dsimp only at hsegment
  subst hsegment
  have hfailed : IsInt FmResultFailed := ⟨by decide, by decide⟩
  refine (returns_fmWriteFile os pos buf path).bind fun n hn => ?_
  refine Returns.ite (fun _ => returns_pure ⟨hfailed, .inl rfl⟩) fun hneg => ?_
  refine returns_pure ⟨h.isInt, .inr ⟨pos, buf, rfl, ?_⟩⟩
  rw [hn.resolve_left fun h => by omega]

variable (baseDir_ : Bytes)

theorem returns_downFile {r : DownReq} (h : (FmcPacket.down r).InRange) :
    Returns (fun a => (FmAck.down a).InRange) (FmsDownFile.echo os baseDir_ r) := by
  obtain ⟨hid, hpath, -, hpos, hlen⟩ := h
  have hcorrect := isCStr_whCorrectFilePath hpath os.isUnix_
  have hreqLen : (0 : ℤ) ≤ FILE_MAN_RECV_FILE_SEGMENT_MAX_LEN := by decide
  have hmissing : (FileRead.mk FmResultFileNotExist none).Whole :=
    ⟨⟨by decide, by decide⟩, nofun, iff_of_false Bool.false_ne_true (by decide)⟩
  rw [FmsDownFile.echo]
  refine Returns.ite (fun _ => ?_) fun _ => returns_pure ⟨hid, hcorrect, hmissing⟩
  refine Returns.bind (P := FileRead.Whole) (fun w => ⟨_, w, fmReadFile_yields os ?_ _ _ w,
    whole_readOf os _ hpos _ w⟩) fun file hfile => returns_pure ⟨hid, hcorrect, hfile⟩
  rw [hlen, ite_self]
  exact hreqLen

theorem returns_upFile {id : ℤ} {t : FmTaskDownload} {file : Option FileRead} {r : UpReq}
    (h : (FmcPacket.up id t file).InRange) (hr : (FmcPacket.up id t file).req = .up r) :
    Returns (fun a => (FmAck.up a).InRange) (FmsUpFile.echo os baseDir_ r) := by
  obtain ⟨hid, hpath, htime, hsize, hoffset, hfirst, hfile⟩ := h
  obtain rfl := FmReq.up.inj hr
  have hcorrect := isCStr_whCorrectFilePath hpath os.isUnix_
  have hnoSpace : IsInt FmResultNoSpace := ⟨by decide, by decide⟩
  have hok : IsInt FmResultOk := ⟨by decide, by decide⟩
  have hzero : IsInt64 0 := ⟨by decide, by decide⟩
  rw [FmsUpFile.echo]
  refine Returns.ite (fun _ => ?_) fun _ => returns_pure ⟨hid, hcorrect, hoffset, hnoSpace⟩
  refine Returns.bind (P := fun x => IsInt64 x.1 ∧ IsInt x.2) ?_ ?_
  · rw [FmsUpFile.store]
    refine Returns.ite (fun _ => ?_) fun hneg => ?_
    · refine Returns.bind (P := fun _ => True) (returns_call fun _ => trivial) fun free _ => ?_
      refine Returns.ite (fun _ => returns_pure ⟨hoffset, hnoSpace⟩) fun _ => ?_
      refine Returns.bind (P := fun _ => True) (returns_call fun _ => trivial) fun _ _ => ?_
      exact Returns.bind (P := fun _ => True) (returns_call fun _ => trivial) fun _ _ =>
        returns_pure ⟨hzero, hok⟩
    · cases file with
      | none => exact absurd (hfirst.mp rfl) hneg
      | some file =>
        obtain ⟨hwhole, hend⟩ := hfile file rfl
        refine (returns_storeFile os hwhole _ _).mono fun x hx => ⟨?_, hx.1⟩
        rcases hx.2 with hx | ⟨pos, buf, hsegment, hx⟩
        · rw [hx]
          exact hoffset
        · rw [hx]
          exact hend pos buf hsegment
  · rintro ⟨filePos, retResult⟩ ⟨hpos, hresult⟩
    refine Returns.ite (fun _ => ?_) fun _ => returns_pure ⟨hid, hcorrect, hpos, hresult⟩
    exact Returns.bind (P := fun _ => True) (returns_call fun _ => trivial) fun _ _ =>
      returns_pure ⟨hid, hcorrect, hpos, hresult⟩

theorem returns_peerFileList {r : ListReq} (hid : IsInt r.id) (hpath : IsCStr r.path) :
    Returns (fun a => (FmAck.list a).InRange) (FmsPeerFileList.echo os baseDir_ r) := by
  have hcorrect := isCStr_whCorrectFilePath hpath os.isUnix_
  rw [FmsPeerFileList.echo]
  refine Returns.ite (fun _ => ?_) fun _ => returns_pure ⟨hid, hcorrect⟩
  exact Returns.bind (P := fun _ => True) (returns_call fun _ => trivial) fun _ _ =>
    returns_pure ⟨hid, hcorrect⟩

/-- The fields of an answer about a file or a folder. -/
def NodeAck.InRange (a : NodeAck) : Prop := IsInt a.id ∧ IsCStr a.path ∧ IsInt a.isFolder

theorem returns_node {r : NodeReq} (hid : IsInt r.id) (hpath : IsCStr r.path) (hfolder : IsInt r.isFolder) :
    Returns NodeAck.InRange (FmsDelFile.echo os r) ∧ Returns NodeAck.InRange (FmsNewFile.echo os r) := by
  have hcorrect := isCStr_whCorrectFilePath hpath os.isUnix_
  refine ⟨?_, ?_⟩
  · refine Returns.bind (P := fun _ => True) ?_ fun _ _ => returns_pure ⟨hid, hcorrect, hfolder⟩
    exact Returns.ite (fun _ => returns_call fun _ => trivial) fun _ => returns_call fun _ => trivial
  · refine Returns.bind (P := fun _ => True) ?_ fun _ _ => returns_pure ⟨hid, hcorrect, hfolder⟩
    refine Returns.ite (fun _ => ?_) fun _ => returns_call fun _ => trivial
    exact Returns.bind (P := fun _ => True) (returns_call fun _ => trivial) fun _ _ =>
      returns_call fun _ => trivial

/-- **A server answers every request a client wrote**, and never reads behind it. -/
theorem returns_echo {p : FmcPacket} (h : p.InRange) :
    Returns FmAck.InRange (FileManServer.echo os baseDir_ p.req) := by
  cases p with
  | down r => exact (returns_downFile os baseDir_ h).bind fun a ha => returns_pure ha
  | up id t file => exact (returns_upFile os baseDir_ h rfl).bind fun a ha => returns_pure ha
  | list r => exact (returns_peerFileList os baseDir_ h.1 h.2).bind fun a ha => returns_pure ha
  | del r => exact (returns_node os h.1 h.2.1 h.2.2).1.bind fun a ha => returns_pure ha
  | new r => exact (returns_node os h.1 h.2.1 h.2.2).2.bind fun a ha => returns_pure ha

/-- An answer is for the `ack` of the command it answers. -/
theorem handler_echo {p : FmcPacket} {a : FmAck} {w w' : W}
    (h : Ends (FileManServer.echo os baseDir_ p.req) w a w') : a.handler = p.handler := by
  cases p
  all_goals
    obtain ⟨b, w₁, -, h⟩ := h.bind
    obtain ⟨rfl, -⟩ := ends_pure h
    rfl

/-- **A client takes every answer a server wrote**, and never reads behind it. -/
theorem returns_ack {a : FmAck} (h : a.InRange) (dispatch : FmTask → Bytes → FmScheduler → FmScheduler)
    (s : FmScheduler) : Returns (fun _ => True) (FileManClient.ack os dispatch a s) := by
  cases a with
  | down a =>
    rw [FileManClient.ack, FmcDownFile.ack]
    cases s.getAs FmTask.asDownload a.id with
    | none => exact returns_pure trivial
    | some found =>
      refine (returns_storeFile os h.2.2 _ _).bind fun x _ => ?_
      refine Returns.ite (fun _ => ?_) fun _ => Returns.ite (fun _ => returns_pure trivial) fun _ =>
        returns_pure trivial
      exact Returns.bind (P := fun _ => True) (returns_call fun _ => trivial) fun _ _ => returns_pure trivial
  | _ => exact returns_pure trivial

end Handlers

/-! ## The requests a client writes -/

/-- The fields of a task that go into its request fit their places. -/
def FmTask.InRange (task : FmTask) : Prop :=
  IsInt task.id_ ∧ match task.body with
    | .download t | .upload t => IsCStr t.peerPath_ ∧ IsInt64 t.lastWriteTime_ ∧ IsInt64 t.totalFileSize_ ∧
        IsInt64 t.offset_
    | .getSubList _ t => IsCStr t.path_
    | .del _ t => IsCStr t.path_ ∧ IsInt t.isFolder_
    | .new _ t => IsCStr t.path_ ∧ IsInt t.isFolder_
    | _ => True

/-- The size of a file is an `int64_t`, and `fread` reads no more than it was asked for. -/
structure Os.Counts {L : Type} (os : Os L) (l : L) : Prop where
  size : ∀ path, os.whGetFileSize path l < 2 ^ 63
  fread : ∀ path pos n, (os.fread path pos n l).length ≤ n

theorem segment_readOf {L : Type} {os : Os L} {l : L} (h : os.Counts l) {path buf : Bytes} {pos pos' len : ℤ}
    (hlen : 0 ≤ len) (hsegment : (readOf os path pos len l).segment = some (pos', buf)) :
    pos + buf.length < 2 ^ 63 := by
  have hsize := h.size path
  rw [readOf] at hsegment
  split_ifs at hsegment with hopen hseek hmore
  · obtain ⟨-, rfl⟩ := Prod.mk.inj (Option.some.inj hsegment)
    have hread := h.fread path pos len.toNat
    omega
  · obtain ⟨-, rfl⟩ := Prod.mk.inj (Option.some.inj hsegment)
    have hread := h.fread path pos (os.whGetFileSize path l - pos).toNat
    omega

theorem inRange_packet {L : Type} {os : Os L} {task task' : FmTask} {l l' : L} {p : FmcPacket}
    (hrange : task.InRange) (hcounts : os.Counts l)
    (h : Ends (FileManClient.packet os task) l (task', some p) l') : p.InRange := by
  obtain ⟨hid, hfields⟩ := hrange
  rw [FileManClient.packet] at h
  split at h
  · rename_i t hbody
    rw [hbody] at hfields
    obtain ⟨hpath, -, -, hoffset⟩ := hfields
    obtain ⟨⟨task₁, r⟩, l₁, hreq, h⟩ := h.bind
    obtain ⟨-, hp⟩ := Prod.mk.inj (ends_pure h).1
    obtain ⟨r, rfl, rfl⟩ := Option.map_eq_some_iff.mp hp.symm
    by_cases hneg : t.offset_ < 0
    · obtain ⟨heq, -⟩ := (FmcDownFile.req_yields os _ hneg l).eq_of_ends hreq
      split_ifs at heq
      · cases (Prod.mk.inj heq).2
      · obtain rfl := Option.some.inj (Prod.mk.inj heq).2
        exact ⟨hid, hpath, le_rfl, ⟨by norm_num, by norm_num⟩, rfl⟩
    · rw [FmcDownFile.req, if_neg hneg] at hreq
      obtain rfl := Option.some.inj (Prod.mk.inj (ends_pure hreq).1).2
      exact ⟨hid, hpath, not_lt.mp hneg, hoffset, rfl⟩
  · rename_i t hbody
    rw [hbody] at hfields
    obtain ⟨hpath, htime, hsize, hoffset⟩ := hfields
    split_ifs at h with hneg
    · obtain rfl := Option.some.inj (Prod.mk.inj (ends_pure h).1).2
      exact ⟨hid, hpath, htime, hsize, hoffset, iff_of_true rfl hneg, fun _ hf => (by cases hf)⟩
    · have hlen : (0 : ℤ) ≤ FILE_MAN_SEND_FILE_SEGMENT_MAX_LEN := by decide
      obtain ⟨file, l₁, hread, h⟩ := h.bind
      obtain ⟨rfl, -⟩ := (fmReadFile_yields os hlen _ _ l).eq_of_ends hread
      obtain rfl := Option.some.inj (Prod.mk.inj (ends_pure h).1).2
      refine ⟨hid, hpath, htime, hsize, hoffset, iff_of_false (by simp) hneg, fun f hf => ?_⟩
      obtain rfl := Option.some.inj hf
      refine ⟨whole_readOf os _ hoffset _ l, fun pos buf hsegment => ⟨?_, segment_readOf hcounts hlen hsegment⟩⟩
      omega
  · rename_i t hbody
    rw [hbody] at hfields
    obtain rfl := Option.some.inj (Prod.mk.inj (ends_pure h).1).2
    exact ⟨hid, hfields⟩
  · rename_i t hbody
    rw [hbody] at hfields
    obtain rfl := Option.some.inj (Prod.mk.inj (ends_pure h).1).2
    exact ⟨hid, hfields⟩
  · rename_i t hbody
    rw [hbody] at hfields
    obtain rfl := Option.some.inj (Prod.mk.inj (ends_pure h).1).2
    exact ⟨hid, hfields⟩
  · cases (Prod.mk.inj (ends_pure h).1).2

/-- **A request that a client makes is what a server reads of a packet.** -/
theorem readBack_req {L : Type} {os : Os L} {task task' : FmTask} {l l' : L} {r : FmReq}
    (hrange : task.InRange) (hcounts : os.Counts l) (h : Ends (FileManClient.req os task) l (task', some r) l') :
    ∃ p : FmcPacket, p.req = r ∧ ReadBack p.write p.handler.read r := by
  rw [FileManClient.req_eq_packet] at h
  obtain ⟨⟨task₁, packet⟩, l₁, hpacket, h⟩ := h.bind
  obtain ⟨hr, -⟩ := ends_pure h
  obtain ⟨p, rfl, hp⟩ := Option.map_eq_some_iff.mp (Prod.mk.inj hr).2.symm
  exact ⟨p, hp, hp ▸ readBack_packet (inRange_packet hrange hcounts hpacket)⟩

/-! ## Both ends -/

/-- An answer is found as it was put, and its `ack` looks at nothing that was not. -/
structure FmAck.Taken {L : Type} (os : Os L) (a : FmAck) : Prop where
  readBack : ReadBack a.write a.handler.readAck a.found
  takes : ∀ dispatch s l, ∃ s' l', exec (FileManClient.ack os dispatch a s) l = some (s', l')
  listing : ∀ b (sub : SubList), a = .list b → b.subFiles = sub.write → IsCStr sub.curDir →
    (∀ e ∈ sub.entries, e.Listable) → SubList.read b.subFiles = .ok sub

theorem taken_of_inRange {L : Type} (os : Os L) {a : FmAck} (h : a.InRange) : a.Taken os where
  readBack := readBack_ack h
  takes dispatch s l := by
    obtain ⟨s', l', hyields, -⟩ := returns_ack os h dispatch s l
    exact ⟨s', l', hyields.exec_eq⟩
  listing b sub _ hbytes hdir hes := by
    rw [hbytes]
    exact SubList.read_write sub hdir hes

/-- **Both ends of a command agree**: the request a task makes is read as it was written, it is answered
without a look behind it, and that answer, and any other that fits its places, is read as it was written. -/
theorem codecs_agree {L W : Type} {local_ : Os L} {task task' : FmTask} {l l' : L} {p : FmcPacket}
    (hrange : task.InRange) (hcounts : local_.Counts l)
    (hpacket : exec (FileManClient.packet local_ task) l = some ((task', some p), l')) :
    ReadBack p.write p.handler.read p.req ∧
      (∀ (remote : Os W) (baseDir_ : Bytes) (w : W), ∃ a w',
        exec (FileManServer.echo remote baseDir_ p.req) w = some (a, w') ∧ a.handler = p.handler ∧
          a.InRange) ∧
      ∀ a : FmAck, a.InRange → a.Taken local_ := by
  have hp := inRange_packet hrange hcounts (ends_of_exec hpacket)
  refine ⟨readBack_packet hp, fun remote baseDir_ w => ?_, fun a ha => taken_of_inRange local_ ha⟩
  obtain ⟨a, w', hyields, ha⟩ := returns_echo remote baseDir_ hp w
  exact ⟨a, w', hyields.exec_eq, handler_echo remote baseDir_ (ends_of_exec hyields.exec_eq), ha⟩

/-- A disk with one file. -/
def oneFile : Disk := [([97], .file [1, 2, 3])]

/-- An upload of the file, from its second byte on. -/
def uploading : FmTask := ⟨5, 0, .upload ⟨[97], [98], 1, 3, 9, false⟩⟩

/-- **The request of an upload is read as it was written, and answered.** -/
theorem uploading_agree : ∃ p l', exec (FileManClient.packet (Disk.os false fun _ => 1000) uploading) oneFile
      = some ((uploading, some p), l') ∧ ReadBack p.write p.handler.read p.req ∧
    ∃ a w', exec (FileManServer.echo (Disk.os true fun _ => 1000) [] p.req) [] = some (a, w') ∧
      a.Taken (Disk.os false fun _ => 1000) := by
  have hcounts : (Disk.os false fun _ => 1000).Counts oneFile := by
    refine ⟨fun path => ?_, fun path pos n => List.length_take_le _ _⟩
    change (((oneFile.file path).getD []).length : ℤ) < 2 ^ 63
    by_cases hpath : path = [97]
    · rw [hpath]
      decide
    · rw [Disk.file, Disk.get, oneFile, Disk.lookup_cons_of_ne _ _ hpath]
      change (([] : Bytes).length : ℤ) < 2 ^ 63
      decide
  have hrange : uploading.InRange :=
    ⟨⟨by decide, by decide⟩, ⟨by decide, by decide⟩, ⟨by decide, by decide⟩, ⟨by decide, by decide⟩,
      ⟨by decide, by decide⟩⟩
  obtain ⟨p, l', hpacket⟩ : ∃ p l', exec (FileManClient.packet (Disk.os false fun _ => 1000) uploading) oneFile
      = some ((uploading, some p), l') := ⟨_, _, rfl⟩
  obtain ⟨hreq, hecho, htaken⟩ := @codecs_agree Disk Disk _ _ _ _ _ _ hrange hcounts hpacket
  obtain ⟨a, w', hanswer, -, ha⟩ := hecho (Disk.os true fun _ => 1000) [] []
  exact ⟨p, l', hpacket, hreq, a, w', hanswer, htaken a ha⟩

end EuhatExpert
