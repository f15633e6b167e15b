import EuhatExpert.FileMan.Disk
import EuhatExpert.FileMan.FileManServer

/-!
# FileMan/PacketBounds — does a handler read nothing but its packet

A stream checks nothing, and the lengths in a packet are what a client says.  A handler that is run on its
payload alone, with no memory around it, gets through exactly if the fields it reads are there: the fixed ones,
behind a string that ends in the payload and whose length leads to a place in it, and for an upload the segment,
if it comes to that (`staysInside_iff`).
-/

namespace EuhatExpert

open Machinery TraceM JyDataReadStream

/-- The stream of a payload, with no memory around it: a read that leaves the payload is a fault. -/
def payloadStream (payload : Bytes) : JyDataReadStream := ⟨payload, payload.length, 0⟩

/-- What is found in a packet, if a block that is not in it is not even handed on. -/
def FileFound.strict (file : FileFound) : FileFound where
  result := file.result
  segment := do
    let segment ← file.segment
    let _ ← segment.buf
    pure segment

section Handlers

variable {W : Type} (os : Os W) (baseDir_ : Bytes)

/-- What a handler reads behind its fields: an upload has a result there, and a segment. -/
def EchoStaysInside (w : W) : FmReq → Prop
  | .up r => (exec (FmsUpFile.echo os baseDir_ { r with file := r.file.strict }) w).isSome
  | _ => True

/-- **Parsing stays inside the packet**: on the payload alone no read is a fault, and the index is in the payload
where the fields end, as it is before each read that is none. -/
def StaysInside (task : FmsTask) (payload : Bytes) (w : W) : Prop :=
  ∃ req ds, task.read.run (payloadStream payload) = .ok (req, ds) ∧
    0 ≤ ds.idx_ ∧ ds.idx_ ≤ payload.length ∧ EchoStaysInside os baseDir_ w req

end Handlers

/-! ## What a payload is to have -/

/-- The integer of `k` bytes at a place in a payload. -/
def intAt (payload : Bytes) (k : ℕ) (at_ : ℤ) : ℤ := getInt ((payload.drop at_.toNat).take k)

/-- The place behind the string of a packet, by its length. -/
def fieldsAt (payload : Bytes) : ℤ := 6 + intAt payload 2 4

/-- The string of a packet, by the first NUL. -/
def pathIn (payload : Bytes) : Bytes := (payload.drop 6).takeWhile (· ≠ 0)

/-- How many bytes the fields behind the string are. -/
def FmsTask.fieldBytes : FmsTask → ℕ
  | .downFileOp_ => 12
  | .upFileOp_ => 24
  | .peerFileListOp_ => 0
  | .delFileOp_ => 4
  | .newFileOp_ => 4

/-- There is an id and a length, the string behind it ends, and where its length leads the other fields are. -/
structure HasFields (task : FmsTask) (payload : Bytes) : Prop where
  head : 6 ≤ payload.length
  nul : (0 : UInt8) ∈ payload.drop 6
  nonneg : 0 ≤ fieldsAt payload
  room : fieldsAt payload + task.fieldBytes ≤ payload.length

/-- There is a result at a place, and if it is one of a segment whose file opens, there is the segment. -/
def HasSegment (payload : Bytes) (at_ : ℤ) (opens : Bool) : Prop :=
  at_ + 4 ≤ payload.length ∧
    (intAt payload 4 at_ = FmResultOk ∨ intAt payload 4 at_ = FmResultFileReachEnd → opens = true →
      at_ + 16 ≤ payload.length ∧ 0 ≤ intAt payload 4 (at_ + 12) ∧
        at_ + 16 + intAt payload 4 (at_ + 12) ≤ payload.length)

/-- An upload that is allowed and no first one has a result, and its segment. -/
def HasUpload {W : Type} (os : Os W) (baseDir_ payload : Bytes) (w : W) : Prop :=
  strIsStartWith (whCorrectFilePath os.isUnix_ (pathIn payload)) baseDir_ = true →
    0 ≤ intAt payload 8 (fieldsAt payload + 16) →
      HasSegment payload (fieldsAt payload + 24)
        (os.fopenAppend (whCorrectFilePath os.isUnix_ (pathIn payload)) w).1

/-! ## Fields -/

section Fields

variable {payload : Bytes} {n : ℕ} {i : ℤ}

theorem run_get_at (k : ℕ) : (get k).run ⟨payload, n, i⟩ =
    if 0 ≤ i ∧ i + k ≤ payload.length then .ok (intAt payload k i, ⟨payload, n, i + k⟩)
    else .error .outside := by
  rw [JyDataReadStream.get, StateT.run_bind]
  change (if 0 ≤ i ∧ i + k ≤ payload.length then _ else _ : Except Fault (Bytes × JyDataReadStream)) >>= _ = _
  split_ifs
  · rfl
  · rfl

theorem run_getStr_at : getStr.run ⟨payload, n, i⟩ =
    if (0 ≤ i ∧ i + 2 ≤ payload.length) ∧ (0 : UInt8) ∈ payload.drop (i + 2).toNat then
      .ok ((payload.drop (i + 2).toNat).takeWhile (· ≠ 0), ⟨payload, n, i + 2 + intAt payload 2 i⟩)
    else .error .outside := by
  rw [getStr, StateT.run_bind, run_get_at]
  by_cases hlen : 0 ≤ i ∧ i + (2 : ℕ) ≤ payload.length
  · rw [if_pos hlen]
    change (if 0 ≤ i + 2 ∧ (0 : UInt8) ∈ payload.drop (i + 2).toNat then _ else _) = _
    by_cases hnul : (0 : UInt8) ∈ payload.drop (i + 2).toNat
    · rw [if_pos ⟨by omega, hnul⟩, if_pos ⟨hlen, hnul⟩]
      rfl
    · rw [if_neg (fun h => hnul h.2), if_neg (fun h => hnul h.2)]
  · rw [if_neg hlen, if_neg (fun h => hlen h.1)]
    rfl

/-- The id and the string. -/
theorem run_head {α : Type} (f : ℤ → Bytes → ReadM α) :
    (JyDataReadStream.get 4 >>= fun id => getStr >>= fun path => f id path).run (payloadStream payload) =
      if 6 ≤ payload.length ∧ (0 : UInt8) ∈ payload.drop 6 then
        (f (intAt payload 4 0) (pathIn payload)).run ⟨payload, payload.length, fieldsAt payload⟩
      else .error .outside := by
  rw [StateT.run_bind, payloadStream, run_get_at]
  by_cases h4 : 4 ≤ payload.length
  · rw [if_pos (by omega)]
    change (getStr >>= fun path => f (intAt payload 4 0) path).run ⟨payload, payload.length, 4⟩ = _
    rw [StateT.run_bind, run_getStr_at]
    by_cases h : 6 ≤ payload.length ∧ (0 : UInt8) ∈ payload.drop 6
    · rw [if_pos h, if_pos ⟨by omega, h.2⟩]
      rfl
    · rw [if_neg h, if_neg (fun h' => h ⟨by omega, h'.2⟩)]
      rfl
  · rw [if_neg (by omega), if_neg (by omega)]
    rfl

/-- Integers one behind the other are read where the last of them is in the payload. -/
theorem run_get_bind {α : Type} {k m : ℕ} (f : ℤ → ReadM α) {r : Except Fault (α × JyDataReadStream)}
    (hf : (f (intAt payload k i)).run ⟨payload, n, i + k⟩
      = if 0 ≤ i + k ∧ i + k + m ≤ payload.length then r else .error .outside) :
    (JyDataReadStream.get k >>= f).run ⟨payload, n, i⟩
      = if 0 ≤ i ∧ i + (k + m : ℕ) ≤ payload.length then r else .error .outside := by
  rw [StateT.run_bind, run_get_at]
  by_cases hk : 0 ≤ i ∧ i + k ≤ payload.length
  · rw [if_pos hk]
    refine hf.trans ?_
    have hiff : (0 ≤ i + k ∧ i + k + m ≤ payload.length) ↔ 0 ≤ i ∧ i + (k + m : ℕ) ≤ payload.length := by
      push_cast
      omega
    rw [if_congr hiff rfl rfl]
  · rw [if_neg hk, if_neg (by push_cast; omega)]
    rfl

/-- The last of them, and what is made of it. -/
theorem run_get_map {α : Type} {k : ℕ} (f : ℤ → ReadM α) {r : Except Fault (α × JyDataReadStream)}
    (hf : (f (intAt payload k i)).run ⟨payload, n, i + k⟩ = r) :
    (JyDataReadStream.get k >>= f).run ⟨payload, n, i⟩
      = if 0 ≤ i ∧ i + k ≤ payload.length then r else .error .outside := by
  rw [StateT.run_bind, run_get_at]
  split_ifs
  · exact hf
  · rfl

variable (payload) in
/-- The request a payload holds. -/
def requestIn : FmsTask → FmReq
  | .downFileOp_ => .down ⟨intAt payload 4 0, pathIn payload, intAt payload 8 (fieldsAt payload),
      intAt payload 4 (fieldsAt payload + 8)⟩
  | .upFileOp_ => .up ⟨intAt payload 4 0, pathIn payload, intAt payload 8 (fieldsAt payload),
      intAt payload 8 (fieldsAt payload + 8), intAt payload 8 (fieldsAt payload + 16),
      readFile ⟨payload, payload.length, fieldsAt payload + 24⟩⟩
  | .peerFileListOp_ => .list ⟨intAt payload 4 0, pathIn payload⟩
  | .delFileOp_ => .del ⟨intAt payload 4 0, pathIn payload, intAt payload 4 (fieldsAt payload)⟩
  | .newFileOp_ => .new ⟨intAt payload 4 0, pathIn payload, intAt payload 4 (fieldsAt payload)⟩

/-- **What a handler reads of its packet.** -/
theorem run_read (task : FmsTask) : task.read.run (payloadStream payload) =
    if 6 ≤ payload.length ∧ (0 : UInt8) ∈ payload.drop 6 then
      if task = .peerFileListOp_ ∨ (0 ≤ fieldsAt payload ∧ fieldsAt payload + task.fieldBytes ≤ payload.length)
      then .ok (requestIn payload task, ⟨payload, payload.length, fieldsAt payload + task.fieldBytes⟩)
      else .error .outside
    else .error .outside := by
  cases task with
  | downFileOp_ =>
    have hidx : fieldsAt payload + (8 : ℕ) + (4 : ℕ) = fieldsAt payload + (12 : ℕ) := by omega
    simp only [FmsTask.read, readDownReq, bind_assoc, pure_bind, reduceCtorEq, false_or]
    rw [run_head]
    refine if_congr Iff.rfl (run_get_bind (k := 8) (m := 4) _ (run_get_map (k := 4) _ ?_)) rfl
    rw [hidx]
    rfl
  | upFileOp_ =>
    have hidx : fieldsAt payload + (8 : ℕ) + (8 : ℕ) + (8 : ℕ) = fieldsAt payload + (24 : ℕ) := by omega
    have hpos : fieldsAt payload + (8 : ℕ) + (8 : ℕ) = fieldsAt payload + 16 := by omega
    simp only [FmsTask.read, readUpReq, bind_assoc, reduceCtorEq, false_or]
    rw [run_head]
    refine if_congr Iff.rfl (run_get_bind (k := 8) (m := 16) _
      (run_get_bind (k := 8) (m := 8) _ (run_get_map (k := 8) _ ?_))) rfl
    rw [hidx, hpos]
    rfl
  | peerFileListOp_ =>
    simp only [FmsTask.read, readListReq, bind_assoc, pure_bind, true_or, if_true]
    rw [run_head]
    refine if_congr Iff.rfl ?_ rfl
    rw [FmsTask.fieldBytes, Nat.cast_zero, Int.add_zero]
    rfl
  | delFileOp_ =>
    simp only [FmsTask.read, readNodeReq, bind_assoc, pure_bind, reduceCtorEq, false_or]
    rw [run_head]
    exact if_congr Iff.rfl (run_get_map (k := 4) _ rfl) rfl
  | newFileOp_ =>
    simp only [FmsTask.read, readNodeReq, bind_assoc, pure_bind, reduceCtorEq, false_or]
    rw [run_head]
    exact if_congr Iff.rfl (run_get_map (k := 4) _ rfl) rfl

/-- The fields are there, whatever is asked of the request. -/
theorem exists_inside_iff {task : FmsTask} {P : FmReq → Prop} :
    (∃ req ds, task.read.run (payloadStream payload) = .ok (req, ds) ∧ 0 ≤ ds.idx_ ∧
      ds.idx_ ≤ payload.length ∧ P req) ↔ HasFields task payload ∧ P (requestIn payload task) := by
  have hlist : FmsTask.peerFileListOp_.fieldBytes = 0 := rfl
  rw [run_read]
  constructor
  · rintro ⟨req, ds, hrun, hnonneg, hle, hP⟩
    split_ifs at hrun with hhead htask
    cases hrun
    refine ⟨⟨hhead.1, hhead.2, ?_, hle⟩, hP⟩
    rcases htask with rfl | hroom
    · rwa [hlist, Nat.cast_zero, Int.add_zero] at hnonneg
    · exact hroom.1
  · rintro ⟨⟨hhead, hnul, hnonneg, hroom⟩, hP⟩
    rw [if_pos ⟨hhead, hnul⟩, if_pos (.inr ⟨hnonneg, hroom⟩)]
    exact ⟨_, _, rfl, by dsimp only; omega, hroom, hP⟩

end Fields

/-! ## Uploads -/

section Uploads

variable {W : Type} {os : Os W} {baseDir_ path : Bytes} {w : W}

/-- The result of a packet is there, and if it is one of a segment whose file opens, its segment and block. -/
def FileFound.Suffices (file : FileFound) (opens : Bool) : Prop :=
  ∃ result, file.result = .ok result ∧ (result = FmResultOk ∨ result = FmResultFileReachEnd →
    opens = true → ∃ segment block, file.segment = .ok segment ∧ segment.buf = .ok block)

/-- A block that is handed on is there. -/
theorem strict_segment_eq_ok_iff {file : FileFound} {segment : Segment} :
    file.strict.segment = .ok segment ↔ file.segment = .ok segment ∧ ∃ block, segment.buf = .ok block := by
  obtain ⟨result, _ | ⟨pos, len, buf⟩⟩ := file
  · exact ⟨fun h => (nomatch h), fun h => (nomatch h.1)⟩
  · cases buf with
    | error f =>
      refine ⟨fun h => (nomatch h), fun ⟨hsegment, block, hbuf⟩ => ?_⟩
      cases hsegment
      cases hbuf
    | ok block =>
      refine ⟨fun h => ?_, fun h => h.1⟩
      cases h
      exact ⟨rfl, block, rfl⟩

theorem suffices_strict_iff {file : FileFound} {opens : Bool} :
    file.strict.Suffices opens ↔ file.Suffices opens := by
  refine exists_congr fun result => and_congr Iff.rfl (forall₂_congr fun _ _ => exists_congr fun segment => ?_)
  refine exists_congr fun block => ?_
  rw [strict_segment_eq_ok_iff]
  exact ⟨fun h => ⟨h.1.1, h.2⟩, fun h => ⟨⟨h.1, block, h.2⟩, h.2⟩⟩

/-- A segment is written if it is there where its file opens. -/
theorem finishes_fmWriteFile {segment : Except Fault Segment}
    (h : (os.fopenAppend path w).1 = true → ∃ s block, segment = .ok s ∧ s.buf = .ok block) :
    ∃ a w', Yields (fmWriteFile os segment path) w a w' := by
  cases hopen : (os.fopenAppend path w).1 with
  | false =>
    refine ⟨-1, (os.fopenAppend path w).2, (yields_call _ _ w).bind ?_⟩
    rw [hopen]
    exact yields_pure _ _
  | true =>
    obtain ⟨⟨pos, len, buf⟩, block, rfl, hbuf⟩ := h hopen
    dsimp only at hbuf
    subst hbuf
    have hrun : ∀ {n : ℤ} {w' : W},
        Yields (if pos ≠ os.whGetFileSize path (os.fopenAppend path w).2 then
            if pos + len = os.whGetFileSize path (os.fopenAppend path w).2 then pure len else pure (-1)
          else do
            Os.onHandle fun w => ((), os.fwrite path block w)
            pure len : FsM W ℤ) (os.fopenAppend path w).2 n w' →
        Yields (fmWriteFile os (.ok ⟨pos, len, .ok block⟩) path) w n w' := by
      intro n w' hrest
      refine (yields_call _ _ w).bind ?_
      rw [hopen, if_pos rfl]
      refine (yields_pure _ _).bind ?_
      exact (Os.yields_onHandle _ _).bind hrest
    by_cases hpos : pos ≠ os.whGetFileSize path (os.fopenAppend path w).2
    · by_cases hlen : pos + len = os.whGetFileSize path (os.fopenAppend path w).2
      · exact ⟨len, _, hrun (by rw [if_pos hpos, if_pos hlen]; exact yields_pure _ _)⟩
      · exact ⟨-1, _, hrun (by rw [if_pos hpos, if_neg hlen]; exact yields_pure _ _)⟩
    · refine ⟨len, os.fwrite path block (os.fopenAppend path w).2, hrun ?_⟩
      rw [if_neg hpos]
      exact (Os.yields_onHandle _ _).bind (yields_pure _ _)

/-- A file is stored if what is read of the packet for it is there. -/
theorem finishes_storeFile {file : FileFound} (offset : ℤ)
    (h : file.Suffices (os.fopenAppend path w).1) :
    ∃ a w', Yields (storeFile os file path offset) w a w' := by
  obtain ⟨result, hresult, hsegment⟩ := h
  rw [storeFile, hresult]
  by_cases hok : result = FmResultOk ∨ result = FmResultFileReachEnd
  · obtain ⟨n, w', hwrite⟩ := finishes_fmWriteFile (hsegment hok)
    by_cases hn : n < 0
    · refine ⟨(offset, FmResultFailed), w', (yields_pure result w).bind ?_⟩
      rw [if_pos hok]
      refine hwrite.bind ?_
      rw [if_pos hn]
      exact yields_pure _ _
    · refine ⟨(offset + n, result), w', (yields_pure result w).bind ?_⟩
      rw [if_pos hok]
      refine hwrite.bind ?_
      rw [if_neg hn]
      exact yields_pure _ _
  · refine ⟨(offset, result), w, (yields_pure result w).bind ?_⟩
    rw [if_neg hok]
    exact yields_pure _ _

theorem ends_ofExcept {α : Type} {x : Except Fault α} {a : α} {w' : W}
    (h : Ends (TraceM.ofExcept x : FsM W α) w a w') : x = .ok a ∧ w' = w := by
  cases x with
  | error f => exact absurd h ends_throw
  | ok b =>
    obtain ⟨rfl, rfl⟩ := ends_pure h
    exact ⟨rfl, rfl⟩

/-- What is read of the packet for a file that was stored is there. -/
theorem suffices_of_ends {file : FileFound} {offset : ℤ} {a : ℤ × ℤ} {w' : W}
    (h : Ends (storeFile os file.strict path offset) w a w') :
    file.strict.Suffices (os.fopenAppend path w).1 := by
  obtain ⟨result, w₁, hread, hstore⟩ := h.bind
  obtain ⟨hresult, rfl⟩ := ends_ofExcept hread
  refine ⟨result, hresult, fun hok hopen => ?_⟩
  rw [if_pos hok] at hstore
  obtain ⟨n, w₂, hwrite, -⟩ := hstore.bind
  obtain ⟨opened, w₃, hcall, hopened⟩ := hwrite.bind
  obtain rfl : true = opened := hopen.symm.trans (congrArg Prod.fst (ends_call hcall))
  rw [if_pos rfl] at hopened
  obtain ⟨segment, w₄, hread, -⟩ := hopened.bind
  obtain ⟨hsegment, -⟩ := ends_ofExcept hread
  obtain ⟨-, block, hblock⟩ := strict_segment_eq_ok_iff.mp hsegment
  exact ⟨segment, block, hsegment, hblock⟩

theorem isSome_exec_bind {α β : Type} {m : FsM W α} {f : α → FsM W β} {a : α} {w' : W}
    (h : Yields m w a w') (hf : ∃ b w'', Yields (f a) w' b w'') : (exec (m >>= f) w).isSome = true := by
  obtain ⟨b, w'', hf⟩ := hf
  rw [(h.bind hf).exec_eq]
  rfl

theorem finishes_store {r : UpReq} (h : 0 ≤ r.filePos → r.file.Suffices (os.fopenAppend path w).1) :
    ∃ a w', Yields (FmsUpFile.store os r path) w a w' := by
  rw [FmsUpFile.store]
  by_cases hpos : r.filePos < 0
  · by_cases hfree : os.freeSpaceInMB path w - r.totalFileSize.tdiv (1024 * 1024) < 100
    · refine ⟨(r.filePos, FmResultNoSpace), w, ?_⟩
      rw [if_pos hpos]
      refine (yields_call _ _ w).bind ?_
      rw [if_pos hfree]
      exact yields_pure _ _
    · refine ⟨(0, FmResultOk), (os.opUnlink path (os.whPrepareFolder path w)).2, ?_⟩
      rw [if_pos hpos]
      refine (yields_call _ _ w).bind ?_
      rw [if_neg hfree]
      exact (yields_call _ _ _).bind ((yields_call _ _ _).bind (yields_pure _ _))
  · rw [if_neg hpos]
    exact finishes_storeFile r.filePos (h (not_lt.mp hpos))

/-- **An upload is handled inside the packet exactly if what it comes to read is there.** -/
theorem echoStaysInside_up_iff {r : UpReq} : EchoStaysInside os baseDir_ w (.up r) ↔
    (strIsStartWith (whCorrectFilePath os.isUnix_ r.path) baseDir_ = true → 0 ≤ r.filePos →
      r.file.Suffices (os.fopenAppend (whCorrectFilePath os.isUnix_ r.path) w).1) := by
  rw [EchoStaysInside, FmsUpFile.echo]
  by_cases hbase : strIsStartWith (whCorrectFilePath os.isUnix_ r.path) baseDir_ = true
  · simp only [hbase, if_true, forall_true_left]
    constructor
    · intro hsome hpos
      obtain ⟨⟨ack, w'⟩, hexec⟩ := Option.isSome_iff_exists.mp hsome
      obtain ⟨stored, w₁, hstore, -⟩ := (ends_of_exec hexec).bind
      rw [FmsUpFile.store, if_neg (not_lt.mpr hpos)] at hstore
      exact suffices_strict_iff.mp (suffices_of_ends hstore)
    · intro hsuffices
      obtain ⟨⟨filePos, retResult⟩, w₁, hstore⟩ := @finishes_store W os
        (whCorrectFilePath os.isUnix_ r.path) w { r with file := r.file.strict }
        fun hpos => suffices_strict_iff.mpr (hsuffices hpos)
      refine isSome_exec_bind hstore ?_
      by_cases hend : retResult = FmResultFileReachEnd
      · refine ⟨⟨r.id, whCorrectFilePath os.isUnix_ r.path, filePos, retResult⟩,
          os.whSetFileLastWriteTime (whCorrectFilePath os.isUnix_ r.path) r.lastWriteTime w₁, ?_⟩
        dsimp only
        rw [if_pos hend]
        exact (yields_call _ _ w₁).bind (yields_pure _ _)
      · refine ⟨⟨r.id, whCorrectFilePath os.isUnix_ r.path, filePos, retResult⟩, w₁, ?_⟩
        dsimp only
        rw [if_neg hend]
        exact yields_pure _ _
  · simp only [hbase, Bool.false_eq_true, if_false, false_imp_iff, iff_true]
    rfl

end Uploads

/-! ## The whole packet -/

section Segments

variable {payload : Bytes} {at_ : ℤ} {opens : Bool}

theorem exists_bytesAt_iff {i len : ℤ} :
    (∃ block, JyDataReadStream.bytesAt ⟨payload, payload.length, i⟩ len = .ok block) ↔
      0 ≤ len ∧ 0 ≤ i ∧ i + len ≤ payload.length := by
  rw [JyDataReadStream.bytesAt]
  by_cases hlen : 0 ≤ len
  · rw [if_pos hlen]
    change (∃ block, (if 0 ≤ i ∧ i + len.toNat ≤ payload.length then _ else _ :
      Except Fault (Bytes × JyDataReadStream)).map Prod.fst = .ok block) ↔ _
    by_cases hin : 0 ≤ i ∧ i + len.toNat ≤ payload.length
    · rw [if_pos hin]
      exact ⟨fun _ => by omega, fun _ => ⟨_, rfl⟩⟩
    · rw [if_neg hin]
      exact ⟨fun ⟨_, h⟩ => (nomatch h), fun h => absurd ⟨h.2.1, by omega⟩ hin⟩
  · rw [if_neg hlen]
    exact ⟨fun ⟨_, h⟩ => (nomatch h), fun h => absurd h.1 hlen⟩

/-- A segment, and where its block starts. -/
theorem run_readSegment {i : ℤ} : readSegment.run ⟨payload, payload.length, i⟩ =
    if 0 ≤ i ∧ i + (8 + 4 : ℕ) ≤ payload.length then
      .ok (⟨intAt payload 8 i, intAt payload 4 (i + (8 : ℕ)),
        JyDataReadStream.bytesAt ⟨payload, payload.length, i + (8 : ℕ) + (4 : ℕ)⟩ (intAt payload 4 (i + (8 : ℕ)))⟩,
        ⟨payload, payload.length, i + (8 : ℕ) + (4 : ℕ)⟩)
    else .error .outside :=
  run_get_bind (k := 8) (m := 4) _ (run_get_map (k := 4) _ rfl)

/-- **What `readFile` finds in a payload suffices exactly if the segment is there.** -/
theorem suffices_readFile_iff (hat : 0 ≤ at_) :
    (readFile ⟨payload, payload.length, at_⟩).Suffices opens ↔ HasSegment payload at_ opens := by
  rw [readFile, run_get_at, HasSegment]
  by_cases h4 : at_ + 4 ≤ payload.length
  · rw [if_pos (by omega)]
    dsimp only
    rw [run_readSegment, FileFound.Suffices]
    simp only [Except.ok.injEq, exists_eq_left', h4, true_and]
    refine forall₂_congr fun _ _ => ?_
    have hlen : at_ + (4 : ℕ) + (8 : ℕ) = at_ + 12 := by omega
    have hblock : at_ + 12 + (4 : ℕ) = at_ + 16 := by omega
    rw [hlen, hblock]
    by_cases h16 : at_ + 16 ≤ payload.length
    · rw [if_pos (by push_cast; omega)]
      simp only [Except.map, Except.ok.injEq, exists_and_left, exists_eq_left', exists_bytesAt_iff]
      exact ⟨fun h => ⟨h16, h.1, h.2.2⟩, fun h => ⟨h.2.1, by omega, h.2.2⟩⟩
    · rw [if_neg (by push_cast; omega)]
      exact ⟨fun ⟨_, _, h, _⟩ => (nomatch h), fun h => absurd h.1 h16⟩
  · rw [if_neg (by omega)]
    exact ⟨fun ⟨_, h, _⟩ => (nomatch h), fun h => absurd h.1 h4⟩

end Segments

variable {W : Type} (os : Os W) (baseDir_ : Bytes)

/-- **Parsing stays inside the packet exactly if the fields are there**, and for an upload what it comes to read
behind them. -/
theorem staysInside_iff (task : FmsTask) (payload : Bytes) (w : W) :
    StaysInside os baseDir_ task payload w ↔
      HasFields task payload ∧ (task = .upFileOp_ → HasUpload os baseDir_ payload w) := by
  rw [StaysInside, exists_inside_iff]
  refine and_congr_right fun hfields => ?_
  cases task with
  | upFileOp_ =>
    have hnonneg := hfields.nonneg
    simp only [forall_true_left]
    rw [requestIn, echoStaysInside_up_iff, HasUpload]
    dsimp only
    rw [suffices_readFile_iff (by omega)]
  | downFileOp_ => simp [requestIn, EchoStaysInside]
  | peerFileListOp_ => simp [requestIn, EchoStaysInside]
  | delFileOp_ => simp [requestIn, EchoStaysInside]
  | newFileOp_ => simp [requestIn, EchoStaysInside]

/-- **A string without an end leads out of its packet.** -/
theorem not_staysInside_delFile :
    ¬ StaysInside (Disk.os true fun _ => 0) [] .delFileOp_ [0, 0, 0, 0, 1, 0, 97] [] := by
  rw [staysInside_iff]
  exact fun h => absurd h.1.nul (by decide)

end EuhatExpert
