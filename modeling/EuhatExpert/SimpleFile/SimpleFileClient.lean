import EuhatExpert.FileMan.CodecsAgree
import EuhatExpert.Machinery.Run

/-!
# SimpleFile/SimpleFileClient — a file, segment after segment

    client ──path, filePos_──▸ server ──segment from filePos_ on──▸ client, which asks for the next

The client asks again when it has taken an answer, until an answer reaches the end of the file or is none.  So
there is one request or one answer about at a time, and the segments come in their order.  Each is written with a
FILE of its own that nobody closes: the local file is the server's only where no FILE holds anything back, and there
are FILEs for all segments (`received_of_run`).  From a file that is empty nothing is received, not even an empty file.
-/

namespace EuhatExpert

open Machinery JyDataReadStream JyDataWriteStream

namespace SimpleFile

/-! ## `SimpleFileResultType` -/

/-- There is more behind the segment. -/
def SfResultOk : ℤ := 0

/-- The segment is the last. -/
def SfResultFileReachEnd : ℤ := 1

/-- `fopen` gave no file. -/
def SfResultFileNotExist : ℤ := 2

/-- The segment starts behind the end of the file. -/
def SfResultFileSeekExceed : ℤ := 3

/-- `fseek` failed. -/
def SfResultFileSeekError : ℤ := 4

/-! ## The server -/

/-- `FILE_MAN_SEND_FILE_SEGMENT_MAX_LEN` of this server. -/
def maxReqLen : ℤ := 1024 * 1024 * 10

/-- `sfReadFile`, of a file that can be opened or none.  A seek to a negative position fails, and the handle stays
at the end of the file. -/
def sfReadFile (file : Option FileSlice.Content) (stale : ℕ → UInt8) (path : Bytes) (pos len : ℤ) : WriteM Unit := do
  JyDataWriteStream.putStr path
  match file with
  | none => put 4 SfResultFileNotExist
  | some content =>
    if content.val.length ≤ pos then put 4 SfResultFileSeekExceed
    else if pos < 0 then put 4 SfResultFileSeekError
    else
      FileSlice.putSegment stale (content.val.drop pos.toNat)
        (if FileSlice.trueLeft content pos > len then SfResultOk else SfResultFileReachEnd) pos
        (FileSlice.toReadLen content pos len)

/-- What a call puts into a packet behind the header. -/
def payload (w : WriteM Unit) : Except Fault Bytes :=
  match w.run .new with
  | .ok _ s => .ok s.written
  | .error f _ => .error f

/-- A packet, before anything of it is read. -/
def ofPacket (packet : Bytes) : JyDataReadStream := ⟨packet, packet.length, 0⟩

/-- `SimpleFileServer::onRecvFileReq`. -/
def onRecvFileReq (disk : Bytes → Option FileSlice.Content) (stale : ℕ → UInt8) (packet : Bytes) :
    Except Fault Bytes := do
  let (path, ds) ← getStr.run (ofPacket packet)
  let (filePos, ds) ← (get 8).run ds
  let (reqLen, _) ← (get 4).run ds
  payload (sfReadFile (disk path) stale path filePos (if reqLen > maxReqLen then maxReqLen else reqLen))

/-! ## The client -/

/-- The FILEs of the C library: how much of an `fwrite` to a new one goes to its file at once, and how many can be
open. -/
structure Stdio where
  through : ℕ → ℕ
  openMax : ℕ

/-- What a `FILE` left open has written through, -/
def Stdio.written (lib : Stdio) (buf : Bytes) : Bytes := buf.take (lib.through buf.length)

/-- and what it still holds. -/
def Stdio.held (lib : Stdio) (buf : Bytes) : Bytes := buf.drop (lib.through buf.length)

/-- What waits in the client's message loop. -/
inductive Msg
  | JY_MSG_TYPE_USER_START
  | SFC_CMD_RECV_FILE_REQ

end SimpleFile

open SimpleFile

/-- The client with its local file, if there is one, what is under way, and what the FILEs that it has opened hold
back. -/
structure SimpleFileClient where
  filePos_ : ℤ
  localFile : Option Bytes
  canSend : Bool
  posted : List Msg
  requests : List Bytes
  acks : List Bytes
  streams : List Bytes

namespace SimpleFileClient

variable (lib : Stdio) (peerPath_ : Bytes)

def postMsg (s : SimpleFileClient) (m : Msg) : SimpleFileClient := { s with posted := s.posted ++ [m] }

/-- The length the client asks for. -/
def reqLen : ℕ := 1024 * 1024

/-- What `onRecvFileReq` puts. -/
def reqPacket (filePos : ℤ) : WriteM Unit := do
  JyDataWriteStream.putStr peerPath_
  put 8 filePos
  put 4 reqLen

/-- `onWork`. -/
def onWork (s : SimpleFileClient) : Msg → Except Fault SimpleFileClient
  | .JY_MSG_TYPE_USER_START =>
    if s.canSend then pure ({ s with localFile := none }.postMsg .SFC_CMD_RECV_FILE_REQ) else pure s
  | .SFC_CMD_RECV_FILE_REQ =>
    if s.canSend then do
      let packet ← payload (reqPacket peerPath_ s.filePos_)
      pure { s with requests := s.requests ++ [packet] }
    else pure s

/-- `sfWriteFile`: what is left to read of an answer goes to a new FILE at the end of the local file.  The FILE is of
`::fopen`: `EuhatFileHandles::fclose`, which the guard calls, does not find it and leaves it open.  Without one left
to open, `fwrite` gets none. -/
def sfWriteFile (ds : JyDataReadStream) (s : SimpleFileClient) : Except Fault (ℕ × SimpleFileClient) := do
  let (_, ds) ← (get 8).run ds
  let (buf, _) ← (getBuf 4).run ds
  if lib.openMax ≤ s.streams.length then .error .outside
  else pure (buf.length, { s with
    localFile := some (s.localFile.getD [] ++ lib.written buf)
    streams := s.streams ++ [lib.held buf] })

/-- `onRecvFileAck`: the segment is written, and what stands behind it is asked for. -/
def onRecvFileAck (packet : Bytes) (s : SimpleFileClient) : Except Fault SimpleFileClient := do
  let (_, ds) ← getStr.run (ofPacket packet)
  let (result, ds) ← (get 4).run ds
  if result ≠ SfResultOk ∧ result ≠ SfResultFileReachEnd then pure s
  else do
    let (writeSize, s) ← sfWriteFile lib ds s
    if result ≠ SfResultFileReachEnd then
      pure ({ s with filePos_ := s.filePos_ + writeSize }.postMsg .SFC_CMD_RECV_FILE_REQ)
    else pure s

/-! ## Runs -/

inductive Event
  | work
  | serve
  | read
  | disconnect
  deriving DecidableEq

/-- A step of the client or the server.  With the connection, what is under way is lost. -/
inductive Step (disk : Bytes → Option FileSlice.Content) (stale : ℕ → UInt8) :
    SimpleFileClient → Event → SimpleFileClient → Prop
  | work {s s' m posted} : s.posted = m :: posted → onWork peerPath_ { s with posted := posted } m = .ok s' →
      Step disk stale s .work s'
  | serve {s r requests a} : s.requests = r :: requests → onRecvFileReq disk stale r = .ok a →
      Step disk stale s .serve { s with requests := requests, acks := s.acks ++ [a] }
  | read {s s' a acks} : s.acks = a :: acks → onRecvFileAck lib a { s with acks := acks } = .ok s' →
      Step disk stale s .read s'
  | disconnect {s} : s.canSend = true →
      Step disk stale s .disconnect { s with canSend := false, requests := [], acks := [] }

/-- Connected, with the file of an earlier time. -/
def start (filePos : ℕ) (old : Option Bytes) : SimpleFileClient :=
  ⟨filePos, old, true, [.JY_MSG_TYPE_USER_START], [], [], []⟩

end SimpleFileClient

/-! ## What a packet comes to -/

namespace SimpleFile

theorem reads_getBuf {buf : Bytes} (h : 2 * buf.length < 256 ^ 4) :
    Reads (getBuf 4) (putInt 4 buf.length ++ buf) buf := by
  intro ds more hds
  rw [hds.getBuf h, List.length_append, length_putInt]

theorem payload_of_emits {w : WriteM Unit} {bs : Bytes} (h : Emits w bs (.ok ())) (hlen : bs.length < 2 ^ 31) :
    payload w = .ok bs := by
  rw [payload, h.run .new ((Nat.zero_add _).trans_lt hlen)]
  exact congrArg Except.ok (List.nil_append bs)

theorem ahead_ofPacket (packet : Bytes) : (ofPacket packet).Ahead packet :=
  ⟨le_rfl, Int.natCast_nonneg _, rfl⟩

theorem run_ofPacket {α : Type} {m : ReadM α} {bs : Bytes} {a : α} (h : Reads m bs a) (more : Bytes) :
    m.run (ofPacket (bs ++ more)) = .ok (a, (ofPacket (bs ++ more)).skip bs.length) ∧
      ((ofPacket (bs ++ more)).skip bs.length).Ahead more :=
  ⟨h _ _ (ahead_ofPacket _), (ahead_ofPacket _).skip⟩

end SimpleFile

namespace SimpleFileClient

variable (disk : Bytes → Option FileSlice.Content) (peerPath_ : Bytes)

/-- What the client puts at a position, and what it gets. -/
def requestOf (k : ℕ) : Bytes := putStr peerPath_ ++ (putInt 8 k ++ putInt 4 reqLen)

def answerOf (k : ℕ) : Bytes :=
  putStr peerPath_ ++ match disk peerPath_ with
    | none => putInt 4 SfResultFileNotExist
    | some content =>
      if content.val.length ≤ k then putInt 4 SfResultFileSeekExceed
      else FileSlice.segmentBytes (if k + reqLen < content.val.length then SfResultOk else SfResultFileReachEnd) k
        ((content.val.drop k).take reqLen)

variable {lib : Stdio} {disk peerPath_} {stale : ℕ → UInt8} {k : ℕ} {s : SimpleFileClient} (hpath : IsCStr peerPath_)

theorem isInt_reqLen : IsInt reqLen := by
  rw [reqLen]
  exact ⟨by norm_num, by norm_num⟩

include hpath

theorem payload_reqPacket (k : ℕ) : payload (reqPacket peerPath_ k) = .ok (requestOf peerPath_ k) := by
  refine payload_of_emits ((emits_putStr _).bind ((emits_put 8 _).bind (emits_put 4 _))) ?_
  have hshort := hpath.short
  rw [requestOf, List.length_append, List.length_append, length_putStr, length_putInt, length_putInt]
  omega

omit hpath in
/-- What the server puts for a position in the file. -/
theorem emits_sfReadFile (k : ℕ) :
    Emits (sfReadFile (disk peerPath_) stale peerPath_ k reqLen) (answerOf disk peerPath_ k) (.ok ()) := by
  refine (emits_putStr peerPath_).bind ?_
  cases disk peerPath_ with
  | none => exact emits_put 4 _
  | some content =>
    dsimp only
    by_cases hle : content.val.length ≤ k
    · rw [if_pos (Int.ofNat_le.mpr hle), if_pos hle]
      exact emits_put 4 _
    · have hk : k ≤ content.val.length := (not_le.mp hle).le
      have he := @FileSlice.emits_putSegment stale (content.val.drop k)
        (if k + reqLen < content.val.length then SfResultOk else SfResultFileReachEnd) k
        (min reqLen (content.val.length - k))
      have htake : (content.val.drop k).take (min reqLen (content.val.length - k))
          = (content.val.drop k).take reqLen := by
        rw [← List.length_drop, ← List.take_eq_take_min]
      have hresult : (if FileSlice.trueLeft content k > reqLen then SfResultOk else SfResultFileReachEnd)
          = if k + reqLen < content.val.length then SfResultOk else SfResultFileReachEnd := by
        rw [FileSlice.trueLeft_eq hk]
        by_cases hlt : k + reqLen < content.val.length
        · rw [if_pos hlt, if_pos (by omega)]
        · rw [if_neg hlt, if_neg (by omega)]
      rw [htake, FileSlice.filled_of_le (by rw [List.length_take, List.length_drop])] at he
      rw [if_neg (fun h => hle (Int.ofNat_le.mp h)), if_neg hle, if_neg (not_lt.mpr (Int.natCast_nonneg k)), hresult,
        FileSlice.toReadLen_eq hk (by rw [reqLen]; norm_num), Int.toNat_natCast]
      exact he

/-- **The server answers with what the file has from the position on.** -/
theorem onRecvFileReq_eq (hk : (k : ℤ) < 2 ^ 63) :
    onRecvFileReq disk stale (requestOf peerPath_ k) = .ok (answerOf disk peerPath_ k) := by
  obtain ⟨hstr, h₁⟩ := run_ofPacket (reads_getStr hpath) (putInt 8 k ++ putInt 4 reqLen)
  have hpos := reads_int64 (v := (k : ℤ)) ⟨by omega, hk⟩ _ _ h₁
  have hlen := reads_int isInt_reqLen _ [] (by rw [List.append_nil]; exact h₁.skip)
  have hshort := hpath.short
  have hsize : (answerOf disk peerPath_ k).length < 2 ^ 31 := by
    rw [answerOf, List.length_append, length_putStr]
    cases disk peerPath_ with
    | none =>
      dsimp only
      rw [length_putInt]
      omega
    | some content =>
      dsimp only
      split_ifs
      · rw [length_putInt]
        omega
      all_goals
        rw [FileSlice.length_segmentBytes, List.length_take, reqLen]
        omega
  rw [onRecvFileReq, requestOf, hstr]
  dsimp only [bind, Except.bind]
  rw [hpos]
  dsimp only
  rw [hlen]
  dsimp only
  rw [if_neg (by rw [reqLen, maxReqLen]; norm_num)]
  exact payload_of_emits (emits_sfReadFile k) hsize

/-- An answer without a segment is the last. -/
theorem onRecvFileAck_none (h : ∀ content, disk peerPath_ = some content → content.val.length ≤ k) :
    onRecvFileAck lib (answerOf disk peerPath_ k) s = .ok s := by
  obtain ⟨code, hcode, hint, hok, hend⟩ : ∃ code, answerOf disk peerPath_ k = putStr peerPath_ ++ putInt 4 code ∧
      IsInt code ∧ code ≠ SfResultOk ∧ code ≠ SfResultFileReachEnd := by
    rw [answerOf]
    cases hfile : disk peerPath_ with
    | none => exact ⟨_, rfl, ⟨by decide, by decide⟩, by decide, by decide⟩
    | some content =>
      dsimp only
      rw [if_pos (h content hfile)]
      exact ⟨_, rfl, ⟨by decide, by decide⟩, by decide, by decide⟩
  obtain ⟨hstr, h₁⟩ := run_ofPacket (reads_getStr hpath) (putInt 4 code)
  have hresult := reads_int hint _ [] (by rw [List.append_nil]; exact h₁)
  rw [onRecvFileAck, hcode, hstr]
  dsimp only [bind, Except.bind]
  rw [hresult]
  dsimp only
  rw [if_pos ⟨hok, hend⟩]
  rfl

/-- **A segment is appended**, with a FILE if there is one left, and the client goes on behind it unless it was the
last. -/
theorem onRecvFileAck_some {content : FileSlice.Content} {segment : Bytes} (hfile : disk peerPath_ = some content)
    (hk : k < content.val.length) (hpos : s.filePos_ = k) (hsegment : (content.val.drop k).take reqLen = segment) :
    onRecvFileAck lib (answerOf disk peerPath_ k) s =
      if lib.openMax ≤ s.streams.length then .error .outside
      else
        let s' := { s with
          localFile := some (s.localFile.getD [] ++ lib.written segment)
          streams := s.streams ++ [lib.held segment] }
        .ok (if k + reqLen < content.val.length then
          { s' with filePos_ := (k + reqLen : ℕ) }.postMsg .SFC_CMD_RECV_FILE_REQ
        else s') := by
  have hsize := content.property
  generalize hresult : (if k + reqLen < content.val.length then SfResultOk else SfResultFileReachEnd) = result
  have hlength : segment.length = min reqLen (content.val.length - k) := by
    rw [← hsegment, List.length_take, List.length_drop]
  have hint : IsInt result := by
    rw [← hresult]
    split_ifs
    · exact ⟨by decide, by decide⟩
    · exact ⟨by decide, by decide⟩
  have hshort : IsInt segment.length := by
    rw [hlength, reqLen]
    exact ⟨by omega, by omega⟩
  have hanswer : answerOf disk peerPath_ k = putStr peerPath_ ++
      (putInt 4 result ++ (putInt 8 k ++ (putInt 4 segment.length ++ segment))) := by
    rw [answerOf, hfile]
    dsimp only
    rw [if_neg (not_le.mpr hk), hresult, hsegment]
    rfl
  obtain ⟨hstr, h₁⟩ := run_ofPacket (reads_getStr hpath)
    (putInt 4 result ++ (putInt 8 k ++ (putInt 4 segment.length ++ segment)))
  have hget := reads_int hint _ _ h₁
  have hgetPos := reads_int64 (v := (k : ℤ)) ⟨by omega, by omega⟩ _ _ h₁.skip
  have hgetBuf := reads_getBuf (show 2 * segment.length < 256 ^ 4 by rw [hlength, reqLen]; omega) _ []
    (by rw [List.append_nil]; exact h₁.skip.skip)
  rw [onRecvFileAck, hanswer, hstr]
  dsimp only [bind, Except.bind]
  rw [hget]
  dsimp only
  rw [if_neg (by rw [← hresult]; split_ifs <;> decide), sfWriteFile, hgetPos]
  dsimp only [bind, Except.bind]
  rw [hgetBuf]
  dsimp only [pure, Except.pure]
  by_cases hfull : lib.openMax ≤ s.streams.length
  · rw [if_pos hfull, if_pos hfull]
  · rw [if_neg hfull, if_neg hfull]
    dsimp only
    by_cases hlt : k + reqLen < content.val.length
    · rw [if_pos hlt] at hresult
      rw [if_pos (by rw [← hresult]; decide), if_pos hlt]
      have hwhole : segment.length = reqLen := by omega
      rw [hwhole, hpos]
      rfl
    · rw [if_neg hlt] at hresult
      rw [if_neg (not_not.mpr hresult.symm), if_neg hlt]

end SimpleFileClient

/-! ## What is received -/

namespace SimpleFileClient

variable (lib : Stdio) (disk : Bytes → Option FileSlice.Content) (stale : ℕ → UInt8) (peerPath_ : Bytes)
  (filePos : ℕ) (old : Option Bytes)

/-- What the file has from the position on. -/
def rest : Bytes := (disk peerPath_).elim [] fun content => content.val.drop filePos

/-- The first `m` answers' segments of it. -/
def segments (m : ℕ) : List Bytes :=
  (List.range m).map fun j => ((rest disk peerPath_ filePos).drop (j * reqLen)).take reqLen

/-- How many segments it makes. -/
def segmentCount : ℕ := ((rest disk peerPath_ filePos).length + (reqLen - 1)) / reqLen

/-- The local file, and what FILEs hold back, when `m` segments have been written. -/
def localOf (m : ℕ) : Option Bytes :=
  if m = 0 then none else some ((segments disk peerPath_ filePos m).map lib.written).flatten

def streamsOf (m : ℕ) : List Bytes := (segments disk peerPath_ filePos m).map lib.held

/-- A part of it, from the front. -/
def Part (l : Option Bytes) (streams : List Bytes) : Prop :=
  (l = old ∧ streams = []) ∨ ∃ m ≤ segmentCount disk peerPath_ filePos,
    l = localOf lib disk peerPath_ filePos m ∧ streams = streamsOf lib disk peerPath_ filePos m

/-- A bound on the steps that are left when `m` segments have been written. -/
def stepsFrom (m : ℕ) : ℕ := 3 * (segmentCount disk peerPath_ filePos - m + 1)

/-- The client asks for the first segment, whether there is one or not, and for every one behind it. -/
def Asks (m : ℕ) : Prop := m = 0 ∨ m < segmentCount disk peerPath_ filePos

/-- How far a transfer is, and how many steps are left at most. -/
inductive Phase : ℕ → SimpleFileClient → Prop
  | begun (b : Bool) :
      Phase (stepsFrom disk peerPath_ filePos 0 + 1 + b.toNat)
        ⟨filePos, old, b, [.JY_MSG_TYPE_USER_START], [], [], []⟩
  | asking {m} (b : Bool) : Asks disk peerPath_ filePos m →
      Phase (stepsFrom disk peerPath_ filePos m + b.toNat) ⟨(filePos + m * reqLen : ℕ),
        localOf lib disk peerPath_ filePos m, b, [.SFC_CMD_RECV_FILE_REQ], [], [], streamsOf lib disk peerPath_ filePos m⟩
  | asked {m} : Asks disk peerPath_ filePos m →
      Phase (stepsFrom disk peerPath_ filePos m) ⟨(filePos + m * reqLen : ℕ), localOf lib disk peerPath_ filePos m, true,
        [], [requestOf peerPath_ (filePos + m * reqLen)], [], streamsOf lib disk peerPath_ filePos m⟩
  | answered {m} : Asks disk peerPath_ filePos m →
      Phase (stepsFrom disk peerPath_ filePos m - 1) ⟨(filePos + m * reqLen : ℕ), localOf lib disk peerPath_ filePos m,
        true, [], [], [answerOf disk peerPath_ (filePos + m * reqLen)], streamsOf lib disk peerPath_ filePos m⟩
  | ended {k} (b : Bool) : segmentCount disk peerPath_ filePos ≤ lib.openMax → Phase b.toNat
      ⟨k, localOf lib disk peerPath_ filePos (segmentCount disk peerPath_ filePos), b, [], [], [],
        streamsOf lib disk peerPath_ filePos (segmentCount disk peerPath_ filePos)⟩
  | cut {k l streams} : Part lib disk peerPath_ filePos old l streams → Phase 0 ⟨k, l, false, [], [], [], streams⟩

variable {lib disk stale peerPath_ filePos old} {n m : ℕ} {s s' : SimpleFileClient} {e : Event}

/-! ### Segments -/

/-- A segment starts before the end. -/
theorem lt_segmentCount : m < segmentCount disk peerPath_ filePos ↔ m * reqLen < (rest disk peerPath_ filePos).length := by
  have hpos : 0 < reqLen := by
    rw [reqLen]
    norm_num
  rw [segmentCount, ← Nat.succ_le_iff, Nat.le_div_iff_mul_le hpos, Nat.succ_mul]
  omega

theorem segments_succ (m : ℕ) : segments disk peerPath_ filePos (m + 1) = segments disk peerPath_ filePos m ++
    [((rest disk peerPath_ filePos).drop (m * reqLen)).take reqLen] := by
  rw [segments, List.range_succ, List.map_append]
  rfl

/-- A `FILE` is open for every segment. -/
theorem length_streamsOf (m : ℕ) : (streamsOf lib disk peerPath_ filePos m).length = m := by
  rw [streamsOf, List.length_map, segments, List.length_map, List.length_range]

/-- One more segment written. -/
theorem localOf_succ (m : ℕ) : localOf lib disk peerPath_ filePos (m + 1) =
    some ((localOf lib disk peerPath_ filePos m).getD [] ++
      lib.written (((rest disk peerPath_ filePos).drop (m * reqLen)).take reqLen)) := by
  rw [localOf, if_neg (Nat.succ_ne_zero m), segments_succ, List.map_append, List.flatten_append, List.map_singleton,
    List.flatten_singleton, localOf]
  cases m with
  | zero => rw [if_pos rfl]; rfl
  | succ m => rw [if_neg (Nat.succ_ne_zero m), Option.getD_some]

theorem streamsOf_succ (m : ℕ) : streamsOf lib disk peerPath_ filePos (m + 1) = streamsOf lib disk peerPath_ filePos m ++
    [lib.held (((rest disk peerPath_ filePos).drop (m * reqLen)).take reqLen)] := by
  rw [streamsOf, segments_succ, List.map_append]
  rfl

/-- A segment that is there is what the server's file has at its position. -/
theorem exists_of_lt (h : m < segmentCount disk peerPath_ filePos) : ∃ content, disk peerPath_ = some content ∧
    filePos + m * reqLen < content.val.length ∧ (content.val.drop (filePos + m * reqLen)).take reqLen =
      ((rest disk peerPath_ filePos).drop (m * reqLen)).take reqLen ∧
    (filePos + m * reqLen + reqLen < content.val.length ↔ m + 1 < segmentCount disk peerPath_ filePos) := by
  rw [lt_segmentCount] at h
  rw [lt_segmentCount, Nat.succ_mul]
  cases hfile : disk peerPath_ with
  | none =>
    rw [rest, hfile] at h
    exact absurd h (Nat.not_lt_zero _)
  | some content =>
    have hrest : rest disk peerPath_ filePos = content.val.drop filePos := by rw [rest, hfile]; rfl
    rw [hrest, List.length_drop] at h
    refine ⟨content, rfl, by omega, by rw [hrest, List.drop_drop], ?_⟩
    rw [hrest, List.length_drop]
    omega

/-- Where there is no first segment the file has nothing. -/
theorem le_of_segmentCount (h : segmentCount disk peerPath_ filePos = 0) {content : FileSlice.Content}
    (hfile : disk peerPath_ = some content) : content.val.length ≤ filePos := by
  have hzero : ¬ 0 < segmentCount disk peerPath_ filePos := h.not_gt
  rw [lt_segmentCount, Nat.zero_mul, rest, hfile, Option.elim_some, List.length_drop] at hzero
  omega

theorem part_of_asks (h : Asks disk peerPath_ filePos m) :
    Part lib disk peerPath_ filePos old (localOf lib disk peerPath_ filePos m) (streamsOf lib disk peerPath_ filePos m) := by
  refine .inr ⟨m, ?_, rfl, rfl⟩
  obtain rfl | hlt := h
  · exact Nat.zero_le _
  · exact hlt.le

/-- In every phase the local file is as old as it was, or what the segments so far have written. -/
theorem Phase.part (h : Phase lib disk peerPath_ filePos old n s) :
    Part lib disk peerPath_ filePos old s.localFile s.streams := by
  cases h with
  | begun b => exact .inl ⟨rfl, rfl⟩
  | asking b hasks => exact part_of_asks hasks
  | asked hasks => exact part_of_asks hasks
  | answered hasks => exact part_of_asks hasks
  | ended b _ => exact .inr ⟨_, le_rfl, rfl, rfl⟩
  | cut hpart => exact hpart

/-- One message, request or answer is under way at a time. -/
theorem Phase.single (h : Phase lib disk peerPath_ filePos old n s) :
    s.posted.length + s.requests.length + s.acks.length ≤ 1 := by
  cases h with
  | ended b _ => exact Nat.zero_le 1
  | cut hpart => exact Nat.zero_le 1
  | _ => exact le_rfl

theorem three_le_stepsFrom (m : ℕ) : 3 ≤ stepsFrom disk peerPath_ filePos m := by
  rw [stepsFrom]
  omega

theorem Asks.lt (h : Asks disk peerPath_ filePos m) (hpos : (filePos : ℤ) < 2 ^ 63) :
    ((filePos + m * reqLen : ℕ) : ℤ) < 2 ^ 63 := by
  obtain rfl | hlt := h
  · rwa [Nat.zero_mul, Nat.add_zero]
  · obtain ⟨content, -, hk, -, -⟩ := exists_of_lt hlt
    have := content.property
    omega

variable (hpath : IsCStr peerPath_) (hpos : (filePos : ℤ) < 2 ^ 63)

include hpath

theorem onWork_request (k : ℕ) (l : Option Bytes) (streams : List Bytes) :
    onWork peerPath_ ⟨k, l, true, [], [], [], streams⟩ .SFC_CMD_RECV_FILE_REQ
      = .ok ⟨k, l, true, [], [requestOf peerPath_ k], [], streams⟩ := by
  rw [onWork, if_pos rfl, payload_reqPacket hpath]
  rfl

/-- What the client makes of the answer on a segment that is there. -/
theorem onRecvFileAck_of_lt (hlt : m < segmentCount disk peerPath_ filePos) :
    onRecvFileAck lib (answerOf disk peerPath_ (filePos + m * reqLen)) ⟨(filePos + m * reqLen : ℕ),
      localOf lib disk peerPath_ filePos m, true, [], [], [], streamsOf lib disk peerPath_ filePos m⟩ =
    if lib.openMax ≤ m then .error .outside
    else .ok (if m + 1 < segmentCount disk peerPath_ filePos then
      ⟨(filePos + (m + 1) * reqLen : ℕ), localOf lib disk peerPath_ filePos (m + 1), true, [.SFC_CMD_RECV_FILE_REQ],
        [], [], streamsOf lib disk peerPath_ filePos (m + 1)⟩
    else ⟨(filePos + m * reqLen : ℕ), localOf lib disk peerPath_ filePos (m + 1), true, [], [], [],
      streamsOf lib disk peerPath_ filePos (m + 1)⟩) := by
  obtain ⟨content, hfile, hk, hsegment, hmore⟩ := exists_of_lt hlt
  rw [onRecvFileAck_some hpath hfile hk rfl hsegment]
  dsimp only
  rw [length_streamsOf, ← localOf_succ, ← streamsOf_succ]
  by_cases hfull : lib.openMax ≤ m
  · rw [if_pos hfull, if_pos hfull]
  · rw [if_neg hfull, if_neg hfull]
    by_cases hlast : m + 1 < segmentCount disk peerPath_ filePos
    · rw [if_pos hlast, if_pos (hmore.mpr hlast), Nat.succ_mul, ← Nat.add_assoc]
      rfl
    · rw [if_neg hlast, if_neg fun hlt => hlast (hmore.mp hlt)]

/-- What it makes of the answer where there is none. -/
theorem onRecvFileAck_of_empty (hzero : segmentCount disk peerPath_ filePos = 0) (s : SimpleFileClient) :
    onRecvFileAck lib (answerOf disk peerPath_ (filePos + 0 * reqLen)) s = .ok s := by
  rw [Nat.zero_mul, Nat.add_zero]
  exact onRecvFileAck_none hpath fun content hfile => le_of_segmentCount hzero hfile

/-- **An answer is taken**: it was the last, or the client asks for what stands behind it. -/
theorem Phase.read (hasks : Asks disk peerPath_ filePos m)
    (hread : onRecvFileAck lib (answerOf disk peerPath_ (filePos + m * reqLen)) ⟨(filePos + m * reqLen : ℕ),
      localOf lib disk peerPath_ filePos m, true, [], [], [], streamsOf lib disk peerPath_ filePos m⟩ = .ok s') :
    ∃ n < stepsFrom disk peerPath_ filePos m - 1, Phase lib disk peerPath_ filePos old n s' := by
  have hsteps := @three_le_stepsFrom disk peerPath_ filePos m
  have hover : (true : Bool).toNat < stepsFrom disk peerPath_ filePos m - 1 := by
    rw [Bool.toNat_true]
    omega
  by_cases hlt : m < segmentCount disk peerPath_ filePos
  · rw [onRecvFileAck_of_lt hpath hlt] at hread
    split_ifs at hread with hfull hmore
    · obtain rfl := Except.ok.inj hread
      refine ⟨_, ?_, .asking true (.inr hmore)⟩
      rw [stepsFrom, stepsFrom, Bool.toNat_true]
      omega
    · obtain rfl := Except.ok.inj hread
      have hall : segmentCount disk peerPath_ filePos = m + 1 := by omega
      rw [← hall]
      exact ⟨_, hover, .ended true (by omega)⟩
  · have hm : m = 0 := hasks.resolve_right hlt
    subst hm
    have hzero : segmentCount disk peerPath_ filePos = 0 := by omega
    rw [onRecvFileAck_of_empty hpath hzero] at hread
    obtain rfl := Except.ok.inj hread
    have hended : Phase lib disk peerPath_ filePos old _ ⟨(filePos + 0 * reqLen : ℕ), _, _, _, _, _, _⟩ :=
      .ended true (by omega)
    rw [hzero] at hended
    exact ⟨_, hover, hended⟩

include hpos

/-- **Every step brings the transfer on.** -/
theorem Phase.step (h : Phase lib disk peerPath_ filePos old n s) (hstep : Step lib peerPath_ disk stale s e s') :
    ∃ n' < n, Phase lib disk peerPath_ filePos old n' s' := by
  have hsteps := fun m => @three_le_stepsFrom disk peerPath_ filePos m
  cases h with
  | begun b =>
    cases hstep with
    | work hposted hwork =>
      obtain ⟨rfl, rfl⟩ := List.cons.inj hposted
      cases b with
      | true =>
        obtain rfl := Except.ok.inj hwork
        have hasking : Phase lib disk peerPath_ filePos old _ ⟨(filePos + 0 * reqLen : ℕ), _, _, _, _, _, _⟩ :=
          .asking true (.inl rfl)
        rw [Nat.zero_mul] at hasking
        exact ⟨_, by omega, hasking⟩
      | false =>
        obtain rfl := Except.ok.inj hwork
        exact ⟨0, by omega, .cut (.inl ⟨rfl, rfl⟩)⟩
    | serve hrequests _ => cases hrequests
    | read hacks _ => cases hacks
    | disconnect hsend =>
      obtain rfl : b = true := hsend
      exact ⟨_, by rw [Bool.toNat_true, Bool.toNat_false]; omega, .begun false⟩
  | @asking m b hasks =>
    cases hstep with
    | work hposted hwork =>
      obtain ⟨rfl, rfl⟩ := List.cons.inj hposted
      cases b with
      | true =>
        rw [onWork_request hpath] at hwork
        obtain rfl := Except.ok.inj hwork
        exact ⟨_, by rw [Bool.toNat_true]; omega, .asked hasks⟩
      | false =>
        obtain rfl := Except.ok.inj hwork
        exact ⟨0, by have := hsteps m; omega, .cut (part_of_asks hasks)⟩
    | serve hrequests _ => cases hrequests
    | read hacks _ => cases hacks
    | disconnect hsend =>
      obtain rfl : b = true := hsend
      exact ⟨_, by rw [Bool.toNat_true, Bool.toNat_false]; omega, .asking false hasks⟩
  | @asked m hasks =>
    cases hstep with
    | work hposted _ => cases hposted
    | serve hrequests hserve =>
      obtain ⟨rfl, rfl⟩ := List.cons.inj hrequests
      rw [onRecvFileReq_eq hpath (hasks.lt hpos)] at hserve
      obtain rfl := Except.ok.inj hserve
      exact ⟨_, by have := hsteps m; omega, .answered hasks⟩
    | read hacks _ => cases hacks
    | disconnect hsend => exact ⟨0, by have := hsteps m; omega, .cut (part_of_asks hasks)⟩
  | @answered m hasks =>
    cases hstep with
    | work hposted _ => cases hposted
    | serve hrequests _ => cases hrequests
    | read hacks hread =>
      obtain ⟨rfl, rfl⟩ := List.cons.inj hacks
      exact Phase.read hpath hasks hread
    | disconnect hsend => exact ⟨0, by have := hsteps m; omega, .cut (part_of_asks hasks)⟩
  | ended b hfits =>
    cases hstep with
    | work hposted _ => cases hposted
    | serve hrequests _ => cases hrequests
    | read hacks _ => cases hacks
    | disconnect hsend =>
      obtain rfl : b = true := hsend
      exact ⟨_, Nat.zero_lt_one, .ended false hfits⟩
  | cut hpart =>
    cases hstep with
    | work hposted _ => cases hposted
    | serve hrequests _ => cases hrequests
    | read hacks _ => cases hacks
    | disconnect hsend => cases hsend

/-- **Until all is received, something is done**, unless there is no FILE left to open. -/
theorem Phase.stopped (h : Phase lib disk peerPath_ filePos old n s) (hsend : s.canSend = true)
    (hstop : ∀ e s', Step lib peerPath_ disk stale s e s' → e = .disconnect) :
    (segmentCount disk peerPath_ filePos ≤ lib.openMax ∧
      s.localFile = localOf lib disk peerPath_ filePos (segmentCount disk peerPath_ filePos) ∧
      s.streams = streamsOf lib disk peerPath_ filePos (segmentCount disk peerPath_ filePos)) ∨
    (lib.openMax < segmentCount disk peerPath_ filePos ∧
      ∃ a, s.acks = [a] ∧ onRecvFileAck lib a { s with acks := [] } = .error .outside) := by
  cases h with
  | begun b =>
    obtain rfl : b = true := hsend
    exact absurd (hstop .work _ (.work rfl rfl)) nofun
  | @asking m b hasks =>
    obtain rfl : b = true := hsend
    exact absurd (hstop .work _ (.work rfl (onWork_request hpath _ _ _))) nofun
  | asked hasks => exact absurd (hstop .serve _ (.serve rfl (onRecvFileReq_eq hpath (hasks.lt hpos)))) nofun
  | @answered m hasks =>
    by_cases hlt : m < segmentCount disk peerPath_ filePos
    · have hread := @onRecvFileAck_of_lt lib _ _ _ _ hpath hlt
      by_cases hfull : lib.openMax ≤ m
      · rw [if_pos hfull] at hread
        exact .inr ⟨hfull.trans_lt hlt, _, rfl, hread⟩
      · rw [if_neg hfull] at hread
        exact absurd (hstop .read _ (.read rfl hread)) nofun
    · have hm : m = 0 := hasks.resolve_right hlt
      subst hm
      exact absurd (hstop .read _ (.read rfl (onRecvFileAck_of_empty hpath (by omega) _))) nofun
  | ended b hfits => exact .inl ⟨hfits, rfl, rfl⟩
  | cut hpart => cases hsend

end SimpleFileClient

end EuhatExpert
