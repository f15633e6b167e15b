import EuhatExpert.Common.ReplyMemory
import EuhatExpert.FileMan.CodecsAgree

/-!
# FileMan/ReplyRoom — is a reply short enough for its reader

A segment of a file is capped, so that it fits a block of the pool with its header and a path.  A listing
is written whole, and only the reader looks at its length: a frame of a block or more is refused, and the
connection with it.  Of the replies whose path is a C string, listings alone can get there
(`replyFits_iff`).
-/

namespace EuhatExpert

open Machinery TraceM JyDataWriteStream

def FILE_MAN_MEM_POOL_UNIT_SIZE : ℕ := 1024 * 1024 * 20

/-! ## What is sent under the symmetric cipher -/

namespace JyTcpEndpoint

variable {cipher : AsymmetricCipher} {l : JyTcpListener} {stale : ℕ → UInt8} {packetType : ℤ}

/-- What an index can count is sent. -/
theorem exists_transmit (hsym : l.enc_ = .symmetric) {body : WriteM Unit} {payload : Bytes}
    (hbody : Emits body payload (.ok ())) (hlen : 8 + payload.length < 2 ^ 31) :
    ∃ p, transmit cipher l stale packetType body = .ok p :=
  ⟨_, transmit_of_emits hbody hlen (emits_encrypt_symmetric hsym payload) (by rwa [length_xorBytes])⟩

/-- **A payload is sent in a frame of its length and a header.** -/
theorem length_transmit (hsym : l.enc_ = .symmetric) {body : WriteM Unit} {payload : Bytes}
    (hbody : Emits body payload (.ok ())) {p : Sent}
    (hp : transmit cipher l stale packetType body = .ok p) :
    p.bytes.length = 8 + payload.length ∧ p.bytes.length < 2 ^ 31 ∧
      getInt (p.bytes.take 4) = p.bytes.length := by
  obtain ⟨rfl, hlt⟩ := transmit_eq hbody (emits_encrypt_symmetric hsym payload) hp
  rw [length_xorBytes] at hlt
  dsimp only
  rw [length_frame, length_xorBytes, frame, List.take_left' (length_putInt _ _), length_xorBytes,
    getInt_putInt_of_range (by norm_num; omega) (by norm_num; omega)]
  exact ⟨rfl, hlt, by push_cast; rfl⟩

end JyTcpEndpoint

/-! ## The replies -/

namespace FmAck

/-- The type `echo` puts in the header. -/
def packetType : FmAck → ℤ
  | down _ => FmCmdFileDown
  | up _ => FmCmdFileUp
  | list _ => FmCmdGetPeerFileList
  | del _ => FmCmdFileDel
  | new _ => FmCmdFileNew

/-- What an answer has behind its id and its path. -/
def body : FmAck → Bytes
  | down a => FileSlice.bytesOf a.file
  | up a => putInt 8 a.filePos ++ putInt 4 a.retResult
  | list a => putInt 4 (if a.isOk then 1 else 0) ++ (putInt 4 a.subFiles.length ++ a.subFiles)
  | del a | new a => putInt 4 a.isFolder ++ putInt 4 (if a.retResult then 1 else 0)

def path : FmAck → Bytes
  | down a => a.path
  | up a => a.path
  | list a => a.path
  | del a | new a => a.path

def payload (a : FmAck) : Bytes := putInt 4 a.id ++ (putStr a.path ++ a.body)

theorem emits_write (a : FmAck) : Emits a.write a.payload (.ok ()) := by
  cases a with
  | down a => exact (emits_put 4 _).bind ((emits_putStr _).bind (emits_fileRead _))
  | up a => exact (emits_put 4 _).bind ((emits_putStr _).bind ((emits_put 8 _).bind (emits_put 4 _)))
  | list a => exact (emits_put 4 _).bind ((emits_putStr _).bind (emits_writeFiles a))
  | del a | new a =>
    exact (emits_put 4 _).bind ((emits_putStr _).bind ((emits_put 4 _).bind (emits_put 4 _)))

theorem length_payload (a : FmAck) : a.payload.length = 7 + a.path.length + a.body.length := by
  rw [payload, List.length_append, List.length_append, length_putInt, length_putStr]
  omega

end FmAck

/-! ## What the client makes of one -/

section Reader

variable {U : ℕ}

/-- A reader that has the first bytes of a frame, enough for its length and more, does not refuse it. -/
def Acceptable (U : ℕ) (frame : Bytes) : Prop :=
  ∀ (buf : JyTcpBuf U) (block : Block U), 7 ≤ buf.recvLen_ → buf.received <+: frame →
    ∃ whole, hasWholePacket buf block = .ok whole ∧ whole.result ≠ -1

theorem acceptable_of_lt {frame : Bytes} (hsize : getInt (frame.take 4) = frame.length)
    (hlt : frame.length < U) : Acceptable U frame := by
  intro buf block h₇ hpre
  have hle := hpre.length_le
  rw [JyTcpBuf.length_received] at hle
  have hhead : buf.received.take 4 = frame.take 4 := by
    obtain ⟨rest, hrest⟩ := hpre
    rw [← hrest, List.take_append_of_le_length (by rw [JyTcpBuf.length_received]; omega)]
  have hguard := getInt_guard h₇ ((congrArg getInt hhead).trans hsize)
  rw [hasWholePacket, if_neg (by omega)]
  dsimp only
  rw [hguard, if_neg (by omega)]
  rcases hle.lt_or_eq with hpart | hwhole
  · have hpending : (0 : ℤ) ≠ -1 := by decide
    rw [if_pos (by omega)]
    exact ⟨_, rfl, hpending⟩
  · have hdone : (1 : ℤ) ≠ -1 := by decide
    rw [if_neg (by omega), if_pos (by omega)]
    exact ⟨_, rfl, hdone⟩

end Reader

/-- An answer is sent, and in a frame its reader takes. -/
def ReplyFits (cipher : AsymmetricCipher) (l : JyTcpListener) (stale : ℕ → UInt8) (a : FmAck) : Prop :=
  ∃ p, JyTcpEndpoint.transmit cipher l stale a.packetType a.write = .ok p ∧
    p.bytes.length < FILE_MAN_MEM_POOL_UNIT_SIZE ∧ Acceptable FILE_MAN_MEM_POOL_UNIT_SIZE p.bytes

theorem replyFits_iff_length {cipher : AsymmetricCipher} {l : JyTcpListener} (hsym : l.enc_ = .symmetric)
    (stale : ℕ → UInt8) (a : FmAck) :
    ReplyFits cipher l stale a ↔ 15 + a.path.length + a.body.length < FILE_MAN_MEM_POOL_UNIT_SIZE := by
  have hlen := a.length_payload
  have hunit : FILE_MAN_MEM_POOL_UNIT_SIZE = 20971520 := by decide
  rw [ReplyFits]
  generalize FILE_MAN_MEM_POOL_UNIT_SIZE = U at hunit ⊢
  refine ⟨fun ⟨p, hp, hlt, _⟩ => ?_, fun h => ?_⟩
  · have := (JyTcpEndpoint.length_transmit hsym a.emits_write hp).1
    omega
  · obtain ⟨p, hp⟩ : ∃ p, JyTcpEndpoint.transmit cipher l stale a.packetType a.write = .ok p :=
      JyTcpEndpoint.exists_transmit hsym a.emits_write (by omega)
    obtain ⟨hframe, -, hsize⟩ := JyTcpEndpoint.length_transmit hsym a.emits_write hp
    exact ⟨p, hp, by omega, acceptable_of_lt hsize (by omega)⟩

/-! ## What is asked -/

/-- The bytes of an entry in a listing. -/
def SubEntry.size : SubEntry → ℕ
  | folder name => name.length + 4
  | file name _ _ => name.length + 20

theorem SubEntry.length_write (e : SubEntry) : e.write.length = e.size := by
  cases e with
  | folder name =>
    rw [SubEntry.write, List.length_append, length_putInt, length_putStr, SubEntry.size]
    omega
  | file name size lastWriteTime =>
    simp only [SubEntry.write, List.length_append, length_putInt, length_putStr, SubEntry.size]
    omega

theorem SubList.length_write (l : SubList) :
    l.write.length = l.curDir.length + 4 + (l.entries.map SubEntry.size).sum := by
  have hentries : (l.entries.flatMap SubEntry.write).length = (l.entries.map SubEntry.size).sum := by
    rw [List.length_flatMap]
    exact congrArg List.sum (List.map_congr_left fun e _ => e.length_write)
  rw [SubList.write, List.length_append, List.length_append, length_putStr, length_putInt, hentries]
  omega

def FmReq.path : FmReq → Bytes
  | .down r => r.path
  | .up r => r.path
  | .list r => r.path
  | .del r | .new r => r.path

section Asked

variable {W : Type} (os : Os W) (files : Bytes → W → Option (List SubEntry)) (baseDir_ : Bytes) (w : W)

/-- The bytes of a segment: what is left of the file, up to the length asked for and the cap. -/
def DownReq.segmentSize (r : DownReq) (path : Bytes) : ℕ :=
  if os.fopenRead path w ∧ r.filePos ≤ os.whGetFileSize path w then
    16 + (min (min r.reqLen FILE_MAN_RECV_FILE_SEGMENT_MAX_LEN) (os.whGetFileSize path w - r.filePos)).toNat
  else 4

/-- The bytes of a folder's listing. -/
def listingSize (path : Bytes) : ℕ :=
  match files path w with
  | some es => path.length + 4 + (es.map SubEntry.size).sum
  | none => 0

/-- The bytes asked for, behind the path. -/
def FmReq.askedSize (path : Bytes) : FmReq → ℕ
  | .down r => if strIsStartWith path baseDir_ then r.segmentSize os w path else 4
  | .up _ => 12
  | .list _ => 8 + if strIsStartWith path baseDir_ then listingSize files w path else 0
  | .del _ | .new _ => 8

/-- The header, the id, the path and what is asked for fit a block. -/
def FmReq.Room (r : FmReq) : Prop :=
  15 + (whCorrectFilePath os.isUnix_ r.path).length
    + r.askedSize os files baseDir_ w (whCorrectFilePath os.isUnix_ r.path) < FILE_MAN_MEM_POOL_UNIT_SIZE

/-! ## What is answered -/

variable {os files baseDir_ w} {w' : W}

theorem length_readOf (hfread : ∀ path pos n w, (os.fread path pos n w).length = n) (path : Bytes) (r : DownReq) :
    (FileSlice.bytesOf (readOf os path r.filePos (if r.reqLen > FILE_MAN_RECV_FILE_SEGMENT_MAX_LEN then
      FILE_MAN_RECV_FILE_SEGMENT_MAX_LEN else r.reqLen) w)).length = r.segmentSize os w path := by
  have hcap : (if r.reqLen > FILE_MAN_RECV_FILE_SEGMENT_MAX_LEN then FILE_MAN_RECV_FILE_SEGMENT_MAX_LEN
      else r.reqLen) = min r.reqLen FILE_MAN_RECV_FILE_SEGMENT_MAX_LEN := by
    split_ifs <;> omega
  have hlone : ∀ code : ℤ, (FileSlice.bytesOf ⟨code, none⟩).length = 4 := fun code => length_putInt 4 code
  rw [hcap, readOf, DownReq.segmentSize]
  by_cases hopen : os.fopenRead path w
  · by_cases hseek : os.whGetFileSize path w < r.filePos
    · rw [if_pos hopen, if_pos hseek, if_neg (by omega), hlone]
    · have hin : os.fopenRead path w ∧ r.filePos ≤ os.whGetFileSize path w := ⟨hopen, not_lt.mp hseek⟩
      rw [if_pos hopen, if_neg hseek, if_pos hin]
      split_ifs with hmore
      · rw [FileSlice.bytesOf, FileSlice.length_segmentBytes, hfread, min_eq_left (le_of_lt hmore)]
      · rw [FileSlice.bytesOf, FileSlice.length_segmentBytes, hfread, min_eq_right (not_lt.mp hmore)]
  · rw [if_neg hopen, if_neg fun h => hopen h.1, hlone]

/-- **An answer has the corrected path, and behind it as many bytes as were asked for.** -/
theorem length_of_echo
    (hfiles : ∀ path w, os.whGetSubFiles path w = (files path w).map fun es => (SubList.mk path es).write)
    (hfread : ∀ path pos n w, (os.fread path pos n w).length = n) {r : FmReq} {a : FmAck}
    (h : Ends (FileManServer.echo os baseDir_ r) w a w') :
    a.path = whCorrectFilePath os.isUnix_ r.path ∧
      a.body.length = r.askedSize os files baseDir_ w (whCorrectFilePath os.isUnix_ r.path) := by
  cases r with
  | down r =>
    obtain ⟨b, w₁, hb, h⟩ := h.bind
    obtain ⟨rfl, -⟩ := ends_pure h
    rw [FmsDownFile.echo] at hb
    dsimp only [FmReq.path, FmReq.askedSize] at hb ⊢
    by_cases hbase : strIsStartWith (whCorrectFilePath os.isUnix_ r.path) baseDir_ = true
    · rw [if_pos hbase] at hb ⊢
      obtain ⟨file, w₂, hfile, hb⟩ := hb.bind
      obtain ⟨rfl, -⟩ := ends_pure hb
      rw [← length_readOf hfread, ← (ends_fmReadFile os hfile).1]
      exact ⟨rfl, rfl⟩
    · rw [if_neg hbase] at hb ⊢
      obtain ⟨rfl, -⟩ := ends_pure hb
      exact ⟨rfl, length_putInt 4 _⟩
  | up r =>
    obtain ⟨b, w₁, hb, h⟩ := h.bind
    obtain ⟨rfl, -⟩ := ends_pure h
    refine ⟨?_, by rw [FmAck.body, List.length_append, length_putInt, length_putInt]; rfl⟩
    rw [FmsUpFile.echo] at hb
    dsimp only at hb
    split_ifs at hb with hbase
    · obtain ⟨⟨filePos, retResult⟩, w₂, -, hb⟩ := hb.bind
      dsimp only at hb
      split_ifs at hb with hend
      · obtain ⟨-, w₃, -, hb⟩ := hb.bind
        obtain ⟨rfl, -⟩ := ends_pure hb
        rfl
      · obtain ⟨rfl, -⟩ := ends_pure hb
        rfl
    · obtain ⟨rfl, -⟩ := ends_pure hb
      rfl
  | list r =>
    obtain ⟨b, w₁, hb, h⟩ := h.bind
    obtain ⟨rfl, -⟩ := ends_pure h
    have hbody : ∀ b : ListAck, (FmAck.list b).body.length = 8 + b.subFiles.length := by
      intro b
      rw [FmAck.body, List.length_append, List.length_append, length_putInt, length_putInt]
      omega
    rw [FmsPeerFileList.echo] at hb
    dsimp only [FmReq.path, FmReq.askedSize] at hb ⊢
    rw [hbody]
    by_cases hbase : strIsStartWith (whCorrectFilePath os.isUnix_ r.path) baseDir_ = true
    · rw [if_pos hbase] at hb ⊢
      obtain ⟨subFiles, w₂, hsub, hb⟩ := hb.bind
      obtain ⟨rfl, -⟩ := ends_pure hb
      obtain ⟨rfl, -⟩ := Prod.mk.inj (ends_call (f := fun w => (os.whGetSubFiles _ w, w)) hsub)
      refine ⟨rfl, congrArg (8 + ·) ?_⟩
      rw [hfiles, listingSize]
      cases files (whCorrectFilePath os.isUnix_ r.path) w with
      | none => rfl
      | some es => exact SubList.length_write _
    · rw [if_neg hbase] at hb ⊢
      obtain ⟨rfl, -⟩ := ends_pure hb
      exact ⟨rfl, rfl⟩
  | del r | new r =>
    obtain ⟨b, w₁, hb, h⟩ := h.bind
    obtain ⟨rfl, -⟩ := ends_pure h
    obtain ⟨result, w₂, -, hb⟩ := hb.bind
    obtain ⟨rfl, -⟩ := ends_pure hb
    exact ⟨rfl, by rw [FmAck.body, List.length_append, length_putInt, length_putInt]; rfl⟩

/-- Behind a path that is a C string, only a listing does not fit. -/
theorem room_of_short {r : FmReq} (hpath : r.path.length < 2 ^ 15) (hlist : ∀ q, r ≠ .list q) :
    r.Room os files baseDir_ w := by
  have hle := EuhatPath.length_toStr_inStr_le r.path os.isUnix_
  have hunit : FILE_MAN_MEM_POOL_UNIT_SIZE = 20971520 := by decide
  have hasked : ∀ path, r.askedSize os files baseDir_ w path ≤ 16 + 20866662 := by
    intro path
    cases r with
    | down r =>
      rw [FmReq.askedSize, DownReq.segmentSize, FILE_MAN_RECV_FILE_SEGMENT_MAX_LEN]
      split_ifs <;> omega
    | list r => exact absurd rfl (hlist r)
    | up r | del r | new r =>
      rw [FmReq.askedSize]
      omega
  have h := hasked (whCorrectFilePath os.isUnix_ r.path)
  rw [FmReq.Room]
  rw [whCorrectFilePath] at h ⊢
  generalize FILE_MAN_MEM_POOL_UNIT_SIZE = U at hunit ⊢
  omega

/-- **An answer is sent in a frame its reader takes exactly if the header, the id, the path and what is
asked for fit a block**; where the path is a C string, all but a listing does. -/
theorem replyFits_iff {cipher : AsymmetricCipher} {l : JyTcpListener} (hsym : l.enc_ = .symmetric)
    (stale : ℕ → UInt8)
    (hfiles : ∀ path w, os.whGetSubFiles path w = (files path w).map fun es => (SubList.mk path es).write)
    (hfread : ∀ path pos n w, (os.fread path pos n w).length = n) {r : FmReq} {a : FmAck}
    (h : exec (FileManServer.echo os baseDir_ r) w = some (a, w')) :
    (ReplyFits cipher l stale a ↔ r.Room os files baseDir_ w) ∧
      (r.path.length < 2 ^ 15 → (∀ q, r ≠ .list q) → r.Room os files baseDir_ w) := by
  obtain ⟨hpath, hbody⟩ := length_of_echo hfiles hfread (ends_of_exec h)
  refine ⟨?_, room_of_short⟩
  rw [replyFits_iff_length hsym, hpath, hbody, FmReq.Room]

end Asked

/-! ## Two folders -/

/-- A system on which every file is three zeros and every folder has the entries `es`. -/
def Os.ofEntries (es : List SubEntry) : Os Unit where
  isUnix_ := true
  fopenRead _ _ := true
  fopenAppend _ w := (true, w)
  fopenCreate _ w := (true, w)
  whGetFileSize _ _ := 3
  fread _ _ n _ := List.replicate n 0
  fwrite _ _ w := w
  opUnlink _ w := (true, w)
  opMkDir _ w := (true, w)
  opRmDir _ w := (true, w)
  whPrepareFolder _ w := w
  freeSpaceInMB _ _ := 1000
  whSetFileLastWriteTime _ _ w := w
  whGetSubFiles path _ := some (SubList.mk path es).write

/-- A request to list the folder `/d`. -/
def listD : ListReq := ⟨1, [47, 100]⟩

/-- The answer to it. -/
def listedD (es : List SubEntry) : FmAck := .list ⟨1, [47, 100], true, (SubList.mk [47, 100] es).write⟩

theorem exec_listD (es : List SubEntry) :
    exec (FileManServer.echo (Os.ofEntries es) [47, 100] (.list listD)) () = some (listedD es, ()) := by
  have hcorrect : whCorrectFilePath true [47, 100] = [47, 100] := by decide +kernel
  have hpath : whCorrectFilePath (Os.ofEntries es).isUnix_ listD.path = [47, 100] := hcorrect
  have hbase : strIsStartWith [47, 100] [47, 100] = true := by decide +kernel
  rw [FileManServer.echo, FmsPeerFileList.echo]
  simp only [hpath, hbase, if_true]
  rfl

/-- An endpoint that has agreed on a key. -/
def keyed : JyTcpListener where
  encAsym_ := ⟨0, 0⟩
  decAsym_ := ⟨0, 0⟩
  encSym_ := [7]
  decSym_ := [7]
  e_ := []
  enc_ := .symmetric
  dec_ := .symmetric

/-- **The listing of a folder with one entry is taken.** -/
theorem single_replyFits : ReplyFits .rsa keyed (fun _ => 0) (listedD [.folder [97]]) := by
  have h := @replyFits_iff Unit (Os.ofEntries [.folder [97]]) (fun _ _ => some [.folder [97]]) [47, 100] () ()
    .rsa keyed rfl (fun _ => 0) (fun _ _ => rfl) (fun _ _ n _ => List.length_replicate) _ _ (exec_listD _)
  exact h.1.mpr (by rw [FmReq.Room]; decide +kernel)

/-- A name of `k` binary digits. -/
def digits (k i : ℕ) : Bytes := (List.range k).map fun j => if i.testBit j then 49 else 48

/-- As many folders as there are such names. -/
def crowd (k : ℕ) : List SubEntry := (List.range (2 ^ k)).map fun i => .folder (digits k i)

theorem crowd_nodup (k : ℕ) : (crowd k).Nodup := by
  refine List.Nodup.map_on (fun i hi j hj h => Nat.eq_of_testBit_eq fun b => ?_) List.nodup_range
  rcases lt_or_ge b k with hb | hb
  · have hdigit := List.map_inj_left.mp (SubEntry.folder.inj h) b (List.mem_range.mpr hb)
    cases hi' : i.testBit b <;> cases hj' : j.testBit b <;> simp_all
  · have hzero : ∀ {m : ℕ}, m ∈ List.range (2 ^ k) → m.testBit b = false := fun hm =>
      Nat.testBit_lt_two_pow ((List.mem_range.mp hm).trans_le (Nat.pow_le_pow_right (by decide) hb))
    rw [hzero hi, hzero hj]

theorem sum_size_crowd (k : ℕ) : ((crowd k).map SubEntry.size).sum = (k + 4) * 2 ^ k := by
  have hsize : (List.range (2 ^ k)).map (SubEntry.size ∘ fun i => .folder (digits k i))
      = (List.range (2 ^ k)).map fun _ => k + 4 := by
    refine List.map_congr_left fun i _ => ?_
    rw [Function.comp_apply, SubEntry.size, digits, List.length_map, List.length_range]
  rw [crowd, List.map_map, hsize, List.map_const', List.length_range, List.sum_replicate, Nat.nsmul_eq_mul,
    Nat.mul_comm]

theorem length_listedD (es : List SubEntry) :
    (listedD es).body.length = 14 + (es.map SubEntry.size).sum := by
  rw [listedD, FmAck.body, List.length_append, List.length_append, length_putInt, length_putInt,
    SubList.length_write, List.length_cons, List.length_singleton]
  dsimp only
  omega

/-- **Asked to list a folder with a million folders, the server sends a frame its client refuses.** -/
theorem crowd_not_replyFits : (crowd 20).Nodup ∧
    exec (FileManServer.echo (Os.ofEntries (crowd 20)) [47, 100] (.list listD)) ()
      = some (listedD (crowd 20), ()) ∧
    ¬ ReplyFits .rsa keyed (fun _ => 0) (listedD (crowd 20)) := by
  refine ⟨crowd_nodup 20, exec_listD _, ?_⟩
  have hunit : FILE_MAN_MEM_POOL_UNIT_SIZE = 20971520 := by decide
  have hsum := sum_size_crowd 20
  rw [replyFits_iff_length rfl, length_listedD]
  generalize (List.map SubEntry.size (crowd 20)).sum = sum at hsum ⊢
  generalize FILE_MAN_MEM_POOL_UNIT_SIZE = U at hunit ⊢
  norm_num at hsum
  omega

end EuhatExpert
