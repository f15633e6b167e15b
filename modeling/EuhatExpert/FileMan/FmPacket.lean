import EuhatExpert.Common.ReadBack
import EuhatExpert.FileMan.FileManClient
import EuhatExpert.FileMan.SubListBytes

/-!
# FileMan/FmPacket — the packets of the commands

Each command has a request, which its `req` writes and its `echo` reads, and an answer, which `echo` writes
and `ack` reads.  A result says whether a segment follows it, so what stands behind a result is read only
where there is something (`FileRead.Whole`).
-/

namespace EuhatExpert

open Machinery JyDataReadStream JyDataWriteStream

/-- `putStr`. -/
def JyDataWriteStream.putStr (str : Bytes) : WriteM Unit := putBuf 2 (str ++ [0])

/-! ## Requests -/

/-- What `fmReadFile` puts: behind a result that is none of a segment, nothing. -/
def FileRead.write (file : FileRead) : WriteM Unit :=
  match file.segment with
  | none => put 4 file.result
  | some (pos, buf) => do
    put 4 file.result
    put 8 pos
    putBuf 4 buf

def FmcDownFile.write (r : DownReq) : WriteM Unit := do
  put 4 r.id
  JyDataWriteStream.putStr r.path
  put 8 r.filePos
  put 4 r.reqLen

/-- The first request for an upload stops behind the negative offset. -/
def FmcUpFile.write (id : ℤ) (t : FmTaskDownload) (file : Option FileRead) : WriteM Unit := do
  put 4 id
  JyDataWriteStream.putStr t.peerPath_
  put 8 t.lastWriteTime_
  put 8 t.totalFileSize_
  put 8 t.offset_
  match file with
  | none => pure ()
  | some file => file.write

def FmcPeerFileList.write (r : ListReq) : WriteM Unit := do
  put 4 r.id
  JyDataWriteStream.putStr r.path

/-- `FmcDelFile::req` and `FmcNewFile::req`. -/
def NodeReq.write (r : NodeReq) : WriteM Unit := do
  put 4 r.id
  JyDataWriteStream.putStr r.path
  put 4 r.isFolder

/-- A request before it is written. -/
inductive FmcPacket
  | down (r : DownReq)
  | up (id : ℤ) (t : FmTaskDownload) (file : Option FileRead)
  | list (r : ListReq)
  | del (r : NodeReq)
  | new (r : NodeReq)

namespace FmcPacket

def write : FmcPacket → WriteM Unit
  | down r => FmcDownFile.write r
  | up id t file => FmcUpFile.write id t file
  | list r => FmcPeerFileList.write r
  | del r | new r => r.write

/-- The handler it is for. -/
def handler : FmcPacket → FmsTask
  | down _ => .downFileOp_
  | up .. => .upFileOp_
  | list _ => .peerFileListOp_
  | del _ => .delFileOp_
  | new _ => .newFileOp_

/-- The request as it is to be found. -/
def req : FmcPacket → FmReq
  | down r => .down r
  | up id t file => .up ⟨id, t.peerPath_, t.lastWriteTime_, t.totalFileSize_, t.offset_,
      match file with
      | none => .nothing
      | some file => file.found⟩
  | list r => .list r
  | del r => .del r
  | new r => .new r

end FmcPacket

/-- The packet of a task's `req`, and the task as it is left. -/
def FileManClient.packet {L : Type} (os : Os L) (task : FmTask) : FsM L (FmTask × Option FmcPacket) :=
  match task.body with
  | .download t => do
    let (task, r) ← FmcDownFile.req os task t
    pure (task, r.map .down)
  | .upload t =>
    if t.offset_ < 0 then pure (task, some (.up task.id_ t none))
    else do
      let file ← fmReadFile os t.localPath_ t.offset_ FILE_MAN_SEND_FILE_SEGMENT_MAX_LEN
      pure (task, some (.up task.id_ t (some file)))
  | .getSubList true t => pure (task, some (.list (FmcPeerFileList.req task.id_ t)))
  | .del true t => pure (task, some (.del (FmcDelFile.req task.id_ t)))
  | .new true t => pure (task, some (.new (FmcNewFile.req task.id_ t)))
  | _ => pure (task, none)

/-- **The client's requests are those of its packets.** -/
theorem FileManClient.req_eq_packet {L : Type} (os : Os L) (task : FmTask) :
    FileManClient.req os task = packet os task >>= fun x => pure (x.1, x.2.map FmcPacket.req) := by
  obtain ⟨id, result, body⟩ := task
  cases body with
  | connect => rfl
  | download t =>
    rw [FileManClient.req, packet]
    simp only [bind_assoc, pure_bind, Option.map_map]
    rfl
  | upload t =>
    dsimp only [FileManClient.req, packet, FmcUpFile.req]
    split_ifs
    · rfl
    · simp only [bind_assoc, pure_bind]
      rfl
  | copy isPeer t => rfl
  | getSubList isPeer t =>
    cases isPeer with
    | true => rfl
    | false => rfl
  | del isPeer t =>
    cases isPeer with
    | true => rfl
    | false => rfl
  | new isPeer t =>
    cases isPeer with
    | true => rfl
    | false => rfl

/-! ## Answers -/

def FmsDownFile.write (a : DownAck) : WriteM Unit := do
  put 4 a.id
  JyDataWriteStream.putStr a.path
  a.file.write

def FmsUpFile.write (a : UpAck) : WriteM Unit := do
  put 4 a.id
  JyDataWriteStream.putStr a.path
  put 8 a.filePos
  put 4 a.retResult

/-- Placeholders, and a listing behind them. -/
def FmsPeerFileList.writeBlank (subFiles : Bytes) : WriteM Unit := do
  put 4 0
  put 4 0
  putBufWithoutLen subFiles

/-- The result and the length of the listing are written over the placeholders. -/
def FmsPeerFileList.writeFiles (a : ListAck) : WriteM Unit := do
  let idx ← getIdx
  FmsPeerFileList.writeBlank a.subFiles
  putAt 4 (if a.isOk then 1 else 0) idx
  let idxEnd ← getIdx
  putAt 4 (idxEnd - (idx + 4) - 4) (idx + 4)

def FmsPeerFileList.write (a : ListAck) : WriteM Unit := do
  put 4 a.id
  JyDataWriteStream.putStr a.path
  FmsPeerFileList.writeFiles a

/-- The end of `FmsDelFile::echo` and `FmsNewFile::echo`. -/
def NodeAck.write (a : NodeAck) : WriteM Unit := do
  put 4 a.id
  JyDataWriteStream.putStr a.path
  put 4 a.isFolder
  put 4 (if a.retResult then 1 else 0)

def FmAck.write : FmAck → WriteM Unit
  | .down a => FmsDownFile.write a
  | .up a => FmsUpFile.write a
  | .list a => FmsPeerFileList.write a
  | .del a | .new a => a.write

def FmAck.handler : FmAck → FmsTask
  | .down _ => .downFileOp_
  | .up _ => .upFileOp_
  | .list _ => .peerFileListOp_
  | .del _ => .delFileOp_
  | .new _ => .newFileOp_

/-- An answer as an `ack` finds it: what it need not look at may not be there. -/
inductive FmAckFound
  | down (id : ℤ) (path : Bytes) (file : FileFound)
  | up (a : UpAck)
  | list (id : ℤ) (path : Bytes) (isOk : Bool) (len : ℤ) (subFiles : Except Fault Bytes)
  | del (a : NodeAck)
  | new (a : NodeAck)

def FmAck.found : FmAck → FmAckFound
  | .down a => .down a.id a.path a.file.found
  | .up a => .up a
  | .list a => .list a.id a.path a.isOk a.subFiles.length (.ok a.subFiles)
  | .del a => .del a
  | .new a => .new a

def FmcDownFile.readAck : ReadM FmAckFound := do
  let id ← get 4
  let path ← getStr
  fun ds => .ok (.down id path (readFile ds), ds)

def FmcUpFile.readAck : ReadM UpAck := do
  let id ← get 4
  let path ← getStr
  let filePos ← get 8
  let retResult ← get 4
  pure ⟨id, path, filePos, retResult⟩

def FmcPeerFileList.readAck : ReadM FmAckFound := do
  let id ← get 4
  let path ← getStr
  let isOk ← get 4
  let len ← get 4
  fun ds => .ok (.list id path (isOk ≠ 0) len (ds.bytesAt len), ds)

/-- `FmcDelFile::ack` and `FmcNewFile::ack`. -/
def NodeAck.read : ReadM NodeAck := do
  let id ← get 4
  let path ← getStr
  let isFolder ← get 4
  let result ← get 4
  pure ⟨id, path, isFolder, result ≠ 0⟩

/-- What the `ack` of a command reads. -/
def FmsTask.readAck : FmsTask → ReadM FmAckFound
  | .downFileOp_ => FmcDownFile.readAck
  | .upFileOp_ => return .up (← FmcUpFile.readAck)
  | .peerFileListOp_ => FmcPeerFileList.readAck
  | .delFileOp_ => return .del (← NodeAck.read)
  | .newFileOp_ => return .new (← NodeAck.read)

end EuhatExpert
