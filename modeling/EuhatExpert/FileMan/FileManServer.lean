import EuhatExpert.FileMan.FmsTask

/-!
# FileMan/FileManServer — from a packet to a handler

`onRead` picks the handler by the type of the packet, and the handler reads its fields from the stream.
Where a stream ends early the read leaves its memory; what stands behind the fields every request has is
read only by the handlers that get that far.
-/

namespace EuhatExpert

open Machinery

namespace JyDataReadStream

/-- `getStr`: a pointer to the bytes behind a length, read as a C string whatever that length is. -/
def getStr : ReadM Bytes := do
  let len ← get 2
  fun ds =>
    if 0 ≤ ds.idx_ ∧ (0 : UInt8) ∈ ds.mem.drop ds.idx_.toNat then
      .ok ((ds.mem.drop ds.idx_.toNat).takeWhile (· ≠ 0), { ds with idx_ := ds.idx_ + len })
    else .error .outside

/-- The bytes `len` from `idx_` on, as `fwrite` reads them: a negative length is a large `size_t`. -/
def bytesAt (ds : JyDataReadStream) (len : ℤ) : Except Fault Bytes :=
  if 0 ≤ len then ((take len.toNat).run ds).map Prod.fst else .error .outside

end JyDataReadStream

open JyDataReadStream

/-- The position and the bytes `fmWriteFile` reads. -/
def readSegment : ReadM Segment := do
  let pos ← get 8
  let len ← get 4
  fun ds => .ok (⟨pos, len, ds.bytesAt len⟩, ds)

/-- A result and what stands behind it. -/
def readFile (ds : JyDataReadStream) : FileFound :=
  match (get 4).run ds with
  | .error f => ⟨.error f, .error f⟩
  | .ok (result, ds) => ⟨.ok result, (readSegment.run ds).map Prod.fst⟩

def readDownReq : ReadM DownReq := do
  let id ← get 4
  let path ← getStr
  let filePos ← get 8
  let reqLen ← get 4
  pure ⟨id, path, filePos, reqLen⟩

def readUpReq : ReadM UpReq := do
  let id ← get 4
  let path ← getStr
  let lastWriteTime ← get 8
  let totalFileSize ← get 8
  let filePos ← get 8
  fun ds => .ok (⟨id, path, lastWriteTime, totalFileSize, filePos, readFile ds⟩, ds)

def readListReq : ReadM ListReq := do
  let id ← get 4
  let path ← getStr
  pure ⟨id, path⟩

def readNodeReq : ReadM NodeReq := do
  let id ← get 4
  let path ← getStr
  let isFolder ← get 4
  pure ⟨id, path, isFolder⟩

/-- A request, as it is read from a packet. -/
inductive FmReq
  | down (r : DownReq)
  | up (r : UpReq)
  | list (r : ListReq)
  | del (r : NodeReq)
  | new (r : NodeReq)

/-- An answer, before it is written to a packet. -/
inductive FmAck
  | down (a : DownAck)
  | up (a : UpAck)
  | list (a : ListAck)
  | del (a : NodeAck)
  | new (a : NodeAck)

/-- The id of the task an answer is to. -/
def FmAck.id : FmAck → ℤ
  | .down a => a.id
  | .up a => a.id
  | .list a => a.id
  | .del a | .new a => a.id

/-- The request a handler reads. -/
def FmsTask.read : FmsTask → ReadM FmReq
  | .downFileOp_ => return .down (← readDownReq)
  | .upFileOp_ => return .up (← readUpReq)
  | .peerFileListOp_ => return .list (← readListReq)
  | .delFileOp_ => return .del (← readNodeReq)
  | .newFileOp_ => return .new (← readNodeReq)

namespace FileManServer

variable {W : Type} (os : Os W) (baseDir_ : Bytes)

/-- The `echo` of the handler a request is for. -/
def echo : FmReq → FsM W FmAck
  | .down r => return .down (← FmsDownFile.echo os baseDir_ r)
  | .up r => return .up (← FmsUpFile.echo os baseDir_ r)
  | .list r => return .list (← FmsPeerFileList.echo os baseDir_ r)
  | .del r => return .del (← FmsDelFile.echo os r)
  | .new r => return .new (← FmsNewFile.echo os r)

/-- `onRead`; a packet of another type is left alone. -/
def onRead (packetType : ℤ) (ds : JyDataReadStream) : FsM W (Option FmAck) :=
  match taskOf packetType with
  | none => pure none
  | some task => do
    let r ← TraceM.ofExcept ((task.read.run ds).map Prod.fst)
    let ack ← echo os baseDir_ r
    pure (some ack)

end FileManServer

end EuhatExpert
