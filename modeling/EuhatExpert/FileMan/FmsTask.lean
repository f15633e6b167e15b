import EuhatExpert.FileMan.FileManFileOp

/-!
# FileMan/FmsTask — the handlers of the server's commands

Each handler corrects the path of its request, acts, and answers.  Three of them look first whether the
path starts with `baseDir_`; `FmsDelFile` and `FmsNewFile` do not.
-/

namespace EuhatExpert

open Machinery

/-! ## Requests and answers -/

/-- A request for a segment of a file. -/
structure DownReq where
  id : ℤ
  path : Bytes
  filePos : ℤ
  reqLen : ℤ

/-- A request with a segment of a file, as far as it is to be found. -/
structure UpReq where
  id : ℤ
  path : Bytes
  lastWriteTime : ℤ
  totalFileSize : ℤ
  filePos : ℤ
  file : FileFound

/-- A request for the entries of a folder. -/
structure ListReq where
  id : ℤ
  path : Bytes

/-- A request to delete or create a file or a folder. -/
structure NodeReq where
  id : ℤ
  path : Bytes
  isFolder : ℤ

/-- The segment, as it was read. -/
structure DownAck where
  id : ℤ
  path : Bytes
  file : FileRead

/-- Where the file ends now, and how it went. -/
structure UpAck where
  id : ℤ
  path : Bytes
  filePos : ℤ
  retResult : ℤ

/-- The entries, as `whGetSubFiles` writes them. -/
structure ListAck where
  id : ℤ
  path : Bytes
  isOk : Bool
  subFiles : Bytes

/-- Whether it was deleted or created. -/
structure NodeAck where
  id : ℤ
  path : Bytes
  isFolder : ℤ
  retResult : Bool

variable {W : Type} (os : Os W) (baseDir_ : Bytes)

/-- The path a request to delete or create is carried out on. -/
def NodeReq.target (r : NodeReq) : Bytes := whCorrectFilePath os.isUnix_ r.path

/-! ## Handlers -/

/-- `FmsDownFile::echo`: the segment is read from the path as the server corrects it. -/
def FmsDownFile.echo (r : DownReq) : FsM W DownAck := do
  let path := whCorrectFilePath os.isUnix_ r.path
  let reqLen :=
    if r.reqLen > FILE_MAN_RECV_FILE_SEGMENT_MAX_LEN then FILE_MAN_RECV_FILE_SEGMENT_MAX_LEN
    else r.reqLen
  if strIsStartWith path baseDir_ then
    let file ← fmReadFile os path r.filePos reqLen
    pure ⟨r.id, path, file⟩
  else pure ⟨r.id, path, ⟨FmResultFileNotExist, none⟩⟩

/-- What `FmsUpFile::echo` does on an allowed path: the new position and the result. -/
def FmsUpFile.store (r : UpReq) (path : Bytes) : FsM W (ℤ × ℤ) := do
  if r.filePos < 0 then
    let freeSpaceInMB ← os.getDiskUsage path
    if freeSpaceInMB - r.totalFileSize.tdiv (1024 * 1024) < 100 then
      pure (r.filePos, FmResultNoSpace)
    else
      os.prepareFolder path
      let _ ← os.unlink path
      pure (0, FmResultOk)
  else storeFile os r.file path r.filePos

/-- `FmsUpFile::echo`: the first request makes room for the file, every other one stores its segment. -/
def FmsUpFile.echo (r : UpReq) : FsM W UpAck := do
  let path := whCorrectFilePath os.isUnix_ r.path
  if strIsStartWith path baseDir_ then
    let (filePos, retResult) ← FmsUpFile.store os r path
    if retResult = FmResultFileReachEnd then
      os.setFileLastWriteTime path r.lastWriteTime
      pure ⟨r.id, path, filePos, retResult⟩
    else pure ⟨r.id, path, filePos, retResult⟩
  else pure ⟨r.id, path, r.filePos, FmResultNoSpace⟩

/-- `FmsPeerFileList::echo`. -/
def FmsPeerFileList.echo (r : ListReq) : FsM W ListAck := do
  let path := whCorrectFilePath os.isUnix_ r.path
  if strIsStartWith path baseDir_ then
    let subFiles ← os.getSubFiles path
    pure ⟨r.id, path, subFiles.isSome, subFiles.getD []⟩
  else pure ⟨r.id, path, false, []⟩

/-- What `FmsDelFile::echo` does. -/
def FmsDelFile.remove (r : NodeReq) (path : Bytes) : FsM W Bool :=
  if r.isFolder ≠ 0 then os.rmDir path else os.unlink path

/-- `FmsDelFile::echo`, on any path. -/
def FmsDelFile.echo (r : NodeReq) : FsM W NodeAck := do
  let path := whCorrectFilePath os.isUnix_ r.path
  let retResult ← FmsDelFile.remove os r path
  pure ⟨r.id, path, r.isFolder, retResult⟩

/-- What `FmsNewFile::echo` does. -/
def FmsNewFile.create (r : NodeReq) (path : Bytes) : FsM W Bool :=
  if r.isFolder ≠ 0 then do
    os.prepareFolder path
    os.mkDir path
  else os.openCreate path

/-- `FmsNewFile::echo`, on any path. -/
def FmsNewFile.echo (r : NodeReq) : FsM W NodeAck := do
  let path := whCorrectFilePath os.isUnix_ r.path
  let retResult ← FmsNewFile.create os r path
  pure ⟨r.id, path, r.isFolder, retResult⟩

end EuhatExpert
