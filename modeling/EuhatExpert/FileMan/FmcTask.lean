import EuhatExpert.FileMan.FmScheduler
import EuhatExpert.FileMan.FileManServer

/-!
# FileMan/FmcTask — the client's side of the commands

`req` makes a request of a task, `ack` takes its answer.  An answer to a task that is gone, or is of
another class, is left alone.
-/

namespace EuhatExpert

open Machinery

variable {L : Type} (os : Os L)

/-! ## Uploads -/

/-- `FmcUpFile::req`: a first request carries no segment. -/
def FmcUpFile.req (id : ℤ) (t : FmTaskDownload) : FsM L UpReq :=
  if t.offset_ < 0 then
    pure ⟨id, t.peerPath_, t.lastWriteTime_, t.totalFileSize_, t.offset_, .nothing⟩
  else do
    let file ← fmReadFile os t.localPath_ t.offset_ FILE_MAN_SEND_FILE_SEGMENT_MAX_LEN
    pure ⟨id, t.peerPath_, t.lastWriteTime_, t.totalFileSize_, t.offset_, file.found⟩

/-- `FmcUpFile::ack`: the offset is taken from the answer, and the task is over at the end of the file. -/
def FmcUpFile.ack (a : UpAck) (s : FmScheduler) : FmScheduler :=
  match s.getAs FmTask.asUpload a.id with
  | none => s
  | some (task, t) =>
    let task := task.setDownload { t with offset_ := a.filePos }
    if a.retResult = FmResultNoSpace then s.write { task with result_ := FmResultNoSpace }
    else if a.retResult = FmResultFileReachEnd then (s.write task).remove a.id
    else if a.retResult = FmResultOk then s.write task
    else s.write { task with result_ := FmResultFailed }

/-! ## Downloads -/

/-- `FmcDownFile::req`: a first request makes room for the file; without enough space none is sent. -/
def FmcDownFile.req (task : FmTask) (t : FmTaskDownload) : FsM L (FmTask × Option DownReq) :=
  if t.offset_ < 0 then do
    os.prepareFolder t.localPath_
    let _ ← os.unlink t.localPath_
    let freeSpaceInMB ← os.getDiskUsage t.localPath_
    if freeSpaceInMB - t.totalFileSize_.tdiv (1024 * 1024) < 100 then
      pure ({ task with result_ := FmResultNoSpace }, none)
    else
      pure (task.setDownload { t with offset_ := 0 },
        some ⟨task.id_, t.peerPath_, 0, FILE_MAN_RECV_FILE_SEGMENT_MAX_LEN⟩)
  else
    pure (task, some ⟨task.id_, t.peerPath_, t.offset_, FILE_MAN_RECV_FILE_SEGMENT_MAX_LEN⟩)

/-- `FmcDownFile::ack`: the segment is stored, and the task is over when it was the last. -/
def FmcDownFile.ack (a : DownAck) (s : FmScheduler) : FsM L FmScheduler :=
  match s.getAs FmTask.asDownload a.id with
  | none => pure s
  | some (task, t) => do
    let (offset, result) ← storeFile os a.file.found t.localPath_ t.offset_
    let task := task.setDownload { t with offset_ := offset }
    if result = FmResultFileReachEnd then
      os.setFileLastWriteTime t.localPath_ t.lastWriteTime_
      pure ((s.write task).remove a.id)
    else if result = FmResultOk then pure (s.write task)
    else pure (s.write { task with result_ := FmResultFailed })

/-! ## Listings, deletions, creations -/

/-- `FmcPeerFileList::req`. -/
def FmcPeerFileList.req (id : ℤ) (t : FmTaskGetSubList) : ListReq := ⟨id, t.path_⟩

/-- `FmcPeerFileList::ack`, with what `dispatchSubList` makes of a listing. -/
def FmcPeerFileList.ack (dispatchSubList : FmTask → Bytes → FmScheduler → FmScheduler) (a : ListAck)
    (s : FmScheduler) : FmScheduler :=
  match s.getAs FmTask.asGetSubList a.id with
  | none => s
  | some (task, _) =>
    if a.isOk then dispatchSubList task a.subFiles (s.remove a.id)
    else s.write { task with result_ := FmResultFailed }

/-- `FmcDelFile::req`. -/
def FmcDelFile.req (id : ℤ) (t : FmTaskDel) : NodeReq := ⟨id, t.path_, t.isFolder_⟩

/-- `FmcNewFile::req`. -/
def FmcNewFile.req (id : ℤ) (t : FmTaskNew) : NodeReq := ⟨id, t.path_, t.isFolder_⟩

/-- A task is done, or failed, as the answer says. -/
def FmScheduler.settle {α : Type} (cast : FmTask → Option α) (a : NodeAck) (s : FmScheduler) :
    FmScheduler :=
  match s.getAs cast a.id with
  | none => s
  | some (task, _) =>
    if a.retResult then s.remove a.id else s.write { task with result_ := FmResultFailed }

/-- `FmcDelFile::ack`. -/
def FmcDelFile.ack (a : NodeAck) (s : FmScheduler) : FmScheduler := FmScheduler.settle FmTask.asDel a s

/-- `FmcNewFile::ack`. -/
def FmcNewFile.ack (a : NodeAck) (s : FmScheduler) : FmScheduler := FmScheduler.settle FmTask.asNew a s

end EuhatExpert
