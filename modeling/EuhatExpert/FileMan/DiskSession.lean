import EuhatExpert.FileMan.DiskFileOp
import EuhatExpert.FileMan.Session

/-!
# FileMan/DiskSession — sessions between two disks

The client sends the request of the task at the front of its queue, or nothing (`send_of_front`, `send_of_getFirst`).
-/

namespace EuhatExpert

open Machinery TraceM

/-- Two disks, with their systems. -/
structure Disks where
  localUnix : Bool
  localFree : Bytes → ℤ
  remoteUnix : Bool
  remoteFree : Bytes → ℤ
  baseDir_ : Bytes
  dispatchSubList : FmTask → Bytes → FmScheduler → FmScheduler

/-- A session between the two, with others about. -/
def Disks.setting (D : Disks) (onLocal onRemote : Drift Disk) : Setting Disk Disk where
  local_ := Disk.os D.localUnix D.localFree
  remote := Disk.os D.remoteUnix D.remoteFree
  baseDir_ := D.baseDir_
  dispatchSubList := D.dispatchSubList
  onLocal := onLocal
  onRemote := onRemote

/-- Two disks with room; the shared directory is `/a`. -/
def roomyDisks : Disks := ⟨true, fun _ => 1000, true, fun _ => 1000, [slash, 97], fun _ _ s => s⟩

/-- The length of a segment, in either direction. -/
def segmentLen : ℕ := 20866662

/-- A queue of one task. -/
def FmScheduler.single (task : FmTask) : FmScheduler where
  tasks_ := [task]
  refreshSubListTask_ := none
  idxBase_ := task.id_ + 1
  nodup := List.nodup_singleton _
  drawn := fun _ ht => List.mem_singleton.mp ht ▸ lt_add_one _

namespace FileManClient

variable {L : Type} {os : Os L} {s : FmScheduler} {task task' : FmTask} {rest : List FmTask} {l l' : L}
  {r : Option FmReq}

theorem exec_reqFirst_of_none (h : s.getFirst true = none) (l : L) :
    exec (reqFirst os s) l = some ((s, none), l) := by
  rw [reqFirst, h]
  rfl

/-- The request of the task at the front, and the task put back as it is left. -/
theorem exec_reqFirst (h : s.tasks_ = task :: rest) (hok : task.result_ = FmResultOk)
    (hremote : task.isLocal = false) (hreq : Yields (req os task) l (task', r) l') :
    exec (reqFirst os s) l = some ((s.write task', r), l') := by
  rw [reqFirst, FmScheduler.getFirst_front h hok hremote]
  refine Yields.exec_eq (Yields.bind hreq ?_)
  exact yields_pure _ _

end FileManClient

namespace Session

variable {L W : Type} {S : Setting L W} {s : FmScheduler} {task task' : FmTask} {rest : List FmTask} {l l' : L}
  {r : Option FmReq}

/-- Without a first task nothing is sent. -/
theorem send_of_getFirst (h : s.getFirst true = none) (l : L) :
    (exchange S).send (s, l) = some ((s, l), none) := by
  rw [exchange]
  dsimp only
  rw [FileManClient.exec_reqFirst_of_none h]
  rfl

/-- The task at the front sends its request, and is put back as it is left. -/
theorem send_of_front (h : s.tasks_ = task :: rest) (hok : task.result_ = FmResultOk)
    (hremote : task.isLocal = false) (hreq : Yields (FileManClient.req S.local_ task) l (task', r) l') :
    (exchange S).send (s, l) = some ((s.write task', l'), r) := by
  rw [exchange]
  dsimp only
  rw [FileManClient.exec_reqFirst h hok hremote hreq]
  rfl

end Session

end EuhatExpert
