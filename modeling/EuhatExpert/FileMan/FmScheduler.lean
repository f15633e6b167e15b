import EuhatExpert.FileMan.FileManType
import EuhatExpert.Machinery.Bytes
import EuhatExpert.Machinery.StableInsert
import Mathlib.Data.List.Infix

/-!
# FileMan/FmScheduler — tasks, and the queue of them

The engines share one queue.  A task that failed at its front stops both.  `add` walks from the far end,
so that a task stands behind those of its own priority (`Machinery.insertStable`); the refresh task waits
aside, with the id it drew, until the queue is empty.
-/

namespace EuhatExpert

open Machinery

/-! ## `FmTask` -/

/-- What is done with a listing. -/
inductive SubsequentAction
  | ActionInformUi
  | ActionDownUp
  | ActionCopy
  | ActionDel
  deriving DecidableEq, Repr

/-- A task to list a folder; `peerPath_` is the folder that its entries go to. -/
structure FmTaskGetSubList where
  path_ : Bytes
  action_ : SubsequentAction
  peerPath_ : Bytes
  isMove_ : Bool

/-- A task to copy a file from one side to the other; `FmTaskUpload` has the same fields. -/
structure FmTaskDownload where
  localPath_ : Bytes
  peerPath_ : Bytes
  offset_ : ℤ
  totalFileSize_ : ℤ
  lastWriteTime_ : ℤ
  isMove_ : Bool

/-- A task to copy a file within one side. -/
structure FmTaskCopy where
  fromPath_ : Bytes
  toPath_ : Bytes
  offset_ : ℤ
  totalFileSize_ : ℤ

/-- A task to delete a file or a folder; the one that makes it gives its priority. -/
structure FmTaskDel where
  path_ : Bytes
  isFolder_ : ℤ
  priority_ : ℤ

/-- A task to create a file or a folder. -/
structure FmTaskNew where
  path_ : Bytes
  isFolder_ : ℤ
  needInformUi_ : Bool

/-- What a task is about.  `isPeer` tells `TypeDelPeer` from `TypeDel`, and so on. -/
inductive FmTask.Body
  | connect
  | getSubList (isPeer : Bool) (t : FmTaskGetSubList)
  | download (t : FmTaskDownload)
  | upload (t : FmTaskDownload)
  | copy (isPeer : Bool) (t : FmTaskCopy)
  | del (isPeer : Bool) (t : FmTaskDel)
  | new (isPeer : Bool) (t : FmTaskNew)

/-- `getPriority`: less is earlier. -/
def FmTask.Body.getPriority : FmTask.Body → ℤ
  | connect => 1
  | getSubList _ t => if t.action_ = .ActionInformUi then 10 else 70
  | download t | upload t => if t.totalFileSize_ > FILE_MAN_RECV_FILE_SEGMENT_MAX_LEN then 60 else 20
  | copy _ _ => 60
  | del _ t => t.priority_
  | new _ _ => 10

/-- A task in the queue, with the result of its last answer. -/
structure FmTask where
  id_ : ℤ
  result_ : ℤ
  body : FmTask.Body

namespace FmTask

/-- A task has the priority of what it is about. -/
def getPriority (t : FmTask) : ℤ := t.body.getPriority

/-- The task that makes the connection. -/
def isConnect (t : FmTask) : Bool :=
  match t.body with
  | .connect => true
  | _ => false

/-- The types `getFirst` keeps for the local engine. -/
def isLocal (t : FmTask) : Bool :=
  match t.body with
  | .copy false _ | .getSubList false _ | .del false _ | .new false _ => true
  | _ => false

/-- `dynamic_pointer_cast<FmTaskDownload>`; an upload is one, too. -/
def asDownload (t : FmTask) : Option FmTaskDownload :=
  match t.body with
  | .download d | .upload d => some d
  | _ => none

/-- `dynamic_pointer_cast<FmTaskUpload>`. -/
def asUpload (t : FmTask) : Option FmTaskDownload :=
  match t.body with
  | .upload d => some d
  | _ => none

/-- `dynamic_pointer_cast<FmTaskGetSubList>`, of either side. -/
def asGetSubList (t : FmTask) : Option FmTaskGetSubList :=
  match t.body with
  | .getSubList _ l => some l
  | _ => none

/-- `dynamic_pointer_cast<FmTaskDel>`. -/
def asDel (t : FmTask) : Option FmTaskDel :=
  match t.body with
  | .del _ d => some d
  | _ => none

/-- `dynamic_pointer_cast<FmTaskNew>`. -/
def asNew (t : FmTask) : Option FmTaskNew :=
  match t.body with
  | .new _ d => some d
  | _ => none

/-- Write through a pointer to the `FmTaskDownload` in a task. -/
def setDownload (t : FmTask) (d : FmTaskDownload) : FmTask :=
  match t.body with
  | .download _ => { t with body := .download d }
  | .upload _ => { t with body := .upload d }
  | _ => t

@[simp] theorem id_setDownload (t : FmTask) (d : FmTaskDownload) : (t.setDownload d).id_ = t.id_ := by
  rw [setDownload]
  split
  all_goals rfl

@[simp] theorem isConnect_setDownload (t : FmTask) (d : FmTaskDownload) :
    (t.setDownload d).isConnect = t.isConnect := by
  obtain ⟨id, result, body⟩ := t
  cases body
  all_goals rfl

@[simp] theorem isLocal_setDownload (t : FmTask) (d : FmTaskDownload) : (t.setDownload d).isLocal = t.isLocal := by
  obtain ⟨id, result, body⟩ := t
  cases body
  all_goals rfl

end FmTask

/-! ## The queue -/

/-- A queue of tasks and the refresh task aside, each with an id of its own below `idxBase_`. -/
structure FmScheduler where
  tasks_ : List FmTask
  refreshSubListTask_ : Option FmTask
  idxBase_ : ℤ
  nodup : ((tasks_ ++ refreshSubListTask_.toList).map FmTask.id_).Nodup
  drawn : ∀ t ∈ tasks_ ++ refreshSubListTask_.toList, t.id_ < idxBase_

namespace FmScheduler

@[ext] theorem ext {s s' : FmScheduler} (h : s.tasks_ = s'.tasks_)
    (hr : s.refreshSubListTask_ = s'.refreshSubListTask_) (hi : s.idxBase_ = s'.idxBase_) : s = s' := by
  cases s
  cases s'
  cases h
  cases hr
  cases hi
  rfl

/-- The constructor. -/
def new : FmScheduler := ⟨[], none, 0, List.nodup_nil, fun _ h => nomatch h⟩

/-- No two tasks have one id. -/
theorem nodup_tasks (s : FmScheduler) : (s.tasks_.map FmTask.id_).Nodup :=
  s.nodup.sublist ((List.sublist_append_left _ _).map _)

/-- Every id is below the next one. -/
theorem id_lt (s : FmScheduler) {t : FmTask} (h : t ∈ s.tasks_) : t.id_ < s.idxBase_ :=
  s.drawn t (List.mem_append_left _ h)

/-- Some of the tasks of a queue. -/
def keep (s : FmScheduler) (tasks : List FmTask) (h : tasks.Sublist s.tasks_) : FmScheduler where
  tasks_ := tasks
  refreshSubListTask_ := s.refreshSubListTask_
  idxBase_ := s.idxBase_
  nodup := s.nodup.sublist ((h.append_right _).map _)
  drawn := fun t ht => s.drawn t ((h.append_right _).subset ht)

/-- `get`: the task of an id, if it is still there. -/
def get (s : FmScheduler) (id : ℤ) : Option FmTask := s.tasks_.find? fun t => t.id_ = id

/-- The task of an id, when it is of the class `cast` tells. -/
def getAs {α : Type} (s : FmScheduler) (cast : FmTask → Option α) (id : ℤ) : Option (FmTask × α) := do
  let task ← s.get id
  let t ← cast task
  pure (task, t)

/-- `getByType(FmTask::TypeConnect)`. -/
def getConnect (s : FmScheduler) : Option FmTask := s.tasks_.find? FmTask.isConnect

/-- `remove`: without the task of an id. -/
def remove (s : FmScheduler) (id : ℤ) : FmScheduler :=
  s.keep (s.tasks_.eraseP fun t => t.id_ = id) List.eraseP_sublist

/-- Take the first task that failed, connecting apart, out of the queue. -/
def cleanError (s : FmScheduler) : FmScheduler :=
  s.keep (s.tasks_.eraseP fun t => t.result_ ≠ FmResultOk ∧ t.isConnect = false) List.eraseP_sublist

/-- `cleanAll`: without any task. -/
def cleanAll (s : FmScheduler) : FmScheduler := s.keep [] (List.nil_sublist _)

/-- The first task of an engine, unless the task at the front failed. -/
def getFirst (s : FmScheduler) (isRemoteTask : Bool) : Option FmTask :=
  match s.tasks_ with
  | [] => none
  | t :: _ => if t.result_ ≠ FmResultOk then none else s.tasks_.find? fun t => t.isLocal != isRemoteTask

/-- The task `add` and `addRefreshTask` make of what they are given. -/
def draw (s : FmScheduler) (body : FmTask.Body) : FmTask := ⟨s.idxBase_, FmResultOk, body⟩

/-- `add`: from the far end, behind the first task whose priority is not larger. -/
def add (s : FmScheduler) (body : FmTask.Body) : FmScheduler where
  tasks_ := insertStable FmTask.getPriority (s.draw body) s.tasks_
  refreshSubListTask_ := s.refreshSubListTask_
  idxBase_ := s.idxBase_ + 1
  nodup := by
    refine (((insertStable_perm _ _).append_right _).map _).nodup_iff.mpr
      (List.nodup_cons.mpr ⟨fun h => ?_, s.nodup⟩)
    obtain ⟨t, ht, hid⟩ := List.mem_map.mp h
    exact (s.drawn t ht).ne hid
  drawn := fun t ht => by
    rw [((insertStable_perm _ _).append_right _).mem_iff, List.cons_append, List.mem_cons] at ht
    obtain rfl | ht := ht
    · exact lt_add_one _
    · exact (s.drawn t ht).trans (lt_add_one _)

/-- `addRefreshTask`: the listing that is asked for when all tasks are done. -/
def addRefreshTask (s : FmScheduler) (isPeer : Bool) (t : FmTaskGetSubList) : FmScheduler where
  tasks_ := s.tasks_
  refreshSubListTask_ := some (s.draw (.getSubList isPeer t))
  idxBase_ := s.idxBase_ + 1
  nodup := by
    rw [Option.toList_some, List.map_append, List.map_singleton]
    refine List.nodup_append.mpr ⟨s.nodup_tasks, List.nodup_singleton _, fun a ha b hb => ?_⟩
    obtain ⟨u, hu, rfl⟩ := List.mem_map.mp ha
    exact List.mem_singleton.mp hb ▸ (s.id_lt hu).ne
  drawn := fun u hu => by
    rw [Option.toList_some, List.mem_append, List.mem_singleton] at hu
    obtain hu | rfl := hu
    · exact (s.id_lt hu).trans (lt_add_one _)
    · exact lt_add_one _

/-- The queue after `FileManSubDlg::fmscOnRefresh`: the refresh task is next once there is no other. -/
def fmscOnRefresh (s : FmScheduler) : FmScheduler :=
  if h : s.tasks_ = [] then
    { tasks_ := s.refreshSubListTask_.toList
      refreshSubListTask_ := none
      idxBase_ := s.idxBase_
      nodup := by
        have hnodup := s.nodup
        rw [h, List.nil_append] at hnodup
        rwa [Option.toList_none, List.append_nil]
      drawn := fun t ht => s.drawn t (by
        rw [Option.toList_none, List.append_nil] at ht
        rwa [h]) }
  else s

/-- A task that is written back has the id it had. -/
theorem map_id_write (tasks : List FmTask) (t : FmTask) :
    (tasks.map fun u => if u.id_ = t.id_ then t else u).map FmTask.id_ = tasks.map FmTask.id_ := by
  rw [List.map_map]
  refine List.map_congr_left fun u _ => ?_
  rw [Function.comp_apply]
  split_ifs with h
  · exact h.symm
  · rfl

/-- Write through a pointer to a task in the queue. -/
def write (s : FmScheduler) (t : FmTask) : FmScheduler where
  tasks_ := s.tasks_.map fun u => if u.id_ = t.id_ then t else u
  refreshSubListTask_ := s.refreshSubListTask_
  idxBase_ := s.idxBase_
  nodup := by
    have hnodup := s.nodup
    rwa [List.map_append, ← map_id_write s.tasks_ t, ← List.map_append] at hnodup
  drawn := fun u hu => by
    have hid : u.id_ ∈ (s.tasks_ ++ s.refreshSubListTask_.toList).map FmTask.id_ := by
      rw [List.map_append, ← map_id_write s.tasks_ t, ← List.map_append]
      exact List.mem_map_of_mem hu
    obtain ⟨v, hv, hvu⟩ := List.mem_map.mp hid
    exact hvu ▸ s.drawn v hv

@[simp] theorem tasks_new : new.tasks_ = [] := rfl

@[simp] theorem tasks_keep (s : FmScheduler) {tasks : List FmTask} (h : tasks.Sublist s.tasks_) :
    (s.keep tasks h).tasks_ = tasks := rfl

@[simp] theorem tasks_remove (s : FmScheduler) (id : ℤ) :
    (s.remove id).tasks_ = s.tasks_.eraseP fun t => t.id_ = id := rfl

@[simp] theorem tasks_add (s : FmScheduler) (body : FmTask.Body) :
    (s.add body).tasks_ = insertStable FmTask.getPriority (s.draw body) s.tasks_ := rfl

@[simp] theorem tasks_write (s : FmScheduler) (t : FmTask) :
    (s.write t).tasks_ = s.tasks_.map fun u => if u.id_ = t.id_ then t else u := rfl

/-! ## The task at the front -/

variable {s : FmScheduler} {t : FmTask} {rest : List FmTask}

/-- The front task is found by its id, -/
theorem get_front (h : s.tasks_ = t :: rest) : s.get t.id_ = some t := by
  rw [get, h]
  exact List.find?_cons_of_pos (decide_eq_true rfl)

/-- and as what it is; -/
theorem getAs_front {α : Type} {cast : FmTask → Option α} {a : α} (h : s.tasks_ = t :: rest)
    (ht : cast t = some a) : s.getAs cast t.id_ = some (t, a) := by
  rw [getAs, get_front h, Option.bind_eq_bind, Option.bind_some, ht]
  rfl

/-- removed, it leaves the rest, -/
theorem remove_front (h : s.tasks_ = t :: rest) : (s.remove t.id_).tasks_ = rest := by
  dsimp only [remove, keep]
  rw [h]
  exact List.eraseP_cons_of_pos (decide_eq_true rfl)

/-- and written back, it is the front again. -/
theorem write_front {u : FmTask} (h : s.tasks_ = t :: rest) (hu : u.id_ = t.id_) :
    (s.write u).tasks_ = u :: rest := by
  have hne : ∀ v ∈ rest, v.id_ ≠ t.id_ := by
    intro v hv hvt
    have hnodup := s.nodup_tasks
    rw [h, List.map_cons, List.nodup_cons] at hnodup
    exact hnodup.1 (hvt ▸ List.mem_map_of_mem hv)
  dsimp only [write]
  rw [h, List.map_cons, if_pos hu.symm]
  refine congrArg (u :: ·) ((List.map_congr_left fun v hv => ?_).trans (List.map_id' rest))
  rw [hu, if_neg (hne v hv)]

/-- Writing the task at the front as it is writes nothing. -/
theorem write_self (h : s.tasks_ = t :: rest) : s.write t = s :=
  ext ((write_front h rfl).trans h.symm) rfl rfl

/-- `getFirst` gives the remote engine a front task that has not failed. -/
theorem getFirst_front (h : s.tasks_ = t :: rest) (hok : t.result_ = FmResultOk) (ht : t.isLocal = false) :
    s.getFirst true = some t := by
  rw [getFirst, h]
  dsimp only
  rw [if_neg (not_not_intro hok)]
  exact List.find?_cons_of_pos (by rw [ht]; rfl)

/-- **A failed task at the front stops both engines.** -/
theorem getFirst_failed (h : s.tasks_ = t :: rest) (ht : t.result_ ≠ FmResultOk) (isRemoteTask : Bool) :
    s.getFirst isRemoteTask = none := by
  rw [getFirst, h]
  exact if_pos ht

/-- Of an empty queue it gives nothing. -/
theorem getFirst_nil (h : s.tasks_ = []) (isRemoteTask : Bool) : s.getFirst isRemoteTask = none := by
  rw [getFirst, h]

end FmScheduler

end EuhatExpert
