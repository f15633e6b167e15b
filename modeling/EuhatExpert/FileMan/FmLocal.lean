import EuhatExpert.FileMan.FmcTask

/-!
# FileMan/FmLocal — the local engine

The local engine does the first task of its own at once, on the local disk, and posts itself the next
`JY_MSG_TYPE_USER_LOOP`.  A copy it leaves where it is.
-/

namespace EuhatExpert

open Machinery

namespace FmLocal

variable {L : Type} (os : Os L) (dispatchSubList : FmTask → Bytes → FmScheduler → FmScheduler)

def onDelFile (task : FmTask) (t : FmTaskDel) (s : FmScheduler) : FsM L FmScheduler := do
  let result ← if t.isFolder_ ≠ 0 then os.rmDir t.path_ else os.unlink t.path_
  pure (if result then s.remove task.id_ else s.write { task with result_ := FmResultFailed })

/-- What `onNewFile` does to the disk. -/
def create (t : FmTaskNew) : FsM L Bool :=
  if t.isFolder_ ≠ 0 then do
    os.prepareFolder t.path_
    os.mkDir t.path_
  else os.openCreate t.path_

/-- `onNewFile`: where nobody is to be informed, a creation that fails is done, too. -/
def onNewFile (task : FmTask) (t : FmTaskNew) (s : FmScheduler) : FsM L FmScheduler := do
  let result ← create os t
  pure (if t.needInformUi_ && !result then s.write { task with result_ := FmResultFailed }
    else s.remove task.id_)

/-- `onGetSubList`: the listing leaves the queue behind the tasks made of it. -/
def onGetSubList (task : FmTask) (t : FmTaskGetSubList) (s : FmScheduler) : FsM L FmScheduler := do
  let subFiles ← os.getSubFiles t.path_
  pure (match subFiles with
    | none => s.write { task with result_ := FmResultFailed }
    | some bytes => (dispatchSubList task bytes s).remove task.id_)

def onUserLoop (s : FmScheduler) : FsM L FmScheduler :=
  match s.getFirst false with
  | none => pure s
  | some task =>
    match task.body with
    | .getSubList false t => onGetSubList os dispatchSubList task t s
    | .del false t => onDelFile os task t s
    | .new false t => onNewFile os task t s
    | _ => pure s

/-- Does `onUserLoop` end with `postMsg(JY_MSG_TYPE_USER_LOOP)`?  `onDelFile` and `onNewFile` do, and
`onGetSubList` but for a folder that cannot be listed. -/
def postsUserLoop (s : FmScheduler) (l : L) : Bool :=
  match s.getFirst false with
  | none => false
  | some task =>
    match task.body with
    | .getSubList false t => (os.whGetSubFiles t.path_ l).isSome
    | .del false _ => true
    | .new false _ => true
    | _ => false

/-- Does `onUserLoop` come to the `notifyEngine` of `dispatchSubList`? -/
def notifiesEngine (notifies : FmTask → Bytes → Bool) (s : FmScheduler) (l : L) : Bool :=
  match s.getFirst false with
  | none => false
  | some task =>
    match task.body with
    | .getSubList false t => (os.whGetSubFiles t.path_ l).any (notifies task)
    | _ => false

/-! ## What it comes to -/

open TraceM

variable {os dispatchSubList} {task : FmTask} {s : FmScheduler} {l : L}

variable (os) in
/-- What a deletion answers, and the disk it leaves. -/
def deleted (t : FmTaskDel) (l : L) : Bool × L :=
  if t.isFolder_ ≠ 0 then os.opRmDir t.path_ l else os.opUnlink t.path_ l

variable (os) in
/-- What a creation answers, and the disk it leaves. -/
def created (t : FmTaskNew) (l : L) : Bool × L :=
  if t.isFolder_ ≠ 0 then os.opMkDir t.path_ (os.whPrepareFolder t.path_ l) else os.fopenCreate t.path_ l

theorem onDelFile_yields (t : FmTaskDel) : Yields (onDelFile os task t s) l
    (if (deleted os t l).1 then s.remove task.id_ else s.write { task with result_ := FmResultFailed })
    (deleted os t l).2 := by
  rw [onDelFile, deleted]
  by_cases hfolder : t.isFolder_ ≠ 0
  · simp only [if_pos hfolder]
    exact Yields.bind (yields_call _ _ _) (yields_pure _ _)
  · simp only [if_neg hfolder]
    exact Yields.bind (yields_call _ _ _) (yields_pure _ _)

theorem create_yields (t : FmTaskNew) : Yields (create os t) l (created os t l).1 (created os t l).2 := by
  rw [create, created]
  split_ifs with hfolder
  · exact Yields.bind (yields_call _ _ _) (yields_call _ _ _)
  · exact yields_call _ _ _

theorem onNewFile_yields (t : FmTaskNew) : Yields (onNewFile os task t s) l
    (if t.needInformUi_ && !(created os t l).1 then s.write { task with result_ := FmResultFailed }
      else s.remove task.id_) (created os t l).2 :=
  Yields.bind (create_yields t) (yields_pure _ _)

theorem onGetSubList_yields (t : FmTaskGetSubList) : Yields (onGetSubList os dispatchSubList task t s) l
    (match os.whGetSubFiles t.path_ l with
      | none => s.write { task with result_ := FmResultFailed }
      | some bytes => (dispatchSubList task bytes s).remove task.id_) l :=
  Yields.bind (yields_call _ _ _) (yields_pure _ _)

end FmLocal

end EuhatExpert
