import EuhatExpert.FileMan.FmcTask

/-!
# FileMan/FileManClient — one request at a time

`canSend_` lets one request out: `onUserLoop` clears it with the request of the first task, `onRead` sets
it with the answer.
-/

namespace EuhatExpert

open Machinery

/-- A client; `userLoops` counts the `JY_MSG_TYPE_USER_LOOP` that wait for it. -/
structure FileManClient where
  canSend_ : Bool
  scheduler_ : FmScheduler
  userLoops : ℕ

namespace FileManClient

/-- The constructor. -/
def fresh (scheduler : FmScheduler) : FileManClient := ⟨false, scheduler, 0⟩

/-- `postMsg(JY_MSG_TYPE_USER_LOOP)`. -/
def postUserLoop (c : FileManClient) : FileManClient := { c with userLoops := c.userLoops + 1 }

/-- `onUserStart`, once the socket can send. -/
def onUserStart (c : FileManClient) : FileManClient := { c with canSend_ := true }.postUserLoop

section Handlers

variable {L : Type} (os : Os L) (dispatchSubList : FmTask → Bytes → FmScheduler → FmScheduler)

/-- The `req` of a task's command, and the task as it is left.  Other tasks have no command. -/
def req (task : FmTask) : FsM L (FmTask × Option FmReq) :=
  match task.body with
  | .download t => do
    let (task, r) ← FmcDownFile.req os task t
    pure (task, r.map .down)
  | .upload t => do
    let r ← FmcUpFile.req os task.id_ t
    pure (task, some (.up r))
  | .getSubList true t => pure (task, some (.list (FmcPeerFileList.req task.id_ t)))
  | .del true t => pure (task, some (.del (FmcDelFile.req task.id_ t)))
  | .new true t => pure (task, some (.new (FmcNewFile.req task.id_ t)))
  | _ => pure (task, none)

/-- The request of the first task. -/
def reqFirst (s : FmScheduler) : FsM L (FmScheduler × Option FmReq) :=
  match s.getFirst true with
  | none => pure (s, none)
  | some task => do
    let (task, r) ← req os task
    pure (s.write task, r)

/-- `onUserLoop`, once the socket can send.  Without a first task `canSend_` stays. -/
def onUserLoop (c : FileManClient) : FsM L (FileManClient × Option FmReq) :=
  if c.canSend_ then do
    let (s, r) ← reqFirst os c.scheduler_
    pure ({ c with scheduler_ := s, canSend_ := (c.scheduler_.getFirst true).isNone }, r)
  else pure (c, none)

/-- The `ack` of the command an answer is to. -/
def ack (a : FmAck) (s : FmScheduler) : FsM L FmScheduler :=
  match a with
  | .down a => FmcDownFile.ack os a s
  | .up a => pure (FmcUpFile.ack a s)
  | .list a => pure (FmcPeerFileList.ack dispatchSubList a s)
  | .del a => pure (FmcDelFile.ack a s)
  | .new a => pure (FmcNewFile.ack a s)

/-- `onRead`; whatever an `ack` does, it posts a loop. -/
def onRead (a : FmAck) (c : FileManClient) : FsM L FileManClient := do
  let s ← ack os dispatchSubList a c.scheduler_
  pure { c with scheduler_ := s, canSend_ := true }.postUserLoop

/-- Does the `ack` come to the `notifyEngine` of `dispatchSubList`? -/
def notifiesEngine (notifies : FmTask → Bytes → Bool) (a : FmAck) (s : FmScheduler) : Bool :=
  match a with
  | .list a =>
    match s.getAs FmTask.asGetSubList a.id with
    | none => false
    | some (task, _) => a.isOk && notifies task a.subFiles
  | _ => false

end Handlers

open TraceM

/-- **A request leaves its task as it is**, but for the offset of a download, or the mark that there is no room. -/
theorem req_cases {L : Type} {os : Os L} {task task' : FmTask} {r : Option FmReq} {l l' : L}
    (hends : Ends (req os task) l (task', r) l') :
    task' = task ∨ task' = { task with result_ := FmResultNoSpace } ∨ ∃ d, task' = task.setDownload d := by
  have same : ∀ {o : Option FmReq} {l₁ : L}, Ends (pure (task, o) : FsM L _) l₁ (task', r) l' → task' = task := by
    intro o l₁ h
    exact (Prod.mk.inj (ends_pure h).1).1
  rw [req] at hends
  split at hends
  · rename_i t hbody
    obtain ⟨⟨task₁, r₁⟩, l₁, hreq, hends⟩ := hends.bind
    obtain ⟨rfl, -⟩ := Prod.mk.inj (ends_pure hends).1
    rw [FmcDownFile.req] at hreq
    split_ifs at hreq
    · obtain ⟨_, l₂, -, hreq⟩ := hreq.bind
      obtain ⟨_, l₃, -, hreq⟩ := hreq.bind
      obtain ⟨free, l₄, -, hreq⟩ := hreq.bind
      split_ifs at hreq
      · exact .inr (.inl (Prod.mk.inj (ends_pure hreq).1).1)
      · exact .inr (.inr ⟨_, (Prod.mk.inj (ends_pure hreq).1).1⟩)
    · exact .inl (Prod.mk.inj (ends_pure hreq).1).1
  · obtain ⟨_, l₁, -, hends⟩ := hends.bind
    exact .inl (same hends)
  all_goals exact .inl (same hends)

theorem id_req {L : Type} {os : Os L} {task task' : FmTask} {r : Option FmReq} {l l' : L}
    (hends : Ends (req os task) l (task', r) l') : task'.id_ = task.id_ := by
  obtain rfl | rfl | ⟨d, rfl⟩ := req_cases hends
  · rfl
  · rfl
  · exact FmTask.id_setDownload task d

end FileManClient

end EuhatExpert
