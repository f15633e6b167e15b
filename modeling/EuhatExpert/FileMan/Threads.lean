import EuhatExpert.FileMan.Engines

/-!
# FileMan/Threads — both engines, one locked call at a time

The queue is locked for single calls only.  Between `getFirst`, what an engine then does on the disk, and each call
and write that comes of it, the other engine and the user may be at the queue.  Where nobody is, this is what
`Engines` does (`run_of_step`).
-/

namespace EuhatExpert

open Machinery TraceM

namespace FmScheduler

/-- A locked call of an engine that changes the queue, or a write through its pointer to a task. -/
inductive Edit
  | add (body : FmTask.Body)
  | remove (id : ℤ)
  | write (t : FmTask)

def Edit.apply (s : FmScheduler) : Edit → FmScheduler
  | add body => s.add body
  | remove id => s.remove id
  | write t => s.write t

def editAll (s : FmScheduler) (cs : List Edit) : FmScheduler := cs.foldl Edit.apply s

theorem editAll_add (s : FmScheduler) (bodies : List FmTask.Body) :
    s.editAll (bodies.map .add) = bodies.foldl add s := by
  rw [editAll, List.foldl_map]
  rfl

theorem editAll_append (s : FmScheduler) (cs cs' : List Edit) :
    s.editAll (cs ++ cs') = (s.editAll cs).editAll cs' := List.foldl_append

end FmScheduler

open FmScheduler

/-! ## What the handlers do to the queue, call by call -/

/-- The calls of `dispatchSubList`. -/
def dispatchSubListEdits (loop : FmLoop) (task : FmTask) (bytes : Bytes) : List Edit :=
  match task.asGetSubList, SubList.read bytes with
  | some t, .ok l => if t.action_ = .ActionInformUi then [] else (l.bodies loop t).map .add
  | _, _ => []

variable {L : Type} (os : Os L) (loop : FmLoop)

/-- The calls of `FmLocal::onUserLoop` for a task it got. -/
def FmLocal.edits (task : FmTask) : FsM L (List Edit) :=
  match task.body with
  | .getSubList false t => do
    let subFiles ← os.getSubFiles t.path_
    pure (match subFiles with
      | none => [.write { task with result_ := FmResultFailed }]
      | some bytes => dispatchSubListEdits loop task bytes ++ [.remove task.id_])
  | .del false t => do
    let result ← if t.isFolder_ ≠ 0 then os.rmDir t.path_ else os.unlink t.path_
    pure (if result then [.remove task.id_] else [.write { task with result_ := FmResultFailed }])
  | .new false t => do
    let result ← FmLocal.create os t
    pure (if t.needInformUi_ && !result then [.write { task with result_ := FmResultFailed }]
      else [.remove task.id_])
  | _ => pure []

/-- The task that an `ack` gets. -/
def FmAck.task (s : FmScheduler) : FmAck → Option FmTask
  | .down a => (s.getAs FmTask.asDownload a.id).map Prod.fst
  | .up a => (s.getAs FmTask.asUpload a.id).map Prod.fst
  | .list a => (s.getAs FmTask.asGetSubList a.id).map Prod.fst
  | .del a => (s.getAs FmTask.asDel a.id).map Prod.fst
  | .new a => (s.getAs FmTask.asNew a.id).map Prod.fst

/-- The calls of an `ack` for the task it got. -/
def FmAck.edits (task : FmTask) : FmAck → FsM L (List Edit)
  | .down a =>
    match task.asDownload with
    | none => pure []
    | some t => do
      let (offset, result) ← storeFile os a.file.found t.localPath_ t.offset_
      let task := task.setDownload { t with offset_ := offset }
      if result = FmResultFileReachEnd then
        os.setFileLastWriteTime t.localPath_ t.lastWriteTime_
        pure [.write task, .remove a.id]
      else if result = FmResultOk then pure [.write task]
      else pure [.write { task with result_ := FmResultFailed }]
  | .up a =>
    match task.asUpload with
    | none => pure []
    | some t =>
      let task := task.setDownload { t with offset_ := a.filePos }
      if a.retResult = FmResultNoSpace then pure [.write { task with result_ := FmResultNoSpace }]
      else if a.retResult = FmResultFileReachEnd then pure [.write task, .remove a.id]
      else if a.retResult = FmResultOk then pure [.write task]
      else pure [.write { task with result_ := FmResultFailed }]
  | .list a =>
    if a.isOk then pure (.remove a.id :: dispatchSubListEdits loop task a.subFiles)
    else pure [.write { task with result_ := FmResultFailed }]
  | .del a | .new a =>
    if a.retResult then pure [.remove a.id] else pure [.write { task with result_ := FmResultFailed }]

section Handlers

variable {os loop} {s : FmScheduler}

theorem editAll_dispatchSubListEdits (task : FmTask) (bytes : Bytes) :
    s.editAll (dispatchSubListEdits loop task bytes) = dispatchSubListBytes loop task bytes s := by
  rw [dispatchSubListEdits, dispatchSubListBytes]
  cases task.asGetSubList with
  | none => rfl
  | some t =>
    cases SubList.read bytes with
    | error e => rfl
    | ok l =>
      dsimp only
      rw [dispatchSubList]
      split_ifs
      · rfl
      · exact editAll_add s _

/-- **The local engine does its calls one after another.** -/
theorem FmLocal.onUserLoop_eq (s : FmScheduler) : FmLocal.onUserLoop os (dispatchSubListBytes loop) s =
    match s.getFirst false with
    | none => pure s
    | some task => FmLocal.edits os loop task >>= fun cs => pure (s.editAll cs) := by
  rw [FmLocal.onUserLoop]
  cases s.getFirst false with
  | none => rfl
  | some task =>
    obtain ⟨id, result, body⟩ := task
    cases body with
    | getSubList isPeer t =>
      cases isPeer with
      | true => rfl
      | false =>
        dsimp only [FmLocal.edits]
        rw [FmLocal.onGetSubList, bind_assoc]
        refine congrArg (_ >>= ·) (funext fun subFiles => ?_)
        rw [pure_bind]
        cases subFiles with
        | none => rfl
        | some bytes =>
          dsimp only
          rw [editAll_append, editAll_dispatchSubListEdits]
          rfl
    | del isPeer t =>
      cases isPeer with
      | true => rfl
      | false =>
        have hcalls : ∀ m : FsM L Bool,
            (m >>= fun done => pure (if done then s.remove id else s.write ⟨id, FmResultFailed, .del false t⟩))
              = (m >>= fun done =>
                pure (if done then [Edit.remove id] else [.write ⟨id, FmResultFailed, .del false t⟩])) >>=
                  fun cs => pure (s.editAll cs) := by
          intro m
          rw [bind_assoc]
          refine congrArg (m >>= ·) (funext fun done => ?_)
          rw [pure_bind]
          split_ifs
          · rfl
          · rfl
        dsimp only [FmLocal.edits, FmLocal.onDelFile]
        split_ifs
        · exact hcalls _
        · exact hcalls _
    | new isPeer t =>
      cases isPeer with
      | true => rfl
      | false =>
        dsimp only [FmLocal.edits]
        rw [FmLocal.onNewFile, bind_assoc]
        refine congrArg (_ >>= ·) (funext fun result => ?_)
        rw [pure_bind]
        split_ifs
        · rfl
        · rfl
    | copy isPeer t => cases isPeer <;> rfl
    | connect | download t | upload t => rfl

/-- An answer about a file or folder comes to one call. -/
theorem settle_eq {α : Type} (cast : FmTask → Option α) (a : NodeAck) :
    (pure (settle cast a s) : FsM L FmScheduler) = match (s.getAs cast a.id).map Prod.fst with
      | none => pure s
      | some task => (if a.retResult then pure [Edit.remove a.id]
          else pure [.write { task with result_ := FmResultFailed }]) >>= fun cs => pure (s.editAll cs) := by
  rw [settle]
  cases s.getAs cast a.id with
  | none => rfl
  | some found =>
    obtain ⟨task, t⟩ := found
    rw [Option.map_some]
    dsimp only
    split_ifs
    · rfl
    · rfl

/-- **An `ack` does its calls one after another.** -/
theorem FileManClient.ack_eq (a : FmAck) (s : FmScheduler) :
    FileManClient.ack os (dispatchSubListBytes loop) a s =
      match a.task s with
      | none => pure s
      | some task => a.edits os loop task >>= fun cs => pure (s.editAll cs) := by
  have hcast : ∀ {α : Type} {cast : FmTask → Option α} {id : ℤ} {task : FmTask} {t : α},
      s.getAs cast id = some (task, t) → cast task = some t := fun hget => (getAs_some hget).2
  cases a with
  | down a =>
    rw [FileManClient.ack, FmcDownFile.ack, FmAck.task]
    cases hget : s.getAs FmTask.asDownload a.id with
    | none => rfl
    | some found =>
      obtain ⟨task, t⟩ := found
      rw [Option.map_some]
      dsimp only
      rw [FmAck.edits, hcast hget]
      dsimp only
      rw [bind_assoc]
      refine congrArg (_ >>= ·) (funext fun stored => ?_)
      split_ifs
      · rw [bind_assoc]
        exact congrArg (_ >>= ·) (funext fun _ => (pure_bind _ _).symm)
      · exact (pure_bind _ _).symm
      · exact (pure_bind _ _).symm
  | up a =>
    rw [FileManClient.ack, FmcUpFile.ack, FmAck.task]
    cases hget : s.getAs FmTask.asUpload a.id with
    | none => rfl
    | some found =>
      obtain ⟨task, t⟩ := found
      rw [Option.map_some]
      dsimp only
      rw [FmAck.edits, hcast hget]
      dsimp only
      split_ifs
      all_goals rfl
  | list a =>
    rw [FileManClient.ack, FmcPeerFileList.ack, FmAck.task]
    cases hget : s.getAs FmTask.asGetSubList a.id with
    | none => rfl
    | some found =>
      obtain ⟨task, t⟩ := found
      rw [Option.map_some]
      dsimp only
      rw [FmAck.edits]
      split_ifs
      · rw [pure_bind]
        exact congrArg pure (editAll_dispatchSubListEdits task a.subFiles).symm
      · rfl
  | del a =>
    rw [FileManClient.ack, FmcDelFile.ack, settle_eq]
    rfl
  | new a =>
    rw [FileManClient.ack, FmcNewFile.ack, settle_eq]
    rfl

end Handlers

/-! ## The engines -/

/-- What an engine is at: it got a task to work on, or for an answer; or calls are left, and a request to be sent
behind them. -/
inductive Duty
  | idle
  | taken (t : FmTask)
  | found (a : FmAck) (t : FmTask)
  | asking (cs : List Edit) (r : Option FmReq)
  | settling (cs : List Edit)

/-- The queue, the client's right to send, the local disk, what is on the line, and what either engine is at. -/
structure Threads (L : Type) where
  scheduler_ : FmScheduler
  canSend_ : Bool
  disk : L
  requests : List FmReq
  acks : List FmAck
  duty : Bool → Duty

namespace Threads

/-- After `onUserStart`. -/
def ready (scheduler : FmScheduler) (disk : L) : Threads L := ⟨scheduler, true, disk, [], [], fun _ => .idle⟩

/-- What is next: of an engine, the client where `isRemoteTask`, of the server, or of the user. -/
inductive Event
  | take (isRemoteTask : Bool)
  | act (isRemoteTask : Bool)
  | edit (isRemoteTask : Bool)
  | done (isRemoteTask : Bool)
  | read
  | serve (a : FmAck)
  | user (c : Engines.UserCall)

/-- An engine turns to something else. -/
def turn (s : Threads L) (isRemoteTask : Bool) (d : Duty) : Threads L :=
  { s with duty := Function.update s.duty isRemoteTask d }

@[simp] theorem duty_turn (s : Threads L) (isRemoteTask : Bool) (d : Duty) :
    (s.turn isRemoteTask d).duty isRemoteTask = d := Function.update_self ..

/-- The calls that are left. -/
def calls (s : Threads L) (isRemoteTask : Bool) : List Edit :=
  match s.duty isRemoteTask with
  | .asking cs _ | .settling cs => cs
  | _ => []

variable (S : Engines.Setup L)

inductive Step : Threads L → Event → Threads L → Prop
  | take {s t} (isRemoteTask : Bool) : s.duty isRemoteTask = .idle → (isRemoteTask = true → s.canSend_ = true) →
      s.scheduler_.getFirst isRemoteTask = some t →
      Step s (.take isRemoteTask) (s.turn isRemoteTask (.taken t))
  | ask {s t t' r l} : s.duty true = .taken t → exec (FileManClient.req S.os t) s.disk = some ((t', r), l) →
      Step s (.act true) { s.turn true (.asking [.write t'] r) with disk := l }
  | act {s t cs l} : s.duty false = .taken t →
      exec (FmLocal.edits S.os ⟨false, S.isUnix_⟩ t) s.disk = some (cs, l) →
      Step s (.act false) { s.turn false (.settling cs) with disk := l }
  | read {s a rest} : s.duty true = .idle → s.acks = a :: rest →
      Step s .read { s.turn true (match a.task s.scheduler_ with
        | none => .settling []
        | some t => .found a t) with acks := rest }
  | store {s a t cs l} : s.duty true = .found a t →
      exec (a.edits S.os ⟨true, S.isUnix_⟩ t) s.disk = some (cs, l) →
      Step s (.act true) { s.turn true (.settling cs) with disk := l }
  | editAsking {s c cs r} : s.duty true = .asking (c :: cs) r →
      Step s (.edit true) { s.turn true (.asking cs r) with scheduler_ := c.apply s.scheduler_ }
  | edit {s c cs} (isRemoteTask : Bool) : s.duty isRemoteTask = .settling (c :: cs) →
      Step s (.edit isRemoteTask)
        { s.turn isRemoteTask (.settling cs) with scheduler_ := c.apply s.scheduler_ }
  | sent {s r} : s.duty true = .asking [] r →
      Step s (.done true) { s.turn true .idle with canSend_ := false, requests := s.requests ++ r.toList }
  | done {s} (isRemoteTask : Bool) : s.duty isRemoteTask = .settling [] →
      Step s (.done isRemoteTask) { s.turn isRemoteTask .idle with canSend_ := isRemoteTask || s.canSend_ }
  | serve {s r rest} (a : FmAck) : s.requests = r :: rest →
      Step s (.serve a) { s with requests := rest, acks := s.acks ++ [a] }
  | user {s} (c : Engines.UserCall) : Step s (.user c) { s with scheduler_ := c.call.apply s.scheduler_ }

/-! ## Where nobody comes in between -/

end Threads

/-- Both engines between two handlers. -/
def Engines.threads (s : Engines L) : Threads L :=
  ⟨s.scheduler_, s.client.canSend_, s.disk, s.requests, s.acks, fun _ => .idle⟩

namespace Threads

variable {S : Engines.Setup L} {s : Threads L}

/-- The calls of an engine, one after another. -/
theorem run_edits (S : Engines.Setup L) {isRemoteTask : Bool} : ∀ {cs : List Edit} {s : Threads L},
    s.duty isRemoteTask = .settling cs → Run (Step S) s (List.replicate cs.length (.edit isRemoteTask))
      { s.turn isRemoteTask (.settling []) with scheduler_ := s.scheduler_.editAll cs }
  | [], s, h => by
    have hsame : s.turn isRemoteTask (.settling []) = s := by rw [turn, ← h, Function.update_eq_self]
    rw [hsame]
    exact Run.nil
  | c :: cs, s, h => by
    have hrest := @run_edits S isRemoteTask cs { s.turn isRemoteTask (.settling cs) with
      scheduler_ := c.apply s.scheduler_ } (duty_turn ..)
    have hrun := (Run.single (Step.edit (S := S) isRemoteTask h)).trans hrest
    rw [turn] at hrun
    dsimp only [turn] at hrun
    rw [Function.update_idem] at hrun
    exact hrun

/-- The calls of an engine, and the end of its handler. -/
theorem run_settling {S : Engines.Setup L} {isRemoteTask : Bool} {cs : List Edit} {s₀ s : Threads L} {es : List Event}
    (hrun : Run (Step S) s₀ es s) (h : s.duty isRemoteTask = .settling cs) : ∃ es, Run (Step S) s₀ es
      { s.turn isRemoteTask .idle with
        scheduler_ := s.scheduler_.editAll cs
        canSend_ := isRemoteTask || s.canSend_ } := by
  have hdone := (hrun.trans (run_edits S h)).snoc (.done isRemoteTask (duty_turn ..))
  dsimp only [turn] at hdone
  rw [Function.update_idem] at hdone
  exact ⟨_, hdone⟩

theorem update_idle (isRemoteTask : Bool) :
    Function.update (fun _ => Duty.idle) isRemoteTask .idle = fun _ => .idle := Function.update_eq_self _ _

variable {S : Engines.Setup L} {s s' : Engines L} {e : Engines.Event}

theorem run_localLoop {q : FmScheduler} {l : L}
    (hexec : exec (FmLocal.onUserLoop S.os S.dispatchLocal s.scheduler_) s.disk = some (q, l)) :
    ∃ es, Run (Step S) s.threads es { s.withScheduler q with disk := l }.threads := by
  rw [Engines.Setup.dispatchLocal, FmLocal.onUserLoop_eq] at hexec
  cases hfirst : s.scheduler_.getFirst false with
  | none =>
    rw [hfirst, exec_pure] at hexec
    obtain ⟨rfl, rfl⟩ := Prod.mk.inj (Option.some.inj hexec)
    exact ⟨[], Run.nil⟩
  | some t =>
    rw [hfirst] at hexec
    dsimp only at hexec
    rw [exec_bind_pure, Option.map_eq_some_iff] at hexec
    obtain ⟨⟨cs, l'⟩, hedits, heq⟩ := hexec
    obtain ⟨rfl, rfl⟩ := Prod.mk.inj heq
    have htake : Step S s.threads (.take false) (s.threads.turn false (.taken t)) := .take false rfl nofun hfirst
    have hact := (Run.single htake).snoc (.act (duty_turn ..) hedits)
    obtain ⟨es, hrun⟩ := run_settling hact (duty_turn ..)
    dsimp only [turn, Engines.threads] at hrun
    rw [Function.update_idem, Function.update_idem, update_idle] at hrun
    exact ⟨_, hrun⟩

theorem run_read {a : FmAck} {rest : List FmAck} {c : FileManClient} {l : L} (hacks : s.acks = a :: rest)
    (hexec : exec (FileManClient.onRead S.os S.dispatchRemote a s.client) s.disk = some (c, l)) :
    ∃ es, Run (Step S) s.threads es { s with client := c, disk := l, acks := rest }.threads := by
  rw [FileManClient.onRead, exec_bind_pure, Engines.Setup.dispatchRemote, FileManClient.ack_eq] at hexec
  have hread : Step S s.threads .read _ := .read rfl hacks
  cases hfound : a.task s.client.scheduler_ with
  | none =>
    rw [show s.threads.scheduler_ = s.client.scheduler_ from rfl, hfound] at hread
    rw [hfound, exec_pure] at hexec
    obtain ⟨rfl, rfl⟩ := Prod.mk.inj (Option.some.inj hexec)
    obtain ⟨es, hrun⟩ := run_settling (Run.single hread) (duty_turn ..)
    dsimp only [turn, Engines.threads] at hrun
    rw [Function.update_idem, update_idle] at hrun
    exact ⟨_, hrun⟩
  | some t =>
    rw [show s.threads.scheduler_ = s.client.scheduler_ from rfl, hfound] at hread
    rw [hfound] at hexec
    dsimp only at hread hexec
    rw [exec_bind_pure, Option.map_map, Option.map_eq_some_iff] at hexec
    obtain ⟨⟨cs, l'⟩, hedits, heq⟩ := hexec
    obtain ⟨rfl, rfl⟩ := Prod.mk.inj heq
    have hstore := (Run.single hread).snoc (.store (duty_turn s.threads true _) hedits)
    obtain ⟨es, hrun⟩ := run_settling hstore (duty_turn ..)
    dsimp only [turn, Engines.threads] at hrun
    rw [Function.update_idem, Function.update_idem, update_idle] at hrun
    exact ⟨_, hrun⟩

theorem run_userLoop {c : FileManClient} {r : Option FmReq} {l : L}
    (hexec : exec (FileManClient.onUserLoop S.os s.client) s.disk = some ((c, r), l)) :
    ∃ es, Run (Step S) s.threads es { s with client := c, disk := l, requests := s.requests ++ r.toList }.threads := by
  rw [FileManClient.onUserLoop] at hexec
  split_ifs at hexec with hcan
  · rw [exec_bind_pure, Option.map_eq_some_iff] at hexec
    obtain ⟨⟨⟨q, r'⟩, l'⟩, hreq, heq⟩ := hexec
    obtain ⟨hcr, rfl⟩ := Prod.mk.inj heq
    obtain ⟨rfl, rfl⟩ := Prod.mk.inj hcr
    rw [FileManClient.reqFirst] at hreq
    cases hfirst : s.client.scheduler_.getFirst true with
    | none =>
      rw [hfirst, exec_pure] at hreq
      obtain ⟨hqr, rfl⟩ := Prod.mk.inj (Option.some.inj hreq)
      obtain ⟨rfl, rfl⟩ := Prod.mk.inj hqr
      refine ⟨[], ?_⟩
      rw [Option.toList_none, List.append_nil, Option.isNone_none, ← hcan]
      exact Run.nil
    | some t =>
      rw [hfirst] at hreq
      dsimp only at hreq
      rw [exec_bind_pure, Option.map_eq_some_iff] at hreq
      obtain ⟨⟨⟨t', r''⟩, l''⟩, hreq, heq⟩ := hreq
      obtain ⟨hqr, rfl⟩ := Prod.mk.inj heq
      obtain ⟨rfl, rfl⟩ := Prod.mk.inj hqr
      have htake : Step S s.threads (.take true) (s.threads.turn true (.taken t)) :=
        .take true rfl (fun _ => hcan) hfirst
      have hask := (Run.single htake).snoc (.ask (duty_turn ..) hreq)
      have hedit := hask.snoc (.editAsking (duty_turn (s.threads.turn true (.taken t)) true _))
      have hrun := hedit.snoc (@Step.sent L S _ r'' rfl)
      dsimp only [turn, Engines.threads] at hrun
      rw [Function.update_idem, Function.update_idem, Function.update_idem, update_idle] at hrun
      exact ⟨_, hrun⟩
  · rw [exec_pure] at hexec
    obtain ⟨hcr, rfl⟩ := Prod.mk.inj (Option.some.inj hexec)
    obtain ⟨rfl, rfl⟩ := Prod.mk.inj hcr
    refine ⟨[], ?_⟩
    rw [Option.toList_none, List.append_nil]
    exact Run.nil

/-- **Where nobody comes in between, a handler is its calls**, one after another. -/
theorem run_of_step (h : Engines.Step S s e s') : ∃ es, Run (Step S) s.threads es s'.threads := by
  cases h with
  | userLoop hexec => exact run_userLoop hexec
  | serve a hrequests => exact ⟨_, Run.single (.serve a hrequests)⟩
  | read hacks hexec => exact run_read hacks hexec
  | timer => exact ⟨[], Run.nil⟩
  | localLoop hexec => exact run_localLoop hexec
  | user c => exact ⟨_, Run.single (.user c)⟩

end Threads

end EuhatExpert
