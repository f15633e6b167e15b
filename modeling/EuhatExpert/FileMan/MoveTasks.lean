import EuhatExpert.FileMan.CodecsAgree
import EuhatExpert.FileMan.ConnectTasks
import EuhatExpert.FileMan.Sides

/-!
# FileMan/MoveTasks — what a move asks for

`dispatchSubList` hands `isMove_` on from task to task, and nothing else looks at it.  So the tasks of a move transfer
files, create folders at the other side and delete folders at their own, but none deletes a file: what is in the files
there stays (`stays_of_run`).
-/

namespace EuhatExpert

open Machinery TraceM

/-! ## The tasks, the requests, and the answers -/

/-- A task of a copy or move of folders from one side to the other; `remote` is the side they are on. -/
def FmTask.Body.OfMove (remote : Bool) : FmTask.Body → Prop
  | .getSubList isPeer t => isPeer = remote ∧ t.action_ = .ActionDownUp
  | .download _ => remote = true
  | .upload _ => remote = false
  | .del isPeer t => isPeer = remote ∧ t.isFolder_ ≠ 0
  | .new isPeer _ => isPeer = !remote
  | .connect | .copy _ _ => False

/-- A request for such a task. -/
def FmReq.OfMove (remote : Bool) : FmReq → Prop
  | .down _ | .list _ => remote = true
  | .up _ | .new _ => remote = false
  | .del r => remote = true ∧ r.isFolder ≠ 0

def FmAck.OfMove (remote : Bool) : FmAck → Prop
  | .down _ | .list _ | .del _ => remote = true
  | .up _ | .new _ => remote = false

/-- The disk is as before, or it was asked to delete a folder. -/
def Os.AtMostRmDir {L : Type} (os : Os L) (l l' : L) : Prop := l' = l ∨ ∃ path, l' = (os.opRmDir path l).2

variable {remote : Bool}

theorem FmTask.ofMove_setDownload {t : FmTask} (h : t.body.OfMove remote) (d : FmTaskDownload) :
    (t.setDownload d).body.OfMove remote := by
  obtain ⟨id, result, body⟩ := t
  cases body
  all_goals exact h

/-! ## The queue -/

namespace FmScheduler

variable {q q' : FmScheduler} {t u : FmTask} {bodies : List FmTask.Body}

/-- All its tasks are of a move. -/
def OfMove (remote : Bool) (q : FmScheduler) : Prop := ∀ t ∈ q.tasks_, t.body.OfMove remote

theorem OfMove.remove (h : q.OfMove remote) (id : ℤ) : (q.remove id).OfMove remote :=
  fun t ht => h t (List.eraseP_subset ht)

theorem OfMove.write (h : q.OfMove remote) (hu : u.body.OfMove remote) : (q.write u).OfMove remote := by
  intro t ht
  obtain rfl | ht := mem_write ht
  · exact hu
  · exact h t ht

theorem OfMove.addAll (h : q.OfMove remote) (hbodies : ∀ body ∈ bodies, body.OfMove remote) :
    (bodies.foldl FmScheduler.add q).OfMove remote := by
  induction bodies generalizing q with
  | nil => exact h
  | cons body bodies ih =>
    refine ih (fun t ht => ?_) fun b hb => hbodies b (List.mem_cons_of_mem _ hb)
    obtain rfl | ht := mem_insertStable.mp ht
    · exact hbodies body List.mem_cons_self
    · exact h t ht

theorem ofMove_bodies (loop : FmLoop) {d : FmTaskGetSubList} (hd : d.action_ = .ActionDownUp) (l : SubList) :
    ∀ body ∈ l.bodies loop d, body.OfMove loop.remote := by
  intro body hbody
  rcases List.mem_append.mp hbody with hbody | hbody
  · obtain ⟨e, -, he⟩ := List.mem_flatMap.mp hbody
    cases e with
    | folder name =>
      rw [SubEntry.bodies, hd] at he
      rcases List.mem_pair.mp he with rfl | rfl
      · exact rfl
      · exact ⟨rfl, rfl⟩
    | file name size lastWriteTime =>
      rw [SubEntry.bodies, hd] at he
      dsimp only at he
      split_ifs at he with hremote
      · rw [List.mem_singleton.mp he]
        exact hremote
      · rw [List.mem_singleton.mp he]
        exact Bool.eq_false_iff.mpr hremote
  · rw [SubList.lastBodies] at hbody
    rcases List.mem_append.mp hbody with hbody | hbody
    · split_ifs at hbody
      · rw [List.mem_singleton.mp hbody]
        exact ⟨rfl, one_ne_zero⟩
      · cases hbody
    · rw [if_pos hd] at hbody
      rw [List.mem_singleton.mp hbody]
      exact rfl

/-- **What comes of a listing of a move is of the move.** -/
theorem OfMove.dispatch (h : q.OfMove remote) {loop : FmLoop} (hloop : loop.remote = remote) {task : FmTask}
    (htask : task.body.OfMove remote) (bytes : Bytes) : (dispatchSubListBytes loop task bytes q).OfMove remote := by
  rw [dispatchSubListBytes]
  split
  · rename_i d l hcast hread
    rw [dispatchSubList]
    split_ifs
    · exact h
    · refine h.addAll ?_
      rw [← hloop]
      refine ofMove_bodies loop ?_ l
      obtain ⟨id, result, body⟩ := task
      cases body with
      | getSubList isPeer t =>
        obtain rfl := Option.some.inj hcast
        exact htask.2
      | _ => cases hcast
  · exact h

end FmScheduler

/-! ## What the client, the server and the local engine do -/

open FmScheduler

section Handlers

variable {L : Type} {os : Os L} {baseDir_ : Bytes} {q q' : FmScheduler} {l l' : L} {loop : FmLoop}

theorem ofMove_settle (h : q.OfMove remote) {α : Type} (cast : FmTask → Option α) (a : NodeAck) :
    (q.settle cast a).OfMove remote := by
  rw [settle]
  split
  · exact h
  · rename_i task x hget
    obtain ⟨hget, -⟩ := getAs_some hget
    split_ifs
    · exact h.remove _
    · exact h.write (h task (mem_of_get hget).1)

theorem ofMove_up (h : q.OfMove remote) (a : UpAck) : (FmcUpFile.ack a q).OfMove remote := by
  rw [FmcUpFile.ack]
  split
  · exact h
  · rename_i task t hget
    obtain ⟨hget, -⟩ := getAs_some hget
    have htask := FmTask.ofMove_setDownload (h task (mem_of_get hget).1) { t with offset_ := a.filePos }
    dsimp only
    split_ifs
    · exact h.write htask
    · exact (h.write htask).remove _
    · exact h.write htask
    · exact h.write htask

theorem ofMove_down (h : q.OfMove remote) {a : DownAck} (hends : Ends (FmcDownFile.ack os a q) l q' l') :
    q'.OfMove remote := by
  rw [FmcDownFile.ack] at hends
  split at hends
  · obtain ⟨rfl, -⟩ := ends_pure hends
    exact h
  · rename_i task t hget
    obtain ⟨hget, -⟩ := getAs_some hget
    obtain ⟨⟨offset, result⟩, l₁, -, hends⟩ := hends.bind
    have htask := FmTask.ofMove_setDownload (h task (mem_of_get hget).1) { t with offset_ := offset }
    dsimp only at hends
    split_ifs at hends
    · obtain ⟨_, _, _, hends⟩ := hends.bind
      obtain ⟨rfl, -⟩ := ends_pure hends
      exact (h.write htask).remove _
    · obtain ⟨rfl, -⟩ := ends_pure hends
      exact h.write htask
    · obtain ⟨rfl, -⟩ := ends_pure hends
      exact h.write htask

theorem ofMove_list (h : q.OfMove remote) (hloop : loop.remote = remote) (a : ListAck) :
    (FmcPeerFileList.ack (dispatchSubListBytes loop) a q).OfMove remote := by
  rw [FmcPeerFileList.ack]
  split
  · exact h
  · rename_i task t hget
    obtain ⟨hget, -⟩ := getAs_some hget
    have htask := h task (mem_of_get hget).1
    split_ifs
    · exact (h.remove _).dispatch hloop htask _
    · exact h.write htask

/-- **An answer to a move** leaves its tasks, and the local disk unless that is the other side. -/
theorem ofMove_ack (h : q.OfMove remote) (hloop : loop.remote = true) {a : FmAck} (ha : a.OfMove remote)
    (hends : Ends (FileManClient.ack os (dispatchSubListBytes loop) a q) l q' l') :
    q'.OfMove remote ∧ (remote = false → l' = l) := by
  cases a with
  | down a => exact ⟨ofMove_down h hends, fun hlocal => absurd (hlocal.symm.trans ha) Bool.false_ne_true⟩
  | up a =>
    obtain ⟨rfl, rfl⟩ := ends_pure hends
    exact ⟨ofMove_up h a, fun _ => rfl⟩
  | list a =>
    obtain ⟨rfl, rfl⟩ := ends_pure hends
    exact ⟨ofMove_list h (hloop.trans ha.symm) a, fun _ => rfl⟩
  | del a =>
    obtain ⟨rfl, rfl⟩ := ends_pure hends
    exact ⟨ofMove_settle h _ a, fun _ => rfl⟩
  | new a =>
    obtain ⟨rfl, rfl⟩ := ends_pure hends
    exact ⟨ofMove_settle h _ a, fun _ => rfl⟩

/-- **What is asked for a task of a move** leaves the local disk unless that is the other side. -/
theorem ofMove_req {task task' : FmTask} (h : task.body.OfMove remote) {r : Option FmReq}
    (hends : Ends (FileManClient.req os task) l (task', r) l') :
    task'.body.OfMove remote ∧ (∀ q ∈ r, q.OfMove remote) ∧ (remote = false → l' = l) := by
  have same : ∀ {o : Option FmReq}, (∀ q ∈ o, q.OfMove remote) →
      Ends (pure (task, o) : FsM L _) l (task', r) l' →
      task'.body.OfMove remote ∧ (∀ q ∈ r, q.OfMove remote) ∧ (remote = false → l' = l) := by
    intro o ho hends
    obtain ⟨heq, rfl⟩ := ends_pure hends
    obtain ⟨rfl, rfl⟩ := Prod.mk.inj heq
    exact ⟨h, ho, fun _ => rfl⟩
  have one : ∀ {p : FmReq}, p.OfMove remote → ∀ q ∈ some p, q.OfMove remote := fun hp q hq =>
    Option.mem_some_iff.mp hq ▸ hp
  obtain ⟨id, result, body⟩ := task
  cases body with
  | connect | copy isPeer t => exact h.elim
  | getSubList isPeer t =>
    cases isPeer with
    | true =>
      refine same (one ?_) hends
      exact h.1.symm
    | false => exact same (fun q hq => (by cases hq)) hends
  | download t =>
    have hremote : remote = true := h
    obtain ⟨⟨task₁, r₁⟩, l₁, hreq, hends⟩ := hends.bind
    obtain ⟨rfl, rfl⟩ := Prod.mk.inj (ends_pure hends).1
    refine ⟨?_, fun q hq => ?_, fun hlocal => absurd (hlocal.symm.trans hremote) Bool.false_ne_true⟩
    · by_cases hneg : t.offset_ < 0
      · obtain ⟨heq, -⟩ := (FmcDownFile.req_yields os _ hneg l).eq_of_ends hreq
        split_ifs at heq
        · obtain ⟨rfl, -⟩ := Prod.mk.inj heq
          exact h
        · obtain ⟨rfl, -⟩ := Prod.mk.inj heq
          exact h
      · rw [FmcDownFile.req, if_neg hneg] at hreq
        obtain ⟨rfl, -⟩ := Prod.mk.inj (ends_pure hreq).1
        exact h
    · obtain ⟨d, -, rfl⟩ := Option.map_eq_some_iff.mp hq
      exact hremote
  | upload t =>
    obtain ⟨u, l₁, hreq, hends⟩ := hends.bind
    have hl : l₁ = l := by
      rw [FmcUpFile.req] at hreq
      split_ifs at hreq
      · exact (ends_pure hreq).2
      · obtain ⟨file, l₂, hfile, hreq⟩ := hreq.bind
        exact (ends_pure hreq).2.trans (ends_fmReadFile os hfile).2
    rw [hl] at hends
    refine same (one ?_) hends
    exact h
  | del isPeer t =>
    cases isPeer with
    | true =>
      refine same (one ?_) hends
      exact ⟨h.1.symm, h.2⟩
    | false => exact same (fun q hq => (by cases hq)) hends
  | new isPeer t =>
    cases isPeer with
    | true =>
      refine same (one ?_) hends
      cases remote with
      | false => rfl
      | true => exact absurd h Bool.false_ne_true.symm
    | false => exact same (fun q hq => (by cases hq)) hends

theorem ofMove_reqFirst (h : q.OfMove remote) {r : Option FmReq}
    (hends : Ends (FileManClient.reqFirst os q) l (q', r) l') :
    q'.OfMove remote ∧ (∀ q ∈ r, q.OfMove remote) ∧ (remote = false → l' = l) := by
  rw [FileManClient.reqFirst] at hends
  split at hends
  · obtain ⟨heq, rfl⟩ := ends_pure hends
    obtain ⟨rfl, rfl⟩ := Prod.mk.inj heq
    exact ⟨h, fun q hq => (by cases hq), fun _ => rfl⟩
  · rename_i task hfirst
    obtain ⟨⟨task', r'⟩, l₁, hreq, hends⟩ := hends.bind
    obtain ⟨heq, rfl⟩ := ends_pure hends
    obtain ⟨rfl, rfl⟩ := Prod.mk.inj heq
    obtain ⟨htask, hr, hl⟩ := ofMove_req (h task (mem_of_getFirst hfirst)) hreq
    exact ⟨h.write htask, hr, hl⟩

/-- Deleting a folder, and nothing else. -/
theorem atMostRmDir_deleted {d : FmTaskDel} (hd : d.isFolder_ ≠ 0) (l : L) :
    os.AtMostRmDir l (FmLocal.deleted os d l).2 :=
  .inr ⟨d.path_, by rw [FmLocal.deleted, if_pos hd]⟩

/-- **What the local engine does of a move** deletes at most a folder, unless its disk is the other side. -/
theorem ofMove_local (h : q.OfMove remote) (hloop : loop.remote = false)
    (hends : Ends (FmLocal.onUserLoop os (dispatchSubListBytes loop) q) l q' l') :
    q'.OfMove remote ∧ (remote = false → os.AtMostRmDir l l') := by
  rw [FmLocal.onUserLoop] at hends
  split at hends
  · obtain ⟨rfl, rfl⟩ := ends_pure hends
    exact ⟨h, fun _ => .inl rfl⟩
  · rename_i task hfirst
    have htask := h task (mem_of_getFirst hfirst)
    split at hends
    · rename_i t hbody
      obtain ⟨rfl, rfl⟩ := (FmLocal.onGetSubList_yields t).eq_of_ends hends
      refine ⟨?_, fun _ => .inl rfl⟩
      split
      · exact h.write htask
      · refine (h.dispatch (hloop.trans ?_) htask _).remove _
        rw [hbody] at htask
        exact htask.1
    · rename_i t hbody
      obtain ⟨rfl, rfl⟩ := (FmLocal.onDelFile_yields t).eq_of_ends hends
      refine ⟨?_, fun _ => atMostRmDir_deleted ?_ l⟩
      · split_ifs
        · exact h.remove _
        · exact h.write htask
      · rw [hbody] at htask
        exact htask.2
    · rename_i t hbody
      obtain ⟨rfl, rfl⟩ := (FmLocal.onNewFile_yields t).eq_of_ends hends
      refine ⟨?_, fun hlocal => ?_⟩
      · split_ifs
        · exact h.write htask
        · exact h.remove _
      · rw [hbody, hlocal] at htask
        cases htask
    · obtain ⟨rfl, rfl⟩ := ends_pure hends
      exact ⟨h, fun _ => .inl rfl⟩

/-- **What the server does of a move** deletes at most a folder, unless its disk is the other side. -/
theorem ofMove_echo {r : FmReq} (hr : r.OfMove remote) {a : FmAck} (hends : Ends (FileManServer.echo os baseDir_ r) l a l') :
    a.OfMove remote ∧ (remote = true → os.AtMostRmDir l l') := by
  cases r with
  | down r =>
    obtain ⟨a, l₁, hecho, hends⟩ := hends.bind
    obtain ⟨rfl, rfl⟩ := ends_pure hends
    refine ⟨hr, fun _ => .inl ?_⟩
    rw [FmsDownFile.echo] at hecho
    by_cases hbase : strIsStartWith (whCorrectFilePath os.isUnix_ r.path) baseDir_ = true
    · rw [if_pos hbase] at hecho
      obtain ⟨file, l₂, hfile, hecho⟩ := hecho.bind
      exact (ends_pure hecho).2.trans (ends_fmReadFile os hfile).2
    · rw [if_neg hbase] at hecho
      exact (ends_pure hecho).2
  | up r =>
    obtain ⟨a, l₁, -, hends⟩ := hends.bind
    obtain ⟨rfl, rfl⟩ := ends_pure hends
    exact ⟨hr, fun hremote => absurd (hr.symm.trans hremote) Bool.false_ne_true⟩
  | list r =>
    obtain ⟨a, l₁, hecho, hends⟩ := hends.bind
    obtain ⟨rfl, rfl⟩ := ends_pure hends
    refine ⟨hr, fun _ => .inl ?_⟩
    rw [FmsPeerFileList.echo] at hecho
    split_ifs at hecho
    · obtain ⟨subFiles, l₂, hfiles, hecho⟩ := hecho.bind
      have hl := congrArg Prod.snd (ends_call (f := fun w => (os.whGetSubFiles _ w, w)) hfiles)
      exact (ends_pure hecho).2.trans hl.symm
    · exact (ends_pure hecho).2
  | del r =>
    obtain ⟨a, l₁, hecho, hends⟩ := hends.bind
    obtain ⟨rfl, rfl⟩ := ends_pure hends
    refine ⟨hr.1, fun _ => .inr ?_⟩
    rw [FmsDelFile.echo] at hecho
    obtain ⟨b, l₂, hremove, hecho⟩ := hecho.bind
    obtain ⟨-, rfl⟩ := ends_pure hecho
    rw [FmsDelFile.remove, if_pos hr.2] at hremove
    exact ⟨_, (congrArg Prod.snd (ends_call hremove)).symm⟩
  | new r =>
    obtain ⟨a, l₁, -, hends⟩ := hends.bind
    obtain ⟨rfl, rfl⟩ := ends_pure hends
    exact ⟨hr, fun hremote => absurd (hr.symm.trans hremote) Bool.false_ne_true⟩

end Handlers

namespace Sides

variable {X : Type} {S : Setup X} {s s' : Sides X} {q : FmScheduler} {disks : Bool → X} {es : List (List FmTask)}

/-- All that is in the queue and on the line is of a move. -/
structure OfMove (remote : Bool) (s : Sides X) : Prop where
  tasks : s.scheduler_.OfMove remote
  requests : ∀ r ∈ s.requests, r.OfMove remote
  acks : ∀ a ∈ s.acks, a.OfMove remote

/-- What happens on the local disk happens on a disk of the move, or on the other. -/
theorem atMostRmDir_update {os : Os X} {side : Bool} {x : X}
    (h : remote = side → os.AtMostRmDir (s.disks side) x) :
    os.AtMostRmDir (s.disks remote) (Function.update s.disks side x remote) := by
  by_cases hr : remote = side
  · subst hr
    rw [Function.update_self]
    exact h rfl
  · rw [Function.update_of_ne hr]
    exact .inl rfl

/-- **Whatever is worked is of the move**, and on the disk of the folders deletes at most one of them. -/
theorem OfMove.step (h : s.OfMove remote) (hworks : Works S s s') :
    s'.OfMove remote ∧ (S.os remote).AtMostRmDir (s.disks remote) (s'.disks remote) := by
  obtain ⟨htasks, hrequests, hacks⟩ := h
  cases hworks with
  | @userLoop t q r x hcan hfirst hexec =>
    obtain ⟨hq, hr, hx⟩ := ofMove_reqFirst htasks (ends_of_exec hexec)
    refine ⟨⟨hq, fun p hp => ?_, hacks⟩, atMostRmDir_update fun hlocal => .inl (hx hlocal)⟩
    rcases List.mem_append.mp hp with hp | hp
    · exact hrequests p hp
    · exact hr p (Option.mem_toList.mp hp)
  | @serve r rest a x hreq hexec =>
    have hr := hrequests r (hreq ▸ List.mem_cons_self)
    obtain ⟨ha, hx⟩ := ofMove_echo hr (ends_of_exec hexec)
    refine ⟨⟨htasks, fun p hp => hrequests p (hreq ▸ List.mem_cons_of_mem _ hp), fun b hb => ?_⟩,
      atMostRmDir_update fun hremote => ?_⟩
    · rcases List.mem_append.mp hb with hb | hb
      · exact hacks b hb
      · exact List.mem_singleton.mp hb ▸ ha
    · exact hremote ▸ hx hremote
  | @read a rest q x hack hexec =>
    obtain ⟨hq, hx⟩ := ofMove_ack htasks rfl (hacks a (hack ▸ List.mem_cons_self)) (ends_of_exec hexec)
    refine ⟨⟨hq, hrequests, fun b hb => hacks b (hack ▸ List.mem_cons_of_mem _ hb)⟩,
      atMostRmDir_update fun hlocal => .inl (hx hlocal)⟩
  | @localLoop t q x hfirst hexec =>
    obtain ⟨hq, hx⟩ := ofMove_local htasks rfl (ends_of_exec hexec)
    exact ⟨⟨hq, hrequests, hacks⟩, atMostRmDir_update fun hlocal => hlocal ▸ hx hlocal⟩

/-- **What deleting a folder leaves on a disk, a move leaves there.** -/
theorem stays_of_run {P : X → Prop} (hP : ∀ path x, P x → P ((S.os remote).opRmDir path x).2)
    (htasks : q.OfMove remote) (hx : P (disks remote)) (hrun : Run (Step S) (ready q disks) es s) :
    P (s.disks remote) := by
  have h₀ : (ready q disks).quiet.OfMove remote :=
    ⟨htasks, fun r hr => (by cases hr), fun a ha => (by cases ha)⟩
  obtain ⟨es', hrun', -, -⟩ := works_of_run hrun
  refine (hrun'.invariant (I := fun s => s.OfMove remote ∧ P (s.disks remote)) ⟨h₀, hx⟩ ?_).2
  rintro s e s' ⟨h, hs⟩ ⟨hworks, -⟩
  obtain ⟨h', hdisk | ⟨path, hdisk⟩⟩ := h.step hworks
  · exact ⟨h', hdisk ▸ hs⟩
  · exact ⟨h', hdisk ▸ hP path _ hs⟩

end Sides

end EuhatExpert
