import EuhatExpert.FileMan.Engines

/-!
# FileMan/ConnectTasks — the engines leave tasks to connect alone

An engine takes a task out of the queue, or adds one, only where it has cast it to a class of its own, and
`FmTaskConnect` is none of them.  So their steps, and what the user adds, keep the number of connect tasks
(`kept_step`).
-/

namespace EuhatExpert

open Machinery TraceM

namespace FmScheduler

/-- The connect tasks in the queue. -/
def connects (q : FmScheduler) : ℕ := q.tasks_.countP FmTask.isConnect

/-- The refresh task is no connect task. -/
def RefreshPlain (q : FmScheduler) : Prop := ∀ t ∈ q.refreshSubListTask_, t.isConnect = false

/-- As many connect tasks as before, and still none aside. -/
def Keeps (q q' : FmScheduler) : Prop := q.RefreshPlain → q'.RefreshPlain ∧ q'.connects = q.connects

/-- No connect task has the id. -/
def PlainAt (q : FmScheduler) (id : ℤ) : Prop := ∀ t ∈ q.tasks_, t.id_ = id → t.isConnect = false

variable {q q' q'' : FmScheduler} {t u : FmTask} {body : FmTask.Body} {id : ℤ}

/-- Nothing done keeps them, -/
theorem Keeps.refl (q : FmScheduler) : Keeps q q := fun h => ⟨h, rfl⟩

/-- and so does one thing after another. -/
theorem Keeps.trans (h : Keeps q q') (h' : Keeps q' q'') : Keeps q q'' := fun hq =>
  ⟨(h' (h hq).1).1, (h' (h hq).1).2.trans (h hq).2⟩

/-- A task is a connect task if its body is. -/
theorem isConnect_draw (q : FmScheduler) (h : body ≠ .connect) : (q.draw body).isConnect = false := by
  cases body with
  | connect => exact absurd rfl h
  | _ => rfl

/-- `add` adds a connect task where it is given one. -/
theorem connects_add (q : FmScheduler) (body : FmTask.Body) :
    (q.add body).connects = q.connects + if (q.draw body).isConnect then 1 else 0 := by
  rw [connects, tasks_add, (insertStable_perm (q.draw body) q.tasks_).countP_eq, List.countP_cons]
  rfl

/-- Any other task keeps them, -/
theorem keeps_add (h : body ≠ .connect) : Keeps q (q.add body) := fun hq => by
  refine ⟨hq, ?_⟩
  rw [connects_add, isConnect_draw q h]
  rfl

/-- and so do many. -/
theorem keeps_addAll {bodies : List FmTask.Body} (h : ∀ body ∈ bodies, body ≠ .connect) :
    Keeps q (bodies.foldl FmScheduler.add q) := by
  induction bodies generalizing q with
  | nil => exact .refl q
  | cons body bodies ih =>
    exact (keeps_add (h body List.mem_cons_self)).trans (ih fun b hb => h b (List.mem_cons_of_mem _ hb))

/-- What is taken out is no connect task. -/
theorem countP_eraseP (p : FmTask → Bool) : ∀ {l : List FmTask}, (∀ t ∈ l, p t = true → t.isConnect = false) →
    (l.eraseP p).countP FmTask.isConnect = l.countP FmTask.isConnect
  | [], _ => rfl
  | t :: l, h => by
    cases hp : p t with
    | true =>
      rw [List.eraseP_cons_of_pos hp, List.countP_cons, h t List.mem_cons_self hp]
      rfl
    | false =>
      rw [List.eraseP_cons_of_neg (by rw [hp]; decide), List.countP_cons, List.countP_cons,
        countP_eraseP p fun u hu => h u (List.mem_cons_of_mem _ hu)]

/-- A connect task is taken out. -/
theorem connects_remove (ht : t ∈ q.tasks_) (hconnect : t.isConnect = true) :
    (q.remove t.id_).connects + 1 = q.connects := by
  obtain ⟨u, l₁, l₂, -, hid, htasks, herase⟩ :=
    List.exists_of_eraseP (p := fun u => decide (u.id_ = t.id_)) ht (decide_eq_true rfl)
  have hu : u ∈ q.tasks_ := by
    rw [htasks]
    exact List.mem_append_right _ List.mem_cons_self
  obtain rfl := eq_of_id_eq hu ht (of_decide_eq_true hid)
  rw [connects, connects, tasks_remove, herase, htasks, List.countP_append, List.countP_append,
    List.countP_cons_of_pos hconnect]
  rfl

/-- What an engine is done with is no connect task, -/
theorem keeps_remove (h : q.PlainAt id) : Keeps q (q.remove id) := fun hq =>
  ⟨hq, countP_eraseP _ fun t ht hid => h t ht (of_decide_eq_true hid)⟩

/-- nor does `cleanError` take one. -/
theorem keeps_cleanError (q : FmScheduler) : Keeps q q.cleanError := fun hq =>
  ⟨hq, countP_eraseP _ fun _ _ hfailed => (of_decide_eq_true hfailed).2⟩

/-- The refresh task is none. -/
theorem keeps_fmscOnRefresh (q : FmScheduler) : Keeps q q.fmscOnRefresh := by
  intro hq
  unfold FmScheduler.fmscOnRefresh
  split_ifs with hnil
  · refine ⟨fun _ ht => (by cases ht), ?_⟩
    rw [connects, connects, hnil]
    exact List.countP_eq_zero.mpr fun t ht => by
      rw [hq t (Option.mem_toList.mp ht)]
      decide
  · exact ⟨hq, rfl⟩

/-- What is written back is a connect task where the one it is written over is. -/
theorem connects_write (ht : t ∈ q.tasks_) (hid : u.id_ = t.id_) (h : u.isConnect = t.isConnect) :
    (q.write u).connects = q.connects := by
  rw [connects, connects, tasks_write, List.countP_map]
  refine List.countP_congr fun v hv => ?_
  rw [Function.comp_apply]
  split_ifs with hvu
  · rw [h, eq_of_id_eq hv ht (hvu.trans hid)]
  · rfl

/-- What an engine writes back is what it was. -/
theorem keeps_write (ht : t ∈ q.tasks_) (hid : u.id_ = t.id_) (h : u.isConnect = t.isConnect) :
    Keeps q (q.write u) :=
  fun hq => ⟨hq, connects_write ht hid h⟩

/-- An id tells what a task is. -/
theorem plainAt_of_get (hget : q.get id = some t) (ht : t.isConnect = false) : q.PlainAt id := by
  intro u hu hid
  obtain ⟨hmem, hid'⟩ := mem_of_get hget
  rwa [eq_of_id_eq hu hmem (hid.trans hid'.symm)]

/-- It stays so when the task is written back. -/
theorem PlainAt.write (h : q.PlainAt id) (hu : u.isConnect = false) : (q.write u).PlainAt id := by
  intro v hv hid
  obtain rfl | hv := mem_write hv
  · exact hu
  · exact h v hv hid

/-- Nothing a listing adds is a connect task. -/
theorem bodies_ne_connect (loop : FmLoop) (d : FmTaskGetSubList) (l : SubList) :
    ∀ body ∈ l.bodies loop d, body ≠ .connect := by
  intro body hbody hconnect
  subst hconnect
  rcases List.mem_append.mp hbody with hbody | hbody
  · obtain ⟨e, -, he⟩ := List.mem_flatMap.mp hbody
    cases e with
    | folder name =>
      rw [SubEntry.bodies] at he
      cases haction : d.action_
      all_goals
        rw [haction] at he
        simp at he
    | file name size lastWriteTime =>
      rw [SubEntry.bodies] at he
      cases haction : d.action_ with
      | ActionDownUp =>
        rw [haction] at he
        dsimp only at he
        split_ifs at he
        all_goals simp at he
      | _ => simp [haction] at he
  · rw [SubList.lastBodies] at hbody
    rcases List.mem_append.mp hbody with hbody | hbody
    · split_ifs at hbody
      · cases List.mem_singleton.mp hbody
      · cases hbody
    · split_ifs at hbody
      · cases List.mem_singleton.mp hbody
      · cases hbody

/-- **A listing adds no connect task**, whatever the peer says is in the folder. -/
theorem keeps_dispatch (loop : FmLoop) (task : FmTask) (bytes : Bytes) (q : FmScheduler) :
    Keeps q (dispatchSubListBytes loop task bytes q) := by
  rw [dispatchSubListBytes]
  split
  · rename_i d l hcast hread
    rw [dispatchSubList]
    split_ifs
    · exact .refl q
    · exact keeps_addAll (bodies_ne_connect loop d l)
  · exact .refl q

/-- No task is lost when others are added. -/
theorem mem_addAll (ht : t ∈ q.tasks_) : ∀ bodies : List FmTask.Body,
    t ∈ (bodies.foldl FmScheduler.add q).tasks_ := by
  intro bodies
  induction bodies generalizing q with
  | nil => exact ht
  | cons body bodies ih => exact ih (mem_insertStable.mpr (.inr ht))

/-- A listing takes no task out. -/
theorem mem_dispatch (ht : t ∈ q.tasks_) (loop : FmLoop) (task : FmTask) (bytes : Bytes) :
    t ∈ (dispatchSubListBytes loop task bytes q).tasks_ := by
  rw [dispatchSubListBytes]
  split
  · rw [dispatchSubList]
    split_ifs
    · exact ht
    · exact mem_addAll ht _
  · exact ht

end FmScheduler

/-! ## What the engines do -/

open FmScheduler

/-- A task cast to a class of its own is no connect task. -/
theorem FmTask.isConnect_of_cast {α : Type} {cast : FmTask → Option α}
    (hcast : ∀ id result, cast ⟨id, result, .connect⟩ = none) {t : FmTask} {a : α} (h : cast t = some a) :
    t.isConnect = false := by
  obtain ⟨id, result, body⟩ := t
  cases body with
  | connect =>
    rw [hcast] at h
    cases h
  | _ => rfl

section Handlers

variable {L : Type} {os : Os L} {q q' : FmScheduler} {l l' : L}

/-- The answer to a deletion or a creation takes its task away, or fails it. -/
theorem keeps_settle {α : Type} {cast : FmTask → Option α}
    (hcast : ∀ id result, cast ⟨id, result, .connect⟩ = none) (a : NodeAck) : Keeps q (q.settle cast a) := by
  rw [settle]
  split
  · exact .refl q
  · rename_i task x hget
    obtain ⟨hget, hx⟩ := getAs_some hget
    split_ifs
    · exact keeps_remove (plainAt_of_get hget (FmTask.isConnect_of_cast hcast hx))
    · exact keeps_write (mem_of_get hget).1 rfl rfl

/-- The answer to an upload keeps them, -/
theorem keeps_up (a : UpAck) : Keeps q (FmcUpFile.ack a q) := by
  rw [FmcUpFile.ack]
  split
  · exact .refl q
  · rename_i task t hget
    obtain ⟨hget, hcast⟩ := getAs_some hget
    have hmem := (mem_of_get hget).1
    have hplain := @FmTask.isConnect_of_cast _ FmTask.asUpload (fun _ _ => rfl) _ _ hcast
    have hagain : Keeps q (q.write (task.setDownload { t with offset_ := a.filePos })) :=
      keeps_write hmem (FmTask.id_setDownload _ _) (FmTask.isConnect_setDownload _ _)
    dsimp only
    split_ifs
    · exact keeps_write hmem (FmTask.id_setDownload _ _) (FmTask.isConnect_setDownload _ _)
    · exact hagain.trans (keeps_remove ((plainAt_of_get hget hplain).write (by simp [hplain])))
    · exact hagain
    · exact keeps_write hmem (FmTask.id_setDownload _ _) (FmTask.isConnect_setDownload _ _)

/-- that to a download, -/
theorem keeps_down {a : DownAck} (hends : Ends (FmcDownFile.ack os a q) l q' l') : Keeps q q' := by
  rw [FmcDownFile.ack] at hends
  split at hends
  · obtain ⟨rfl, -⟩ := ends_pure hends
    exact .refl _
  · rename_i task t hget
    obtain ⟨hget, hcast⟩ := getAs_some hget
    have hmem := (mem_of_get hget).1
    have hplain := @FmTask.isConnect_of_cast _ FmTask.asDownload (fun _ _ => rfl) _ _ hcast
    obtain ⟨⟨offset, result⟩, l₁, -, hends⟩ := hends.bind
    have hagain : Keeps q (q.write (task.setDownload { t with offset_ := offset })) :=
      keeps_write hmem (FmTask.id_setDownload _ _) (FmTask.isConnect_setDownload _ _)
    dsimp only at hends
    split_ifs at hends
    · obtain ⟨_, _, _, hends⟩ := hends.bind
      obtain ⟨rfl, -⟩ := ends_pure hends
      exact hagain.trans (keeps_remove ((plainAt_of_get hget hplain).write (by simp [hplain])))
    · obtain ⟨rfl, -⟩ := ends_pure hends
      exact hagain
    · obtain ⟨rfl, -⟩ := ends_pure hends
      exact keeps_write hmem (FmTask.id_setDownload _ _) (FmTask.isConnect_setDownload _ _)

/-- and that to a listing. -/
theorem keeps_list (loop : FmLoop) (a : ListAck) :
    Keeps q (FmcPeerFileList.ack (dispatchSubListBytes loop) a q) := by
  rw [FmcPeerFileList.ack]
  split
  · exact .refl q
  · rename_i task t hget
    obtain ⟨hget, hcast⟩ := getAs_some hget
    split_ifs
    · have hplain := @FmTask.isConnect_of_cast _ FmTask.asGetSubList (fun _ _ => rfl) _ _ hcast
      exact (keeps_remove (plainAt_of_get hget hplain)).trans (keeps_dispatch loop task _ _)
    · exact keeps_write (mem_of_get hget).1 rfl rfl

/-- **An answer leaves the connect tasks.** -/
theorem keeps_ack {loop : FmLoop} {a : FmAck}
    (hends : Ends (FileManClient.ack os (dispatchSubListBytes loop) a q) l q' l') : Keeps q q' := by
  cases a with
  | down a => exact keeps_down hends
  | up a =>
    obtain ⟨rfl, -⟩ := ends_pure hends
    exact keeps_up a
  | list a =>
    obtain ⟨rfl, -⟩ := ends_pure hends
    exact keeps_list loop a
  | del a =>
    obtain ⟨rfl, -⟩ := ends_pure hends
    exact keeps_settle (fun _ _ => rfl) a
  | new a =>
    obtain ⟨rfl, -⟩ := ends_pure hends
    exact keeps_settle (fun _ _ => rfl) a

/-- A request leaves its task of the type it is of. -/
theorem isConnect_req {task task' : FmTask} {r : Option FmReq}
    (hends : Ends (FileManClient.req os task) l (task', r) l') : task'.isConnect = task.isConnect := by
  obtain rfl | rfl | ⟨d, rfl⟩ := FileManClient.req_cases hends
  · rfl
  · rfl
  · exact FmTask.isConnect_setDownload task d

/-- What is asked for keeps them. -/
theorem keeps_reqFirst {r : Option FmReq} (hends : Ends (FileManClient.reqFirst os q) l (q', r) l') :
    Keeps q q' := by
  rw [FileManClient.reqFirst] at hends
  split at hends
  · obtain ⟨rfl, -⟩ := Prod.mk.inj (ends_pure hends).1
    exact .refl _
  · rename_i task hfirst
    obtain ⟨⟨task', r'⟩, l₁, hreq, hends⟩ := hends.bind
    obtain ⟨rfl, -⟩ := Prod.mk.inj (ends_pure hends).1
    exact keeps_write (mem_of_getFirst hfirst) (FileManClient.id_req hreq) (isConnect_req hreq)

/-- **The local engine leaves the connect tasks.** -/
theorem keeps_local {loop : FmLoop} (hends : Ends (FmLocal.onUserLoop os (dispatchSubListBytes loop) q) l q' l') :
    Keeps q q' := by
  rw [FmLocal.onUserLoop] at hends
  split at hends
  · obtain ⟨rfl, -⟩ := ends_pure hends
    exact .refl _
  · rename_i task hfirst
    have hmem := mem_of_getFirst hfirst
    have hwrite : ∀ {result : ℤ}, Keeps q (q.write { task with result_ := result }) := keeps_write hmem rfl rfl
    have hremove : task.isConnect = false → ∀ {q₁ : FmScheduler}, task ∈ q₁.tasks_ →
        Keeps q₁ (q₁.remove task.id_) := fun hplain q₁ hmem₁ =>
      keeps_remove fun t ht hid => by rwa [eq_of_id_eq ht hmem₁ hid]
    split at hends
    · rename_i t hbody
      obtain ⟨rfl, -⟩ := (FmLocal.onGetSubList_yields t).eq_of_ends hends
      split
      · exact hwrite
      · exact (keeps_dispatch loop task _ q).trans
          (hremove (by rw [FmTask.isConnect, hbody]) (mem_dispatch hmem loop task _))
    · rename_i t hbody
      obtain ⟨rfl, -⟩ := (FmLocal.onDelFile_yields t).eq_of_ends hends
      split_ifs
      · exact hremove (by rw [FmTask.isConnect, hbody]) hmem
      · exact hwrite
    · rename_i t hbody
      obtain ⟨rfl, -⟩ := (FmLocal.onNewFile_yields t).eq_of_ends hends
      split_ifs
      · exact hwrite
      · exact hremove (by rw [FmTask.isConnect, hbody]) hmem
    · obtain ⟨rfl, -⟩ := ends_pure hends
      exact .refl _

end Handlers

namespace Engines

variable {L : Type} {S : Setup L} {s s' : Engines L} {e : Event}

/-- The user neither adds a task to connect nor clears the queue. -/
def Event.LeavesConnects : Event → Prop
  | .user (.add body) => body ≠ .connect
  | .user .cleanAll => False
  | _ => True

/-- **A step of the engines or the user leaves the connect tasks.** -/
theorem kept_step (hstep : Step S s e s') (he : e.LeavesConnects) : Keeps s.scheduler_ s'.scheduler_ := by
  cases hstep with
  | @userLoop c r l hexec =>
    rw [FileManClient.onUserLoop] at hexec
    split_ifs at hexec
    · obtain ⟨⟨q, r'⟩, l₁, hreq, hends⟩ := (ends_of_exec hexec).bind
      obtain ⟨rfl, -⟩ := Prod.mk.inj (ends_pure hends).1
      exact keeps_reqFirst hreq
    · obtain ⟨rfl, -⟩ := Prod.mk.inj (ends_pure (ends_of_exec hexec)).1
      exact .refl _
  | serve a hrequests => exact .refl _
  | @read a rest c l hacks hexec =>
    obtain ⟨q, l₁, hack, hends⟩ := (ends_of_exec hexec).bind
    obtain ⟨rfl, -⟩ := ends_pure hends
    exact keeps_ack hack
  | timer => exact .refl _
  | @localLoop q l hexec => exact keeps_local (ends_of_exec hexec)
  | user c =>
    cases c with
    | add body => exact keeps_add he
    | addRefreshTask isPeer t => exact fun _ => ⟨fun u hu => Option.mem_some_iff.mp hu ▸ rfl, rfl⟩
    | fmscOnRefresh => exact keeps_fmscOnRefresh _
    | cleanError => exact keeps_cleanError _
    | cleanAll => exact he.elim

end Engines

end EuhatExpert
