import EuhatExpert.FileMan.Sides

/-!
# FileMan/UserLoops — no engine waits for a message that nobody has posted

An engine looks for a task only when it handles a `JY_MSG_TYPE_USER_LOOP`.  It posts itself one with every task
that it is through with, and `dispatchSubList` posts one to both with the tasks it adds.  So an engine that has
a task, and for the client the right to send, has a message, too (`awake_of_acts`), and a run that stops has
nothing left that could be done (`not_works_of_run`).
-/

namespace EuhatExpert

open Machinery TraceM

/-! ## Tasks that were there -/

namespace FmScheduler

/-- The tasks of `q'` are for engines that had one in `q`. -/
def Within (q q' : FmScheduler) : Prop := ∀ t ∈ q'.tasks_, ∃ u ∈ q.tasks_, u.isLocal = t.isLocal

variable {q q' q'' : FmScheduler} {t u : FmTask}

/-- A queue is within itself. -/
theorem Within.refl (q : FmScheduler) : Within q q := fun t ht => ⟨t, ht, rfl⟩

theorem Within.trans (h : Within q q') (h' : Within q' q'') : Within q q'' := by
  intro t ht
  obtain ⟨u, hu, hut⟩ := h' t ht
  obtain ⟨v, hv, hvu⟩ := h u hu
  exact ⟨v, hv, hvu.trans hut⟩

/-- A task that is taken away, -/
theorem within_remove (id : ℤ) : Within q (q.remove id) := fun t ht => ⟨t, List.eraseP_sublist.subset ht, rfl⟩

/-- or written back, brings none. -/
theorem within_write (ht : t ∈ q.tasks_) (hu : t.isLocal = u.isLocal) : Within q (q.write u) := by
  intro v hv
  rcases mem_write hv with rfl | hv
  · exact ⟨t, ht, hu⟩
  · exact ⟨v, hv, rfl⟩

/-- **Where no task failed, an engine that has a task gets one.** -/
theorem getFirst_ne_none_iff (hok : ∀ t ∈ q.tasks_, t.result_ = FmResultOk) {isRemoteTask : Bool} :
    q.getFirst isRemoteTask ≠ none ↔ ∃ t ∈ q.tasks_, (t.isLocal != isRemoteTask) = true := by
  constructor
  · intro h
    obtain ⟨t, ht⟩ := Option.ne_none_iff_exists'.mp h
    exact ⟨t, mem_of_getFirst ht, isLocal_of_getFirst ht⟩
  · rintro ⟨t, ht, hmine⟩
    obtain ⟨front, rest, htasks⟩ := List.exists_cons_of_ne_nil (List.ne_nil_of_mem ht)
    have hsome := getFirst_isSome htasks (hok front (htasks ▸ List.mem_cons_self)) ht hmine
    exact Option.isSome_iff_ne_none.mp hsome

/-- What an engine finds in a queue, it would find in the larger one. -/
theorem Within.getFirst (h : Within q q') (hok : ∀ t ∈ q.tasks_, t.result_ = FmResultOk)
    {isRemoteTask : Bool} (hsome : q'.getFirst isRemoteTask ≠ none) : q.getFirst isRemoteTask ≠ none := by
  obtain ⟨t, ht⟩ := Option.ne_none_iff_exists'.mp hsome
  obtain ⟨u, hu, hut⟩ := h t (mem_of_getFirst ht)
  exact (getFirst_ne_none_iff hok).mpr ⟨u, hu, hut ▸ isLocal_of_getFirst ht⟩

end FmScheduler

namespace Sides

open FmScheduler

variable {X : Type} {q q' : FmScheduler} {x x' : X} {loop : FmLoop} {task : FmTask} {bytes : Bytes}

/-- Without `notifyEngine`, `dispatchSubList` adds nothing. -/
theorem dispatchSubListBytes_of_not_notifies (h : notifiesEngine task bytes = false) :
    dispatchSubListBytes loop task bytes q = q := by
  rw [notifiesEngine] at h
  rw [dispatchSubListBytes]
  split at h
  · rename_i t l htask hread
    have hview : t.action_ = .ActionInformUi := by simpa using h
    rw [dispatchSubList, if_pos hview]
  · rfl

/-- The answer to a deletion or a creation brings none. -/
theorem within_settle {α : Type} (cast : FmTask → Option α) (a : NodeAck) : Within q (q.settle cast a) := by
  rw [settle]
  split
  · exact .refl q
  · rename_i task t hget
    split_ifs
    · exact within_remove _
    · exact within_write (mem_of_get (getAs_some hget).1).1 rfl

/-- **An answer that tells nobody adds no tasks.** -/
theorem within_ack {os : Os X} {a : FmAck} (hnotifies : FileManClient.notifiesEngine notifiesEngine a q = false)
    (hends : Ends (FileManClient.ack os (dispatchSubListBytes loop) a q) x q' x') : Within q q' := by
  cases a with
  | down a =>
    change Ends (FmcDownFile.ack os a q) x q' x' at hends
    rw [FmcDownFile.ack] at hends
    split at hends
    · obtain ⟨rfl, -⟩ := ends_pure hends
      exact .refl _
    · rename_i task t hget
      have hmem : task ∈ q.tasks_ := (mem_of_get (getAs_some hget).1).1
      obtain ⟨⟨offset, result⟩, x₁, -, hends⟩ := hends.bind
      have hkept := (FmTask.isLocal_setDownload task { t with offset_ := offset }).symm
      dsimp only at hends
      split_ifs at hends
      · obtain ⟨_, _, _, hends⟩ := hends.bind
        obtain ⟨rfl, -⟩ := ends_pure hends
        exact (within_write hmem hkept).trans (within_remove _)
      · obtain ⟨rfl, -⟩ := ends_pure hends
        exact within_write hmem hkept
      · obtain ⟨rfl, -⟩ := ends_pure hends
        exact within_write hmem hkept
  | up a =>
    obtain ⟨rfl, -⟩ := ends_pure hends
    rw [FmcUpFile.ack]
    split
    · exact .refl q
    · rename_i task t hget
      have hmem := (mem_of_get (getAs_some hget).1).1
      have hkept := (FmTask.isLocal_setDownload task { t with offset_ := a.filePos }).symm
      dsimp only
      split_ifs
      · exact within_write hmem hkept
      · exact (within_write hmem hkept).trans (within_remove _)
      · exact within_write hmem hkept
      · exact within_write hmem hkept
  | list a =>
    obtain ⟨rfl, -⟩ := ends_pure hends
    rw [FileManClient.notifiesEngine] at hnotifies
    rw [FmcPeerFileList.ack]
    cases hget : q.getAs FmTask.asGetSubList a.id with
    | none => exact .refl q
    | some found =>
      obtain ⟨task, t⟩ := found
      rw [hget] at hnotifies
      dsimp only at hnotifies ⊢
      split_ifs with hisOk
      · rw [hisOk, Bool.true_and] at hnotifies
        rw [dispatchSubListBytes_of_not_notifies hnotifies]
        exact within_remove _
      · exact within_write (mem_of_get (getAs_some hget).1).1 rfl
  | del a =>
    obtain ⟨rfl, -⟩ := ends_pure hends
    exact within_settle _ a
  | new a =>
    obtain ⟨rfl, -⟩ := ends_pure hends
    exact within_settle _ a

/-- A task keeps its side when it is asked for, -/
theorem isLocal_req {os : Os X} {task' : FmTask} {r : Option FmReq}
    (hends : Ends (FileManClient.req os task) x (task', r) x') : task'.isLocal = task.isLocal := by
  obtain rfl | rfl | ⟨d, rfl⟩ := FileManClient.req_cases hends
  · rfl
  · rfl
  · exact FmTask.isLocal_setDownload task d

/-- so what is asked for brings none. -/
theorem within_reqFirst {os : Os X} {r : Option FmReq}
    (hends : Ends (FileManClient.reqFirst os q) x (q', r) x') : Within q q' := by
  rw [FileManClient.reqFirst] at hends
  split at hends
  · obtain ⟨rfl, -⟩ := Prod.mk.inj (ends_pure hends).1
    exact .refl _
  · rename_i task hfirst
    obtain ⟨⟨task', r'⟩, x₁, hreq, hends⟩ := hends.bind
    obtain ⟨rfl, -⟩ := Prod.mk.inj (ends_pure hends).1
    exact within_write (mem_of_getFirst hfirst) (isLocal_req hreq).symm

/-- The task the local engine gets is settled, and a message posted, unless it failed or is a copy. -/
theorem within_local {os : Os X} {t : FmTask} (hfirst : q.getFirst false = some t)
    (hcopy : ∀ d, t.body ≠ .copy false d)
    (hends : Ends (FmLocal.onUserLoop os (dispatchSubListBytes loop) q) x q' x') :
    (FmLocal.notifiesEngine os notifiesEngine q x = false → Within q q') ∧
      ((∀ u ∈ q'.tasks_, u.result_ = FmResultOk) → FmLocal.postsUserLoop os q x = true) := by
  have hmem := mem_of_getFirst hfirst
  have hlocal : t.isLocal = true := by simpa using isLocal_of_getFirst hfirst
  rw [FmLocal.onUserLoop, hfirst] at hends
  rw [FmLocal.notifiesEngine, FmLocal.postsUserLoop, hfirst]
  obtain ⟨id, result, body⟩ := t
  cases body with
  | getSubList isPeer l =>
    cases isPeer with
    | true => cases hlocal
    | false =>
      obtain ⟨rfl, -⟩ := (FmLocal.onGetSubList_yields l).eq_of_ends hends
      dsimp only
      cases os.whGetSubFiles l.path_ x with
      | none =>
        refine ⟨fun _ => within_write hmem rfl, fun hok => ?_⟩
        have hwritten : (⟨id, FmResultFailed, .getSubList false l⟩ : FmTask)
            ∈ (q.write ⟨id, FmResultFailed, .getSubList false l⟩).tasks_ :=
          List.mem_map.mpr ⟨_, hmem, if_pos rfl⟩
        exact absurd (hok _ hwritten) (show FmResultFailed ≠ FmResultOk by decide)
      | some bytes =>
        refine ⟨fun hnotifies => ?_, fun _ => rfl⟩
        dsimp only
        rw [dispatchSubListBytes_of_not_notifies hnotifies]
        exact within_remove _
  | del isPeer d =>
    cases isPeer with
    | true => cases hlocal
    | false =>
      obtain ⟨rfl, -⟩ := (FmLocal.onDelFile_yields d).eq_of_ends hends
      refine ⟨fun _ => ?_, fun _ => rfl⟩
      split_ifs
      · exact within_remove _
      · exact within_write hmem rfl
  | new isPeer d =>
    cases isPeer with
    | true => cases hlocal
    | false =>
      obtain ⟨rfl, -⟩ := (FmLocal.onNewFile_yields d).eq_of_ends hends
      refine ⟨fun _ => ?_, fun _ => rfl⟩
      split_ifs
      · exact within_write hmem rfl
      · exact within_remove _
  | copy isPeer d =>
    cases isPeer with
    | true => cases hlocal
    | false => exact absurd rfl (hcopy d)
  | connect | download d | upload d => cases hlocal

/-! ## Messages that wait -/

/-- An engine that has a task, and the client besides the right to send, has a message. -/
structure Awake (s : Sides X) : Prop where
  client : s.client.canSend_ = true → s.scheduler_.getFirst true ≠ none → 0 < s.client.userLoops
  localEngine : s.scheduler_.getFirst false ≠ none → 0 < s.localLoops

/-- No task failed, and none is a copy that is left where it is. -/
def Served (s : Sides X) : Prop := ∀ t ∈ s.tasks_, t.result_ = FmResultOk ∧ ∀ d, t.body ≠ .copy false d

variable {S : Setup X} {s s' : Sides X}

/-- A queue that was just filled is told to the engines, -/
theorem awake_ready (q : FmScheduler) (disks : Bool → X) : (ready q disks).Awake :=
  ⟨fun _ _ => Nat.succ_pos _, fun _ => Nat.succ_pos _⟩

/-- and so is one that `notifyEngine` is called for. -/
theorem awake_notifyEngine (s : Sides X) : s.notifyEngine.Awake :=
  ⟨fun _ _ => Nat.succ_pos _, fun _ => Nat.succ_pos _⟩

/-- **Where no task fails, no engine waits for a message that nobody has posted.** -/
theorem awake_of_acts (h : s.Awake) (hserved : s.Served) (hserved' : s'.Served) (hacts : Acts S s s') : s'.Awake := by
  have hok : ∀ t ∈ s.scheduler_.tasks_, t.result_ = FmResultOk := fun t ht => (hserved t ht).1
  cases hacts with
  | @userLoop n c r x hloops hexec =>
    by_cases hidle : s.client.canSend_ = true → s.scheduler_.getFirst true = none
    · rw [onUserLoop_client_idle (c := { s.client with userLoops := n }) hidle] at hexec
      obtain ⟨hcr, rfl⟩ := Prod.mk.inj (Option.some.inj hexec)
      obtain ⟨rfl, rfl⟩ := Prod.mk.inj hcr
      exact ⟨fun hcan hsome => absurd (hidle hcan) hsome, h.localEngine⟩
    · rw [Classical.not_imp] at hidle
      obtain ⟨hcan, hsome⟩ := hidle
      obtain ⟨t, hfirst⟩ := Option.ne_none_iff_exists'.mp hsome
      rw [exec_onUserLoop_client (c := { s.client with userLoops := n }) hcan hfirst] at hexec
      obtain ⟨⟨⟨q, r'⟩, x'⟩, hreq, heq⟩ := Option.map_eq_some_iff.mp hexec
      obtain ⟨hcr, rfl⟩ := Prod.mk.inj heq
      obtain ⟨rfl, rfl⟩ := Prod.mk.inj hcr
      have hwithin := within_reqFirst (ends_of_exec hreq)
      exact ⟨fun hcan => absurd hcan Bool.false_ne_true, fun hsome => h.localEngine (hwithin.getFirst hok hsome)⟩
  | serve hreq hexec => exact ⟨h.client, h.localEngine⟩
  | @read s₁ a rest c x hacks hexec hs₁ =>
    rw [exec_onRead_client] at hexec
    obtain ⟨⟨q, x'⟩, hack, heq⟩ := Option.map_eq_some_iff.mp hexec
    obtain ⟨rfl, rfl⟩ := Prod.mk.inj heq
    cases hnotifies : FileManClient.notifiesEngine notifiesEngine a s.scheduler_ with
    | true =>
      rw [if_pos rfl]
      exact awake_notifyEngine s₁
    | false =>
      have hwithin := within_ack hnotifies (ends_of_exec hack)
      rw [if_neg Bool.false_ne_true, hs₁]
      exact ⟨fun _ _ => Nat.succ_pos _, fun hsome => h.localEngine (hwithin.getFirst hok hsome)⟩
  | @localLoop s₁ n q x hloops hexec hs₁ =>
    cases hfirst : s.scheduler_.getFirst false with
    | none =>
      rw [FmLocal.onUserLoop, hfirst] at hexec
      obtain ⟨rfl, rfl⟩ := Prod.mk.inj (Option.some.inj (hexec.symm.trans (exec_pure _ _)))
      have hnotifies : FmLocal.notifiesEngine (S.os false) notifiesEngine s.scheduler_ (s.disks false) = false := by
        rw [FmLocal.notifiesEngine, hfirst]
      rw [hnotifies, if_neg Bool.false_ne_true, hs₁]
      exact ⟨h.client, fun hsome => absurd hfirst hsome⟩
    | some t =>
      have hcopy := (hserved t (mem_of_getFirst hfirst)).2
      obtain ⟨hwithin, hposts⟩ := within_local hfirst hcopy (ends_of_exec hexec)
      cases hnotifies : FmLocal.notifiesEngine (S.os false) notifiesEngine s.scheduler_ (s.disks false) with
      | true =>
        rw [if_pos rfl]
        exact awake_notifyEngine s₁
      | false =>
        have hq : ∀ u ∈ q.tasks_, u.result_ = FmResultOk := by
          intro u hu
          refine (hserved' u ?_).1
          rw [hnotifies, if_neg Bool.false_ne_true, hs₁]
          exact hu
        rw [if_neg Bool.false_ne_true, hs₁]
        refine ⟨fun hcan hsome => h.client hcan ((hwithin hnotifies).getFirst hok hsome), fun _ => ?_⟩
        rw [hposts hq, if_pos rfl]
        exact Nat.succ_pos n

/-- **Work that can be done is done.** -/
theorem exists_acts (h : s.Awake) (hworks : Works S s s') : ∃ s₁, Acts S s s₁ := by
  cases hworks with
  | @userLoop t q r x hcan hfirst hexec =>
    have hpos := h.client hcan (hfirst ▸ Option.some_ne_none t)
    obtain ⟨n, hn⟩ := Nat.exists_eq_succ_of_ne_zero hpos.ne'
    have hhandled := exec_onUserLoop_client (S := S) (c := { s.client with userLoops := n }) hcan hfirst (s.disks false)
    exact ⟨_, .userLoop hn (hhandled.trans (congrArg (Option.map _) hexec))⟩
  | serve hreq hexec => exact ⟨_, .serve hreq hexec⟩
  | @read a rest q x hacks hexec =>
    have hread := exec_onRead_client (S := S) a s.client (s.disks false)
    exact ⟨_, .read hacks (hread.trans (congrArg (Option.map _) hexec)) rfl⟩
  | @localLoop t q x hfirst hexec =>
    have hpos := h.localEngine (hfirst ▸ Option.some_ne_none t)
    obtain ⟨n, hn⟩ := Nat.exists_eq_succ_of_ne_zero hpos.ne'
    exact ⟨_, .localLoop hn hexec rfl⟩

/-- Where no task fails, the engines of a run are awake. -/
theorem awake_of_run {q : FmScheduler} {disks : Bool → X} {es : List (List FmTask)}
    (hserved : ∀ es s, Run (Step S) (ready q disks) es s → s.Served) (hrun : Run (Step S) (ready q disks) es s) :
    s.Awake := by
  induction hrun with
  | nil => exact awake_ready q disks
  | snoc hrun hstep ih => exact awake_of_acts ih (hserved _ _ hrun) (hserved _ _ (hrun.snoc hstep)) hstep.1

/-- **A run that stops has nothing left that could be worked.** -/
theorem not_works_of_run {q : FmScheduler} {disks : Bool → X} {es : List (List FmTask)}
    (hserved : ∀ es s, Run (Step S) (ready q disks) es s → s.Served) (hrun : Run (Step S) (ready q disks) es s)
    (hstop : ∀ s', ¬ Acts S s s') : ¬ Works S s s' := by
  intro hworks
  obtain ⟨s₁, hacts⟩ := exists_acts (awake_of_run hserved hrun) hworks
  exact hstop s₁ hacts

/-- Listings, deletions and creations that have not failed are served. -/
theorem Shows.served {w : Workers X} (h : Shows S s w)
    (hplain : ∀ t ∈ w.scheduler_.tasks_, Plain S t.body ∧ t.result_ = FmResultOk) : s.Served := by
  intro t ht
  rw [tasks_, h.scheduler] at ht
  obtain ⟨hbody, hok⟩ := hplain t ht
  refine ⟨hok, fun d hcopy => ?_⟩
  rw [hcopy] at hbody
  exact hbody

/-- **Where every run is one of listings, deletions and creations that do not fail, it stops with the queue empty.** -/
theorem nil_of_run {q : FmScheduler} {disks : Bool → X} {es : List (List FmTask)}
    (hshows : ∀ es s, Run (Step S) (ready q disks) es s → ∃ w : Workers X, Shows S s w ∧
      ∀ t ∈ w.scheduler_.tasks_, Plain S t.body ∧ t.result_ = FmResultOk)
    (hrun : Run (Step S) (ready q disks) es s) (hstop : ∀ s', ¬ Acts S s s') : s.tasks_ = [] := by
  have hserved : ∀ es s, Run (Step S) (ready q disks) es s → s.Served := by
    intro es s hrun
    obtain ⟨w, hw, hplain⟩ := hshows es s hrun
    exact hw.served hplain
  obtain ⟨w, hw, hplain⟩ := hshows es s hrun
  by_contra hne
  rw [tasks_, hw.scheduler] at hne
  obtain ⟨s', hworks⟩ := exists_works hw (fun t ht => (hplain t ht).1) (fun t ht => (hplain t ht).2) hne
  exact not_works_of_run hserved hrun hstop hworks

end Sides

end EuhatExpert
