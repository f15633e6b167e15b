import EuhatExpert.FileMan.FmLocal
import EuhatExpert.FileMan.SchedulerOrder
import EuhatExpert.FileMan.SubListBytes

/-!
# FileMan/Workers — two engines at one queue, in small steps

An engine takes a task in hand, does what the task is about on the disk of its side, and settles it: in the
queue the task gives way to those it makes, or is marked as failed.  In between the other engine may be at
work.  Here the tasks are listings, deletions and creations, which are done in one go (`deed`).
-/

namespace EuhatExpert

open Machinery

/-! ## A task gives way -/

namespace FmScheduler

/-- The tasks that `add` makes one after another. -/
def drawFrom (idxBase_ : ℤ) : List FmTask.Body → List FmTask
  | [] => []
  | body :: bodies => ⟨idxBase_, FmResultOk, body⟩ :: drawFrom (idxBase_ + 1) bodies

/-- In the queue a task gave way to others. -/
structure Replaces (s : FmScheduler) (t : FmTask) (ts : List FmTask) (s' : FmScheduler) : Prop where
  perm : ∃ rest, s.tasks_.Perm (t :: rest) ∧ s'.tasks_.Perm (ts ++ rest)
  sorted : s.Sorted → s'.Sorted

variable {s s' : FmScheduler} {t u : FmTask} {ts : List FmTask} {bodies : List FmTask.Body}

theorem map_body_drawFrom (idxBase_ : ℤ) (bodies : List FmTask.Body) :
    (drawFrom idxBase_ bodies).map FmTask.body = bodies := by
  induction bodies generalizing idxBase_ with
  | nil => rfl
  | cons body bodies ih => rw [drawFrom, List.map_cons, ih]

theorem pairwise_drawFrom (idxBase_ : ℤ) (bodies : List FmTask.Body) :
    (drawFrom idxBase_ bodies).Pairwise (fun t u => t.id_ < u.id_) ∧
      ∀ t ∈ drawFrom idxBase_ bodies, idxBase_ ≤ t.id_ ∧ t.result_ = FmResultOk := by
  induction bodies generalizing idxBase_ with
  | nil => exact ⟨List.Pairwise.nil, nofun⟩
  | cons body bodies ih =>
    obtain ⟨hpairwise, hle⟩ := ih (idxBase_ + 1)
    refine ⟨List.pairwise_cons.mpr ⟨fun t ht => ?_, hpairwise⟩, fun t ht => ?_⟩
    · exact (lt_add_one idxBase_).trans_le (hle t ht).1
    · rcases List.mem_cons.mp ht with rfl | ht
      · exact ⟨le_rfl, rfl⟩
      · exact ⟨(lt_add_one idxBase_).le.trans (hle t ht).1, (hle t ht).2⟩

theorem drawFrom_append (idxBase_ : ℤ) (bodies bodies' : List FmTask.Body) :
    drawFrom idxBase_ (bodies ++ bodies')
      = drawFrom idxBase_ bodies ++ drawFrom (idxBase_ + bodies.length) bodies' := by
  induction bodies generalizing idxBase_ with
  | nil => simp [drawFrom]
  | cons body bodies ih =>
    rw [List.cons_append, drawFrom, ih, drawFrom, List.cons_append, List.length_cons, Nat.cast_succ, add_assoc,
      add_comm 1]

/-- Tasks that are added later have larger ids. -/
theorem id_lt_of_drawFrom {idxBase_ : ℤ} {bodies bodies' : List FmTask.Body}
    (ht : t ∈ drawFrom idxBase_ bodies) (hu : u ∈ drawFrom (idxBase_ + bodies.length) bodies') :
    t.id_ < u.id_ := by
  have hpairwise := (pairwise_drawFrom idxBase_ (bodies ++ bodies')).1
  rw [drawFrom_append, List.pairwise_append] at hpairwise
  exact hpairwise.2.2 t ht u hu

theorem foldl_add_perm (s : FmScheduler) (bodies : List FmTask.Body) :
    (bodies.foldl add s).tasks_.Perm (drawFrom s.idxBase_ bodies ++ s.tasks_) := by
  induction bodies generalizing s with
  | nil => exact List.Perm.refl _
  | cons body bodies ih =>
    refine (ih (s.add body)).trans ?_
    refine ((insertStable_perm (s.draw body) s.tasks_).append_left _).trans ?_
    exact List.perm_middle

theorem Sorted.addAll (h : s.Sorted) (bodies : List FmTask.Body) :
    (bodies.foldl FmScheduler.add s).Sorted := by
  induction bodies generalizing s with
  | nil => exact h
  | cons body bodies ih => exact ih (h.add body)

theorem perm_remove (ht : t ∈ s.tasks_) : s.tasks_.Perm (t :: (s.remove t.id_).tasks_) := by
  obtain ⟨u, l₁, l₂, -, hid, htasks, herase⟩ := List.exists_of_eraseP
    (p := fun u : FmTask => decide (u.id_ = t.id_)) ht (decide_eq_true rfl)
  have hu : u ∈ s.tasks_ := by
    rw [htasks]
    exact List.mem_append_right _ List.mem_cons_self
  obtain rfl := eq_of_id_eq hu ht (of_decide_eq_true hid)
  rw [tasks_remove, herase, htasks]
  exact List.perm_middle

/-- Adding tasks, and taking one out that was there. -/
theorem replaces_remove_addAll (ht : t ∈ s.tasks_) (bodies : List FmTask.Body) :
    s.Replaces t (drawFrom s.idxBase_ bodies) ((bodies.foldl add s).remove t.id_) := by
  refine ⟨⟨(s.remove t.id_).tasks_, perm_remove ht, ?_⟩, fun h => (h.addAll bodies).keep List.eraseP_sublist⟩
  have hadd := foldl_add_perm s bodies
  have hmem : t ∈ (bodies.foldl add s).tasks_ := hadd.mem_iff.mpr (List.mem_append_right _ ht)
  refine List.Perm.cons_inv (((perm_remove hmem).symm.trans hadd).trans ?_)
  exact ((perm_remove ht).append_left _).trans List.perm_middle

/-- Taking a task out, and adding others. -/
theorem replaces_addAll_remove (ht : t ∈ s.tasks_) (bodies : List FmTask.Body) :
    s.Replaces t (drawFrom s.idxBase_ bodies) (bodies.foldl add (s.remove t.id_)) :=
  ⟨⟨_, perm_remove ht, foldl_add_perm (s.remove t.id_) bodies⟩,
    fun h => (h.keep List.eraseP_sublist).addAll bodies⟩

theorem replaces_remove (ht : t ∈ s.tasks_) : s.Replaces t [] (s.remove t.id_) :=
  replaces_remove_addAll ht []

/-- Writing through the pointer to a task. -/
theorem replaces_write (ht : t ∈ s.tasks_) (hid : u.id_ = t.id_) (hpriority : u.getPriority = t.getPriority) :
    s.Replaces t [u] (s.write u) := by
  have hperm := perm_remove ht
  refine ⟨⟨_, hperm, ?_⟩, fun h => h.write fun v hv hvu => ?_⟩
  · have hrest : ∀ v ∈ (s.remove t.id_).tasks_, v.id_ ≠ t.id_ := by
      intro v hv hvt
      have hnodup := ((hperm.map FmTask.id_).nodup_iff.mp s.nodup_tasks)
      rw [List.map_cons, List.nodup_cons] at hnodup
      have hmem := List.mem_map_of_mem (f := FmTask.id_) hv
      exact hnodup.1 (hvt ▸ hmem)
    refine (hperm.map _).trans ?_
    rw [List.map_cons, if_pos hid.symm]
    refine List.Perm.cons u (List.Perm.of_eq ((List.map_congr_left fun v hv => ?_).trans (List.map_id' _)))
    rw [hid, if_neg (hrest v hv)]
  · rw [eq_of_id_eq hv ht (hvu.symm ▸ hid), hpriority]

theorem get_of_mem (ht : t ∈ s.tasks_) : s.get t.id_ = some t := by
  cases hget : s.get t.id_ with
  | none => exact absurd (decide_eq_true rfl) (List.find?_eq_none.mp hget t ht)
  | some u => rw [eq_of_id_eq (mem_of_get hget).1 ht (mem_of_get hget).2]

/-- Writing a task as it is writes nothing. -/
theorem write_of_mem (ht : t ∈ s.tasks_) : s.write t = s := by
  refine ext ((List.map_congr_left fun u hu => ?_).trans (List.map_id' _)) rfl rfl
  split_ifs with hid
  · exact eq_of_id_eq ht hu hid.symm
  · rfl

/-- The tasks that are no longer in the queue. -/
def gone (s s' : FmScheduler) : List FmTask := s.tasks_.filter fun t => t.id_ ∉ s'.tasks_.map FmTask.id_

theorem gone_self (s : FmScheduler) : s.gone s = [] := by
  refine List.filter_eq_nil_iff.mpr fun t ht hgone => ?_
  exact of_decide_eq_true hgone (List.mem_map_of_mem ht)

namespace Replaces

variable (h : s.Replaces t ts s')

include h

theorem mem_iff : u ∈ s'.tasks_ ↔ u ∈ ts ∨ u ∈ s.tasks_ ∧ u ≠ t := by
  obtain ⟨rest, hs, hs'⟩ := h.perm
  have hnodup := (hs.nodup_iff.mp s.nodup_tasks.of_map)
  rw [List.nodup_cons] at hnodup
  rw [hs'.mem_iff, hs.mem_iff, List.mem_append, List.mem_cons]
  refine or_congr_right ⟨fun hu => ⟨.inr hu, ?_⟩, fun ⟨hu, hne⟩ => hu.resolve_left hne⟩
  rintro rfl
  exact hnodup.1 hu

/-- What the tasks come to in all changes by what the task and the others come to. -/
theorem sum_eq {M : Type*} [AddCommMonoid M] (f : FmTask → M) :
    ((s'.tasks_ : Multiset FmTask).map f).sum + f t
      = ((ts : Multiset FmTask).map f).sum + ((s.tasks_ : Multiset FmTask).map f).sum := by
  obtain ⟨rest, hs, hs'⟩ := h.perm
  rw [Multiset.coe_eq_coe.mpr hs, Multiset.coe_eq_coe.mpr hs', ← Multiset.coe_add, Multiset.map_add,
    Multiset.sum_add, ← Multiset.cons_coe, Multiset.map_cons, Multiset.sum_cons, add_assoc, add_comm (f t)]

theorem bind_eq {α : Type} (f : FmTask → Multiset α) : (s'.tasks_ : Multiset FmTask).bind f + f t
    = (ts : Multiset FmTask).bind f + (s.tasks_ : Multiset FmTask).bind f :=
  h.sum_eq f

/-- The task is gone when those it gave way to have other ids. -/
theorem gone_eq (hts : ∀ u ∈ ts, u.id_ ≠ t.id_) : s.gone s' = [t] := by
  obtain ⟨rest, hs, hs'⟩ := h.perm
  have hnodup := (hs.map FmTask.id_).nodup_iff.mp s.nodup_tasks
  rw [List.map_cons, List.nodup_cons] at hnodup
  have hfront : t.id_ ∉ s'.tasks_.map FmTask.id_ := by
    rw [(hs'.map FmTask.id_).mem_iff, List.map_append, List.mem_append]
    refine fun hmem => hmem.elim (fun hmem => ?_) hnodup.1
    obtain ⟨u, hu, hid⟩ := List.mem_map.mp hmem
    exact hts u hu hid
  have hrest : rest.filter (fun u => u.id_ ∉ s'.tasks_.map FmTask.id_) = [] := by
    refine List.filter_eq_nil_iff.mpr fun u hu hgone => of_decide_eq_true hgone ?_
    rw [(hs'.map FmTask.id_).mem_iff, List.map_append]
    exact List.mem_append_right _ (List.mem_map_of_mem hu)
  refine List.perm_singleton.mp ((hs.filter _).trans (List.Perm.of_eq ?_))
  rw [List.filter_cons, if_pos (decide_eq_true hfront), hrest]

/-- No task is gone when one gave way to itself, written over. -/
theorem gone_eq_nil (hid : ∃ u ∈ ts, u.id_ = t.id_) : s.gone s' = [] := by
  obtain ⟨rest, hs, hs'⟩ := h.perm
  refine List.filter_eq_nil_iff.mpr fun v hv hgone => of_decide_eq_true hgone ?_
  rw [(hs'.map FmTask.id_).mem_iff, List.map_append, List.mem_append]
  rcases List.mem_cons.mp (hs.mem_iff.mp hv) with rfl | hv
  · obtain ⟨u, hu, huv⟩ := hid
    exact .inl (huv ▸ List.mem_map_of_mem hu)
  · exact .inr (List.mem_map_of_mem hv)

end Replaces

end FmScheduler

/-! ## The engines -/

/-- What comes of a task: the tasks made of it, or nothing when it failed. -/
abbrev Outcome := Option (List FmTask.Body)

/-- What an engine has in hand: a task still to be done, or to be settled. -/
inductive Hand
  | idle
  | taken (t : FmTask)
  | done (t : FmTask) (out : Outcome)

/-- The small steps an engine took with the task in hand. -/
def Hand.phase : Hand → ℕ
  | idle => 0
  | taken _ => 1
  | done _ _ => 2

/-- What only the other hand can be, it was before. -/
theorem Hand.eq_of_update {hand : Bool → Hand} {r remote : Bool} {f g : Hand} (hne : f ≠ g)
    (h : Function.update hand remote f r = g) : r ≠ remote ∧ hand r = g := by
  by_cases hr : r = remote
  · rw [hr, Function.update_self] at h
    exact absurd h hne
  · exact ⟨hr, by rwa [Function.update_of_ne hr] at h⟩

/-- The queue, the engines' hands, the disks, and the tasks that are over; `true` is the remote side. -/
structure Workers (X : Type) where
  scheduler_ : FmScheduler
  hand : Bool → Hand
  disks : Bool → X
  ended : List FmTask

namespace Workers

variable {X : Type}

/-- The tasks `dispatchSubList` makes of the bytes of a listing. -/
def listed (loop : FmLoop) (t : FmTaskGetSubList) (bytes : Bytes) : List FmTask.Body :=
  match SubList.read bytes with
  | .ok l => l.bodies loop t
  | .error _ => []

/-- What is done with a task on the disk of its side, and what comes of it. -/
def deed (os : Os X) (loop : FmLoop) (x : X) : FmTask.Body → Outcome × X
  | .getSubList _ t => ((os.whGetSubFiles t.path_ x).map (listed loop t), x)
  | .del _ t => (if (FmLocal.deleted os t x).1 then some [] else none, (FmLocal.deleted os t x).2)
  | .new _ t =>
    (if (FmLocal.created os t x).1 || !loop.remote && !t.needInformUi_ then some [] else none,
      (FmLocal.created os t x).2)
  | _ => (none, x)

/-- The queue once a task is settled. -/
def Settles (s : FmScheduler) (t : FmTask) : Outcome → FmScheduler → Prop
  | some bodies => s.Replaces t (FmScheduler.drawFrom s.idxBase_ bodies)
  | none => s.Replaces t [{ t with result_ := FmResultFailed }]

theorem Settles.gone_eq {s s' : FmScheduler} {t : FmTask} {out : Outcome} (ht : t ∈ s.tasks_)
    (h : Settles s t out s') : s.gone s' = if out.isSome then [t] else [] := by
  cases out with
  | none => exact FmScheduler.Replaces.gone_eq_nil h ⟨_, List.mem_cons_self, rfl⟩
  | some bodies =>
    refine FmScheduler.Replaces.gone_eq h fun u hu => ?_
    exact ((s.id_lt ht).trans_le ((FmScheduler.pairwise_drawFrom _ _).2 u hu).1).ne'

theorem dispatchSubListBytes_eq {loop : FmLoop} {task : FmTask} {t : FmTaskGetSubList}
    (h : task.asGetSubList = some t) (bytes : Bytes) (s : FmScheduler) :
    dispatchSubListBytes loop task bytes s = (listed loop t bytes).foldl FmScheduler.add s := by
  rw [dispatchSubListBytes, h, listed]
  cases SubList.read bytes with
  | error e => rfl
  | ok l =>
    dsimp only
    rw [dispatchSubList]
    split_ifs with hview
    · have hnil : l.bodies loop t = [] := by
        rw [SubList.bodies, SubList.lastBodies, hview, List.append_eq_nil_iff, List.flatMap_eq_nil_iff]
        refine ⟨fun e _ => ?_, by simp⟩
        cases e with
        | folder name => rw [SubEntry.bodies, hview]
        | file name size lastWriteTime => rw [SubEntry.bodies, hview]
      rw [hnil]
      rfl
    · rfl

variable (os : Bool → Os X) (isUnix_ : Bool)

/-- One of the small steps of one of the engines. -/
inductive Step : Workers X → Workers X → Prop
  | take {w : Workers X} {remote : Bool} {t : FmTask} : w.hand remote = .idle →
      w.scheduler_.getFirst remote = some t →
      Step w { w with hand := Function.update w.hand remote (.taken t) }
  | act {w : Workers X} {remote : Bool} {t : FmTask} : w.hand remote = .taken t →
      Step w { w with
        hand := Function.update w.hand remote
          (.done t (deed (os remote) ⟨remote, isUnix_⟩ (w.disks remote) t.body).1)
        disks := Function.update w.disks remote
          (deed (os remote) ⟨remote, isUnix_⟩ (w.disks remote) t.body).2 }
  | settle {w : Workers X} {remote : Bool} {t : FmTask} {out : Outcome} {s : FmScheduler} :
      w.hand remote = .done t out → Settles w.scheduler_ t out s →
      Step w { w with
        scheduler_ := s
        hand := Function.update w.hand remote .idle
        ended := w.ended ++ if out.isSome then [t] else [] }

variable {os isUnix_} in
/-- A task that is taken, done and settled in one go. -/
theorem turn {w : Workers X} {remote : Bool} {t : FmTask} {s : FmScheduler} (hidle : w.hand remote = .idle)
    (hfirst : w.scheduler_.getFirst remote = some t)
    (hsettles : Settles w.scheduler_ t (deed (os remote) ⟨remote, isUnix_⟩ (w.disks remote) t.body).1 s) :
    Relation.TransGen (Step os isUnix_) w { w with
      scheduler_ := s
      disks := Function.update w.disks remote (deed (os remote) ⟨remote, isUnix_⟩ (w.disks remote) t.body).2
      ended := w.ended
        ++ if (deed (os remote) ⟨remote, isUnix_⟩ (w.disks remote) t.body).1.isSome then [t] else [] } := by
  let w₁ : Workers X := { w with hand := Function.update w.hand remote (.taken t) }
  let w₂ : Workers X := { w₁ with
    hand := Function.update w₁.hand remote (.done t (deed (os remote) ⟨remote, isUnix_⟩ (w₁.disks remote) t.body).1)
    disks := Function.update w₁.disks remote (deed (os remote) ⟨remote, isUnix_⟩ (w₁.disks remote) t.body).2 }
  have htake : Step os isUnix_ w w₁ := .take hidle hfirst
  have hact : Step os isUnix_ w₁ w₂ := .act (Function.update_self _ _ _)
  have hhand : Function.update w₂.hand remote .idle = w.hand := by
    rw [← hidle]
    exact (Function.update_idem _ _ _).trans ((Function.update_idem _ _ _).trans (Function.update_eq_self _ _))
  have hlast : Step os isUnix_ w₂ { w₂ with
      scheduler_ := s
      hand := w.hand
      ended := w₂.ended
        ++ if (deed (os remote) ⟨remote, isUnix_⟩ (w.disks remote) t.body).1.isSome then [t] else [] } :=
    hhand ▸ .settle (Function.update_self _ _ _) hsettles
  exact ((Relation.TransGen.single htake).tail hact).tail hlast

/-- The task in hand is in the queue, and one of the engine's own. -/
def Held (w : Workers X) : Prop :=
  ∀ remote t, w.hand remote = .taken t ∨ (∃ out, w.hand remote = .done t out) →
    t ∈ w.scheduler_.tasks_ ∧ (t.isLocal != remote) = true

variable {os isUnix_} {w w' : Workers X}

theorem Held.step (h : w.Held) (hstep : Step os isUnix_ w w') : w'.Held := by
  cases hstep with
  | @take remote t hidle hfirst =>
    intro r u hu
    by_cases hr : r = remote
    · subst hr
      simp only [Function.update_self, Hand.taken.injEq, reduceCtorEq, exists_false, or_false] at hu
      rw [← hu]
      exact ⟨FmScheduler.mem_of_getFirst hfirst, FmScheduler.isLocal_of_getFirst hfirst⟩
    · simp only [Function.update_of_ne hr] at hu
      exact h r u hu
  | @act remote t htaken =>
    intro r u hu
    by_cases hr : r = remote
    · subst hr
      simp only [Function.update_self, Hand.done.injEq, reduceCtorEq, false_or] at hu
      obtain ⟨out, rfl, -⟩ := hu
      exact h r t (.inl htaken)
    · simp only [Function.update_of_ne hr] at hu
      exact h r u hu
  | @settle remote t out s hdone hsettles =>
    intro r u hu
    by_cases hr : r = remote
    · subst hr
      simp [Function.update_self] at hu
    · simp only [Function.update_of_ne hr] at hu
      obtain ⟨hmem, hside⟩ := h r u hu
      obtain ⟨-, hside'⟩ := h remote t (.inr ⟨out, hdone⟩)
      have hne : u ≠ t := by
        rintro rfl
        cases r <;> cases remote <;> simp_all
      refine ⟨?_, hside⟩
      cases out with
      | none => exact (FmScheduler.Replaces.mem_iff hsettles).mpr (.inr ⟨hmem, hne⟩)
      | some bodies => exact (FmScheduler.Replaces.mem_iff hsettles).mpr (.inr ⟨hmem, hne⟩)

theorem Held.steps (h : w.Held) (hsteps : Relation.TransGen (Step os isUnix_) w w') : w'.Held := by
  induction hsteps with
  | single hstep => exact h.step hstep
  | tail _ hstep ih => exact ih.step hstep

/-! ## Runs -/

/-- The small steps so far, where no task failed. -/
def progress (w : Workers X) : ℕ := 3 * w.ended.length + (w.hand false).phase + (w.hand true).phase

theorem Step.progress_lt (hstep : Step os isUnix_ w w') (h : ∀ remote t, w.hand remote ≠ .done t none) :
    w.progress < w'.progress := by
  cases hstep with
  | @take remote t hidle hfirst =>
    rw [progress, progress]
    cases remote <;> simp [hidle, Hand.phase]
  | @act remote t htaken =>
    rw [progress, progress]
    cases remote <;> simp [htaken, Hand.phase]
  | @settle remote t out s hdone hsettles =>
    cases out with
    | none => exact absurd hdone (h remote t)
    | some bodies =>
      rw [progress, progress]
      cases remote <;> simp [hdone, Hand.phase] <;> omega

section Invariant

variable {I : Workers X → Prop}
  (hI : ∀ w w', w.Held → I w → Step os isUnix_ w w' → I w')

include hI

theorem invariant_steps (hheld : w.Held) (h : I w) (hsteps : Relation.TransGen (Step os isUnix_) w w') :
    I w' := by
  induction hsteps with
  | single hstep => exact hI _ _ hheld h hstep
  | tail hsteps hstep ih => exact hI _ _ (hheld.steps hsteps) ih hstep

theorem progress_steps (hok : ∀ w, I w → ∀ remote t, w.hand remote ≠ .done t none) (hheld : w.Held) (h : I w)
    (hsteps : Relation.TransGen (Step os isUnix_) w w') : w.progress < w'.progress := by
  induction hsteps with
  | single hstep => exact hstep.progress_lt (hok _ h)
  | tail hsteps hstep ih =>
    exact ih.trans (hstep.progress_lt (hok _ (invariant_steps hI hheld h hsteps)))

end Invariant

end Workers

end EuhatExpert
