import EuhatExpert.FileMan.Disk
import EuhatExpert.FileMan.Threads

/-!
# FileMan/FailedFront — a failed task, and where it stands

`getFirst` looks at the front of the queue only.  A task that is marked as failed elsewhere, or that others are added
in front of, blocks nothing, and is handed out again.  `reported_of_run`: where tasks are marked at the front, and none
is added ahead of one that is, a failed task stops both engines until the user clears it.
-/

namespace EuhatExpert

open Machinery TraceM

/-- A task that failed, connecting apart. -/
def FmTask.Failed (t : FmTask) : Prop := t.result_ ≠ FmResultOk ∧ t.isConnect = false

namespace FmScheduler

/-- Behind the front no task has failed. -/
def Blocked (q : FmScheduler) : Prop := ∀ t ∈ q.tasks_.tail, ¬ t.Failed

/-- At most one task has failed, it is the front, and neither engine gets it. -/
structure Reported (q : FmScheduler) : Prop where
  front : ∀ t ∈ q.tasks_, t.Failed → q.tasks_.head? = some t
  one : ∀ t ∈ q.tasks_, ∀ u ∈ q.tasks_, t.Failed → u.Failed → t = u
  held : ∀ isRemoteTask t, q.getFirst isRemoteTask = some t → ¬ t.Failed

/-- A task is not marked behind the front: it stands at the front, or was taken out of the queue. -/
def MarksFront (q : FmScheduler) (t : FmTask) : Prop := t.Failed → ∀ u ∈ q.tasks_.tail, u.id_ ≠ t.id_

/-- No task is added ahead of a failed front: there is one that has no larger priority. -/
def AddsBehind (q : FmScheduler) (body : FmTask.Body) : Prop :=
  ∀ front, q.tasks_.head? = some front → front.Failed → ∃ u ∈ q.tasks_, u.getPriority ≤ body.getPriority

variable {q : FmScheduler} {t : FmTask}

theorem Blocked.eq_front (h : q.Blocked) (ht : t ∈ q.tasks_) (hfailed : t.Failed) :
    q.tasks_.head? = some t := by
  cases htasks : q.tasks_ with
  | nil =>
    rw [htasks] at ht
    cases ht
  | cons front rest =>
    rw [htasks] at ht
    obtain rfl | ht := List.mem_cons.mp ht
    · rfl
    · exact absurd hfailed (h t (by rw [htasks]; exact ht))

/-- What an engine is given has not failed. -/
theorem Blocked.not_failed_of_getFirst (h : q.Blocked) {isRemoteTask : Bool}
    (hfirst : q.getFirst isRemoteTask = some t) : ¬ t.Failed := by
  obtain ⟨front, rest, htasks, hok, -⟩ := getFirst_some hfirst
  intro hfailed
  have hfront := h.eq_front (mem_of_getFirst hfirst) hfailed
  rw [htasks] at hfront
  exact hfailed.1 (Option.some.inj hfront ▸ hok)

/-- A task behind the front has another id. -/
theorem id_ne_of_mem_tail {front : FmTask} (hhead : q.tasks_.head? = some front) (ht : t ∈ q.tasks_.tail) :
    front.id_ ≠ t.id_ := by
  obtain ⟨rest, htasks⟩ := List.head?_eq_some_iff.mp hhead
  have hnodup := q.nodup_tasks
  rw [htasks, List.map_cons, List.nodup_cons] at hnodup
  rw [htasks, List.tail_cons] at ht
  exact fun hid => hnodup.1 (hid ▸ List.mem_map_of_mem ht)

/-- **A failed task blocks the queue exactly where it is at the front.** -/
theorem reported_iff : q.Reported ↔ q.Blocked := by
  constructor
  · intro h t ht hfailed
    exact id_ne_of_mem_tail (h.front t (List.mem_of_mem_tail ht) hfailed) ht rfl
  · intro h
    refine ⟨fun t ht hfailed => h.eq_front ht hfailed, fun t ht u hu htf huf => ?_,
      fun isRemoteTask t hfirst => h.not_failed_of_getFirst hfirst⟩
    exact Option.some.inj ((h.eq_front ht htf).symm.trans (h.eq_front hu huf))

/-! ## What keeps a queue blocked -/

theorem tail_eraseP_subset (p : FmTask → Bool) : ∀ l : List FmTask, (l.eraseP p).tail ⊆ l.tail
  | [] => List.nil_subset _
  | a :: l => by
    cases hp : p a with
    | true =>
      rw [List.eraseP_cons_of_pos hp, List.tail_cons]
      exact List.tail_subset l
    | false =>
      rw [List.eraseP_cons_of_neg (by rw [hp]; decide), List.tail_cons, List.tail_cons]
      exact List.eraseP_subset

theorem Blocked.remove (h : q.Blocked) (id : ℤ) : (q.remove id).Blocked :=
  fun t ht => h t (tail_eraseP_subset _ _ ht)

theorem Blocked.cleanError (h : q.Blocked) : q.cleanError.Blocked :=
  fun t ht => h t (tail_eraseP_subset _ _ ht)

theorem Blocked.fmscOnRefresh (h : q.Blocked) : q.fmscOnRefresh.Blocked := by
  unfold FmScheduler.fmscOnRefresh
  split_ifs
  · intro t ht
    have hnil : ∀ o : Option FmTask, o.toList.tail = [] := by
      rintro (_ | _)
      · rfl
      · rfl
    rw [hnil] at ht
    cases ht
  · exact h

/-- **A task that is marked behind the front blocks nothing.** -/
theorem Blocked.write_iff (h : q.Blocked) : (q.write t).Blocked ↔ q.MarksFront t := by
  have htail : (q.write t).tasks_.tail = q.tasks_.tail.map fun u => if u.id_ = t.id_ then t else u := by
    rw [tasks_write, List.map_tail]
  constructor
  · intro hwrite hfailed u hu hid
    refine hwrite t ?_ hfailed
    rw [htail]
    exact List.mem_map.mpr ⟨u, hu, if_pos hid⟩
  · intro hmarks u hu hfailed
    rw [htail] at hu
    obtain ⟨v, hv, rfl⟩ := List.mem_map.mp hu
    split_ifs at hfailed with hid
    · exact hmarks hfailed v hv hid
    · exact h v hv hfailed

theorem not_failed_draw (q : FmScheduler) (body : FmTask.Body) : ¬ (q.draw body).Failed :=
  fun h => h.1 rfl

/-- **Only a task added ahead of a failed front lets it go by.** -/
theorem Blocked.add_iff (h : q.Blocked) {body : FmTask.Body} : (q.add body).Blocked ↔ q.AddsBehind body := by
  by_cases hahead : ∃ u ∈ q.tasks_, u.getPriority ≤ body.getPriority
  · refine iff_of_true ?_ fun _ _ _ => hahead
    intro t ht hfailed
    obtain ⟨u, hu, hle⟩ := hahead
    obtain ⟨-, hlt⟩ | ⟨front, xs, ys, htasks, heq, hys⟩ :=
      insertStable_cases FmTask.getPriority (q.draw body) q.tasks_
    · exact hle.not_gt (hlt u hu)
    · rw [tasks_add, heq] at ht
      obtain rfl | ht := hys t ht
      · exact q.not_failed_draw body hfailed
      · exact h t (by rw [htasks]; exact ht) hfailed
  · have hlt : ∀ u ∈ q.tasks_, body.getPriority < u.getPriority := fun u hu =>
      not_le.mp fun hle => hahead ⟨u, hu, hle⟩
    have htail : (q.add body).tasks_.tail = q.tasks_ :=
      congrArg List.tail (@insertStable_of_lt _ _ _ FmTask.getPriority (q.draw body) _ hlt)
    constructor
    · intro hadd front hfront hfailed
      exact absurd hfailed (hadd front (by rw [htail]; exact List.mem_of_head? hfront))
    · intro hbehind t ht hfailed
      rw [htail] at ht
      exact hahead (hbehind t (h.eq_front ht hfailed) hfailed)

/-- A call marks the front, or adds behind it. -/
def Edit.AtFront (q : FmScheduler) : Edit → Prop
  | add body => q.AddsBehind body
  | remove _ => True
  | write t => q.MarksFront t

theorem Blocked.edit_iff (h : q.Blocked) (c : Edit) : (c.apply q).Blocked ↔ c.AtFront q := by
  cases c with
  | add body => exact h.add_iff
  | remove id => exact iff_of_true (h.remove id) trivial
  | write t => exact h.write_iff

end FmScheduler

/-! ## Runs -/

namespace Threads

open FmScheduler

variable {L : Type} {S : Engines.Setup L} {s s' : Threads L} {e : Event}

/-- An engine marks a task as failed only where that is the front, and nobody adds one ahead of a failed front. -/
def Orderly (s : Threads L) : Event → Prop
  | .edit isRemoteTask => ∀ c ∈ (s.calls isRemoteTask).head?, c.AtFront s.scheduler_
  | .user (.add body) => s.scheduler_.AddsBehind body
  | _ => True

/-- **A step leaves the queue blocked exactly where it is orderly.** -/
theorem blocked_iff (h : s.scheduler_.Blocked) (hstep : Step S s e s') : s'.scheduler_.Blocked ↔ Orderly s e := by
  have hedit : ∀ {isRemoteTask : Bool} {c : Edit} {cs : List Edit}, s.calls isRemoteTask = c :: cs →
      ((c.apply s.scheduler_).Blocked ↔ Orderly s (.edit isRemoteTask)) := by
    intro isRemoteTask c cs hcalls
    rw [h.edit_iff, Orderly, hcalls, List.head?_cons]
    exact ⟨fun hc c' hc' => Option.mem_some_iff.mp hc' ▸ hc, fun hall => hall c rfl⟩
  cases hstep with
  | editAsking hduty => exact hedit (by rw [calls, hduty])
  | edit isRemoteTask hduty => exact hedit (by rw [calls, hduty])
  | user c =>
    cases c with
    | add body => exact h.add_iff
    | addRefreshTask isPeer t => exact iff_of_true h trivial
    | fmscOnRefresh => exact iff_of_true h.fmscOnRefresh trivial
    | cleanError => exact iff_of_true h.cleanError trivial
    | cleanAll => exact iff_of_true (fun _ ht => (by cases ht)) trivial
  | take | ask | act | read | store | sent | done | serve => exact iff_of_true h trivial

/-- **Over orderly steps a failed task stops both engines** until it is cleared. -/
theorem reported_of_run (S : Engines.Setup L) (disk : L) {es : List Event} {s : Threads L}
    (h : Run (restrict (Step S) Orderly) (ready .new disk) es s) : s.scheduler_.Reported := by
  refine reported_iff.mpr (h.invariant (I := fun s => s.scheduler_.Blocked) (fun _ ht => (by cases ht)) ?_)
  exact fun s e s' hs hstep => (blocked_iff hs hstep.1).mpr hstep.2

/-! ## A task that fails behind another -/

/-- A local disk with nothing on it. -/
def emptyDisk : Engines.Setup Disk := ⟨Disk.os true fun _ => 0, true⟩

/-- The user deletes a file that is not there. -/
def asksToDelete : Event := .user (.add (.del false ⟨[slash, 99], 0, 100⟩))

/-- The local engine tries to. -/
def failsToDelete : List Event := [.take false, .act false, .edit false]

/-- **A deletion is overtaken, fails behind a download, and is handed out again.** -/
theorem overtaken_not_reported :
    ¬ ∀ es s, Run (Step emptyDisk) (ready .new []) es s → s.scheduler_.Reported := by
  intro h
  have hdel : Run (Step emptyDisk) (ready .new []) [asksToDelete] _ := Run.nil.snoc (.user _)
  have htake := hdel.snoc (.take (t := _) false rfl nofun rfl)
  have hact := htake.snoc (.act (t := _) (l := _) rfl rfl)
  have hadd := hact.snoc (.user (.add (.download ⟨[98], [slash, 97], -1, 1, 0, false⟩)))
  have hedit := hadd.snoc (.edit (c := _) false rfl)
  exact (h _ _ hedit).held false _ rfl ⟨by decide, rfl⟩

/-- The deletion alone fails at the front. -/
theorem failed_reported : ∃ s, Run (restrict (Step emptyDisk) Orderly) (ready .new [])
    (asksToDelete :: failsToDelete) s ∧ (∃ t ∈ s.scheduler_.tasks_, t.Failed) ∧ s.scheduler_.Reported := by
  have hdel : Run (restrict (Step emptyDisk) Orderly) (ready .new []) [asksToDelete] _ :=
    Run.nil.snoc ⟨.user _, fun front hfront => (by cases hfront)⟩
  have htake := hdel.snoc ⟨.take (t := _) false rfl nofun rfl, trivial⟩
  have hact := htake.snoc ⟨.act (t := _) (l := _) rfl rfl, trivial⟩
  have hedit := hact.snoc ⟨.edit (c := _) false rfl, fun c hc => ?_⟩
  · exact ⟨_, hedit, ⟨_, List.mem_cons_self, by decide, rfl⟩, reported_of_run emptyDisk [] hedit⟩
  · obtain rfl := Option.mem_some_iff.mp hc
    exact fun _ u hu => (by cases hu)

end Threads

end EuhatExpert
