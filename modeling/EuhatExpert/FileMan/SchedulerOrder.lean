import EuhatExpert.FileMan.FmScheduler
import EuhatExpert.Machinery.Run

/-!
# FileMan/SchedulerOrder — the queue stays in order

Tasks draw their ids from one counter, whether they enter the queue at once or wait aside as the refresh
task.  So the queue is ranked by priority, and among equal priorities by id, over every sequence of calls
(`inOrder_run`), and `getFirst` finds an engine a task of its least priority.
-/

namespace EuhatExpert

open Machinery

namespace FmScheduler

/-- The queue ascends by priority, and among tasks of one priority by id. -/
def Sorted (s : FmScheduler) : Prop := Ranked FmTask.getPriority (fun t u => t.id_ < u.id_) s.tasks_

/-- An engine notes how a task fared. -/
def note (s : FmScheduler) (id result : ℤ) : FmScheduler :=
  match s.get id with
  | none => s
  | some t => s.write { t with result_ := result }

/-! ## What the operations do to the order -/

variable {s : FmScheduler} {t u : FmTask}

/-- What `get` gives is in the queue and has the id, -/
theorem mem_of_get {id : ℤ} (h : s.get id = some t) : t ∈ s.tasks_ ∧ t.id_ = id :=
  ⟨List.mem_of_find?_eq_some h,
    of_decide_eq_true (List.find?_some (p := fun t : FmTask => decide (t.id_ = id)) h)⟩

/-- and what a handler asks for is what it gave. -/
theorem getAs_some {α : Type} {cast : FmTask → Option α} {id : ℤ} {a : α}
    (h : s.getAs cast id = some (t, a)) : s.get id = some t ∧ cast t = some a := by
  obtain ⟨t', hget, h⟩ := Option.bind_eq_some_iff.mp h
  obtain ⟨a', hcast, h⟩ := Option.bind_eq_some_iff.mp h
  obtain ⟨rfl, rfl⟩ := Prod.mk.inj (Option.some.inj h)
  exact ⟨hget, hcast⟩

/-- An id tells the task. -/
theorem eq_of_id_eq (ht : t ∈ s.tasks_) (hu : u ∈ s.tasks_) (h : t.id_ = u.id_) : t = u :=
  List.inj_on_of_nodup_map s.nodup_tasks ht hu h

/-- What is written back takes the place of one task. -/
theorem mem_write {v : FmTask} (h : v ∈ (s.write t).tasks_) : v = t ∨ v ∈ s.tasks_ := by
  obtain ⟨u, hu, rfl⟩ := List.mem_map.mp h
  split_ifs
  · exact .inl rfl
  · exact .inr hu

/-- An empty queue is in order, -/
theorem sorted_new : new.Sorted := ranked_nil

/-- and so is what is left of one that was. -/
theorem Sorted.keep (h : s.Sorted) {tasks : List FmTask} (hs : tasks.Sublist s.tasks_) :
    (s.keep tasks hs).Sorted :=
  Ranked.sublist h hs

/-- **`add` keeps the order** — the new id is above every other. -/
theorem Sorted.add (h : s.Sorted) (body : FmTask.Body) : (s.add body).Sorted :=
  Ranked.insertStable h fun _ ht => s.id_lt ht

/-- The refresh task comes into an empty queue only. -/
theorem Sorted.fmscOnRefresh (h : s.Sorted) : s.fmscOnRefresh.Sorted := by
  unfold FmScheduler.fmscOnRefresh
  split_ifs
  · exact ranked_toList _
  · exact h

/-- Writing a task back with the priority it has keeps the order. -/
theorem Sorted.write (h : s.Sorted)
    (hpriority : ∀ u ∈ s.tasks_, u.id_ = t.id_ → t.getPriority = u.getPriority) : (s.write t).Sorted := by
  refine Ranked.map h (fun u hu => ?_) fun u v huv => ?_
  · split_ifs with hid
    · exact hpriority u hu hid
    · rfl
  · have hkeep : ∀ w : FmTask, (if w.id_ = t.id_ then t else w).id_ = w.id_ := by
      intro w
      split_ifs with hid
      · exact hid.symm
      · rfl
    rwa [hkeep, hkeep]

/-- A result moves no task. -/
theorem Sorted.note (h : s.Sorted) (id result : ℤ) : (s.note id result).Sorted := by
  unfold FmScheduler.note
  cases hget : s.get id with
  | none => exact h
  | some t =>
    refine h.write fun u hu hid => ?_
    rw [eq_of_id_eq hu (mem_of_get hget).1 hid]
    rfl

/-! ## What `getFirst` finds -/

/-- What `getFirst` gives is the first task of its engine behind a front that has not failed. -/
theorem getFirst_some {isRemoteTask : Bool} (h : s.getFirst isRemoteTask = some t) :
    ∃ front rest, s.tasks_ = front :: rest ∧ front.result_ = FmResultOk ∧
      s.tasks_.find? (fun t => t.isLocal != isRemoteTask) = some t := by
  rw [getFirst] at h
  cases htasks : s.tasks_ with
  | nil =>
    rw [htasks] at h
    cases h
  | cons front rest =>
    rw [htasks] at h
    dsimp only at h
    split_ifs at h with hok
    exact ⟨front, rest, rfl, not_not.mp hok, h⟩

/-- It is in the queue. -/
theorem mem_of_getFirst {isRemoteTask : Bool} (h : s.getFirst isRemoteTask = some t) : t ∈ s.tasks_ := by
  obtain ⟨-, -, -, -, hfind⟩ := getFirst_some h
  exact List.mem_of_find?_eq_some hfind

/-- An engine gets a task of its own. -/
theorem isLocal_of_getFirst {isRemoteTask : Bool} (h : s.getFirst isRemoteTask = some t) :
    (t.isLocal != isRemoteTask) = true := by
  obtain ⟨-, -, -, -, hfind⟩ := getFirst_some h
  exact List.find?_some (p := fun t : FmTask => t.isLocal != isRemoteTask) hfind

/-- **What an engine gets is of its least priority.** -/
theorem Sorted.getFirst_le (h : s.Sorted) {isRemoteTask : Bool}
    (ht : s.getFirst isRemoteTask = some t) :
    t ∈ s.tasks_ ∧ (t.isLocal != isRemoteTask) = true ∧
      ∀ u ∈ s.tasks_, (u.isLocal != isRemoteTask) = true → t.getPriority ≤ u.getPriority := by
  obtain ⟨-, -, -, -, hfind⟩ := getFirst_some ht
  exact ⟨mem_of_getFirst ht, isLocal_of_getFirst ht, Ranked.find?_le h hfind⟩

/-- With a front that did not fail, an engine with a task gets one. -/
theorem getFirst_isSome {isRemoteTask : Bool} {front : FmTask} {rest : List FmTask}
    (htasks : s.tasks_ = front :: rest) (hok : front.result_ = FmResultOk) (hu : u ∈ s.tasks_)
    (hmine : (u.isLocal != isRemoteTask) = true) : (s.getFirst isRemoteTask).isSome = true := by
  rw [getFirst, htasks]
  dsimp only
  rw [if_neg (not_not_intro hok), ← htasks, List.find?_isSome]
  exact ⟨u, hu, hmine⟩

/-- Where no task failed, one of the engines gets a task until the queue is empty. -/
theorem exists_getFirst (hok : ∀ t ∈ s.tasks_, t.result_ = FmResultOk) (hne : s.tasks_ ≠ []) :
    ∃ isRemoteTask t, s.getFirst isRemoteTask = some t := by
  obtain ⟨front, rest, htasks⟩ := List.exists_cons_of_ne_nil hne
  have hfront : front ∈ s.tasks_ := htasks ▸ List.mem_cons_self
  have hmine : (front.isLocal != !front.isLocal) = true := by
    cases front.isLocal
    · rfl
    · rfl
  exact ⟨_, Option.isSome_iff_exists.mp (getFirst_isSome htasks (hok front hfront) hfront hmine)⟩

end FmScheduler

/-! ## Sequences of calls -/

/-- What happens to the queue: its own operations, and an engine noting how a task fared. -/
inductive SchedulerCall
  | add (body : FmTask.Body)
  | addRefreshTask (isPeer : Bool) (t : FmTaskGetSubList)
  | fmscOnRefresh
  | remove (id : ℤ)
  | cleanError
  | cleanAll
  | note (id result : ℤ)

namespace SchedulerCall

def apply (s : FmScheduler) : SchedulerCall → FmScheduler
  | add body => s.add body
  | addRefreshTask isPeer t => s.addRefreshTask isPeer t
  | fmscOnRefresh => s.fmscOnRefresh
  | remove id => s.remove id
  | cleanError => s.cleanError
  | cleanAll => s.cleanAll
  | note id result => s.note id result

/-- The task a call adds. -/
def added? : SchedulerCall → Option FmTask.Body
  | add body => some body
  | addRefreshTask isPeer t => some (.getSubList isPeer t)
  | _ => none

end SchedulerCall

namespace FmScheduler

/-- The queue after calls. -/
def run (calls : List SchedulerCall) : FmScheduler := calls.foldl SchedulerCall.apply new

/-- The tasks added in a sequence of calls, in the order in which they were. -/
def added (calls : List SchedulerCall) : List FmTask.Body := calls.filterMap SchedulerCall.added?

/-- One more call, -/
theorem run_concat (calls : List SchedulerCall) (c : SchedulerCall) :
    run (calls ++ [c]) = c.apply (run calls) := by
  rw [run, List.foldl_append]
  rfl

/-- and what it adds. -/
theorem added_concat (calls : List SchedulerCall) (c : SchedulerCall) :
    added (calls ++ [c]) = added calls ++ c.added?.toList := by
  rw [added, List.filterMap_append]
  cases h : c.added? with
  | none => rw [List.filterMap_cons_none h]; rfl
  | some body => rw [List.filterMap_cons_some h]; rfl

/-- The task with id `k` is the `k`-th of those added, counted from zero. -/
def IsAdded (calls : List SchedulerCall) (t : FmTask) : Prop :=
  ∃ k : ℕ, t.id_ = k ∧ (added calls)[k]? = some t.body

/-- The queue is in order, and draws its ids as tasks are added. -/
structure Tracks (calls : List SchedulerCall) (s : FmScheduler) : Prop where
  sorted : s.Sorted
  idxBase : s.idxBase_ = (added calls).length
  isAdded : ∀ t ∈ s.tasks_ ++ s.refreshSubListTask_.toList, IsAdded calls t

variable {calls : List SchedulerCall} {c : SchedulerCall} {s : FmScheduler}

/-- What was added stays added. -/
theorem IsAdded.concat {t : FmTask} (h : IsAdded calls t) (c : SchedulerCall) :
    IsAdded (calls ++ [c]) t := by
  obtain ⟨k, hid, hk⟩ := h
  refine ⟨k, hid, ?_⟩
  rw [added_concat, List.getElem?_append_left (List.getElem?_eq_some_iff.mp hk).1, hk]

/-- A task that is added has the next id. -/
theorem Tracks.isAdded_draw (h : Tracks calls s) {body : FmTask.Body} (hc : c.added? = some body) :
    IsAdded (calls ++ [c]) (s.draw body) := by
  refine ⟨(added calls).length, h.idxBase, ?_⟩
  rw [added_concat, hc]
  exact List.getElem?_concat_length

/-- A call that adds nothing and keeps only tasks there are. -/
theorem Tracks.of_subset (h : Tracks calls s) {s' : FmScheduler} (hc : c.added? = none)
    (hsorted : s'.Sorted) (hbase : s'.idxBase_ = s.idxBase_)
    (hsub : ∀ t ∈ s'.tasks_ ++ s'.refreshSubListTask_.toList,
      ∃ u ∈ s.tasks_ ++ s.refreshSubListTask_.toList, t.id_ = u.id_ ∧ t.body = u.body) :
    Tracks (calls ++ [c]) s' where
  sorted := hsorted
  idxBase := by rw [hbase, h.idxBase, added_concat, hc, Option.toList_none, List.append_nil]
  isAdded := fun t ht => by
    obtain ⟨u, hu, hid, hbody⟩ := hsub t ht
    obtain ⟨k, hk, hget⟩ := (h.isAdded u hu).concat c
    exact ⟨k, hid.trans hk, hget.trans (congrArg some hbody.symm)⟩

/-- Taking tasks out leaves each of the others as it was added. -/
theorem Tracks.keep (h : Tracks calls s) (hc : c.added? = none) {tasks : List FmTask}
    (hs : tasks.Sublist s.tasks_) : Tracks (calls ++ [c]) (s.keep tasks hs) :=
  h.of_subset hc (h.sorted.keep hs) rfl fun t ht => ⟨t, (hs.append_right _).subset ht, rfl, rfl⟩

/-- **Every call keeps the order.** -/
theorem Tracks.apply (h : Tracks calls s) (c : SchedulerCall) : Tracks (calls ++ [c]) (c.apply s) := by
  cases c with
  | add body =>
    refine ⟨h.sorted.add body, ?_, fun t ht => ?_⟩
    · rw [added_concat, List.length_append]
      exact congrArg (· + 1) h.idxBase
    · have hperm := (@insertStable_perm _ _ _ FmTask.getPriority (s.draw body) s.tasks_).append_right
        s.refreshSubListTask_.toList
      obtain rfl | ht := List.mem_cons.mp (hperm.mem_iff.mp ht)
      · exact h.isAdded_draw rfl
      · exact (h.isAdded t ht).concat _
  | addRefreshTask isPeer l =>
    refine ⟨h.sorted, ?_, fun t ht => ?_⟩
    · rw [added_concat, List.length_append]
      exact congrArg (· + 1) h.idxBase
    · obtain ht | ht := List.mem_append.mp ht
      · exact (h.isAdded t (List.mem_append_left _ ht)).concat _
      · obtain rfl := List.mem_singleton.mp ht
        exact h.isAdded_draw rfl
  | fmscOnRefresh =>
    refine h.of_subset rfl h.sorted.fmscOnRefresh ?_ fun t ht => ⟨t, ?_, rfl, rfl⟩
    · rw [SchedulerCall.apply, FmScheduler.fmscOnRefresh]
      split_ifs <;> rfl
    · rw [SchedulerCall.apply, FmScheduler.fmscOnRefresh] at ht
      split_ifs at ht
      · exact List.mem_append_right _ ((List.append_nil _).subst ht)
      · exact ht
  | remove id => exact h.keep rfl List.eraseP_sublist
  | cleanError => exact h.keep rfl List.eraseP_sublist
  | cleanAll => exact h.keep rfl (List.nil_sublist _)
  | note id result =>
    refine h.of_subset rfl (h.sorted.note id result) ?_ fun t ht => ?_
    · rw [SchedulerCall.apply, FmScheduler.note]
      split <;> rfl
    · rw [SchedulerCall.apply, FmScheduler.note] at ht
      split at ht
      · exact ⟨t, ht, rfl, rfl⟩
      · rename_i u hget
        obtain ht | ht := List.mem_append.mp ht
        · obtain rfl | ht := mem_write ht
          · exact ⟨u, List.mem_append_left _ (mem_of_get hget).1, rfl, rfl⟩
          · exact ⟨t, List.mem_append_left _ ht, rfl, rfl⟩
        · exact ⟨t, List.mem_append_right _ ht, rfl, rfl⟩

/-- **After any calls** the queue is in order, and each of its tasks was added with the id it has. -/
theorem tracks_run (calls : List SchedulerCall) : Tracks calls (run calls) := by
  induction calls using List.reverseRecOn with
  | nil => exact ⟨sorted_new, rfl, fun _ h => nomatch h⟩
  | append_singleton calls c ih =>
    rw [run_concat]
    exact ih.apply c

/-- What a queue promises after a sequence of calls. -/
structure InOrder (calls : List SchedulerCall) (s : FmScheduler) : Prop where
  /-- Ascending by priority. -/
  sorted : s.tasks_.Pairwise fun t u => t.getPriority ≤ u.getPriority
  /-- Of two tasks of one priority, the one in front was added before the other. -/
  stable : s.tasks_.Pairwise fun t u => t.getPriority = u.getPriority → ∃ i j : ℕ, i < j ∧
    t.id_ = (i : ℤ) ∧ (added calls)[i]? = some t.body ∧ u.id_ = (j : ℤ) ∧ (added calls)[j]? = some u.body
  distinct : (s.tasks_.map FmTask.id_).Nodup
  /-- The counter has not run over. -/
  idxBase : 0 ≤ s.idxBase_ ∧ s.idxBase_ < 2 ^ 31
  /-- What `getFirst` gives an engine is its own, and of least priority among its own. -/
  first : ∀ isRemoteTask t, s.getFirst isRemoteTask = some t → t ∈ s.tasks_ ∧
    (t.isLocal != isRemoteTask) = true ∧
      ∀ u ∈ s.tasks_, (u.isLocal != isRemoteTask) = true → t.getPriority ≤ u.getPriority
  /-- And it gives one, while the front has not failed and there is one. -/
  found : ∀ isRemoteTask front rest, s.tasks_ = front :: rest → front.result_ = FmResultOk →
    ∀ u ∈ s.tasks_, (u.isLocal != isRemoteTask) = true → (s.getFirst isRemoteTask).isSome = true

/-- **After every sequence of calls the queue is in order.** -/
theorem inOrder_run (calls : List SchedulerCall) (hfew : (added calls).length < 2 ^ 31) :
    InOrder calls (run calls) := by
  have h := tracks_run calls
  refine ⟨h.sorted.imp Before.le, ?_, (run calls).nodup_tasks, ?_,
    fun _ _ => h.sorted.getFirst_le, fun _ _ _ htasks hok _ => getFirst_isSome htasks hok⟩
  · refine List.Pairwise.imp_of_mem (fun {t u} ht hu htu heq => ?_) h.sorted
    obtain ⟨i, hi, hti⟩ := h.isAdded t (List.mem_append_left _ ht)
    obtain ⟨j, hj, huj⟩ := h.isAdded u (List.mem_append_left _ hu)
    have hid : t.id_ < u.id_ := htu.elim (fun hlt => absurd heq hlt.ne) And.right
    exact ⟨i, j, by omega, hi, hti, hj, huj⟩
  · rw [h.idxBase]
    omega

/-- A listing for the view, a file to delete, and the refresh task, which comes into the empty queue. -/
def refreshed : List SchedulerCall :=
  [.addRefreshTask true ⟨[47], .ActionInformUi, [], false⟩, .fmscOnRefresh, .add (.del true ⟨[97], 0, 100⟩),
    .add (.getSubList true ⟨[98], .ActionInformUi, [], false⟩)]

theorem refreshed_inOrder : (run refreshed).tasks_.map FmTask.id_ = [0, 2, 1] ∧
    InOrder refreshed (run refreshed) :=
  ⟨by decide, inOrder_run refreshed (by decide)⟩

end FmScheduler

end EuhatExpert
