import EuhatExpert.FileMan.FileManClient
import EuhatExpert.FileMan.Workers
import EuhatExpert.Machinery.Run

/-!
# FileMan/Sides — both engines, the server, and the disks of both sides

`FileManClient` and `FmLocal` take their tasks from one queue, each when it handles a `JY_MSG_TYPE_USER_LOOP`,
and the server answers what it is asked; nobody else is about.  The messages apart (`works_of_run`), and as long
as the tasks are listings, deletions and creations of paths that the server need not correct, this is what
`Workers` does in small steps (`shows_of_works`).  No engine waits for a message that nobody has posted
(`Awake`), so what can be done is done (`exists_acts`).
-/

namespace EuhatExpert

open Machinery TraceM

/-- The client with the queue, what is on the line, the disks, of which `true` is the server's, and the
`JY_MSG_TYPE_USER_LOOP` that wait for `FmLocal`. -/
structure Sides (X : Type) where
  client : FileManClient
  disks : Bool → X
  requests : List FmReq
  acks : List FmAck
  localLoops : ℕ

namespace Sides

variable {X : Type}

/-- What the two sides run on. -/
structure Setup (X : Type) where
  os : Bool → Os X
  baseDir_ : Bytes

/-- The kind of the server, which the client was told. -/
def Setup.isUnix_ (S : Setup X) : Bool := (S.os true).isUnix_

def Setup.loop (S : Setup X) (remote : Bool) : FmLoop := ⟨remote, S.isUnix_⟩

/-- `notifyEngine`: a `JY_MSG_TYPE_USER_LOOP` for either engine. -/
def notifyEngine (s : Sides X) : Sides X :=
  { s with client := s.client.postUserLoop, localLoops := s.localLoops + 1 }

/-- After `onUserStart` and a user's tasks, of which the engines are told. -/
def ready (scheduler : FmScheduler) (disks : Bool → X) : Sides X :=
  (⟨(FileManClient.fresh scheduler).onUserStart, disks, [], [], 0⟩ : Sides X).notifyEngine

def scheduler_ (s : Sides X) : FmScheduler := s.client.scheduler_

def tasks_ (s : Sides X) : List FmTask := s.scheduler_.tasks_

variable (S : Setup X)

/-- One of the three handles what is next for it: a message, a request, or an answer. -/
inductive Acts : Sides X → Sides X → Prop
  | userLoop {s n c r x} : s.client.userLoops = n + 1 →
      exec (FileManClient.onUserLoop (S.os false) { s.client with userLoops := n }) (s.disks false)
        = some ((c, r), x) →
      Acts s { s with
        client := c
        disks := Function.update s.disks false x
        requests := s.requests ++ r.toList }
  | serve {s r rest a x} : s.requests = r :: rest →
      exec (FileManServer.echo (S.os true) S.baseDir_ r) (s.disks true) = some (a, x) →
      Acts s { s with
        disks := Function.update s.disks true x
        requests := rest
        acks := s.acks ++ [a] }
  | read {s s' a rest c x} : s.acks = a :: rest →
      exec (FileManClient.onRead (S.os false) (dispatchSubListBytes (S.loop true)) a s.client)
        (s.disks false) = some (c, x) →
      s' = { s with client := c, disks := Function.update s.disks false x, acks := rest } →
      Acts s (if FileManClient.notifiesEngine notifiesEngine a s.scheduler_ then s'.notifyEngine else s')
  | localLoop {s s' n q x} : s.localLoops = n + 1 →
      exec (FmLocal.onUserLoop (S.os false) (dispatchSubListBytes (S.loop false)) s.scheduler_)
        (s.disks false) = some (q, x) →
      s' = { s with
        client := { s.client with scheduler_ := q }
        disks := Function.update s.disks false x
        localLoops := n + if FmLocal.postsUserLoop (S.os false) s.scheduler_ (s.disks false) then 1 else 0 } →
      Acts s (if FmLocal.notifiesEngine (S.os false) notifiesEngine s.scheduler_ (s.disks false) then s'.notifyEngine
        else s')

/-- A step, with the tasks that it ends. -/
def Step (s : Sides X) (ended : List FmTask) (s' : Sides X) : Prop := Acts S s s' ∧ ended = s.scheduler_.gone s'.scheduler_

/-! ## The messages apart -/

/-- What one of the three does when it has something to do. -/
inductive Works : Sides X → Sides X → Prop
  | userLoop {s t q r x} : s.client.canSend_ = true → s.scheduler_.getFirst true = some t →
      exec (FileManClient.reqFirst (S.os false) s.scheduler_) (s.disks false) = some ((q, r), x) →
      Works s { s with
        client := { s.client with scheduler_ := q, canSend_ := false }
        disks := Function.update s.disks false x
        requests := s.requests ++ r.toList }
  | serve {s r rest a x} : s.requests = r :: rest →
      exec (FileManServer.echo (S.os true) S.baseDir_ r) (s.disks true) = some (a, x) →
      Works s { s with
        disks := Function.update s.disks true x
        requests := rest
        acks := s.acks ++ [a] }
  | read {s a rest q x} : s.acks = a :: rest →
      exec (FileManClient.ack (S.os false) (dispatchSubListBytes (S.loop true)) a s.scheduler_)
        (s.disks false) = some (q, x) →
      Works s { s with
        client := { s.client with scheduler_ := q, canSend_ := true }
        disks := Function.update s.disks false x
        acks := rest }
  | localLoop {s t q x} : s.scheduler_.getFirst false = some t →
      exec (FmLocal.onUserLoop (S.os false) (dispatchSubListBytes (S.loop false)) s.scheduler_)
        (s.disks false) = some (q, x) →
      Works s { s with
        client := { s.client with scheduler_ := q }
        disks := Function.update s.disks false x }

/-- Work, with the tasks that it ends. -/
def WorkStep (s : Sides X) (ended : List FmTask) (s' : Sides X) : Prop :=
  Works S s s' ∧ ended = s.scheduler_.gone s'.scheduler_

/-- The two sides without their messages. -/
def quiet (s : Sides X) : Sides X := { s with client := { s.client with userLoops := 0 }, localLoops := 0 }

/-- How many messages wait. -/
def loops (s : Sides X) : ℕ := s.client.userLoops + s.localLoops

variable {S} {s s' : Sides X}

@[simp] theorem quiet_notifyEngine (s : Sides X) : s.notifyEngine.quiet = s.quiet := rfl

theorem loops_notifyEngine (s : Sides X) : s.notifyEngine.loops = s.loops + 2 := by
  rw [loops, loops, notifyEngine, FileManClient.postUserLoop]
  dsimp only
  omega

theorem loops_ready (scheduler : FmScheduler) (disks : Bool → X) : (ready scheduler disks).loops = 3 := rfl

theorem quiet_ite {c : Prop} [Decidable c] : (if c then s.notifyEngine else s).quiet = s.quiet := by
  split_ifs
  · rfl
  · rfl

theorem loops_ite_le {c : Prop} [Decidable c] : (if c then s.notifyEngine else s).loops ≤ s.loops + 2 := by
  split_ifs
  · exact (loops_notifyEngine s).le
  · exact Nat.le_add_right _ _

/-- What a client that may not send, or has no task, makes of a message. -/
theorem onUserLoop_client_idle {c : FileManClient} (h : c.canSend_ = true → c.scheduler_.getFirst true = none)
    (x : X) : exec (FileManClient.onUserLoop (S.os false) c) x = some ((c, none), x) := by
  obtain ⟨can, q, n⟩ := c
  rw [FileManClient.onUserLoop]
  cases can with
  | false => rfl
  | true =>
    rw [if_pos rfl, exec_bind_pure, FileManClient.reqFirst]
    have hnone : q.getFirst true = none := h rfl
    dsimp only
    rw [hnone]
    rfl

theorem exec_onUserLoop_client {c : FileManClient} {t : FmTask} (hcan : c.canSend_ = true)
    (hfirst : c.scheduler_.getFirst true = some t) (x : X) :
    exec (FileManClient.onUserLoop (S.os false) c) x = (exec (FileManClient.reqFirst (S.os false) c.scheduler_) x).map
      fun y => (({ c with scheduler_ := y.1.1, canSend_ := false }, y.1.2), y.2) := by
  rw [FileManClient.onUserLoop, if_pos hcan, exec_bind_pure, hfirst]
  rfl

theorem exec_onRead_client (a : FmAck) (c : FileManClient) (x : X) :
    exec (FileManClient.onRead (S.os false) (dispatchSubListBytes (S.loop true)) a c) x
      = (exec (FileManClient.ack (S.os false) (dispatchSubListBytes (S.loop true)) a c.scheduler_) x).map
        fun y => ({ c with scheduler_ := y.1, canSend_ := true }.postUserLoop, y.2) := by
  rw [FileManClient.onRead, exec_bind_pure]

/-- **What is done with a message is work, or nothing**; and work posts three messages at most. -/
theorem works_of_acts (h : Acts S s s') : (s'.quiet = s.quiet ∧ s'.loops + 1 = s.loops) ∨
    (Works S s.quiet s'.quiet ∧ s'.loops ≤ s.loops + 3) := by
  cases h with
  | @userLoop n c r x hloops hexec =>
    by_cases hidle : s.client.canSend_ = true → s.scheduler_.getFirst true = none
    · rw [onUserLoop_client_idle (c := { s.client with userLoops := n }) hidle] at hexec
      obtain ⟨hcr, rfl⟩ := Prod.mk.inj (Option.some.inj hexec)
      obtain ⟨rfl, rfl⟩ := Prod.mk.inj hcr
      refine .inl ⟨?_, ?_⟩
      · simp [quiet]
      · simp only [loops]
        omega
    · rw [Classical.not_imp] at hidle
      obtain ⟨hcan, hsome⟩ := hidle
      obtain ⟨t, hfirst⟩ := Option.ne_none_iff_exists'.mp hsome
      rw [exec_onUserLoop_client (c := { s.client with userLoops := n }) hcan hfirst] at hexec
      obtain ⟨⟨⟨q, r'⟩, x'⟩, hreq, heq⟩ := Option.map_eq_some_iff.mp hexec
      obtain ⟨hcr, rfl⟩ := Prod.mk.inj heq
      obtain ⟨rfl, rfl⟩ := Prod.mk.inj hcr
      refine .inr ⟨.userLoop (s := s.quiet) hcan hfirst hreq, ?_⟩
      simp only [loops]
      omega
  | @serve r rest a x hreq hexec => exact .inr ⟨.serve (s := s.quiet) hreq hexec, Nat.le_add_right _ 3⟩
  | @read s₁ a rest c x hacks hexec hs₁ =>
    rw [exec_onRead_client] at hexec
    obtain ⟨⟨q, x'⟩, hack, heq⟩ := Option.map_eq_some_iff.mp hexec
    obtain ⟨rfl, rfl⟩ := Prod.mk.inj heq
    refine .inr ⟨?_, loops_ite_le.trans ?_⟩
    · rw [quiet_ite, hs₁]
      exact .read (s := s.quiet) hacks hack
    · rw [hs₁]
      simp only [loops, FileManClient.postUserLoop]
      omega
  | @localLoop s₁ n q x hloops hexec hs₁ =>
    cases hfirst : s.scheduler_.getFirst false with
    | none =>
      rw [FmLocal.onUserLoop, hfirst] at hexec
      obtain ⟨rfl, rfl⟩ := Prod.mk.inj (Option.some.inj (hexec.symm.trans (exec_pure _ _)))
      have hnotifies : FmLocal.notifiesEngine (S.os false) notifiesEngine s.scheduler_ (s.disks false) = false := by
        rw [FmLocal.notifiesEngine, hfirst]
      have hposts : FmLocal.postsUserLoop (S.os false) s.scheduler_ (s.disks false) = false := by
        rw [FmLocal.postsUserLoop, hfirst]
      rw [hnotifies, if_neg Bool.false_ne_true, hs₁, hposts]
      refine .inl ⟨?_, ?_⟩
      · simp [quiet, scheduler_]
      · simp only [loops]
        rw [if_neg Bool.false_ne_true]
        omega
    | some t =>
      refine .inr ⟨?_, loops_ite_le.trans ?_⟩
      · rw [quiet_ite, hs₁]
        exact .localLoop (s := s.quiet) hfirst hexec
      · rw [hs₁]
        simp only [loops]
        split_ifs
        · omega
        · omega

/-- **A run is a run of the work in it**, not much longer than that. -/
theorem works_of_run {s₀ : Sides X} {es : List (List FmTask)} (hrun : Run (Step S) s₀ es s) :
    ∃ es', Run (WorkStep S) s₀.quiet es' s.quiet ∧ es'.flatten = es.flatten ∧
      es.length + s.loops ≤ 4 * es'.length + s₀.loops := by
  induction hrun with
  | nil => exact ⟨[], .nil, rfl, by simp⟩
  | @snoc es s ended s' _ hstep ih =>
    obtain ⟨es', hrun', hflatten, hlen⟩ := ih
    obtain ⟨hacts, rfl⟩ := hstep
    rcases works_of_acts hacts with ⟨hquiet, hloops⟩ | ⟨hworks, hloops⟩
    · refine ⟨es', hquiet ▸ hrun', ?_, ?_⟩
      · have hsame := congrArg scheduler_ hquiet
        change s'.scheduler_ = s.scheduler_ at hsame
        rw [hsame, FmScheduler.gone_self, List.flatten_append, List.flatten_singleton, List.append_nil, hflatten]
      · rw [List.length_append, List.length_singleton]
        omega
    · refine ⟨es' ++ [s.scheduler_.gone s'.scheduler_], hrun'.snoc ⟨hworks, rfl⟩, ?_, ?_⟩
      · rw [List.flatten_append, List.flatten_append, hflatten]
      · rw [List.length_append, List.length_append, List.length_singleton]
        omega

variable (S)

/-! ## What the client and the server make of a task -/

/-- A listing, a deletion or a creation, of a path that the server takes as it is. -/
def Plain : FmTask.Body → Prop
  | .getSubList remote t => remote = true →
      whCorrectFilePath S.isUnix_ t.path_ = t.path_ ∧ strIsStartWith t.path_ S.baseDir_ = true
  | .del remote t => remote = true → whCorrectFilePath S.isUnix_ t.path_ = t.path_
  | .new remote t => remote = true → whCorrectFilePath S.isUnix_ t.path_ = t.path_
  | _ => False

/-- The answer settles the task. -/
def Answers (t : FmTask) (out : Outcome) (a : FmAck) : Prop :=
  ∀ (s : FmScheduler) (x : X), t ∈ s.tasks_ → ∃ s',
    Yields (FileManClient.ack (S.os false) (dispatchSubListBytes (S.loop true)) a s) x s' x ∧
      Workers.Settles s t out s'

/-- The server does what the task is about, and its answer settles the task. -/
def Asks (t : FmTask) (r : FmReq) : Prop :=
  ∀ x, ∃ a, Yields (FileManServer.echo (S.os true) S.baseDir_ r) x a
      (Workers.deed (S.os true) (S.loop true) x t.body).2 ∧
    Answers S t (Workers.deed (S.os true) (S.loop true) x t.body).1 a

variable {S} {s s' : Sides X} {w : Workers X} {t : FmTask}

theorem settles_settle {α : Type} (cast : FmTask → Option α) (a : NodeAck) {c : α} (hid : a.id = t.id_)
    (hcast : cast t = some c) {s : FmScheduler} (ht : t ∈ s.tasks_) :
    Workers.Settles s t (if a.retResult then some [] else none) (FmScheduler.settle cast a s) := by
  have hget : s.getAs cast a.id = some (t, c) := by
    rw [FmScheduler.getAs, hid, FmScheduler.get_of_mem ht, Option.bind_eq_bind, Option.bind_some, hcast]
    rfl
  rw [FmScheduler.settle, hget]
  dsimp only
  cases a.retResult with
  | false => exact FmScheduler.replaces_write ht rfl rfl
  | true =>
    rw [hid]
    exact FmScheduler.replaces_remove ht

theorem answers_list {id result : ℤ} {l : FmTaskGetSubList} (path : Bytes) (subFiles : Option Bytes) :
    Answers S ⟨id, result, .getSubList true l⟩ (subFiles.map (Workers.listed (S.loop true) l))
      (.list ⟨id, path, subFiles.isSome, subFiles.getD []⟩) := by
  intro s x ht
  refine ⟨_, yields_pure _ x, ?_⟩
  have hget : s.getAs FmTask.asGetSubList id = some (⟨id, result, .getSubList true l⟩, l) := by
    rw [FmScheduler.getAs, show s.get id = some _ from FmScheduler.get_of_mem ht]
    rfl
  rw [FmcPeerFileList.ack, hget]
  cases subFiles with
  | none => exact FmScheduler.replaces_write ht rfl rfl
  | some bytes =>
    dsimp only
    rw [Option.isSome_some, if_pos rfl, Workers.dispatchSubListBytes_eq (t := l) rfl]
    exact FmScheduler.replaces_addAll_remove ht _

theorem echo_list_yields {r : ListReq} (hpath : whCorrectFilePath S.isUnix_ r.path = r.path)
    (hbase : strIsStartWith r.path S.baseDir_ = true) (x : X) :
    Yields (FileManServer.echo (S.os true) S.baseDir_ (.list r)) x
      (.list ⟨r.id, r.path, ((S.os true).whGetSubFiles r.path x).isSome,
        ((S.os true).whGetSubFiles r.path x).getD []⟩) x := by
  refine Yields.bind (?_ : Yields (FmsPeerFileList.echo _ _ _) x _ _) (yields_pure _ _)
  rw [Setup.isUnix_] at hpath
  rw [FmsPeerFileList.echo, hpath, if_pos hbase]
  exact Yields.bind (yields_call _ _ _) (yields_pure _ _)

theorem echo_del_yields {id : ℤ} {d : FmTaskDel} (hpath : whCorrectFilePath S.isUnix_ d.path_ = d.path_)
    (x : X) : Yields (FileManServer.echo (S.os true) S.baseDir_ (.del (FmcDelFile.req id d))) x
      (.del ⟨id, d.path_, d.isFolder_, (FmLocal.deleted (S.os true) d x).1⟩)
      (FmLocal.deleted (S.os true) d x).2 := by
  refine Yields.bind (?_ : Yields (FmsDelFile.echo _ _) x _ _) (yields_pure _ _)
  rw [Setup.isUnix_] at hpath
  rw [FmsDelFile.echo, FmcDelFile.req]
  dsimp only
  rw [hpath]
  refine Yields.bind (?_ : Yields (FmsDelFile.remove _ _ _) x _ _) (yields_pure _ _)
  rw [FmsDelFile.remove, FmLocal.deleted]
  split_ifs
  · exact yields_call _ _ _
  · exact yields_call _ _ _

theorem echo_new_yields {id : ℤ} {d : FmTaskNew} (hpath : whCorrectFilePath S.isUnix_ d.path_ = d.path_)
    (x : X) : Yields (FileManServer.echo (S.os true) S.baseDir_ (.new (FmcNewFile.req id d))) x
      (.new ⟨id, d.path_, d.isFolder_, (FmLocal.created (S.os true) d x).1⟩)
      (FmLocal.created (S.os true) d x).2 := by
  refine Yields.bind (?_ : Yields (FmsNewFile.echo _ _) x _ _) (yields_pure _ _)
  rw [Setup.isUnix_] at hpath
  rw [FmsNewFile.echo, FmcNewFile.req]
  dsimp only
  rw [hpath]
  refine Yields.bind (?_ : Yields (FmsNewFile.create _ _ _) x _ _) (yields_pure _ _)
  rw [FmsNewFile.create, FmLocal.created]
  split_ifs
  · exact Yields.bind (yields_call _ _ _) (yields_call _ _ _)
  · exact yields_call _ _ _

/-- **The server does what a task is about when it is asked.** -/
theorem asks (hplain : Plain S t.body) (hremote : t.isLocal = false) :
    ∃ r, (∀ x, Yields (FileManClient.req (S.os false) t) x (t, some r) x) ∧ Asks S t r := by
  obtain ⟨id, result, body⟩ := t
  cases body with
  | getSubList remote l =>
    cases remote with
    | false => cases hremote
    | true =>
      obtain ⟨hpath, hbase⟩ := hplain rfl
      exact ⟨_, fun x => yields_pure _ x,
        fun x => ⟨_, @echo_list_yields X S ⟨id, l.path_⟩ hpath hbase x, answers_list _ _⟩⟩
  | del remote d =>
    cases remote with
    | false => cases hremote
    | true =>
      refine ⟨_, fun x => yields_pure _ x, fun x => ⟨_, echo_del_yields (hplain rfl) x, fun s y ht => ?_⟩⟩
      exact ⟨_, yields_pure _ y, settles_settle FmTask.asDel ⟨id, d.path_, d.isFolder_, _⟩ rfl rfl ht⟩
  | new remote d =>
    cases remote with
    | false => cases hremote
    | true =>
      refine ⟨_, fun x => yields_pure _ x, fun x => ⟨_, echo_new_yields (hplain rfl) x, fun s y ht => ?_⟩⟩
      refine ⟨_, yields_pure _ y, ?_⟩
      rw [Workers.deed, show (S.loop true).remote = true from rfl, Bool.not_true, Bool.false_and, Bool.or_false]
      exact settles_settle FmTask.asNew ⟨id, d.path_, d.isFolder_, _⟩ rfl rfl ht
  | connect | download d | upload d | copy remote d => exact hplain.elim

/-- **`FmLocal` does what a task is about, and settles it.** -/
theorem onUserLoop_yields {s : FmScheduler} (hplain : Plain S t.body) (hfirst : s.getFirst false = some t) (x : X) :
    ∃ s', Yields (FmLocal.onUserLoop (S.os false) (dispatchSubListBytes (S.loop false)) s) x s'
        (Workers.deed (S.os false) (S.loop false) x t.body).2 ∧
      Workers.Settles s t (Workers.deed (S.os false) (S.loop false) x t.body).1 s' := by
  have ht := FmScheduler.mem_of_getFirst hfirst
  have hlocal : t.isLocal = true := by simpa using FmScheduler.isLocal_of_getFirst hfirst
  obtain ⟨id, result, body⟩ := t
  rw [FmLocal.onUserLoop, hfirst]
  cases body with
  | getSubList remote l =>
    cases remote with
    | true => cases hlocal
    | false =>
      refine ⟨_, FmLocal.onGetSubList_yields l, ?_⟩
      rw [Workers.deed]
      cases (S.os false).whGetSubFiles l.path_ x with
      | none => exact FmScheduler.replaces_write ht rfl rfl
      | some bytes =>
        dsimp only
        rw [Workers.dispatchSubListBytes_eq (t := l) rfl]
        exact FmScheduler.replaces_remove_addAll ht _
  | del remote d =>
    cases remote with
    | true => cases hlocal
    | false =>
      refine ⟨_, FmLocal.onDelFile_yields d, ?_⟩
      rw [Workers.deed]
      cases (FmLocal.deleted (S.os false) d x).1 with
      | false => exact FmScheduler.replaces_write ht rfl rfl
      | true => exact FmScheduler.replaces_remove ht
  | new remote d =>
    cases remote with
    | true => cases hlocal
    | false =>
      refine ⟨_, FmLocal.onNewFile_yields d, ?_⟩
      rw [Workers.deed, show (S.loop false).remote = false from rfl, Bool.not_false, Bool.true_and]
      cases (FmLocal.created (S.os false) d x).1 <;> cases d.needInformUi_
      · exact FmScheduler.replaces_remove ht
      · exact FmScheduler.replaces_write ht rfl rfl
      · exact FmScheduler.replaces_remove ht
      · exact FmScheduler.replaces_remove ht
  | connect | download d | upload d | copy remote d => exact hplain.elim

/-! ## In small steps -/

variable (S)

/-- What the client has in hand, as it shows on the line. -/
inductive OnLine : Hand → Bool → List FmReq → List FmAck → Prop
  | idle : OnLine .idle true [] []
  | taken {t : FmTask} {r : FmReq} : Asks S t r → OnLine (.taken t) false [r] []
  | done {t : FmTask} {out : Outcome} {a : FmAck} : Answers S t out a → OnLine (.done t out) false [] [a]

/-- What the two sides are doing, in small steps. -/
structure Shows (s : Sides X) (w : Workers X) : Prop where
  scheduler : s.scheduler_ = w.scheduler_
  disks : s.disks = w.disks
  idle : w.hand false = .idle
  line : OnLine S (w.hand true) s.client.canSend_ s.requests s.acks
  held : w.Held

variable {S}

theorem shows_ready (scheduler : FmScheduler) (disks : Bool → X) :
    Shows S (ready scheduler disks).quiet ⟨scheduler, fun _ => .idle, disks, []⟩ :=
  ⟨rfl, rfl, rfl, .idle, fun _ _ h => h.elim nofun fun ⟨_, h⟩ => nomatch h⟩

/-- The request of the first task of the client, and the task put back as it is left. -/
theorem reqFirst_yields_write {q : FmScheduler} {u : FmTask} {r : FmReq} {x x' : X}
    (hfirst : q.getFirst true = some t) (hreq : Yields (FileManClient.req (S.os false) t) x (u, some r) x') :
    Yields (FileManClient.reqFirst (S.os false) q) x (q.write u, some r) x' := by
  rw [FileManClient.reqFirst, hfirst]
  exact Yields.bind hreq (yields_pure _ _)

/-- The request of the first task of the client, which stays as it is. -/
theorem reqFirst_yields {q : FmScheduler} {r : FmReq} {x x' : X} (hfirst : q.getFirst true = some t)
    (hreq : Yields (FileManClient.req (S.os false) t) x (t, some r) x') :
    Yields (FileManClient.reqFirst (S.os false) q) x (q, some r) x' := by
  have hyields := reqFirst_yields_write hfirst hreq
  rwa [FmScheduler.write_of_mem (FmScheduler.mem_of_getFirst hfirst)] at hyields

/-- **The work of the two sides is done in small steps.** -/
theorem shows_of_works (hshows : Shows S s w) (hplain : ∀ t ∈ w.scheduler_.tasks_, Plain S t.body)
    (h : Works S s s') : ∃ w', Relation.TransGen (Workers.Step S.os S.isUnix_) w w' ∧ Shows S s' w' ∧
      w'.ended = w.ended ++ s.scheduler_.gone s'.scheduler_ := by
  obtain ⟨hscheduler, hdisks, hidle, hline, hheld⟩ := hshows
  generalize hhand : w.hand true = hand at hline
  cases h with
  | @userLoop t q r x hcan hfirst hexec =>
    rw [hcan] at hline
    generalize hrequests : s.requests = requests at hline
    generalize hacks : s.acks = acks at hline
    cases hline with
    | idle =>
      have hremote : t.isLocal = false := by simpa using FmScheduler.isLocal_of_getFirst hfirst
      have hmem := FmScheduler.mem_of_getFirst hfirst
      rw [hscheduler] at hmem
      obtain ⟨r', hreq, hasks⟩ := asks (hplain t hmem) hremote
      have hyields := reqFirst_yields hfirst (hreq (s.disks false))
      cases hexec.symm.trans hyields.exec_eq
      have hstep : Workers.Step S.os S.isUnix_ w { w with hand := Function.update w.hand true (.taken t) } :=
        .take hhand (hscheduler ▸ hfirst)
      refine ⟨_, .single hstep, ⟨hscheduler, ?_, ?_, ?_, hheld.step hstep⟩, ?_⟩
      · exact (Function.update_eq_self _ _).trans hdisks
      · simpa using hidle
      · simp only [Function.update_self, List.nil_append, Option.toList_some]
        exact .taken hasks
      · exact ((congrArg (w.ended ++ ·) (FmScheduler.gone_self _)).trans (List.append_nil _)).symm
  | @serve r rest a x hreq hexec =>
    rw [hreq] at hline
    generalize hcan : s.client.canSend_ = can at hline
    generalize hacks : s.acks = acks at hline
    cases hline with
    | @taken t r hasks =>
      obtain ⟨a', hyields, hanswers⟩ := hasks (s.disks true)
      cases hexec.symm.trans hyields.exec_eq
      have hstep : Workers.Step S.os S.isUnix_ w _ := .act hhand
      refine ⟨_, .single hstep, ⟨hscheduler, ?_, ?_, ?_, hheld.step hstep⟩, ?_⟩
      · simp only [hdisks, Setup.loop]
      · simpa using hidle
      · simp only [Function.update_self, hcan, List.nil_append]
        rw [hdisks] at hanswers
        exact .done hanswers
      · exact ((congrArg (w.ended ++ ·) (FmScheduler.gone_self _)).trans (List.append_nil _)).symm
  | @read a rest q x hacks hexec =>
    rw [hacks] at hline
    generalize hcan : s.client.canSend_ = can at hline
    generalize hrequests : s.requests = requests at hline
    cases hline with
    | @done t out a hanswers =>
      obtain ⟨hmem, -⟩ := hheld true t (.inr ⟨out, hhand⟩)
      obtain ⟨q, hack, hsettles⟩ := hanswers w.scheduler_ (s.disks false) hmem
      rw [← hscheduler] at hack hsettles hmem
      cases hexec.symm.trans hack.exec_eq
      have hstep : Workers.Step S.os S.isUnix_ w _ := .settle hhand (hscheduler ▸ hsettles)
      refine ⟨_, .single hstep, ⟨rfl, ?_, ?_, ?_, hheld.step hstep⟩, ?_⟩
      · exact (Function.update_eq_self _ _).trans hdisks
      · simpa using hidle
      · simp only [Function.update_self]
        exact .idle
      · exact congrArg (w.ended ++ ·) (hsettles.gone_eq hmem).symm
  | @localLoop t q x hfirst hexec =>
    have hmem := FmScheduler.mem_of_getFirst hfirst
    obtain ⟨q', hyields, hsettles⟩ := onUserLoop_yields (hplain t (hscheduler ▸ hmem)) hfirst (s.disks false)
    cases hexec.symm.trans hyields.exec_eq
    have hturn := @Workers.turn X S.os S.isUnix_ w false t q hidle (hscheduler ▸ hfirst)
      (hscheduler ▸ hdisks ▸ hsettles)
    refine ⟨_, hturn, ⟨rfl, ?_, hidle, ?_, hheld.steps hturn⟩, ?_⟩
    · rw [hdisks]
      rfl
    · rw [hhand]
      exact hline
    · have hgone := hsettles.gone_eq hmem
      rw [hdisks] at hgone
      exact congrArg (w.ended ++ ·) hgone.symm

/-- **Where no task failed, something is done until the queue is empty.** -/
theorem exists_works (hshows : Shows S s w) (hplain : ∀ t ∈ w.scheduler_.tasks_, Plain S t.body)
    (hok : ∀ t ∈ w.scheduler_.tasks_, t.result_ = FmResultOk) (hne : w.scheduler_.tasks_ ≠ []) :
    ∃ s', Works S s s' := by
  obtain ⟨hscheduler, hdisks, hidle, hline, hheld⟩ := hshows
  rw [← hscheduler] at hplain hok hne
  generalize hhand : w.hand true = hand at hline
  generalize hcan : s.client.canSend_ = can at hline
  generalize hrequests : s.requests = requests at hline
  generalize hacks : s.acks = acks at hline
  cases hline with
  | @taken t r hasks =>
    obtain ⟨a, hyields, -⟩ := hasks (s.disks true)
    exact ⟨_, .serve hrequests hyields.exec_eq⟩
  | @done t out a hanswers =>
    obtain ⟨hmem, -⟩ := hheld true t (.inr ⟨out, hhand⟩)
    obtain ⟨q, hack, -⟩ := hanswers s.scheduler_ (s.disks false) (hscheduler ▸ hmem)
    exact ⟨_, .read hacks hack.exec_eq⟩
  | idle =>
    obtain ⟨isRemoteTask, t, ht⟩ := FmScheduler.exists_getFirst hok hne
    have hplain := hplain t (FmScheduler.mem_of_getFirst ht)
    cases isRemoteTask with
    | false =>
      obtain ⟨q, hyields, -⟩ := onUserLoop_yields hplain ht (s.disks false)
      exact ⟨_, .localLoop ht hyields.exec_eq⟩
    | true =>
      have hremote : t.isLocal = false := by simpa using FmScheduler.isLocal_of_getFirst ht
      obtain ⟨r, hreq, -⟩ := asks hplain hremote
      exact ⟨_, .userLoop hcan ht (reqFirst_yields ht (hreq _)).exec_eq⟩

/-! ## Runs -/

/-- What shows nothing of the messages shows the sides with them. -/
theorem Shows.of_quiet (h : Shows S s.quiet w) : Shows S s w := ⟨h.scheduler, h.disks, h.idle, h.line, h.held⟩

section Runs

variable {I : Workers X → Prop} {q : FmScheduler} {disks : Bool → X} {es : List (List FmTask)}
  (h₀ : I ⟨q, fun _ => .idle, disks, []⟩)
  (hI : ∀ w w', w.Held → I w → Workers.Step S.os S.isUnix_ w w' → I w')
  (hplain : ∀ w, I w → ∀ t ∈ w.scheduler_.tasks_, Plain S t.body)

include h₀ hI hplain

/-- What holds of the small steps holds of the work, which is not longer than they are where no task fails. -/
theorem shows_of_work (hrun : Run (WorkStep S) (ready q disks).quiet es s) :
    ∃ w, Shows S s w ∧ I w ∧ w.ended = es.flatten ∧
      ((∀ w, I w → ∀ remote t, w.hand remote ≠ .done t none) → es.length ≤ w.progress) := by
  induction hrun with
  | nil => exact ⟨_, shows_ready q disks, h₀, rfl, fun _ => Nat.zero_le _⟩
  | snoc _ hstep ih =>
    obtain ⟨w, hshows, h, hover, hlen⟩ := ih
    obtain ⟨hworks, rfl⟩ := hstep
    obtain ⟨w', hsteps, hshows', hover'⟩ := shows_of_works hshows (hplain w h) hworks
    refine ⟨w', hshows', Workers.invariant_steps hI hshows.held h hsteps, ?_, fun hok => ?_⟩
    · rw [hover', hover, List.flatten_append, List.flatten_singleton]
    · have hlt := Workers.progress_steps hI hok hshows.held h hsteps
      have hle := hlen hok
      rw [List.length_append, List.length_singleton]
      omega

/-- **What holds of the small steps holds of a run**, with its messages. -/
theorem shows_of_run (hrun : Run (Step S) (ready q disks) es s) :
    ∃ w, Shows S s w ∧ I w ∧ w.ended = es.flatten ∧
      ((∀ w, I w → ∀ remote t, w.hand remote ≠ .done t none) → es.length ≤ 4 * w.progress + 3) := by
  obtain ⟨es', hrun', hflatten, hlen⟩ := works_of_run hrun
  obtain ⟨w, hshows, h, hover, hle⟩ := shows_of_work h₀ hI hplain hrun'
  refine ⟨w, hshows.of_quiet, h, hover.trans hflatten, fun hok => ?_⟩
  have hle := hle hok
  rw [loops_ready] at hlen
  omega

end Runs

end Sides

end EuhatExpert
