import EuhatExpert.FileMan.DiskSession

/-!
# FileMan/DelNew — deleting and creating at the peer, over connections that break

A file or folder created again is as it was, and so is one that could not be deleted.  One that was
deleted is not there to be deleted again: when the answer to that is lost, the next one is a failure.
-/

namespace EuhatExpert

open Machinery TraceM

namespace DelNew

/-- The two commands. -/
inductive Command
  | del
  | new
  deriving DecidableEq

namespace Command

/-- A task of the command, at the peer, with the priority of a deletion or the interest in a creation. -/
def body (cmd : Command) (path : Bytes) (isFolder : ℤ) (own : ℤ × Bool) : FmTask.Body :=
  match cmd with
  | del => .del true ⟨path, isFolder, own.1⟩
  | new => .new true ⟨path, isFolder, own.2⟩

def req (cmd : Command) (r : NodeReq) : FmReq :=
  match cmd with
  | del => .del r
  | new => .new r

def ack (cmd : Command) (a : NodeAck) : FmAck :=
  match cmd with
  | del => .del a
  | new => .new a

/-- What the command does to a disk. -/
def run (cmd : Command) (path : Bytes) (isFolder : ℤ) (d : Disk) : Bool × Disk :=
  match cmd with
  | del => if isFolder ≠ 0 then Disk.opRmDir path d else Disk.opUnlink path d
  | new =>
    if isFolder ≠ 0 then Disk.opMkDir path (Disk.whPrepareFolder path d) else Disk.fopenCreate path d

end Command

/-- A task to delete or create at the peer. -/
def IsNode (t : FmTask) : Prop :=
  ∃ (cmd : Command) (path : Bytes) (isFolder : ℤ) (own : ℤ × Bool), t.body = cmd.body path isFolder own

/-! ## The server -/

variable {D : Disks}

/-- **What the server does with the request of a task.** -/
theorem echo_yields (cmd : Command) (r : NodeReq) (d : Disk) :
    Yields (FileManServer.echo (Disk.os D.remoteUnix D.remoteFree) D.baseDir_ (cmd.req r)) d
      (cmd.ack ⟨r.id, whCorrectFilePath D.remoteUnix r.path, r.isFolder,
        (cmd.run (whCorrectFilePath D.remoteUnix r.path) r.isFolder d).1⟩)
      (cmd.run (whCorrectFilePath D.remoteUnix r.path) r.isFolder d).2 := by
  cases cmd with
  | del =>
    refine Yields.bind (Yields.bind (?_ : Yields (FmsDelFile.remove _ _ _) d _ _) (yields_pure _ _))
      (yields_pure _ _)
    rw [FmsDelFile.remove, Command.run]
    split_ifs
    · exact yields_call _ _ d
    · exact yields_call _ _ d
  | new =>
    refine Yields.bind (Yields.bind (?_ : Yields (FmsNewFile.create _ _ _) d _ _) (yields_pure _ _))
      (yields_pure _ _)
    rw [FmsNewFile.create, Command.run]
    split_ifs
    · exact Yields.bind (yields_call _ _ d) (yields_call _ _ _)
    · exact yields_call _ _ d

/-- **Creating again, and failing to delete again, change nothing.** -/
theorem run_run {cmd : Command} {path : Bytes} {isFolder : ℤ} {d : Disk}
    (h : cmd = .del → (cmd.run path isFolder d).1 = false) :
    cmd.run path isFolder (cmd.run path isFolder d).2 = cmd.run path isFolder d := by
  cases cmd with
  | del =>
    have hfalse := h rfl
    have hsame : (Command.del.run path isFolder d).2 = d := by
      simp only [Command.run] at hfalse ⊢
      by_cases hfolder : isFolder ≠ 0
      · rw [if_pos hfolder, Disk.opRmDir] at hfalse ⊢
        split at hfalse
        · split_ifs at hfalse ⊢
          rfl
        · rfl
      · rw [if_neg hfolder, Disk.opUnlink] at hfalse ⊢
        split at hfalse
        · cases hfalse
        · rfl
    rw [hsame]
  | new =>
    simp only [Command.run]
    by_cases hfolder : isFolder ≠ 0
    · simp only [if_pos hfolder]
      have hthere : ∀ p ∈ Disk.containers path,
          (((Disk.opMkDir path (Disk.whPrepareFolder path d)).2.get p)).isSome :=
        fun p hp => Disk.isSome_opMkDir (Disk.isSome_whPrepareFolder d hp)
      rw [Disk.whPrepareFolder_of_isSome hthere, Disk.opMkDir_of_isSome (Disk.isSome_opMkDir_self _ _)]
      have hok : (Disk.opMkDir path (Disk.whPrepareFolder path d)).1 = true := by
        rw [Disk.opMkDir]
        split
        · rfl
        · rfl
      exact Prod.ext hok.symm rfl
    · simp only [if_neg hfolder]
      cases path with
      | nil => rfl
      | cons c path =>
        rw [Disk.fopenCreate.eq_def, Disk.fopenCreate.eq_def]
        cases hget : d.get (c :: path) with
        | none =>
          dsimp only
          rw [Disk.get_set_self]
          exact Prod.ext rfl (d.set_set _ _)
        | some e =>
          cases e with
          | file content =>
            dsimp only
            rw [Disk.get_set_self]
            exact Prod.ext rfl (d.set_set _ _)
          | folder => rw [hget]

/-! ## Turns -/

variable (D) in
/-- The session of a queue, with nobody else about. -/
def setting : Setting Disk Disk := D.setting (.keep id) (.keep id)

/-- A queue of tasks to delete or create at the peer. -/
def IsNodes (s : FmScheduler) : Prop := ∀ t ∈ s.tasks_, IsNode t

variable {s : FmScheduler} {l : Disk} {rest : List FmTask} {cmd : Command} {id isFolder : ℤ} {path : Bytes}
  {own : ℤ × Bool}

/-- The task at the front sends its request, and stays as it is. -/
theorem send_front (htasks : s.tasks_ = ⟨id, FmResultOk, cmd.body path isFolder own⟩ :: rest) :
    (Session.exchange (setting D)).send (s, l) = some ((s, l), some (cmd.req ⟨id, path, isFolder⟩)) := by
  have hreq : Yields (FileManClient.req (setting D).local_ ⟨id, FmResultOk, cmd.body path isFolder own⟩) l
      (⟨id, FmResultOk, cmd.body path isFolder own⟩, some (cmd.req ⟨id, path, isFolder⟩)) l := by
    cases cmd with
    | del => exact yields_pure _ _
    | new => exact yields_pure _ _
  have hremote : FmTask.isLocal ⟨id, FmResultOk, cmd.body path isFolder own⟩ = false := by
    cases cmd with
    | del => rfl
    | new => rfl
  rw [Session.send_of_front htasks rfl hremote hreq, FmScheduler.write_self htasks]

/-- An answer ends the task at the front, or fails it. -/
theorem receive_front {a : NodeAck} (htasks : s.tasks_ = ⟨a.id, FmResultOk, cmd.body path isFolder own⟩ :: rest) :
    ∃ s', (Session.exchange (setting D)).receive (cmd.ack a) (s, l) = some (s', l) ∧
      s'.tasks_ = if a.retResult then rest
        else ⟨a.id, FmResultFailed, cmd.body path isFolder own⟩ :: rest := by
  have settles : ∀ {α : Type} {cast : FmTask → Option α} {x : α},
      cast ⟨a.id, FmResultOk, cmd.body path isFolder own⟩ = some x →
      (FmScheduler.settle cast a s).tasks_ = if a.retResult then rest
        else ⟨a.id, FmResultFailed, cmd.body path isFolder own⟩ :: rest := by
    intro α cast x hcast
    rw [FmScheduler.settle, show s.getAs cast a.id = some (⟨a.id, FmResultOk, cmd.body path isFolder own⟩, x) from
      FmScheduler.getAs_front htasks hcast]
    dsimp only
    split_ifs
    · exact FmScheduler.remove_front htasks
    · exact FmScheduler.write_front htasks rfl
  cases cmd with
  | del => exact ⟨_, rfl, @settles _ FmTask.asDel _ rfl⟩
  | new => exact ⟨_, rfl, @settles _ FmTask.asNew _ rfl⟩

/-- No request is sent, or that of the task at the front. -/
theorem front_cases (hs : IsNodes s) :
    s.getFirst true = none ∨ ∃ (cmd : Command) (id isFolder : ℤ) (path : Bytes) (own : ℤ × Bool)
      (rest : List FmTask),
      s.tasks_ = ⟨id, FmResultOk, cmd.body path isFolder own⟩ :: rest := by
  cases htasks : s.tasks_ with
  | nil => exact .inl (FmScheduler.getFirst_nil htasks _)
  | cons t rest =>
    obtain ⟨cmd, path, isFolder, own, hbody⟩ := hs t (by rw [htasks]; exact List.mem_cons_self)
    by_cases hok : t.result_ = FmResultOk
    · obtain ⟨id, result, body⟩ := t
      obtain rfl : body = cmd.body path isFolder own := hbody
      obtain rfl : result = FmResultOk := hok
      exact .inr ⟨cmd, id, isFolder, path, own, rest, rfl⟩
    · exact .inl (FmScheduler.getFirst_failed htasks hok _)

theorem turn_of_getFirst (h : s.getFirst true = none) (l d : Disk) :
    (Session.exchange (setting D)).turn ((s, l), d) = ((s, l), d) := by
  rw [Exchange.turn]
  dsimp only
  rw [Session.send_of_getFirst h]

/-- **A turn ends the task at the front or fails it**, or there is none to be taken. -/
theorem turn_cases (hs : IsNodes s) (l d : Disk) :
    s.getFirst true = none ∨ ∃ t rest s' d', s.tasks_ = t :: rest ∧ t.result_ = FmResultOk ∧
      (Session.exchange (setting D)).turn ((s, l), d) = ((s', l), d') ∧
      (s'.tasks_ = rest ∨ s'.tasks_ = { t with result_ := FmResultFailed } :: rest) := by
  obtain hnone | ⟨cmd, id, isFolder, path, own, rest, htasks⟩ := front_cases hs
  · exact .inl hnone
  have hserve := (@echo_yields D cmd ⟨id, path, isFolder⟩ d).exec_eq
  obtain ⟨s', hreceive, hs'⟩ := @receive_front D s l rest cmd isFolder path own
    ⟨id, whCorrectFilePath D.remoteUnix path, isFolder,
      (cmd.run (whCorrectFilePath D.remoteUnix path) isFolder d).1⟩ htasks
  refine .inr ⟨_, rest, s', (cmd.run (whCorrectFilePath D.remoteUnix path) isFolder d).2, htasks, rfl, ?_,
    ?_⟩
  · rw [Exchange.turn]
    dsimp only
    rw [send_front htasks]
    dsimp only
    rw [show (Session.exchange (setting D)).serve (cmd.req ⟨id, path, isFolder⟩) d = _ from hserve]
    dsimp only
    rw [hreceive]
  · dsimp only at hs'
    split_ifs at hs'
    · exact .inl hs'
    · exact .inr hs'

/-- The queue stays one of such tasks, and keeps those that failed. -/
theorem turn_keeps (hs : IsNodes s) (l d : Disk) :
    ∃ s' d', (Session.exchange (setting D)).turn ((s, l), d) = ((s', l), d') ∧ IsNodes s' ∧
      ∀ t ∈ s.tasks_, t.result_ ≠ FmResultOk → t ∈ s'.tasks_ := by
  obtain hnone | ⟨t, rest, s', d', htasks, hok, hturn, hs'⟩ := @turn_cases D s hs l d
  · exact ⟨s, d, turn_of_getFirst hnone l d, hs, fun t ht _ => ht⟩
  have hrest : ∀ u ∈ rest, u ∈ s'.tasks_ := by
    intro u hu
    obtain hs' | hs' := hs'
    · rwa [hs']
    · rw [hs']
      exact List.mem_cons_of_mem _ hu
  refine ⟨s', d', hturn, fun u hu => ?_, fun u hu hfailed => ?_⟩
  · obtain hs' | hs' := hs'
    · rw [hs'] at hu
      exact hs u (by rw [htasks]; exact List.mem_cons_of_mem _ hu)
    · rw [hs'] at hu
      obtain rfl | hu := List.mem_cons.mp hu
      · obtain ⟨cmd, path, isFolder, own, hbody⟩ := hs t (by rw [htasks]; exact List.mem_cons_self)
        exact ⟨cmd, path, isFolder, own, hbody⟩
      · exact hs u (by rw [htasks]; exact List.mem_cons_of_mem _ hu)
  · rw [htasks] at hu
    obtain rfl | hu := List.mem_cons.mp hu
    · exact absurd hok hfailed
    · exact hrest u hu

theorem turns_keep (hs : IsNodes s) (l d : Disk) (n : ℕ) :
    ∃ s' d', (Session.exchange (setting D)).turn^[n] ((s, l), d) = ((s', l), d') ∧ IsNodes s' ∧
      ∀ t ∈ s.tasks_, t.result_ ≠ FmResultOk → t ∈ s'.tasks_ := by
  induction n with
  | zero => exact ⟨s, d, rfl, hs, fun t ht _ => ht⟩
  | succ n ih =>
    obtain ⟨s₁, d₁, hiterate, hs₁, hkeep₁⟩ := ih
    obtain ⟨s₂, d₂, hturn, hs₂, hkeep₂⟩ := @turn_keeps D s₁ hs₁ l d₁
    refine ⟨s₂, d₂, ?_, hs₂, fun t ht hfailed => hkeep₂ t (hkeep₁ t ht hfailed) hfailed⟩
    rw [Function.iterate_succ_apply', hiterate, hturn]

/-- **As many turns as there are tasks end the queue, or fail a task.** -/
theorem settled (hs : IsNodes s) (l d : Disk) {n : ℕ} (hn : s.tasks_.length ≤ n) :
    ((Session.exchange (setting D)).turn^[n] ((s, l), d)).1.1.getFirst true = none := by
  induction n generalizing s d with
  | zero => exact FmScheduler.getFirst_nil (List.length_eq_zero_iff.mp (Nat.le_zero.mp hn)) _
  | succ n ih =>
    have stays : ∀ {s' : FmScheduler} {d' : Disk}, s'.getFirst true = none →
        ((Session.exchange (setting D)).turn^[n] ((s', l), d')).1.1.getFirst true = none := by
      intro s' d' hnone
      rw [Function.iterate_fixed (turn_of_getFirst hnone l d')]
      exact hnone
    rw [Function.iterate_succ_apply]
    obtain hnone | ⟨t, rest, s', d', htasks, -, hturn, hs'⟩ := @turn_cases D s hs l d
    · rw [turn_of_getFirst hnone]
      exact stays hnone
    · rw [hturn]
      obtain ⟨s'', d'', hturn', hs'', -⟩ := @turn_keeps D s hs l d
      cases hturn.symm.trans hturn'
      obtain hdone | hfailed := hs'
      · refine ih hs'' d' ?_
        rw [hdone]
        rw [htasks, List.length_cons] at hn
        omega
      · exact stays (FmScheduler.getFirst_failed hfailed (by dsimp only; decide) _)

variable (D) in
/-- What a queue comes to when nothing breaks: a turn for each task. -/
def alone (s : FmScheduler) (l d : Disk) : (FmScheduler × Disk) × Disk :=
  (Session.exchange (setting D)).turn^[s.tasks_.length] ((s, l), d)

/-- A queue that is settled after any number of turns is as it is when left alone. -/
theorem eq_alone (hs : IsNodes s) (l d : Disk) {n : ℕ}
    (hsettled : ((Session.exchange (setting D)).turn^[n] ((s, l), d)).1.1.getFirst true = none) :
    (Session.exchange (setting D)).turn^[n] ((s, l), d) = alone D s l d :=
  Exchange.turn_iterate_eq (turn_of_getFirst hsettled _ _) (turn_of_getFirst (settled hs l d le_rfl) _ _)

/-- A failure after any number of turns is one when left alone. -/
theorem mem_alone (hs : IsNodes s) (l d : Disk) (n : ℕ) {t : FmTask} (hfailed : t.result_ ≠ FmResultOk)
    (ht : t ∈ ((Session.exchange (setting D)).turn^[n] ((s, l), d)).1.1.tasks_) :
    t ∈ (alone D s l d).1.1.tasks_ := by
  by_cases hn : n ≤ s.tasks_.length
  · obtain ⟨s', d', hiterate, hs', -⟩ := @turns_keep D s hs l d n
    rw [hiterate] at ht
    obtain ⟨s'', d'', hiterate', -, hkeep⟩ := @turns_keep D s' hs' l d' (s.tasks_.length - n)
    rw [alone, ← Nat.sub_add_cancel hn, Function.iterate_add_apply, hiterate, hiterate']
    exact hkeep t ht hfailed
  · rwa [eq_alone hs l d (settled hs l d (not_le.mp hn).le)] at ht

/-! ## Runs -/

theorem send_cases (hs : IsNodes s) {c₁ : FmScheduler × Disk} {r : Option FmReq}
    (hsend : (Session.exchange (setting D)).send (s, l) = some (c₁, r)) :
    c₁ = (s, l) ∧ ∀ q, r = some q → s.tasks_ ≠ [] ∧ ∃ (cmd : Command) (n : NodeReq), q = cmd.req n := by
  obtain hnone | ⟨cmd, id, isFolder, path, own, rest, htasks⟩ := front_cases hs
  · rw [Session.send_of_getFirst hnone] at hsend
    cases hsend
    exact ⟨rfl, fun q hq => (by cases hq)⟩
  · rw [send_front htasks] at hsend
    cases hsend
    refine ⟨rfl, fun q hq => ?_⟩
    cases hq
    exact ⟨by rw [htasks]; exact List.cons_ne_nil _ _, cmd, _, rfl⟩

theorem drift_eq {c c' : FmScheduler × Disk} (h : (Session.exchange (setting D)).onClient.Rel c c') :
    c' = c :=
  Prod.ext h.1 h.2

theorem drift_server_eq {d d' : Disk} (h : (Session.exchange (setting D)).onServer.Rel d d') : d' = d := h

theorem resends (hs : IsNodes s) (l : Disk) : (Session.exchange (setting D)).Resends (s, l) := by
  intro c₁ c₂ r hsend hdrift
  obtain ⟨rfl, -⟩ := send_cases hs hsend
  obtain rfl := drift_eq hdrift
  exact ⟨_, hsend, (Session.exchange (setting D)).onClient.refl _⟩

/-- **All is repeated without harm but a deletion that was carried out.** -/
theorem repeats (d : Disk) (r : NodeReq) {a : FmAck} (h : ∀ b, a = .del b → b.retResult = false) :
    (Session.exchange (setting D)).Repeats d (cmd.req r) a := by
  intro d₁ d₂ hserve hdrift
  obtain rfl := drift_server_eq hdrift
  cases hserve.symm.trans (@echo_yields D cmd r d).exec_eq
  have hagain := (@echo_yields D cmd r (cmd.run (whCorrectFilePath D.remoteUnix r.path) r.isFolder d).2).exec_eq
  rw [run_run fun hdel => by subst hdel; exact h _ rfl] at hagain
  exact ⟨_, hagain, (Session.exchange (setting D)).onServer.refl _⟩

/-- The step loses the answer to a deletion that was carried out. -/
def LosesDeletion (s : Session Disk Disk) : Session.Event → Prop
  | .disconnect | .reset => ∃ a, .del a ∈ s.acks ∧ a.retResult = true
  | .serveStray _ (.del a) => a.retResult = true
  | _ => False

theorem keeps_deletions {s s' : Session Disk Disk}
    {x : Exchange.State (FmScheduler × Disk) Disk FmReq FmAck} {e : Session.Event}
    {e' : Exchange.Event FmReq FmAck} (hshows : Session.Shows s x)
    (hstep : Session.Step (setting D) s e s') (hview : Session.Views e e') (h : ¬ LosesDeletion s e) :
    ∀ a, Exchange.Loses x e' a → ∀ b, a = .del b → b.retResult = false := by
  rintro a hlose b rfl
  have hwire := hshows.wire
  cases hresult : b.retResult with
  | false => rfl
  | true =>
    exfalso
    obtain ⟨hw, rfl⟩ | ⟨r, q, hw, rfl⟩ := hlose.cases
    · have hmem : .del b ∈ s.acks := by
        rw [hw] at hwire
        generalize s.requests = requests at hwire
        generalize s.acks = acks at hwire ⊢
        generalize s.strays = strays at hwire
        cases hwire
        exact List.mem_cons_self
      cases e with
      | disconnect => exact h ⟨b, hmem, hresult⟩
      | reset => exact h ⟨b, hmem, hresult⟩
      | userLoop => obtain h | h := hview <;> cases h
      | _ => cases hview
    · cases e with
      | serve r' a =>
        cases hstep with
        | serve hreq =>
          rw [hw, hreq] at hwire
          generalize s.acks = acks at hwire
          generalize s.strays = strays at hwire
          cases hwire
      | serveStray r' a =>
        cases hview
        exact h hresult
      | userLoop => obtain h | h := hview <;> cases h
      | _ => cases hview

/-- The queue fails nothing that it would not fail alone, and when it ends the disk is what it would be. -/
def AsAlone (D : Disks) (s₀ : FmScheduler) (l₀ d₀ : Disk) (s : Session Disk Disk) : Prop :=
  (∀ t ∈ s.client.scheduler_.tasks_, t.result_ ≠ FmResultOk → t ∈ (alone D s₀ l₀ d₀).1.1.tasks_) ∧
    (s.client.scheduler_.tasks_ = [] →
      (alone D s₀ l₀ d₀).1.1.tasks_ = [] ∧ s.server = (alone D s₀ l₀ d₀).2)

/-- **Deletions and creations come to what they come to when nothing breaks**, as long as no answer to a
deletion that was carried out is lost. -/
theorem asAlone_of_run (D : Disks) (s₀ : FmScheduler) (h₀ : IsNodes s₀) (l₀ d₀ : Disk)
    {es : List Session.Event} {s : Session Disk Disk}
    (h : Run (restrict (Session.Step (setting D)) fun s e => ¬ LosesDeletion s e) (.start s₀ l₀ d₀) es s) :
    AsAlone D s₀ l₀ d₀ s := by
  obtain ⟨es', x, hrun, -, hshows⟩ := Session.shows_of_run
    (P := fun x e => ∀ a, Exchange.Loses x e a → ∀ b, a = FmAck.del b → b.retResult = false)
    (fun s x e e' s' hshows hstep hview hsafe => keeps_deletions hshows hstep hview hsafe)
    (Session.shows_start s₀ l₀ d₀) h
  have hbase : ∀ c d, (Session.exchange (setting D)).Turns ((s₀, l₀), d₀) (c, d) →
      ∃ n, (c, d) = (Session.exchange (setting D)).turn^[n] ((s₀, l₀), d₀) ∧ IsNodes c.1 := by
    intro c d hturns
    obtain ⟨n, hn⟩ := Exchange.Turns.eq_iterate (fun _ _ => drift_eq) (fun _ _ => drift_server_eq) hturns
    obtain ⟨s', d', hiterate, hs', -⟩ := @turns_keep D s₀ h₀ l₀ d₀ n
    rw [hiterate] at hn
    refine ⟨n, hn.trans hiterate.symm, ?_⟩
    cases hn
    exact hs'
  obtain ⟨⟨sb, lb⟩, db, hturns, hunder⟩ := Exchange.underway_of_run
    (fun c d hturns => by
      obtain ⟨-, -, hnodes⟩ := hbase c d hturns
      exact resends hnodes c.2)
    (fun c d c₁ r a x e hturns hsend hsafe hlose => by
      obtain ⟨-, -, hnodes⟩ := hbase c d hturns
      obtain ⟨-, hr⟩ := send_cases hnodes hsend
      obtain ⟨-, cmd, n, rfl⟩ := hr r rfl
      exact repeats d n (hsafe a hlose)) hrun
  obtain ⟨n, hn, hnodes⟩ := hbase _ _ hturns
  -- the client's queue is the one the turns led to, and the server's disk too when the queue is at its end
  have hqueue : x.client.1 = sb ∧ (sb.tasks_ = [] → x.server = db) := by
    have busy : ∀ {c₁ c₂ : FmScheduler × Disk} {r : FmReq} {p : Prop},
        (Session.exchange (setting D)).send (sb, lb) = some (c₁, some r) →
        (Session.exchange (setting D)).onClient.Rel c₁ c₂ → c₂.1 = sb ∧ (sb.tasks_ = [] → p) := by
      intro c₁ c₂ r p hsend hdrift
      obtain ⟨rfl, hr⟩ := send_cases hnodes hsend
      exact ⟨hdrift.1, fun hnil => absurd hnil (hr r rfl).1⟩
    cases hunder with
    | rest => exact ⟨rfl, fun _ => rfl⟩
    | sent hsend hdrift => exact busy hsend hdrift
    | served hsend hdrift => exact busy hsend hdrift
    | again hsend hdrift => exact busy hsend hdrift
  rw [hshows.client, hshows.server] at hqueue
  obtain ⟨hsb, hserver⟩ := hqueue
  refine ⟨fun t ht hfailed => mem_alone h₀ l₀ d₀ n hfailed ?_, fun hnil => ?_⟩
  · rw [← hn]
    dsimp only at hsb ⊢
    rwa [← hsb]
  · have hnil' : sb.tasks_ = [] := by rw [← hsb]; exact hnil
    have hsettled : ((Session.exchange (setting D)).turn^[n] ((s₀, l₀), d₀)).1.1.getFirst true = none := by
      rw [← hn]
      exact FmScheduler.getFirst_nil hnil' _
    rw [← eq_alone h₀ l₀ d₀ hsettled, ← hn]
    exact ⟨hnil', hserver hnil'⟩

/-- A queue to delete the file `/a/f`. -/
def delF : FmScheduler := .single ⟨0, FmResultOk, Command.del.body [slash, 97, slash, 102] 0 (100, false)⟩

/-- A disk with that file. -/
def diskF : Disk := [([slash, 97, slash, 102], .file [7])]

/-- Where the answer arrives, the queue comes to what it comes to alone. -/
theorem delF_asAlone : ∃ es s,
    Run (restrict (Session.Step (setting roomyDisks)) fun s e => ¬ LosesDeletion s e) (.start delF [] diskF)
      es s ∧ s.client.scheduler_.tasks_ = [] ∧ AsAlone roomyDisks delF [] diskF s := by
  have hstart : Run (restrict (Session.Step (setting roomyDisks)) fun s e => ¬ LosesDeletion s e)
      (.start delF [] diskF) [] _ := .nil
  have hlost := hstart.snoc ⟨.connect rfl, id⟩ |>.snoc ⟨.userStart rfl, id⟩
    |>.snoc ⟨.userLoop rfl rfl rfl, id⟩ |>.snoc ⟨.disconnect rfl, by rintro ⟨a, ha, -⟩; cases ha⟩
    |>.snoc ⟨.reset, by rintro ⟨a, ha, -⟩; cases ha⟩
  have hdone := hlost.snoc ⟨.connect rfl, id⟩ |>.snoc ⟨.userStart rfl, id⟩
    |>.snoc ⟨.userLoop rfl rfl rfl, id⟩ |>.snoc ⟨.serve rfl rfl, id⟩ |>.snoc ⟨.read rfl rfl rfl, id⟩
  have hnodes : IsNodes delF := by
    intro t ht
    obtain rfl := List.mem_singleton.mp ht
    exact ⟨.del, _, _, _, rfl⟩
  exact ⟨_, _, hdone, rfl, asAlone_of_run roomyDisks delF hnodes [] diskF hdone⟩

/-- **Where the answer is lost, the file is deleted and the task fails.** -/
theorem delF_not_asAlone : ¬ ∀ es s, Run (Session.Step (setting roomyDisks)) (.start delF [] diskF) es s →
    AsAlone roomyDisks delF [] diskF s := by
  intro h
  have hstart : Run (Session.Step (setting roomyDisks)) (.start delF [] diskF) [] _ := .nil
  have hlost := hstart.snoc (.connect rfl) |>.snoc (.userStart rfl) |>.snoc (.userLoop rfl rfl rfl)
    |>.snoc (.serve rfl rfl) |>.snoc (.disconnect rfl) |>.snoc .reset
  have hfailed := hlost.snoc (.connect rfl) |>.snoc (.userStart rfl) |>.snoc (.userLoop rfl rfl rfl)
    |>.snoc (.serve rfl rfl) |>.snoc (.read rfl rfl rfl)
  have hmem := (h _ _ hfailed).1 ⟨0, FmResultFailed, Command.del.body [slash, 97, slash, 102] 0 (100, false)⟩
    List.mem_cons_self (by decide)
  have hnone : (alone roomyDisks delF [] diskF).1.1.tasks_ = [] := rfl
  rw [hnone] at hmem
  cases hmem

end DelNew

end EuhatExpert
