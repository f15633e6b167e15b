import EuhatExpert.FileMan.DiskSession

/-!
# FileMan/Download — a download, over connections that break

The server only reads, so a request repeated is a request.  The client writes a segment when it takes the
answer, and moves `offset_` by as much: at every moment its file is what the server's has before `offset_`
(`Holds`).
-/

namespace EuhatExpert

open Machinery TraceM

namespace Download

variable (D : Disks)

/-- The path a task downloads from. -/
def origin (t : FmTaskDownload) : Bytes := whCorrectFilePath D.remoteUnix t.peerPath_

/-- The request of a task from `k` on. -/
def requestOf (id : ℤ) (t : FmTaskDownload) (k : ℕ) : DownReq :=
  ⟨id, t.peerPath_, k, FILE_MAN_RECV_FILE_SEGMENT_MAX_LEN⟩

/-- The answer to it, when the file holds `src`. -/
def answerOf (id : ℤ) (t : FmTaskDownload) (src : Bytes) (k : ℕ) : DownAck :=
  ⟨id, origin D t, Disk.segmentOf src k segmentLen⟩

/-- What a download needs: its origin is in the shared directory, and there is room at home. -/
structure Ready (t : FmTaskDownload) : Prop where
  inBase : strIsStartWith (origin D t) D.baseDir_ = true
  room : ¬ D.localFree t.localPath_ - t.totalFileSize_.tdiv (1024 * 1024) < 100

variable {D} {t₀ : FmTaskDownload} {src : Bytes}

/-- **What the server does with the request of a task.** -/
theorem echo_yields (hready : Ready D t₀) {d : Disk} (hsrc : d.file (origin D t₀) = some src) (id : ℤ)
    {k : ℕ} (hk : k ≤ src.length) :
    Yields (FileManServer.echo (Disk.os D.remoteUnix D.remoteFree) D.baseDir_ (.down (requestOf id t₀ k))) d
      (.down (answerOf D id t₀ src k)) d := by
  refine Yields.bind (?_ : Yields (FmsDownFile.echo _ _ _) d _ d) (yields_pure _ _)
  rw [FmsDownFile.echo]
  refine Eq.mpr (congrArg (fun m => Yields m _ _ _) (if_pos hready.inBase)) ?_
  exact Yields.bind (Disk.fmReadFile_yields hsrc hk segmentLen) (yields_pure _ _)

/-! ## The client -/

/-- The task, at an offset. -/
def at_ (t₀ : FmTaskDownload) (offset : ℤ) : FmTaskDownload := { t₀ with offset_ := offset }

/-- The local file is what the source has before `k`, and can be appended to. -/
def Holds (t₀ : FmTaskDownload) (src : Bytes) (k : ℕ) (l : Disk) : Prop :=
  k ≤ src.length ∧ Disk.opens t₀.localPath_ (l.get t₀.localPath_) = some (src.take k)

/-- Not begun, or as far as the file is. -/
def Reached (t₀ : FmTaskDownload) (src : Bytes) (offset : ℤ) (l : Disk) : Prop :=
  (offset < 0 ∧ (Disk.opens t₀.localPath_ (l.get t₀.localPath_)).isSome) ∨
    ∃ k : ℕ, offset = k ∧ Holds t₀ src k l

theorem Holds.congr {k : ℕ} {l l' : Disk} (h : Holds t₀ src k l)
    (hl : l'.get t₀.localPath_ = l.get t₀.localPath_) : Holds t₀ src k l' :=
  ⟨h.1, by rw [hl]; exact h.2⟩

theorem Reached.congr {offset : ℤ} {l l' : Disk} (h : Reached t₀ src offset l)
    (hl : l'.get t₀.localPath_ = l.get t₀.localPath_) : Reached t₀ src offset l' := by
  obtain ⟨hneg, hopens⟩ | ⟨k, rfl, hk⟩ := h
  · exact .inl ⟨hneg, by rw [hl]; exact hopens⟩
  · exact .inr ⟨k, rfl, hk.congr hl⟩

theorem holds_of_unlinked {l l' : Disk} (h : (Disk.opens t₀.localPath_ (l.get t₀.localPath_)).isSome)
    (hl : l'.get t₀.localPath_ = Disk.unlinked (l.get t₀.localPath_)) : Holds t₀ src 0 l' := by
  refine ⟨Nat.zero_le _, ?_⟩
  rw [hl]
  generalize l.get t₀.localPath_ = e at h ⊢
  generalize t₀.localPath_ = path at h ⊢
  obtain _ | ⟨c, path⟩ := path
  · cases h
  · obtain _ | _ | _ := e
    · rfl
    · rfl
    · cases h

/-- **A task that has not failed asks for what its file lacks**, and before that for nothing. -/
theorem req_yields (hready : Ready D t₀) {l : Disk} {offset : ℤ} (h : Reached t₀ src offset l) (id : ℤ) :
    ∃ (k : ℕ) (l' : Disk), Yields (FileManClient.req (Disk.os D.localUnix D.localFree)
        ⟨id, FmResultOk, .download (at_ t₀ offset)⟩) l
        (⟨id, FmResultOk, .download (at_ t₀ k)⟩, some (.down (requestOf id t₀ k))) l' ∧
      Holds t₀ src k l' ∧ (0 ≤ offset → offset = k ∧ l' = l) := by
  obtain ⟨hneg, hopens⟩ | ⟨k, rfl, hk⟩ := h
  · refine ⟨0, (Disk.opUnlink t₀.localPath_ (Disk.whPrepareFolder t₀.localPath_ l)).2, ?_, ?_, ?_⟩
    · refine Yields.bind (?_ : Yields (FmcDownFile.req _ _ _) l
        (⟨id, FmResultOk, .download (at_ t₀ 0)⟩, some (requestOf id t₀ 0)) _) (yields_pure _ _)
      rw [FmcDownFile.req, if_pos (show (at_ t₀ offset).offset_ < 0 from hneg)]
      refine Yields.bind (yields_call _ _ l) (Yields.bind (yields_call _ _ _)
        (Yields.bind (yields_call _ _ _) ?_))
      refine Eq.mpr (congrArg (fun m => Yields m _ _ _) (if_neg hready.room)) ?_
      exact yields_pure _ _
    · refine holds_of_unlinked hopens ?_
      rw [Disk.get_opUnlink, Disk.get_whPrepareFolder]
    · intro hnonneg
      omega
  · refine ⟨k, l, ?_, hk, fun _ => ⟨rfl, rfl⟩⟩
    refine Yields.bind (?_ : Yields (FmcDownFile.req _ _ _) l
      (⟨id, FmResultOk, .download (at_ t₀ k)⟩, some (requestOf id t₀ k)) _) (yields_pure _ _)
    rw [FmcDownFile.req, if_neg (show ¬ (at_ t₀ k).offset_ < 0 from not_lt.mpr (Int.natCast_nonneg k))]
    exact yields_pure _ _

/-- **An answer is taken** — the file grows by a segment and the task goes on, or the file is whole and
the task is done. -/
theorem ack_yields {s : FmScheduler} {l : Disk} {id : ℤ} {k : ℕ}
    (htasks : s.tasks_ = [⟨id, FmResultOk, .download (at_ t₀ k)⟩]) (hk : Holds t₀ src k l) :
    ∃ s' l', Yields (FileManClient.ack (Disk.os D.localUnix D.localFree) D.dispatchSubList
        (.down (answerOf D id t₀ src k)) s) l s' l' ∧
      ((s'.tasks_ = [] ∧ l'.get t₀.localPath_ = some (.file src)) ∨
        (s'.tasks_ = [⟨id, FmResultOk, .download (at_ t₀ (k + segmentLen : ℕ))⟩] ∧
          Holds t₀ src (k + segmentLen) l')) := by
  have hgetAs : s.getAs FmTask.asDownload id = some (⟨id, FmResultOk, .download (at_ t₀ k)⟩, at_ t₀ k) :=
    FmScheduler.getAs_front htasks rfl
  have hwrite : ∀ u : FmTask, u.id_ = id → (s.write u).tasks_ = [u] :=
    fun u hu => FmScheduler.write_front htasks hu
  obtain ⟨l', hstore, hget⟩ := @Disk.storeFile_yields D.localUnix D.localFree t₀.localPath_ l src k segmentLen
  rw [FileManClient.ack, FmcDownFile.ack]
  dsimp only [answerOf]
  rw [hgetAs]
  obtain ⟨hmore, hok⟩ | hend := Disk.stored_of_opens hk.1 hk.2 segmentLen
  · rw [hok] at hstore hget
    refine ⟨_, l', Yields.bind hstore ?_, .inr ⟨hwrite _ rfl, hmore.le, ?_⟩⟩
    · dsimp only
      rw [if_neg (by decide), if_pos rfl]
      exact yields_pure _ _
    · rw [hget]
      exact Disk.opens_file hk.2 _
  · rw [hend] at hstore hget
    refine ⟨_, l', Yields.bind hstore ?_, .inl ⟨FmScheduler.remove_front
      (hwrite ⟨id, FmResultOk, .download (at_ t₀ src.length)⟩ rfl), hget⟩⟩
    dsimp only
    rw [if_pos rfl]
    exact Yields.bind (yields_call _ _ _) (yields_pure _ _)

/-! ## Turns -/

/-- The session of a download: others leave its file and its origin alone. -/
def setting (D : Disks) (t₀ : FmTaskDownload) : Setting Disk Disk :=
  D.setting (.keep fun l => l.get t₀.localPath_) (.keep fun d => d.file (origin D t₀))

/-- The client between two turns: the task is done and the file is there, or the task is as far as the
file is. -/
inductive Progress (t₀ : FmTaskDownload) (src : Bytes) : FmScheduler × Disk → Prop
  | done {s l} : s.tasks_ = [] → l.get t₀.localPath_ = some (.file src) → Progress t₀ src (s, l)
  | pending {s l id result offset} : s.tasks_ = [⟨id, result, .download (at_ t₀ offset)⟩] →
      Reached t₀ src offset l → Progress t₀ src (s, l)

/-- The client while its task waits for the segment from `k` on. -/
structure Asks (t₀ : FmTaskDownload) (src : Bytes) (id : ℤ) (k : ℕ) (c : FmScheduler × Disk) : Prop where
  tasks : c.1.tasks_ = [⟨id, FmResultOk, .download (at_ t₀ k)⟩]
  holds : Holds t₀ src k c.2

theorem Asks.drift {id : ℤ} {k : ℕ} {c c' : FmScheduler × Disk} (h : Asks t₀ src id k c)
    (hdrift : (Session.exchange (setting D t₀)).onClient.Rel c c') : Asks t₀ src id k c' := by
  obtain ⟨s, l⟩ := c
  obtain ⟨s', l'⟩ := c'
  obtain ⟨hs, hl⟩ := hdrift
  obtain rfl : s' = s := hs
  exact ⟨h.tasks, h.holds.congr hl⟩

theorem send_pending (hready : Ready D t₀) {s : FmScheduler} {l : Disk} {id offset : ℤ}
    (htasks : s.tasks_ = [⟨id, FmResultOk, .download (at_ t₀ offset)⟩]) (h : Reached t₀ src offset l) :
    ∃ k c₁, (Session.exchange (setting D t₀)).send (s, l) = some (c₁, some (.down (requestOf id t₀ k))) ∧
      Asks t₀ src id k c₁ ∧ (0 ≤ offset → offset = k ∧ c₁ = (s, l)) := by
  obtain ⟨k, l', hreq, hholds, hsame⟩ := req_yields hready h id
  refine ⟨k, (s.write ⟨id, FmResultOk, .download (at_ t₀ k)⟩, l'), ?_,
    ⟨FmScheduler.write_front htasks rfl, hholds⟩, fun hnonneg => ?_⟩
  · exact Session.send_of_front htasks rfl rfl hreq
  · obtain ⟨rfl, rfl⟩ := hsame hnonneg
    exact ⟨rfl, by rw [FmScheduler.write_self htasks]⟩

/-- What a client sends between two turns: its task's request, unless that failed or is done. -/
theorem send_cases (hready : Ready D t₀) {c c₁ : FmScheduler × Disk} {r : Option FmReq}
    (h : Progress t₀ src c) (hsend : (Session.exchange (setting D t₀)).send c = some (c₁, r)) :
    (r = none ∧ c₁ = c) ∨
      ∃ id k, r = some (.down (requestOf id t₀ k)) ∧ Asks t₀ src id k c₁ ∧ c.1.tasks_ ≠ [] := by
  cases h with
  | done htasks hfile =>
    rw [Session.send_of_getFirst (FmScheduler.getFirst_nil htasks _)] at hsend
    cases hsend
    exact .inl ⟨rfl, rfl⟩
  | @pending s l id result offset htasks hreached =>
    by_cases hresult : result = FmResultOk
    · subst hresult
      obtain ⟨k, c₂, hsend', hasks, -⟩ := send_pending hready htasks hreached
      cases hsend.symm.trans hsend'
      exact .inr ⟨id, k, rfl, hasks, by rw [htasks]; exact List.cons_ne_nil _ _⟩
    · rw [Session.send_of_getFirst (FmScheduler.getFirst_failed htasks hresult _)] at hsend
      cases hsend
      exact .inl ⟨rfl, rfl⟩

/-- A client that waits sends its request again. -/
theorem Asks.send (hready : Ready D t₀) {id : ℤ} {k : ℕ} {c : FmScheduler × Disk} (h : Asks t₀ src id k c) :
    (Session.exchange (setting D t₀)).send c = some (c, some (.down (requestOf id t₀ k))) := by
  obtain ⟨s, l⟩ := c
  obtain ⟨k', c₁, hsend, -, hsame⟩ := @send_pending D t₀ src hready s l id k h.tasks (.inr ⟨k, rfl, h.holds⟩)
  obtain ⟨hk, rfl⟩ := hsame (Int.natCast_nonneg k)
  rw [hsend, Int.ofNat_inj.mp hk]

theorem resends (hready : Ready D t₀) {c : FmScheduler × Disk} (h : Progress t₀ src c) :
    (Session.exchange (setting D t₀)).Resends c := by
  intro c₁ c₂ r hsend hdrift
  obtain ⟨hnone, -⟩ | ⟨id, k, hr, hasks, -⟩ := send_cases hready h hsend
  · cases hnone
  · cases hr
    exact ⟨c₂, (hasks.drift hdrift).send hready, (Session.exchange (setting D t₀)).onClient.refl _⟩

theorem serve_eq (hready : Ready D t₀) {d : Disk} (hsrc : d.file (origin D t₀) = some src) (id : ℤ) {k : ℕ}
    (hk : k ≤ src.length) :
    (Session.exchange (setting D t₀)).serve (.down (requestOf id t₀ k)) d
      = some (.down (answerOf D id t₀ src k), d) :=
  (echo_yields hready hsrc id hk).exec_eq

/-- **An answer taken moves the task on**, or ends it with the file in place. -/
theorem Asks.receive {id : ℤ} {k : ℕ} {c c' : FmScheduler × Disk} (h : Asks t₀ src id k c)
    (hreceive : (Session.exchange (setting D t₀)).receive (.down (answerOf D id t₀ src k)) c = some c') :
    (c'.1.tasks_ = [] ∧ c'.2.get t₀.localPath_ = some (.file src)) ∨
      Asks t₀ src id (k + segmentLen) c' := by
  obtain ⟨s', l', hyields, hcases⟩ := @ack_yields D t₀ src c.1 c.2 id k h.tasks h.holds
  cases hreceive.symm.trans hyields.exec_eq
  exact hcases.imp (fun hdone => hdone) fun hasks => ⟨hasks.1, hasks.2⟩

/-- **A turn leads from one state between turns to the next.** -/
theorem Progress.turn (hready : Ready D t₀) {x y : (FmScheduler × Disk) × Disk} (h : Progress t₀ src x.1)
    (hsrc : x.2.file (origin D t₀) = some src) (ht : (Session.exchange (setting D t₀)).Turn x y) :
    Progress t₀ src y.1 ∧ y.2.file (origin D t₀) = some src := by
  cases ht with
  | still hsend =>
    obtain ⟨-, rfl⟩ | ⟨id, k, hr, -⟩ := send_cases hready h hsend
    · exact ⟨h, hsrc⟩
    · cases hr
  | @full c c₁ c₂ c' d d' r a hsend hdrift hserve hreceive =>
    obtain ⟨hnone, -⟩ | ⟨id, k, hr, hasks, -⟩ := send_cases hready h hsend
    · cases hnone
    · cases hr
      have hasks₂ := hasks.drift hdrift
      cases hserve.symm.trans (serve_eq hready hsrc id hasks.holds.1)
      refine ⟨?_, hsrc⟩
      obtain ⟨hdone, hfile⟩ | hasks' := hasks₂.receive hreceive
      · exact .done hdone hfile
      · exact .pending hasks'.tasks (.inr ⟨_, rfl, hasks'.holds⟩)
  | @drift c c' d d' hclient hserver =>
    have hd : d'.file (origin D t₀) = d.file (origin D t₀) := hserver
    refine ⟨?_, hd.trans hsrc⟩
    obtain ⟨s, l⟩ := c
    obtain ⟨s', l'⟩ := c'
    obtain ⟨hs, hl⟩ := hclient
    obtain rfl : s' = s := hs
    have hl : l'.get t₀.localPath_ = l.get t₀.localPath_ := hl
    cases h with
    | done htasks hfile => exact .done htasks (hl.trans hfile)
    | pending htasks hreached => exact .pending htasks (hreached.congr hl)

theorem Progress.turns (hready : Ready D t₀) {x y : (FmScheduler × Disk) × Disk} (h : Progress t₀ src x.1)
    (hsrc : x.2.file (origin D t₀) = some src) (ht : (Session.exchange (setting D t₀)).Turns x y) :
    Progress t₀ src y.1 ∧ y.2.file (origin D t₀) = some src := by
  induction ht with
  | refl => exact ⟨h, hsrc⟩
  | tail _ hturn ih => exact ih.1.turn hready ih.2 hturn

/-! ## Runs -/

open Exchange in
/-- Whatever breaks, a turn is under way from a state between turns. -/
theorem underway (hready : Ready D t₀) {c₀ : FmScheduler × Disk} {d₀ : Disk} (h₀ : Progress t₀ src c₀)
    (hsrc : d₀.file (origin D t₀) = some src)
    {Q : State (FmScheduler × Disk) Disk FmReq FmAck → Event FmReq FmAck → Prop}
    {es : List (Event FmReq FmAck)} {x : State (FmScheduler × Disk) Disk FmReq FmAck}
    (h : Run (restrict (Session.exchange (setting D t₀)).Step Q) ⟨c₀, d₀, .idle⟩ es x) :
    ∃ c d, Progress t₀ src c ∧ d.file (origin D t₀) = some src ∧
      (Session.exchange (setting D t₀)).Underway c d x := by
  have hbetween : ∀ c d, (Session.exchange (setting D t₀)).Turns (c₀, d₀) (c, d) →
      Progress t₀ src c ∧ d.file (origin D t₀) = some src :=
    fun c d hturns => Progress.turns hready (x := (c₀, d₀)) h₀ hsrc hturns
  obtain ⟨c, d, hturns, hunder⟩ := underway_of_run
    (fun c d hturns => resends hready (hbetween c d hturns).1)
    (fun c d c₁ r a x e hturns hsend _ _ => by
      obtain ⟨hprogress, hfile⟩ := hbetween c d hturns
      obtain ⟨hnone, -⟩ | ⟨id, k, hr, hasks, -⟩ := send_cases hready hprogress hsend
      · cases hnone
      cases hr
      intro d₁ d₂ hserve hdrift
      cases hserve.symm.trans (serve_eq hready hfile id hasks.holds.1)
      have hfile₂ : d₂.file (origin D t₀) = some src := Eq.trans hdrift hfile
      exact ⟨d₂, serve_eq hready hfile₂ id hasks.holds.1, (Session.exchange (setting D t₀)).onServer.refl _⟩) h
  exact ⟨c, d, (hbetween c d hturns).1, (hbetween c d hturns).2, hunder⟩

variable {c c' : FmScheduler × Disk} {d : Disk}

theorem Asks.progress {id : ℤ} {k : ℕ} (h : Asks t₀ src id k c) : Progress t₀ src c :=
  .pending h.tasks (.inr ⟨k, rfl, h.holds⟩)

/-- The client is never in another state than it is between turns. -/
theorem progress_of_underway {x : Exchange.State (FmScheduler × Disk) Disk FmReq FmAck}
    (hready : Ready D t₀) (h : Progress t₀ src c)
    (hu : (Session.exchange (setting D t₀)).Underway c d x) : Progress t₀ src x.client := by
  have busy : ∀ {c₁ c₂ : FmScheduler × Disk} {r : FmReq},
      (Session.exchange (setting D t₀)).send c = some (c₁, some r) →
      (Session.exchange (setting D t₀)).onClient.Rel c₁ c₂ → Progress t₀ src c₂ := by
    intro c₁ c₂ r hsend hdrift
    obtain ⟨hnone, -⟩ | ⟨id, k, hr, hasks, -⟩ := send_cases hready h hsend
    · cases hnone
    · exact (hasks.drift hdrift).progress
  cases hu with
  | rest => exact h
  | sent hsend hdrift => exact busy hsend hdrift
  | served hsend hdrift => exact busy hsend hdrift
  | again hsend hdrift => exact busy hsend hdrift

/-- An answer on the line is the one the task waits for. -/
theorem answered_of_underway {dd : Disk} {a : FmAck} (hready : Ready D t₀) (h : Progress t₀ src c)
    (hsrc : d.file (origin D t₀) = some src)
    (hu : (Session.exchange (setting D t₀)).Underway c d ⟨c', dd, .answered a⟩) :
    ∃ id k, Asks t₀ src id k c' ∧ a = .down (answerOf D id t₀ src k) := by
  cases hu with
  | sent _ _ hcarries =>
    obtain h | h | h := hcarries
    all_goals cases h
  | served hsend hdrift hserve =>
    obtain ⟨hnone, -⟩ | ⟨id, k, hr, hasks, -⟩ := send_cases hready h hsend
    · cases hnone
    · cases hr
      cases hserve.symm.trans (serve_eq hready hsrc id hasks.holds.1)
      exact ⟨id, k, hasks.drift hdrift, rfl⟩
  | again _ _ _ _ _ hcarries =>
    obtain h | h | h := hcarries
    all_goals cases h

/-- The offset of the one task in a queue. -/
def offsetOf (s : FmScheduler) : Option ℤ :=
  match s.tasks_ with
  | [task] => task.asDownload.map FmTaskDownload.offset_
  | _ => none

theorem Asks.offsetOf_eq {id : ℤ} {k : ℕ} (h : Asks t₀ src id k c) : offsetOf c.1 = some (k : ℤ) := by
  rw [offsetOf, h.tasks]
  rfl

theorem Holds.file_eq {k : ℕ} {l : Disk} (h : Holds t₀ src k l) :
    (l.file t₀.localPath_).getD [] = src.take k := by
  rw [Disk.getD_file, ← Disk.opens_eq h.2]

/-- **A download is exactly-once, whatever breaks** — its file is what the source has before `offset_`,
every answer that is not the last moves `offset_`, and when the task is done the file is the source. -/
theorem download_exactly_once (D : Disks) (task : FmTask) (t : FmTaskDownload) (src : Bytes)
    (localDisk serverDisk : Disk) (hbody : task.body = .download t) (hoffset : t.offset_ < 0)
    (hready : Ready D t) (hlocal : (Disk.opens t.localPath_ (localDisk.get t.localPath_)).isSome)
    (hsrc : serverDisk.file (origin D t) = some src) {es : List Session.Event} {s : Session Disk Disk}
    (h : Run (Session.Step (setting D t)) (.start (.single task) localDisk serverDisk) es s) :
    (∀ offset, offsetOf s.client.scheduler_ = some offset → 0 ≤ offset →
        offset ≤ src.length ∧ (s.disk.file t.localPath_).getD [] = src.take offset.toNat) ∧
      (∀ s', Session.Step (setting D t) s .read s' → s'.client.scheduler_.tasks_ = [] ∨
        ∃ offset offset', offsetOf s.client.scheduler_ = some offset ∧
          offsetOf s'.client.scheduler_ = some offset' ∧ offset < offset') ∧
      (s.client.scheduler_.tasks_ = [] → s.disk.file t.localPath_ = some src) := by
  have h₀ : Progress t src (.single task, localDisk) := by
    obtain ⟨id, result, body⟩ := task
    obtain rfl : body = .download t := hbody
    exact @Progress.pending t src _ _ id result t.offset_ rfl (.inl ⟨hoffset, hlocal⟩)
  obtain ⟨es', x, hrun, -, hshows⟩ := Session.shows_of_free_run (Session.shows_start _ _ _) h
  obtain ⟨c, d, hprogress, hfile, hunder⟩ := underway hready h₀ hsrc hrun
  have hclient := progress_of_underway hready hprogress hunder
  rw [hshows.client] at hclient
  refine ⟨fun offset hoff hnonneg => ?_, fun s' hread => ?_, fun hdone => ?_⟩
  · generalize s.client.scheduler_ = scheduler at hclient hoff
    generalize s.disk = disk at hclient ⊢
    rw [offsetOf] at hoff
    cases hclient with
    | done htasks _ =>
      rw [htasks] at hoff
      cases hoff
    | pending htasks hreached =>
      rw [htasks] at hoff
      cases hoff
      obtain ⟨hneg, -⟩ | ⟨k, hk, hholds⟩ := hreached
      · exact absurd hnonneg (not_le.mpr hneg)
      · dsimp only [at_] at hk ⊢
        rw [hk, Int.toNat_natCast]
        exact ⟨Int.ofNat_le.mpr hholds.1, hholds.file_eq⟩
  · obtain ⟨e', x', hstep, hview, hshows'⟩ := hshows.step hread
    obtain rfl : e' = .receive := hview
    cases hstep with
    | receive hreceive =>
      obtain ⟨id, k, hasks, rfl⟩ := answered_of_underway hready hprogress hfile hunder
      have hcl := hshows.client
      have hcl' := hshows'.client
      dsimp only at hcl hcl'
      subst hcl hcl'
      obtain ⟨hdone, -⟩ | hasks' := hasks.receive hreceive
      · exact .inl hdone
      · refine .inr ⟨k, (k + segmentLen : ℕ), hasks.offsetOf_eq, hasks'.offsetOf_eq, ?_⟩
        exact Int.ofNat_lt.mpr (Nat.lt_add_of_pos_right (by decide))
  · generalize s.client.scheduler_ = scheduler at hclient hdone
    generalize s.disk = disk at hclient ⊢
    cases hclient with
    | done _ hget => exact Disk.file_of_get hget
    | pending htasks => exact absurd (htasks.symm.trans hdone) (List.cons_ne_nil _ _)

/-- The download of `/a/f` to the file `b`. -/
def smallDownload : FmTaskDownload := ⟨[98], [slash, 97, slash, 102], -1, 1, 0, false⟩

/-- The answer is lost, and the download goes through on the next connection. -/
theorem smallDownload_exactly_once : ∃ es s,
    Run (Session.Step (setting roomyDisks smallDownload))
      (.start (.single ⟨0, FmResultOk, .download smallDownload⟩) []
        [([slash, 97, slash, 102], .file [7])]) es s ∧
    s.disk.file [98] = some [7] := by
  have hstart : Run (Session.Step (setting roomyDisks smallDownload))
      (.start (.single ⟨0, FmResultOk, .download smallDownload⟩) []
        [([slash, 97, slash, 102], .file [7])]) [] _ := .nil
  have hlost := hstart.snoc (.connect rfl) |>.snoc (.userStart rfl) |>.snoc (.userLoop rfl rfl rfl)
    |>.snoc (.serve rfl rfl) |>.snoc (.disconnect rfl) |>.snoc .reset
  have hdone := hlost.snoc (.connect rfl) |>.snoc (.userStart rfl) |>.snoc (.userLoop rfl rfl rfl)
    |>.snoc (.serve rfl rfl) |>.snoc (.read rfl rfl rfl)
  have hexact := download_exactly_once roomyDisks ⟨0, FmResultOk, .download smallDownload⟩ smallDownload
    [7] [] [([slash, 97, slash, 102], .file [7])] rfl (by decide) ⟨by decide, by decide⟩ rfl rfl hdone
  exact ⟨_, _, hdone, hexact.2.2 rfl⟩

end Download

end EuhatExpert
