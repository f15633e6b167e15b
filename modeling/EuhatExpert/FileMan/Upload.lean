import EuhatExpert.FileMan.DiskSession

/-!
# FileMan/Upload — an upload, over connections that break

What the server answers, and what it makes of the entry at its path, is a function of that entry
(`answered`), and doing it again changes nothing (`answered_answered`).  Between two turns the file on the
server is what the source has before `offset_` (`Between`).
-/

namespace EuhatExpert

open Machinery TraceM

namespace Upload

/-! ## What a request does to the entry at its path -/

/-- The request of a task whose source holds `src`. -/
def requestOf (id : ℤ) (t : FmTaskDownload) (src : Bytes) : UpReq :=
  ⟨id, t.peerPath_, t.lastWriteTime_, t.totalFileSize_, t.offset_,
    if t.offset_ < 0 then .nothing else (Disk.segmentOf src t.offset_.toNat segmentLen).found⟩

variable (D : Disks)

/-- The path a task uploads to. -/
def target (t : FmTaskDownload) : Bytes := whCorrectFilePath D.remoteUnix t.peerPath_

/-- The new position and the result, and the entry that is left. -/
def outcome (t : FmTaskDownload) (src : Bytes) (e : Option Entry) : (ℤ × ℤ) × Option Entry :=
  if strIsStartWith (target D t) D.baseDir_ then
    if t.offset_ < 0 then
      if D.remoteFree (target D t) - t.totalFileSize_.tdiv (1024 * 1024) < 100 then
        ((t.offset_, FmResultNoSpace), e)
      else ((0, FmResultOk), Disk.unlinked e)
    else Disk.stored (target D t) src t.offset_.toNat segmentLen e
  else ((t.offset_, FmResultNoSpace), e)

def answerOf (id : ℤ) (t : FmTaskDownload) (x : ℤ × ℤ) : UpAck := ⟨id, target D t, x.1, x.2⟩

/-- **A request served again has no effect, and the same answer.** -/
theorem outcome_outcome (t : FmTaskDownload) (src : Bytes) (e : Option Entry) :
    outcome D t src (outcome D t src e).2 = outcome D t src e := by
  simp only [outcome]
  split_ifs
  · rfl
  · rw [Disk.unlinked_unlinked]
  · exact Disk.stored_stored _ _ _ _ _
  · rfl

variable {D} {d : Disk}

theorem store_yields (id : ℤ) {t : FmTaskDownload} (src : Bytes)
    (hpath : strIsStartWith (target D t) D.baseDir_ = true) :
    ∃ d', Yields (FmsUpFile.store (Disk.os D.remoteUnix D.remoteFree) (requestOf id t src) (target D t)) d
        (outcome D t src (d.get (target D t))).1 d' ∧
      d'.get (target D t) = (outcome D t src (d.get (target D t))).2 := by
  rw [FmsUpFile.store, requestOf, outcome, if_pos hpath]
  dsimp only
  by_cases hoffset : t.offset_ < 0
  · simp only [if_pos hoffset]
    by_cases hfree : D.remoteFree (target D t) - t.totalFileSize_.tdiv (1024 * 1024) < 100
    · rw [if_pos hfree]
      refine ⟨d, Yields.bind (yields_call _ _ d) ?_, rfl⟩
      dsimp only [Disk.os]
      rw [if_pos hfree]
      exact yields_pure _ _
    · rw [if_neg hfree]
      refine ⟨(Disk.opUnlink (target D t) (Disk.whPrepareFolder (target D t) d)).2,
        Yields.bind (yields_call _ _ d) ?_, ?_⟩
      · dsimp only [Disk.os]
        rw [if_neg hfree]
        exact Yields.bind (yields_call _ _ d) (Yields.bind (yields_call _ _ _) (yields_pure _ _))
      · rw [Disk.get_opUnlink, Disk.get_whPrepareFolder]
  · simp only [if_neg hoffset]
    have hpos : ((t.offset_.toNat : ℕ) : ℤ) = t.offset_ := Int.toNat_of_nonneg (not_lt.mp hoffset)
    have hstore := @Disk.storeFile_yields D.remoteUnix D.remoteFree (target D t) d src t.offset_.toNat
      segmentLen
    rw [hpos] at hstore
    exact hstore

/-- **What the server does with the request of a task.** -/
theorem echo_yields (id : ℤ) (t : FmTaskDownload) (src : Bytes) :
    ∃ d', Yields (FileManServer.echo (Disk.os D.remoteUnix D.remoteFree) D.baseDir_
        (.up (requestOf id t src))) d
        (.up (answerOf D id t (outcome D t src (d.get (target D t))).1)) d' ∧
      d'.get (target D t) = (outcome D t src (d.get (target D t))).2 := by
  have hecho : ∀ {a : UpAck} {d' : Disk},
      Yields (FmsUpFile.echo (Disk.os D.remoteUnix D.remoteFree) D.baseDir_ (requestOf id t src)) d a d' →
      Yields (FileManServer.echo (Disk.os D.remoteUnix D.remoteFree) D.baseDir_
        (.up (requestOf id t src))) d (.up a) d' := fun h => h.bind (yields_pure _ _)
  by_cases hpath : strIsStartWith (target D t) D.baseDir_ = true
  · obtain ⟨d', hstore, hget⟩ := @store_yields D d id t src hpath
    refine ⟨d', hecho ?_, hget⟩
    rw [FmsUpFile.echo]
    refine Eq.mpr (congrArg (fun m => Yields m _ _ _) (if_pos hpath)) ?_
    refine Yields.bind hstore ?_
    dsimp only
    split_ifs
    · exact Yields.bind (yields_call _ _ _) (yields_pure _ _)
    · exact yields_pure _ _
  · refine ⟨d, hecho ?_, ?_⟩
    · rw [FmsUpFile.echo, outcome, if_neg hpath]
      refine Eq.mpr (congrArg (fun m => Yields m _ _ _) (if_neg hpath)) ?_
      exact yields_pure _ _
    · rw [outcome, if_neg hpath]

/-! ## How far an upload is -/

/-- At its start, or with an entry that holds the source up to the offset. -/
def Reached (src : Bytes) (offset : ℤ) (e : Option Entry) : Prop :=
  offset < 0 ∨ ∃ k : ℕ, offset = k ∧ k ≤ src.length ∧ Disk.contentOf e = src.take k

theorem Reached.isPrefix {src : Bytes} {offset : ℤ} {e : Option Entry} (h : Reached src offset e)
    (hoffset : 0 ≤ offset) : Disk.contentOf e <+: src := by
  obtain hneg | ⟨k, -, -, he⟩ := h
  · omega
  · rw [he]
    exact List.take_prefix _ _

/-- **A request serves its purpose** — the whole source is there, or the upload is where the answer says;
where it is not begun, it was refused. -/
theorem outcome_reached {t : FmTaskDownload} {src : Bytes} {e : Option Entry}
    (h : Reached src t.offset_ e) :
    ((outcome D t src e).1.2 = FmResultFileReachEnd ∧ (outcome D t src e).2 = some (.file src)) ∨
      ((outcome D t src e).1.2 ≠ FmResultFileReachEnd ∧
        Reached src (outcome D t src e).1.1 (outcome D t src e).2 ∧
        ((outcome D t src e).1.1 < 0 → (outcome D t src e).2 = e ∧
          (outcome D t src e).1.2 ≠ FmResultOk)) := by
  have hnoSpace : FmResultNoSpace ≠ FmResultFileReachEnd ∧ FmResultNoSpace ≠ FmResultOk := by decide
  have hok : FmResultOk ≠ FmResultFileReachEnd := by decide
  rw [outcome]
  split_ifs with hpath hoffset hfree
  · exact .inr ⟨hnoSpace.1, .inl hoffset, fun _ => ⟨rfl, hnoSpace.2⟩⟩
  · exact .inr ⟨hok, .inr ⟨0, rfl, Nat.zero_le _, Disk.contentOf_unlinked e⟩,
      fun h => absurd h (lt_irrefl 0)⟩
  · obtain hneg | ⟨k, hk, hle, he⟩ := h
    · exact absurd hneg hoffset
    · rw [hk, Int.toNat_natCast]
      obtain hend | ⟨hmore, k', hk', hle', he'⟩ := @Disk.stored_reached (target D t) src k e hle he segmentLen
      · exact .inl hend
      · exact .inr ⟨hmore, .inr ⟨k', hk', hle', he'⟩, fun h => absurd h (by omega)⟩
  · exact .inr ⟨hnoSpace.1, h, fun _ => ⟨rfl, hnoSpace.2⟩⟩

/-! ## Turns -/

variable (D) (t₀ : FmTaskDownload) (src : Bytes)

/-- The task, at an offset. -/
def at_ (offset : ℤ) : FmTaskDownload := { t₀ with offset_ := offset }

/-- The session of an upload: others leave its source and its target alone. -/
def setting : Setting Disk Disk :=
  D.setting (.keep fun l => l.file t₀.localPath_) (.keep fun d => d.get (target D t₀))

/-- Between two turns the task is done and the file is there, or the task is as far as the file is. -/
inductive Between : (FmScheduler × Disk) × Disk → Prop
  | done {s l d} : s.tasks_ = [] → d.get (target D t₀) = some (.file src) → Between ((s, l), d)
  | pending {s l d id result offset} :
      s.tasks_ = [⟨id, result, .upload (at_ t₀ offset)⟩] → l.file t₀.localPath_ = some src →
      Reached src offset (d.get (target D t₀)) → Between ((s, l), d)

variable {D t₀ src}

theorem req_yields {l : Disk} {offset : ℤ} {e : Option Entry} (hsrc : l.file t₀.localPath_ = some src)
    (h : Reached src offset e) (id : ℤ) :
    Yields (FmcUpFile.req (Disk.os D.localUnix D.localFree) id (at_ t₀ offset)) l
      (requestOf id (at_ t₀ offset) src) l := by
  rw [FmcUpFile.req, requestOf]
  obtain hneg | ⟨k, rfl, hle, -⟩ := h
  · rw [if_pos (show (at_ t₀ offset).offset_ < 0 from hneg), if_pos (show (at_ t₀ offset).offset_ < 0 from hneg)]
    exact yields_pure _ _
  · have hnot : ¬ (at_ t₀ k).offset_ < 0 := not_lt.mpr (Int.natCast_nonneg k)
    rw [if_neg hnot, if_neg hnot]
    refine Yields.bind (Disk.fmReadFile_yields hsrc hle segmentLen) ?_
    exact yields_pure _ _

/-- A task that has not failed sends its request, and is put back as it is. -/
theorem send_pending {s : FmScheduler} {l : Disk} {id offset : ℤ} {e : Option Entry}
    (htasks : s.tasks_ = [⟨id, FmResultOk, .upload (at_ t₀ offset)⟩])
    (hsrc : l.file t₀.localPath_ = some src) (h : Reached src offset e) :
    (Session.exchange (setting D t₀)).send (s, l)
      = some ((s, l), some (.up (requestOf id (at_ t₀ offset) src))) := by
  have hreq : Yields (FileManClient.req (setting D t₀).local_ ⟨id, FmResultOk, .upload (at_ t₀ offset)⟩) l
      (⟨id, FmResultOk, .upload (at_ t₀ offset)⟩, some (.up (requestOf id (at_ t₀ offset) src))) l :=
    (req_yields hsrc h id).bind (yields_pure _ _)
  rw [Session.send_of_front htasks rfl rfl hreq, FmScheduler.write_self htasks]

/-- What a client sends between two turns: its task's request, unless that failed or is done. -/
theorem send_cases {s : FmScheduler} {l d : Disk} {c₁ : FmScheduler × Disk} {r : Option FmReq}
    (h : Between D t₀ src ((s, l), d)) (hsend : (Session.exchange (setting D t₀)).send (s, l) = some (c₁, r)) :
    c₁ = (s, l) ∧ ∀ q, r = some q → ∃ id offset,
      s.tasks_ = [⟨id, FmResultOk, .upload (at_ t₀ offset)⟩] ∧
      q = .up (requestOf id (at_ t₀ offset) src) ∧ l.file t₀.localPath_ = some src ∧
      Reached src offset (d.get (target D t₀)) := by
  cases h with
  | done htasks hfile =>
    rw [Session.send_of_getFirst (FmScheduler.getFirst_nil htasks _)] at hsend
    cases hsend
    exact ⟨rfl, fun q hq => (by cases hq)⟩
  | @pending _ _ _ id result offset htasks hsrc hreached =>
    by_cases hresult : result = FmResultOk
    · subst hresult
      rw [send_pending htasks hsrc hreached] at hsend
      cases hsend
      refine ⟨rfl, fun q hq => ?_⟩
      cases hq
      exact ⟨id, offset, htasks, rfl, hsrc, hreached⟩
    · rw [Session.send_of_getFirst (FmScheduler.getFirst_failed htasks hresult _)] at hsend
      cases hsend
      exact ⟨rfl, fun q hq => (by cases hq)⟩

/-- What the server does with a request, whenever it does. -/
theorem serve_cases {id offset : ℤ} {a : FmAck} {d d' : Disk}
    (h : (Session.exchange (setting D t₀)).serve (.up (requestOf id (at_ t₀ offset) src)) d
      = some (a, d')) :
    a = .up (answerOf D id (at_ t₀ offset) (outcome D (at_ t₀ offset) src (d.get (target D t₀))).1) ∧
      d'.get (target D t₀) = (outcome D (at_ t₀ offset) src (d.get (target D t₀))).2 := by
  obtain ⟨d'', hyields, hget⟩ := @echo_yields D d id (at_ t₀ offset) src
  cases h.symm.trans hyields.exec_eq
  exact ⟨rfl, hget⟩

theorem serve_some (id offset : ℤ) (d : Disk) :
    ∃ a d', (Session.exchange (setting D t₀)).serve (.up (requestOf id (at_ t₀ offset) src)) d
      = some (a, d') := by
  obtain ⟨d', hyields, -⟩ := @echo_yields D d id (at_ t₀ offset) src
  exact ⟨_, d', hyields.exec_eq⟩

/-- **A request is repeated without harm.** -/
theorem repeats (d : Disk) (id offset : ℤ) (a : FmAck) :
    (Session.exchange (setting D t₀)).Repeats d (.up (requestOf id (at_ t₀ offset) src)) a := by
  intro d₁ d₂ hserve hdrift
  have hdrift : d₂.get (target D t₀) = d₁.get (target D t₀) := hdrift
  obtain ⟨ha, hget⟩ := serve_cases hserve
  obtain ⟨a', d₃, hserve'⟩ := @serve_some D t₀ src id offset d₂
  obtain ⟨ha', hget'⟩ := serve_cases hserve'
  rw [hdrift, hget, outcome_outcome] at ha' hget'
  refine ⟨d₃, ?_, ?_⟩
  · rw [hserve', ha', ha]
  · exact hget'.trans (hget.symm.trans hdrift.symm)

theorem resends {s : FmScheduler} {l d : Disk} (h : Between D t₀ src ((s, l), d)) :
    (Session.exchange (setting D t₀)).Resends (s, l) := by
  rintro c₁ ⟨s₂, l₂⟩ r hsend ⟨hs, hl⟩
  obtain ⟨rfl, hr⟩ := send_cases h hsend
  obtain ⟨id, offset, htasks, rfl, hsrc, hreached⟩ := hr r rfl
  obtain rfl : s₂ = s := hs
  have hsrc₂ : l₂.file t₀.localPath_ = some src := Eq.trans hl hsrc
  exact ⟨_, send_pending htasks hsrc₂ hreached, (Session.exchange (setting D t₀)).onClient.refl _⟩

/-- What an answer makes of the queue. -/
theorem ack_pending {s : FmScheduler} {a : UpAck} {t : FmTaskDownload}
    (htasks : s.tasks_ = [⟨a.id, FmResultOk, .upload t⟩]) :
    (a.retResult = FmResultFileReachEnd ∧ (FmcUpFile.ack a s).tasks_ = []) ∨
      (a.retResult ≠ FmResultFileReachEnd ∧ ∃ result, (FmcUpFile.ack a s).tasks_
        = [⟨a.id, result, .upload { t with offset_ := a.filePos }⟩]) := by
  have hgetAs : s.getAs FmTask.asUpload a.id = some (⟨a.id, FmResultOk, .upload t⟩, t) :=
    FmScheduler.getAs_front htasks rfl
  have hwrite : ∀ u : FmTask, u.id_ = a.id → (s.write u).tasks_ = [u] :=
    fun u hu => FmScheduler.write_front htasks hu
  rw [FmcUpFile.ack, hgetAs]
  dsimp only [FmTask.setDownload]
  by_cases hnoSpace : a.retResult = FmResultNoSpace
  · simp only [if_pos hnoSpace]
    exact .inr ⟨by rw [hnoSpace]; decide, _, hwrite _ rfl⟩
  simp only [if_neg hnoSpace]
  by_cases hend : a.retResult = FmResultFileReachEnd
  · simp only [if_pos hend]
    exact .inl ⟨hend, FmScheduler.remove_front (hwrite _ rfl)⟩
  simp only [if_neg hend]
  by_cases hok : a.retResult = FmResultOk
  · simp only [if_pos hok]
    exact .inr ⟨hend, _, hwrite _ rfl⟩
  · simp only [if_neg hok]
    exact .inr ⟨hend, _, hwrite _ rfl⟩

/-- **A turn leads from one state between turns to the next.** -/
theorem Between.turn {x y : (FmScheduler × Disk) × Disk} (h : Between D t₀ src x)
    (ht : (Session.exchange (setting D t₀)).Turn x y) : Between D t₀ src y := by
  cases ht with
  | @still c c' d hsend =>
    obtain ⟨rfl, -⟩ := send_cases h hsend
    exact h
  | @full c c₁ c₂ c' d d' r a hsend hdrift hserve hreceive =>
    obtain ⟨rfl, hr⟩ := send_cases h hsend
    obtain ⟨id, offset, htasks, rfl, hsrc, hreached⟩ := hr r rfl
    obtain ⟨rfl, hget⟩ := serve_cases hserve
    obtain ⟨s₂, l₂⟩ := c₂
    obtain ⟨hs, hl⟩ := hdrift
    obtain rfl : s₂ = c.1 := hs
    have hsrc₂ : l₂.file t₀.localPath_ = some src := Eq.trans hl hsrc
    cases hreceive
    obtain ⟨hend, hdone⟩ | ⟨hmore, result, hpending⟩ := @ack_pending c.1 (answerOf D id (at_ t₀ offset)
      (outcome D (at_ t₀ offset) src (d.get (target D t₀))).1) (at_ t₀ offset) htasks
    · obtain ⟨-, hfile⟩ | ⟨hmore, -⟩ := @outcome_reached D (at_ t₀ offset) src _ hreached
      · exact .done hdone (hget.trans hfile)
      · exact absurd hend hmore
    · obtain ⟨hend, -⟩ | ⟨-, hreached', -⟩ := @outcome_reached D (at_ t₀ offset) src _ hreached
      · exact absurd hend hmore
      · exact .pending hpending hsrc₂ (hget ▸ hreached')
  | @drift c c' d d' hclient hserver =>
    obtain ⟨s, l⟩ := c
    obtain ⟨s', l'⟩ := c'
    obtain ⟨hs, hl⟩ := hclient
    obtain rfl : s' = s := hs
    have hd : d'.get (target D t₀) = d.get (target D t₀) := hserver
    cases h with
    | done htasks hfile => exact .done htasks (hd.trans hfile)
    | pending htasks hsrc hreached => exact .pending htasks (Eq.trans hl hsrc) (hd ▸ hreached)

theorem Between.turns {x y : (FmScheduler × Disk) × Disk} (h : Between D t₀ src x)
    (ht : (Session.exchange (setting D t₀)).Turns x y) : Between D t₀ src y := by
  induction ht with
  | refl => exact h
  | tail _ hturn ih => exact ih.turn hturn

/-! ## Runs -/

open Exchange in
/-- Whatever breaks, a turn is under way from a state between turns. -/
theorem underway {s₀ : FmScheduler} {l₀ d₀ : Disk} (h₀ : Between D t₀ src ((s₀, l₀), d₀))
    {Q : State (FmScheduler × Disk) Disk FmReq FmAck → Event FmReq FmAck → Prop}
    {es : List (Event FmReq FmAck)} {x : State (FmScheduler × Disk) Disk FmReq FmAck}
    (h : Run (restrict (Session.exchange (setting D t₀)).Step Q) ⟨(s₀, l₀), d₀, .idle⟩ es x) :
    ∃ s l d, Between D t₀ src ((s, l), d) ∧ (Session.exchange (setting D t₀)).Underway (s, l) d x := by
  obtain ⟨⟨s, l⟩, d, hturns, hunder⟩ := underway_of_run
    (fun c d hturns => resends (h₀.turns hturns))
    (fun c d c₁ r a x e hturns hsend _ _ => by
      obtain ⟨-, hr⟩ := send_cases (h₀.turns hturns) hsend
      obtain ⟨id, offset, -, rfl, -, -⟩ := hr r rfl
      exact repeats d id offset a) h
  exact ⟨s, l, d, h₀.turns hturns, hunder⟩

variable {s : FmScheduler} {l d : Disk} {x x' : Exchange.State (FmScheduler × Disk) Disk FmReq FmAck}

/-- The queue changes between turns only. -/
theorem done_of_underway (h : Between D t₀ src ((s, l), d))
    (hu : (Session.exchange (setting D t₀)).Underway (s, l) d x) (hx : x.client.1.tasks_ = []) :
    x.server.get (target D t₀) = some (.file src) := by
  have busy : ∀ {c₁ c₂ : FmScheduler × Disk} {r : FmReq},
      (Session.exchange (setting D t₀)).send (s, l) = some (c₁, some r) →
      (Session.exchange (setting D t₀)).onClient.Rel c₁ c₂ → c₂.1.tasks_ ≠ [] := by
    intro c₁ c₂ r hsend hdrift
    obtain ⟨rfl, hr⟩ := send_cases h hsend
    obtain ⟨id, offset, htasks, -⟩ := hr r rfl
    rw [show c₂.1 = s from hdrift.1, htasks]
    exact List.cons_ne_nil _ _
  cases hu with
  | rest =>
    cases h with
    | done _ hfile => exact hfile
    | pending htasks => exact absurd (htasks.symm.trans hx) (List.cons_ne_nil _ _)
  | sent hsend hdrift => exact absurd hx (busy hsend hdrift)
  | served hsend hdrift => exact absurd hx (busy hsend hdrift)
  | again hsend hdrift => exact absurd hx (busy hsend hdrift)

/-- A request on the line is that of the turn under way, and was served in it or was not. -/
theorem carried {c : FmScheduler × Disk} {dd : Disk} {w : Exchange.Wire FmReq FmAck} {r : FmReq}
    (h : Between D t₀ src ((s, l), d))
    (hu : (Session.exchange (setting D t₀)).Underway (s, l) d ⟨c, dd, w⟩)
    (hw : w = .asked r ∨ w = .stray r) :
    ∃ id offset, r = .up (requestOf id (at_ t₀ offset) src) ∧
      Reached src offset (d.get (target D t₀)) ∧
      (dd.get (target D t₀) = d.get (target D t₀) ∨ dd.get (target D t₀)
        = (outcome D (at_ t₀ offset) src (d.get (target D t₀))).2) := by
  have same : ∀ {q : FmReq}, w.Carries q → r = q := by
    rintro q (rfl | rfl | rfl)
    · obtain h | h := hw
      all_goals cases h
    · obtain h | h := hw
      all_goals cases h
      rfl
    · obtain h | h := hw
      all_goals cases h
      rfl
  cases hu with
  | rest =>
    obtain h | h := hw
    all_goals cases h
  | sent hsend _ hcarries =>
    obtain ⟨-, hr⟩ := send_cases h hsend
    obtain ⟨id, offset, -, hq, -, hreached⟩ := hr _ rfl
    exact ⟨id, offset, (same hcarries).trans hq, hreached, .inl rfl⟩
  | served =>
    obtain h | h := hw
    all_goals cases h
  | again hsend _ hserve hdrift _ hcarries =>
    obtain ⟨-, hr⟩ := send_cases h hsend
    obtain ⟨id, offset, -, rfl, -, hreached⟩ := hr _ rfl
    obtain ⟨-, hget⟩ := serve_cases hserve
    exact ⟨id, offset, same hcarries, hreached, .inr (Eq.trans hdrift hget)⟩

/-- A first request was served, and not refused. -/
def Begins : FmReq → FmAck → Prop
  | .up r, .up a => r.filePos < 0 ∧ a.retResult = FmResultOk
  | _, _ => False

/-- **One step keeps the file a part of the source, and a first request makes it one.** -/
theorem isPrefix_step {e : Exchange.Event FmReq FmAck} (h : Between D t₀ src ((s, l), d))
    (hu : (Session.exchange (setting D t₀)).Underway (s, l) d x)
    (hs : (Session.exchange (setting D t₀)).Step x e x')
    (hx : Disk.contentOf (x.server.get (target D t₀)) <+: src ∨ ∃ r a, e = .serve r a ∧ Begins r a) :
    Disk.contentOf (x'.server.get (target D t₀)) <+: src := by
  have served : ∀ {c : FmScheduler × Disk} {dd dd' : Disk} {w : Exchange.Wire FmReq FmAck} {r : FmReq}
      {a : FmAck}, x = ⟨c, dd, w⟩ → w = .asked r ∨ w = .stray r → e = .serve r a →
      (Session.exchange (setting D t₀)).serve r dd = some (a, dd') →
      Disk.contentOf (dd'.get (target D t₀)) <+: src := by
    intro c dd dd' w r a hxeq hw heq hserve
    subst hxeq heq
    obtain ⟨id, offset, rfl, hreached, hdd⟩ := carried h hu hw
    obtain ⟨rfl, hget⟩ := serve_cases hserve
    have hout : outcome D (at_ t₀ offset) src (dd.get (target D t₀))
        = outcome D (at_ t₀ offset) src (d.get (target D t₀)) := by
      obtain hdd | hdd := hdd
      · rw [hdd]
      · rw [hdd, outcome_outcome]
    rw [hget, hout]
    obtain ⟨-, hfile⟩ | ⟨-, hreached', hrefused⟩ := @outcome_reached D (at_ t₀ offset) src _ hreached
    · rw [hfile]
      exact List.prefix_rfl
    by_cases hneg : (outcome D (at_ t₀ offset) src (d.get (target D t₀))).1.1 < 0
    · obtain ⟨hkept, hnot⟩ := hrefused hneg
      obtain hx | ⟨r, a, heq, hbegins⟩ := hx
      · rw [hkept]
        obtain hdd | hdd := hdd
        · rwa [← hdd]
        · rwa [← hkept, ← hdd]
      · cases heq
        exact absurd (hout ▸ hbegins.2) hnot
    · exact hreached'.isPrefix (not_lt.mp hneg)
  have kept : (∀ r a, e ≠ .serve r a) → Disk.contentOf (x.server.get (target D t₀)) <+: src := by
    intro hne
    obtain hx | ⟨r, a, heq, -⟩ := hx
    · exact hx
    · exact absurd heq (hne r a)
  cases hs with
  | still _ _ => exact kept fun _ _ h => nomatch h
  | send _ _ => exact kept fun _ _ h => nomatch h
  | serve hserve => exact served rfl (.inl rfl) rfl hserve
  | late hserve => exact served rfl (.inr rfl) rfl hserve
  | receive _ => exact kept fun _ _ h => nomatch h
  | cut => exact kept fun _ _ h => nomatch h
  | drift _ hserver =>
    have hd : ∀ {d d' : Disk}, (Session.exchange (setting D t₀)).onServer.Rel d d' →
        d'.get (target D t₀) = d.get (target D t₀) := fun h => h
    dsimp only
    rw [hd hserver]
    exact kept fun _ _ h => nomatch h

/-- Once a first request was served and not refused, the file is a part of the source for good. -/
theorem isPrefix_of_run {s₀ : FmScheduler} {l₀ d₀ : Disk} (h₀ : Between D t₀ src ((s₀, l₀), d₀))
    {Q : Exchange.State (FmScheduler × Disk) Disk FmReq FmAck → Exchange.Event FmReq FmAck → Prop}
    {es : List (Exchange.Event FmReq FmAck)}
    (h : Run (restrict (Session.exchange (setting D t₀)).Step Q) ⟨(s₀, l₀), d₀, .idle⟩ es x)
    (hes : ∃ r a, .serve r a ∈ es ∧ Begins r a) :
    Disk.contentOf (x.server.get (target D t₀)) <+: src := by
  induction h with
  | nil =>
    obtain ⟨r, a, hmem, -⟩ := hes
    cases hmem
  | @snoc es x e x' hrun hstep ih =>
    obtain ⟨s, l, d, hbetween, hunder⟩ := underway h₀ hrun
    refine isPrefix_step hbetween hunder hstep.1 ?_
    obtain ⟨r, a, hmem, hbegins⟩ := hes
    obtain hmem | hmem := List.mem_append.mp hmem
    · exact .inl (ih ⟨r, a, hmem, hbegins⟩)
    · exact .inr ⟨r, a, (List.mem_singleton.mp hmem).symm, hbegins⟩

/-- In the run of a session a first request was served, and not refused. -/
def Begun (es : List Session.Event) : Prop :=
  ∃ r a, (.serve r a ∈ es ∨ .serveStray r a ∈ es) ∧ Begins r a

/-- **An upload is exactly-once, whatever breaks** — once the server took the first request its file is
the beginning of the source, and when the task is done it is the source. -/
theorem upload_exactly_once (D : Disks) (task : FmTask) (t : FmTaskDownload) (src : Bytes)
    (localDisk serverDisk : Disk) (hbody : task.body = .upload t) (hoffset : t.offset_ < 0)
    (hsrc : localDisk.file t.localPath_ = some src) {es : List Session.Event} {s : Session Disk Disk}
    (h : Run (Session.Step (setting D t)) (.start (.single task) localDisk serverDisk) es s) :
    (Begun es → (s.server.file (target D t)).getD [] <+: src) ∧
      (s.client.scheduler_.tasks_ = [] → s.server.file (target D t) = some src) := by
  have h₀ : Between D t src ((.single task, localDisk), serverDisk) := by
    obtain ⟨id, result, body⟩ := task
    obtain rfl : body = .upload t := hbody
    exact @Between.pending D t src _ _ _ id result t.offset_ rfl hsrc (.inl hoffset)
  obtain ⟨es', x, hrun, hviews, hshows⟩ := Session.shows_of_free_run (Session.shows_start _ _ _) h
  rw [← hshows.server]
  constructor
  · rintro ⟨r, a, hmem, hbegins⟩
    rw [Disk.getD_file]
    refine isPrefix_of_run h₀ hrun ⟨r, a, ?_, hbegins⟩
    obtain hmem | hmem := hmem
    all_goals
      obtain ⟨e', he', hview⟩ := Session.exists_views hviews hmem
      exact hview ▸ he'
  · intro hdone
    obtain ⟨s', l, d, hbetween, hunder⟩ := underway h₀ hrun
    refine Disk.file_of_get (done_of_underway hbetween hunder ?_)
    rw [hshows.client]
    exact hdone

/-- The upload of the file `b` to `/a/f`. -/
def smallUpload : FmTaskDownload := ⟨[98], [slash, 97, slash, 102], -1, 1, 0, false⟩

/-- The first answer is lost, and the upload goes through on the next connection. -/
theorem smallUpload_exactly_once : ∃ es s,
    Run (Session.Step (setting roomyDisks smallUpload))
      (.start (.single ⟨0, FmResultOk, .upload smallUpload⟩) [([98], .file [7])] []) es s ∧
    (s.server.file [slash, 97, slash, 102]).getD [] <+: [7] ∧
    s.server.file [slash, 97, slash, 102] = some [7] := by
  have hstart : Run (Session.Step (setting roomyDisks smallUpload))
      (.start (.single ⟨0, FmResultOk, .upload smallUpload⟩) [([98], .file [7])] []) [] _ := .nil
  have hstarted := hstart.snoc (.connect rfl) |>.snoc (.userStart rfl) |>.snoc (.userLoop rfl rfl rfl)
    |>.snoc (.serve rfl rfl)
  have hlost := hstarted.snoc (.disconnect rfl) |>.snoc .reset |>.snoc (.connect rfl)
  have hagain := hlost.snoc (.userStart rfl) |>.snoc (.userLoop rfl rfl rfl) |>.snoc (.serve rfl rfl)
    |>.snoc (.read rfl rfl rfl)
  have hdone := hagain.snoc (.userLoop rfl rfl rfl) |>.snoc (.serve rfl rfl) |>.snoc (.read rfl rfl rfl)
  have hexact := upload_exactly_once roomyDisks ⟨0, FmResultOk, .upload smallUpload⟩ smallUpload [7]
    [([98], .file [7])] [] rfl (by decide) rfl hdone
  have hserved : Begins (.up (requestOf 0 smallUpload [7]))
      (.up ⟨0, [slash, 97, slash, 102], 0, FmResultOk⟩) := ⟨by decide, rfl⟩
  refine ⟨_, _, hdone, hexact.1 ⟨_, _, .inl ?_, hserved⟩, hexact.2 rfl⟩
  simp only [List.mem_append, List.mem_singleton]
  tauto

end Upload

end EuhatExpert
