import EuhatExpert.FileMan.ConnectTasks
import EuhatExpert.FileMan.Disk
import EuhatExpert.FileMan.Session

/-!
# Expert/FileManDlg — a client for every request to reconnect

A timer of the client asks the user interface to reconnect, which makes a new client, and a connect task
for it.  The client takes one such task away when the server accepts its visit code; a second one stays at
the front of the queue, where no engine has a use for it.  `oneConnectTask_of_run`: there is a second one
exactly where a request to reconnect is handled while a connect task is queued.
-/

namespace EuhatExpert

open Machinery FmScheduler

/-- What waits in `listMsg_` for the user interface, without the bytes that come with it. -/
inductive FmscMsg
  | getSubList
  | refresh
  | needReconnect
  | getSysInfo
  deriving DecidableEq, Repr

/-- The engines with the client of the moment, its socket and its times, and what waits for the user
interface. -/
structure FileManDlg (L : Type) where
  engines : Engines L
  link : Link
  lastRecvTime_ : ℤ
  maxPacketNeedTime_ : ℤ
  listMsg_ : List FmscMsg

namespace FileManDlg

variable {L : Type}

/-- Before the first connection. -/
def start (disk : L) : FileManDlg L := ⟨⟨.fresh .new, disk, [], []⟩, .down, 0, 0, []⟩

def scheduler_ (s : FileManDlg L) : FmScheduler := s.engines.scheduler_

/-- The connect tasks in the queue. -/
def connects (s : FileManDlg L) : ℕ := s.scheduler_.connects

def withScheduler (s : FileManDlg L) (scheduler : FmScheduler) : FileManDlg L :=
  { s with engines := s.engines.withScheduler scheduler }

/-- `listMsg_.pushBack`. -/
def post (s : FileManDlg L) (m : FmscMsg) : FileManDlg L := { s with listMsg_ := s.listMsg_ ++ [m] }

/-! ## The client -/

/-- `FileManClient::onTimer`. -/
def onTimer (s : FileManDlg L) (now : ℤ) : FileManDlg L :=
  if (s.scheduler_.getFirst true).isSome ∧ s.maxPacketNeedTime_ ≠ 0 ∧
      now - s.lastRecvTime_ - s.maxPacketNeedTime_ > 15 then s.post .needReconnect
  else s

/-- `FileManClient::onReadExchangeSymSecurity`. -/
def onReadExchangeSymSecurity (s : FileManDlg L) (isVisitCodeOk : Bool) : FileManDlg L :=
  let s := match s.scheduler_.getConnect with
    | none => s
    | some task => s.withScheduler (if isVisitCodeOk then s.scheduler_.remove task.id_
        else s.scheduler_.write { task with result_ := FmResultVisitCodeMismatch })
  if isVisitCodeOk then s.post .getSysInfo else s

/-- The times a client keeps of its requests and their answers. -/
def clock (s : FileManDlg L) (now : ℤ) : Engines.Event → FileManDlg L
  | .userLoop =>
    if s.engines.client.canSend_ ∧ (s.scheduler_.getFirst true).isSome then { s with lastRecvTime_ := now }
    else s
  | .read => { s with
      maxPacketNeedTime_ := max s.maxPacketNeedTime_ (now - s.lastRecvTime_)
      lastRecvTime_ := now }
  | _ => s

/-! ## The user interface -/

/-- `resetFileManClient`: what the old client waited for is lost, and `lastRecvTime_` of the new one is
whatever was there. -/
def resetFileManClient (s : FileManDlg L) (uninitialised : ℤ) : FileManDlg L :=
  { s with
    engines := { s.engines with
      client := .fresh (s.scheduler_.add .connect)
      requests := []
      acks := [] }
    link := .connecting
    lastRecvTime_ := uninitialised
    maxPacketNeedTime_ := 0 }

/-- `notifyEngine`, at the client. -/
def notifyEngine (s : FileManDlg L) : FileManDlg L :=
  { s with engines := { s.engines with client := s.engines.client.postUserLoop } }

/-- What `notify` does with a message. -/
def handle (s : FileManDlg L) (uninitialised : ℤ) : FmscMsg → FileManDlg L
  | .needReconnect => (s.resetFileManClient uninitialised).notifyEngine
  | .refresh => s.withScheduler s.scheduler_.fmscOnRefresh
  | .getSubList | .getSysInfo => s

/-- `dataToEngine`, when the user asks to connect. -/
def dataToEngine (s : FileManDlg L) (uninitialised : ℤ) : FileManDlg L :=
  let s := (s.withScheduler s.scheduler_.cleanAll).resetFileManClient uninitialised
  s.withScheduler s.scheduler_.fmscOnRefresh

/-! ## Runs -/

inductive Event
  | connectEnd (isOk : Bool)
  | exchangedSym (isVisitCodeOk : Bool)
  | userStart
  | disconnect
  | timer (now : ℤ)
  | engine (now : ℤ) (e : Engines.Event)
  | posted (m : FmscMsg)
  | notify (uninitialised : ℤ)
  | dataToEngine (uninitialised : ℤ)

/-- An engine's event is one of the client on its socket. -/
def OnSocket : Engines.Event → Prop
  | .userLoop | .read => True
  | _ => False

inductive Step (S : Engines.Setup L) : FileManDlg L → Event → FileManDlg L → Prop
  | connectEnd {s : FileManDlg L} (isOk : Bool) : s.link = .connecting →
      Step S s (.connectEnd isOk) { s with link := if isOk then .up false else .connecting }
  | exchangedSym {s : FileManDlg L} {b : Bool} (isVisitCodeOk : Bool) : s.link = .up b →
      Step S s (.exchangedSym isVisitCodeOk) (s.onReadExchangeSymSecurity isVisitCodeOk)
  | userStart {s : FileManDlg L} {b : Bool} : s.link = .up b →
      Step S s .userStart { s with
        engines := { s.engines with client := s.engines.client.onUserStart }
        link := .up true }
  | disconnect {s : FileManDlg L} {b : Bool} : s.link = .up b → Step S s .disconnect { s with link := .down }
  | timer {s : FileManDlg L} (now : ℤ) : Step S s (.timer now) (s.onTimer now)
  | engine {s : FileManDlg L} {e : Engines.Event} {engines : Engines L} (now : ℤ) :
      (OnSocket e → ∃ b, s.link = .up b) → e.LeavesConnects → Engines.Step S s.engines e engines →
      Step S s (.engine now e) { s.clock now e with engines := engines }
  | posted {s : FileManDlg L} {m : FmscMsg} : m ≠ .needReconnect → Step S s (.posted m) (s.post m)
  | notify {s : FileManDlg L} {m : FmscMsg} {rest : List FmscMsg} (uninitialised : ℤ) :
      s.listMsg_ = m :: rest →
      Step S s (.notify uninitialised) ({ s with listMsg_ := rest }.handle uninitialised m)
  | dataToEngine {s : FileManDlg L} (uninitialised : ℤ) :
      Step S s (.dataToEngine uninitialised) (s.dataToEngine uninitialised)

/-- At most one connect task is queued, and none right after the server accepted a visit code. -/
structure OneConnectTask (es : List Event) (s : FileManDlg L) : Prop where
  atMostOne : s.connects ≤ 1
  noneLeft : ∀ before, es = before ++ [.exchangedSym true] → s.connects = 0

/-- A request to reconnect is handled only while no connect task is queued. -/
def NoneQueued (s : FileManDlg L) (e : Event) : Prop :=
  ∀ uninitialised rest, e = .notify uninitialised → s.listMsg_ = .needReconnect :: rest → s.connects = 0

section Runs

variable {S : Engines.Setup L} {s s' : FileManDlg L} {e : Event} {es : List Event}

theorem connects_resetFileManClient (s : FileManDlg L) (uninitialised : ℤ) :
    (s.resetFileManClient uninitialised).connects = s.connects + 1 :=
  connects_add s.scheduler_ .connect

/-- The queue once the server answered the visit code. -/
theorem scheduler_exchangedSym (s : FileManDlg L) (isVisitCodeOk : Bool) :
    (s.onReadExchangeSymSecurity isVisitCodeOk).scheduler_ = match s.scheduler_.getConnect with
      | none => s.scheduler_
      | some task => if isVisitCodeOk then s.scheduler_.remove task.id_
        else s.scheduler_.write { task with result_ := FmResultVisitCodeMismatch } := by
  rw [onReadExchangeSymSecurity]
  cases s.scheduler_.getConnect with
  | none => cases isVisitCodeOk <;> rfl
  | some task => cases isVisitCodeOk <;> rfl

/-- **The answer leaves one connect task less if it accepts the visit code**, and as many if not. -/
theorem connects_exchangedSym (s : FileManDlg L) (isVisitCodeOk : Bool) :
    (s.onReadExchangeSymSecurity isVisitCodeOk).connects
      = s.connects - if isVisitCodeOk then 1 else 0 := by
  rw [connects, scheduler_exchangedSym]
  cases hconnect : s.scheduler_.getConnect with
  | none =>
    have hzero : s.connects = 0 := List.countP_eq_zero.mpr (List.find?_eq_none.mp hconnect)
    rw [hzero, Nat.zero_sub]
    exact hzero
  | some task =>
    have hmem := List.mem_of_find?_eq_some hconnect
    cases isVisitCodeOk with
    | true =>
      have hremove := connects_remove hmem (List.find?_some hconnect)
      change (s.scheduler_.remove task.id_).connects = s.scheduler_.connects - 1
      omega
    | false => exact connects_write hmem rfl rfl

/-- At most one connect task, and none aside. -/
def Orderly (s : FileManDlg L) : Prop := s.scheduler_.RefreshPlain ∧ s.connects ≤ 1

/-- **A step keeps it at one connect task**, if no request to reconnect finds one queued. -/
theorem Orderly.step (h : s.Orderly) (hstep : Step S s e s') (hnone : NoneQueued s e) : s'.Orderly := by
  obtain ⟨hplain, hone⟩ := h
  have ofKeeps : Keeps s.scheduler_ s'.scheduler_ → s'.Orderly := fun hkeeps =>
    ⟨(hkeeps hplain).1, (hkeeps hplain).2.trans_le hone⟩
  cases hstep with
  | connectEnd isOk hlink => exact ⟨hplain, hone⟩
  | exchangedSym isVisitCodeOk hlink =>
    refine ⟨?_, ?_⟩
    · rw [scheduler_exchangedSym]
      split
      · exact hplain
      · split_ifs
        · exact hplain
        · exact hplain
    · rw [connects_exchangedSym]
      omega
  | userStart hlink => exact ⟨hplain, hone⟩
  | disconnect hlink => exact ⟨hplain, hone⟩
  | timer now =>
    rw [onTimer]
    split_ifs
    · exact ⟨hplain, hone⟩
    · exact ⟨hplain, hone⟩
  | engine now hsocket hleaves hstep => exact ofKeeps (Engines.kept_step hstep hleaves)
  | posted hm => exact ⟨hplain, hone⟩
  | @notify m rest uninitialised hmsg =>
    cases m with
    | needReconnect =>
      have hzero := hnone uninitialised rest rfl hmsg
      refine ⟨hplain, ?_⟩
      have hreset := connects_resetFileManClient { s with listMsg_ := rest } uninitialised
      exact (hreset.trans (congrArg Nat.succ hzero)).le
    | refresh => exact ofKeeps (keeps_fmscOnRefresh _)
    | getSubList => exact ⟨hplain, hone⟩
    | getSysInfo => exact ⟨hplain, hone⟩
  | dataToEngine uninitialised =>
    have hkeeps := keeps_fmscOnRefresh (s.scheduler_.cleanAll.add .connect)
    have hadd := connects_add s.scheduler_.cleanAll .connect
    exact ⟨(hkeeps hplain).1, ((hkeeps hplain).2.trans hadd).le⟩

theorem orderly_start (disk : L) : (start disk).Orderly := ⟨nofun, Nat.zero_le 1⟩

/-- A request to reconnect that finds a connect task queued leaves two of them. -/
theorem two_of_not_noneQueued (hstep : Step S s e s') (h : ¬ NoneQueued s e) : ¬ s'.connects ≤ 1 := by
  rw [NoneQueued] at h
  push Not at h
  obtain ⟨uninitialised, rest, rfl, hmsg, hqueued⟩ := h
  cases hstep with
  | notify _ hmsg' =>
    obtain ⟨rfl, rfl⟩ := List.cons.inj (hmsg.symm.trans hmsg')
    have hreset := connects_resetFileManClient { s with listMsg_ := rest } uninitialised
    change ¬ ({ s with listMsg_ := rest }.resetFileManClient uninitialised).connects ≤ 1
    rw [hreset]
    change ¬ s.connects + 1 ≤ 1
    omega

/-- **There is one connect task at a time in a run where every request to reconnect finds none**, and the
first to find one makes it two. -/
theorem oneConnectTask_of_run {disk : L} (h : Run (restrict (Step S) NoneQueued) (start disk) es s) :
    OneConnectTask es s ∧ ∀ e s', Step S s e s' → ¬ NoneQueued s e → ¬ OneConnectTask (es ++ [e]) s' := by
  have hinv : s.Orderly ∧ ∀ before, es = before ++ [.exchangedSym true] → s.connects = 0 := by
    refine h.invariant_hist
      (I := fun es s => s.Orderly ∧ ∀ before, es = before ++ [.exchangedSym true] → s.connects = 0)
      ⟨orderly_start disk, fun before hes => ?_⟩ ?_
    · simp at hes
    · rintro es s e s' ⟨horderly, -⟩ ⟨hstep, hnone⟩
      refine ⟨horderly.step hstep hnone, fun before hes => ?_⟩
      obtain rfl := List.singleton_inj.mp (List.append_inj' hes rfl).2
      cases hstep
      rw [connects_exchangedSym]
      exact Nat.sub_eq_zero_of_le horderly.2
  exact ⟨⟨hinv.1.2, hinv.2⟩, fun e s' hstep hnot hone =>
    two_of_not_noneQueued hstep hnot hone.atMostOne⟩

end Runs

/-! ## Two requests at once -/

/-- Local and remote disks that nothing is done to. -/
def idle : Engines.Setup Disk := ⟨Disk.os true fun _ => 0, true⟩

/-- The user connects, and asks twice for a folder at the peer; the second answer does not come. -/
def unanswered : List Event :=
  [.dataToEngine 0, .connectEnd true, .exchangedSym true, .userStart,
    .engine 100 (.user (.add (.new true ⟨[slash, 97], 1, true⟩))), .engine 100 .userLoop,
    .engine 100 (.serve (.new ⟨1, [slash, 97], 1, true⟩)), .engine 101 .read,
    .engine 101 (.user (.add (.new true ⟨[slash, 98], 1, true⟩))), .engine 102 .userLoop, .timer 130]

theorem run_unanswered : ∃ s, Run (restrict (Step idle) NoneQueued) (start []) unanswered s ∧
    s.listMsg_ = [.getSysInfo, .needReconnect] ∧ s.connects = 0 ∧
      s.onTimer 135 = s.post .needReconnect := by
  have h₁ : Run (restrict (Step idle) NoneQueued) (start []) [.dataToEngine 0] _ :=
    Run.nil.snoc ⟨.dataToEngine 0, nofun⟩
  have h₂ := h₁.snoc ⟨.connectEnd true rfl, nofun⟩
  have h₃ := h₂.snoc ⟨.exchangedSym true rfl, nofun⟩
  have h₄ := h₃.snoc ⟨.userStart rfl, nofun⟩
  have h₅ := h₄.snoc ⟨.engine (e := .user (.add (.new true ⟨[slash, 97], 1, true⟩))) 100 nofun nofun (.user _), nofun⟩
  have h₆ := h₅.snoc ⟨.engine (e := .userLoop) 100 (fun _ => ⟨_, rfl⟩) trivial
    (.userLoop (c := _) (r := _) (l := _) rfl), nofun⟩
  have h₇ := h₆.snoc ⟨.engine (e := .serve _) 100 nofun trivial (.serve (.new ⟨1, [slash, 97], 1, true⟩) rfl), nofun⟩
  have h₈ := h₇.snoc ⟨.engine (e := .read) 101 (fun _ => ⟨_, rfl⟩) trivial
    (.read (c := _) (l := _) rfl rfl), nofun⟩
  have h₉ := h₈.snoc
    ⟨.engine (e := .user (.add (.new true ⟨[slash, 98], 1, true⟩))) 101 nofun nofun (.user _), nofun⟩
  have h₁₀ := h₉.snoc ⟨.engine (e := .userLoop) 102 (fun _ => ⟨_, rfl⟩) trivial
    (.userLoop (c := _) (r := _) (l := _) rfl), nofun⟩
  exact ⟨_, h₁₀.snoc ⟨.timer 130, nofun⟩, rfl, rfl, rfl⟩

/-- **A client that is replaced once has no connect task left when it is accepted.** -/
theorem replaced_oneConnectTask : ∃ s, Run (restrict (Step idle) NoneQueued) (start [])
    (unanswered ++ [.notify 0] ++ [.notify 0] ++ [.connectEnd true] ++ [.exchangedSym true]) s ∧
      OneConnectTask (unanswered ++ [.notify 0] ++ [.notify 0] ++ [.connectEnd true] ++ [.exchangedSym true]) s := by
  obtain ⟨s, hrun, hmsg, hzero, -⟩ := run_unanswered
  have h₁ := hrun.snoc ⟨.notify 0 hmsg, fun _ _ _ _ => hzero⟩
  have h₂ := h₁.snoc ⟨.notify 0 rfl, fun _ _ _ _ => hzero⟩
  have h₃ := (h₂.snoc ⟨.connectEnd true rfl, nofun⟩).snoc ⟨.exchangedSym true rfl, nofun⟩
  exact ⟨_, h₃, (oneConnectTask_of_run h₃).1⟩

/-- **One that is replaced twice still has one left.** -/
theorem replacedTwice_not_oneConnectTask :
    ¬ ∀ es s, Run (Step idle) (start []) es s → OneConnectTask es s := by
  intro h
  obtain ⟨s, hrun, hmsg, hzero, htimer⟩ := run_unanswered
  have hpost : (s.onTimer 135).listMsg_ = [.getSysInfo, .needReconnect, .needReconnect] := by
    rw [htimer, post, hmsg]
    rfl
  have h₁ := ((hrun.of_restrict.snoc (.timer 135)).snoc (.notify 0 hpost)).snoc (.notify 0 rfl)
  have h₂ := ((h₁.snoc (.notify 0 rfl)).snoc (.connectEnd true rfl)).snoc (.exchangedSym true rfl)
  have hleft := (h _ _ h₂).noneLeft _ rfl
  rw [connects_exchangedSym] at hleft
  have htwo : ∀ t : FileManDlg Disk,
      ((t.resetFileManClient 0).resetFileManClient 0).connects = t.connects + 2 := fun t => by
    rw [connects_resetFileManClient, connects_resetFileManClient]
  have hqueued := htwo { s.onTimer 135 with listMsg_ := [] }
  rw [if_pos rfl] at hleft
  change (({ s.onTimer 135 with listMsg_ := [] } : FileManDlg Disk).resetFileManClient 0
    |>.resetFileManClient 0).connects - 1 = 0 at hleft
  omega

end FileManDlg

end EuhatExpert
