import EuhatExpert.FileMan.Engines
import EuhatExpert.FileMan.Disk

/-!
# FileMan/RightToSend — when the client loses its right to send

`onUserLoop` clears `canSend_` for any first task it gets, `onRead` sets it with an answer.  A first task
that sends nothing — a download without room, a task to connect, a copy at the peer — leaves the client
waiting for an answer to nothing.  `inTurn_of_run`: nothing else does.
-/

namespace EuhatExpert

open Machinery TraceM

/-- The free space a download finds once it has made room for its file. -/
def FmcDownFile.freeSpaceInMB {L : Type} (os : Os L) (t : FmTaskDownload) (l : L) : ℤ :=
  os.freeSpaceInMB t.localPath_ (os.opUnlink t.localPath_ (os.whPrepareFolder t.localPath_ l)).2

/-- The local disk is too full for a download to begin. -/
def FmcDownFile.NoSpace {L : Type} (os : Os L) (t : FmTaskDownload) (l : L) : Prop :=
  t.offset_ < 0 ∧ FmcDownFile.freeSpaceInMB os t l - t.totalFileSize_.tdiv (1024 * 1024) < 100

/-- The first task is one that sends a request. -/
def FmTask.Body.Sends {L : Type} (os : Os L) (l : L) : FmTask.Body → Prop
  | download t => ¬ FmcDownFile.NoSpace os t l
  | upload _ | getSubList true _ | del true _ | new true _ => True
  | _ => False

/-- What a download comes to when it begins. -/
theorem FmcDownFile.req_yields {L : Type} (os : Os L) (task : FmTask) {t : FmTaskDownload}
    (h : t.offset_ < 0) (l : L) :
    Yields (FmcDownFile.req os task t) l
      (if FmcDownFile.freeSpaceInMB os t l - t.totalFileSize_.tdiv (1024 * 1024) < 100 then
        ({ task with result_ := FmResultNoSpace }, none)
      else (task.setDownload { t with offset_ := 0 },
        some ⟨task.id_, t.peerPath_, 0, FILE_MAN_RECV_FILE_SEGMENT_MAX_LEN⟩))
      (os.opUnlink t.localPath_ (os.whPrepareFolder t.localPath_ l)).2 := by
  rw [FmcDownFile.req, if_pos h]
  refine Yields.bind (yields_call _ _ _) (Yields.bind (yields_call _ _ _)
    (Yields.bind (yields_call _ _ _) ?_))
  dsimp only
  rw [FmcDownFile.freeSpaceInMB]
  split_ifs
  · exact yields_pure _ _
  · exact yields_pure _ _

namespace FileManClient

variable {L : Type} {os : Os L} {task task' : FmTask} {r : Option FmReq} {l l' : L}

/-- What is made of a result is made of the result there is. -/
theorem exec_bind_pure_eq_some {α β : Type} {m : FsM L α} {f : α → β} {b : β}
    (h : exec (m >>= fun a => pure (f a)) l = some (b, l')) : ∃ a, exec m l = some (a, l') ∧ b = f a := by
  rw [exec_bind_pure, Option.map_eq_some_iff] at h
  obtain ⟨⟨a, l₁⟩, hm, heq⟩ := h
  obtain ⟨hb, hl⟩ := Prod.mk.inj heq
  exact ⟨a, hl ▸ hm, hb.symm⟩

/-- **A request is made exactly of a task that sends.** -/
theorem isSome_req (h : exec (req os task) l = some ((task', r), l')) :
    r.isSome = true ↔ task.body.Sends os l := by
  have ofPure : ∀ {b : FmTask.Body} {o : Option FmReq}, task.body = b →
      req os task = pure (task, o) → (o.isSome = true ↔ b.Sends os l) →
        (r.isSome = true ↔ task.body.Sends os l) := by
    intro b o hb hreq hiff
    rw [hreq, exec_pure] at h
    obtain rfl : o = r := by injection h with h; injection h with h _; exact (Prod.mk.inj h).2
    rw [hb]
    exact hiff
  obtain ⟨taskId, result, body⟩ := task
  cases body with
  | connect => exact ofPure rfl rfl (iff_of_false nofun not_false)
  | getSubList isPeer t =>
    cases isPeer with
    | true => exact ofPure rfl rfl (iff_of_true rfl trivial)
    | false => exact ofPure rfl rfl (iff_of_false nofun not_false)
  | download t =>
    obtain ⟨⟨task₁, r₁⟩, hreq, heq⟩ := exec_bind_pure_eq_some h
    obtain ⟨-, rfl⟩ := Prod.mk.inj heq
    rw [Option.isSome_map]
    by_cases hneg : t.offset_ < 0
    · rw [(FmcDownFile.req_yields os _ hneg l).exec_eq] at hreq
      obtain ⟨hout, -⟩ := Prod.mk.inj (Option.some.inj hreq)
      rw [FmTask.Body.Sends, FmcDownFile.NoSpace, not_and]
      split_ifs at hout with hfull
      · obtain ⟨-, rfl⟩ := Prod.mk.inj hout
        exact iff_of_false nofun fun hroom => hroom hneg hfull
      · obtain ⟨-, rfl⟩ := Prod.mk.inj hout
        exact iff_of_true rfl fun _ => hfull
    · rw [FmcDownFile.req, if_neg hneg, exec_pure] at hreq
      obtain ⟨hout, -⟩ := Prod.mk.inj (Option.some.inj hreq)
      obtain ⟨-, rfl⟩ := Prod.mk.inj hout
      exact iff_of_true rfl fun hfull => hneg hfull.1
  | upload t =>
    obtain ⟨_, -, heq⟩ := exec_bind_pure_eq_some h
    obtain ⟨-, rfl⟩ := Prod.mk.inj heq
    exact iff_of_true rfl trivial
  | copy isPeer t => exact ofPure rfl rfl (iff_of_false nofun not_false)
  | del isPeer t =>
    cases isPeer with
    | true => exact ofPure rfl rfl (iff_of_true rfl trivial)
    | false => exact ofPure rfl rfl (iff_of_false nofun not_false)
  | new isPeer t =>
    cases isPeer with
    | true => exact ofPure rfl rfl (iff_of_true rfl trivial)
    | false => exact ofPure rfl rfl (iff_of_false nofun not_false)

/-- **`canSend_` is cleared exactly where a request is sent, if the first task is one that sends.** -/
theorem onUserLoop_cases {c c' : FileManClient} (h : exec (onUserLoop os c) l = some ((c', r), l')) :
    ((c.canSend_ = true → c.scheduler_.getFirst true = none) ∧ c'.canSend_ = c.canSend_ ∧ r = none) ∨
      (c.canSend_ = true ∧ c'.canSend_ = false ∧ ∃ task, c.scheduler_.getFirst true = some task ∧
        (r.isSome = true ↔ task.body.Sends os l)) := by
  rw [onUserLoop] at h
  by_cases hcan : c.canSend_ = true
  · rw [if_pos hcan] at h
    obtain ⟨⟨s, r₁⟩, hreq, heq⟩ := exec_bind_pure_eq_some h
    obtain ⟨rfl, rfl⟩ := Prod.mk.inj heq
    rw [reqFirst] at hreq
    cases hfirst : c.scheduler_.getFirst true with
    | none =>
      rw [hfirst, exec_pure] at hreq
      obtain ⟨hout, -⟩ := Prod.mk.inj (Option.some.inj hreq)
      exact .inl ⟨fun _ => rfl, hcan.symm, (Prod.mk.inj hout).2.symm⟩
    | some task =>
      rw [hfirst] at hreq
      obtain ⟨⟨task₁, r₁⟩, hreq, heq⟩ := exec_bind_pure_eq_some hreq
      obtain ⟨-, rfl⟩ := Prod.mk.inj heq
      exact .inr ⟨hcan, rfl, task, rfl, isSome_req hreq⟩
  · rw [if_neg hcan, exec_pure] at h
    obtain ⟨hout, -⟩ := Prod.mk.inj (Option.some.inj h)
    obtain ⟨rfl, rfl⟩ := Prod.mk.inj hout
    exact .inl ⟨fun h => absurd h hcan, rfl, rfl⟩

theorem canSend_onRead {dispatch : FmTask → Bytes → FmScheduler → FmScheduler} {a : FmAck}
    {c c' : FileManClient} (h : exec (onRead os dispatch a c) l = some (c', l')) : c'.canSend_ = true := by
  obtain ⟨_, -, rfl⟩ := exec_bind_pure_eq_some h
  rfl

end FileManClient

namespace Engines

variable {L : Type} (S : Setup L)

/-- How many requests were sent whose answers are not handled yet. -/
def outstanding (s : Engines L) : ℕ := s.requests.length + s.acks.length

/-- `canSend_` is 0 exactly when a request is outstanding, and then it is one. -/
def InTurn (s : Engines L) : Prop :=
  s.outstanding ≤ 1 ∧ (s.client.canSend_ = false ↔ s.outstanding = 1)

/-- Whenever the client may send and gets a first task, that task sends. -/
def FirstSends (s : Engines L) (e : Event) : Prop :=
  e = .userLoop → s.client.canSend_ = true → ∀ task, s.scheduler_.getFirst true = some task →
    task.body.Sends S.os s.disk

variable {S} {s s' : Engines L} {e : Event}

theorem inTurn_ready (scheduler : FmScheduler) (disk : L) : (ready scheduler disk).InTurn :=
  ⟨Nat.zero_le 1, iff_of_false nofun nofun⟩

/-- **A step keeps the client in turn exactly when its first task, if it gets one, sends.** -/
theorem InTurn.step_iff (h : s.InTurn) (hstep : Step S s e s') : s'.InTurn ↔ FirstSends S s e := by
  have hother : e ≠ .userLoop → FirstSends S s e := fun hne heq => absurd heq hne
  obtain ⟨hle, hiff⟩ := h
  cases hstep with
  | @userLoop c r l hexec =>
    obtain ⟨hnone, hsame, rfl⟩ | ⟨hcan, hclear, task, hfirst, hsends⟩ :=
      FileManClient.onUserLoop_cases hexec
    · have hturn : InTurn { s with client := c, disk := l, requests := s.requests ++ [] } := by
        rw [List.append_nil, InTurn, hsame]
        exact ⟨hle, hiff⟩
      refine iff_of_true hturn fun _ hcan task hfirst => ?_
      rw [scheduler_, hnone hcan] at hfirst
      cases hfirst
    · have hzero : s.outstanding = 0 := by
        have hne : s.outstanding ≠ 1 := fun hone => by
          rw [hiff.mpr hone] at hcan
          cases hcan
        omega
      have hcount : outstanding { s with client := c, disk := l, requests := s.requests ++ r.toList }
          = r.toList.length := by
        simp only [outstanding, List.length_append] at hzero ⊢
        omega
      rw [InTurn, hcount]
      constructor
      · rintro ⟨-, hone⟩ - - task' hfirst'
        obtain rfl : task = task' := Option.some.inj (hfirst.symm.trans hfirst')
        refine hsends.mp ?_
        cases r with
        | none => exact absurd (hone.mp hclear) (by decide)
        | some r => rfl
      · intro hsend
        obtain ⟨r, rfl⟩ := Option.isSome_iff_exists.mp (hsends.mpr (hsend rfl hcan task hfirst))
        exact ⟨le_rfl, iff_of_true hclear rfl⟩
  | @serve r rest a hrequests =>
    refine iff_of_true ?_ (hother nofun)
    have hcount : outstanding { s with requests := rest, acks := s.acks ++ [a] } = s.outstanding := by
      simp only [outstanding, hrequests, List.length_append, List.length_cons, List.length_nil]
      omega
    rw [InTurn, hcount]
    exact ⟨hle, hiff⟩
  | @read a rest c l hacks hexec =>
    refine iff_of_true ?_ (hother nofun)
    have hcount : outstanding { s with client := c, disk := l, acks := rest } = 0 := by
      simp only [outstanding, hacks, List.length_cons] at hle ⊢
      omega
    rw [InTurn, hcount, FileManClient.canSend_onRead hexec]
    exact ⟨Nat.zero_le 1, iff_of_false nofun nofun⟩
  | timer => exact iff_of_true ⟨hle, hiff⟩ (hother nofun)
  | localLoop hexec => exact iff_of_true ⟨hle, hiff⟩ (hother nofun)
  | user c => exact iff_of_true ⟨hle, hiff⟩ (hother nofun)

/-- **While every first task sends, the client stays in turn.** -/
theorem inTurn_of_run (S : Setup L) (scheduler : FmScheduler) (disk : L) {es : List Event} {s : Engines L}
    (h : Run (restrict (Step S) (FirstSends S)) (ready scheduler disk) es s) : s.InTurn :=
  h.invariant (inTurn_ready scheduler disk) fun _ _ _ hturn hstep => (hturn.step_iff hstep.1).mpr hstep.2

/-- A local disk without space, before an empty server. -/
def fullDisk : Setup Disk := ⟨Disk.os true fun _ => 0, true⟩

/-- The user asks for a file. -/
def askedFor : Event := .user (.add (.download ⟨[98], [slash, 97], -1, 1, 0, false⟩))

/-- **A download without room takes the client's turn, and sends nothing.** -/
theorem fullDisk_not_inTurn : ¬ ∀ es s, Run (Step fullDisk) (ready .new []) es s → s.InTurn := by
  intro h
  have hask : Run (Step fullDisk) (ready .new []) [askedFor] _ := Run.nil.snoc (.user _)
  have hloop := hask.snoc (.userLoop (c := _) (r := none) (l := _) rfl)
  exact absurd ((h _ _ hloop).2.mp rfl) (by decide)

/-- The user asks for a listing of the peer. -/
def askedToList : Event := .user (.add (.getSubList true ⟨[slash, 97], .ActionInformUi, [], false⟩))

theorem listed_inTurn : ∃ s, Run (restrict (Step fullDisk) (FirstSends fullDisk)) (ready .new [])
    [askedToList, .userLoop] s ∧ s.outstanding = 1 ∧ s.InTurn := by
  have hask : Run (restrict (Step fullDisk) (FirstSends fullDisk)) (ready .new []) [askedToList] _ :=
    Run.nil.snoc ⟨.user _, nofun⟩
  have hloop := hask.snoc ⟨.userLoop (c := _) (r := some _) (l := _) rfl, fun _ _ task htask => by
    obtain rfl := Option.some.inj htask
    trivial⟩
  exact ⟨_, hloop, rfl, inTurn_of_run fullDisk .new [] hloop⟩

end Engines

end EuhatExpert
