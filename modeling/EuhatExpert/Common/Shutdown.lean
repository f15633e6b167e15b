import EuhatExpert.Common.SocketLoop

/-!
# Common/Shutdown — what runs behind `FINI`

`stop` posts `FINI` to a queue that still fills, by the selector's thread until `onFini` has joined it, and
everything behind `FINI` runs without a selector.  The server looks at `selector_` before it uses it; the client's `onDisconnect` and `onConnectBegin` do not, and
`outlives_of_run` says that these two are all.
-/

namespace EuhatExpert

open Machinery

namespace SocketLoop

variable {role : Role} {s s' : SocketLoop} {e : Event} {m : SocketMsg}

/-- A message whose handler can run without a selector. -/
def Outlives (role : Role) (m : SocketMsg) : Prop := m ≠ .INIT ∧ m ≠ .FINI ∧ ¬ Unguarded role m

/-- One `INIT` comes first and one `FINI` ever; behind that, every handler does without a selector. -/
structure Ordered (role : Role) (s : SocketLoop) : Prop where
  init : .INIT ∉ s.pending.tail ++ s.posting
  one : s.waiting.count .FINI ≤ 1
  running : s.stopped = false → .FINI ∉ s.waiting ∧ s.selector_.isSome
  closed : s.selector_ = none → ∀ m ∈ s.waiting, Outlives role m
  fault : s.fault ≠ some .selector

/-- As `onFini` resets `selector_`, with the selector's thread joined, no message waits whose handler uses it
without a look at it. -/
def LeavesNone (role : Role) (s : SocketLoop) (e : Event) : Prop :=
  ∀ t, e = .work t → s.taken = some .FINI → ∀ m ∈ s.list_, ¬ Unguarded role m

/-! ## What a handler posts -/

theorem Said.outlives {hs : List Handle} (hm : Said s hs m) :
    m ≠ .INIT ∧ m ≠ .FINI ∧ (s.selector_ = none → ¬ Unguarded role m) := by
  cases hm with
  | lost _ hfind =>
    refine ⟨by simp, by simp, fun hsel => ?_⟩
    rw [find, hsel] at hfind
    cases hfind
  | leave _ _ hsome =>
    refine ⟨by simp, by simp, fun hsel => ?_⟩
    rw [hsel] at hsome
    cases hsome
  | exchange =>
    cases role
    · exact ⟨by simp, by simp, fun _ => id⟩
    · exact ⟨by simp, by simp, fun _ => id⟩
  | userStart =>
    cases role
    · exact ⟨by simp, by simp, fun _ => id⟩
    · exact ⟨by simp, by simp, fun _ => id⟩

/-- **A handler posts neither `INIT` nor `FINI`**, and without a selector nothing that needs one. -/
theorem Worked.outlives (h : Worked s role m s') (hposting : s.posting = []) :
    ∀ p ∈ s'.posting, p ≠ .INIT ∧ p ≠ .FINI ∧ (s.selector_ = none → ¬ Unguarded role p) := by
  have nothing : ∀ p ∈ s.posting, p ≠ .INIT ∧ p ≠ .FINI ∧ (s.selector_ = none → ¬ Unguarded role p) := by
    rw [hposting]
    exact fun _ hp => (by cases hp)
  have single : ∀ {p : SocketMsg}, p ≠ .INIT → p ≠ .FINI → (s.selector_ = none → ¬ Unguarded role p) →
      ∀ q ∈ s.posting ++ [p], q ≠ .INIT ∧ q ≠ .FINI ∧ (s.selector_ = none → ¬ Unguarded role q) := by
    rintro p hinit hfini hguard q hq
    rw [hposting, List.nil_append, List.mem_singleton] at hq
    exact hq ▸ ⟨hinit, hfini, hguard⟩
  have open_ : ∀ {p : SocketMsg}, s.selector_.isSome → s.selector_ = none → ¬ Unguarded role p :=
    fun hsome hsel => by rw [hsel] at hsome; cases hsome
  cases h with
  | talked hps =>
    intro p hp
    rw [posts, hposting, List.nil_append] at hp
    exact (hps p hp).outlives
  | fini _ => exact nothing
  | initServer hsel => exact single (by simp) (by simp) (open_ hsel)
  | listening _ _ => exact nothing
  | notListening hsel _ => exact single (by simp) (by simp) (open_ hsel)
  | accepted _ => exact nothing
  | disconnected =>
    rw [posting_del]
    exact nothing
  | initClient hsel => exact single (by simp) (by simp) (open_ hsel)
  | connected hsel _ => exact single (by simp) (by simp) (open_ hsel)
  | refused hsel _ => exact single (by simp) (by simp) (open_ hsel)
  | notSet _ _ => exact nothing
  | retry hsel => exact single (by simp) (by simp) (open_ hsel)
  | ended =>
    refine single ?_ ?_ fun _ => ?_
    · split_ifs <;> simp
    · split_ifs <;> simp
    · split_ifs <;> exact id
  | @left _ g _ =>
    have hdel : ({ s.del g.sock with sock_ := none } : SocketLoop).posting = s.posting :=
      posting_del s g.sock
    rw [hdel]
    exact nothing

/-- `onFini` posts nothing. -/
theorem Worked.fini_posting (h : Worked s role .FINI s') (hposting : s.posting = []) :
    ∀ p ∈ s'.posting, ¬ Unguarded role p := by
  cases h with
  | talked hps =>
    intro p hp
    rw [posts, hposting, List.nil_append] at hp
    have hsaid : Said s [] p := by
      cases role
      · exact hps p hp
      · exact hps p hp
    cases hsaid with
    | lost hmem _ => cases hmem
    | leave hmem _ _ => cases hmem
    | exchange =>
      cases role
      · exact id
      · exact id
    | userStart =>
      cases role
      · exact id
      · exact id
  | fini _ =>
    rw [hposting]
    exact fun _ hp => (by cases hp)

/-- **The selector is there until `FINI`.** -/
theorem Worked.selector (h : Worked s role m s') (hnone : s'.selector_ = none) :
    s.selector_ = none ∨ m = .FINI := by
  have kept : ∀ {o : Option (ℕ → Option Registered)} {f : (ℕ → Option Registered) → ℕ → Option Registered},
      o.isSome → o.map f ≠ none := by
    intro o f ho hmap
    rw [Option.map_eq_none_iff.mp hmap] at ho
    cases ho
  cases h with
  | talked _ => exact .inl hnone
  | fini _ => exact .inr rfl
  | initServer hsel => exact .inl hnone
  | listening hsel _ => exact absurd hnone (kept hsel)
  | notListening hsel _ => exact .inl hnone
  | accepted hsel => exact absurd hnone (kept hsel)
  | disconnected => exact .inl ((selector_del s _).mp hnone)
  | initClient hsel => exact .inl hnone
  | connected hsel _ => exact absurd hnone (kept hsel)
  | refused hsel _ => exact .inl hnone
  | notSet _ _ => exact .inl hnone
  | retry hsel => exact .inl hnone
  | ended => exact .inl hnone
  | left _ => exact .inl ((selector_del s _).mp hnone)

/-! ## Runs -/

theorem ordered_start (role : Role) : Ordered role start where
  init := nofun
  one := by decide
  running := fun _ => ⟨by decide, rfl⟩
  closed := nofun
  fault := nofun

theorem tail_append_subset {α : Type} (l : List α) (a : α) : (l ++ [a]).tail ⊆ l.tail ++ [a] := by
  cases l with
  | nil => exact List.nil_subset _
  | cons b l => exact List.Subset.refl _

/-- Another thread, or the endpoint's own, posts to the queue. -/
theorem Ordered.push (h : s.Ordered role) (hinit : m ≠ .INIT) (hfini : m ≠ .FINI)
    (hguard : s.selector_ = none → ¬ Unguarded role m) :
    Ordered role { s with list_ := s.list_ ++ [m] } := by
  have hmem : ∀ {p}, p ∈ waiting { s with list_ := s.list_ ++ [m] } → p = m ∨ p ∈ s.waiting := by
    intro p hp
    rw [waiting, pending_push, List.append_assoc, List.mem_append, List.singleton_append, List.mem_cons] at hp
    rw [waiting, List.mem_append]
    tauto
  refine ⟨fun hmemInit => ?_, ?_, fun hstopped => ⟨fun hmemFini => ?_, (h.running hstopped).2⟩, fun hsel p hp => ?_,
    h.fault⟩
  · rw [pending_push, List.mem_append] at hmemInit
    obtain hmemInit | hmemInit := hmemInit
    · obtain hmemInit | hmemInit := List.mem_append.mp (tail_append_subset _ _ hmemInit)
      · exact h.init (List.mem_append_left _ hmemInit)
      · exact hinit (List.mem_singleton.mp hmemInit).symm
    · exact h.init (List.mem_append_right _ hmemInit)
  · have hone := h.one
    rw [waiting, List.count_append] at hone ⊢
    rw [pending_push, List.count_append, List.count_singleton, if_neg (by simpa using hfini)]
    exact hone
  · obtain heq | hmemFini := hmem hmemFini
    · exact hfini heq.symm
    · exact (h.running hstopped).1 hmemFini
  · obtain rfl | hp := hmem hp
    · exact ⟨hinit, hfini, hguard hsel⟩
    · exact h.closed hsel p hp

/-- What the selector's thread posts is on a socket that is registered. -/
theorem Ordered.selected (h : s.Ordered role) {sock : ℕ} {r : Received} (hr : Selected s sock r s') :
    s'.Ordered role := by
  have open_ : ∀ {l : Registered} {m : SocketMsg}, s.find sock = some l → s.selector_ = none →
      ¬ Unguarded role m := by
    intro l m hfind hsel
    have hsome := selector_isSome_of_find hfind
    rw [hsel] at hsome
    cases hsome
  cases hr with
  | nothing => exact h
  | @connection l n hfind =>
    have hpush := h.push (m := .SOCK_ACCEPT ⟨n, s.conns⟩) nofun nofun (open_ hfind)
    exact ⟨hpush.init, hpush.one, hpush.running, hpush.closed, hpush.fault⟩
  | packet hfind => exact h.push nofun nofun (open_ hfind)
  | broken hfind => exact h.push nofun nofun (open_ hfind)

/-- A turn uses the message taken up, and what its handler posts has still to come. -/
theorem Ordered.work (h : s.Ordered role) (hposting : s.posting = []) (htaken : s.taken = some m)
    (hleaves : m = .FINI → ∀ p ∈ s.list_, ¬ Unguarded role p) (hwork : Worked { s with taken := none } role m s') :
    s'.Ordered role := by
  obtain ⟨-, -, hstopped, hfault⟩ := hwork.keeps
  have hposts := hwork.outlives hposting
  have hpending := pending_of_taken htaken
  have hwait : s.waiting = m :: s.list_ := by rw [waiting, hpending, hposting, List.append_nil]
  have hwait' : s'.waiting = s.list_ ++ s'.posting := by rw [waiting, hwork.pending]
  have hinit : .INIT ∉ s.list_ := fun hmem => h.init (by
    rw [hpending, hposting, List.append_nil, List.tail_cons]
    exact hmem)
  have hfini : .FINI ∉ s'.posting := fun hmem => (hposts _ hmem).2.1 rfl
  have hone : (m :: s.list_).count .FINI ≤ 1 := hwait ▸ h.one
  refine ⟨fun hmem => ?_, ?_, fun hrunning => ?_, fun hnone p hp => ?_, hfault ▸ h.fault⟩
  · rw [hwork.pending] at hmem
    obtain hmem | hmem := List.mem_append.mp hmem
    · exact hinit (List.mem_of_mem_tail hmem)
    · exact (hposts _ hmem).1 rfl
  · rw [hwait', List.count_append, List.count_eq_zero_of_not_mem hfini]
    exact (List.count_le_count_cons).trans hone
  · obtain ⟨hnot, hsel⟩ := h.running (hstopped ▸ hrunning)
    rw [hwait, List.mem_cons, not_or] at hnot
    refine ⟨?_, ?_⟩
    · rw [hwait', List.mem_append, not_or]
      exact ⟨hnot.2, hfini⟩
    · cases hsel' : s'.selector_ with
      | some socks_ => rfl
      | none =>
        obtain hnone | rfl := hwork.selector hsel'
        · exact absurd hsel (by rw [hnone]; nofun)
        · exact absurd rfl hnot.1
  · rw [hwait', List.mem_append] at hp
    obtain hsel | rfl := hwork.selector hnone
    · obtain hp | hp := hp
      · exact h.closed hsel p (hwait ▸ List.mem_cons_of_mem _ hp)
      · exact ⟨(hposts p hp).1, (hposts p hp).2.1, (hposts p hp).2.2 hsel⟩
    · obtain hp | hp := hp
      · refine ⟨fun heq => hinit (heq ▸ hp), fun heq => ?_, hleaves rfl p hp⟩
        rw [List.count_cons_self] at hone
        exact absurd (heq ▸ hp) (List.count_eq_zero.mp (by omega))
      · exact ⟨(hposts p hp).1, (hposts p hp).2.1, hwork.fini_posting hposting p hp⟩

/-- A turn that ends in a null member drops its message; it was the listener, for nothing that waits behind the
reset needs the selector. -/
theorem Ordered.fail (h : s.Ordered role) (hposting : s.posting = []) (htaken : s.taken = some m) {e : NullUse}
    (hcomes : Comes { s with taken := none } role m (.error e)) :
    Ordered role { s with taken := none, fault := some e } := by
  have hpending := pending_of_taken htaken
  have hwait : s.waiting = m :: s.list_ := by rw [waiting, hpending, hposting, List.append_nil]
  have hwait' : waiting { s with taken := none, fault := some e } = s.list_ := by
    rw [waiting, hposting, List.append_nil]
    rfl
  have hsub : s.list_ ⊆ s.waiting := hwait ▸ List.subset_cons_self m s.list_
  refine ⟨fun hmem => ?_, ?_, fun hstopped => ?_, fun hnone p hp => ?_, ?_⟩
  · rw [hposting, List.append_nil] at hmem
    refine h.init ?_
    rw [hpending, hposting, List.append_nil, List.tail_cons]
    exact List.mem_of_mem_tail hmem
  · rw [hwait']
    exact List.count_le_count_cons.trans (hwait ▸ h.one)
  · obtain ⟨hnot, hsel⟩ := h.running hstopped
    rw [hwait']
    exact ⟨fun hmem => hnot (hsub hmem), hsel⟩
  · rw [hwait'] at hp
    exact h.closed hnone p (hsub hp)
  · cases e with
    | listener => exact fun heq => by cases heq
    | selector =>
      obtain ⟨hnone, hbad⟩ := hcomes
      obtain ⟨hinit, hfini, hguard⟩ := h.closed hnone m (hwait ▸ List.mem_cons_self)
      obtain hm | hm | hm := hbad
      · exact absurd hm hinit
      · exact absurd hm hfini
      · exact absurd hm hguard

/-- What a handler has to post is in the queue then. -/
theorem Ordered.post (h : s.Ordered role) {rest : List SocketMsg} (hposting : s.posting = m :: rest) :
    Ordered role { s with posting := rest, list_ := s.list_ ++ [m] } := by
  have hwait : waiting { s with posting := rest, list_ := s.list_ ++ [m] } = s.waiting := by
    rw [waiting, waiting, pending, pending, hposting, List.append_assoc, List.append_assoc, List.append_assoc,
      List.singleton_append]
  refine ⟨fun hmem => h.init ?_, hwait ▸ h.one, fun hstopped => hwait ▸ h.running hstopped,
    fun hnone p hp => h.closed hnone p (hwait ▸ hp), h.fault⟩
  rw [List.mem_append] at hmem
  rw [hposting]
  obtain hmem | hmem := hmem
  · have hpush : pending { s with posting := rest, list_ := s.list_ ++ [m] } = s.pending ++ [m] := pending_push s m
    rw [hpush] at hmem
    have hmem := tail_append_subset _ _ hmem
    rw [List.mem_append, List.mem_singleton] at hmem
    rw [List.mem_append, List.mem_cons]
    tauto
  · exact List.mem_append_right _ (List.mem_cons_of_mem _ hmem)

/-- `stop` posts the one `FINI`. -/
theorem Ordered.stop (h : s.Ordered role) (hstopped : s.stopped = false) :
    Ordered role { s with stopped := true, list_ := s.list_ ++ [.FINI] } := by
  obtain ⟨hnot, hsel⟩ := h.running hstopped
  have hpush : pending { s with stopped := true, list_ := s.list_ ++ [.FINI] } = s.pending ++ [.FINI] :=
    pending_push s .FINI
  have hwait : waiting { s with stopped := true, list_ := s.list_ ++ [.FINI] } = s.pending ++ [.FINI] ++ s.posting := by
    rw [waiting, hpush]
  refine ⟨fun hmem => h.init ?_, ?_, (fun hrunning => by cases hrunning), fun hnone => ?_, h.fault⟩
  · rw [hpush, List.mem_append] at hmem
    rw [List.mem_append]
    refine hmem.imp (fun hmem => ?_) id
    obtain hmem | hmem := List.mem_append.mp (tail_append_subset _ _ hmem)
    · exact hmem
    · exact absurd (List.mem_singleton.mp hmem) fun heq => by cases heq
  · have hzero := List.count_eq_zero.mpr hnot
    rw [waiting, List.count_append] at hzero
    rw [hwait, List.count_append, List.count_append, List.count_singleton_self]
    omega
  · rw [hnone] at hsel
    cases hsel

/-- **Every step keeps the order**, where a reset leaves no such message behind. -/
theorem Ordered.step (h : s.Ordered role) (hstep : Step role s e s') (hleaves : LeavesNone role s e) :
    s'.Ordered role := by
  have foreign : ∀ {m : SocketMsg}, ¬ Unguarded role m → m ≠ .INIT → m ≠ .FINI →
      Ordered role { s with list_ := s.list_ ++ [m] } := fun hguard hinit hfini => h.push hinit hfini fun _ => hguard
  cases hstep with
  | @take m rest hf hposting htaken hlist =>
    have hpending := pending_take htaken hlist
    have hwait : waiting { s with list_ := rest, taken := some m } = s.waiting := by rw [waiting, waiting, hpending]
    exact ⟨hpending.symm ▸ h.init, hwait ▸ h.one, fun hstopped => hwait ▸ h.running hstopped,
      fun hnone => hwait ▸ h.closed hnone, h.fault⟩
  | join hf hposting htaken hsel => exact ⟨h.init, h.one, h.running, h.closed, h.fault⟩
  | @work s' m t hf hposting htaken hjoined hfresh hwork =>
    exact h.work hposting htaken (fun hm => hleaves t rfl (hm ▸ htaken)) (comes_of_eq hwork hfresh)
  | @fail m e t hf hposting htaken hfresh hwork => exact h.fail hposting htaken (comes_of_eq hwork hfresh)
  | post hf hposting => exact h.post hposting
  | select sock r hf hjoined hnew => exact h.selected (selected_onRead s sock r)
  | stop hf hstopped => exact h.stop hstopped
  | userLoop hf | timer hf =>
    refine foreign ?_ (fun heq => by cases heq) fun heq => by cases heq
    cases role
    · exact id
    · exact id

/-- **While the reset leaves none behind that needs it, nobody uses the selector after it.** -/
theorem outlives_of_run (role : Role) {es : List Event}
    (h : Run (restrict (Step role) (LeavesNone role)) start es s) : s.fault ≠ some .selector :=
  (h.invariant (I := Ordered role) (ordered_start role) fun _ _ _ hs hstep => hs.step hstep.1 hstep.2).fault

/-- A server leaves nothing behind `FINI` that would need a selector. -/
theorem server_outlives {es : List Event} (h : Run (Step .server) start es s) :
    s.fault ≠ some .selector :=
  outlives_of_run .server (h.mono fun _ _ _ hstep => ⟨hstep, fun _ _ _ _ _ hguard => hguard⟩)

/-! ## A client that is stopped as it starts -/

/-- **The connection attempt of `INIT` stands behind `FINI`.** -/
theorem stoppedAtStart_uses_selector :
    ¬ ∀ role es s, Run (Step role) start es s → s.fault ≠ some .selector := by
  intro h
  have hstop : Run (Step (.client true)) start [.stop] _ := Run.nil.snoc (.stop rfl rfl)
  have hinit := (hstop.snoc (.take rfl rfl rfl rfl)).snoc (.work (Turn.well 3) rfl rfl rfl nofun rfl rfl)
  have hfini := (hinit.snoc (.post rfl rfl)).snoc (.take rfl rfl rfl rfl)
  have hreset := (hfini.snoc (.join rfl rfl rfl rfl)).snoc (.work (Turn.well 3) rfl rfl rfl (fun _ => rfl) rfl rfl)
  have hbegin := (hreset.snoc (.take rfl rfl rfl rfl)).snoc (.fail (Turn.well 3) rfl rfl rfl rfl rfl)
  exact h _ _ _ hbegin rfl

/-- A client that is stopped as it is connected reads a packet, and starts its user, behind `FINI`. -/
theorem stoppedConnected_outlives : ∃ es s, Run (restrict (Step (.client false)) (LeavesNone (.client false)))
    start es s ∧ s.selector_.isNone ∧ s.list_ = [.USER_START, .SOCK_READ ⟨3, 0⟩] ∧ s.fault ≠ some .selector := by
  have hinit : Run (restrict (Step (.client false)) (LeavesNone (.client false))) start [.take] _ :=
    Run.nil.snoc ⟨.take rfl rfl rfl rfl, nofun⟩
  have hinit := hinit.snoc ⟨.work (Turn.well 3) rfl rfl rfl nofun rfl rfl, nofun⟩
  have hbegin := (hinit.snoc ⟨.post rfl rfl, nofun⟩).snoc ⟨.take rfl rfl rfl rfl, nofun⟩
  have hend := hbegin.snoc ⟨.work (Turn.well 3) rfl rfl rfl nofun rfl rfl, nofun⟩
  have hend := (hend.snoc ⟨.post rfl rfl, nofun⟩).snoc ⟨.take rfl rfl rfl rfl, nofun⟩
  have hstop := hend.snoc ⟨.stop rfl rfl, nofun⟩
  have hconnected := hstop.snoc ⟨.work (Turn.well 4) rfl rfl rfl nofun rfl rfl, nofun⟩
  have hfini := (hconnected.snoc ⟨.post rfl rfl, nofun⟩).snoc ⟨.take rfl rfl rfl rfl, nofun⟩
  have hpacket := hfini.snoc ⟨.select 3 .packet rfl rfl nofun, nofun⟩
  have hjoined := hpacket.snoc ⟨.join rfl rfl rfl rfl, nofun⟩
  have hreset := hjoined.snoc ⟨.work (Turn.well 4) rfl rfl rfl (fun _ => rfl) rfl rfl, fun t _ _ m hm hguard => by
    cases hm with
    | head => exact hguard
    | tail _ hm =>
      obtain rfl := List.mem_singleton.mp hm
      exact hguard⟩
  exact ⟨_, _, hreset, rfl, rfl, outlives_of_run _ hreset⟩

end SocketLoop

end EuhatExpert
