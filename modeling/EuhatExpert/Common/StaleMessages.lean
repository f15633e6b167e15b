import EuhatExpert.Common.SocketLoop

/-!
# Common/StaleMessages — messages behind a disconnect

`onSockRead` and `send` use what `getListener` returns without a look at it.  A socket's listener goes with
the first `SOCK_DISCONNECT` that is handled, and stays in `socks_` until then: a packet that is completed
while one waits, or is taken and has yet to be handled, is read behind it.  `harmless_of_run`: messages that
stand ahead of every disconnect of their socket find its listener.
-/

namespace EuhatExpert

open Machinery

namespace SocketLoop

variable {role : Role} {s s' : SocketLoop} {e : Event} {m : SocketMsg} {h g : Handle}

/-- The socket whose listener a message is about to use, or to make `sock_`. -/
def needs : SocketMsg → Option Handle
  | .SOCK_READ h => some h
  | .SOCK_CONNECT_END h => h
  | _ => none

/-- A disconnect of the socket a later message needs. -/
def Cuts (m m' : SocketMsg) : Prop :=
  ∃ g h, m = .SOCK_DISCONNECT g ∧ needs m' = some h ∧ g.sock = h.sock

/-- What still needs a listener has one, and no disconnect ahead. -/
structure Intact (s : SocketLoop) : Prop where
  listed : s.pending.Pairwise fun m m' => ¬ Cuts m m'
  needed : ∀ m ∈ s.waiting, ∀ h, needs m = some h → (s.find h.sock).isSome
  sock : ∀ h, s.sock_ = some h → (s.find h.sock).isSome

/-- A message that needs a listener finds one or is dropped, and no null listener was used. -/
structure Harmless (s : SocketLoop) : Prop where
  fault : s.fault ≠ some .listener
  found : ∀ h rest, s.pending = .SOCK_READ h :: rest → s.selector_.isSome → (s.find h.sock).isSome

/-- No packet is completed on a socket that a disconnect is of which waits or is taken, and the message a
handler posts — the end of a connection attempt — needs no such socket. -/
structure NoneAhead (s : SocketLoop) (e : Event) : Prop where
  packet : ∀ sock, e = .select sock .packet → ∀ g, .SOCK_DISCONNECT g ∈ s.pending → g.sock ≠ sock
  ended : ∀ m rest h, e = .post → s.posting = m :: rest → needs m = some h →
    ∀ g, .SOCK_DISCONNECT g ∈ s.pending → g.sock ≠ h.sock

/-- The invariant; a server has no `sock_`. -/
structure Sound (role : Role) (s : SocketLoop) : Prop where
  fault : s.fault ≠ some .listener
  intact : s.selector_.isSome → Intact s
  server : role = .server → s.sock_ = none

/-! ## What a turn leaves -/

/-- Only a disconnect of its socket takes a listener away. -/
theorem Worked.find {n : ℕ} (hwork : Worked s role m s') (hsel : s'.selector_.isSome)
    (hfind : (s.find n).isSome) (hne : ∀ g, m = .SOCK_DISCONNECT g → n ≠ g.sock) : (s'.find n).isSome := by
  cases hwork with
  | talked _ => exact hfind
  | fini _ => cases hsel
  | initServer _ => exact hfind
  | listening _ _ => exact isSome_find_add hfind _ _
  | notListening _ _ => exact hfind
  | accepted _ => exact isSome_find_add hfind _ _
  | @disconnected g =>
    rw [find_del_of_ne (hne g rfl)]
    exact hfind
  | initClient _ => exact hfind
  | connected _ _ => exact isSome_find_add hfind _ _
  | refused _ _ => exact hfind
  | notSet _ _ => exact hfind
  | retry _ => exact hfind
  | ended => exact hfind
  | @left _ g _ =>
    have hdel : (s.del g.sock).find n = s.find n := find_del_of_ne (hne g rfl)
    exact hdel ▸ hfind

theorem Said.needs {hs : List Handle} (hm : Said s hs m) : needs m = none := by
  cases hm
  all_goals rfl

/-- A handler posts no message that needs a listener and has none. -/
theorem Worked.needs (hwork : Worked s role m s') (hposting : s.posting = []) :
    ∀ p ∈ s'.posting, ∀ h, needs p = some h → (s'.find h.sock).isSome := by
  have nothing : ∀ p ∈ s.posting, ∀ h, SocketLoop.needs p = some h → (s'.find h.sock).isSome := by
    rw [hposting]
    exact nofun
  have single : ∀ {q : SocketMsg}, SocketLoop.needs q = none →
      ∀ p ∈ s.posting ++ [q], ∀ h, SocketLoop.needs p = some h → (s'.find h.sock).isSome := by
    intro q hq p hp h hneeds
    rw [hposting, List.nil_append, List.mem_singleton] at hp
    rw [hp, hq] at hneeds
    cases hneeds
  cases hwork with
  | talked hps =>
    intro p hp h hneeds
    rw [posts, hposting, List.nil_append] at hp
    rw [(hps p hp).needs] at hneeds
    cases hneeds
  | fini _ => exact nothing
  | initServer _ => exact single rfl
  | listening _ _ => exact nothing
  | notListening _ _ => exact single rfl
  | accepted _ => exact nothing
  | disconnected =>
    rw [posting_del]
    exact nothing
  | initClient _ => exact single rfl
  | @connected _ n hsel _ =>
    intro p hp h hneeds
    have hp : p ∈ s.posting ++ [.SOCK_CONNECT_END (some ⟨n, s.conns⟩)] := hp
    rw [hposting, List.nil_append, List.mem_singleton] at hp
    subst hp
    obtain rfl := Option.some.inj hneeds
    have hself : (((s.socket n).add ⟨n, s.conns⟩ .JyTcpSelectRecv).find n) = some ⟨.JyTcpSelectRecv, s.conns⟩ :=
      find_add_self (s := s.socket n) hsel ⟨n, s.conns⟩ _
    exact Option.isSome_of_eq_some hself
  | refused _ _ => exact single rfl
  | notSet _ _ => exact nothing
  | retry _ => exact single rfl
  | ended => exact single (by split_ifs <;> rfl)
  | @left _ g _ =>
    have hdel : ({ s.del g.sock with sock_ := none } : SocketLoop).posting = s.posting :=
      posting_del s g.sock
    rw [hdel]
    exact nothing

/-- `sock_` is what it was, with its listener, or what a connection attempt ended with. -/
theorem Worked.sock (hwork : Worked s role m s') (hserver : role = .server → s.sock_ = none)
    (hsock : s'.sock_ = some h) :
    SocketLoop.needs m = some h ∨ (s.sock_ = some h ∧ ∀ g, m = .SOCK_DISCONNECT g → s'.find = s.find) := by
  cases hwork with
  | talked _ => exact .inr ⟨hsock, fun _ _ => rfl⟩
  | disconnected =>
    rw [sock_del, hserver rfl] at hsock
    cases hsock
  | ended =>
    obtain rfl := Option.some.inj hsock
    exact .inl rfl
  | left _ => cases hsock
  | _ => exact .inr ⟨hsock, nofun⟩

theorem Worked.sock_server (hwork : Worked s .server m s') (hsock : s.sock_ = none) : s'.sock_ = none := by
  cases hwork with
  | disconnected => rw [sock_del, hsock]
  | _ => exact hsock

/-! ## Steps -/

/-- A message posted at the end of the queue, with no disconnect of what it needs ahead of it. -/
theorem Intact.push (hs : s.Intact) (hneeds : ∀ h, needs m = some h → (s.find h.sock).isSome)
    (hahead : ∀ h, needs m = some h → ∀ g, .SOCK_DISCONNECT g ∈ s.pending → g.sock ≠ h.sock) :
    Intact { s with list_ := s.list_ ++ [m] } := by
  refine ⟨?_, fun p hp h hp' => ?_, hs.sock⟩
  · rw [pending_push]
    refine List.pairwise_append.mpr ⟨hs.listed, List.pairwise_singleton _ _, ?_⟩
    rintro p hp q hq ⟨g, h, rfl, hq', hsock⟩
    rw [List.mem_singleton] at hq
    exact hahead h (hq ▸ hq') g hp hsock
  · rw [waiting, pending_push, List.append_assoc, List.mem_append, List.singleton_append, List.mem_cons] at hp
    obtain hp | rfl | hp := hp
    · exact hs.needed p (List.mem_append_left _ hp) h hp'
    · exact hneeds h hp'
    · exact hs.needed p (List.mem_append_right _ hp) h hp'

theorem Intact.pushOther (hs : s.Intact) (hm : needs m = none) :
    Intact { s with list_ := s.list_ ++ [m] } := by
  refine hs.push (fun h hneeds => ?_) fun h hneeds => ?_
  · rw [hm] at hneeds
    cases hneeds
  · rw [hm] at hneeds
    cases hneeds

/-- **A turn takes no listener away that is still needed.** -/
theorem Intact.work (hs : s.Intact) (hserver : role = .server → s.sock_ = none) (hposting : s.posting = [])
    (htaken : s.taken = some m) (hwork : Worked { s with taken := none } role m s') (hsel : s'.selector_.isSome) :
    s'.Intact := by
  obtain ⟨hlisted, hneeded, hsock⟩ := hs
  rw [pending_of_taken htaken] at hlisted
  rw [waiting, pending_of_taken htaken, hposting, List.append_nil] at hneeded
  obtain ⟨hahead, hlisted⟩ := List.pairwise_cons.mp hlisted
  refine ⟨hwork.pending.symm ▸ hlisted, fun p hp h hp' => ?_, fun h hsock' => ?_⟩
  · rw [waiting, hwork.pending, List.mem_append] at hp
    obtain hp | hp := hp
    · refine hwork.find hsel (hneeded p (List.mem_cons_of_mem _ hp) h hp') ?_
      rintro g rfl hsame
      exact hahead p hp ⟨g, h, rfl, hp', hsame.symm⟩
    · exact hwork.needs hposting p hp h hp'
  · obtain hm | ⟨hsock', hfind⟩ := hwork.sock hserver hsock'
    · refine hwork.find hsel (hneeded m List.mem_cons_self h hm) ?_
      rintro g rfl
      cases hm
    · by_cases hdisconnect : ∃ g, m = .SOCK_DISCONNECT g
      · obtain ⟨g, hg⟩ := hdisconnect
        rw [hfind g hg]
        exact hsock h hsock'
      · exact hwork.find hsel (hsock h hsock') fun g hg => absurd ⟨g, hg⟩ hdisconnect

theorem sound_start (role : Role) : Sound role start where
  fault := nofun
  intact := fun _ => by
    refine ⟨List.pairwise_singleton _ _, fun m hm h hneeds => ?_, nofun⟩
    obtain rfl := List.mem_singleton.mp hm
    cases hneeds
  server := fun _ => rfl

/-- Whoever is talked to has a listener. -/
theorem Intact.heard (hs : s.Intact) (htaken : s.taken = some m) :
    ∀ h ∈ SocketLoop.heard { s with taken := none } role m, (s.find h.sock).isSome := by
  have hsock : ∀ h ∈ s.sock_.toList, (s.find h.sock).isSome := fun h hh =>
    hs.sock h (Option.mem_toList.mp hh)
  have hread : ∀ h, m = .SOCK_READ h → (s.find h.sock).isSome := by
    rintro h rfl
    refine hs.needed (.SOCK_READ h) ?_ h rfl
    rw [waiting, pending_of_taken htaken]
    exact List.mem_cons_self
  intro h hh
  cases role with
  | server =>
    cases m with
    | SOCK_READ g => exact List.mem_singleton.mp hh ▸ hread g rfl
    | _ => cases hh
  | client isSecure_ =>
    cases m with
    | SOCK_READ g =>
      obtain rfl | hh := List.mem_cons.mp hh
      · exact hread h rfl
      · exact hsock h hh
    | SOCK_EXCHANGE_ASYM_SECURITY => exact hsock h hh
    | SOCK_EXCHANGE_SYM_SECURITY => exact hsock h hh
    | USER_START => exact hsock h hh
    | USER_LOOP => exact hsock h hh
    | TIMER => exact hsock h hh
    | _ => cases hh

/-- Taking a message up changes nothing of what waits. -/
theorem Intact.take (hs : s.Intact) {rest : List SocketMsg} (htaken : s.taken = none) (hlist : s.list_ = m :: rest) :
    Intact { s with list_ := rest, taken := some m } := by
  obtain ⟨hlisted, hneeded, hsock⟩ := hs
  have hpending := pending_take htaken hlist
  refine ⟨hpending.symm ▸ hlisted, fun p hp => hneeded p ?_, hsock⟩
  rw [waiting, hpending] at hp
  exact hp

/-- What a handler has to post is in the queue then, and nothing there ends what it needs. -/
theorem Intact.post (hs : s.Intact) {rest : List SocketMsg} (hposting : s.posting = m :: rest)
    (hended : ∀ h, needs m = some h → ∀ g, .SOCK_DISCONNECT g ∈ s.pending → g.sock ≠ h.sock) :
    Intact { s with posting := rest, list_ := s.list_ ++ [m] } := by
  obtain ⟨hlisted, hneeded, hsock⟩ := hs
  rw [waiting, hposting] at hneeded
  have hkept : Intact { s with posting := rest } := by
    refine ⟨hlisted, fun p hp h hp' => hneeded p ?_ h hp', hsock⟩
    rw [waiting, List.mem_append] at hp
    rw [List.mem_append]
    exact hp.imp id (List.mem_cons_of_mem _)
  exact hkept.push (hneeded m (List.mem_append_right _ List.mem_cons_self)) hended

/-- What the selector's thread posts needs a listener that is there. -/
theorem Sound.selected (hs : s.Sound role) {sock : ℕ} {r : Received} (hr : Selected s sock r s')
    (hahead : r = .packet → ∀ g, .SOCK_DISCONNECT g ∈ s.pending → g.sock ≠ sock) : s'.Sound role := by
  cases hr with
  | nothing => exact hs
  | @connection l n hfind =>
    refine ⟨hs.fault, fun hsel => ?_, hs.server⟩
    obtain ⟨hlisted, hneeded, hsock⟩ := (hs.intact hsel).pushOther (m := .SOCK_ACCEPT ⟨n, s.conns⟩) rfl
    exact ⟨hlisted, hneeded, hsock⟩
  | packet hfind =>
    refine ⟨hs.fault, fun hsel => (hs.intact hsel).push (fun h hneeds => ?_) fun h hneeds => ?_, hs.server⟩
    · obtain rfl := Option.some.inj hneeds
      exact Option.isSome_of_eq_some hfind
    · obtain rfl := Option.some.inj hneeds
      exact hahead rfl
  | broken hfind => exact ⟨hs.fault, fun hsel => (hs.intact hsel).pushOther rfl, hs.server⟩

/-- **Every step keeps the state sound**, where what it posts is not ended by what waits before it. -/
theorem Sound.step (hs : s.Sound role) (hstep : Step role s e s') (hahead : NoneAhead s e) :
    s'.Sound role := by
  cases hstep with
  | take hf hposting htaken hlist =>
    exact ⟨hs.fault, fun hsel => (hs.intact hsel).take htaken hlist, hs.server⟩
  | join hf hposting htaken hsel =>
    refine ⟨hs.fault, fun hsel => ?_, hs.server⟩
    obtain ⟨hlisted, hneeded, hsock⟩ := hs.intact hsel
    exact ⟨hlisted, hneeded, hsock⟩
  | @work s' m t hf hposting htaken hjoined hfresh hwork =>
    have hworked : Worked { s with taken := none } role m s' := comes_of_eq hwork hfresh
    obtain ⟨-, -, -, hfault⟩ := hworked.keeps
    refine ⟨hfault ▸ hs.fault, fun hsel => ?_, ?_⟩
    · have hsome : s.selector_.isSome := by
        cases hnone : s.selector_ with
        | some socks_ => rfl
        | none =>
          rw [hworked.closed hnone] at hsel
          cases hsel
      exact (hs.intact hsome).work hs.server hposting htaken hworked hsel
    · rintro rfl
      exact hworked.sock_server (hs.server rfl)
  | @fail m e t hf hposting htaken hfresh hwork =>
    have hcomes := comes_of_eq hwork hfresh
    cases e with
    | selector =>
      refine ⟨nofun, fun hsel => ?_, hs.server⟩
      have hnone : s.selector_ = none := hcomes.1
      rw [hnone] at hsel
      cases hsel
    | listener =>
      obtain ⟨hsel, h, hh, hnone⟩ := hcomes
      have hfind := (hs.intact hsel).heard htaken h hh
      have hnone : s.find h.sock = none := hnone
      rw [hnone] at hfind
      cases hfind
  | @post m rest hf hposting =>
    refine ⟨hs.fault, fun hsel => (hs.intact hsel).post hposting fun h hneeds => ?_, hs.server⟩
    exact hahead.ended m rest h rfl hposting hneeds
  | select sock r hf hjoined hnew => exact hs.selected (selected_onRead s sock r) fun hr => hahead.packet sock (hr ▸ rfl)
  | stop hf hstopped =>
    refine ⟨hs.fault, fun hsel => ?_, hs.server⟩
    obtain ⟨hlisted, hneeded, hsock⟩ := (hs.intact hsel).pushOther (m := .FINI) rfl
    exact ⟨hlisted, hneeded, hsock⟩
  | userLoop hf => exact ⟨hs.fault, fun hsel => (hs.intact hsel).pushOther rfl, hs.server⟩
  | timer hf => exact ⟨hs.fault, fun hsel => (hs.intact hsel).pushOther rfl, hs.server⟩

theorem Sound.harmless (hs : s.Sound role) : s.Harmless where
  fault := hs.fault
  found := fun h rest hpending hsel => by
    refine (hs.intact hsel).needed (.SOCK_READ h) ?_ h rfl
    rw [waiting, hpending]
    exact List.mem_cons_self

/-- **While nothing is posted behind a disconnect of what it needs, stale messages are harmless.** -/
theorem harmless_of_run (role : Role) {es : List Event}
    (h : Run (restrict (Step role) NoneAhead) start es s) : s.Harmless :=
  (h.invariant (I := Sound role) (sound_start role) fun _ _ _ hs hstep => hs.step hstep.1 hstep.2).harmless

/-! ## A packet behind one that is broken -/

/-- **The server reads a packet of a socket it has just closed**, though the packet was completed when no
disconnect was left in its queue. -/
theorem packetBehindBroken_not_harmless :
    ¬ ∀ role es s, Run (Step role) start es s → s.Harmless := by
  intro h
  have hinit : Run (Step .server) start [.take] _ := Run.nil.snoc (.take rfl rfl rfl rfl)
  have hpost := hinit.snoc (.work (Turn.well 3) rfl rfl rfl nofun rfl rfl)
  have hlisten := (hpost.snoc (.post rfl rfl)).snoc (.take rfl rfl rfl rfl)
  have hlistening := hlisten.snoc (.work (Turn.well 3) rfl rfl rfl nofun rfl rfl)
  have hconnection := hlistening.snoc (.select 3 (.connection 4) rfl rfl (by rintro n ⟨⟩; rfl))
  have haccept := (hconnection.snoc (.take rfl rfl rfl rfl)).snoc (.work (Turn.well 5) rfl rfl rfl nofun rfl rfl)
  have hbroken := (haccept.snoc (.select 4 .broken rfl rfl nofun)).snoc (.take rfl rfl rfl rfl)
  have hpacket := hbroken.snoc (.select 4 .packet rfl rfl nofun)
  have hdisconnect := hpacket.snoc (.work (Turn.well 5) rfl rfl rfl nofun rfl rfl)
  have hread := (hdisconnect.snoc (.take rfl rfl rfl rfl)).snoc (.fail (Turn.well 5) rfl rfl rfl rfl rfl)
  exact (h _ _ _ hread).fault rfl

/-- A server that reads a packet, and has the disconnect of its socket behind it. -/
theorem packetAheadOfBroken_harmless : ∃ es s, Run (restrict (Step .server) NoneAhead) start es s ∧
    s.taken = some (.SOCK_READ ⟨4, 1⟩) ∧ s.list_ = [.SOCK_DISCONNECT ⟨4, 1⟩] ∧ s.Harmless := by
  have hnone : ∀ {s : SocketLoop} {t : Turn}, NoneAhead s (.work t) := ⟨nofun, nofun⟩
  have htake : ∀ {s : SocketLoop}, NoneAhead s .take := ⟨nofun, nofun⟩
  have hempty : ∀ {s : SocketLoop} {sock : ℕ} {r : Received}, s.pending = [] → NoneAhead s (.select sock r) := by
    intro s sock r hlist
    refine ⟨fun _ _ g hmem => ?_, nofun⟩
    rw [hlist] at hmem
    cases hmem
  have hinit : Run (restrict (Step .server) NoneAhead) start [.take] _ :=
    Run.nil.snoc ⟨.take rfl rfl rfl rfl, htake⟩
  have hinit := hinit.snoc ⟨.work (Turn.well 3) rfl rfl rfl nofun rfl rfl, hnone⟩
  have hpost := hinit.snoc ⟨.post rfl rfl, nofun, fun _ _ _ _ hposting hneeds => by
    cases hposting
    cases hneeds⟩
  have hlisten := hpost.snoc ⟨.take rfl rfl rfl rfl, htake⟩
  have hlisten := hlisten.snoc ⟨.work (Turn.well 3) rfl rfl rfl nofun rfl rfl, hnone⟩
  have hconnection := hlisten.snoc ⟨.select 3 (.connection 4) rfl rfl (by rintro n ⟨⟩; rfl), nofun, nofun⟩
  have haccept := hconnection.snoc ⟨.take rfl rfl rfl rfl, htake⟩
  have haccept := haccept.snoc ⟨.work (Turn.well 5) rfl rfl rfl nofun rfl rfl, hnone⟩
  have hpacket := haccept.snoc ⟨.select 4 .packet rfl rfl nofun, hempty rfl⟩
  have hread := hpacket.snoc ⟨.take rfl rfl rfl rfl, htake⟩
  have hbroken := hread.snoc ⟨.select 4 .broken rfl rfl nofun, nofun, nofun⟩
  exact ⟨_, _, hbroken, rfl, rfl, harmless_of_run .server hbroken⟩

end SocketLoop

end EuhatExpert
