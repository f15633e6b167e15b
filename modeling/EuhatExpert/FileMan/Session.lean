import EuhatExpert.FileMan.FileManClient
import EuhatExpert.Machinery.Exchange

/-!
# FileMan/Session — a client, a server, and connections that break

A session is the client and its scheduler, the two systems, and what is on the line.  A connection may
break at any time: answers on it are lost, and a request on it is a stray, which the server still serves
before the client's next request or not at all.  A new client takes over the scheduler as it stands.

Every run of a session is a run of an `Exchange` (`shows_of_run`): `canSend_` keeps requests from
overtaking each other.
-/

namespace EuhatExpert

open Machinery TraceM

/-- What a session runs on, and what others do to the two systems. -/
structure Setting (L W : Type) where
  local_ : Os L
  remote : Os W
  baseDir_ : Bytes
  dispatchSubList : FmTask → Bytes → FmScheduler → FmScheduler
  onLocal : Drift L
  onRemote : Drift W

/-- The socket of a client: not there yet, there before or after `JY_MSG_TYPE_USER_START`, or lost. -/
inductive Link
  | connecting
  | up (started : Bool)
  | down

structure Session (L W : Type) where
  client : FileManClient
  link : Link
  disk : L
  server : W
  requests : List FmReq
  acks : List FmAck
  strays : List FmReq

namespace Session

variable {L W : Type}

/-- A new client, before it connects. -/
def start (scheduler : FmScheduler) (disk : L) (server : W) : Session L W :=
  ⟨.fresh scheduler, .connecting, disk, server, [], [], []⟩

inductive Event
  | connect
  | userStart
  | notifyEngine
  | userLoop
  | serve (r : FmReq) (a : FmAck)
  | serveStray (r : FmReq) (a : FmAck)
  | read
  | disconnect
  | reset
  | others

/-- The line without its connection. -/
def broken (s : Session L W) : Session L W :=
  { s with requests := [], acks := [], strays := s.strays ++ s.requests }

variable (S : Setting L W)

inductive Step : Session L W → Event → Session L W → Prop
  | connect {s} : s.link = .connecting → Step s .connect { s with link := .up false }
  | userStart {s} : s.link = .up false →
      Step s .userStart { s with client := s.client.onUserStart, link := .up true }
  | notifyEngine {s} : Step s .notifyEngine { s with client := s.client.postUserLoop }
  | userLoop {s n b c r l} : s.client.userLoops = n + 1 → s.link = .up b →
      exec (FileManClient.onUserLoop S.local_ { s.client with userLoops := n }) s.disk
        = some ((c, r), l) →
      Step s .userLoop { s with
        client := c
        disk := l
        requests := s.requests ++ r.toList
        strays := if r.isSome then [] else s.strays }
  | cannotSend {s n} : s.client.userLoops = n + 1 → (∀ b, s.link ≠ .up b) →
      Step s .userLoop { s with client := { s.client with userLoops := n } }
  | serve {s r rest a w} : s.requests = r :: rest →
      exec (FileManServer.echo S.remote S.baseDir_ r) s.server = some (a, w) →
      Step s (.serve r a) { s with server := w, requests := rest, acks := s.acks ++ [a] }
  | serveStray {s r rest a w} : s.strays = r :: rest →
      exec (FileManServer.echo S.remote S.baseDir_ r) s.server = some (a, w) →
      Step s (.serveStray r a) { s with server := w, strays := rest }
  | read {s a rest b c l} : s.acks = a :: rest → s.link = .up b →
      exec (FileManClient.onRead S.local_ S.dispatchSubList a s.client) s.disk = some (c, l) →
      Step s .read { s with client := c, disk := l, acks := rest }
  | disconnect {s b} : s.link = .up b → Step s .disconnect { s.broken with link := .down }
  | reset {s} : Step s .reset { s.broken with
      client := .fresh s.client.scheduler_
      link := .connecting }
  | others {s l w} : S.onLocal.Rel s.disk l → S.onRemote.Rel s.server w →
      Step s .others { s with disk := l, server := w }

/-! ## The exchange of a session -/

/-- The scheduler and the disk on one side, the server on the other. -/
def exchange : Exchange (FmScheduler × L) W FmReq FmAck where
  send c := (exec (FileManClient.reqFirst S.local_ c.1) c.2).map fun x => ((x.1.1, x.2), x.1.2)
  serve r w := exec (FileManServer.echo S.remote S.baseDir_ r) w
  receive a c := exec (FileManClient.ack S.local_ S.dispatchSubList a c.1) c.2
  onClient := S.onLocal.second FmScheduler
  onServer := S.onRemote

open Exchange in
/-- The queues of a session, as the wire of an exchange. -/
inductive OnWire : List FmReq → List FmAck → List FmReq → Wire FmReq FmAck → Prop
  | idle : OnWire [] [] [] .idle
  | asked (r : FmReq) : OnWire [r] [] [] (.asked r)
  | answered (a : FmAck) : OnWire [] [a] [] (.answered a)
  | stray (r : FmReq) : OnWire [] [] [r] (.stray r)

theorem OnWire.cut {requests : List FmReq} {acks : List FmAck} {strays : List FmReq}
    {w : Exchange.Wire FmReq FmAck} (h : OnWire requests acks strays w) :
    OnWire [] [] (strays ++ requests) w.cut := by
  cases h with
  | idle => exact .idle
  | asked r => exact .stray r
  | answered a => exact .idle
  | stray r => exact .stray r

theorem free_cut (w : Exchange.Wire FmReq FmAck) : w.cut.Free := by
  cases w
  all_goals exact trivial

/-- An event, and what it is to the exchange. -/
def Views : Event → Exchange.Event FmReq FmAck → Prop
  | .userLoop, e => e = .send ∨ e = .drift
  | .serve r a, e | .serveStray r a, e => e = .serve r a
  | .read, e => e = .receive
  | .disconnect, e | .reset, e => e = .cut
  | .connect, e | .userStart, e | .notifyEngine, e | .others, e => e = .drift

/-- What happens in a session, happens in its exchange. -/
theorem exists_views {es : List Event} {es' : List (Exchange.Event FmReq FmAck)} {e : Event}
    (h : List.Forall₂ Views es es') (he : e ∈ es) : ∃ e' ∈ es', Views e e' := by
  induction h with
  | nil => cases he
  | @cons e₁ e₁' es es' hview _ ih =>
    obtain rfl | he := List.mem_cons.mp he
    · exact ⟨e₁', List.mem_cons_self, hview⟩
    · obtain ⟨e', he', hview'⟩ := ih he
      exact ⟨e', List.mem_cons_of_mem _ he', hview'⟩

/-- The session shows the exchange in this state.  Nothing is under way where the client may send, nor
where it has not started or lost its socket. -/
structure Shows (s : Session L W) (x : Exchange.State (FmScheduler × L) W FmReq FmAck) : Prop where
  client : x.client = (s.client.scheduler_, s.disk)
  server : x.server = s.server
  wire : OnWire s.requests s.acks s.strays x.wire
  free : s.client.canSend_ = true → x.wire.Free
  quiet : s.link ≠ .up true → x.wire.Free
  held : s.link = .connecting ∨ s.link = .up false → s.client.canSend_ = false

theorem shows_start (scheduler : FmScheduler) (disk : L) (server : W) :
    Shows (start scheduler disk server) ⟨(scheduler, disk), server, .idle⟩ :=
  ⟨rfl, rfl, .idle, fun _ => trivial, fun _ => trivial, fun _ => rfl⟩

/-- What a loop does: nothing without leave to send, and else what `reqFirst` does. -/
theorem onUserLoop_cases {os : Os L} {c c' : FileManClient} {r : Option FmReq} {l l' : L}
    (h : exec (FileManClient.onUserLoop os c) l = some ((c', r), l')) :
    (c.canSend_ = false ∧ c' = c ∧ r = none ∧ l' = l) ∨
      (c.canSend_ = true ∧ exec (FileManClient.reqFirst os c.scheduler_) l = some ((c'.scheduler_, r), l')
        ∧ (c'.canSend_ = true → r = none)) := by
  rw [FileManClient.onUserLoop] at h
  split_ifs at h with hsend
  · rw [exec_bind_pure, Option.map_eq_some_iff] at h
    obtain ⟨⟨⟨s, r'⟩, l''⟩, hreq, h⟩ := h
    cases h
    refine .inr ⟨hsend, hreq, fun hnone => ?_⟩
    rw [FileManClient.reqFirst, Option.isNone_iff_eq_none.mp hnone] at hreq
    cases hreq
    rfl
  · cases h
    exact .inl ⟨Bool.eq_false_iff.mpr hsend, rfl, rfl, rfl⟩

variable {S} {s s' : Session L W} {x : Exchange.State (FmScheduler × L) W FmReq FmAck} {e : Event}

/-- **One step of a session is one step of its exchange.** -/
theorem Shows.step (h : Shows s x) (hs : Step S s e s') :
    ∃ e' x', (exchange S).Step x e' x' ∧ Views e e' ∧ Shows s' x' := by
  obtain ⟨cl, sv, wire⟩ := x
  obtain ⟨client, link, disk, server, requests, acks, strays⟩ := s
  obtain ⟨hclient, hserver, hwire, hfree, hquiet, hheld⟩ := h
  dsimp only at hclient hserver hwire hfree hquiet hheld
  subst hclient hserver
  have still : (exchange S).Step ⟨(client.scheduler_, disk), sv, wire⟩ .drift
      ⟨(client.scheduler_, disk), sv, wire⟩ :=
    .drift ((exchange S).onClient.refl _) ((exchange S).onServer.refl _)
  cases hs with
  | connect hlink =>
    obtain rfl : link = .connecting := hlink
    have hw : wire.Free := hquiet nofun
    exact ⟨_, _, still, rfl, rfl, rfl, hwire, hfree, fun _ => hw, fun _ => hheld (.inl rfl)⟩
  | userStart hlink =>
    obtain rfl : link = .up false := hlink
    have hw : wire.Free := hquiet nofun
    exact ⟨_, _, still, rfl, rfl, rfl, hwire, fun _ => hw, fun _ => hw, nofun⟩
  | notifyEngine => exact ⟨_, _, still, rfl, rfl, rfl, hwire, hfree, hquiet, hheld⟩
  | @userLoop n b c r l hn hlink hexec =>
    obtain rfl : link = .up b := hlink
    obtain ⟨hoff, rfl, rfl, rfl⟩ | ⟨hon, hreq, hc⟩ := onUserLoop_cases hexec
    · refine ⟨_, _, still, .inr rfl, rfl, rfl, ?_, hfree, hquiet, hheld⟩
      rw [Option.toList_none, List.append_nil]
      exact hwire
    · have hw : wire.Free := hfree hon
      have hb : b = true := by
        by_contra hb
        rw [Bool.eq_false_iff.mpr hb] at hheld
        cases (hheld (.inr rfl)).symm.trans hon
      subst hb
      have hsend : (exchange S).send (client.scheduler_, disk) = some ((c.scheduler_, l), r) := by
        rw [exchange]
        dsimp only at hreq ⊢
        rw [hreq]
        rfl
      cases r with
      | none =>
        refine ⟨_, _, .still hw hsend, .inl rfl, rfl, rfl, ?_, fun _ => hw, fun _ => hw, nofun⟩
        rw [Option.toList_none, List.append_nil]
        exact hwire
      | some r =>
        refine ⟨_, _, .send hw hsend, .inl rfl, rfl, rfl, ?_, fun h => ?_, fun h => (h rfl).elim, nofun⟩
        · cases hwire with
          | idle => exact .asked r
          | stray r' => exact .asked r
          | asked r' => exact hw.elim
          | answered a => exact hw.elim
        · cases hc h
  | cannotSend hn hlink => exact ⟨_, _, still, .inr rfl, rfl, rfl, hwire, hfree, hquiet, hheld⟩
  | @serve r rest a w hreq hexec =>
    obtain rfl : requests = r :: rest := hreq
    cases hwire with
    | asked => exact ⟨_, _, .serve hexec, rfl, rfl, rfl, .answered a, hfree, hquiet, hheld⟩
  | @serveStray r rest a w hstray hexec =>
    obtain rfl : strays = r :: rest := hstray
    cases hwire with
    | stray => exact ⟨_, _, .late hexec, rfl, rfl, rfl, .idle, fun _ => trivial, fun _ => trivial, hheld⟩
  | @read a rest b c l hack hlink hexec =>
    obtain rfl : acks = a :: rest := hack
    obtain rfl : link = .up b := hlink
    cases hwire with
    | answered =>
      rw [FileManClient.onRead, exec_bind_pure, Option.map_eq_some_iff] at hexec
      obtain ⟨⟨scheduler, l'⟩, hreceive, hexec⟩ := hexec
      cases hexec
      have hb : b = true := by
        by_contra hb
        exact hquiet fun h => hb (Link.up.inj h)
      subst hb
      exact ⟨_, _, .receive hreceive, rfl, rfl, rfl, .idle, fun _ => trivial, fun _ => trivial, nofun⟩
  | disconnect hlink =>
    exact ⟨_, _, .cut, rfl, rfl, rfl, hwire.cut, fun _ => free_cut _, fun _ => free_cut _, nofun⟩
  | reset =>
    exact ⟨_, _, .cut, rfl, rfl, rfl, hwire.cut, fun _ => free_cut _, fun _ => free_cut _, fun _ => rfl⟩
  | @others l w hl hw =>
    exact ⟨.drift, ⟨(client.scheduler_, l), w, wire⟩, .drift ⟨rfl, hl⟩ hw, rfl, rfl, rfl, hwire, hfree,
      hquiet, hheld⟩

/-- **A run of a session is a run of its exchange** — with conditions on the steps where the one has the
other's. -/
theorem shows_of_run {Q : Session L W → Event → Prop}
    {P : Exchange.State (FmScheduler × L) W FmReq FmAck → Exchange.Event FmReq FmAck → Prop}
    (hQ : ∀ s x e e' s', Shows s x → Step S s e s' → Views e e' → Q s e → P x e') {s₀ : Session L W}
    {x₀ : Exchange.State (FmScheduler × L) W FmReq FmAck} (h₀ : Shows s₀ x₀) {es : List Event}
    (h : Run (restrict (Step S) Q) s₀ es s) :
    ∃ es' x, Run (restrict (exchange S).Step P) x₀ es' x ∧ List.Forall₂ Views es es' ∧ Shows s x := by
  induction h with
  | nil => exact ⟨[], x₀, .nil, .nil, h₀⟩
  | snoc _ hstep ih =>
    obtain ⟨es', x, hrun, hviews, hshows⟩ := ih
    obtain ⟨e', x', hstep', hview, hshows'⟩ := hshows.step hstep.1
    exact ⟨es' ++ [e'], x', hrun.snoc ⟨hstep', hQ _ _ _ _ _ hshows hstep.1 hview hstep.2⟩,
      List.rel_append hviews (.cons hview .nil), hshows'⟩

/-- …and without any. -/
theorem shows_of_free_run {s₀ : Session L W} {x₀ : Exchange.State (FmScheduler × L) W FmReq FmAck}
    (h₀ : Shows s₀ x₀) {es : List Event} (h : Run (Step S) s₀ es s) :
    ∃ es' x, Run (restrict (exchange S).Step fun _ _ => True) x₀ es' x ∧ List.Forall₂ Views es es' ∧
      Shows s x :=
  shows_of_run (Q := fun _ _ => True) (fun _ _ _ _ _ _ _ _ _ => trivial) h₀
    (h.mono fun _ _ _ hstep => ⟨hstep, trivial⟩)

end Session

end EuhatExpert
