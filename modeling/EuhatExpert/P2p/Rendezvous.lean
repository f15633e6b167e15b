import EuhatExpert.P2p.EpClient

/-!
# P2p/Rendezvous — whom the clients call

Clients and the server over a network that loses, repeats and reorders datagrams; anybody else may send
the server whatever he likes from an address of his own.  `called_of_run`: a client that calls an address
calls one that registered under the id it asked for.  The clients themselves do not look where a datagram
comes from, so here nobody but the server writes to them.
-/

namespace EuhatExpert

open Machinery Function

structure Datagram where
  src : SockAddr
  dst : SockAddr
  payload : Bytes
  deriving DecidableEq

namespace EpClient

/-- A command leaves the front of the queue, or its timer fires.  What `JyMsgLoop` does at a timer's message
is not in the source; here it may run the command. -/
inductive Takes (c : EpClient) (cmd : EpClientCmdType) : EpClient → Prop
  | posted {rest : List EpClientCmdType} (hlist : c.list_ = cmd :: rest) : Takes c cmd { c with list_ := rest }
  | delayed {before after : List EpClientCmdType} (htimer : c.delayed = before ++ cmd :: after) :
      Takes c cmd { c with delayed := before ++ after }

/-- The text a command sends to the server. -/
def textOf (c : EpClient) : EpClientCmdType → Option Bytes
  | .EPCLIENT_CMD_ALLOC => some c.allocText
  | .EPCLIENT_CMD_CONNECT => some c.connectText
  | .EPCLIENT_CMD_PEER_CALL => none

/-- `onWork`, of a command that does not block. -/
def onWork (c : EpClient) : EpClientCmdType → EpClient
  | .EPCLIENT_CMD_ALLOC => c.delayWork .EPCLIENT_CMD_ALLOC
  | .EPCLIENT_CMD_CONNECT | .EPCLIENT_CMD_PEER_CALL => c

end EpClient

/-- The addresses: of the server's two sockets, and of each client as the others see it. -/
structure Site (ι : Type*) where
  server : SockAddr
  relay : SockAddr
  nat : ι → SockAddr
  nat_injective : Injective nat
  ne_server : ∀ i, nat i ≠ server
  ne_relay : ∀ i, nat i ≠ relay

/-- The server reads what comes to either socket. -/
def Site.Hears {ι : Type*} (site : Site ι) (d : Datagram) : Prop := d.dst = site.server ∨ d.dst = site.relay

/-- `sent` has every datagram ever sent; `calling` the call a client is in for good. -/
structure World (ι : Type*) where
  clients_ : List EpClientEntity
  client : ι → EpClient
  sent : List Datagram
  calling : ι → Option Call

inductive NetEvent (ι : Type*)
  | outsider (d : Datagram)
  | serve (d : Datagram)
  | read (i : ι) (d : Datagram)
  | work (i : ι) (cmd : EpClientCmdType)
  | call (i : ι)
  | callFails (i : ι)

/-- The datagram of a text, unless it is too long. -/
def post (src dst : SockAddr) (text : Bytes) : List Datagram :=
  (JyUdpSelector.sendBuf dst text).toList.map fun buf => ⟨src, buf.sendAddr_, buf.buf_⟩

namespace World

variable {ι : Type*} (inet_addr : Bytes → InAddr) (site : Site ι)

def sockAddr : EpSocket → SockAddr
  | .sock_ => site.server
  | .sockRelay_ => site.relay

def start (localAddr : ι → SockAddr) (id peerId : ι → Bytes) : World ι where
  clients_ := []
  client i := EpClient.start (localAddr i) (id i) (peerId i)
  sent := []
  calling _ := none

inductive Step [DecidableEq ι] : World ι → NetEvent ι → World ι → Prop
  | outsider {w : World ι} {d : Datagram} (hsrc : ∀ i, d.src ≠ site.nat i) (hdst : site.Hears d) :
      Step w (.outsider d) { w with sent := d :: w.sent }
  | serve {w : World ι} {d : Datagram} {clients' : List EpClientEntity} {reply : EpServer.Reply}
      (hsent : d ∈ w.sent) (hdst : site.Hears d)
      (h : EpServer.onSockRead inet_addr w.clients_ d.src d.payload = some (clients', reply)) :
      Step w (.serve d) { w with
        clients_ := clients'
        sent := post (sockAddr site reply.sock) reply.sockAddr reply.text ++ w.sent }
  | read {w : World ι} {i : ι} {d : Datagram} (hsent : d ∈ w.sent) (hdst : d.dst = site.nat i)
      (hfree : w.calling i = none) :
      Step w (.read i d) { w with client := update w.client i ((w.client i).onSockRead d.payload) }
  | work {w : World ι} {i : ι} {cmd : EpClientCmdType} {c : EpClient} {text : Bytes}
      (hfree : w.calling i = none) (htakes : (w.client i).Takes cmd c) (htext : c.textOf cmd = some text) :
      Step w (.work i cmd) { w with
        client := update w.client i (c.onWork cmd)
        sent := post (site.nat i) site.server text ++ w.sent }
  | call {w : World ι} {i : ι} {c : EpClient} (hfree : w.calling i = none)
      (htakes : (w.client i).Takes .EPCLIENT_CMD_PEER_CALL c) :
      Step w (.call i) { w with
        client := update w.client i c
        calling := update w.calling i (some (c.onPeerCall inet_addr)) }
  | callFails {w : World ι} {i : ι} {c : EpClient} (hfree : w.calling i = none)
      (htakes : (w.client i).Takes .EPCLIENT_CMD_PEER_CALL c) :
      Step w (.callFails i) { w with client := update w.client i c }

/-! ## What every datagram and every client knows -/

/-- Somebody has registered this, as far as the server can have heard. -/
def Backed (sent : List Datagram) (e : EpClientEntity) : Prop :=
  ∃ d ∈ sent, site.Hears d ∧ EpServer.registers (d.src, d.payload) = some e

/-- What client `c` may be told: the registration of the id it asked for. -/
def Tells (sent : List Datagram) (c : EpClient) (e : EpClientEntity) : Prop :=
  e.id_ = c.peerId_ ∧ Backed site sent e

/-- A datagram of client `c`: it registers the client's id, and asks for its peer. -/
structure Own (c : EpClient) (d : Datagram) : Prop where
  registers : ∀ e, EpServer.registers (d.src, d.payload) = some e → e.id_ = c.id_
  asks : ∀ id, tokensOf (JyUdpSelector.recvText d.payload) = [EpServer.cmdConnect, id] → id = c.peerId_

/-- What a client starts with and keeps. -/
structure Same (c c₀ : EpClient) : Prop where
  localIp : c.localIp_ = c₀.localIp_
  id : c.id_ = c₀.id_
  peerId : c.peerId_ = c₀.peerId_

/-- The invariant: `c₀` are the clients at the start. -/
structure Good (c₀ : ι → EpClient) (w : World ι) : Prop where
  clients : ∀ e ∈ w.clients_, Backed site w.sent e
  one : OneEach EpClientEntity.id_ w.clients_
  own : ∀ d ∈ w.sent, ∀ i, d.src = site.nat i → Own (c₀ i) d
  told : ∀ d ∈ w.sent, ∀ i, d.dst = site.nat i → ∀ e, EpClient.introduction d.payload = some e →
    Tells site w.sent (c₀ i) e
  same : ∀ i, Same (w.client i) (c₀ i)
  peer : ∀ i e, (w.client i).peer_ = some e → Tells site w.sent (c₀ i) e
  ready : ∀ i, .EPCLIENT_CMD_PEER_CALL ∈ (w.client i).list_ ++ (w.client i).delayed → (w.client i).peer_ ≠ none
  called : ∀ i addr, w.calling i = some (.dial addr) →
    ∃ e, Tells site w.sent (c₀ i) e ∧ addr = some ⟨inet_addr e.natIp_, portOf e.natPort_⟩

variable {inet_addr site}

theorem Backed.mono {sent sent' : List Datagram} {e : EpClientEntity} (h : Backed site sent e) (hsub : sent ⊆ sent') :
    Backed site sent' e := by
  obtain ⟨d, hd, hhears, hreg⟩ := h
  exact ⟨d, hsub hd, hhears, hreg⟩

theorem Tells.mono {sent sent' : List Datagram} {c : EpClient} {e : EpClientEntity} (h : Tells site sent c e)
    (hsub : sent ⊆ sent') : Tells site sent' c e := ⟨h.1, h.2.mono hsub⟩

theorem mem_post {src dst : SockAddr} {text : Bytes} {d : Datagram} (h : d ∈ post src dst text) :
    d.src = src ∧ d.dst = dst ∧ ∃ buf, JyUdpSelector.sendBuf dst text = some buf ∧ d.payload = buf.buf_ := by
  obtain ⟨buf, hbuf, rfl⟩ := List.mem_map.mp h
  have hsend := Option.mem_toList.mp hbuf
  exact ⟨rfl, (JyUdpSelector.sendBuf_eq_some hsend).1, buf, hsend, rfl⟩

/-! ## What a client sends -/

theorem eq_of_tokensOf {text token : Bytes} (h : tokensOf text = [token]) : token = text := by
  have hjoin : [newline].intercalate (tokensOf text) = text := List.intercalate_splitOn newline
  rwa [h, List.intercalate_singleton] at hjoin

/-- The texts of a client are text. -/
structure Plain (c : EpClient) : Prop where
  localIp : Clean c.localIp_
  id : cstr c.id_ = c.id_
  peerId : cstr c.peerId_ = c.peerId_

theorem cstr_cstr (text : Bytes) : cstr (cstr text) = cstr text := by
  refine cstr_eq_self fun h0 => ?_
  rw [cstr] at h0
  simpa using List.mem_takeWhile_imp h0

theorem plain_start (localAddr : SockAddr) (id peerId : Bytes) : Plain (EpClient.start localAddr id peerId) :=
  ⟨clean_inet_ntoa _, cstr_cstr id, cstr_cstr peerId⟩

theorem clean_cmdAlloc : Clean EpServer.cmdAlloc := clean_of_all (by decide)

theorem clean_cmdConnect : Clean EpServer.cmdConnect := clean_of_all (by decide)

/-- **A client registers its own id and asks for its own peer.** -/
theorem own_of_textOf {c : EpClient} {cmd : EpClientCmdType} {text : Bytes} {d : Datagram} {src dst : SockAddr}
    (hc : Plain c) (htext : c.textOf cmd = some text) (hd : d ∈ post src dst text) : Own c d := by
  obtain ⟨-, -, buf, hsend, hpayload⟩ := mem_post hd
  have hrecv : JyUdpSelector.recvText d.payload = cstr text := by
    rw [hpayload, JyUdpSelector.recvText_sendBuf hsend]
  cases cmd with
  | EPCLIENT_CMD_ALLOC =>
    obtain rfl := Option.some.inj htext
    have htokens : tokensOf (JyUdpSelector.recvText d.payload) =
        EpServer.cmdAlloc :: c.localIp_ :: intToString c.localPort_ :: tokensOf c.id_ := by
      rw [hrecv, EpClient.allocText, clean_cmdAlloc.cstr_append, cstr_newline, hc.localIp.cstr_append, cstr_newline,
        (clean_intToString _).cstr_append, cstr_newline, hc.id, clean_cmdAlloc.tokensOf_append,
        hc.localIp.tokensOf_append, (clean_intToString _).tokensOf_append]
    constructor
    · intro e hreg
      rw [EpServer.registers] at hreg
      simp only [htokens, List.headI_cons, if_true] at hreg
      unfold EpServer.entityOf at hreg
      split at hreg
      · rename_i id heq
        simp only [List.cons.injEq] at heq
        obtain ⟨-, -, -, heq⟩ := heq
        rw [← Option.some.inj hreg]
        exact eq_of_tokensOf heq
      · cases hreg
    · intro id hask
      rw [htokens] at hask
      exact absurd (List.cons.inj hask).1 (by decide)
  | EPCLIENT_CMD_CONNECT =>
    obtain rfl := Option.some.inj htext
    have htokens : tokensOf (JyUdpSelector.recvText d.payload) = EpServer.cmdConnect :: tokensOf c.peerId_ := by
      rw [hrecv, EpClient.connectText, clean_cmdConnect.cstr_append, cstr_newline, hc.peerId,
        clean_cmdConnect.tokensOf_append]
    constructor
    · intro e hreg
      rw [EpServer.registers] at hreg
      simp only [htokens, List.headI_cons] at hreg
      rw [if_neg (by decide)] at hreg
      cases hreg
    · intro id hask
      rw [htokens] at hask
      exact eq_of_tokensOf (List.cons.inj hask).2
  | EPCLIENT_CMD_PEER_CALL => cases htext

/-! ## What a client is told -/

/-- What a datagram does to a client. -/
theorem onSockRead_cases (c : EpClient) (buf_ : Bytes) :
    c.onSockRead buf_ = c ∨
      c.onSockRead buf_ = (c.cancelWork .EPCLIENT_CMD_ALLOC).postMsg .EPCLIENT_CMD_CONNECT ∨
      c.onSockRead buf_ = c.delayWork .EPCLIENT_CMD_CONNECT ∨
      ∃ peer, EpClient.introduction buf_ = some peer ∧ c.onSockRead buf_ =
        ({ c with peer_ := some peer }.cancelWork .EPCLIENT_CMD_CONNECT).postMsg .EPCLIENT_CMD_PEER_CALL := by
  unfold EpClient.onSockRead EpClient.introduction
  split
  · rename_i cmd reply tokens htokens
    rw [htokens]
    by_cases halloc : cmd = EpServer.cmdAlloc
    · rw [if_pos halloc]
      split_ifs
      · exact .inl rfl
      · exact .inr (.inl rfl)
    rw [if_neg halloc]
    by_cases hconnect : cmd = EpServer.cmdConnect
    · rw [if_pos hconnect]
      by_cases hpeer : reply = ofAscii "peer"
      · rw [if_neg (not_not_intro hpeer), EpClient.introductionOf, if_pos ⟨hconnect, hpeer⟩]
        cases hof : EpClient.peerOf tokens with
        | none => exact .inr (.inr (.inl rfl))
        | some peer => exact .inr (.inr (.inr ⟨peer, rfl, rfl⟩))
      · rw [if_pos hpeer]
        exact .inr (.inr (.inl rfl))
    · rw [if_neg hconnect]
      exact .inl rfl
  · exact .inl rfl

/-- **A client goes on with what it started with, believes only what it is told, and calls nobody before it
has been told of somebody.** -/
structure Heeds (buf_ : Bytes) (c c' : EpClient) : Prop where
  same : Same c' c
  peer : ∀ e, c'.peer_ = some e → c.peer_ = some e ∨ EpClient.introduction buf_ = some e
  ready : .EPCLIENT_CMD_PEER_CALL ∈ c'.list_ ++ c'.delayed →
    .EPCLIENT_CMD_PEER_CALL ∈ c.list_ ++ c.delayed ∨ c'.peer_ ≠ none
  known : c.peer_ ≠ none → c'.peer_ ≠ none

theorem heeds_onSockRead (c : EpClient) (buf_ : Bytes) : Heeds buf_ c (c.onSockRead buf_) := by
  rcases onSockRead_cases c buf_ with h | h | h | ⟨peer, hintro, h⟩ <;> rw [h]
  · exact ⟨⟨rfl, rfl, rfl⟩, fun _ => .inl, .inl, id⟩
  · refine ⟨⟨rfl, rfl, rfl⟩, fun _ => .inl, fun hmem => .inl ?_, id⟩
    simpa [EpClient.postMsg, EpClient.cancelWork] using hmem
  · refine ⟨⟨rfl, rfl, rfl⟩, fun _ => .inl, fun hmem => .inl ?_, id⟩
    simpa using hmem
  · refine ⟨⟨rfl, rfl, rfl⟩, fun e he => .inr ?_, fun _ => .inr (Option.some_ne_none peer), fun _ => Option.some_ne_none peer⟩
    rw [hintro]
    exact he

/-- A command that leaves the queue changes nothing else. -/
theorem takes_spec {c c' : EpClient} {cmd : EpClientCmdType} (h : c.Takes cmd c') :
    Same c' c ∧ c'.peer_ = c.peer_ ∧ cmd ∈ c.list_ ++ c.delayed ∧
      ∀ t ∈ c'.list_ ++ c'.delayed, t ∈ c.list_ ++ c.delayed := by
  cases h with
  | @posted rest hlist =>
    refine ⟨⟨rfl, rfl, rfl⟩, rfl, ?_, fun t ht => ?_⟩
    · rw [hlist]
      exact List.mem_cons_self
    · rw [hlist]
      exact List.mem_cons_of_mem _ ht
  | @delayed before after htimer =>
    refine ⟨⟨rfl, rfl, rfl⟩, rfl, ?_, fun t ht => ?_⟩
    · rw [htimer]
      exact List.mem_append_right _ (List.mem_append_right _ List.mem_cons_self)
    · rw [htimer]
      simp only [List.mem_append, List.mem_cons] at ht ⊢
      exact ht.imp_right fun h => h.imp_right .inr

/-- A command that runs changes the timers at most. -/
theorem onWork_spec (c : EpClient) (cmd : EpClientCmdType) :
    Same (c.onWork cmd) c ∧ (c.onWork cmd).peer_ = c.peer_ ∧
      (.EPCLIENT_CMD_PEER_CALL ∈ (c.onWork cmd).list_ ++ (c.onWork cmd).delayed →
        .EPCLIENT_CMD_PEER_CALL ∈ c.list_ ++ c.delayed) := by
  cases cmd with
  | EPCLIENT_CMD_ALLOC =>
    refine ⟨⟨rfl, rfl, rfl⟩, rfl, fun h => ?_⟩
    simpa [EpClient.onWork] using h
  | EPCLIENT_CMD_CONNECT => exact ⟨⟨rfl, rfl, rfl⟩, rfl, id⟩
  | EPCLIENT_CMD_PEER_CALL => exact ⟨⟨rfl, rfl, rfl⟩, rfl, id⟩

/-! ## The invariant -/

variable {c₀ : ι → EpClient} {w w' : World ι}

theorem good_start (localAddr : ι → SockAddr) (id peerId : ι → Bytes) :
    Good inet_addr site (fun i => EpClient.start (localAddr i) (id i) (peerId i)) (start localAddr id peerId) where
  clients _ h := by cases h
  one := List.Pairwise.nil
  own _ h := by cases h
  told _ h := by cases h
  same _ := ⟨rfl, rfl, rfl⟩
  peer _ _ h := by cases h
  ready _ h := by simp [start, EpClient.start] at h
  called _ _ h := by cases h

/-- What stays true when datagrams are added to those sent: all but what the new ones say. -/
theorem Good.send (h : Good inet_addr site c₀ w) {more : List Datagram}
    (hown : ∀ d ∈ more, ∀ i, d.src = site.nat i → Own (c₀ i) d)
    (htold : ∀ d ∈ more, ∀ i, d.dst = site.nat i → ∀ e, EpClient.introduction d.payload = some e →
      Tells site w.sent (c₀ i) e) : Good inet_addr site c₀ { w with sent := more ++ w.sent } := by
  have hsub : w.sent ⊆ more ++ w.sent := List.subset_append_right _ _
  refine ⟨fun e he => (h.clients e he).mono hsub, h.one, fun d hd => ?_, fun d hd i hdst e he => ?_, h.same,
    fun i e he => (h.peer i e he).mono hsub, h.ready, fun i addr hcall => ?_⟩
  · exact (List.mem_append.mp hd).elim (hown d) (h.own d)
  · exact ((List.mem_append.mp hd).elim (fun hd => htold d hd i hdst e he) fun hd => h.told d hd i hdst e he).mono hsub
  · obtain ⟨e, he, haddr⟩ := h.called i addr hcall
    exact ⟨e, he.mono hsub, haddr⟩

/-- **What the server answers keeps the invariant.** -/
theorem Good.serve (h : Good inet_addr site c₀ w) {d : Datagram} {clients' : List EpClientEntity}
    {reply : EpServer.Reply} (hsent : d ∈ w.sent) (hdst : site.Hears d)
    (hserve : EpServer.onSockRead inet_addr w.clients_ d.src d.payload = some (clients', reply)) :
    Good inet_addr site c₀ { w with
      clients_ := clients'
      sent := post (sockAddr site reply.sock) reply.sockAddr reply.text ++ w.sent } := by
  have hserves : EpServer.Serves inet_addr w.clients_ (d.src, d.payload) clients' := ⟨reply, hserve⟩
  have hclients : ∀ e ∈ w.clients_, e.Sendable := fun e he => by
    obtain ⟨_, -, -, hreg⟩ := h.clients e he
    exact (EpServer.sendable_of_registers hreg).1
  have hsend : Good inet_addr site c₀
      { w with sent := post (sockAddr site reply.sock) reply.sockAddr reply.text ++ w.sent } := by
    refine h.send (fun d' hd' i hsrc => ?_) fun d' hd' i hto e hintro => ?_
    · rw [(mem_post hd').1] at hsrc
      cases hsock : reply.sock with
      | sock_ => exact absurd (hsock ▸ hsrc).symm (site.ne_server i)
      | sockRelay_ => exact absurd (hsock ▸ hsrc).symm (site.ne_relay i)
    · obtain ⟨-, hdst', buf, hbuf, hpayload⟩ := mem_post hd'
      rw [hpayload, EpServer.introduction_reply (d := (d.src, d.payload)) h.one hclients hserve hbuf] at hintro
      obtain ⟨htokens, hmem, -⟩ := hintro
      have hback : reply.sockAddr = d.src := by
        refine EpServer.sockAddr_of_onSockRead (d := (d.src, d.payload)) hserve ?_
        rw [htokens]
        exact show EpServer.cmdConnect ≠ EpServer.cmdRelay by decide
      exact ⟨(h.own d hsent i (hback.symm.trans (hdst'.symm.trans hto))).asks _ htokens, h.clients e hmem⟩
  obtain ⟨-, -, hown, htold, hsame, hpeer, hready, hcalled⟩ := hsend
  refine ⟨fun e he => ?_, ?_, hown, htold, hsame, hpeer, hready, hcalled⟩
  · rw [EpServer.clients_of_serves hserves] at he
    cases hreg : EpServer.registers (d.src, d.payload) with
    | none =>
      rw [hreg] at he
      exact (h.clients e he).mono (List.subset_append_right _ _)
    | some new =>
      rw [hreg] at he
      rcases h.one.mem_register.mp he with rfl | ⟨he, -⟩
      · exact ⟨d, List.mem_append_right _ hsent, hdst, hreg⟩
      · exact (h.clients e he).mono (List.subset_append_right _ _)
  · rw [EpServer.clients_of_serves hserves]
    cases EpServer.registers (d.src, d.payload) with
    | none => exact h.one
    | some new => exact h.one.register

variable [DecidableEq ι]

/-- What stays true when a client changes. -/
theorem Good.change (h : Good inet_addr site c₀ w) {i : ι} {c : EpClient} (hsame : Same c (c₀ i))
    (hpeer : ∀ e, c.peer_ = some e → Tells site w.sent (c₀ i) e)
    (hready : .EPCLIENT_CMD_PEER_CALL ∈ c.list_ ++ c.delayed → c.peer_ ≠ none) :
    Good inet_addr site c₀ { w with client := update w.client i c } := by
  refine ⟨h.clients, h.one, h.own, h.told, fun j => ?_, fun j => ?_, fun j => ?_, h.called⟩ <;>
  · dsimp only
    by_cases hj : j = i
    · subst hj
      rw [update_self]
      assumption
    · rw [update_of_ne hj]
      first
      | exact h.same j
      | exact h.peer j
      | exact h.ready j

/-- **Every step keeps the invariant.** -/
theorem Good.step (h : Good inet_addr site c₀ w) (hplain : ∀ i, Plain (c₀ i)) {e : NetEvent ι}
    (hstep : Step inet_addr site w e w') : Good inet_addr site c₀ w' := by
  have hsameOf : ∀ {i : ι} {c : EpClient}, Same c (w.client i) → Same c (c₀ i) := fun {i c} hc =>
    ⟨hc.1.trans (h.same i).1, hc.2.trans (h.same i).2, hc.3.trans (h.same i).3⟩
  cases hstep with
  | @outsider d hsrc hdst =>
    refine (h.send (fun d' hd' i hi => ?_) fun d' hd' i hi => ?_ : Good inet_addr site c₀ { w with sent := [d] ++ w.sent })
    · obtain rfl := List.mem_singleton.mp hd'
      exact absurd hi (hsrc i)
    · obtain rfl := List.mem_singleton.mp hd'
      exact absurd hi (hdst.elim (fun hs => hs ▸ (site.ne_server i).symm) fun hs => hs ▸ (site.ne_relay i).symm)
  | serve hsent hdst hserve => exact h.serve hsent hdst hserve
  | @read i d hsent hdst hfree =>
    obtain ⟨hsame, hpeer, hready, hknown⟩ := heeds_onSockRead (w.client i) d.payload
    refine h.change (hsameOf hsame) (fun e he => ?_) fun hmem => ?_
    · exact (hpeer e he).elim (h.peer i e) (h.told d hsent i hdst e)
    · exact (hready hmem).elim (fun hmem => hknown (h.ready i hmem)) id
  | @work i cmd c text hfree htakes htext =>
    obtain ⟨hsame, hpeer, -, hrest⟩ := takes_spec htakes
    have hplain' : Plain c := by
      obtain ⟨hip, hid, hpid⟩ := hsameOf hsame
      exact ⟨hip ▸ (hplain i).1, by rw [hid, (hplain i).2], by rw [hpid, (hplain i).3]⟩
    have hown : ∀ d ∈ post (site.nat i) site.server text, Own (c₀ i) d := fun d hd => by
      obtain ⟨hreg, hask⟩ := own_of_textOf hplain' htext hd
      obtain ⟨-, hid, hpid⟩ := hsameOf hsame
      exact ⟨fun e he => (hreg e he).trans hid, fun id hd' => (hask id hd').trans hpid⟩
    have hsend : Good inet_addr site c₀ { w with sent := post (site.nat i) site.server text ++ w.sent } := by
      refine h.send (fun d hd j hsrc => ?_) fun d hd j hto => ?_
      · rw [(mem_post hd).1] at hsrc
        exact site.nat_injective hsrc ▸ hown d hd
      · exact absurd (hto.symm.trans (mem_post hd).2.1) (site.ne_server j)
    obtain ⟨hsame', hpeer', hready'⟩ := onWork_spec c cmd
    refine hsend.change (hsameOf ⟨?_, ?_, ?_⟩) (fun e he => hsend.peer i e ?_) fun hmem => ?_
    · exact hsame'.1.trans hsame.1
    · exact hsame'.2.trans hsame.2
    · exact hsame'.3.trans hsame.3
    · rw [← hpeer, ← hpeer', he]
    · rw [hpeer', hpeer]
      exact h.ready i (hrest _ (hready' hmem))
  | @call i c hfree htakes =>
    obtain ⟨hsame, hpeer, hmem, hrest⟩ := takes_spec htakes
    have hchange : Good inet_addr site c₀ { w with client := update w.client i c } :=
      h.change (hsameOf hsame) (fun e he => h.peer i e (hpeer ▸ he)) fun hmem => hpeer ▸ h.ready i (hrest _ hmem)
    obtain ⟨hclients, hone, hown, htold, hsame', hpeer', hready', hcalled⟩ := hchange
    refine ⟨hclients, hone, hown, htold, hsame', hpeer', hready', fun j addr hcall => ?_⟩
    by_cases hj : j = i
    · subst hj
      dsimp only at hcall
      rw [update_self, EpClient.onPeerCall] at hcall
      split_ifs at hcall
      · cases hcall
      obtain rfl := Call.dial.inj (Option.some.inj hcall)
      obtain ⟨e, he⟩ := Option.ne_none_iff_exists'.mp (hpeer ▸ h.ready j hmem)
      exact ⟨e, h.peer j e (hpeer ▸ he), by rw [he, Option.map_some]⟩
    · dsimp only at hcall
      rw [update_of_ne hj] at hcall
      exact hcalled j addr hcall
  | @callFails i c hfree htakes =>
    obtain ⟨hsame, hpeer, -, hrest⟩ := takes_spec htakes
    exact h.change (hsameOf hsame) (fun e he => h.peer i e (hpeer ▸ he)) fun hmem =>
      hpeer ▸ h.ready i (hrest _ hmem)

theorem good_of_run {localAddr : ι → SockAddr} {id peerId : ι → Bytes} {es : List (NetEvent ι)}
    (h : Run (Step inet_addr site) (start localAddr id peerId) es w) :
    Good inet_addr site (fun i => EpClient.start (localAddr i) (id i) (peerId i)) w :=
  h.invariant (good_start localAddr id peerId) fun _ _ _ hgood hstep =>
    hgood.step (fun i => plain_start (localAddr i) (id i) (peerId i)) hstep

/-- **Whom a client calls**: an address from which a registration of the id it asked for was sent, whatever
was lost, repeated or reordered and whatever strangers sent the server; and a client at that address goes by
that id. -/
theorem called_of_run (hinet : ∀ addr, inet_addr (inet_ntoa addr) = addr) {localAddr : ι → SockAddr}
    {id peerId : ι → Bytes} {es : List (NetEvent ι)}
    (h : Run (Step inet_addr site) (start localAddr id peerId) es w) {i : ι} {addr : Option SockAddr}
    (hcall : w.calling i = some (.dial addr)) :
    ∃ d ∈ w.sent, ∃ e, EpServer.registers (d.src, d.payload) = some e ∧ e.id_ = cstr (peerId i) ∧
      addr = some d.src ∧ ∀ j, d.src = site.nat j → cstr (id j) = cstr (peerId i) := by
  have hgood := good_of_run h
  obtain ⟨e, ⟨hid, d, hd, -, hreg⟩, haddr⟩ := hgood.called i addr hcall
  obtain ⟨-, hip, hport⟩ := EpServer.sendable_of_registers hreg
  refine ⟨d, hd, e, hreg, hid, ?_, fun j hj => ?_⟩
  · rw [haddr, hip, hport, hinet, portOf_portNumber]
  · exact ((hgood.own d hd j hj).registers e hreg).symm.trans hid

/-! ## A meeting -/

/-- `inet_addr` of dotted decimals. -/
def dotted (text : Bytes) : InAddr :=
  match (text.splitOn dot).map readNat with
  | [a, b, c, d] => ⟨UInt8.ofNat a, UInt8.ofNat b, UInt8.ofNat c, UInt8.ofNat d⟩
  | _ => ⟨255, 255, 255, 255⟩

theorem dotted_inet_ntoa (addr : InAddr) : dotted (inet_ntoa addr) = addr := by
  have hdot : ∀ part ∈ [addr.b0, addr.b1, addr.b2, addr.b3].map fun b => printNat b.toNat, dot ∉ part := by
    intro part hpart hmem
    obtain ⟨b, -, rfl⟩ := List.mem_map.mp hpart
    exact absurd ((printNat_spec _).2 _ hmem) (by decide)
  rw [dotted, inet_ntoa, List.splitOn_intercalate _ hdot (by simp)]
  simp only [List.map_cons, List.map_nil, readNat_printNat, UInt8.ofNat_toNat]

def meetingNat (i : Bool) : SockAddr := ⟨⟨10, 0, 0, if i then 1 else 2⟩, 5001⟩

theorem meetingNat_injective : Injective meetingNat := by decide

theorem meetingNat_ne (i : Bool) : meetingNat i ≠ ⟨⟨10, 0, 0, 9⟩, 5000⟩ ∧ meetingNat i ≠ ⟨⟨10, 0, 0, 9⟩, 4999⟩ := by
  revert i
  decide

/-- A server and two clients, who ask for one another. -/
def meetingSite : Site Bool :=
  ⟨⟨⟨10, 0, 0, 9⟩, 5000⟩, ⟨⟨10, 0, 0, 9⟩, 4999⟩, meetingNat, meetingNat_injective, fun i => (meetingNat_ne i).1,
    fun i => (meetingNat_ne i).2⟩

def meeting : World Bool :=
  start meetingNat (fun i => if i then ofAscii "a" else ofAscii "b") fun i => if i then ofAscii "b" else ofAscii "a"

/-- The server introduces the one that came first to ask, and that one calls. -/
theorem called_here : ∃ es w, Run (Step dotted meetingSite) meeting es w ∧
    w.calling true = some (.dial (some (meetingNat false))) ∧
    ∃ d ∈ w.sent, ∃ e, EpServer.registers (d.src, d.payload) = some e ∧ e.id_ = cstr (ofAscii "b") ∧
      some (meetingNat false) = some d.src ∧
      ∀ j, d.src = meetingNat j → cstr (if j then ofAscii "a" else ofAscii "b") = cstr (ofAscii "b") := by
  have h1 := (Run.nil : Run (Step dotted meetingSite) meeting [] meeting).snoc
    (@Step.work _ _ _ _ _ true .EPCLIENT_CMD_ALLOC _ _ rfl (.posted rfl) rfl)
  have h2 := h1.snoc (@Step.serve _ _ _ _ _
    ⟨meetingNat true, meetingSite.server, ofAscii "alloc\n10.0.0.1\n5001\na" ++ [0]⟩ _ _ (by decide) (.inl rfl) rfl)
  have h3 := h2.snoc (@Step.read _ _ _ _ _ true
    ⟨meetingSite.server, meetingNat true, ofAscii "alloc\nok" ++ [0]⟩ (by decide) rfl rfl)
  have h4 := h3.snoc (@Step.work _ _ _ _ _ false .EPCLIENT_CMD_ALLOC _ _ rfl (.posted rfl) rfl)
  have h5 := h4.snoc (@Step.serve _ _ _ _ _
    ⟨meetingNat false, meetingSite.server, ofAscii "alloc\n10.0.0.2\n5001\nb" ++ [0]⟩ _ _ (by decide) (.inl rfl) rfl)
  have h6 := h5.snoc (@Step.work _ _ _ _ _ true .EPCLIENT_CMD_CONNECT _ _ rfl (.posted rfl) rfl)
  have h7 := h6.snoc (@Step.serve _ _ _ _ _
    ⟨meetingNat true, meetingSite.server, ofAscii "connect\nb" ++ [0]⟩ _ _ (by decide) (.inl rfl) rfl)
  have h8 := h7.snoc (@Step.read _ _ _ _ _ true ⟨meetingSite.server, meetingNat true,
    ofAscii "connect\npeer\nb\n10.0.0.2\n5001\n10.0.0.2\n5001" ++ [0]⟩ (by decide) rfl rfl)
  have h9 := h8.snoc (@Step.call _ _ _ _ _ true _ rfl (.posted rfl))
  exact ⟨_, _, h9, rfl, called_of_run dotted_inet_ntoa h9 (i := true) rfl⟩

end World

end EuhatExpert
