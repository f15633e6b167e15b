import EuhatExpert.Common.JyMsgTimer
import EuhatExpert.P2p.EpServer

/-!
# P2p/EpClient — the client, and what it is told

A client registers, asks for its peer, and calls whoever the answer names.  `introduces_iff`: the server's
answer to a datagram introduces somebody exactly when that is the latest registration of the id asked for
and the asker's own registration stands; and what the client reads of the answer is what was registered.
-/

namespace EuhatExpert

open Machinery

/-- `EpClientCmdType`. -/
inductive EpClientCmdType
  | EPCLIENT_CMD_ALLOC
  | EPCLIENT_CMD_CONNECT
  | EPCLIENT_CMD_PEER_CALL
  deriving DecidableEq, Repr

/-- The commands begin at `JY_MSG_TYPE_USER`. -/
def EpClientCmdType.id : EpClientCmdType → ℤ
  | .EPCLIENT_CMD_ALLOC => 100
  | .EPCLIENT_CMD_CONNECT => 101
  | .EPCLIENT_CMD_PEER_CALL => 102

/-- `list_` has the commands that are posted, `delayed` those a timer is set for. -/
structure EpClient where
  localIp_ : Bytes
  localPort_ : Int32
  id_ : Bytes
  peerId_ : Bytes
  peer_ : Option EpClientEntity
  list_ : List EpClientCmdType
  delayed : List EpClientCmdType
  deriving DecidableEq

/-- A call that does not return: for a connection, or to an address, where there is one to call. -/
inductive Call
  | accept
  | dial (addr : Option SockAddr)
  deriving DecidableEq, Repr

namespace EpClient

open EpServer (cmdAlloc cmdConnect)

/-- `EpClient`, with what `onInit` finds out and posts. -/
def start (localAddr : SockAddr) (id peerId : Bytes) : EpClient where
  localIp_ := inet_ntoa localAddr.sin_addr
  localPort_ := portNumber localAddr.sin_port
  id_ := cstr id
  peerId_ := cstr peerId
  peer_ := none
  list_ := [.EPCLIENT_CMD_ALLOC]
  delayed := []

/-- `postMsg`. -/
def postMsg (c : EpClient) (cmd : EpClientCmdType) : EpClient := { c with list_ := c.list_ ++ [cmd] }

/-- `addSlot` refuses a timer that does not repeat for such a command. -/
def delayWork (c : EpClient) (type : EpClientCmdType) : EpClient :=
  if type.id ≥ JY_MSG_TYPE_TIMER then c else { c with delayed := c.delayed ++ [type] }

/-- So nothing is ever delayed. -/
@[simp] theorem delayWork_eq (c : EpClient) (type : EpClientCmdType) : c.delayWork type = c := by
  rw [delayWork, if_pos]
  cases type <;> decide

/-- `cancelWork`: the delayed message is dropped. -/
def cancelWork (c : EpClient) (type : EpClientCmdType) : EpClient :=
  { c with delayed := c.delayed.filter fun t => t ≠ type }

/-- The text `onAlloc` sends. -/
def allocText (c : EpClient) : Bytes :=
  cmdAlloc ++ newline :: (c.localIp_ ++ newline :: (intToString c.localPort_ ++ newline :: c.id_))

/-- The text `onConnect` sends. -/
def connectText (c : EpClient) : Bytes := cmdConnect ++ newline :: c.peerId_

/-- The five lines behind `connect` and `peer`. -/
def peerOf : List Bytes → Option EpClientEntity
  | [id, natIp, natPort, innerIp, innerPort] => some {
      id_ := id
      natIp_ := natIp
      natPort_ := atoi natPort
      innerIp_ := innerIp
      innerPort_ := atoi innerPort }
  | _ => none

/-- Whom the lines of a datagram introduce. -/
def introductionOf : List Bytes → Option EpClientEntity
  | cmd :: reply :: tokens => if cmd = cmdConnect ∧ reply = ofAscii "peer" then peerOf tokens else none
  | _ => none

/-- Whom a datagram introduces. -/
def introduction (buf_ : Bytes) : Option EpClientEntity :=
  introductionOf (tokensOf (JyUdpSelector.recvText buf_))

/-- `onSockRead` of a datagram's lines. -/
def onSockRead (c : EpClient) (buf_ : Bytes) : EpClient :=
  match tokensOf (JyUdpSelector.recvText buf_) with
  | cmd :: reply :: tokens =>
    if cmd = cmdAlloc then
      if reply ≠ ofAscii "ok" then c
      else (c.cancelWork .EPCLIENT_CMD_ALLOC).postMsg .EPCLIENT_CMD_CONNECT
    else if cmd = cmdConnect then
      match if reply ≠ ofAscii "peer" then none else peerOf tokens with
      | none => c.delayWork .EPCLIENT_CMD_CONNECT
      | some peer =>
        ({ c with peer_ := some peer }.cancelWork .EPCLIENT_CMD_CONNECT).postMsg .EPCLIENT_CMD_PEER_CALL
    else c
  | _ => c

/-- `onPeerCall`: `onPeerCallTcpSrv` waits for a connection, `onPeerCallTcpCli` asks for one. -/
def onPeerCall (inet_addr : Bytes → InAddr) (c : EpClient) : Call :=
  if c.id_ = ofAscii "euhat" then .accept
  else .dial (c.peer_.map fun peer => ⟨inet_addr peer.natIp_, portOf peer.natPort_⟩)

end EpClient

/-! ## Texts of lines -/

/-- No newline and no NUL. -/
def Clean (text : Bytes) : Prop := ∀ ch ∈ text, ch ≠ newline ∧ ch ≠ 0

theorem clean_of_all {text : Bytes} (h : text.all (fun ch => ch ≠ newline ∧ ch ≠ 0) = true) : Clean text :=
  fun ch hch => of_decide_eq_true (List.all_eq_true.mp h ch hch)

/-- A clean text ends where another one begins. -/
theorem Clean.cstr_append {text : Bytes} (h : Clean text) (rest : Bytes) :
    cstr (text ++ rest) = text ++ cstr rest := by
  rw [cstr, cstr, List.takeWhile_append_of_pos fun ch hch => by simpa using (h ch hch).2]

/-- It is a C string, -/
theorem Clean.cstr_eq {text : Bytes} (h : Clean text) : cstr text = text :=
  cstr_eq_self fun h0 => (h 0 h0).2 rfl

theorem cstr_newline (rest : Bytes) : cstr (newline :: rest) = newline :: cstr rest := by
  rw [cstr, List.takeWhile_cons_of_pos (by decide), ← cstr]

/-- and a line. -/
theorem Clean.tokensOf_eq {text : Bytes} (h : Clean text) : tokensOf text = [text] :=
  List.splitOn_eq_singleton fun hmem => (h _ hmem).1 rfl

/-- The first line is a token, and the rest is split on. -/
theorem Clean.tokensOf_append {text : Bytes} (h : Clean text) (rest : Bytes) :
    tokensOf (text ++ newline :: rest) = text :: tokensOf rest :=
  List.splitOn_append_cons_self_of_not_mem (fun hmem => (h _ hmem).1 rfl) rest

/-- **Lines are clean**, whatever was received. -/
theorem clean_of_mem_tokensOf {buf_ token : Bytes} (h : token ∈ tokensOf (JyUdpSelector.recvText buf_)) :
    Clean token := by
  intro ch hch
  refine ⟨?_, ?_⟩
  · rintro rfl
    exact not_mem_of_mem_splitOn h hch
  · have hmem := subset_of_mem_splitOn h hch
    rw [JyUdpSelector.recvText, cstr] at hmem
    simpa using List.mem_takeWhile_imp hmem

/-- Numbers are clean, -/
theorem clean_intToString (i : Int32) : Clean (intToString i) := fun _ hch =>
  ⟨(WorkSpan.mem_printInt_ne hch).2.1, (WorkSpan.mem_printInt_ne hch).2.2.1⟩

/-- and addresses. -/
theorem clean_inet_ntoa (addr : InAddr) : Clean (inet_ntoa addr) := by
  intro ch hch
  rcases mem_intercalate hch with rfl | ⟨part, hpart, hch⟩
  · decide
  · obtain ⟨b, -, rfl⟩ := List.mem_map.mp hpart
    have hdigit := (printNat_spec _).2 ch hch
    refine ⟨?_, ?_⟩ <;>
    · rintro rfl
      exact absurd hdigit (by decide)

/-- **The text of an address names it.** -/
theorem inet_ntoa_injective : Function.Injective inet_ntoa := by
  rintro ⟨a0, a1, a2, a3⟩ ⟨b0, b1, b2, b3⟩ h
  have hdot : ∀ bs : List UInt8, ∀ part ∈ bs.map fun b => printNat b.toNat, dot ∉ part := by
    intro bs part hpart hmem
    obtain ⟨b, -, rfl⟩ := List.mem_map.mp hpart
    exact absurd ((printNat_spec _).2 _ hmem) (by decide)
  have hparts := congrArg (List.splitOn dot) h
  rw [inet_ntoa, inet_ntoa, List.splitOn_intercalate _ (hdot _) (by simp),
    List.splitOn_intercalate _ (hdot _) (by simp)] at hparts
  have hread := congrArg (List.map readNat) hparts
  simp only [List.map_cons, List.map_nil, readNat_printNat, List.cons.injEq, and_true, UInt8.toNat_inj] at hread
  obtain ⟨rfl, rfl, rfl, rfl⟩ := hread
  rfl

/-- A port is the number it is read as. -/
theorem toInt_portNumber (port : UInt16) : (portNumber port).toInt = port.toNat := by
  have hlt := port.toNat_lt
  rw [portNumber, Int32.toInt_ofInt_of_le (by omega) (by omega)]

/-- A port comes back from its number. -/
theorem portOf_portNumber (port : UInt16) : portOf (portNumber port) = port := by
  have hlt := port.toNat_lt
  have hmod : ((port.toNat : ℤ).emod 65536).toNat = port.toNat := by
    have h : (port.toNat : ℤ).emod 65536 = port.toNat := Int.emod_eq_of_lt (by omega) (by omega)
    rw [h, Int.toNat_natCast]
  rw [portOf, toInt_portNumber, hmod, UInt16.ofNat_toNat]

/-- No two ports are one number. -/
theorem portNumber_injective : Function.Injective portNumber :=
  Function.LeftInverse.injective portOf_portNumber

/-! ## What the server's answers introduce -/

namespace EpClientEntity

/-- Texts that go over the line as they are. -/
structure Sendable (e : EpClientEntity) : Prop where
  innerIp : Clean e.innerIp_
  natIp : Clean e.natIp_
  id : Clean e.id_

end EpClientEntity

namespace EpServer

open EpClient (introductionOf introduction)

/-- What a datagram registers is sendable. -/
theorem sendable_of_registers {d : SockAddr × Bytes} {e : EpClientEntity} (h : registers d = some e) :
    e.Sendable ∧ e.natIp_ = inet_ntoa d.1.sin_addr ∧ e.natPort_ = portNumber d.1.sin_port := by
  rw [registers] at h
  split_ifs at h
  have hclean : ∀ token ∈ tokensOf (JyUdpSelector.recvText d.2), Clean token := fun _ => clean_of_mem_tokensOf
  unfold entityOf at h
  split at h
  · rename_i cmd innerIp innerPort id htokens
    rw [htokens] at hclean
    rw [← Option.some.inj h]
    exact ⟨⟨hclean _ (by simp), clean_inet_ntoa _, hclean _ (by simp)⟩, rfl, rfl⟩
  · cases h

/-- **What is read of an introduction is what it introduces.** -/
theorem introductionOf_introduce {it : EpClientEntity} (h : it.Sendable) :
    introductionOf (cmdConnect :: tokensOf (cstr (introduce it.id_ it))) = some it := by
  have hpeer : Clean (ofAscii "peer") := clean_of_all (by decide)
  rw [introduce, hpeer.cstr_append, cstr_newline, h.id.cstr_append, cstr_newline, h.natIp.cstr_append,
    cstr_newline, (clean_intToString _).cstr_append, cstr_newline, h.innerIp.cstr_append, cstr_newline,
    (clean_intToString _).cstr_eq, hpeer.tokensOf_append, h.id.tokensOf_append, h.natIp.tokensOf_append,
    (clean_intToString _).tokensOf_append, h.innerIp.tokensOf_append, (clean_intToString _).tokensOf_eq]
  simp only [introductionOf, EpClient.peerOf, and_self, if_true, intToString, WorkSpan.atoi_printInt]

/-- **What the server answers a `connect` with is read as it was meant.** -/
theorem introductionOf_onConnect {clients_ : List EpClientEntity} {recvAddr_ : SockAddr} {tokens : List Bytes}
    {e : EpClientEntity} (hone : OneEach EpClientEntity.id_ clients_) (hsend : ∀ e ∈ clients_, e.Sendable) :
    introductionOf (cmdConnect :: tokensOf (cstr (onConnect clients_ recvAddr_ tokens))) = some e ↔
      (∃ cmd, tokens = [cmd, e.id_]) ∧ e ∈ clients_ ∧ ∃ self ∈ clients_,
        inet_ntoa recvAddr_.sin_addr = self.natIp_ ∧ portNumber recvAddr_.sin_port = self.natPort_ := by
  have hfailed : introductionOf (cmdConnect :: tokensOf (cstr (ofAscii "failed"))) = none := by decide
  have hregister : introductionOf (cmdConnect :: tokensOf (cstr (ofAscii "not register"))) = none := by decide
  have hexist : introductionOf (cmdConnect :: tokensOf (cstr (ofAscii "not exist"))) = none := by decide
  unfold onConnect
  split
  · rename_i cmd id
    dsimp only
    split
    · rename_i hself
      refine iff_of_false (by simp [hregister]) ?_
      rintro ⟨-, -, self, hmem, hip, hport⟩
      simpa [hip, hport] using List.find?_eq_none.mp hself self hmem
    · rename_i self hself
      have hfound : inet_ntoa recvAddr_.sin_addr = self.natIp_ ∧ portNumber recvAddr_.sin_port = self.natPort_ :=
        of_decide_eq_true (List.find?_some hself :)
      split
      · rename_i hnone
        refine iff_of_false (by simp [hexist]) ?_
        rintro ⟨⟨cmd', heq⟩, hmem, -⟩
        obtain ⟨-, rfl⟩ : cmd = cmd' ∧ id = e.id_ := by simpa using heq
        simpa using List.find?_eq_none.mp hnone e hmem
      · rename_i it hit
        obtain ⟨hmem, rfl⟩ := hone.find?_eq_some.mp hit
        rw [introductionOf_introduce (hsend it hmem), Option.some_inj]
        constructor
        · rintro rfl
          exact ⟨⟨cmd, rfl⟩, hmem, self, List.mem_of_find?_eq_some hself, hfound⟩
        · rintro ⟨⟨cmd', heq⟩, hmem', -⟩
          obtain ⟨-, hid⟩ : cmd = cmd' ∧ it.id_ = e.id_ := by simpa using heq
          exact Option.some.inj ((hone.find?_eq_some.mpr ⟨hmem, hid⟩).symm.trans
            (hone.find?_eq_some.mpr ⟨hmem', rfl⟩))
  · rename_i hother
    refine iff_of_false (by simp [hfailed]) ?_
    rintro ⟨⟨cmd, rfl⟩, -⟩
    exact hother _ _ rfl

/-- A datagram of another command introduces nobody. -/
theorem introductionOf_of_ne {cmd : Bytes} (h : cmd ≠ cmdConnect) (rest : List Bytes) :
    introductionOf (cmd :: rest) = none := by
  cases rest with
  | nil => rfl
  | cons reply tokens => exact if_neg fun hcmd => h hcmd.1

variable {inet_addr : Bytes → InAddr} {clients_ clients' : List EpClientEntity} {d : SockAddr × Bytes}
  {reply : Reply} {buf : JyUdpSendBuf} {e : EpClientEntity}

/-- What is read of an answer. -/
theorem introduction_answer (hsend : JyUdpSelector.sendBuf reply.sockAddr reply.text = some buf) {cmd rest : Bytes}
    (hcmd : Clean cmd) (htext : reply.text = cmd ++ newline :: rest) :
    introduction buf.buf_ = introductionOf (cmd :: tokensOf (cstr rest)) := by
  rw [introduction, JyUdpSelector.recvText_sendBuf hsend, htext, hcmd.cstr_append, cstr_newline,
    hcmd.tokensOf_append]

/-- The command of a datagram is clean. -/
theorem clean_headI (buf_ : Bytes) : Clean (tokensOf (JyUdpSelector.recvText buf_)).headI := by
  refine clean_of_mem_tokensOf (?_ : _ ∈ tokensOf (JyUdpSelector.recvText buf_))
  cases h : tokensOf (JyUdpSelector.recvText buf_) with
  | nil => exact absurd h (List.splitOn_ne_nil newline _)
  | cons token tokens => exact List.mem_cons_self

/-- A relayed text begins with its command as well. -/
theorem text_of_onRelay {recvAddr_ : SockAddr} {tokens : List Bytes}
    (h : onRelay inet_addr recvAddr_ tokens = some reply) :
    ∃ rest, reply.text = tokens.headI ++ newline :: rest := by
  unfold onRelay at h
  split at h
  · dsimp only at h
    split_ifs at h
    rw [← Option.some.inj h]
    exact ⟨_, rfl⟩
  · rw [← Option.some.inj h]
    exact ⟨_, rfl⟩

/-- **An answer introduces a client exactly to a registered asker who names it.** -/
theorem introduction_reply (hone : OneEach EpClientEntity.id_ clients_) (hclients : ∀ e ∈ clients_, e.Sendable)
    (h : onSockRead inet_addr clients_ d.1 d.2 = some (clients', reply))
    (hsend : JyUdpSelector.sendBuf reply.sockAddr reply.text = some buf) :
    introduction buf.buf_ = some e ↔
      tokensOf (JyUdpSelector.recvText d.2) = [cmdConnect, e.id_] ∧ e ∈ clients_ ∧ ∃ self ∈ clients_,
        inet_ntoa d.1.sin_addr = self.natIp_ ∧ portNumber d.1.sin_port = self.natPort_ := by
  have hclean := clean_headI d.2
  have hnot : (tokensOf (JyUdpSelector.recvText d.2)).headI ≠ cmdConnect → introduction buf.buf_ = none →
      (introduction buf.buf_ = some e ↔
        tokensOf (JyUdpSelector.recvText d.2) = [cmdConnect, e.id_] ∧ e ∈ clients_ ∧ ∃ self ∈ clients_,
          inet_ntoa d.1.sin_addr = self.natIp_ ∧ portNumber d.1.sin_port = self.natPort_) := by
    intro hcmd hnone
    refine iff_of_false (by simp [hnone]) ?_
    rintro ⟨heq, -⟩
    exact hcmd (by rw [heq]; rfl)
  rw [onSockRead] at h
  dsimp only at h
  split_ifs at h with halloc hconnect hrelay
  · obtain ⟨-, rfl⟩ := Prod.ext_iff.mp (Option.some.inj h)
    have hcmd : (tokensOf (JyUdpSelector.recvText d.2)).headI ≠ cmdConnect := by
      rw [halloc]
      decide
    exact hnot hcmd (by rw [introduction_answer hsend hclean rfl, introductionOf_of_ne hcmd])
  · obtain ⟨-, rfl⟩ := Prod.ext_iff.mp (Option.some.inj h)
    rw [introduction_answer hsend hclean rfl, hconnect, introductionOf_onConnect hone hclients]
    refine and_congr_left fun _ => ⟨?_, fun heq => ⟨_, heq⟩⟩
    rintro ⟨cmd, heq⟩
    rw [heq] at hconnect ⊢
    exact congrArg (· :: [e.id_]) hconnect
  · obtain ⟨reply', hreply, heq⟩ := Option.map_eq_some_iff.mp h
    obtain ⟨-, rfl⟩ := Prod.ext_iff.mp heq
    have hcmd : (tokensOf (JyUdpSelector.recvText d.2)).headI ≠ cmdConnect := by
      rw [hrelay]
      decide
    refine hnot hcmd ?_
    obtain ⟨rest, htext⟩ := text_of_onRelay hreply
    rw [introduction_answer hsend hclean htext, introductionOf_of_ne hcmd]
  · obtain ⟨-, rfl⟩ := Prod.ext_iff.mp (Option.some.inj h)
    exact hnot hconnect (by rw [introduction_answer hsend hclean rfl, introductionOf_of_ne hconnect])

/-- Only a relayed text goes elsewhere than back. -/
theorem sockAddr_of_onSockRead (h : onSockRead inet_addr clients_ d.1 d.2 = some (clients', reply))
    (hcmd : (tokensOf (JyUdpSelector.recvText d.2)).headI ≠ cmdRelay) : reply.sockAddr = d.1 := by
  rw [onSockRead] at h
  dsimp only at h
  split_ifs at h with halloc hconnect
  all_goals
    obtain ⟨-, rfl⟩ := Prod.ext_iff.mp (Option.some.inj h)
    rfl

/-- All that a server knows is sendable. -/
theorem sendable_of_run {es : List (SockAddr × Bytes)} (h : Run (Serves inet_addr) [] es clients_) :
    ∀ e ∈ clients_, e.Sendable := by
  intro e he
  obtain ⟨before, after, heq, -⟩ := ((registered_of_run h).2 e).mp he
  have hmem : e ∈ es.filterMap registers := heq ▸ List.mem_append_right _ List.mem_cons_self
  obtain ⟨d, -, hd⟩ := List.mem_filterMap.mp hmem
  exact (sendable_of_registers hd).1

/-- The registration of `e` stands after these datagrams: nothing registered its id later. -/
def Stands (es : List (SockAddr × Bytes)) (e : EpClientEntity) : Prop :=
  Latest EpClientEntity.id_ (es.filterMap registers) e

/-- **After any datagrams whatever, the answer to one introduces `e` exactly when it asks for the id of `e`,
the registration of `e` stands, and one that came from the asker's address stands.** -/
theorem introduces_iff {es : List (SockAddr × Bytes)} (hrun : Run (Serves inet_addr) [] es clients_)
    (h : onSockRead inet_addr clients_ d.1 d.2 = some (clients', reply))
    (hsend : JyUdpSelector.sendBuf reply.sockAddr reply.text = some buf) :
    introduction buf.buf_ = some e ↔
      tokensOf (JyUdpSelector.recvText d.2) = [cmdConnect, e.id_] ∧ Stands es e ∧
        ∃ self, Stands es self ∧ ∃ d' ∈ es, registers d' = some self ∧ d'.1 = d.1 := by
  obtain ⟨hone, hmem⟩ := registered_of_run hrun
  rw [introduction_reply hone (sendable_of_run hrun) h hsend, Stands, ← hmem]
  refine and_congr_right fun _ => and_congr_right fun _ => ⟨?_, ?_⟩
  · rintro ⟨self, hself, hip, hport⟩
    have hstands := (hmem self).mp hself
    obtain ⟨before, after, heq, -⟩ := hstands
    have hreg : self ∈ es.filterMap registers := heq ▸ List.mem_append_right _ List.mem_cons_self
    obtain ⟨d', hd', hd'self⟩ := List.mem_filterMap.mp hreg
    obtain ⟨-, hip', hport'⟩ := sendable_of_registers hd'self
    refine ⟨self, (hmem self).mp hself, d', hd', hd'self, ?_⟩
    exact SockAddr.ext (inet_ntoa_injective (hip'.symm.trans hip.symm))
      (portNumber_injective (hport'.symm.trans hport.symm))
  · rintro ⟨self, hself, d', -, hd'self, hsrc⟩
    obtain ⟨-, hip', hport'⟩ := sendable_of_registers hd'self
    exact ⟨self, (hmem self).mpr hself, by rw [hip', hsrc], by rw [hport', hsrc]⟩

theorem introduces_iff_here : ∃ es clients_ clients' reply buf, Run (Serves fun _ => ⟨0, 0, 0, 0⟩) [] es clients_ ∧
    onSockRead (fun _ => ⟨0, 0, 0, 0⟩) clients_ ⟨⟨10, 0, 0, 1⟩, 5001⟩ (ofAscii "connect\nb" ++ [0]) =
      some (clients', reply) ∧
    JyUdpSelector.sendBuf reply.sockAddr reply.text = some buf ∧
    ∀ e, introduction buf.buf_ = some e ↔
      tokensOf (JyUdpSelector.recvText (ofAscii "connect\nb" ++ [0])) = [cmdConnect, e.id_] ∧ Stands es e ∧
        ∃ self, Stands es self ∧ ∃ d' ∈ es, registers d' = some self ∧ d'.1 = ⟨⟨10, 0, 0, 1⟩, 5001⟩ := by
  have h1 := (Run.nil : Run (Serves fun _ => ⟨0, 0, 0, 0⟩) [] [] []).snoc
    (e := (⟨⟨10, 0, 0, 1⟩, 5001⟩, ofAscii "alloc\n10.0.0.1\n5001\na" ++ [0])) ⟨_, rfl⟩
  have h2 := h1.snoc (e := (⟨⟨10, 0, 0, 2⟩, 5001⟩, ofAscii "alloc\n10.0.0.2\n5001\nb" ++ [0])) ⟨_, rfl⟩
  exact ⟨_, _, _, _, _, h2, rfl, rfl, fun e =>
    introduces_iff (d := (⟨⟨10, 0, 0, 1⟩, 5001⟩, ofAscii "connect\nb" ++ [0])) h2 rfl rfl⟩

end EpServer

end EuhatExpert
