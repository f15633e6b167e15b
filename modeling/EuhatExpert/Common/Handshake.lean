import EuhatExpert.Common.JyTcpClient
import EuhatExpert.Common.JyTcpServer
import EuhatExpert.Machinery.Run

/-!
# Common/Handshake — a client and a server of one visit code, over FIFO channels

Each end has a queue of messages and handles the front one; a channel for each direction delivers the
packets in the order they were sent.  Behind the connection's phases (`Phase`) stands one fact: what is
pending for an end, in its queue and on the way, is a path from the cipher it reads with now to the one
its peer writes with now.  So every packet is read with the cipher it was written with, and the client
starts on keys the server has too (`lockstep_of_run`).
-/

namespace EuhatExpert

open Machinery JyTcpEndpoint

namespace Handshake

/-- What the two ends run with.  The plaintexts of the exchange fit a block of the pool, which has 20 MB
at every caller; `hostInfo` is what the server's class adds to its last answer. -/
structure Setup where
  pool : JyBufPool
  cipher : AsymmetricCipher
  md5 : Bytes → Block 16
  visitCode_ : Bytes
  hostInfo : Bytes
  clientCert : Cert
  serverCert : Cert
  room : 4124 ≤ pool.unitSize_
  hostInfo_room : 4 + hostInfo.length ≤ pool.unitSize_

/-- A received packet, and the packet it is. -/
structure Arrived (U : ℕ) where
  sent : Sent
  buf : JyTcpBuf U
  received : buf.received = sent.bytes

/-- A message in the queue of an end. -/
inductive Queued (U : ℕ)
  | msg (m : JyMsgType)
  | packet (a : Arrived U)

/-- The two ends and what is between them; an end without a listener is not connected yet, or not any
more. -/
structure State (U : ℕ) where
  client : Option JyTcpListener
  clientQueue : List (Queued U)
  started : Bool
  server : Option JyTcpListener
  serverQueue : List (Queued U)
  toServer : List Sent
  toClient : List Sent

/-- The client is connected, and the server has not accepted yet. -/
def Setup.init (S : Setup) : State S.pool.unitSize_ where
  client := some (JyTcpListener.new S.clientCert)
  clientQueue := [.msg .JY_MSG_TYPE_SOCK_CONNECT_END]
  started := false
  server := none
  serverQueue := []
  toServer := []
  toClient := []

inductive Event (U : ℕ)
  | accept
  | clientWork (fresh : Fresh U)
  | serverWork (fresh : Fresh U)
  | deliverToClient (a : Arrived U)
  | deliverToServer (a : Arrived U)
  | clientSend (packetType : ℤ) (payload : Bytes) (fresh : Fresh U)
  | serverSend (packetType : ℤ) (payload : Bytes) (fresh : Fresh U)

/-- The client handles the front of its queue. -/
def clientWork (S : Setup) (client : Option JyTcpListener) (fresh : Fresh S.pool.unitSize_) :
    Queued S.pool.unitSize_ → Except Fault Out
  | .msg m => JyTcpClient.onWork S.cipher S.md5 S.visitCode_ client fresh m
  | .packet a => JyTcpClient.onSockRead S.cipher client fresh a.buf

/-- The server handles the front of its queue. -/
def serverWork (S : Setup) (server : Option JyTcpListener) (fresh : Fresh S.pool.unitSize_) :
    Queued S.pool.unitSize_ → Except Fault Out
  | .msg m => .ok (JyTcpServer.onWork server m)
  | .packet a => JyTcpServer.onSockRead S.cipher S.md5 S.visitCode_ S.hostInfo server fresh a.buf

/-- The classes over the ends send packets of their own types: the client's from `USER_START` on, the
server's once it writes with the symmetric cipher. -/
def userPacket (S : Setup) (l : JyTcpListener) (packetType : ℤ) (payload : Bytes)
    (fresh : Fresh S.pool.unitSize_) : Except Fault Sent :=
  transmit S.cipher l fresh.stale packetType (JyDataWriteStream.putBufWithoutLen payload)

/-- A type a derived class may use. -/
def IsUserType (packetType : ℤ) : Prop := JyTcpCmdUser ≤ packetType ∧ packetType < 2 ^ 31

def startsUser {U : ℕ} : Queued U → Bool
  | .msg .JY_MSG_TYPE_USER_START => true
  | _ => false

/-- One step of either end or of a channel. -/
inductive Step (S : Setup) :
    State S.pool.unitSize_ → Event S.pool.unitSize_ → State S.pool.unitSize_ → Prop
  | accept {s} : s.server = none →
      Step S s .accept { s with server := some (JyTcpListener.new S.serverCert) }
  | clientWork {s front rest fresh out} : s.clientQueue = front :: rest →
      clientWork S s.client fresh front = .ok out →
      Step S s (.clientWork fresh) { s with
        client := out.l
        clientQueue := rest ++ out.posted.map .msg
        started := s.started || startsUser front
        toServer := s.toServer ++ out.sent.toList }
  | serverWork {s front rest fresh out} : s.serverQueue = front :: rest →
      serverWork S s.server fresh front = .ok out →
      Step S s (.serverWork fresh) { s with
        server := out.l
        serverQueue := rest ++ out.posted.map .msg
        toClient := s.toClient ++ out.sent.toList }
  | deliverToClient {s a rest} : s.client ≠ none → s.toClient = a.sent :: rest →
      Step S s (.deliverToClient a) { s with
        clientQueue := s.clientQueue ++ [.packet a], toClient := rest }
  | deliverToServer {s a rest} : s.server ≠ none → s.toServer = a.sent :: rest →
      Step S s (.deliverToServer a) { s with
        serverQueue := s.serverQueue ++ [.packet a], toServer := rest }
  | clientSend {s l packetType payload fresh p} : s.client = some l → s.started = true →
      IsUserType packetType → userPacket S l packetType payload fresh = .ok p →
      Step S s (.clientSend packetType payload fresh) { s with toServer := s.toServer ++ [p] }
  | serverSend {s l packetType payload fresh p} : s.server = some l → l.enc_ = .symmetric →
      IsUserType packetType → userPacket S l packetType payload fresh = .ok p →
      Step S s (.serverSend packetType payload fresh) { s with toClient := s.toClient ++ [p] }

/-! ## The property -/

/-- The front of an end's queue, when it is a packet, is decoded with the cipher kind it was encoded with,
to its own type and payload. -/
def DecodesFront (S : Setup) (l : Option JyTcpListener) (queue : List (Queued S.pool.unitSize_)) : Prop :=
  ∀ a rest, queue = .packet a :: rest → ∃ listener, l = some listener ∧
    listener.dec_ = a.sent.kind ∧
      ∀ block, ∃ r, JyTcpEndpoint.onSockRead S.cipher listener a.buf block = .ok (some r) ∧
        r.Carries a.sent

/-- Each end's writing key is the other's reading key. -/
structure KeysAgree (client server : JyTcpListener) : Prop where
  write : client.encSym_ = server.decSym_
  read : client.decSym_ = server.encSym_

/-- Every packet is decoded as it was encoded, and the client starts on agreed keys. -/
structure Lockstep (S : Setup) (s : State S.pool.unitSize_) : Prop where
  client : DecodesFront S s.client s.clientQueue
  server : DecodesFront S s.server s.serverQueue
  start : ∀ rest, s.clientQueue = .msg .JY_MSG_TYPE_USER_START :: rest →
    ∃ client server, s.client = some client ∧ s.server = some server ∧ KeysAgree client server

/-- The asymmetric cipher returns each plaintext of either direction unchanged. -/
structure Setup.Returns (S : Setup) : Prop where
  toClient : S.cipher.Returns (published S.clientCert) (JyTcpListener.new S.clientCert).decAsym_
  toServer : S.cipher.Returns (published S.serverCert) (JyTcpListener.new S.serverCert).decAsym_

/-! ## The listeners of the phases -/

namespace Setup

variable (S : Setup)

/-- A key made of one of the client's buffers. -/
def mask (rnd : Block 2048) : Bytes := xorBytes (S.md5 S.visitCode_).val rnd.val fun _ => 0

/-- The client with the server's certificate. -/
def asymClient : JyTcpListener :=
  { JyTcpListener.new S.clientCert with
    encAsym_ := published S.serverCert
    enc_ := .asymmetric
    dec_ := .asymmetric }

/-- The server with the client's certificate. -/
def asymServer : JyTcpListener :=
  { JyTcpListener.new S.serverCert with
    encAsym_ := published S.clientCert
    enc_ := .asymmetric
    dec_ := .asymmetric }

/-- The client with the keys of its buffers. -/
def keyedClient (rnd rnd' : Block 2048) : JyTcpListener :=
  { S.asymClient with decSym_ := S.mask rnd, encSym_ := S.mask rnd' }

def symClient (rnd rnd' : Block 2048) : JyTcpListener :=
  { S.keyedClient rnd rnd' with enc_ := .symmetric, dec_ := .symmetric }

/-- The server with the keys of the client's buffers. -/
def symServer (rnd rnd' : Block 2048) : JyTcpListener :=
  { S.asymServer with
    encSym_ := S.mask rnd
    decSym_ := S.mask rnd'
    enc_ := .symmetric
    dec_ := .symmetric }

variable {S}

theorem md5_ne_nil (buf : Bytes) : (S.md5 buf).val ≠ [] := by
  rw [← List.length_pos_iff, (S.md5 buf).property]
  norm_num

theorem mask_eq (rnd : Block 2048) (stale : ℕ → UInt8) :
    xorBytes (S.md5 S.visitCode_).val rnd.val stale = S.mask rnd :=
  xorBytes_stale (md5_ne_nil _) _ _ _

theorem mask_ne_nil (rnd : Block 2048) : S.mask rnd ≠ [] := by
  rw [← List.length_pos_iff, mask, length_xorBytes, rnd.property]
  norm_num

end Setup

/-! ## The phases -/

/-- What is pending for an end: a message, or a packet in its queue or on the way. -/
inductive Pending
  | msg (m : JyMsgType)
  | packet (p : Sent)

def Queued.erase {U : ℕ} : Queued U → Pending
  | .msg m => .msg m
  | .packet a => .packet a.sent

/-- The queue of an end and the channel behind it. -/
def pending {U : ℕ} (queue : List (Queued U)) (channel : List Sent) : List Pending :=
  queue.map Queued.erase ++ channel.map .packet

/-- `p` is for a reader `l` when its `dec_` points to `kind`. -/
structure Incoming (S : Setup) (l : JyTcpListener) (kind : CipherKind) (p : Sent) : Prop where
  readable : Readable S.cipher l.decAsym_ l.decSym_ S.pool.unitSize_ p
  kind_eq : p.kind = kind

/-- A packet of a derived class under the symmetric cipher. -/
def IsUser (S : Setup) (l : JyTcpListener) (m : Pending) : Prop :=
  ∃ p, m = .packet p ∧ JyTcpCmdUser ≤ p.packetType ∧ Incoming S l .symmetric p

/-- The payload of the client's second packet. -/
def symBytes (S : Setup) (rnd rnd' : Block 2048) : Bytes :=
  let digest := (S.md5 (S.md5 S.visitCode_).val).val
  putInt 4 rnd.val.length ++ rnd.val ++ (putInt 4 rnd'.val.length ++ rnd'.val ++
    (putInt 4 digest.length ++ digest))

/-- **The phases of a connection**: the two listeners, and what is pending for each end. -/
inductive Phase (S : Setup) :
    Option JyTcpListener → List Pending → Bool → Option JyTcpListener → List Pending → Prop
  /-- The client is about to send its certificate. -/
  | connecting {m server} :
      m = .JY_MSG_TYPE_SOCK_CONNECT_END ∨ m = .JY_MSG_TYPE_SOCK_EXCHANGE_ASYM_SECURITY →
      server = none ∨ server = some (JyTcpListener.new S.serverCert) →
      Phase S (some (JyTcpListener.new S.clientCert)) [.msg m] false server []
  /-- The client's certificate is on the way. -/
  | asymSent {p server} : server = none ∨ server = some (JyTcpListener.new S.serverCert) →
      p.packetType = JyTcpCmdExchangeAsymSecurity → p.payload = certBytes S.clientCert →
      Incoming S (JyTcpListener.new S.serverCert) .clear p →
      Phase S (some (JyTcpListener.new S.clientCert)) [] false server [.packet p]
  /-- The server's certificate is on the way. -/
  | asymAnswered {p} : p.packetType = JyTcpCmdExchangeAsymSecurity →
      p.payload = certBytes S.serverCert → Incoming S (JyTcpListener.new S.clientCert) .clear p →
      Phase S (some (JyTcpListener.new S.clientCert)) [.packet p] false (some S.asymServer) []
  /-- The server's certificate was too short. -/
  | closing {l} : Phase S (some l) [.msg .JY_MSG_TYPE_SOCK_DISCONNECT] false (some S.asymServer) []
  | closed : Phase S none [] false (some S.asymServer) []
  /-- The client is about to send its buffers. -/
  | asymRead : Phase S (some S.asymClient) [.msg .JY_MSG_TYPE_SOCK_EXCHANGE_SYM_SECURITY] false
      (some S.asymServer) []
  /-- The client's buffers are on the way. -/
  | symSent {rnd rnd' p} : p.packetType = JyTcpCmdExchangeSymSecurity →
      p.payload = symBytes S rnd rnd' → Incoming S S.asymServer .asymmetric p →
      Phase S (some (S.keyedClient rnd rnd')) [] false (some S.asymServer) [.packet p]
  /-- The answer to these is on the way. -/
  | symAnswered {rnd rnd' p us} : p.packetType = JyTcpCmdExchangeSymSecurity →
      Incoming S (S.keyedClient rnd rnd') .asymmetric p →
      (∀ u ∈ us, IsUser S (S.symClient rnd rnd') u) →
      Phase S (some (S.keyedClient rnd rnd')) (.packet p :: us) false (some (S.symServer rnd rnd')) []
  /-- The client is about to start. -/
  | symRead {rnd rnd' us us'} : (∀ u ∈ us ++ us', IsUser S (S.symClient rnd rnd') u) →
      Phase S (some (S.symClient rnd rnd')) (us ++ .msg .JY_MSG_TYPE_USER_START :: us') false
        (some (S.symServer rnd rnd')) []
  | started {rnd rnd' us vs} : (∀ u ∈ us, IsUser S (S.symClient rnd rnd') u) →
      (∀ v ∈ vs, IsUser S (S.symServer rnd rnd') v) →
      Phase S (some (S.symClient rnd rnd')) us true (some (S.symServer rnd rnd')) vs

/-! ## What the handlers leave in their phases -/

section Handlers

variable {S : Setup} {stale : ℕ → UInt8} {out : Out}

theorem Incoming.length_lt {l : JyTcpListener} {p : Sent} (h : Incoming S l .clear p) :
    p.payload.length < 2 ^ 31 := by
  obtain ⟨⟨-, ⟨x, -, hlt, hopens⟩, -⟩, hk⟩ := h
  rw [hk] at hopens
  obtain rfl : x = p.payload := hopens
  omega

theorem length_symBytes (rnd rnd' : Block 2048) : (symBytes S rnd rnd').length = 4124 := by
  simp only [symBytes, List.length_append, length_putInt, rnd.property, rnd'.property,
    (S.md5 (S.md5 S.visitCode_).val).property]

/-- The client sends its certificate in clear. -/
theorem client_exchangeAsym
    (h : JyTcpClient.onExchangeAsymSecurity S.cipher stale (.new S.clientCert) = .ok out) :
    ∃ p, out = ⟨some (.new S.clientCert), some p, [], none⟩ ∧
      p.packetType = JyTcpCmdExchangeAsymSecurity ∧ p.payload = certBytes S.clientCert ∧
        Incoming S (.new S.serverCert) .clear p := by
  obtain ⟨p, hp, hout⟩ := exists_of_bind_eq_ok h
  injection hout with hout
  obtain ⟨⟨hk, ht, hpay⟩, hread⟩ := readable_of_transmit
    (agrees_of_clear rfl (JyTcpListener.new S.serverCert).decAsym_ []) (emits_putCert rfl rfl)
    (by decide) (fun h => by cases h) hp
  exact ⟨p, hout.symm, ht, hpay, hread, hk⟩

/-- A certificate that was received in clear can be read from its stream. -/
theorem ahead_cert {l : JyTcpListener} {cert : Cert} {p : Sent} (hpay : p.payload = certBytes cert)
    (hin : Incoming S l .clear p) {r : SockRead} (hr : r.Carries p) :
    let n := JyBigNum.numBytes (JyBigNum.setBuf 0 cert.n)
    n.length < 2 ^ 31 ∧ cert.e.length < 2 ^ 31 ∧ ∃ more, r.ds.Ahead
      (putInt 4 n.length ++ n ++ (putInt 4 cert.e.length ++ cert.e ++ more)) := by
  obtain ⟨more, hahead⟩ := hr.ahead
  have hlen := hin.length_lt
  rw [hpay] at hahead hlen
  simp only [certBytes, List.length_append, length_putInt] at hlen
  rw [certBytes, List.append_assoc] at hahead
  exact ⟨by omega, by omega, more, hahead⟩

/-- The server reads the client's certificate and answers with its own, in clear. -/
theorem server_readAsym {p : Sent} (hpay : p.payload = certBytes S.clientCert)
    (hin : Incoming S (.new S.serverCert) .clear p) {r : SockRead} (hr : r.Carries p)
    (h : JyTcpServer.onReadExchangeAsymSecurity S.cipher stale (.new S.serverCert) r.ds = .ok out) :
    ∃ p', out = ⟨some S.asymServer, some p', [], none⟩ ∧
      p'.packetType = JyTcpCmdExchangeAsymSecurity ∧ p'.payload = certBytes S.serverCert ∧
        Incoming S (.new S.clientCert) .clear p' := by
  obtain ⟨hn, he, more, hahead⟩ := ahead_cert hpay hin hr
  rw [JyTcpServer.onReadExchangeAsymSecurity_eq hn he hahead] at h
  obtain ⟨p', hp', rfl⟩ := exists_of_map_eq_ok h
  obtain ⟨⟨hk, ht, hpay'⟩, hread⟩ := readable_of_transmit
    (agrees_of_clear rfl (JyTcpListener.new S.clientCert).decAsym_ []) (emits_putCert rfl rfl)
    (by decide) (fun h => by cases h) hp'
  exact ⟨p', rfl, ht, hpay', hread, hk⟩

/-- The client reads the server's certificate. -/
theorem client_readAsym {p : Sent} (hpay : p.payload = certBytes S.serverCert)
    (hin : Incoming S (.new S.clientCert) .clear p) {r : SockRead} (hr : r.Carries p)
    (h : JyTcpClient.onReadExchangeAsymSecurity (.new S.clientCert) r.ds = .ok out) :
    out = ⟨some (.new S.clientCert), none, [.JY_MSG_TYPE_SOCK_DISCONNECT], none⟩ ∨
      out = ⟨some S.asymClient, none, [.JY_MSG_TYPE_SOCK_EXCHANGE_SYM_SECURITY], none⟩ := by
  obtain ⟨hn, he, more, hahead⟩ := ahead_cert hpay hin hr
  rw [JyTcpClient.onReadExchangeAsymSecurity_eq hn he hahead] at h
  injection h with h
  subst h
  split_ifs
  · exact .inl rfl
  · exact .inr rfl

/-- The client sends its buffers under the server's certificate. -/
theorem client_exchangeSym (hS : S.Returns) {rnd rnd' : Block 2048}
    (h : JyTcpClient.onExchangeSymSecurity S.cipher S.md5 S.visitCode_ rnd rnd' stale S.asymClient
      = .ok out) :
    ∃ p, out = ⟨some (S.keyedClient rnd rnd'), some p, [], none⟩ ∧
      p.packetType = JyTcpCmdExchangeSymSecurity ∧ p.payload = symBytes S rnd rnd' ∧
        Incoming S S.asymServer .asymmetric p := by
  have hkeys : JyTcpClient.exchangeSym S.md5 S.visitCode_ S.asymClient rnd.val rnd'.val stale
      = S.keyedClient rnd rnd' := by
    rw [JyTcpClient.exchangeSym, Setup.mask_eq, Setup.mask_eq]
    rfl
  rw [JyTcpClient.onExchangeSymSecurity, hkeys] at h
  obtain ⟨p, hp, hout⟩ := exists_of_bind_eq_ok h
  injection hout with hout
  have hbody := (JyDataWriteStream.emits_putBuf 4 rnd.val).bind (f := fun _ => do
    JyDataWriteStream.putBuf 4 rnd'.val
    JyDataWriteStream.putBuf 4 (S.md5 (S.md5 S.visitCode_).val).val)
    ((JyDataWriteStream.emits_putBuf 4 rnd'.val).bind (JyDataWriteStream.emits_putBuf 4 _))
  have hagrees : Agrees S.cipher (S.keyedClient rnd rnd') S.asymServer.decAsym_ [] := hS.toServer
  obtain ⟨⟨hk, ht, hpay⟩, hread⟩ := readable_of_transmit hagrees hbody (by decide)
    (fun _ => (length_symBytes rnd rnd').trans_le S.room) hp
  exact ⟨p, hout.symm, ht, hpay, hread, hk⟩

/-- The server reads the client's buffers, whose digest matches, and answers under the client's
certificate. -/
theorem server_readSym (hS : S.Returns) {rnd rnd' rnd'' : Block 2048} {p : Sent}
    (hpay : p.payload = symBytes S rnd rnd') {r : SockRead} (hr : r.Carries p)
    (h : JyTcpServer.onReadExchangeSymSecurity S.cipher S.md5 S.visitCode_ S.hostInfo rnd'' stale
      S.asymServer r.ds = .ok out) :
    ∃ p', out = ⟨some (S.symServer rnd rnd'), some p', [], none⟩ ∧
      p'.packetType = JyTcpCmdExchangeSymSecurity ∧
        Incoming S (S.keyedClient rnd rnd') .asymmetric p' := by
  obtain ⟨more, hahead⟩ := hr.ahead
  rw [hpay, symBytes, List.append_assoc, List.append_assoc _ _ more] at hahead
  have hdigest := (S.md5 (S.md5 S.visitCode_).val).property
  rw [JyTcpServer.onReadExchangeSymSecurity_eq (by rw [rnd.property]; norm_num)
    (by rw [rnd'.property]; norm_num) (by rw [hdigest]; norm_num) hahead] at h
  obtain ⟨p', hp', rfl⟩ := exists_of_map_eq_ok h
  have hkeys : JyTcpServer.exchangeSym S.md5 S.visitCode_ S.asymServer rnd''.val rnd.val rnd'.val
      (S.md5 (S.md5 S.visitCode_).val).val stale
      = { S.asymServer with encSym_ := S.mask rnd, decSym_ := S.mask rnd' } := by
    rw [JyTcpServer.exchangeSym, if_pos rfl, Setup.mask_eq, Setup.mask_eq]
  rw [hkeys] at hp' ⊢
  have hbody := (JyDataWriteStream.emits_put 4 1).bind
    (f := fun _ => JyDataWriteStream.putBufWithoutLen S.hostInfo)
    (JyDataWriteStream.emits_putBufWithoutLen S.hostInfo)
  have hagrees : Agrees S.cipher
      { S.asymServer with encSym_ := S.mask rnd, decSym_ := S.mask rnd' }
      (S.keyedClient rnd rnd').decAsym_ (S.keyedClient rnd rnd').decSym_ := hS.toClient
  rw [if_pos rfl] at hp'
  have hfits : (putInt 4 1 ++ S.hostInfo).length ≤ S.pool.unitSize_ := by
    rw [List.length_append, length_putInt]
    exact S.hostInfo_room
  obtain ⟨⟨hk, ht, -⟩, hread⟩ := readable_of_transmit hagrees hbody (by decide)
    (fun _ => hfits) hp'
  exact ⟨p', rfl, ht, hread, hk⟩

/-- A packet of a derived class under agreed keys. -/
theorem isUser_of_userPacket {l l' : JyTcpListener} (henc : l.enc_ = .symmetric)
    (hkey : l.encSym_ = l'.decSym_) (hne : l'.decSym_ ≠ []) {packetType : ℤ} {payload : Bytes}
    {fresh : Fresh S.pool.unitSize_} {p : Sent} (ht : IsUserType packetType)
    (hp : userPacket S l packetType payload fresh = .ok p) : IsUser S l' (.packet p) := by
  have hagrees : Agrees S.cipher l l'.decAsym_ l'.decSym_ := by
    rw [Agrees, henc]
    exact ⟨hkey, hne⟩
  have hrange : -2 ^ 31 ≤ packetType ∧ packetType < 2 ^ 31 := by
    obtain ⟨h₀, h₁⟩ := ht
    rw [JyTcpCmdUser] at h₀
    omega
  have hfits : l.enc_ = .asymmetric → payload.length ≤ S.pool.unitSize_ := fun h => by
    rw [henc] at h
    cases h
  obtain ⟨⟨hk, htype, -⟩, hread⟩ := readable_of_transmit hagrees
    (JyDataWriteStream.emits_putBufWithoutLen payload) hrange hfits hp
  exact ⟨p, rfl, htype ▸ ht.1, hread, hk.trans henc⟩

end Handlers

namespace Phase

variable {S : Setup} {client server : Option JyTcpListener} {p : Sent} {pend q f ps : List Pending}
  {b : Bool}

/-- **The front packet of the client is for its `dec_`.** -/
theorem client_incoming (h : Phase S client (.packet p :: pend) b server ps) :
    ∃ l, client = some l ∧ Incoming S l l.dec_ p := by
  generalize hp : Pending.packet p :: pend = pc at h
  cases h with
  | connecting => injection hp with hp; cases hp
  | asymSent => cases hp
  | closing => injection hp with hp; cases hp
  | closed => cases hp
  | asymRead => injection hp with hp; cases hp
  | symSent => cases hp
  | asymAnswered _ _ hin =>
    injection hp with hp
    injection hp with hp
    exact ⟨_, rfl, hp ▸ hin⟩
  | symAnswered _ hin _ =>
    injection hp with hp
    injection hp with hp
    exact ⟨_, rfl, hp ▸ hin⟩
  | @symRead _ _ us us' hus =>
    cases us with
    | nil => injection hp with hp; cases hp
    | cons u us =>
      injection hp with hp
      obtain ⟨p', hp', -, hin⟩ := hus u List.mem_cons_self
      injection hp.trans hp' with hp'
      exact ⟨_, rfl, hp' ▸ hin⟩
  | started hus _ =>
    obtain ⟨p', hp', -, hin⟩ := hus (.packet p) (hp ▸ List.mem_cons_self)
    injection hp' with hp'
    exact ⟨_, rfl, hp' ▸ hin⟩

/-- **The front packet of the server is for its `dec_`.** -/
theorem server_incoming {l : JyTcpListener} (h : Phase S client pend b (some l) (.packet p :: ps)) :
    Incoming S l l.dec_ p := by
  generalize hl : some l = sv at h
  generalize hp : Pending.packet p :: ps = pc at h
  cases h with
  | connecting => cases hp
  | asymAnswered => cases hp
  | closing => cases hp
  | closed => cases hp
  | asymRead => cases hp
  | symAnswered => cases hp
  | symRead => cases hp
  | asymSent hsv _ _ hin =>
    injection hp with hp
    injection hp with hp
    obtain rfl | rfl := hsv
    · cases hl
    · injection hl with hl
      rw [hl, hp]
      exact hin
  | symSent _ _ hin =>
    injection hp with hp
    injection hp with hp
    injection hl with hl
    rw [hl, hp]
    exact hin
  | started _ hvs =>
    obtain ⟨p', hp', -, hin⟩ := hvs (.packet p) (hp ▸ List.mem_cons_self)
    injection hp' with hp'
    injection hl with hl
    rw [hl, hp']
    exact hin

/-! ### One step of an end -/

variable {fresh : Fresh S.pool.unitSize_} {out : Out}

/-- **The client handles a message.** -/
theorem client_msg (hS : S.Returns) {m : JyMsgType}
    (h : Phase S client (.msg m :: (q ++ f)) b server ps)
    (hw : JyTcpClient.onWork S.cipher S.md5 S.visitCode_ client fresh m = .ok out) :
    Phase S out.l (q ++ out.posted.map .msg ++ f)
      (b || decide (m = .JY_MSG_TYPE_USER_START)) server (ps ++ out.sent.toList.map .packet) := by
  generalize hp : Pending.msg m :: (q ++ f) = pc at h
  cases h with
  | @connecting m' _ hm hsv =>
    injection hp with hm' hqf
    injection hm' with hm'
    obtain ⟨rfl, rfl⟩ := List.append_eq_nil_iff.mp hqf
    subst hm'
    obtain rfl | rfl := hm
    · injection hw with hw
      subst hw
      exact .connecting (.inr rfl) hsv
    · obtain ⟨p, rfl, htype, hpay, hin⟩ := client_exchangeAsym hw
      exact .asymSent hsv htype hpay hin
  | asymSent => cases hp
  | asymAnswered => injection hp with hp; cases hp
  | closing =>
    injection hp with hm hqf
    injection hm with hm
    obtain ⟨rfl, rfl⟩ := List.append_eq_nil_iff.mp hqf
    subst hm
    injection hw with hw
    subst hw
    exact .closed
  | closed => cases hp
  | asymRead =>
    injection hp with hm hqf
    injection hm with hm
    obtain ⟨rfl, rfl⟩ := List.append_eq_nil_iff.mp hqf
    subst hm
    obtain ⟨p, rfl, htype, hpay, hin⟩ := client_exchangeSym hS hw
    exact .symSent htype hpay hin
  | symSent => cases hp
  | symAnswered => injection hp with hp; cases hp
  | @symRead _ _ us us' hus =>
    cases us with
    | nil =>
      injection hp with hm hqf
      injection hm with hm
      subst hm hqf
      injection hw with hw
      subst hw
      rw [List.map_nil, List.append_nil]
      exact .started hus (fun v hv => by cases hv)
    | cons u us =>
      injection hp with hu
      obtain ⟨p, hp, -⟩ := hus u List.mem_cons_self
      cases hu.trans hp
  | started hus =>
    obtain ⟨p, hp', -⟩ := hus (.msg m) (hp ▸ List.mem_cons_self)
    cases hp'

/-- The types of derived classes are not those of the exchange. -/
theorem user_ne {t : ℤ} (h : JyTcpCmdUser ≤ t) :
    t ≠ JyTcpCmdExchangeAsymSecurity ∧ t ≠ JyTcpCmdExchangeSymSecurity := by
  rw [JyTcpCmdUser] at h
  rw [JyTcpCmdExchangeAsymSecurity, JyTcpCmdExchangeSymSecurity]
  omega

/-- **The client handles a packet.** -/
theorem client_packet {a : Arrived S.pool.unitSize_}
    (h : Phase S client (.packet a.sent :: (q ++ f)) b server ps)
    (hw : JyTcpClient.onSockRead S.cipher client fresh a.buf = .ok out) :
    Phase S out.l (q ++ out.posted.map .msg ++ f) b server (ps ++ out.sent.toList.map .packet) := by
  obtain ⟨l, rfl, hin⟩ := h.client_incoming
  obtain ⟨r, hr, hc⟩ := onSockRead_eq hin.readable hin.kind_eq.symm a.received fresh.block
  rw [JyTcpClient.onSockRead, hr] at hw
  dsimp only at hw
  rw [hc.packetType] at hw
  generalize hl : some l = cl at h
  generalize hp : Pending.packet a.sent :: (q ++ f) = pc at h
  cases h with
  | connecting => injection hp with hp; cases hp
  | asymSent => cases hp
  | closing => injection hp with hp; cases hp
  | closed => cases hp
  | asymRead => injection hp with hp; cases hp
  | symSent => cases hp
  | asymAnswered htype hpay hclear =>
    injection hp with hpk hqf
    injection hpk with hpk
    injection hl with hl
    obtain ⟨rfl, rfl⟩ := List.append_eq_nil_iff.mp hqf
    subst hl hpk
    rw [if_pos htype] at hw
    obtain rfl | rfl := client_readAsym hpay hclear hc hw
    · exact .closing
    · exact .asymRead
  | symAnswered htype hasym hus =>
    injection hp with hpk hqf
    injection hpk with hpk
    injection hl with hl
    subst hl hpk hqf
    rw [htype, if_neg (by decide), if_pos rfl] at hw
    injection hw with hw
    subst hw
    rw [List.append_assoc]
    exact .symRead hus
  | @symRead _ _ us us' hus =>
    injection hl with hl
    subst hl
    cases us with
    | nil => injection hp with hp; cases hp
    | cons u us =>
      injection hp with hpk hqf
      obtain ⟨p, hp, hu, -⟩ := hus u List.mem_cons_self
      injection hpk.trans hp with hp
      rw [hp, if_neg (user_ne hu).1, if_neg (user_ne hu).2] at hw
      injection hw with hw
      subst hw
      rw [List.map_nil, List.append_nil, hqf]
      exact .symRead fun u hu => hus u (List.mem_cons_of_mem _ hu)
  | started hus hvs =>
    injection hl with hl
    subst hl hp
    obtain ⟨p, hp, hu, -⟩ := hus _ List.mem_cons_self
    injection hp with hp
    rw [hp, if_neg (user_ne hu).1, if_neg (user_ne hu).2] at hw
    injection hw with hw
    subst hw
    rw [List.map_nil, List.append_nil]
    exact .started (fun u hu => hus u (List.mem_cons_of_mem _ hu)) (by simpa using hvs)

/-- **The server handles a packet.** -/
theorem server_packet (hS : S.Returns) {a : Arrived S.pool.unitSize_} {l : JyTcpListener}
    (h : Phase S client pend b (some l) (.packet a.sent :: ps))
    (hw : JyTcpServer.onSockRead S.cipher S.md5 S.visitCode_ S.hostInfo (some l) fresh a.buf
      = .ok out) :
    out.posted = [] ∧ out.l ≠ none ∧ Phase S client (pend ++ out.sent.toList.map .packet) b out.l ps := by
  have hin := h.server_incoming
  obtain ⟨r, hr, hc⟩ := onSockRead_eq hin.readable hin.kind_eq.symm a.received fresh.block
  rw [JyTcpServer.onSockRead, hr] at hw
  dsimp only at hw
  rw [hc.packetType] at hw
  generalize hl : some l = sv at h
  generalize hp : Pending.packet a.sent :: ps = pc at h
  cases h with
  | connecting => cases hp
  | asymAnswered => cases hp
  | closing => cases hp
  | closed => cases hp
  | asymRead => cases hp
  | symAnswered => cases hp
  | symRead => cases hp
  | asymSent hsv htype hpay hclear =>
    injection hp with hpk hps
    injection hpk with hpk
    subst hpk hps
    obtain rfl | rfl := hsv
    · cases hl
    · injection hl with hl
      subst hl
      rw [if_pos htype] at hw
      obtain ⟨p', rfl, htype', hpay', hin'⟩ := server_readAsym hpay hclear hc hw
      exact ⟨rfl, Option.some_ne_none _, .asymAnswered htype' hpay' hin'⟩
  | symSent htype hpay hasym =>
    injection hp with hpk hps
    injection hpk with hpk
    injection hl with hl
    subst hpk hps hl
    rw [htype, if_neg (by decide), if_pos rfl] at hw
    obtain ⟨p', rfl, htype', hin'⟩ := server_readSym hS hpay hc hw
    exact ⟨rfl, Option.some_ne_none _, .symAnswered htype' hin' (by simp)⟩
  | started hus hvs =>
    injection hl with hl
    subst hl hp
    obtain ⟨p, hp, hu, -⟩ := hvs _ List.mem_cons_self
    injection hp with hp
    rw [hp, if_neg (user_ne hu).1, if_neg (user_ne hu).2] at hw
    injection hw with hw
    subst hw
    exact ⟨rfl, Option.some_ne_none _, .started (by simpa using hus) fun v hv => hvs v (List.mem_cons_of_mem _ hv)⟩

/-- The server has no message of its own. -/
theorem not_server_msg {m : JyMsgType} : ¬ Phase S client pend b server (.msg m :: ps) := by
  intro h
  generalize hp : Pending.msg m :: ps = pc at h
  cases h with
  | asymSent => injection hp with hp; cases hp
  | symSent => injection hp with hp; cases hp
  | started _ hvs =>
    obtain ⟨p, hp', -⟩ := hvs (.msg m) (hp ▸ List.mem_cons_self)
    cases hp'
  | _ => cases hp

/-- **At the client's start the keys agree.** -/
theorem start (h : Phase S client (.msg .JY_MSG_TYPE_USER_START :: pend) b server ps) :
    ∃ cl sv, client = some cl ∧ server = some sv ∧ KeysAgree cl sv := by
  generalize hp : Pending.msg .JY_MSG_TYPE_USER_START :: pend = pc at h
  cases h with
  | connecting hm =>
    injection hp with hp
    injection hp with hp
    obtain rfl | rfl := hm <;> cases hp
  | asymSent => cases hp
  | asymAnswered => injection hp with hp; cases hp
  | closing => injection hp with hp; cases hp
  | closed => cases hp
  | asymRead => injection hp with hp; cases hp
  | symSent => cases hp
  | symAnswered => injection hp with hp; cases hp
  | symRead => exact ⟨_, _, rfl, rfl, rfl, rfl⟩
  | started => exact ⟨_, _, rfl, rfl, rfl, rfl⟩

/-! ### Acceptance and the packets of derived classes -/

/-- A server that has not accepted is ready to. -/
theorem accept (h : Phase S client pend b none ps) :
    Phase S client pend b (some (.new S.serverCert)) ps := by
  generalize hs : (none : Option JyTcpListener) = sv at h
  cases h with
  | connecting hm _ => exact .connecting hm (.inr rfl)
  | asymSent _ htype hpay hin => exact .asymSent (.inr rfl) htype hpay hin
  | _ => cases hs

theorem client_send {l : JyTcpListener} (h : Phase S (some l) pend true server ps) {packetType : ℤ}
    {payload : Bytes} (ht : IsUserType packetType)
    (hp : userPacket S l packetType payload fresh = .ok p) :
    Phase S (some l) pend true server (ps ++ [.packet p]) := by
  generalize hl : some l = cl at h
  generalize hb : true = b at h
  cases h with
  | started hus hvs =>
    injection hl with hl
    subst hl
    refine .started hus fun v hv => ?_
    obtain hv | hv := List.mem_append.mp hv
    · exact hvs v hv
    · rw [List.mem_singleton.mp hv]
      exact isUser_of_userPacket rfl rfl (Setup.mask_ne_nil _) ht hp
  | _ => cases hb

theorem server_send {l : JyTcpListener} (h : Phase S client pend b (some l) ps)
    (henc : l.enc_ = .symmetric) {packetType : ℤ} {payload : Bytes} (ht : IsUserType packetType)
    (hp : userPacket S l packetType payload fresh = .ok p) :
    Phase S client (pend ++ [.packet p]) b (some l) ps := by
  have key : ∀ rnd rnd' us, l = S.symServer rnd rnd' →
      (∀ u ∈ us, IsUser S (S.symClient rnd rnd') u) →
      ∀ u ∈ us ++ [.packet p], IsUser S (S.symClient rnd rnd') u := by
    rintro rnd rnd' us rfl hus u hu
    obtain hu | hu := List.mem_append.mp hu
    · exact hus u hu
    · rw [List.mem_singleton.mp hu]
      exact isUser_of_userPacket rfl rfl (Setup.mask_ne_nil _) ht hp
  generalize hl : some l = sv at h
  cases h with
  | connecting _ hsv =>
    obtain rfl | rfl := hsv
    · cases hl
    · injection hl with hl
      rw [hl] at henc
      cases henc
  | asymSent hsv =>
    obtain rfl | rfl := hsv
    · cases hl
    · injection hl with hl
      rw [hl] at henc
      cases henc
  | symAnswered htype hin hus =>
    injection hl with hl
    subst hl
    exact .symAnswered htype hin (key _ _ _ rfl hus)
  | symRead hus =>
    injection hl with hl
    subst hl
    rw [List.append_assoc, List.cons_append]
    refine .symRead ?_
    rw [← List.append_assoc]
    exact key _ _ _ rfl hus
  | started hus hvs =>
    injection hl with hl
    subst hl
    exact .started (key _ _ _ rfl hus) hvs
  | _ =>
    injection hl with hl
    rw [hl] at henc
    cases henc

end Phase

/-! ## Runs -/

variable {S : Setup} {s s' : State S.pool.unitSize_} {e : Event S.pool.unitSize_}

/-- The phase of a state, and nothing in the queue of a server that has not accepted. -/
structure Invariant (S : Setup) (s : State S.pool.unitSize_) : Prop where
  phase : Phase S s.client (pending s.clientQueue s.toClient) s.started s.server
    (pending s.serverQueue s.toServer)
  idle : s.server = none → s.serverQueue = []

theorem pending_cons {U : ℕ} (front : Queued U) (rest : List (Queued U)) (channel : List Sent) :
    pending (front :: rest) channel = front.erase :: pending rest channel := rfl

theorem pending_posted {U : ℕ} (queue : List (Queued U)) (posted : List JyMsgType)
    (channel : List Sent) : pending (queue ++ posted.map .msg) channel
      = queue.map Queued.erase ++ posted.map .msg ++ channel.map .packet := by
  simp [pending, Queued.erase]

theorem pending_sent {U : ℕ} (queue : List (Queued U)) (channel sent : List Sent) :
    pending queue (channel ++ sent) = pending queue channel ++ sent.map .packet := by
  simp [pending]

theorem pending_delivered {U : ℕ} (queue : List (Queued U)) (a : Arrived U) (channel : List Sent) :
    pending (queue ++ [.packet a]) channel = pending queue (a.sent :: channel) := by
  simp [pending, Queued.erase]

theorem invariant_init : Invariant S S.init :=
  ⟨.connecting (.inl rfl) (.inl rfl), fun _ => rfl⟩

/-- **Every step leads from a phase to a phase.** -/
theorem invariant_step (hS : S.Returns) (hI : Invariant S s) (hstep : Step S s e s') :
    Invariant S s' := by
  obtain ⟨hphase, hidle⟩ := hI
  cases hstep with
  | accept hnone =>
    rw [hnone] at hphase
    exact ⟨hphase.accept, fun h => by cases h⟩
  | @clientWork front rest fresh out hq hw =>
    refine ⟨?_, hidle⟩
    rw [hq, pending_cons] at hphase
    rw [pending_posted, pending_sent]
    cases front with
    | msg m =>
      have hstart : startsUser (.msg m : Queued S.pool.unitSize_)
          = decide (m = .JY_MSG_TYPE_USER_START) := by cases m <;> rfl
      rw [hstart]
      exact hphase.client_msg hS hw
    | packet a =>
      have hstart : startsUser (.packet a) = false := rfl
      rw [hstart, Bool.or_false]
      exact hphase.client_packet hw
  | @serverWork front rest fresh out hq hw =>
    rw [hq, pending_cons] at hphase
    cases front with
    | msg m => exact absurd hphase Phase.not_server_msg
    | packet a =>
      cases hsv : s.server with
      | none =>
        rw [hidle hsv] at hq
        cases hq
      | some l =>
        rw [hsv] at hphase hw
        obtain ⟨hposted, hsome, hphase⟩ := hphase.server_packet hS hw
        refine ⟨?_, fun h => absurd h hsome⟩
        rwa [hposted, List.map_nil, List.append_nil, pending_sent]
  | deliverToClient _ hchan =>
    refine ⟨?_, hidle⟩
    rw [hchan] at hphase
    rwa [pending_delivered]
  | deliverToServer hsome hchan =>
    refine ⟨?_, fun h => absurd h hsome⟩
    rw [hchan] at hphase
    rwa [pending_delivered]
  | @clientSend l _ _ _ p hl hstarted ht hp =>
    refine ⟨?_, hidle⟩
    rw [hl, hstarted] at hphase
    rw [hl, hstarted, pending_sent]
    exact hphase.client_send ht hp
  | @serverSend l _ _ _ p hl henc ht hp =>
    refine ⟨?_, fun h => by rw [hl] at h; cases h⟩
    rw [hl] at hphase
    rw [hl, pending_sent]
    exact hphase.server_send henc ht hp

/-- What a queue's front packet is decoded to, when it is for its reader. -/
theorem decodesFront {l : Option JyTcpListener} {queue : List (Queued S.pool.unitSize_)}
    (h : ∀ a rest, queue = .packet a :: rest → ∃ listener, l = some listener ∧
      Incoming S listener listener.dec_ a.sent) : DecodesFront S l queue := by
  intro a rest hq
  obtain ⟨listener, hl, hin⟩ := h a rest hq
  exact ⟨listener, hl, hin.kind_eq.symm,
    fun block => onSockRead_eq hin.readable hin.kind_eq.symm a.received block⟩

theorem Invariant.lockstep (h : Invariant S s) : Lockstep S s := by
  obtain ⟨hphase, hidle⟩ := h
  refine ⟨decodesFront fun a rest hq => ?_, decodesFront fun a rest hq => ?_, fun rest hq => ?_⟩
  · rw [hq, pending_cons] at hphase
    exact hphase.client_incoming
  · cases hsv : s.server with
    | none =>
      rw [hidle hsv] at hq
      cases hq
    | some l =>
      rw [hq, pending_cons, hsv] at hphase
      exact ⟨l, rfl, hphase.server_incoming⟩
  · rw [hq, pending_cons] at hphase
    exact hphase.start

/-- **Lockstep and key agreement in every state of every run**: the ends and the channels take their
steps in any order, with any random buffers. -/
theorem lockstep_of_run (S : Setup) (hS : S.Returns) {es : List (Event S.pool.unitSize_)}
    {s : State S.pool.unitSize_} (h : Run (Step S) S.init es s) : Lockstep S s :=
  (h.invariant invariant_init fun _ _ _ hI hstep => invariant_step hS hI hstep).lockstep

/-- A cipher that leaves its plaintext as it is. -/
def plain : AsymmetricCipher where
  encrypt _ buf := JyDataWriteStream.putBufWithoutLen buf
  decrypt _ mem len := do
    JyDataWriteStream.putBufWithoutLen (mem.take len.toNat)
    pure true

theorem plain_returns (enc : JyDataEncryptAsymmetric) (dec : JyDataDecryptAsymmetric) :
    plain.Returns enc dec := by
  refine fun payload => ⟨payload, JyDataWriteStream.emits_putBufWithoutLen _, fun stale => ?_⟩
  have h := (JyDataWriteStream.emits_putBufWithoutLen payload).bind
    (f := fun _ => pure true) (JyDataWriteStream.emits_pure true)
  rw [List.append_nil] at h
  simpa [plain] using h

/-- Ends with certificates of ten bytes. -/
def plainSetup : Setup where
  pool := ⟨8192, by norm_num⟩
  cipher := plain
  md5 _ := ⟨List.replicate 16 7, by decide⟩
  visitCode_ := [1, 2, 3]
  hostInfo := []
  clientCert := ⟨List.replicate 10 5, [1], [1]⟩
  serverCert := ⟨List.replicate 10 6, [1], [1]⟩
  room := by norm_num
  hostInfo_room := by norm_num

def zeroFresh : Fresh plainSetup.pool.unitSize_ where
  block := ⟨List.replicate 8192 0, List.length_replicate⟩
  stale _ := 0
  rnd := ⟨List.replicate 2048 0, List.length_replicate⟩
  rnd' := ⟨List.replicate 2048 0, List.length_replicate⟩

/-! ## A handshake that goes through -/

/-- What `plain` makes of a packet. -/
theorem transmit_plain {l : JyTcpListener} (henc : l.enc_ ≠ .symmetric) {body : WriteM Unit} {payload : Bytes}
    (hbody : JyDataWriteStream.Emits body payload (.ok ())) (hlen : 8 + payload.length < 2 ^ 31) (stale : ℕ → UInt8)
    (packetType : ℤ) : transmit plain l stale packetType body
      = .ok ⟨frame packetType payload, l.enc_, packetType, payload⟩ := by
  refine transmit_of_emits hbody hlen ?_ hlen
  rw [JyTcpListener.encrypt]
  cases hk : l.enc_ with
  | symmetric => exact absurd hk henc
  | _ => exact JyDataWriteStream.emits_putBufWithoutLen payload

/-- A packet in a block of zeros. -/
def arrived (p : Sent) (h : p.bytes.length ≤ (JyTcpBuf.ofBlock zeroFresh.block).roomLeft) :
    Arrived plainSetup.pool.unitSize_ where
  sent := p
  buf := (JyTcpBuf.ofBlock zeroFresh.block).recv p.bytes h
  received := by rw [JyTcpBuf.received_recv, JyTcpBuf.received_ofBlock, List.nil_append]

/-- The two certificates on the way, the buffers, and the answer to them. -/
def asymPacket (cert : Cert) : Sent :=
  ⟨frame JyTcpCmdExchangeAsymSecurity (certBytes cert), .clear, JyTcpCmdExchangeAsymSecurity, certBytes cert⟩

def symPacket (rnd rnd' : Block 2048) : Sent :=
  ⟨frame JyTcpCmdExchangeSymSecurity (symBytes plainSetup rnd rnd'), .asymmetric, JyTcpCmdExchangeSymSecurity,
    symBytes plainSetup rnd rnd'⟩

def symAck : Sent :=
  ⟨frame JyTcpCmdExchangeSymSecurity (putInt 4 1), .asymmetric, JyTcpCmdExchangeSymSecurity, putInt 4 1⟩

theorem length_certBytes_client : (certBytes plainSetup.clientCert).length = 19 := by decide +kernel

theorem length_certBytes_server : (certBytes plainSetup.serverCert).length = 19 := by decide +kernel

/-- What waits at the front of an end is decoded. -/
theorem reads_of_run {es : List (Event plainSetup.pool.unitSize_)} {s : State plainSetup.pool.unitSize_}
    (h : Run (Step plainSetup) plainSetup.init es s) :
    DecodesFront plainSetup s.client s.clientQueue ∧ DecodesFront plainSetup s.server s.serverQueue := by
  have hreturns : plainSetup.Returns := ⟨plain_returns _ _, plain_returns _ _⟩
  have hlockstep := (h.invariant invariant_init fun _ _ _ hI hstep => invariant_step hreturns hI hstep).lockstep
  exact ⟨hlockstep.client, hlockstep.server⟩

/-- An end writes its certificate in clear. -/
theorem transmit_cert {l : JyTcpListener} {cert : Cert} (henc : l.enc_ = .clear)
    (hlen : (certBytes cert).length = 19) (stale : ℕ → UInt8) :
    transmit plain l stale JyTcpCmdExchangeAsymSecurity (putCert (.new cert)) = .ok (asymPacket cert) := by
  rw [transmit_plain (by rw [henc]; decide) (emits_putCert rfl rfl) (by rw [hlen]; norm_num), henc]
  rfl

/-- A certificate that was read stands in its stream. -/
theorem ahead_asymPacket {cert : Cert} {r : SockRead} (hr : r.Carries (asymPacket cert)) :
    let n := JyBigNum.numBytes (JyBigNum.setBuf 0 cert.n)
    ∃ more, r.ds.Ahead (putInt 4 n.length ++ n ++ (putInt 4 cert.e.length ++ cert.e ++ more)) := by
  obtain ⟨more, hahead⟩ := hr.ahead
  rw [asymPacket, certBytes, List.append_assoc] at hahead
  exact ⟨more, hahead⟩

section Answers

variable {r : SockRead} {stale : ℕ → UInt8} {rnd rnd' : Block 2048}

/-- The server answers the client's certificate. -/
theorem server_answersAsym (hr : r.Carries (asymPacket plainSetup.clientCert)) :
    JyTcpServer.onReadExchangeAsymSecurity plain stale (.new plainSetup.serverCert) r.ds
      = .ok ⟨some plainSetup.asymServer, some (asymPacket plainSetup.serverCert), [], none⟩ := by
  obtain ⟨more, hahead⟩ := ahead_asymPacket hr
  rw [JyTcpServer.onReadExchangeAsymSecurity_eq (by decide +kernel) (by decide +kernel) hahead,
    transmit_cert rfl length_certBytes_server]
  rfl

/-- The client takes the server's certificate. -/
theorem client_takesAsym (hr : r.Carries (asymPacket plainSetup.serverCert)) :
    JyTcpClient.onReadExchangeAsymSecurity (.new plainSetup.clientCert) r.ds
      = .ok ⟨some plainSetup.asymClient, none, [.JY_MSG_TYPE_SOCK_EXCHANGE_SYM_SECURITY], none⟩ := by
  obtain ⟨more, hahead⟩ := ahead_asymPacket hr
  rw [JyTcpClient.onReadExchangeAsymSecurity_eq (by decide +kernel) (by decide +kernel) hahead,
    if_neg (by decide +kernel)]
  rfl

/-- The client sends its buffers. -/
theorem client_sendsSym : JyTcpClient.onExchangeSymSecurity plain plainSetup.md5 plainSetup.visitCode_ rnd
    rnd' stale plainSetup.asymClient
      = .ok ⟨some (plainSetup.keyedClient rnd rnd'), some (symPacket rnd rnd'), [], none⟩ := by
  have hkeys : JyTcpClient.exchangeSym plainSetup.md5 plainSetup.visitCode_ plainSetup.asymClient rnd.val
      rnd'.val stale = plainSetup.keyedClient rnd rnd' := by
    rw [JyTcpClient.exchangeSym, Setup.mask_eq, Setup.mask_eq]
    rfl
  have hbody := (JyDataWriteStream.emits_putBuf 4 rnd.val).bind (f := fun _ => do
    JyDataWriteStream.putBuf 4 rnd'.val
    JyDataWriteStream.putBuf 4 (plainSetup.md5 (plainSetup.md5 plainSetup.visitCode_).val).val)
    ((JyDataWriteStream.emits_putBuf 4 rnd'.val).bind (JyDataWriteStream.emits_putBuf 4 _))
  have hlen : 8 + (symBytes plainSetup rnd rnd').length < 2 ^ 31 := by
    rw [length_symBytes]
    norm_num
  rw [JyTcpClient.onExchangeSymSecurity, hkeys, transmit_plain (show CipherKind.asymmetric ≠ .symmetric by decide) hbody
    hlen]
  rfl

/-- The server answers the client's buffers. -/
theorem server_answersSym {rnd'' : Block 2048} (hr : r.Carries (symPacket rnd rnd')) :
    JyTcpServer.onReadExchangeSymSecurity plain plainSetup.md5 plainSetup.visitCode_ plainSetup.hostInfo rnd''
      stale plainSetup.asymServer r.ds
      = .ok ⟨some (plainSetup.symServer rnd rnd'), some symAck, [], none⟩ := by
  obtain ⟨more, hahead⟩ := hr.ahead
  rw [symPacket, symBytes, List.append_assoc, List.append_assoc _ _ more] at hahead
  have hbody := (JyDataWriteStream.emits_put 4 1).bind
    (f := fun _ => JyDataWriteStream.putBufWithoutLen plainSetup.hostInfo)
    (JyDataWriteStream.emits_putBufWithoutLen plainSetup.hostInfo)
  have hkeys : JyTcpServer.exchangeSym plainSetup.md5 plainSetup.visitCode_ plainSetup.asymServer rnd''.val
      rnd.val rnd'.val (plainSetup.md5 (plainSetup.md5 plainSetup.visitCode_).val).val
      stale = { plainSetup.asymServer with
        encSym_ := plainSetup.mask rnd
        decSym_ := plainSetup.mask rnd' } := by
    rw [JyTcpServer.exchangeSym, if_pos rfl, Setup.mask_eq, Setup.mask_eq]
  rw [JyTcpServer.onReadExchangeSymSecurity_eq (by rw [rnd.property]; norm_num)
    (by rw [rnd'.property]; norm_num) (by decide) hahead, hkeys, if_pos rfl,
    transmit_plain (show CipherKind.asymmetric ≠ .symmetric by decide) hbody (by decide)]
  rfl

end Answers

section Goes

variable {es : List (Event plainSetup.pool.unitSize_)} {client server : Option JyTcpListener} {l : JyTcpListener}
  {a : Arrived plainSetup.pool.unitSize_} {out : Out}

/-- A packet on the way is delivered to the server, and handled. -/
theorem server_handles
    (h : Run (Step plainSetup) plainSetup.init es ⟨client, [], false, some l, [], [a.sent], []⟩)
    (hout : ∀ r : SockRead, r.Carries a.sent →
      JyTcpEndpoint.onSockRead plain l a.buf zeroFresh.block = .ok (some r) →
      JyTcpServer.onSockRead plain plainSetup.md5 plainSetup.visitCode_ plainSetup.hostInfo (some l) zeroFresh a.buf
        = .ok out) :
    ∃ es, Run (Step plainSetup) plainSetup.init es
      ⟨client, [], false, out.l, out.posted.map .msg, [], out.sent.toList⟩ := by
  have hcome := h.snoc (@Step.deliverToServer plainSetup _ a [] (by simp) rfl)
  obtain ⟨listener, hl, -, hread⟩ := (reads_of_run hcome).2 a [] rfl
  obtain rfl := Option.some.inj hl
  obtain ⟨r, hr, hcarries⟩ := hread zeroFresh.block
  exact ⟨_, hcome.snoc (@Step.serverWork plainSetup _ (.packet a) [] zeroFresh _ rfl (hout r hcarries hr))⟩

/-- A packet on the way is delivered to the client, and handled. -/
theorem client_handles
    (h : Run (Step plainSetup) plainSetup.init es ⟨some l, [], false, server, [], [], [a.sent]⟩)
    (hout : ∀ r : SockRead, r.Carries a.sent →
      JyTcpEndpoint.onSockRead plain l a.buf zeroFresh.block = .ok (some r) →
      JyTcpClient.onSockRead plain (some l) zeroFresh a.buf = .ok out) :
    ∃ es, Run (Step plainSetup) plainSetup.init es
      ⟨out.l, out.posted.map .msg, false, server, [], out.sent.toList, []⟩ := by
  have hcome := h.snoc (@Step.deliverToClient plainSetup _ a [] (by simp) rfl)
  obtain ⟨listener, hl, -, hread⟩ := (reads_of_run hcome).1 a [] rfl
  obtain rfl := Option.some.inj hl
  obtain ⟨r, hr, hcarries⟩ := hread zeroFresh.block
  exact ⟨_, hcome.snoc (@Step.clientWork plainSetup _ (.packet a) [] zeroFresh _ rfl (hout r hcarries hr))⟩

/-- **Both certificates are exchanged.** -/
theorem run_asymRead : ∃ es, Run (Step plainSetup) plainSetup.init es
    ⟨some plainSetup.asymClient, [.msg .JY_MSG_TYPE_SOCK_EXCHANGE_SYM_SECURITY], false, some plainSetup.asymServer,
      [], [], []⟩ := by
  have hasks : clientWork plainSetup (some (.new plainSetup.clientCert)) zeroFresh
      (.msg .JY_MSG_TYPE_SOCK_EXCHANGE_ASYM_SECURITY)
      = .ok ⟨some (.new plainSetup.clientCert), some (asymPacket plainSetup.clientCert), [], none⟩ := by
    change JyTcpClient.onExchangeAsymSecurity plain zeroFresh.stale (.new plainSetup.clientCert) = _
    rw [JyTcpClient.onExchangeAsymSecurity, transmit_cert rfl length_certBytes_client]
    rfl
  have hconnected : Run (Step plainSetup) plainSetup.init _
      ⟨some (.new plainSetup.clientCert), [.msg .JY_MSG_TYPE_SOCK_EXCHANGE_ASYM_SECURITY], false,
        some (.new plainSetup.serverCert), [], [], []⟩ :=
    (Run.single (@Step.clientWork plainSetup plainSetup.init (.msg .JY_MSG_TYPE_SOCK_CONNECT_END) [] zeroFresh
      ⟨_, none, _, none⟩ rfl rfl)).snoc (.accept rfl)
  have hasked := hconnected.snoc (@Step.clientWork plainSetup _ _ [] zeroFresh _ rfl hasks)
  have hroom : ∀ cert : Cert, (certBytes cert).length = 19 →
      (asymPacket cert).bytes.length ≤ (JyTcpBuf.ofBlock zeroFresh.block).roomLeft := by
    intro cert hlen
    rw [asymPacket, length_frame, hlen]
    decide
  obtain ⟨es, hanswered⟩ := server_handles (a := arrived _ (hroom _ length_certBytes_client)) hasked
    fun r hcarries hr => by
      have htype : r.packetType = JyTcpCmdExchangeAsymSecurity := hcarries.packetType
      rw [JyTcpServer.onSockRead, hr]
      dsimp only
      rw [htype, if_pos rfl]
      exact server_answersAsym hcarries
  exact client_handles (a := arrived _ (hroom _ length_certBytes_server)) hanswered
    fun r hcarries hr => by
      have htype : r.packetType = JyTcpCmdExchangeAsymSecurity := hcarries.packetType
      rw [JyTcpClient.onSockRead, hr]
      dsimp only
      rw [htype, if_pos rfl]
      exact client_takesAsym hcarries

/-- **Both exchanges go through, and the client is about to start.** -/
theorem run_symRead : ∃ es, Run (Step plainSetup) plainSetup.init es
    ⟨some (plainSetup.symClient zeroFresh.rnd zeroFresh.rnd'), [.msg .JY_MSG_TYPE_USER_START], false,
      some (plainSetup.symServer zeroFresh.rnd zeroFresh.rnd'), [], [], []⟩ := by
  obtain ⟨es, hread⟩ := run_asymRead
  have hasked := hread.snoc (@Step.clientWork plainSetup _ _ [] zeroFresh _ rfl client_sendsSym)
  have hroom : (symPacket zeroFresh.rnd zeroFresh.rnd').bytes.length ≤ (JyTcpBuf.ofBlock zeroFresh.block).roomLeft := by
    rw [symPacket, length_frame, length_symBytes]
    decide
  obtain ⟨es, hanswered⟩ := server_handles (a := arrived _ hroom) hasked fun r hcarries hr => by
    have htype : r.packetType = JyTcpCmdExchangeSymSecurity := hcarries.packetType
    rw [JyTcpServer.onSockRead, hr]
    dsimp only
    rw [htype, if_neg (by decide), if_pos rfl]
    exact server_answersSym hcarries
  exact client_handles (a := arrived symAck (by decide)) hanswered fun r hcarries hr => by
    have htype : r.packetType = JyTcpCmdExchangeSymSecurity := hcarries.packetType
    rw [JyTcpClient.onSockRead, hr]
    dsimp only
    rw [htype, if_neg (by decide), if_pos rfl]

end Goes

/-- A packet of the client's class, one byte long. -/
def userSent : Sent :=
  ⟨frame JyTcpCmdUser (xorBytes (plainSetup.mask zeroFresh.rnd') [1] zeroFresh.stale), .symmetric, JyTcpCmdUser, [1]⟩

/-- **The client starts on agreed keys, and what it sends then is decoded.** -/
theorem plainSetup_lockstep :
    (∃ es s, Run (Step plainSetup) plainSetup.init es s ∧ s.clientQueue = [.msg .JY_MSG_TYPE_USER_START] ∧
      Lockstep plainSetup s) ∧
    ∃ es s a, Run (Step plainSetup) plainSetup.init es s ∧ s.started = true ∧ s.serverQueue = [.packet a] ∧
      a.sent = userSent ∧ Lockstep plainSetup s := by
  have hreturns : plainSetup.Returns := ⟨plain_returns _ _, plain_returns _ _⟩
  obtain ⟨es, hread⟩ := run_symRead
  have hstarted := hread.snoc (@Step.clientWork plainSetup _ _ [] zeroFresh _ rfl rfl)
  have hlen : (xorBytes (plainSetup.mask zeroFresh.rnd') [1] zeroFresh.stale).length = 1 := length_xorBytes _ _ _
  have hsent : userPacket plainSetup (plainSetup.symClient zeroFresh.rnd zeroFresh.rnd') JyTcpCmdUser [1] zeroFresh
      = .ok userSent :=
    transmit_of_emits (JyDataWriteStream.emits_putBufWithoutLen _) (by decide)
      (emits_xorData_xorBytes _ _ _) (by rw [hlen]; norm_num)
  have hroom : userSent.bytes.length ≤ (JyTcpBuf.ofBlock zeroFresh.block).roomLeft := by
    rw [userSent, length_frame, hlen]
    decide
  have huser : IsUserType JyTcpCmdUser := ⟨le_rfl, by decide⟩
  have hpacket := (hstarted.snoc (.clientSend rfl rfl huser hsent)).snoc
    (@Step.deliverToServer plainSetup _ (arrived userSent hroom) [] (by simp) rfl)
  exact ⟨⟨es, _, hread, rfl, lockstep_of_run plainSetup hreturns hread⟩,
    _, _, _, hpacket, rfl, rfl, rfl, lockstep_of_run plainSetup hreturns hpacket⟩

end Handshake

end EuhatExpert
