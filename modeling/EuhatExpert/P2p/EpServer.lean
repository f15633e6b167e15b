import EuhatExpert.Common.JyUdpSelector
import EuhatExpert.Expert.WorkSpan
import EuhatExpert.Machinery.Intercalate
import EuhatExpert.Machinery.Register

/-!
# P2p/EpServer — the server that introduces peers

A datagram is lines: a command and its arguments.  The server keeps the clients that have registered, one
under each id, and answers `connect` with what the named one registered.  `registered_of_run`: after any
datagrams whatever, it holds for each id what the last well-formed `alloc` of it said.
-/

namespace EuhatExpert

open Machinery

def dot : UInt8 := 46

/-- `inet_ntoa`. -/
def inet_ntoa (addr : InAddr) : Bytes :=
  [dot].intercalate ([addr.b0, addr.b1, addr.b2, addr.b3].map fun b => printNat b.toNat)

def intToString (i : Int32) : Bytes := printInt i.toInt

/-- `ntohs`, as an `int`. -/
def portNumber (port : UInt16) : Int32 := Int32.ofInt port.toNat

/-- `htons` of an `int`, read back. -/
def portOf (i : Int32) : UInt16 := UInt16.ofNat (i.toInt.emod 65536).toNat

structure EpClientEntity where
  innerPort_ : Int32
  innerIp_ : Bytes
  natPort_ : Int32
  natIp_ : Bytes
  id_ : Bytes
  deriving DecidableEq

/-- `splitTokenString` of a text at its newlines. -/
def tokensOf (text : Bytes) : List Bytes := splitTokenString text newline

/-- A text without a newline, empty or not, is one token. -/
theorem tokensOf_ne_nil (text : Bytes) : tokensOf text ≠ [] := List.splitOn_ne_nil newline text

/-- The two sockets of the server. -/
inductive EpSocket
  | sock_
  | sockRelay_
  deriving DecidableEq, Repr

namespace EpServer

def cmdAlloc : Bytes := ofAscii "alloc"

def cmdConnect : Bytes := ofAscii "connect"

def cmdRelay : Bytes := ofAscii "relay"

/-- The entity of an `alloc` of four lines. -/
def entityOf (recvAddr_ : SockAddr) : List Bytes → Option EpClientEntity
  | [_, innerIp, innerPort, id] => some {
      innerIp_ := innerIp
      innerPort_ := atoi innerPort
      natIp_ := inet_ntoa recvAddr_.sin_addr
      natPort_ := portNumber recvAddr_.sin_port
      id_ := id }
  | _ => none

def onAlloc (clients_ : List EpClientEntity) (recvAddr_ : SockAddr) (tokens : List Bytes) :
    List EpClientEntity × Bytes :=
  match entityOf recvAddr_ tokens with
  | none => (clients_, ofAscii "failed")
  | some entity => (register EpClientEntity.id_ clients_ entity, ofAscii "ok")

/-- The reply that introduces a client under the id asked for. -/
def introduce (id : Bytes) (it : EpClientEntity) : Bytes :=
  ofAscii "peer" ++ newline :: (id ++ newline :: (it.natIp_ ++ newline :: (intToString it.natPort_ ++
    newline :: (it.innerIp_ ++ newline :: intToString it.innerPort_))))

def onConnect (clients_ : List EpClientEntity) (recvAddr_ : SockAddr) : List Bytes → Bytes
  | [_, id] =>
    let ip := inet_ntoa recvAddr_.sin_addr
    let port := portNumber recvAddr_.sin_port
    match clients_.find? fun entity => ip = entity.natIp_ ∧ port = entity.natPort_ with
    | none => ofAscii "not register"
    | some _ =>
      match clients_.find? fun entity => entity.id_ = id with
      | none => ofAscii "not exist"
      | some it => introduce id it
  | _ => ofAscii "failed"

/-- The text of `hello`. -/
def helloText (ip : Bytes) (port : Int32) (fromId toIp : Bytes) (toPort : Int32) : Bytes :=
  ofAscii "from [" ++ ip ++ ofAscii ":" ++ intToString port ++ ofAscii "," ++ fromId ++ ofAscii "] to [" ++
    toIp ++ ofAscii ":" ++ intToString toPort ++ ofAscii "], hello."

def helloSize : ℕ := 1024

/-- What the server sends: from which socket, where to, and the text. -/
structure Reply where
  sock : EpSocket
  sockAddr : SockAddr
  text : Bytes

variable (inet_addr : Bytes → InAddr)

/-- `none` when the text does not fit `hello`. -/
def onRelay (recvAddr_ : SockAddr) : List Bytes → Option Reply
  | [cmd, fromId, toIp, toPort] =>
    let hello := helloText (inet_ntoa recvAddr_.sin_addr) (portNumber recvAddr_.sin_port) fromId toIp (atoi toPort)
    if hello.length < helloSize then
      some ⟨.sockRelay_, ⟨inet_addr toIp, portOf (atoi toPort)⟩, cmd ++ newline :: hello⟩
    else none
  | tokens => some ⟨.sock_, recvAddr_, tokens.headI ++ newline :: ofAscii "failed"⟩

/-- `onSockRead`: the clients afterwards, and what is sent; `none` when a buffer overflows.  There is a first token
of every text (`tokensOf_ne_nil`), so that `headI` is `tokens[0]`. -/
def onSockRead (clients_ : List EpClientEntity) (recvAddr_ : SockAddr) (buf_ : Bytes) :
    Option (List EpClientEntity × Reply) :=
  let tokens := tokensOf (JyUdpSelector.recvText buf_)
  let cmd := tokens.headI
  if cmd = cmdAlloc then
    let (clients, retStr) := onAlloc clients_ recvAddr_ tokens
    some (clients, ⟨.sock_, recvAddr_, cmd ++ newline :: retStr⟩)
  else if cmd = cmdConnect then
    some (clients_, ⟨.sock_, recvAddr_, cmd ++ newline :: onConnect clients_ recvAddr_ tokens⟩)
  else if cmd = cmdRelay then
    (onRelay inet_addr recvAddr_ tokens).map fun reply => (clients_, reply)
  else some (clients_, ⟨.sock_, recvAddr_, cmd ++ [newline]⟩)

/-! ## The clients after a run -/

/-- The server takes a datagram: where it came from, and what is in it. -/
def Serves (clients_ : List EpClientEntity) (d : SockAddr × Bytes) (clients' : List EpClientEntity) : Prop :=
  ∃ reply, onSockRead inet_addr clients_ d.1 d.2 = some (clients', reply)

/-- What a datagram registers. -/
def registers (d : SockAddr × Bytes) : Option EpClientEntity :=
  let tokens := tokensOf (JyUdpSelector.recvText d.2)
  if tokens.headI = cmdAlloc then entityOf d.1 tokens else none

variable {inet_addr}

/-- **A datagram changes the clients by what it registers.** -/
theorem clients_of_serves {clients_ clients' : List EpClientEntity} {d : SockAddr × Bytes}
    (h : Serves inet_addr clients_ d clients') :
    clients' = (registers d).toList.foldl (register EpClientEntity.id_) clients_ := by
  obtain ⟨reply, h⟩ := h
  rw [onSockRead] at h
  rw [registers]
  dsimp only at h ⊢
  split_ifs at h ⊢ with halloc hconnect hrelay
  · obtain ⟨rfl, -⟩ := Prod.ext_iff.mp (Option.some.inj h)
    rw [onAlloc]
    cases entityOf d.1 (tokensOf (JyUdpSelector.recvText d.2)) <;> rfl
  · obtain ⟨rfl, -⟩ := Prod.ext_iff.mp (Option.some.inj h)
    rfl
  · obtain ⟨reply', -, heq⟩ := Option.map_eq_some_iff.mp h
    obtain ⟨rfl, -⟩ := Prod.ext_iff.mp heq
    rfl
  · obtain ⟨rfl, -⟩ := Prod.ext_iff.mp (Option.some.inj h)
    rfl

theorem clients_of_run {es : List (SockAddr × Bytes)} {clients_ : List EpClientEntity}
    (h : Run (Serves inet_addr) [] es clients_) :
    clients_ = (es.filterMap registers).foldl (register EpClientEntity.id_) [] := by
  induction h with
  | nil => rfl
  | @snoc es _ d _ _ hserve ih =>
    rw [clients_of_serves hserve, ih, ← List.foldl_append, List.filterMap_append, List.filterMap_cons]
    cases registers d <;> rfl

/-- **After any datagrams, each id has one entity, what the last well-formed `alloc` of it said.** -/
theorem registered_of_run {es : List (SockAddr × Bytes)} {clients_ : List EpClientEntity}
    (h : Run (Serves inet_addr) [] es clients_) :
    OneEach EpClientEntity.id_ clients_ ∧
      ∀ entity, entity ∈ clients_ ↔ Latest EpClientEntity.id_ (es.filterMap registers) entity := by
  rw [clients_of_run h]
  exact ⟨pairwise_foldl_register _ _, fun _ => mem_foldl_register⟩

/-- Two clients, one of which registers again. -/
theorem registered_of_run_here : ∃ es clients_, Run (Serves fun _ => ⟨0, 0, 0, 0⟩) [] es clients_ ∧
    clients_.map EpClientEntity.id_ = [ofAscii "b", ofAscii "a"] ∧ OneEach EpClientEntity.id_ clients_ ∧
      ∀ entity, entity ∈ clients_ ↔ Latest EpClientEntity.id_ (es.filterMap registers) entity := by
  have h1 := (Run.nil : Run (Serves fun _ => ⟨0, 0, 0, 0⟩) [] [] []).snoc
    (e := (⟨⟨10, 0, 0, 1⟩, 5001⟩, ofAscii "alloc\n10.0.0.1\n5001\na" ++ [0])) ⟨_, rfl⟩
  have h2 := h1.snoc (e := (⟨⟨10, 0, 0, 2⟩, 5001⟩, ofAscii "alloc\n10.0.0.2\n5001\nb" ++ [0])) ⟨_, rfl⟩
  have h3 := h2.snoc (e := (⟨⟨10, 0, 0, 1⟩, 5002⟩, ofAscii "alloc\n10.0.0.1\n5002\na" ++ [0])) ⟨_, rfl⟩
  exact ⟨_, _, h3, rfl, registered_of_run h3⟩

end EpServer

end EuhatExpert
