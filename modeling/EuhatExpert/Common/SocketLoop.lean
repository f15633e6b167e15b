import EuhatExpert.Machinery.Run
import Mathlib.Logic.Function.Basic

/-!
# Common/SocketLoop — the queue of an endpoint, and the two threads at it

The endpoint's thread takes one message after another from `list_` and handles it; the thread of the selector posts
there what becomes of the registered sockets, until `onFini` has joined it.  What a packet holds is left to
chance here: a turn is told how its packet is read, and which system calls succeed.  Every socket is tagged
with the connection it was made for, which the code does not see.
-/

namespace EuhatExpert

open Machinery

/-- A socket's number, and the connection the system made it for. -/
structure Handle where
  sock : ℕ
  conn : ℕ
  deriving DecidableEq, Repr

/-- What the selector makes of a socket that can be read. -/
inductive JyTcpSelectType
  | JyTcpSelectRecv
  | JyTcpSelectAccept
  | JyTcpSelectConnect
  deriving DecidableEq, Repr

/-- A `JyTcpListener` in `socks_`. -/
structure Registered where
  selectType_ : JyTcpSelectType
  conn : ℕ

/-- The messages of `JyMsgType` with what is in `int_`; an invalid socket is none. -/
inductive SocketMsg
  | INIT
  | FINI
  | SOCK_READ (h : Handle)
  | SOCK_LISTEN
  | SOCK_ACCEPT (h : Handle)
  | SOCK_CONNECT_BEGIN
  | SOCK_CONNECT_END (h : Option Handle)
  | SOCK_EXCHANGE_ASYM_SECURITY
  | SOCK_EXCHANGE_SYM_SECURITY
  | SOCK_DISCONNECT (h : Handle)
  | USER_START
  | USER_LOOP
  | TIMER
  deriving DecidableEq, Repr

/-- A use of a null pointer: of `selector_`, or of what `getListener` returned. -/
inductive NullUse
  | selector
  | listener
  deriving DecidableEq, Repr

/-- Which `onWork` the thread runs. -/
inductive Role
  | server
  | client (isSecure_ : Bool)

/-- What a packet turns out to be when it is read. -/
inductive Packet
  | undecrypted
  | exchangeAsym (tooShort : Bool)
  | exchangeSym (isVisitCodeOk : Bool)
  | user

/-- What the system and the peer do in one turn: how the packet is read, whether `::send` takes the
answer of an exchange and each packet of the user's, and what becomes of a new socket. -/
structure Turn where
  packet : Packet
  accepted : Bool
  replies : List Bool
  sock : ℕ
  optSet : Bool
  reached : Bool

/-- A turn with a packet of the user's, in which every call succeeds. -/
def Turn.well (sock : ℕ) : Turn := ⟨.user, true, [], sock, true, true⟩

/-- An endpoint: `taken` is a message that its thread took and whose handler has still to run, `posting` what the
running handler has still to post, `joined` tells that the selector's thread has ended, `opened` are the sockets open
in the system, `conns` counts the connections made. -/
structure SocketLoop where
  selector_ : Option (ℕ → Option Registered)
  list_ : List SocketMsg
  taken : Option SocketMsg
  posting : List SocketMsg
  joined : Bool
  sock_ : Option Handle
  opened : ℕ → Bool
  conns : ℕ
  stopped : Bool
  fault : Option NullUse

namespace SocketLoop

/-- After `JyMsgLoop::start`, before any message; `FileManClient` starts with an invalid `sock_`. -/
def start : SocketLoop := ⟨some fun _ => none, [.INIT], none, [], false, none, fun _ => false, 0, false, none⟩

section Handlers

variable (s : SocketLoop)

/-- The listener of a socket, if there is a selector and it has one. -/
def find (sock : ℕ) : Option Registered := s.selector_.bind fun socks_ => socks_ sock

/-- `postMsg`: the lock of the queue is taken after the handler's own steps. -/
def postMsg (m : SocketMsg) : SocketLoop := { s with posting := s.posting ++ [m] }

/-- `selector_->`. -/
def useSelector : Except NullUse (ℕ → Option Registered) :=
  match s.selector_ with
  | none => .error .selector
  | some socks_ => .ok socks_

/-- `getListener`, and a use of the listener. -/
def useListener (h : Handle) : Except NullUse Registered := do
  let socks_ ← s.useSelector
  match socks_ h.sock with
  | none => .error .listener
  | some l => .ok l

/-! ## `JyTcpSelector` -/

/-- `::socket`, which is new to the system. -/
def socket (sock : ℕ) : SocketLoop :=
  { s with opened := Function.update s.opened sock true, conns := s.conns + 1 }

/-- `whCloseSocket`: the number is free again. -/
def whCloseSocket (sock : ℕ) : SocketLoop := { s with opened := Function.update s.opened sock false }

/-- `JyTcpSelector::add`. -/
def add (h : Handle) (selectType_ : JyTcpSelectType) : SocketLoop :=
  { s with selector_ :=
      s.selector_.map fun socks_ => Function.update socks_ h.sock (some ⟨selectType_, h.conn⟩) }

/-- `JyTcpSelector::del`. -/
def del (sock : ℕ) : SocketLoop :=
  if (s.find sock).isSome then
    { s with selector_ := s.selector_.map fun socks_ => Function.update socks_ sock none }.whCloseSocket sock
  else s

/-- `addAccept`: a socket that cannot be bound stays open. -/
def addAccept (t : Turn) : SocketLoop × Bool :=
  if t.optSet && t.reached then ((s.socket t.sock).add ⟨t.sock, s.conns⟩ .JyTcpSelectAccept, true)
  else (s.socket t.sock, false)

def addConnect (t : Turn) : SocketLoop :=
  if t.optSet then
    if t.reached then
      ((s.socket t.sock).add ⟨t.sock, s.conns⟩ .JyTcpSelectRecv).postMsg
        (.SOCK_CONNECT_END (some ⟨t.sock, s.conns⟩))
    else ((s.socket t.sock).whCloseSocket t.sock).postMsg (.SOCK_CONNECT_END none)
  else s.socket t.sock

/-- `JyTcpSelector::send` and `onWrite`, on the endpoint's thread. -/
def selectorSend (h : Handle) (accepted : Bool) : SocketLoop :=
  if (s.find h.sock).isSome && !accepted then s.postMsg (.SOCK_DISCONNECT h) else s

/-- What `onRead` finds at a socket. -/
inductive Received
  | nothing
  | connection (sock : ℕ)
  | packet
  | broken

/-- `JyTcpSelector::onRead`, on the selector's thread: it posts to `list_`. -/
def onRead (sock : ℕ) (r : Received) : SocketLoop :=
  match s.find sock with
  | none => s
  | some l =>
    if l.selectType_ = .JyTcpSelectAccept then
      match r with
      | .connection n => { s.socket n with list_ := s.list_ ++ [.SOCK_ACCEPT ⟨n, s.conns⟩] }
      | _ => s
    else
      match r with
      | .packet => { s with list_ := s.list_ ++ [.SOCK_READ ⟨sock, l.conn⟩] }
      | .broken => { s with list_ := s.list_ ++ [.SOCK_DISCONNECT ⟨sock, l.conn⟩] }
      | _ => s

/-! ## `JyTcpEndpoint` -/

/-- `canSend`: there is a selector, and a socket. -/
def canSend (h : Option Handle) : Bool := s.selector_.isSome && h.isSome

/-- `send`: the listener is used, and a frame the selector refuses brings a `SOCK_DISCONNECT`. -/
def send (h : Option Handle) (accepted : Bool) : Except NullUse SocketLoop :=
  match h with
  | none => .ok s
  | some h =>
    if s.canSend (some h) then do
      let _ ← s.useListener h
      pure (s.selectorSend h accepted)
    else .ok s

/-- One packet of the user's after another. -/
def sendAll (h : Option Handle) (replies : List Bool) : Except NullUse SocketLoop :=
  replies.foldlM (fun s accepted => s.send h accepted) s

/-- What the handlers of an exchange do where `canSend` lets them: use the listener, then go on. -/
def withListener (h : Option Handle) (f : SocketLoop → Except NullUse SocketLoop) :
    Except NullUse SocketLoop :=
  match h with
  | none => .ok s
  | some h =>
    if s.canSend (some h) then do
      let _ ← s.useListener h
      f s
    else .ok s

/-- `JyTcpEndpoint::onSockRead`, and what a handler makes of the packet it gives. -/
def onSockRead (h : Handle) (t : Turn) (f : Packet → SocketLoop → Except NullUse SocketLoop) :
    Except NullUse SocketLoop :=
  s.withListener (some h) fun s =>
    match t.packet with
    | .undecrypted => .ok (s.postMsg (.SOCK_DISCONNECT h))
    | packet => f packet s

/-- `onFini`, once `selector_->stop()` has joined the thread. -/
def onFini : Except NullUse SocketLoop := do
  let socks_ ← s.useSelector
  pure { s with selector_ := none, opened := fun n => s.opened n && (socks_ n).isNone }

end Handlers

/-! ## `JyTcpServer` -/

namespace Server

variable (t : Turn) (s : SocketLoop)

def onInit : Except NullUse SocketLoop := do
  let _ ← s.useSelector
  pure (s.postMsg .SOCK_LISTEN)

def onListen : SocketLoop :=
  if s.selector_.isNone then s
  else
    let (s, added) := s.addAccept t
    if added then s else s.postMsg .SOCK_LISTEN

def onSockAccept (h : Handle) : SocketLoop :=
  if s.selector_.isNone then s else s.add h .JyTcpSelectRecv

def onDisconnect (h : Handle) : SocketLoop := if s.selector_.isNone then s else s.del h.sock

/-- Both exchanges use the listener and answer. -/
def onSockRead (h : Handle) : Except NullUse SocketLoop :=
  s.onSockRead h t fun packet s =>
    match packet with
    | .exchangeAsym _ | .exchangeSym _ => s.withListener (some h) fun s => s.send (some h) t.accepted
    | _ => s.sendAll (some h) t.replies

def onWork : SocketMsg → Except NullUse SocketLoop
  | .SOCK_READ h => onSockRead t s h
  | .INIT => onInit s
  | .FINI => s.onFini
  | .SOCK_LISTEN => .ok (onListen t s)
  | .SOCK_ACCEPT h => .ok (onSockAccept s h)
  | .SOCK_DISCONNECT h => .ok (onDisconnect s h)
  | _ => .ok s

end Server

/-! ## `JyTcpClient` -/

namespace Client

variable (isSecure_ : Bool) (t : Turn) (s : SocketLoop)

def onDisconnect (h : Handle) : Except NullUse SocketLoop := do
  let _ ← s.useSelector
  pure { s.del h.sock with sock_ := none }

def onInit : Except NullUse SocketLoop := do
  let _ ← s.useSelector
  pure (s.postMsg .SOCK_CONNECT_BEGIN)

def onConnectBegin : Except NullUse SocketLoop := do
  let _ ← s.useSelector
  pure (s.addConnect t)

def onConnectEnd : Option Handle → SocketLoop
  | none => if s.selector_.isNone then s else s.postMsg .SOCK_CONNECT_BEGIN
  | some h =>
    { s with sock_ := some h }.postMsg (if isSecure_ then .SOCK_EXCHANGE_ASYM_SECURITY else .USER_START)

/-- `onExchangeAsymSecurity`, `onExchangeSymSecurity`: use the listener of `sock_`, and send. -/
def onExchange : Except NullUse SocketLoop :=
  s.withListener s.sock_ fun s => s.send s.sock_ t.accepted

/-- `postMsg(JY_MSG_TYPE_SOCK_DISCONNECT, NULL, sock_)`. -/
def postDisconnect : SocketLoop :=
  match s.sock_ with
  | none => s
  | some h => s.postMsg (.SOCK_DISCONNECT h)

/-- The listener is not used for a certificate that is too short. -/
def onReadExchangeAsymSecurity (tooShort : Bool) : Except NullUse SocketLoop :=
  if tooShort then .ok (if s.canSend s.sock_ then postDisconnect s else s)
  else s.withListener s.sock_ fun s => .ok (s.postMsg .SOCK_EXCHANGE_SYM_SECURITY)

/-- With what `FileManClient` does before: it leaves a server that refuses its visit code. -/
def onReadExchangeSymSecurity (isVisitCodeOk : Bool) : Except NullUse SocketLoop :=
  let s := if s.canSend s.sock_ && !isVisitCodeOk then postDisconnect s else s
  s.withListener s.sock_ fun s => .ok (s.postMsg .USER_START)

def onSockRead (h : Handle) : Except NullUse SocketLoop :=
  s.onSockRead h t fun packet s =>
    match packet with
    | .exchangeAsym tooShort => onReadExchangeAsymSecurity s tooShort
    | .exchangeSym isVisitCodeOk => onReadExchangeSymSecurity s isVisitCodeOk
    | _ => s.sendAll s.sock_ t.replies

def onWork : SocketMsg → Except NullUse SocketLoop
  | .USER_LOOP | .USER_START | .TIMER => s.sendAll s.sock_ t.replies
  | .SOCK_READ h => onSockRead t s h
  | .SOCK_CONNECT_BEGIN => onConnectBegin t s
  | .SOCK_CONNECT_END h => .ok (onConnectEnd isSecure_ s h)
  | .SOCK_EXCHANGE_ASYM_SECURITY | .SOCK_EXCHANGE_SYM_SECURITY => onExchange t s
  | .SOCK_DISCONNECT h => onDisconnect s h
  | .INIT => onInit s
  | .FINI => s.onFini
  | _ => .ok s

end Client

def onWork (role : Role) (t : Turn) (s : SocketLoop) (m : SocketMsg) : Except NullUse SocketLoop :=
  match role with
  | .server => Server.onWork t s m
  | .client isSecure_ => Client.onWork isSecure_ t s m

/-! ## Steps -/

/-- What can be seen of a step. -/
inductive Event
  | take
  | join
  | work (t : Turn)
  | post
  | select (sock : ℕ) (r : Received)
  | stop
  | userLoop
  | timer

/-- The endpoint's thread takes a message, joins the selector's for a `FINI`, runs the handler up to what it posts, or
posts that; or `onRead` is called on the selector's thread; or another thread posts, `stop` one `FINI`.  A null use
ends it all. -/
inductive Step (role : Role) : SocketLoop → Event → SocketLoop → Prop
  | take {s m rest} : s.fault = none → s.posting = [] → s.taken = none → s.list_ = m :: rest →
      Step role s .take { s with list_ := rest, taken := some m }
  | join {s} : s.fault = none → s.posting = [] → s.taken = some .FINI → s.selector_.isSome →
      Step role s .join { s with joined := true }
  | work {s s' m} (t : Turn) : s.fault = none → s.posting = [] → s.taken = some m → (m = .FINI → s.joined = true) →
      s.opened t.sock = false → onWork role t { s with taken := none } m = .ok s' → Step role s (.work t) s'
  | fail {s m e} (t : Turn) : s.fault = none → s.posting = [] → s.taken = some m → s.opened t.sock = false →
      onWork role t { s with taken := none } m = .error e →
      Step role s (.work t) { s with taken := none, fault := some e }
  | post {s m rest} : s.fault = none → s.posting = m :: rest →
      Step role s .post { s with posting := rest, list_ := s.list_ ++ [m] }
  | select {s} (sock : ℕ) (r : Received) : s.fault = none → s.joined = false →
      (∀ n, r = .connection n → s.opened n = false) → Step role s (.select sock r) (s.onRead sock r)
  | stop {s} : s.fault = none → s.stopped = false →
      Step role s .stop { s with stopped := true, list_ := s.list_ ++ [.FINI] }
  | userLoop {s} : s.fault = none → Step role s .userLoop { s with list_ := s.list_ ++ [.USER_LOOP] }
  | timer {s} : s.fault = none → Step role s .timer { s with list_ := s.list_ ++ [.TIMER] }

/-! ## What a handler can do -/

/-- The message taken and those that wait in `list_`, in the order in which they are handled. -/
def pending (s : SocketLoop) : List SocketMsg := s.taken.toList ++ s.list_

/-- All messages that are still to be handled. -/
def waiting (s : SocketLoop) : List SocketMsg := s.pending ++ s.posting

/-- The message taken is the front of them. -/
theorem pending_of_taken {s : SocketLoop} {m : SocketMsg} (h : s.taken = some m) : s.pending = m :: s.list_ := by
  rw [pending, h]
  rfl

/-- Taking the front message leaves what is to be handled. -/
theorem pending_take {s : SocketLoop} {m : SocketMsg} {rest : List SocketMsg} (h : s.taken = none)
    (hlist : s.list_ = m :: rest) : { s with list_ := rest, taken := some m }.pending = s.pending := by
  rw [pending, pending, h, hlist]
  rfl

/-- A message that is posted is the last. -/
theorem pending_push (s : SocketLoop) (m : SocketMsg) :
    { s with list_ := s.list_ ++ [m] }.pending = s.pending ++ [m] := by
  rw [pending, pending, List.append_assoc]

/-- More to be posted. -/
def posts (s : SocketLoop) (ps : List SocketMsg) : SocketLoop := { s with posting := s.posting ++ ps }

@[simp] theorem find_posts (s : SocketLoop) (ps : List SocketMsg) : (s.posts ps).find = s.find := rfl

@[simp] theorem selector_posts (s : SocketLoop) (ps : List SocketMsg) :
    (s.posts ps).selector_ = s.selector_ := rfl

/-- Nothing posted is nothing done, -/
theorem posts_nil (s : SocketLoop) : s.posts [] = s := by
  rw [posts, List.append_nil]

/-- and what is posted twice is posted one behind the other. -/
theorem posts_posts (s : SocketLoop) (ps ps' : List SocketMsg) :
    (s.posts ps).posts ps' = s.posts (ps ++ ps') := by
  rw [posts, posts, posts, List.append_assoc]

/-- What a handler that talks to the sockets of `hs` may post. -/
inductive Said (s : SocketLoop) (hs : List Handle) : SocketMsg → Prop
  | lost {h} : h ∈ hs → (s.find h.sock).isSome → Said s hs (.SOCK_DISCONNECT h)
  | leave {h} : h ∈ hs → s.sock_ = some h → s.selector_.isSome → Said s hs (.SOCK_DISCONNECT h)
  | exchange : Said s hs .SOCK_EXCHANGE_SYM_SECURITY
  | userStart : Said s hs .USER_START

/-- A handler that talks to the sockets of `hs` posts, or uses the listener of one that has none. -/
def Talks (s : SocketLoop) (hs : List Handle) : Except NullUse SocketLoop → Prop
  | .error e => e = .listener ∧ s.selector_.isSome ∧ ∃ h ∈ hs, s.find h.sock = none
  | .ok s' => ∃ ps, s' = s.posts ps ∧ ∀ p ∈ ps, Said s hs p

variable {s s' : SocketLoop} {hs : List Handle} {h : Option Handle} {m p : SocketMsg}

/-- What may be posted later may be posted at once. -/
theorem Said.of_posts {ps : List SocketMsg} (hp : Said (s.posts ps) hs p) : Said s hs p := by
  cases hp with
  | lost hmem hfind => exact .lost hmem hfind
  | leave hmem hsock hsel => exact .leave hmem hsock hsel
  | exchange => exact .exchange
  | userStart => exact .userStart

/-- A handler may do nothing, -/
theorem talks_ok : Talks s hs (.ok s) := ⟨[], s.posts_nil.symm, nofun⟩

/-- or post one message. -/
theorem talks_post (hm : Said s hs m) : Talks s hs (.ok (s.postMsg m)) :=
  ⟨[m], rfl, fun _ hp => List.mem_singleton.mp hp ▸ hm⟩

/-- Talk goes on where it was. -/
theorem Talks.bind {x : Except NullUse SocketLoop} {f : SocketLoop → Except NullUse SocketLoop}
    (hx : Talks s hs x) (hf : ∀ ps, (∀ p ∈ ps, Said s hs p) → Talks (s.posts ps) hs (f (s.posts ps))) :
    Talks s hs (x >>= f) := by
  cases x with
  | error e => exact hx
  | ok s' =>
    obtain ⟨ps, rfl, hps⟩ := hx
    have hrest := hf ps hps
    change Talks s hs (f (s.posts ps))
    cases hfs : f (s.posts ps) with
    | error e =>
      rw [hfs] at hrest
      exact hrest
    | ok s' =>
      rw [hfs] at hrest
      obtain ⟨ps', rfl, hps'⟩ := hrest
      refine ⟨ps ++ ps', s.posts_posts ps ps', fun p hp => ?_⟩
      exact (List.mem_append.mp hp).elim (hps p) fun hp => (hps' p hp).of_posts

/-- **Where a listener is used.** -/
theorem talks_withListener {f : SocketLoop → Except NullUse SocketLoop} (hmem : ∀ g, h = some g → g ∈ hs)
    (hf : ∀ g, h = some g → (s.find g.sock).isSome → Talks s hs (f s)) : Talks s hs (s.withListener h f) := by
  cases h with
  | none => exact talks_ok
  | some g =>
    rw [withListener]
    split_ifs with hcan
    · rw [canSend, Bool.and_eq_true] at hcan
      obtain ⟨socks_, hsel⟩ := Option.isSome_iff_exists.mp hcan.1
      have hfind : s.find g.sock = socks_ g.sock := by rw [find, hsel, Option.bind_some]
      rw [useListener, useSelector, hsel]
      dsimp only [bind, Except.bind]
      cases hl : socks_ g.sock with
      | none => exact ⟨rfl, hcan.1, g, hmem g rfl, hfind.trans hl⟩
      | some l => exact hf g rfl (by rw [hfind, hl]; rfl)
    · exact talks_ok

/-- `send` uses the listener where there is one to send to. -/
theorem send_eq_withListener (s : SocketLoop) (h : Option Handle) (accepted : Bool) :
    s.send h accepted = s.withListener h fun s => .ok (h.elim s fun g => s.selectorSend g accepted) := by
  cases h with
  | none => rfl
  | some g => rfl

/-- **A send posts a disconnect at most**, for a socket that has a listener. -/
theorem talks_send (hmem : ∀ g, h = some g → g ∈ hs) (accepted : Bool) :
    Talks s hs (s.send h accepted) := by
  rw [send_eq_withListener]
  refine talks_withListener hmem fun g hg hfind => ?_
  subst hg
  rw [Option.elim_some, selectorSend]
  split_ifs
  · exact talks_post (.lost (hmem g rfl) hfind)
  · exact talks_ok

/-- So do several. -/
theorem talks_sendAll (hmem : ∀ g, h = some g → g ∈ hs) (replies : List Bool) :
    Talks s hs (s.sendAll h replies) := by
  rw [sendAll]
  induction replies generalizing s with
  | nil => exact talks_ok
  | cons accepted replies ih =>
    rw [List.foldlM_cons]
    exact (talks_send hmem accepted).bind fun ps _ => ih

/-- **A packet's handler only talks**, whatever is made of the packet. -/
theorem talks_onSockRead {h : Handle} {t : Turn} {f : Packet → SocketLoop → Except NullUse SocketLoop}
    (hmem : h ∈ hs) (hf : ∀ packet, Talks s hs (f packet s)) : Talks s hs (s.onSockRead h t f) := by
  refine talks_withListener (fun g hg => Option.some.inj hg ▸ hmem) fun g hg hfind => ?_
  obtain rfl := Option.some.inj hg
  cases t.packet with
  | undecrypted => exact talks_post (.lost hmem hfind)
  | exchangeAsym tooShort => exact hf _
  | exchangeSym isVisitCodeOk => exact hf _
  | user => exact hf _

/-- The server's handler talks to the socket of the packet, -/
theorem Server.talks_onSockRead (t : Turn) (s : SocketLoop) (h : Handle) :
    Talks s [h] (Server.onSockRead t s h) := by
  have hmem : ∀ g, some h = some g → g ∈ [h] := fun g hg => Option.some.inj hg ▸ List.mem_cons_self
  refine SocketLoop.talks_onSockRead List.mem_cons_self fun packet => ?_
  cases packet with
  | undecrypted => exact talks_sendAll hmem t.replies
  | exchangeAsym tooShort => exact talks_withListener hmem fun _ _ _ => talks_send hmem t.accepted
  | exchangeSym isVisitCodeOk => exact talks_withListener hmem fun _ _ _ => talks_send hmem t.accepted
  | user => exact talks_sendAll hmem t.replies

/-- the client's disconnect -/
theorem Client.talks_postDisconnect (hmem : ∀ g, s.sock_ = some g → g ∈ hs) (hsel : s.selector_.isSome) :
    Talks s hs (.ok (postDisconnect s)) := by
  rw [postDisconnect]
  cases hsock : s.sock_ with
  | none => exact talks_ok
  | some g => exact talks_post (.leave (hmem g hsock) hsock hsel)

/-- and its exchange to the one it connected, -/
theorem Client.talks_onExchange (t : Turn) (s : SocketLoop) : Talks s s.sock_.toList (onExchange t s) := by
  have hmem : ∀ g, s.sock_ = some g → g ∈ s.sock_.toList := fun g hg => Option.mem_toList.mpr hg
  exact talks_withListener hmem fun _ _ _ => talks_send hmem t.accepted

/-- and its packets to both. -/
theorem Client.talks_onSockRead (t : Turn) (s : SocketLoop) (h : Handle) :
    Talks s (h :: s.sock_.toList) (Client.onSockRead t s h) := by
  have hmem : ∀ g, s.sock_ = some g → g ∈ h :: s.sock_.toList := fun g hg =>
    List.mem_cons_of_mem _ (Option.mem_toList.mpr hg)
  refine SocketLoop.talks_onSockRead List.mem_cons_self fun packet => ?_
  cases packet with
  | undecrypted => exact talks_sendAll hmem t.replies
  | exchangeAsym tooShort =>
    dsimp only
    rw [onReadExchangeAsymSecurity]
    split_ifs with hshort hcan
    · exact talks_postDisconnect hmem (Bool.and_eq_true_iff.mp hcan).1
    · exact talks_ok
    · exact talks_withListener hmem fun _ _ _ => talks_post .exchange
  | exchangeSym isVisitCodeOk =>
    dsimp only
    rw [onReadExchangeSymSecurity]
    have hleave : Talks s (h :: s.sock_.toList)
        (.ok (if s.canSend s.sock_ && !isVisitCodeOk then postDisconnect s else s)) := by
      split_ifs with hcan
      · rw [Bool.and_eq_true, canSend, Bool.and_eq_true] at hcan
        exact talks_postDisconnect hmem hcan.1.1
      · exact talks_ok
    exact hleave.bind (f := fun s => s.withListener s.sock_ fun s => .ok (s.postMsg .USER_START))
      fun ps _ => talks_withListener hmem fun _ _ _ => talks_post .userStart
  | user => exact talks_sendAll hmem t.replies

/-- Whom the handler of a message talks to. -/
def heard (s : SocketLoop) (role : Role) (m : SocketMsg) : List Handle :=
  match role, m with
  | .server, .SOCK_READ h => [h]
  | .client _, .SOCK_READ h => h :: s.sock_.toList
  | .client _, .SOCK_EXCHANGE_ASYM_SECURITY | .client _, .SOCK_EXCHANGE_SYM_SECURITY
  | .client _, .USER_START | .client _, .USER_LOOP | .client _, .TIMER => s.sock_.toList
  | _, _ => []

/-- **What a handler can do.** -/
inductive Worked (s : SocketLoop) : Role → SocketMsg → SocketLoop → Prop
  | talked {role : Role} {m : SocketMsg} {ps : List SocketMsg} : (∀ p ∈ ps, Said s (s.heard role m) p) → Worked s role m (s.posts ps)
  | fini {role : Role} {socks_ : ℕ → Option Registered} : s.selector_ = some socks_ →
      Worked s role .FINI { s with selector_ := none, opened := fun n => s.opened n && (socks_ n).isNone }
  | initServer : s.selector_.isSome → Worked s .server .INIT (s.postMsg .SOCK_LISTEN)
  | listening {n : ℕ} : s.selector_.isSome → s.opened n = false →
      Worked s .server .SOCK_LISTEN ((s.socket n).add ⟨n, s.conns⟩ .JyTcpSelectAccept)
  | notListening {n : ℕ} : s.selector_.isSome → s.opened n = false →
      Worked s .server .SOCK_LISTEN ((s.socket n).postMsg .SOCK_LISTEN)
  | accepted {g : Handle} : s.selector_.isSome → Worked s .server (.SOCK_ACCEPT g) (s.add g .JyTcpSelectRecv)
  | disconnected {g : Handle} : Worked s .server (.SOCK_DISCONNECT g) (s.del g.sock)
  | initClient {isSecure_ : Bool} : s.selector_.isSome →
      Worked s (.client isSecure_) .INIT (s.postMsg .SOCK_CONNECT_BEGIN)
  | connected {isSecure_ : Bool} {n : ℕ} : s.selector_.isSome → s.opened n = false →
      Worked s (.client isSecure_) .SOCK_CONNECT_BEGIN
        (((s.socket n).add ⟨n, s.conns⟩ .JyTcpSelectRecv).postMsg (.SOCK_CONNECT_END (some ⟨n, s.conns⟩)))
  | refused {isSecure_ : Bool} {n : ℕ} : s.selector_.isSome → s.opened n = false →
      Worked s (.client isSecure_) .SOCK_CONNECT_BEGIN
        (((s.socket n).whCloseSocket n).postMsg (.SOCK_CONNECT_END none))
  | notSet {isSecure_ : Bool} {n : ℕ} : s.selector_.isSome → s.opened n = false →
      Worked s (.client isSecure_) .SOCK_CONNECT_BEGIN (s.socket n)
  | retry {isSecure_ : Bool} : s.selector_.isSome →
      Worked s (.client isSecure_) (.SOCK_CONNECT_END none) (s.postMsg .SOCK_CONNECT_BEGIN)
  | ended {isSecure_ : Bool} {g : Handle} : Worked s (.client isSecure_) (.SOCK_CONNECT_END (some g))
      ({ s with sock_ := some g }.postMsg
        (if isSecure_ then .SOCK_EXCHANGE_ASYM_SECURITY else .USER_START))
  | left {isSecure_ : Bool} {g : Handle} : s.selector_.isSome →
      Worked s (.client isSecure_) (.SOCK_DISCONNECT g) { s.del g.sock with sock_ := none }

/-- A handler that uses `selector_` without a look at it, `onInit` and `onFini` apart. -/
def Unguarded (role : Role) (m : SocketMsg) : Prop :=
  match role, m with
  | .client _, .SOCK_CONNECT_BEGIN | .client _, .SOCK_DISCONNECT _ => True
  | _, _ => False

/-- What comes of a message: what a handler can do, or a null use. -/
def Comes (s : SocketLoop) (role : Role) (m : SocketMsg) : Except NullUse SocketLoop → Prop
  | .ok s' => Worked s role m s'
  | .error .selector => s.selector_ = none ∧ (m = .INIT ∨ m = .FINI ∨ Unguarded role m)
  | .error .listener => s.selector_.isSome ∧ ∃ h ∈ s.heard role m, s.find h.sock = none

variable {role : Role} {t : Turn} {x : Except NullUse SocketLoop}

/-- A handler that only talks is one of the things that come of a message. -/
theorem Talks.comes (hx : Talks s (s.heard role m) x) : Comes s role m x := by
  cases x with
  | error e =>
    obtain ⟨rfl, hsel, hnone⟩ := hx
    exact ⟨hsel, hnone⟩
  | ok s' =>
    obtain ⟨ps, rfl, hps⟩ := hx
    exact .talked hps

/-- So is nothing at all. -/
theorem comes_ok : Comes s role m (.ok s) := talks_ok.comes

/-- A handler that uses `selector_` first. -/
theorem comes_useSelector (hm : m = .INIT ∨ m = .FINI ∨ Unguarded role m)
    {f : (ℕ → Option Registered) → Except NullUse SocketLoop} (hf : ∀ socks_, s.selector_ = some socks_ → Comes s role m (f socks_)) :
    Comes s role m (s.useSelector >>= f) := by
  rw [useSelector]
  cases hsel : s.selector_ with
  | none => exact ⟨hsel, hm⟩
  | some socks_ => exact hf socks_ hsel

/-- `onFini` uses the selector it takes away. -/
theorem comes_onFini : Comes s role .FINI s.onFini :=
  comes_useSelector (.inr (.inl rfl)) fun _ hsel => .fini hsel

/-- **What comes of each message at a server**, -/
theorem Server.comes_onWork (hfresh : s.opened t.sock = false) :
    Comes s .server m (Server.onWork t s m) := by
  cases m with
  | INIT =>
    exact comes_useSelector (.inl rfl) fun socks_ hsel => .initServer (Option.isSome_of_eq_some hsel)
  | FINI => exact comes_onFini
  | SOCK_READ h => exact (talks_onSockRead t s h).comes
  | SOCK_LISTEN =>
    rw [Server.onWork, onListen]
    split_ifs with hsel
    · exact comes_ok
    · have hsel := Option.isSome_iff_ne_none.mpr (mt Option.isNone_iff_eq_none.mpr hsel)
      rw [addAccept]
      by_cases hbound : t.optSet && t.reached
      · rw [if_pos hbound]
        exact .listening hsel hfresh
      · rw [if_neg hbound]
        exact .notListening hsel hfresh
  | SOCK_ACCEPT h =>
    rw [Server.onWork, onSockAccept]
    split_ifs with hsel
    · exact comes_ok
    · exact .accepted (Option.isSome_iff_ne_none.mpr (mt Option.isNone_iff_eq_none.mpr hsel))
  | SOCK_DISCONNECT h =>
    rw [Server.onWork, onDisconnect]
    split_ifs
    · exact comes_ok
    · exact .disconnected
  | _ => exact comes_ok

/-- **and at a client.** -/
theorem Client.comes_onWork {isSecure_ : Bool} (hfresh : s.opened t.sock = false) :
    Comes s (.client isSecure_) m (Client.onWork isSecure_ t s m) := by
  have hmem : ∀ g, s.sock_ = some g → g ∈ s.sock_.toList := fun g hg => Option.mem_toList.mpr hg
  cases m with
  | INIT =>
    exact comes_useSelector (.inl rfl) fun socks_ hsel => .initClient (Option.isSome_of_eq_some hsel)
  | FINI => exact comes_onFini
  | SOCK_READ h => exact (talks_onSockRead t s h).comes
  | SOCK_CONNECT_BEGIN =>
    have hm : Unguarded (.client isSecure_) .SOCK_CONNECT_BEGIN := trivial
    refine comes_useSelector (.inr (.inr hm)) fun socks_ hsel => ?_
    have hsel := Option.isSome_of_eq_some hsel
    rw [addConnect]
    split_ifs
    · exact .connected hsel hfresh
    · exact .refused hsel hfresh
    · exact .notSet hsel hfresh
  | SOCK_CONNECT_END h =>
    cases h with
    | none =>
      rw [Client.onWork, onConnectEnd]
      split_ifs with hsel
      · exact comes_ok
      · exact .retry (Option.isSome_iff_ne_none.mpr (mt Option.isNone_iff_eq_none.mpr hsel))
    | some h => exact .ended
  | SOCK_EXCHANGE_ASYM_SECURITY => exact (talks_onExchange t s).comes
  | SOCK_EXCHANGE_SYM_SECURITY => exact (talks_onExchange t s).comes
  | SOCK_DISCONNECT h =>
    have hm : Unguarded (.client isSecure_) (.SOCK_DISCONNECT h) := trivial
    exact comes_useSelector (.inr (.inr hm)) fun socks_ hsel => .left (Option.isSome_of_eq_some hsel)
  | USER_START => exact (talks_sendAll hmem t.replies).comes
  | USER_LOOP => exact (talks_sendAll hmem t.replies).comes
  | TIMER => exact (talks_sendAll hmem t.replies).comes
  | _ => exact comes_ok

/-- **What comes of a message**, at either end. -/
theorem comes_onWork (hfresh : s.opened t.sock = false) : Comes s role m (onWork role t s m) := by
  cases role with
  | server => exact Server.comes_onWork hfresh
  | client isSecure_ => exact Client.comes_onWork hfresh

/-- Either of them. -/
theorem comes_of_eq (h : onWork role t s m = x) (hfresh : s.opened t.sock = false) : Comes s role m x :=
  h ▸ comes_onWork hfresh

/-- What the selector's thread can do. -/
inductive Selected (s : SocketLoop) (sock : ℕ) : Received → SocketLoop → Prop
  | nothing {r : Received} : Selected s sock r s
  | connection {l : Registered} {n : ℕ} : s.find sock = some l →
      Selected s sock (.connection n) { s.socket n with list_ := s.list_ ++ [.SOCK_ACCEPT ⟨n, s.conns⟩] }
  | packet {l : Registered} : s.find sock = some l →
      Selected s sock .packet { s with list_ := s.list_ ++ [.SOCK_READ ⟨sock, l.conn⟩] }
  | broken {l : Registered} : s.find sock = some l →
      Selected s sock .broken { s with list_ := s.list_ ++ [.SOCK_DISCONNECT ⟨sock, l.conn⟩] }

/-- **A socket without a listener is passed over**, any other posts one message at most. -/
theorem selected_onRead (s : SocketLoop) (sock : ℕ) (r : Received) : Selected s sock r (s.onRead sock r) := by
  rw [onRead.eq_def]
  cases hfind : s.find sock with
  | none => exact .nothing
  | some l =>
    dsimp only
    split_ifs with haccept
    · cases r with
      | connection n => exact .connection hfind
      | _ => exact .nothing
    · cases r with
      | packet => exact .packet hfind
      | broken => exact .broken hfind
      | _ => exact .nothing

/-- A listener is in a selector. -/
theorem selector_isSome_of_find {sock : ℕ} {l : Registered} (h : s.find sock = some l) :
    s.selector_.isSome := by
  obtain ⟨socks_, hsel, -⟩ := Option.bind_eq_some_iff.mp h
  exact Option.isSome_of_eq_some hsel

/-! ## What it leaves alone -/

/-- What is added takes no listener away, -/
theorem isSome_find_add {n : ℕ} (hfind : (s.find n).isSome) (h : Handle) (type : JyTcpSelectType) :
    ((s.add h type).find n).isSome := by
  obtain ⟨l, hl⟩ := Option.isSome_iff_exists.mp hfind
  obtain ⟨socks_, hsel, hl⟩ := Option.bind_eq_some_iff.mp hl
  rw [find, add, hsel, Option.map_some, Option.bind_some]
  by_cases hn : n = h.sock
  · subst hn
    rw [Function.update_self]
    rfl
  · rw [Function.update_of_ne hn, hl]
    rfl

/-- it is there, -/
theorem find_add_self (hsel : s.selector_.isSome) (h : Handle) (type : JyTcpSelectType) :
    (s.add h type).find h.sock = some ⟨type, h.conn⟩ := by
  obtain ⟨socks_, hsel⟩ := Option.isSome_iff_exists.mp hsel
  rw [find, add, hsel, Option.map_some, Option.bind_some, Function.update_self]

/-- and the others are what they were. -/
theorem find_add_of_ne {n : ℕ} {h : Handle} (hne : n ≠ h.sock) (type : JyTcpSelectType) :
    (s.add h type).find n = s.find n := by
  rw [find, find, add]
  cases s.selector_ with
  | none => rfl
  | some socks_ => rw [Option.map_some, Option.bind_some, Option.bind_some, Function.update_of_ne hne]

/-- So they are when one is taken away, -/
theorem find_del_of_ne {n sock : ℕ} (hne : n ≠ sock) : (s.del sock).find n = s.find n := by
  rw [del]
  split_ifs
  · cases hsel : s.selector_ with
    | none => simp only [find, whCloseSocket, hsel, Option.map_none]
    | some socks_ =>
      simp only [find, whCloseSocket, hsel, Option.map_some, Option.bind_some, Function.update_of_ne hne]
  · rfl

/-- what is to be posted -/
theorem posting_del (s : SocketLoop) (sock : ℕ) : (s.del sock).posting = s.posting := by
  rw [del]
  split_ifs
  · rfl
  · rfl

/-- and whether there is a selector, -/
theorem selector_del (s : SocketLoop) (sock : ℕ) : (s.del sock).selector_ = none ↔ s.selector_ = none := by
  rw [del]
  split_ifs
  · exact Option.map_eq_none_iff
  · exact Iff.rfl

/-- and the client's socket; -/
theorem sock_del (s : SocketLoop) (sock : ℕ) : (s.del sock).sock_ = s.sock_ := by
  rw [del]
  split_ifs
  · rfl
  · rfl

/-- the one taken away is not there. -/
theorem find_del_self (s : SocketLoop) (sock : ℕ) : (s.del sock).find sock = none := by
  rw [del]
  split_ifs with hfind
  · cases hsel : s.selector_ with
    | none => simp only [find, whCloseSocket, Option.map_none, Option.bind_none]
    | some socks_ =>
      simp only [find, whCloseSocket, Option.map_some, Option.bind_some, Function.update_self]
  · exact Option.not_isSome_iff_eq_none.mp hfind

/-- A selector that is gone stays so. -/
theorem Worked.closed (h : Worked s role m s') (hsel : s.selector_ = none) : s'.selector_ = none := by
  have hadd : ∀ (g : Handle) (type : JyTcpSelectType), (s.add g type).selector_ = none := fun g type => by
    rw [add, hsel]
    rfl
  cases h with
  | fini _ => rfl
  | listening _ _ => exact hadd _ _
  | accepted _ => exact hadd _ _
  | disconnected => exact (selector_del s _).mpr hsel
  | connected _ _ => exact hadd _ _
  | left _ => exact (selector_del s _).mpr hsel
  | _ => exact hsel

/-- A handler takes nothing from the queue, and stops nothing. -/
theorem Worked.keeps (h : Worked s role m s') :
    s'.list_ = s.list_ ∧ s'.taken = s.taken ∧ s'.stopped = s.stopped ∧ s'.fault = s.fault := by
  have hdel : ∀ sock, (s.del sock).list_ = s.list_ ∧ (s.del sock).taken = s.taken ∧
      (s.del sock).stopped = s.stopped ∧ (s.del sock).fault = s.fault := by
    intro sock
    rw [del]
    split_ifs
    · exact ⟨rfl, rfl, rfl, rfl⟩
    · exact ⟨rfl, rfl, rfl, rfl⟩
  cases h with
  | disconnected => exact hdel _
  | left _ => exact hdel _
  | _ => exact ⟨rfl, rfl, rfl, rfl⟩

/-- What is left to be handled when a handler has run. -/
theorem Worked.pending (h : Worked { s with taken := none } role m s') : s'.pending = s.list_ := by
  obtain ⟨hlist, htaken, -, -⟩ := h.keeps
  rw [SocketLoop.pending, hlist, htaken]
  rfl

end SocketLoop

end EuhatExpert
