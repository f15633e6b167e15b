import EuhatExpert.Common.JyTcpEndpoint

/-!
# Common/JyTcpClient — the client's side of a connection

The client sends its certificate, and switches to the asymmetric cipher with the answer; it sends two
random buffers, which both ends turn into keys with the visit code, and switches to the symmetric cipher
with the answer to these.
-/

namespace EuhatExpert

open Machinery JyTcpEndpoint

namespace JyTcpClient

variable (cipher : AsymmetricCipher) (md5 : Bytes → Block 16) (visitCode_ : Bytes)

def onExchangeAsymSecurity (stale : ℕ → UInt8) (l : JyTcpListener) : Except Fault Out := do
  let p ← transmit cipher l stale JyTcpCmdExchangeAsymSecurity (putCert l)
  pure ⟨some l, some p, [], none⟩

def onReadExchangeAsymSecurity (l : JyTcpListener) (ds : JyDataReadStream) : Except Fault Out := do
  let (n, ds) ← (JyDataReadStream.getBuf 4).run ds
  if n.length < 10 then pure ⟨some l, none, [.JY_MSG_TYPE_SOCK_DISCONNECT], none⟩
  else
    let (e, _) ← (JyDataReadStream.getBuf 4).run ds
    let encAsym_ := ⟨JyBigNum.setBuf l.encAsym_.n_ n, JyBigNum.setBuf l.encAsym_.e_ e⟩
    pure ⟨some { l with encAsym_ := encAsym_, enc_ := .asymmetric, dec_ := .asymmetric }, none,
      [.JY_MSG_TYPE_SOCK_EXCHANGE_SYM_SECURITY], none⟩

/-- The keys of the symmetric exchange: the first buffer is for reading. -/
def exchangeSym (l : JyTcpListener) (rnd rnd' : Bytes) (stale : ℕ → UInt8) : JyTcpListener :=
  let visitCodeMd5 := (md5 visitCode_).val
  { l with
    decSym_ := xorBytes visitCodeMd5 rnd stale
    encSym_ := xorBytes visitCodeMd5 rnd' stale }

def onExchangeSymSecurity (rnd rnd' : Block 2048) (stale : ℕ → UInt8) (l : JyTcpListener) :
    Except Fault Out := do
  let l := exchangeSym md5 visitCode_ l rnd.val rnd'.val stale
  let p ← transmit cipher l stale JyTcpCmdExchangeSymSecurity (do
    JyDataWriteStream.putBuf 4 rnd.val
    JyDataWriteStream.putBuf 4 rnd'.val
    JyDataWriteStream.putBuf 4 (md5 (md5 visitCode_).val).val)
  pure ⟨some l, some p, [], none⟩

/-- The answer's payload is not read here. -/
def onReadExchangeSymSecurity (l : JyTcpListener) : Out :=
  ⟨some { l with enc_ := .symmetric, dec_ := .symmetric }, none, [.JY_MSG_TYPE_USER_START], none⟩

variable {pool : JyBufPool}

/-- `onSockRead`; the listener of a socket that was deleted is null. -/
def onSockRead (l : Option JyTcpListener) (fresh : Fresh pool.unitSize_)
    (buf : JyTcpBuf pool.unitSize_) : Except Fault Out :=
  match l with
  | none => .error .outside
  | some listener =>
    match JyTcpEndpoint.onSockRead cipher listener buf fresh.block with
    | .error f => .error f
    | .ok none => .ok ⟨l, none, [.JY_MSG_TYPE_SOCK_DISCONNECT], none⟩
    | .ok (some r) =>
      if r.packetType = JyTcpCmdExchangeAsymSecurity then onReadExchangeAsymSecurity listener r.ds
      else if r.packetType = JyTcpCmdExchangeSymSecurity then .ok (onReadExchangeSymSecurity listener)
      else .ok ⟨l, none, [], some r⟩

/-- `onWork` of the messages an endpoint posts to itself: `sock_` is valid as long as its listener is
there. -/
def onWork (l : Option JyTcpListener) (fresh : Fresh pool.unitSize_) : JyMsgType → Except Fault Out
  | .JY_MSG_TYPE_SOCK_CONNECT_END =>
    pure ⟨l, none, [.JY_MSG_TYPE_SOCK_EXCHANGE_ASYM_SECURITY], none⟩
  | .JY_MSG_TYPE_SOCK_EXCHANGE_ASYM_SECURITY =>
    match l with
    | some listener => onExchangeAsymSecurity cipher fresh.stale listener
    | none => pure ⟨l, none, [], none⟩
  | .JY_MSG_TYPE_SOCK_EXCHANGE_SYM_SECURITY =>
    match l with
    | some listener =>
      onExchangeSymSecurity cipher md5 visitCode_ fresh.rnd fresh.rnd' fresh.stale listener
    | none => pure ⟨l, none, [], none⟩
  | .JY_MSG_TYPE_SOCK_DISCONNECT => pure ⟨none, none, [], none⟩
  | .JY_MSG_TYPE_USER_START => pure ⟨l, none, [], none⟩

/-! ## What a handler comes to -/

/-- **The answer to the certificate** switches the cipher and posts the next exchange, or, with too
short a key, a disconnect. -/
theorem onReadExchangeAsymSecurity_eq {l : JyTcpListener} {ds : JyDataReadStream} {more n e : Bytes}
    (hn : n.length < 2 ^ 31) (he : e.length < 2 ^ 31)
    (h : ds.Ahead (putInt 4 n.length ++ n ++ (putInt 4 e.length ++ e ++ more))) :
    onReadExchangeAsymSecurity l ds = .ok (
      if n.length < 10 then ⟨some l, none, [.JY_MSG_TYPE_SOCK_DISCONNECT], none⟩
      else ⟨some { l with
        encAsym_ := ⟨JyBigNum.setBuf l.encAsym_.n_ n, JyBigNum.setBuf l.encAsym_.e_ e⟩
        enc_ := .asymmetric
        dec_ := .asymmetric }, none, [.JY_MSG_TYPE_SOCK_EXCHANGE_SYM_SECURITY], none⟩) := by
  rw [onReadExchangeAsymSecurity, h.getBuf (by norm_num; omega)]
  simp only [bind, Except.bind]
  split_ifs
  · rfl
  · rw [h.skip_buf.getBuf (by norm_num; omega)]
    rfl

end JyTcpClient

end EuhatExpert
