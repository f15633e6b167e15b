import EuhatExpert.Common.JyTcpEndpoint

/-!
# Common/JyTcpServer — the server's side of a connection

A connection starts with all three ciphers at hand and the clear one in use.  The server switches to
the asymmetric cipher behind its answer to the client's certificate, and to the symmetric one behind its
answer to the client's buffers, whether or not the visit code matches; packets of any other type are
handed to `onRead` at any time.
-/

namespace EuhatExpert

open Machinery JyTcpEndpoint

namespace JyTcpServer

variable (cipher : AsymmetricCipher) (md5 : Bytes → Block 16) (visitCode_ hostInfo : Bytes)

/-- `onReadExchangeAsymSecurity`: the client's certificate is taken, and answered with the server's. -/
def onReadExchangeAsymSecurity (stale : ℕ → UInt8) (l : JyTcpListener) (ds : JyDataReadStream) :
    Except Fault Out := do
  let (n, ds) ← (JyDataReadStream.getBuf 4).run ds
  let (e, _) ← (JyDataReadStream.getBuf 4).run ds
  let l := { l with encAsym_ := ⟨JyBigNum.setBuf l.encAsym_.n_ n, JyBigNum.setBuf l.encAsym_.e_ e⟩ }
  let ack ← transmit cipher l stale JyTcpCmdExchangeAsymSecurity (putCert l)
  pure ⟨some { l with enc_ := .asymmetric, dec_ := .asymmetric }, some ack, [], none⟩

/-- The keys a packet of the symmetric exchange leaves: with a wrong digest the reading one is random.
`JyBuf::xorData` is given by what `xorData` leaves in its stream. -/
def exchangeSym (l : JyTcpListener) (rnd encBuf decBuf digest : Bytes) (stale : ℕ → UInt8) :
    JyTcpListener :=
  let visitCodeMd5 := (md5 visitCode_).val
  { l with
    encSym_ := xorBytes visitCodeMd5 encBuf stale
    decSym_ := if digest = (md5 visitCodeMd5).val then xorBytes visitCodeMd5 decBuf stale else rnd }

/-- `onReadExchangeSymSecurity`: the keys are taken, and answered with whether the digest was right. -/
def onReadExchangeSymSecurity (rnd : Block 2048) (stale : ℕ → UInt8) (l : JyTcpListener)
    (ds : JyDataReadStream) : Except Fault Out := do
  let (encBuf, ds) ← (JyDataReadStream.getBuf 4).run ds
  let (decBuf, ds) ← (JyDataReadStream.getBuf 4).run ds
  let (digest, _) ← (JyDataReadStream.getBuf 4).run ds
  let l := exchangeSym md5 visitCode_ l rnd.val encBuf decBuf digest stale
  let ack ← transmit cipher l stale JyTcpCmdExchangeSymSecurity (do
    JyDataWriteStream.put 4 (if digest = (md5 (md5 visitCode_).val).val then 1 else 0)
    JyDataWriteStream.putBufWithoutLen hostInfo)
  pure ⟨some { l with enc_ := .symmetric, dec_ := .symmetric }, some ack, [], none⟩

variable {pool : JyBufPool}

/-- `onSockRead`; the listener of a socket that was deleted is null. -/
def onSockRead (l : Option JyTcpListener) (fresh : Fresh pool.unitSize_)
    (buf : JyTcpBuf pool.unitSize_) : Except Fault Out :=
  match l with
  | none => .error .outside
  | some listener =>
    match JyTcpEndpoint.onSockRead cipher listener buf fresh.block with
    | .error f => .error f
    | .ok none => .ok ⟨l, none, [.JY_MSG_TYPE_SOCK_DISCONNECT], none⟩
    | .ok (some r) =>
      if r.packetType = JyTcpCmdExchangeAsymSecurity then
        onReadExchangeAsymSecurity cipher fresh.stale listener r.ds
      else if r.packetType = JyTcpCmdExchangeSymSecurity then
        onReadExchangeSymSecurity cipher md5 visitCode_ hostInfo fresh.rnd fresh.stale listener r.ds
      else .ok ⟨l, none, [], some r⟩

/-- `onWork` of the messages an endpoint posts to itself. -/
def onWork (l : Option JyTcpListener) : JyMsgType → Out
  | .JY_MSG_TYPE_SOCK_DISCONNECT => ⟨none, none, [], none⟩
  | _ => ⟨l, none, [], none⟩

/-- The digest a packet of the symmetric exchange carries. -/
def digestOf (ds : JyDataReadStream) : Except Fault Bytes := do
  let (_, ds) ← (JyDataReadStream.getBuf 4).run ds
  let (_, ds) ← (JyDataReadStream.getBuf 4).run ds
  let (digest, _) ← (JyDataReadStream.getBuf 4).run ds
  pure digest

/-- The digest that matches. -/
def visitDigest : Bytes := (md5 (md5 visitCode_).val).val

/-! ## What the handlers come to -/

variable {cipher md5 visitCode_ hostInfo} {l : JyTcpListener} {ds : JyDataReadStream} {more : Bytes}

/-- What comes of a certificate, -/
theorem onReadExchangeAsymSecurity_eq {n e : Bytes} (hn : n.length < 2 ^ 31) (he : e.length < 2 ^ 31)
    (h : ds.Ahead (putInt 4 n.length ++ n ++ (putInt 4 e.length ++ e ++ more))) (stale : ℕ → UInt8) :
    onReadExchangeAsymSecurity cipher stale l ds =
      (transmit cipher
        { l with encAsym_ := ⟨JyBigNum.setBuf l.encAsym_.n_ n, JyBigNum.setBuf l.encAsym_.e_ e⟩ }
        stale JyTcpCmdExchangeAsymSecurity (putCert l)).map fun ack =>
          ⟨some { l with
            encAsym_ := ⟨JyBigNum.setBuf l.encAsym_.n_ n, JyBigNum.setBuf l.encAsym_.e_ e⟩
            enc_ := .asymmetric
            dec_ := .asymmetric }, some ack, [], none⟩ := by
  rw [onReadExchangeAsymSecurity, h.getBuf (by norm_num; omega)]
  simp only [bind, Except.bind]
  rw [h.skip_buf.getBuf (by norm_num; omega)]
  rfl

/-- and of two keys and a digest. -/
theorem onReadExchangeSymSecurity_eq {encBuf decBuf digest : Bytes} (he : encBuf.length < 2 ^ 31)
    (hd : decBuf.length < 2 ^ 31) (hm : digest.length < 2 ^ 31)
    (h : ds.Ahead (putInt 4 encBuf.length ++ encBuf ++ (putInt 4 decBuf.length ++ decBuf ++
      (putInt 4 digest.length ++ digest ++ more)))) (rnd : Block 2048) (stale : ℕ → UInt8) :
    onReadExchangeSymSecurity cipher md5 visitCode_ hostInfo rnd stale l ds =
      (transmit cipher (exchangeSym md5 visitCode_ l rnd.val encBuf decBuf digest stale) stale
        JyTcpCmdExchangeSymSecurity (do
          JyDataWriteStream.put 4 (if digest = (md5 (md5 visitCode_).val).val then 1 else 0)
          JyDataWriteStream.putBufWithoutLen hostInfo)).map fun ack =>
            ⟨some { exchangeSym md5 visitCode_ l rnd.val encBuf decBuf digest stale with
              enc_ := .symmetric
              dec_ := .symmetric }, some ack, [], none⟩ := by
  rw [onReadExchangeSymSecurity, h.getBuf (by norm_num; omega)]
  simp only [bind, Except.bind]
  rw [h.skip_buf.getBuf (by norm_num; omega)]
  simp only
  rw [h.skip_buf.skip_buf.getBuf (by norm_num; omega)]
  rfl

theorem dec_of_onReadExchangeAsymSecurity {stale : ℕ → UInt8} {out : Out}
    (h : onReadExchangeAsymSecurity cipher stale l ds = .ok out) :
    ∃ l', out.l = some l' ∧ l'.dec_ = .asymmetric ∧ out.read = none := by
  obtain ⟨_, -, h⟩ := exists_of_bind_eq_ok h
  obtain ⟨_, -, h⟩ := exists_of_bind_eq_ok h
  obtain ⟨_, -, h⟩ := exists_of_bind_eq_ok h
  injection h with h
  subst h
  exact ⟨_, rfl, rfl, rfl⟩

theorem dec_of_onReadExchangeSymSecurity {rnd : Block 2048} {stale : ℕ → UInt8} {out : Out}
    (h : onReadExchangeSymSecurity cipher md5 visitCode_ hostInfo rnd stale l ds = .ok out) :
    (∃ l', out.l = some l' ∧ l'.dec_ = .symmetric ∧ out.read = none) ∧
      ∃ digest, digestOf ds = .ok digest := by
  obtain ⟨_, h₁, h⟩ := exists_of_bind_eq_ok h
  obtain ⟨_, h₂, h⟩ := exists_of_bind_eq_ok h
  obtain ⟨digest, h₃, h⟩ := exists_of_bind_eq_ok h
  obtain ⟨_, -, h⟩ := exists_of_bind_eq_ok h
  injection h with h
  subst h
  refine ⟨⟨_, rfl, rfl, rfl⟩, digest.1, ?_⟩
  rw [digestOf, h₁]
  simp only [bind, Except.bind]
  rw [h₂]
  simp only
  rw [h₃]
  rfl

/-- **What the server does with a packet**: it does not decrypt, or is one of the two exchanges, or is
handed on with the listener as it was. -/
inductive Received (cipher : AsymmetricCipher) (l : JyTcpListener) (buf : JyTcpBuf pool.unitSize_)
    (block : Block pool.unitSize_) (out : Out) : Prop
  | undecrypted : JyTcpEndpoint.onSockRead cipher l buf block = .ok none → out.l = some l →
      out.read = none → Received cipher l buf block out
  | exchangedAsym {r l'} : JyTcpEndpoint.onSockRead cipher l buf block = .ok (some r) →
      r.packetType = JyTcpCmdExchangeAsymSecurity → out.l = some l' → l'.dec_ = .asymmetric →
      out.read = none → Received cipher l buf block out
  | exchangedSym {r l' digest} : JyTcpEndpoint.onSockRead cipher l buf block = .ok (some r) →
      r.packetType = JyTcpCmdExchangeSymSecurity → digestOf r.ds = .ok digest → out.l = some l' →
      l'.dec_ = .symmetric → out.read = none → Received cipher l buf block out
  | handedOn {r} : JyTcpEndpoint.onSockRead cipher l buf block = .ok (some r) →
      r.packetType ≠ JyTcpCmdExchangeAsymSecurity → r.packetType ≠ JyTcpCmdExchangeSymSecurity →
      out.l = some l → out.read = some r → Received cipher l buf block out

theorem received_of_onSockRead {fresh : Fresh pool.unitSize_} {buf : JyTcpBuf pool.unitSize_} {out : Out}
    (h : onSockRead cipher md5 visitCode_ hostInfo (some l) fresh buf = .ok out) :
    Received cipher l buf fresh.block out := by
  rw [onSockRead] at h
  cases hr : JyTcpEndpoint.onSockRead cipher l buf fresh.block with
  | error f =>
    rw [hr] at h
    cases h
  | ok read =>
    rw [hr] at h
    cases read with
    | none =>
      injection h with h
      subst h
      exact .undecrypted hr rfl rfl
    | some r =>
      dsimp only at h
      split_ifs at h with hasym hsym
      · obtain ⟨l', hl, hdec, hread⟩ := dec_of_onReadExchangeAsymSecurity h
        exact .exchangedAsym hr hasym hl hdec hread
      · obtain ⟨⟨l', hl, hdec, hread⟩, digest, hd⟩ := dec_of_onReadExchangeSymSecurity h
        exact .exchangedSym hr hsym hd hl hdec hread
      · injection h with h
        subst h
        exact .handedOn hr hasym hsym rfl rfl

end JyTcpServer

end EuhatExpert
