import EuhatExpert.Common.JyTcpSelector
import EuhatExpert.Common.XorData

/-!
# Common/JyTcpEndpoint — packets through the ciphers of a connection

A `JyTcpListener` holds three ciphers for each direction, and `enc_`, `dec_` point to the ones in use.
`send` turns a written stream into a frame with `enc_`, `onSockRead` turns a received packet into its type
and a stream of its payload with `dec_`; the header is always in clear.  The asymmetric cipher is a pair
of calls, so that it may be the code's own (`AsymmetricCipher.rsa`) or one assumed to work.
-/

namespace EuhatExpert

open Machinery

structure AsymmetricCipher where
  encrypt : JyDataEncryptAsymmetric → Bytes → WriteM Unit
  decrypt : JyDataDecryptAsymmetric → Bytes → ℤ → WriteM Bool

/-- The code's own. -/
def AsymmetricCipher.rsa : AsymmetricCipher :=
  ⟨JyDataEncryptAsymmetric.encrypt, JyDataDecryptAsymmetric.decrypt⟩

/-- The cipher returns each plaintext unchanged: what `encrypt` appends under `enc`, with anything behind
it in memory, `decrypt` under `dec` turns back. -/
def AsymmetricCipher.Returns (cipher : AsymmetricCipher)
    (enc : JyDataEncryptAsymmetric) (dec : JyDataDecryptAsymmetric) : Prop :=
  ∀ payload, ∃ x, JyDataWriteStream.Emits (cipher.encrypt enc payload) x (.ok ()) ∧
    ∀ stale, JyDataWriteStream.Emits (cipher.decrypt dec (x ++ stale) x.length) payload (.ok true)

/-- Which of a listener's ciphers `enc_` or `dec_` points to. -/
inductive CipherKind
  | clear
  | asymmetric
  | symmetric
  deriving DecidableEq, Repr

/-- The certificate an endpoint reads from its ini section. -/
structure Cert where
  n : Bytes
  d : Bytes
  e : Bytes

/-- `JyTcpListener` of a secure endpoint; of the symmetric ciphers, their `xor_`. -/
structure JyTcpListener where
  encAsym_ : JyDataEncryptAsymmetric
  decAsym_ : JyDataDecryptAsymmetric
  encSym_ : Bytes
  decSym_ : Bytes
  e_ : Bytes
  enc_ : CipherKind
  dec_ : CipherKind

namespace JyTcpListener

def new (cert : Cert) : JyTcpListener where
  encAsym_ := ⟨0, 0⟩
  decAsym_ := ⟨JyBigNum.setBuf 0 cert.n, JyBigNum.setBuf 0 cert.d⟩
  encSym_ := []
  decSym_ := []
  e_ := cert.e
  enc_ := .clear
  dec_ := .clear

variable (cipher : AsymmetricCipher) (l : JyTcpListener)

/-- `enc_->encrypt`; `stale` is what stands in the buffer written to. -/
def encrypt (stale : ℕ → UInt8) (buf : Bytes) : WriteM Unit :=
  match l.enc_ with
  | .clear => JyDataWriteStream.putBufWithoutLen buf
  | .asymmetric => cipher.encrypt l.encAsym_ buf
  | .symmetric => xorData l.encSym_ buf stale

/-- `dec_->decrypt` of `len` bytes at the front of `mem`.  A negative length is a `size_t` beyond all
room, and the doubling in `ensureRoom` does not end. -/
def decrypt (stale : ℕ → UInt8) (mem : Bytes) (len : ℤ) : WriteM Bool :=
  match l.dec_ with
  | .asymmetric => cipher.decrypt l.decAsym_ mem len
  | .clear =>
    if len < 0 then throw .overflow
    else do
      JyDataWriteStream.putBufWithoutLen (mem.take len.toNat)
      pure true
  | .symmetric =>
    if len < 0 then throw .overflow
    else do
      xorData l.decSym_ (mem.take len.toNat) stale
      pure true

end JyTcpListener

namespace JyTcpEndpoint

/-- `writeHeader`: room for the length, and the type. -/
def writeHeader (packetType : ℤ) : WriteM Unit := do
  JyDataWriteStream.put 4 0
  JyDataWriteStream.put 4 packetType

/-- A frame on the wire: its total length, its type, and the rest. -/
def frame (packetType : ℤ) (body : Bytes) : Bytes :=
  putInt 4 (8 + body.length) ++ (putInt 4 packetType ++ body)

/-- `send`: the frame handed to the selector for the written stream `ds`. -/
def send (cipher : AsymmetricCipher) (l : JyTcpListener) (stale : ℕ → UInt8)
    (ds : JyDataWriteStream) : Except Fault Bytes :=
  if l.enc_ = .clear then .ok (overwrite ds.written 0 (putInt 4 ds.idx_))
  else
    let write : WriteM Unit := do
      JyDataWriteStream.put 4 0
      JyDataWriteStream.putBufWithoutLen ((ds.written.drop 4).take 4)
      l.encrypt cipher stale (ds.written.drop 8)
    match write.run JyDataWriteStream.new with
    | .ok _ dsOut => .ok (overwrite dsOut.written 0 (putInt 4 dsOut.idx_))
    | .error f _ => .error f

/-- A frame that was sent: its bytes, and what was encoded in them with which cipher. -/
structure Sent where
  bytes : Bytes
  kind : CipherKind
  packetType : ℤ
  payload : Bytes

/-- A header and a body written to a new stream, and sent. -/
def transmit (cipher : AsymmetricCipher) (l : JyTcpListener) (stale : ℕ → UInt8) (packetType : ℤ)
    (body : WriteM Unit) : Except Fault Sent :=
  match (writeHeader packetType >>= fun _ => body).run JyDataWriteStream.new with
  | .ok _ ds => (send cipher l stale ds).map (⟨·, l.enc_, packetType, ds.written.drop 8⟩)
  | .error f _ => .error f

/-- The type of a packet and a stream of its payload. -/
structure SockRead where
  packetType : ℤ
  ds : JyDataReadStream

/-- `onSockRead` of a packet, with the block the pool gives for the plaintext: nothing when it does not
decrypt, which disconnects.  A plaintext that outgrew that block has freed it. -/
def onSockRead (cipher : AsymmetricCipher) {pool : JyBufPool} (l : JyTcpListener)
    (buf : JyTcpBuf pool.unitSize_) (block : Block pool.unitSize_) :
    Except Fault (Option SockRead) :=
  if l.dec_ = .clear then do
    let read : ReadM ℤ := do
      let _ ← JyDataReadStream.get 4
      JyDataReadStream.get 4
    let (packetType, ds) ← read.run ⟨buf.guard_.val, buf.recvLen_, 0⟩
    pure (some ⟨packetType, ds⟩)
  else if buf.guard_.val.length < 8 then .error .outside
  else
    let packetType := getInt ((buf.guard_.val.drop 4).take 4)
    match (l.decrypt cipher (fun i => block.val.getD i 0) (buf.guard_.val.drop 8)
      (buf.recvLen_ - 8)).run (JyDataWriteStream.ofPool pool) with
    | .error f _ => .error f
    | .ok ok dsOut =>
      if dsOut.holder = .heap then .error .freed
      else if ok then
        .ok (some ⟨packetType, ⟨dsOut.written ++ block.val.drop dsOut.idx_, dsOut.idx_, 0⟩⟩)
      else .ok none

/-! ## What is sent -/

variable {cipher : AsymmetricCipher} {l : JyTcpListener}

theorem emits_writeHeader (packetType : ℤ) : JyDataWriteStream.Emits (writeHeader packetType)
    (putInt 4 0 ++ putInt 4 packetType) (.ok ()) :=
  (JyDataWriteStream.emits_put 4 0).bind (JyDataWriteStream.emits_put 4 packetType)

theorem length_frame (packetType : ℤ) (x : Bytes) : (frame packetType x).length = 8 + x.length := by
  rw [frame, List.length_append, List.length_append, length_putInt, length_putInt]
  omega

theorem overwrite_header (packetType : ℤ) (x : Bytes) :
    overwrite (putInt 4 0 ++ (putInt 4 packetType ++ x)) 0 (putInt 4 (8 + x.length))
      = frame packetType x := by
  rw [overwrite, List.take_zero, List.nil_append, length_putInt, frame,
    List.drop_left' (length_putInt _ _)]

/-- The frame made from the header and the body a stream holds, where an index can count it. -/
theorem send_of_emits {stale : ℕ → UInt8} {packetType : ℤ} {payload x : Bytes} {ds : JyDataWriteStream}
    (hds : ds.written = putInt 4 0 ++ putInt 4 packetType ++ payload)
    (henc : JyDataWriteStream.Emits (l.encrypt cipher stale payload) x (.ok ())) :
    (8 + x.length < 2 ^ 31 → send cipher l stale ds = .ok (frame packetType x)) ∧
      (2 ^ 31 ≤ 8 + x.length → send cipher l stale ds = .error .overflow) := by
  have hhead : (putInt 4 0 ++ putInt 4 packetType).length = 8 := by
    rw [List.length_append, length_putInt, length_putInt]
  have hlen : ds.idx_ = 8 + payload.length := by
    rw [JyDataWriteStream.idx_, hds, List.length_append, hhead]
  have hint : ds.idx_ < 2 ^ 31 := ds.isInt
  rw [send]
  by_cases hc : l.enc_ = .clear
  · have hpayload : payload = x := by
      rw [JyTcpListener.encrypt, hc] at henc
      exact (JyDataWriteStream.emits_putBufWithoutLen payload).unique henc (by omega)
    refine ⟨fun _ => ?_, fun hover => absurd hover (by rw [← hpayload]; omega)⟩
    rw [if_pos hc, ← hpayload, ← overwrite_header, hds, List.append_assoc, hlen]
    push_cast
    rfl
  · have htype : (ds.written.drop 4).take 4 = putInt 4 packetType := by
      rw [hds, List.append_assoc, List.drop_left' (length_putInt _ _),
        List.take_left' (length_putInt _ _)]
    have hbody : ds.written.drop 8 = payload := by rw [hds, List.drop_left' hhead]
    have hwrite := (JyDataWriteStream.emits_put 4 0).bind (f := fun _ => do
      JyDataWriteStream.putBufWithoutLen (putInt 4 packetType)
      l.encrypt cipher stale payload)
      ((JyDataWriteStream.emits_putBufWithoutLen (putInt 4 packetType)).bind henc)
    have hcount : JyDataWriteStream.new.idx_ + (putInt 4 0 ++ (putInt 4 packetType ++ x)).length
        = 8 + x.length := by
      simp only [List.length_append, length_putInt, JyDataWriteStream.idx_, JyDataWriteStream.new,
        List.length_nil]
      omega
    rw [if_neg hc, htype, hbody]
    dsimp only
    refine ⟨fun hlt => ?_, fun hover => ?_⟩
    · have hroom : JyDataWriteStream.new.idx_ + (putInt 4 0 ++ (putInt 4 packetType ++ x)).length
          < 2 ^ 31 := by rwa [hcount]
      have hidx : (JyDataWriteStream.new.push _ hroom).idx_ = 8 + x.length :=
        (JyDataWriteStream.push_idx _ hroom).trans hcount
      rw [hwrite.run _ hroom, ← overwrite_header]
      dsimp only [JyDataWriteStream.resultOn]
      rw [hidx]
      push_cast
      rfl
    · obtain ⟨t, ht, -⟩ := hwrite.overrun JyDataWriteStream.new (by rwa [hcount])
      rw [ht]

/-- What was sent is that frame. -/
theorem send_eq {stale : ℕ → UInt8} {packetType : ℤ} {payload x : Bytes} {ds : JyDataWriteStream}
    (hds : ds.written = putInt 4 0 ++ putInt 4 packetType ++ payload)
    (henc : JyDataWriteStream.Emits (l.encrypt cipher stale payload) x (.ok ())) {bytes : Bytes}
    (h : send cipher l stale ds = .ok bytes) :
    bytes = frame packetType x ∧ 8 + x.length < 2 ^ 31 := by
  by_cases hlt : 8 + x.length < 2 ^ 31
  · rw [(send_of_emits hds henc).1 hlt] at h
    injection h with h
    exact ⟨h.symm, hlt⟩
  · rw [(send_of_emits hds henc).2 (not_lt.mp hlt)] at h
    cases h

theorem exists_of_bind_eq_ok {α β : Type} {x : Except Fault α} {f : α → Except Fault β} {b : β}
    (h : (x >>= f) = .ok b) : ∃ a, x = .ok a ∧ f a = .ok b := by
  cases x with
  | error e => cases h
  | ok a => exact ⟨a, rfl, h⟩

theorem exists_of_map_eq_ok {α β : Type} {x : Except Fault α} {f : α → β} {b : β}
    (h : x.map f = .ok b) : ∃ a, x = .ok a ∧ f a = b := by
  cases x with
  | error e => cases h
  | ok a => exact ⟨a, rfl, by injection h⟩

/-- **What is handed to the selector** when the body of a packet is written and `enc_` emits. -/
theorem transmit_eq {stale : ℕ → UInt8} {packetType : ℤ} {body : WriteM Unit} {payload x : Bytes}
    (hbody : JyDataWriteStream.Emits body payload (.ok ()))
    (henc : JyDataWriteStream.Emits (l.encrypt cipher stale payload) x (.ok ())) {p : Sent}
    (hp : transmit cipher l stale packetType body = .ok p) :
    p = ⟨frame packetType x, l.enc_, packetType, payload⟩ ∧ 8 + x.length < 2 ^ 31 := by
  have hwrite := (emits_writeHeader packetType).bind (f := fun _ => body) hbody
  rw [transmit] at hp
  split at hp
  · next ds hrun =>
    obtain ⟨-, hds, -⟩ := hwrite.of_run_new hrun
    have hpay : ds.written.drop 8 = payload := by
      rw [hds, List.drop_left' (by rw [List.length_append, length_putInt, length_putInt])]
    obtain ⟨bytes, hbytes, rfl⟩ := exists_of_map_eq_ok hp
    obtain ⟨rfl, hlt⟩ := send_eq hds henc hbytes
    rw [hpay]
    exact ⟨rfl, hlt⟩
  · cases hp

/-- What an index can count is sent. -/
theorem transmit_of_emits {stale : ℕ → UInt8} {packetType : ℤ} {body : WriteM Unit} {payload x : Bytes}
    (hbody : JyDataWriteStream.Emits body payload (.ok ())) (hpayload : 8 + payload.length < 2 ^ 31)
    (henc : JyDataWriteStream.Emits (l.encrypt cipher stale payload) x (.ok ()))
    (hx : 8 + x.length < 2 ^ 31) :
    transmit cipher l stale packetType body = .ok ⟨frame packetType x, l.enc_, packetType, payload⟩ := by
  have hwrite := (emits_writeHeader packetType).bind (f := fun _ => body) hbody
  have hroom : JyDataWriteStream.new.idx_
      + (putInt 4 0 ++ putInt 4 packetType ++ payload).length < 2 ^ 31 := by
    simp only [List.length_append, length_putInt, JyDataWriteStream.idx_, JyDataWriteStream.new,
      List.length_nil]
    omega
  have hds : (JyDataWriteStream.new.push _ hroom).written
      = putInt 4 0 ++ putInt 4 packetType ++ payload := List.nil_append _
  rw [transmit, hwrite.run _ hroom]
  dsimp only [JyDataWriteStream.resultOn]
  rw [(send_of_emits hds henc).1 hx, hds, List.drop_left' (by
    rw [List.length_append, length_putInt, length_putInt])]
  rfl

/-! ## What is read -/

/-- A reader with the ciphers `dec` and `xor` opens `x` to `payload`. -/
def Opens (cipher : AsymmetricCipher) (dec : JyDataDecryptAsymmetric) (xor x payload : Bytes) :
    CipherKind → Prop
  | .clear => x = payload
  | .asymmetric => ∀ stale,
      JyDataWriteStream.Emits (cipher.decrypt dec (x ++ stale) x.length) payload (.ok true)
  | .symmetric => xor ≠ [] ∧ ∃ stale, x = xorBytes xor payload stale

/-- A packet for a reader with the ciphers `dec` and `xor`, and blocks of `U` bytes. -/
structure Readable (cipher : AsymmetricCipher) (dec : JyDataDecryptAsymmetric) (xor : Bytes) (U : ℕ)
    (p : Sent) : Prop where
  isInt : -2 ^ 31 ≤ p.packetType ∧ p.packetType < 2 ^ 31
  body : ∃ x, p.bytes = frame p.packetType x ∧ 8 + x.length < 2 ^ 31 ∧
    Opens cipher dec xor x p.payload p.kind
  fits : p.kind = .asymmetric → p.payload.length ≤ U

/-- What a writer's `enc_` makes, a reader with the ciphers `dec` and `xor` opens. -/
def Agrees (cipher : AsymmetricCipher) (l : JyTcpListener) (dec : JyDataDecryptAsymmetric)
    (xor : Bytes) : Prop :=
  match l.enc_ with
  | .clear => True
  | .asymmetric => cipher.Returns l.encAsym_ dec
  | .symmetric => l.encSym_ = xor ∧ xor ≠ []

theorem agrees_of_clear {cipher : AsymmetricCipher} {l : JyTcpListener} (h : l.enc_ = .clear)
    (dec : JyDataDecryptAsymmetric) (xor : Bytes) : Agrees cipher l dec xor := by
  rw [Agrees, h]
  trivial

/-- The packet and its payload, as `onSockRead` gives them to a handler. -/
structure SockRead.Carries (r : SockRead) (p : Sent) : Prop where
  packetType : r.packetType = p.packetType
  size : (r.ds.size_ : ℤ) - r.ds.idx_ = p.payload.length
  ahead : ∃ stale, r.ds.Ahead (p.payload ++ stale)

variable {dec : JyDataDecryptAsymmetric} {xor : Bytes}

/-- **What is transmitted can be read.** -/
theorem readable_of_transmit {stale : ℕ → UInt8} {packetType : ℤ} {body : WriteM Unit}
    {payload : Bytes} {U : ℕ} (ha : Agrees cipher l dec xor)
    (hbody : JyDataWriteStream.Emits body payload (.ok ()))
    (ht : -2 ^ 31 ≤ packetType ∧ packetType < 2 ^ 31)
    (hfit : l.enc_ = .asymmetric → payload.length ≤ U) {p : Sent}
    (hp : transmit cipher l stale packetType body = .ok p) :
    (p.kind = l.enc_ ∧ p.packetType = packetType ∧ p.payload = payload) ∧
      Readable cipher dec xor U p := by
  have key : ∃ x, JyDataWriteStream.Emits (l.encrypt cipher stale payload) x (.ok ()) ∧
      Opens cipher dec xor x payload l.enc_ := by
    rw [Agrees] at ha
    rw [JyTcpListener.encrypt]
    cases hk : l.enc_ with
    | clear => exact ⟨payload, JyDataWriteStream.emits_putBufWithoutLen _, rfl⟩
    | asymmetric =>
      rw [hk] at ha
      exact ha payload
    | symmetric =>
      rw [hk] at ha
      obtain ⟨rfl, hne⟩ := ha
      exact ⟨_, emits_xorData_xorBytes _ _ _, hne, stale, rfl⟩
  obtain ⟨x, henc, hopens⟩ := key
  obtain ⟨rfl, hlt⟩ := transmit_eq hbody henc hp
  exact ⟨⟨rfl, rfl, rfl⟩, ht, ⟨x, rfl, hlt, hopens⟩, hfit⟩

/-- `dec_` undoes the cipher of its kind. -/
theorem emits_listener_decrypt {x payload : Bytes}
    (h : Opens cipher l.decAsym_ l.decSym_ x payload l.dec_) (stale : ℕ → UInt8) (rest : Bytes) :
    JyDataWriteStream.Emits (l.decrypt cipher stale (x ++ rest) x.length) payload (.ok true) := by
  have htrue : ∀ {w : WriteM Unit} {buf : Bytes}, JyDataWriteStream.Emits w buf (.ok ()) →
      JyDataWriteStream.Emits (w >>= fun _ => pure true) buf (.ok true) := by
    intro w buf hw
    have := hw.bind (f := fun _ => pure true) (JyDataWriteStream.emits_pure true)
    rwa [List.append_nil] at this
  have hlen : ¬ (x.length : ℤ) < 0 := by omega
  rw [JyTcpListener.decrypt]
  cases hk : l.dec_ with
  | asymmetric =>
    rw [hk] at h
    exact h rest
  | clear =>
    rw [hk] at h
    obtain rfl : x = payload := h
    simp only [if_neg hlen, Int.toNat_natCast, List.take_left]
    exact htrue (JyDataWriteStream.emits_putBufWithoutLen x)
  | symmetric =>
    rw [hk] at h
    obtain ⟨hne, stale', rfl⟩ := h
    have hxor := emits_xorData_xorBytes l.decSym_ (xorBytes l.decSym_ payload stale') stale
    rw [xorBytes_xorBytes hne] at hxor
    simp only [if_neg hlen, Int.toNat_natCast, List.take_left]
    exact htrue hxor

variable {pool : JyBufPool}

section SockRead

variable {p : Sent} {x rest : Bytes} {buf : JyTcpBuf pool.unitSize_}
  (hint : -2 ^ 31 ≤ p.packetType ∧ p.packetType < 2 ^ 31) (hlt : 8 + x.length < 2 ^ 31)
  (hmem : buf.guard_.val = frame p.packetType x ++ rest) (hrecv : buf.recvLen_ = 8 + x.length)

include hint hlt hmem hrecv

/-- In clear, a packet's payload is read where it stands. -/
theorem onSockRead_clear (hc : l.dec_ = .clear) (hx : x = p.payload) (block : Block pool.unitSize_) :
    ∃ r, onSockRead cipher l buf block = .ok (some r) ∧ r.Carries p := by
  subst hx
  obtain ⟨ht₀, ht₁⟩ := hint
  rw [frame, List.append_assoc, List.append_assoc] at hmem
  have h0 : JyDataReadStream.Ahead ⟨buf.guard_.val, buf.recvLen_, 0⟩ _ := ⟨le_rfl, by simp, hmem⟩
  have h4 := h0.skip
  have h8 := h4.skip
  rw [length_putInt] at h4 h8
  rw [length_putInt] at h8
  rw [onSockRead, if_pos hc]
  simp only [StateT.run_bind]
  rw [h0.get (by norm_num; omega) (by norm_num; omega)]
  simp only [bind, Except.bind]
  rw [h4.get (by norm_num; omega) (by norm_num; omega)]
  refine ⟨_, rfl, rfl, ?_, _, h8⟩
  simp only [JyDataReadStream.skip_size, JyDataReadStream.skip_idx, hrecv]
  push_cast
  ring

/-- Otherwise it is deciphered into a block of the pool, which it must fit. -/
theorem onSockRead_dec (hc : l.dec_ ≠ .clear) (hopens : Opens cipher l.decAsym_ l.decSym_ x p.payload l.dec_)
    (hfit : p.payload.length ≤ pool.unitSize_) (block : Block pool.unitSize_) :
    ∃ r, onSockRead cipher l buf block = .ok (some r) ∧ r.Carries p := by
  obtain ⟨ht₀, ht₁⟩ := hint
  have htype : getInt (putInt 4 p.packetType) = p.packetType :=
    getInt_putInt_of_range (by norm_num; omega) (by norm_num; omega)
  rw [frame, List.append_assoc, List.append_assoc] at hmem
  have hhead : (putInt 4 (8 + x.length) ++ putInt 4 p.packetType).length = 8 := by
    rw [List.length_append, length_putInt, length_putInt]
  have hlong : ¬ buf.guard_.val.length < 8 := by
    have := buf.recvLen_le
    rw [buf.guard_.property]
    omega
  have hword : (buf.guard_.val.drop 4).take 4 = putInt 4 p.packetType := by
    rw [hmem, List.drop_left' (length_putInt _ _), List.take_left' (length_putInt _ _)]
  have hbody : buf.guard_.val.drop 8 = x ++ rest := by
    rw [hmem, ← List.append_assoc, List.drop_left' hhead]
  have hlen : (buf.recvLen_ : ℤ) - 8 = x.length := by
    rw [hrecv]
    push_cast
    ring
  have hdec := emits_listener_decrypt hopens (fun i => block.val.getD i 0) rest
  have hroom : (JyDataWriteStream.ofPool pool).idx_ + p.payload.length < 2 ^ 31 :=
    (Nat.zero_add _).trans_lt (hfit.trans_lt pool.isInt)
  have hkept : ((JyDataWriteStream.ofPool pool).push p.payload hroom).holder = .pool := by
    have := (hdec.holder_ofPool pool).mpr hfit
    rwa [hdec.after_run _ hroom] at this
  have hidx : ((JyDataWriteStream.ofPool pool).push p.payload hroom).idx_ = p.payload.length :=
    (JyDataWriteStream.push_idx _ hroom).trans (Nat.zero_add _)
  rw [onSockRead, if_neg hc, if_neg hlong]
  dsimp only
  rw [hbody, hlen, hdec.run _ hroom]
  simp only [JyDataWriteStream.resultOn, hkept, reduceCtorEq, if_false, if_true, hword, htype, hidx]
  exact ⟨_, rfl, rfl, by simp, block.val.drop p.payload.length, le_rfl, Int.natCast_nonneg _, rfl⟩

end SockRead

/-- **A packet that can be read is read**: `onSockRead` gives its type and its payload when `dec_` is of
its kind. -/
theorem onSockRead_eq {p : Sent} (h : Readable cipher l.decAsym_ l.decSym_ pool.unitSize_ p)
    (hk : l.dec_ = p.kind) {buf : JyTcpBuf pool.unitSize_} (hbuf : buf.received = p.bytes)
    (block : Block pool.unitSize_) :
    ∃ r, onSockRead cipher l buf block = .ok (some r) ∧ r.Carries p := by
  obtain ⟨hint, ⟨x, hx, hlt, hopens⟩, hfits⟩ := h
  have hmem : buf.guard_.val = frame p.packetType x ++ buf.guard_.val.drop buf.recvLen_ := by
    rw [← hx, ← hbuf, JyTcpBuf.received, List.take_append_drop]
  have hrecv : buf.recvLen_ = 8 + x.length := by
    rw [← buf.length_received, hbuf, hx, length_frame]
  rw [← hk] at hopens
  by_cases hc : l.dec_ = .clear
  · rw [hc] at hopens
    exact onSockRead_clear hint hlt hmem hrecv hc hopens block
  · refine onSockRead_dec hint hlt hmem hrecv hc hopens ?_ block
    cases hkind : p.kind with
    | asymmetric => exact hfits hkind
    | clear => exact absurd (hk.trans hkind) hc
    | symmetric =>
      rw [hk, hkind] at hopens
      obtain ⟨-, stale, hxor⟩ := hopens
      have := length_xorBytes l.decSym_ p.payload stale
      have := buf.recvLen_le
      rw [← hxor] at *
      omega

/-! ## The certificate -/

/-- The certificate of a listener, as both ends send it. -/
def putCert (l : JyTcpListener) : WriteM Unit := do
  let buf ← liftFault (JyBigNum.getBuf l.decAsym_.n_)
  JyDataWriteStream.putBuf 4 buf
  JyDataWriteStream.putBuf 4 l.e_

/-- The bytes of a certificate. -/
def certBytes (cert : Cert) : Bytes :=
  let n := JyBigNum.numBytes (JyBigNum.setBuf 0 cert.n)
  putInt 4 n.length ++ n ++ (putInt 4 cert.e.length ++ cert.e)

/-- The key its peer has from a certificate. -/
def published (cert : Cert) : JyDataEncryptAsymmetric :=
  ⟨JyBigNum.setBuf 0 (JyBigNum.numBytes (JyBigNum.setBuf 0 cert.n)), JyBigNum.setBuf 0 cert.e⟩

theorem emits_putCert {l : JyTcpListener} {cert : Cert}
    (hl : l.decAsym_.n_ = (JyTcpListener.new cert).decAsym_.n_) (he : l.e_ = cert.e) :
    JyDataWriteStream.Emits (putCert l) (certBytes cert) (.ok ()) := by
  rw [putCert, hl, he, JyBigNum.getBuf_eq]
  simp only [liftFault, pure_bind]
  exact (JyDataWriteStream.emits_putBuf 4 _).bind (JyDataWriteStream.emits_putBuf 4 _)

end JyTcpEndpoint

/-! ## Messages of the loop -/

/-- The messages an endpoint posts to itself, under their names in `JyMsgType`. -/
inductive JyMsgType
  | JY_MSG_TYPE_SOCK_CONNECT_END
  | JY_MSG_TYPE_SOCK_EXCHANGE_ASYM_SECURITY
  | JY_MSG_TYPE_SOCK_EXCHANGE_SYM_SECURITY
  | JY_MSG_TYPE_SOCK_DISCONNECT
  | JY_MSG_TYPE_USER_START
  deriving DecidableEq, Repr

/-- `JyTcpCmdType`. -/
def JyTcpCmdExchangeAsymSecurity : ℤ := 0

def JyTcpCmdExchangeSymSecurity : ℤ := 1

def JyTcpCmdUser : ℤ := 100

/-- What a handler finds: a block of the pool, what stands in the memory it allocates, and what
`whRandUniformBuf` fills its two buffers with. -/
structure Fresh (U : ℕ) where
  block : Block U
  stale : ℕ → UInt8
  rnd : Block 2048
  rnd' : Block 2048

/-- What a handler leaves: the listener, the packet it sent, the messages it posted, and what it passed
to `onRead` of the class that derives from the endpoint. -/
structure Out where
  l : Option JyTcpListener
  sent : Option JyTcpEndpoint.Sent
  posted : List JyMsgType
  read : Option JyTcpEndpoint.SockRead

end EuhatExpert
