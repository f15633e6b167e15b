import EuhatExpert.Common.ReplyMemory

/-!
# Common/CipherModes — does a handler notice the cipher

In clear a stream is sent in place and read from behind its header on; under the symmetric cipher the header
is written anew, and the payload is read from a stream of its own.  A frame that is delivered whole gives a
handler its type and its payload either way (`onSockRead_send`).
-/

namespace EuhatExpert

open Machinery

/-- The bytes of a packet that are still to be read. -/
def JyDataReadStream.unread (ds : JyDataReadStream) : Bytes := (ds.mem.take ds.size_).drop ds.idx_.toNat

namespace JyTcpEndpoint

/-- The two ends of a connection use no cipher, or the symmetric one with the same key. -/
inductive SameMode (sender receiver : JyTcpListener) : Prop
  | clear : sender.enc_ = .clear → receiver.dec_ = .clear → SameMode sender receiver
  | symmetric : sender.enc_ = .symmetric → receiver.dec_ = .symmetric →
      sender.encSym_ = receiver.decSym_ → receiver.decSym_ ≠ [] → SameMode sender receiver

variable {cipher : AsymmetricCipher} {sender receiver : JyTcpListener} {packetType : ℤ}

theorem SameMode.dec_eq (h : SameMode sender receiver) : receiver.dec_ = sender.enc_ := by
  obtain ⟨henc, hdec⟩ | ⟨henc, hdec, -, -⟩ := h
  · rw [henc, hdec]
  · rw [henc, hdec]

theorem SameMode.ne_asymmetric (h : SameMode sender receiver) : sender.enc_ ≠ .asymmetric := by
  obtain ⟨henc, -⟩ | ⟨henc, -, -, -⟩ := h
  · rw [henc]
    decide
  · rw [henc]
    decide

/-- A payload is encoded in as many bytes, which the other end opens. -/
theorem SameMode.exists_emits (h : SameMode sender receiver) (stale : ℕ → UInt8) (payload : Bytes) :
    ∃ x, x.length = payload.length ∧
      JyDataWriteStream.Emits (sender.encrypt cipher stale payload) x (.ok ()) ∧
      Opens cipher receiver.decAsym_ receiver.decSym_ x payload sender.enc_ := by
  obtain ⟨henc, -⟩ | ⟨henc, -, hkey, hne⟩ := h
  · refine ⟨payload, rfl, ?_, ?_⟩
    · rw [JyTcpListener.encrypt, henc]
      exact JyDataWriteStream.emits_putBufWithoutLen payload
    · rw [henc]
      rfl
  · refine ⟨_, length_xorBytes sender.encSym_ payload stale, emits_encrypt_symmetric henc payload, ?_⟩
    rw [henc, hkey]
    exact ⟨hne, stale, rfl⟩

/-- What a handler is to read of a packet is its payload, and the index stays in it. -/
theorem SockRead.Carries.unread {r : SockRead} {p : Sent} (h : r.Carries p) :
    r.ds.unread = p.payload ∧ 0 ≤ r.ds.idx_ ∧ r.ds.idx_ ≤ r.ds.size_ := by
  obtain ⟨-, hsize, stale, hnonneg, -, hdrop⟩ := h
  have hcount : r.ds.size_ - r.ds.idx_.toNat = p.payload.length := by omega
  refine ⟨?_, hnonneg, by omega⟩
  rw [JyDataReadStream.unread, List.drop_take, hcount, hdrop, List.take_left]

/-- **A frame that is delivered whole gives a handler its type and its payload**, in clear and under the
symmetric cipher: what is written behind a header is sent, and is what is left to be read. -/
theorem onSockRead_send (hmode : SameMode sender receiver)
    (htype : -2 ^ 31 ≤ packetType ∧ packetType < 2 ^ 31) {payload : Bytes} {ds : JyDataWriteStream}
    (hds : ds.written = putInt 4 0 ++ putInt 4 packetType ++ payload) (stale : ℕ → UInt8)
    (pool : JyBufPool) :
    ∃ bytes, send cipher sender stale ds = .ok bytes ∧ bytes.length = 8 + payload.length ∧
      ∀ (buf : JyTcpBuf pool.unitSize_) (block : Block pool.unitSize_), buf.received = bytes →
        ∃ r, onSockRead cipher receiver buf block = .ok (some r) ∧ r.packetType = packetType ∧
          r.ds.unread = payload ∧ 0 ≤ r.ds.idx_ ∧ r.ds.idx_ ≤ r.ds.size_ := by
  obtain ⟨x, hlen, hemits, hopens⟩ := hmode.exists_emits stale payload
  have hlt : 8 + x.length < 2 ^ 31 := by
    have hint := ds.isInt
    rw [hds, List.length_append, List.length_append, length_putInt, length_putInt] at hint
    omega
  have hreadable : Readable cipher receiver.decAsym_ receiver.decSym_ pool.unitSize_
      ⟨frame packetType x, sender.enc_, packetType, payload⟩ :=
    ⟨htype, ⟨x, rfl, hlt, hopens⟩, fun h => absurd h hmode.ne_asymmetric⟩
  refine ⟨_, (send_of_emits hds hemits).1 hlt, by rw [length_frame, hlen], fun buf block hbuf => ?_⟩
  obtain ⟨r, hr, hcarries⟩ := onSockRead_eq hreadable hmode.dec_eq hbuf block
  exact ⟨r, hr, hcarries.packetType, hcarries.unread⟩

/-- A listener that uses the symmetric cipher both ways, with a key of one byte. -/
def keyed : JyTcpListener :=
  { JyTcpListener.new ⟨[], [], []⟩ with encSym_ := [7], decSym_ := [7], enc_ := .symmetric, dec_ := .symmetric }

/-- A packet of type 3 with two bytes of payload. -/
def twoBytes : JyDataWriteStream :=
  JyDataWriteStream.new.push (putInt 4 0 ++ putInt 4 3 ++ [1, 2]) (by decide)

/-- A block that received its frame. -/
def twoBytesReceived : JyTcpBuf 32 :=
  ⟨⟨frame 3 [6, 5] ++ List.replicate 22 0, by decide⟩, 10, by decide⟩

theorem onSockRead_send_twoBytes :
    ∃ r, @onSockRead .rsa ⟨32, by decide⟩ keyed twoBytesReceived ⟨List.replicate 32 0, rfl⟩ = .ok (some r) ∧
      r.packetType = 3 ∧ r.ds.unread = [1, 2] ∧ 0 ≤ r.ds.idx_ ∧ r.ds.idx_ ≤ r.ds.size_ := by
  obtain ⟨bytes, hsend, -, hread⟩ := @onSockRead_send .rsa keyed keyed 3
    (.symmetric rfl rfl rfl (by decide)) (by decide) [1, 2] twoBytes rfl (fun _ => 9) ⟨32, by decide⟩
  refine hread twoBytesReceived _ ?_
  rw [send_symmetric rfl rfl] at hsend
  injection hsend with hsend
  rw [← hsend, xorBytes_eq_xorStream (by decide)]
  decide

end JyTcpEndpoint

end EuhatExpert
