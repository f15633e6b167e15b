import EuhatExpert.Common.JyTcpServer

/-!
# Common/ReplyMemory — do replies carry anything but their payload

Behind the exchange of keys a server answers with frames whose body is the payload against the key the peer
chose, hidden by a digest of the visit code.  Of an empty buffer the digest makes an empty key, whose cipher
leaves the memory of its room as it was and sends it.  No other buffer does: the replies carry their payload
alone exactly if the first buffer is not empty (`repliesCarryPayload_iff`).
-/

namespace EuhatExpert

open Machinery JyTcpEndpoint JyDataWriteStream

namespace JyTcpEndpoint

variable {cipher : AsymmetricCipher} {l : JyTcpListener} {stale : ℕ → UInt8} {packetType : ℤ}

theorem emits_encrypt_symmetric (hsym : l.enc_ = .symmetric) (payload : Bytes) :
    Emits (l.encrypt cipher stale payload) (xorBytes l.encSym_ payload stale) (.ok ()) := by
  rw [JyTcpListener.encrypt, hsym]
  exact emits_xorData_xorBytes _ _ _

/-- **What a stream with a header is sent as under the symmetric cipher.** -/
theorem send_symmetric (hsym : l.enc_ = .symmetric) {payload : Bytes} {ds : JyDataWriteStream}
    (hds : ds.written = putInt 4 0 ++ putInt 4 packetType ++ payload) :
    send cipher l stale ds = .ok (frame packetType (xorBytes l.encSym_ payload stale)) := by
  refine (send_of_emits hds (emits_encrypt_symmetric hsym payload)).1 ?_
  have hint := ds.isInt
  rw [hds, List.length_append, List.length_append, length_putInt, length_putInt] at hint
  rw [length_xorBytes]
  omega

end JyTcpEndpoint

namespace JyTcpServer

variable (cipher : AsymmetricCipher) (md5 : Bytes → Block 16) (visitCode_ hostInfo : Bytes)

/-- The buffers of a packet of the symmetric exchange: two keys and a digest. -/
def buffersOf (ds : JyDataReadStream) : Except Fault (Bytes × Bytes × Bytes) := do
  let (encBuf, ds) ← (JyDataReadStream.getBuf 4).run ds
  let (decBuf, ds) ← (JyDataReadStream.getBuf 4).run ds
  let (digest, _) ← (JyDataReadStream.getBuf 4).run ds
  pure (encBuf, decBuf, digest)

/-- The listener behind an exchange of these buffers. -/
def installed (l : JyTcpListener) (rnd encBuf decBuf digest : Bytes) (stale : ℕ → UInt8) : JyTcpListener :=
  { exchangeSym md5 visitCode_ l rnd encBuf decBuf digest stale with
    enc_ := .symmetric
    dec_ := .symmetric }

/-- **Replies carry nothing but their payload** behind an exchange of these buffers, whatever is drawn for the
other key and stands in the memory used: each byte of a body is the payload's against one of the key's, and two
runs send the same frames. -/
structure RepliesCarryPayload (l : JyTcpListener) (encBuf decBuf digest : Bytes) : Prop where
  bytes : ∀ rnd stale stale' packetType payload ds bytes,
    ds.written = putInt 4 0 ++ putInt 4 packetType ++ payload →
    send cipher (installed md5 visitCode_ l rnd encBuf decBuf digest stale) stale' ds = .ok bytes →
    ∃ body, bytes = frame packetType body ∧ List.Forall₂ (fun b x => ∃ k ∈ (installed md5 visitCode_ l rnd
      encBuf decBuf digest stale).encSym_, x = b ^^^ k) payload body
  agree : ∀ rnd₁ rnd₂ stale₁ stale₂ stale₁' stale₂' packetType payload ds,
    ds.written = putInt 4 0 ++ putInt 4 packetType ++ payload →
    send cipher (installed md5 visitCode_ l rnd₁ encBuf decBuf digest stale₁) stale₁' ds
      = send cipher (installed md5 visitCode_ l rnd₂ encBuf decBuf digest stale₂) stale₂' ds

variable {cipher md5 visitCode_ hostInfo} {l : JyTcpListener} {encBuf decBuf digest : Bytes}

/-- The handler installs the buffers of its packet. -/
theorem installed_of_onReadExchangeSymSecurity {rnd : Block 2048} {stale : ℕ → UInt8}
    {ds : JyDataReadStream} {out : Out}
    (h : onReadExchangeSymSecurity cipher md5 visitCode_ hostInfo rnd stale l ds = .ok out) :
    ∃ encBuf decBuf digest, buffersOf ds = .ok (encBuf, decBuf, digest) ∧
      out.l = some (installed md5 visitCode_ l rnd.val encBuf decBuf digest stale) := by
  obtain ⟨encBuf, h₁, h⟩ := exists_of_bind_eq_ok h
  obtain ⟨decBuf, h₂, h⟩ := exists_of_bind_eq_ok h
  obtain ⟨digest, h₃, h⟩ := exists_of_bind_eq_ok h
  obtain ⟨_, -, h⟩ := exists_of_bind_eq_ok h
  injection h with h
  subst h
  refine ⟨encBuf.1, decBuf.1, digest.1, ?_, rfl⟩
  rw [buffersOf, h₁]
  simp only [bind, Except.bind]
  rw [h₂]
  simp only
  rw [h₃]
  rfl

/-- The digest is a key of its own: what is derived from a buffer does not depend on memory, and has its
length. -/
theorem encSym_installed (rnd : Bytes) (stale : ℕ → UInt8) :
    (installed md5 visitCode_ l rnd encBuf decBuf digest stale).encSym_
      = xorStream (md5 visitCode_).val encBuf := by
  refine xorBytes_eq_xorStream (fun h => ?_) encBuf stale
  have hlen := (md5 visitCode_).property
  rw [h] at hlen
  cases hlen

/-- Each byte of the stream of a key is against one of the key. -/
theorem forall₂_xorStream {key : Bytes} (hkey : key ≠ []) (payload : Bytes) :
    List.Forall₂ (fun b x => ∃ k ∈ key, x = b ^^^ k) payload (xorStream key payload) := by
  have hpos := List.length_pos_of_ne_nil hkey
  refine List.forall₂_iff_get.mpr ⟨length_xorStream.symm, fun i hi _ => ?_⟩
  have hlt : i % key.length < key.length := Nat.mod_lt i hpos
  refine ⟨key[i % key.length], List.getElem_mem hlt, ?_⟩
  simp only [xorStream, List.get_eq_getElem, List.getElem_mapIdx]
  rw [List.getD_eq_getElem?_getD, List.getElem?_eq_getElem hlt, Option.getD_some]

/-- With a key, a reply is its payload against it. -/
theorem repliesCarryPayload_of_ne_nil (h : encBuf ≠ []) :
    RepliesCarryPayload cipher md5 visitCode_ l encBuf decBuf digest := by
  have hkey : xorStream (md5 visitCode_).val encBuf ≠ [] := by
    rw [← List.length_pos_iff, length_xorStream]
    exact List.length_pos_of_ne_nil h
  constructor
  · intro rnd stale stale' packetType payload ds bytes hds hsend
    rw [send_symmetric rfl hds, encSym_installed, xorBytes_eq_xorStream hkey] at hsend
    injection hsend with hsend
    rw [encSym_installed]
    exact ⟨_, hsend.symm, forall₂_xorStream hkey payload⟩
  · intro rnd₁ rnd₂ stale₁ stale₂ stale₁' stale₂' packetType payload ds hds
    rw [send_symmetric rfl hds, send_symmetric rfl hds, encSym_installed, encSym_installed,
      xorBytes_eq_xorStream hkey, xorBytes_eq_xorStream hkey]

/-- Without one, the byte that stood in the room is sent. -/
theorem not_repliesCarryPayload_nil :
    ¬ RepliesCarryPayload cipher md5 visitCode_ l [] decBuf digest := by
  intro h
  have hroom : JyDataWriteStream.new.idx_ + (putInt 4 0 ++ putInt 4 0 ++ [0]).length < 2 ^ 31 := by decide
  have hds : (JyDataWriteStream.new.push _ hroom).written = putInt 4 0 ++ putInt 4 0 ++ [0] :=
    List.nil_append _
  have hagree := h.agree [] [] 0 0 0 1 0 [0] _ hds
  rw [send_symmetric rfl hds, send_symmetric rfl hds, encSym_installed] at hagree
  injection hagree with hagree
  have hkey : xorStream (md5 visitCode_).val [] = [] := rfl
  rw [hkey] at hagree
  exact absurd hagree (by decide)

variable (cipher md5 visitCode_ hostInfo l) in
/-- **Replies carry their payload alone exactly if the first buffer of the exchange is not empty**, and what the
handler installs is made of the buffers of its packet. -/
theorem repliesCarryPayload_iff : (∀ rnd stale ds out,
      onReadExchangeSymSecurity cipher md5 visitCode_ hostInfo rnd stale l ds = .ok out →
        ∃ encBuf decBuf digest, buffersOf ds = .ok (encBuf, decBuf, digest) ∧
          out.l = some (installed md5 visitCode_ l rnd.val encBuf decBuf digest stale)) ∧
    ∀ encBuf decBuf digest,
      RepliesCarryPayload cipher md5 visitCode_ l encBuf decBuf digest ↔ encBuf ≠ [] := by
  refine ⟨fun rnd stale ds out => installed_of_onReadExchangeSymSecurity, fun encBuf decBuf digest => ?_⟩
  refine ⟨fun h hnil => ?_, repliesCarryPayload_of_ne_nil⟩
  subst hnil
  exact not_repliesCarryPayload_nil h

/-- The digests of the empty string, and of its digest. -/
def emptyMd5 (bytes : Bytes) : Block 16 :=
  if bytes = [] then ⟨[212, 29, 140, 217, 143, 0, 178, 4, 233, 128, 9, 152, 236, 248, 66, 126], rfl⟩
  else ⟨[89, 173, 178, 78, 243, 205, 190, 2, 151, 240, 91, 57, 88, 39, 69, 63], rfl⟩

/-- **Behind an exchange of empty buffers, without a visit code and with its digest, replies show memory.** -/
theorem not_repliesCarryPayload_empty : ¬ RepliesCarryPayload .rsa emptyMd5 [] (.new ⟨[15], [3], [3]⟩) [] []
    (emptyMd5 (emptyMd5 []).val).val :=
  not_repliesCarryPayload_nil

end JyTcpServer

end EuhatExpert
