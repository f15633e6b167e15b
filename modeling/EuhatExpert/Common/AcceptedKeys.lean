import EuhatExpert.Common.JyTcpClient
import EuhatExpert.Common.JyTcpServer

/-!
# Common/AcceptedKeys — what a public key is accepted for, and what it can be used for

Both ends take a modulus and an exponent from a packet; the client asks for ten bytes of modulus, leading
zeros and all, the server for nothing (`acceptedKey`).  `encrypt` cuts its payload into blocks one byte
shorter than the modulus has whole bytes.  Watched at its loop (`encryptSeen`), it raises numbers below the
modulus and leaves none of the payload behind exactly when the modulus has two whole bytes, or there is
nothing to cut (`usable_iff`).
-/

namespace EuhatExpert

open Machinery JyTcpEndpoint

/-! ## Acceptance -/

/-- Which end a packet with a key came to. -/
inductive KeySide
  | server
  | client
  deriving DecidableEq

/-- The key an end takes from the packet of the asymmetric exchange; a client takes none of a short
modulus. -/
def acceptedKey (side : KeySide) (l : JyTcpListener) (ds : JyDataReadStream) :
    Except Fault (Option JyDataEncryptAsymmetric) := do
  let (n, ds) ← (JyDataReadStream.getBuf 4).run ds
  if side = .client ∧ n.length < 10 then pure none
  else
    let (e, _) ← (JyDataReadStream.getBuf 4).run ds
    pure (some ⟨JyBigNum.setBuf l.encAsym_.n_ n, JyBigNum.setBuf l.encAsym_.e_ e⟩)

/-- The keys an end may hold: the empty one it starts with, and those it accepted. -/
inductive HeldKey : JyDataEncryptAsymmetric → Prop
  | start : HeldKey ⟨0, 0⟩
  | accepted {side : KeySide} {l : JyTcpListener} {ds : JyDataReadStream} {key : JyDataEncryptAsymmetric} :
      HeldKey l.encAsym_ → acceptedKey side l ds = .ok (some key) → HeldKey key

variable {side : KeySide} {l : JyTcpListener} {ds : JyDataReadStream} {key : JyDataEncryptAsymmetric}

/-- What a packet with an accepted key holds. -/
theorem acceptedKey_eq_some (h : acceptedKey side l ds = .ok (some key)) :
    ∃ n ds' e ds'', (JyDataReadStream.getBuf 4).run ds = .ok (n, ds') ∧ ¬ (side = .client ∧ n.length < 10) ∧
      (JyDataReadStream.getBuf 4).run ds' = .ok (e, ds'') ∧
      key = ⟨JyBigNum.setBuf l.encAsym_.n_ n, JyBigNum.setBuf l.encAsym_.e_ e⟩ := by
  obtain ⟨⟨n, ds'⟩, hn, h⟩ := exists_of_bind_eq_ok h
  dsimp only at h
  by_cases hshort : side = .client ∧ n.length < 10
  · rw [if_pos hshort] at h
    injection h with h
    cases h
  · rw [if_neg hshort] at h
    obtain ⟨⟨e, ds''⟩, he, h⟩ := exists_of_bind_eq_ok h
    injection h with h
    injection h with h
    exact ⟨n, ds', e, ds'', hn, hshort, he, h.symm⟩

/-- The server answers with its own key, and goes on with the accepted one. -/
theorem JyTcpServer.onReadExchangeAsymSecurity_accepted (cipher : AsymmetricCipher) (stale : ℕ → UInt8)
    (h : acceptedKey .server l ds = .ok (some key)) :
    JyTcpServer.onReadExchangeAsymSecurity cipher stale l ds =
      (transmit cipher { l with encAsym_ := key } stale JyTcpCmdExchangeAsymSecurity (putCert l)).map fun ack =>
        ⟨some { l with encAsym_ := key, enc_ := .asymmetric, dec_ := .asymmetric }, some ack, [], none⟩ := by
  obtain ⟨n, ds', e, ds'', hn, -, he, rfl⟩ := acceptedKey_eq_some h
  rw [JyTcpServer.onReadExchangeAsymSecurity, hn]
  simp only [bind, Except.bind]
  rw [he]
  rfl

/-- The client goes on with the accepted key. -/
theorem JyTcpClient.onReadExchangeAsymSecurity_accepted (h : acceptedKey .client l ds = .ok (some key)) :
    JyTcpClient.onReadExchangeAsymSecurity l ds =
      .ok ⟨some { l with encAsym_ := key, enc_ := .asymmetric, dec_ := .asymmetric }, none,
        [.JY_MSG_TYPE_SOCK_EXCHANGE_SYM_SECURITY], none⟩ := by
  obtain ⟨n, ds', e, ds'', hn, hshort, he, rfl⟩ := acceptedKey_eq_some h
  rw [JyTcpClient.onReadExchangeAsymSecurity, hn]
  simp only [bind, Except.bind]
  rw [if_neg fun hlen => hshort ⟨rfl, hlen⟩, he]
  rfl

/-- A number set from bytes has no more bits than the library reads. -/
theorem JyBigNum.getBits_setBuf_le {old : ℕ} (hold : JyBigNum.getBits old ≤ 2 ^ 31) (buf : Bytes) :
    JyBigNum.getBits (JyBigNum.setBuf old buf) ≤ 2 ^ 31 := by
  rcases eq_or_ne buf [] with rfl | hne
  · exact hold
  by_cases hlen : buf.length < 2 ^ 28
  · rw [JyBigNum.setBuf_eq old hne hlen]
    have hbits : Nat.size (beNat buf) ≤ 8 * buf.length :=
      Nat.size_le.mpr ((beNat_lt buf).trans_eq (two_pow_bits _).symm)
    exact hbits.trans (by omega)
  · have hmany : 536870911 < (JyBigNum.nibbles buf).length := by
      rw [JyBigNum.length_nibbles]
      omega
    rw [JyBigNum.setBuf, JyBigNum.BN_hex2bn, JyBigNum.digits_data2hex, if_pos (.inr hmany)]
    exact hold

/-- **A key that is held has a modulus of at most `2 ^ 31` bits.** -/
theorem HeldKey.getBits_le (h : HeldKey key) : JyBigNum.getBits key.n_ ≤ 2 ^ 31 := by
  induction h with
  | start => decide
  | accepted _ hkey ih =>
    obtain ⟨n, -, e, -, -, -, -, rfl⟩ := acceptedKey_eq_some hkey
    exact JyBigNum.getBits_setBuf_le ih n

/-! ## The loop, watched -/

namespace JyDataEncryptAsymmetric

/-- What the loop did: the numbers it raised, and the bytes it left. -/
structure Seen where
  raised : List ℕ
  left : Bytes
  deriving DecidableEq, Repr

/-- `encryptBlocks`, watched. -/
def encryptBlocksSeen (key : JyDataEncryptAsymmetric) (stepBytes : ℕ) : ℕ → Bytes → ℕ → ℕ → WriteM Seen
  | 0, p, _, _ => pure ⟨[], p⟩
  | fuel + 1, p, m, c => do
    let block := p.take stepBytes
    if block = [] then pure ⟨[], p⟩
    else
      JyDataWriteStream.put 2 (nullCount block)
      let m := JyBigNum.setBuf m block
      let c := JyBigNum.expMod c m key.e_ key.n_
      let bufTmp ← liftFault (JyBigNum.getBuf c)
      JyDataWriteStream.putBuf 2 bufTmp
      let seen ← encryptBlocksSeen key stepBytes fuel (p.drop stepBytes) m c
      pure ⟨m :: seen.raised, seen.left⟩

/-- `encrypt`, watched. -/
def encryptSeen (key : JyDataEncryptAsymmetric) (buf : Bytes) : WriteM Seen := do
  JyDataWriteStream.put 4 (crc32 buf).toNat
  if JyBigNum.getBits key.n_ < 8 then throw .badAlloc
  else encryptBlocksSeen key key.stepBytes buf.length buf 0 0

/-- Watching changes nothing. -/
theorem encryptBlocks_eq_seen (key : JyDataEncryptAsymmetric) (stepBytes : ℕ) :
    ∀ (fuel : ℕ) (p : Bytes) (m c : ℕ),
      encryptBlocks key stepBytes fuel p m c = (fun _ => ()) <$> encryptBlocksSeen key stepBytes fuel p m c
  | 0, p, m, c => rfl
  | fuel + 1, p, m, c => by
    simp only [encryptBlocks, encryptBlocksSeen]
    split_ifs
    · rfl
    · simp only [map_bind, encryptBlocks_eq_seen key stepBytes fuel, bind_pure_comp, Functor.map_map]

theorem encrypt_eq_seen (key : JyDataEncryptAsymmetric) (buf : Bytes) :
    encrypt key buf = (fun _ => ()) <$> encryptSeen key buf := by
  simp only [encrypt, encryptSeen, map_bind, encryptBlocks_eq_seen]
  split_ifs
  · rfl
  · rfl

/-- Encryption of the payload ends, with no failing allocation, nothing left of the payload and no number
raised that the modulus does not exceed; only a packet that outgrows its `int` index ends it otherwise. -/
def Usable (key : JyDataEncryptAsymmetric) (payload : Bytes) : Prop :=
  ∀ s : JyDataWriteStream, match (encryptSeen key payload).run s with
    | .ok seen _ => seen.left = [] ∧ ∀ m ∈ seen.raised, m < key.n_
    | .error f _ => f = .overflow

/-! ## What the loop sees -/

theorem emits_encryptBlocksSeen {k : ℕ} (hk : 0 < k) (hk' : k < 2 ^ 28) (hn : key.n_ ≠ 0) :
    ∀ (fuel : ℕ) (p : Bytes) (m c : ℕ), p.length ≤ fuel →
      JyDataWriteStream.Emits (encryptBlocksSeen key k fuel p m c)
        ((chunks k p).flatMap key.sealedBlock) (.ok ⟨(chunks k p).map beNat, []⟩)
  | 0, p, m, c, h => by
    obtain rfl : p = [] := List.length_eq_zero_iff.mp (Nat.le_zero.mp h)
    rw [chunks_nil]
    exact JyDataWriteStream.emits_pure _
  | fuel + 1, p, m, c, h => by
    by_cases hp : p = []
    · subst hp
      rw [chunks_nil, encryptBlocksSeen, List.take_nil]
      exact JyDataWriteStream.emits_pure _
    · have hblock := take_ne_nil hk hp
      have hlen : (p.take k).length < 2 ^ 28 := (List.length_take_le _ _).trans_lt hk'
      rw [chunks_of_ne_nil hk hp, List.flatMap_cons, List.map_cons]
      simp only [encryptBlocksSeen, if_neg hblock]
      refine emits_sealBlock hn hblock hlen m c ?_
      have hrest := emits_encryptBlocksSeen hk hk' hn fuel (p.drop k) (JyBigNum.setBuf m (p.take k))
        (JyBigNum.expMod c (JyBigNum.setBuf m (p.take k)) key.e_ key.n_) (by
          rw [List.length_drop]
          have := List.length_pos_of_ne_nil hp
          omega)
      rw [← JyBigNum.setBuf_eq m hblock hlen, ← List.append_nil (List.flatMap _ _)]
      exact hrest.bind (JyDataWriteStream.emits_pure _)

/-- A block spells a number below the modulus. -/
theorem beNat_lt_modulus (hk : 0 < key.stepBytes) {block : Bytes} (h : block.length ≤ key.stepBytes) :
    beNat block < key.n_ := by
  have hbits : 8 * key.stepBytes < JyBigNum.getBits key.n_ := by
    rw [stepBytes] at hk ⊢
    omega
  calc beNat block < 256 ^ block.length := beNat_lt block
    _ ≤ 256 ^ key.stepBytes := Nat.pow_le_pow_right (by norm_num) h
    _ = 2 ^ (8 * key.stepBytes) := (two_pow_bits _).symm
    _ ≤ key.n_ := Nat.lt_size.mp hbits

/-- With no block to take, the payload is left. -/
theorem emits_encryptBlocksSeen_zero (fuel : ℕ) (p : Bytes) (m c : ℕ) :
    JyDataWriteStream.Emits (encryptBlocksSeen key 0 fuel p m c) [] (.ok ⟨[], p⟩) := by
  cases fuel with
  | zero => exact JyDataWriteStream.emits_pure _
  | succ fuel =>
    rw [encryptBlocksSeen, List.take_zero]
    exact JyDataWriteStream.emits_pure _

/-! ## Which keys can be used -/

/-- What is true of the result of a call on all streams can be seen from what it amounts to. -/
theorem usable_of_emits {payload bs : Bytes} {seen : Seen}
    (h : JyDataWriteStream.Emits (encryptSeen key payload) bs (.ok seen)) (hleft : seen.left = [])
    (hraised : ∀ m ∈ seen.raised, m < key.n_) : Usable key payload := by
  intro s
  by_cases hlt : s.idx_ + bs.length < 2 ^ 31
  · rw [h.run s hlt]
    exact ⟨hleft, hraised⟩
  · obtain ⟨t, ht, -⟩ := h.overrun s (not_lt.mp hlt)
    rw [ht]

/-- A modulus of two whole bytes can be used. -/
theorem usable_of_bits (hbits : 16 ≤ JyBigNum.getBits key.n_) (hle : JyBigNum.getBits key.n_ ≤ 2 ^ 31)
    (payload : Bytes) : Usable key payload := by
  have hk : 0 < key.stepBytes := by
    rw [stepBytes]
    omega
  have hn : key.n_ ≠ 0 := by
    rintro h0
    rw [h0] at hbits
    exact absurd hbits (by decide)
  have hemits : JyDataWriteStream.Emits (encryptSeen key payload) (key.sealed payload)
      (.ok ⟨(chunks key.stepBytes payload).map beNat, []⟩) := by
    refine (JyDataWriteStream.emits_put _ _).bind ?_
    rw [if_neg (by omega)]
    exact emits_encryptBlocksSeen hk (by rw [stepBytes]; omega) hn _ payload 0 0 le_rfl
  refine usable_of_emits hemits rfl fun m hm => ?_
  obtain ⟨block, hblock, rfl⟩ := List.mem_map.mp hm
  exact beNat_lt_modulus hk (length_le_of_mem_chunks hblock)

/-- Below two bytes of modulus the payload is left as it is, and below one there is not even room for a
block. -/
theorem emits_encryptSeen_short (hbits : JyBigNum.getBits key.n_ < 16) (payload : Bytes) :
    JyDataWriteStream.Emits (encryptSeen key payload) (putInt 4 (crc32 payload).toNat)
      (if JyBigNum.getBits key.n_ < 8 then .error .badAlloc else .ok ⟨[], payload⟩) := by
  rw [encryptSeen, ← List.append_nil (putInt _ _)]
  refine (JyDataWriteStream.emits_put _ _).bind ?_
  split_ifs
  · exact JyDataWriteStream.emits_throw _
  · have hk : key.stepBytes = 0 := by
      rw [stepBytes]
      omega
    rw [hk]
    exact emits_encryptBlocksSeen_zero _ payload 0 0

theorem usable_short_iff (hbits : JyBigNum.getBits key.n_ < 16) (payload : Bytes) :
    Usable key payload ↔ payload = [] ∧ 8 ≤ JyBigNum.getBits key.n_ := by
  have hemits := emits_encryptSeen_short hbits payload
  constructor
  · intro h
    have hroom : JyDataWriteStream.new.idx_ + (putInt 4 (crc32 payload).toNat).length < 2 ^ 31 := by
      rw [length_putInt]
      decide
    have hnew := h JyDataWriteStream.new
    rw [hemits.run _ hroom] at hnew
    split_ifs at hnew with h8
    · cases hnew
    · exact ⟨hnew.1, not_lt.mp h8⟩
  · rintro ⟨rfl, h8⟩
    rw [if_neg (not_lt.mpr h8)] at hemits
    exact usable_of_emits hemits rfl fun m hm => absurd hm List.not_mem_nil

/-- **An accepted key can be used exactly when its modulus has two whole bytes, or when there is nothing to
encrypt and it has one.** -/
theorem usable_iff (hheld : HeldKey l.encAsym_) (h : acceptedKey side l ds = .ok (some key))
    (payload : Bytes) :
    Usable key payload ↔
      16 ≤ JyBigNum.getBits key.n_ ∨ payload = [] ∧ 8 ≤ JyBigNum.getBits key.n_ := by
  by_cases hbits : 16 ≤ JyBigNum.getBits key.n_
  · rw [iff_true_right (.inl hbits)]
    exact usable_of_bits hbits (HeldKey.accepted hheld h).getBits_le payload
  · rw [usable_short_iff (not_le.mp hbits), iff_or_self]
    exact fun h => absurd h hbits

/-- A stream of ten bytes of modulus, all but the last two zero, and one byte of exponent. -/
def tenBytes (hi lo e : UInt8) : JyDataReadStream :=
  ⟨[10, 0, 0, 0, 0, 0, 0, 0, 0, 0, 0, 0, hi, lo, 1, 0, 0, 0, e], 19, 0⟩

theorem usable_iff_here : Usable ⟨32769, 3⟩ [5, 6, 7] :=
  (@usable_iff .client (JyTcpListener.new ⟨[], [], []⟩) (tenBytes 128 1 3) _ .start rfl _).mpr
    (.inl (by decide))

/-- The client accepts a modulus of ten bytes of which only the last is not zero, and none of the payload
gets into the packet. -/
theorem not_usable : ¬ ∀ (side : KeySide) (l : JyTcpListener) (ds : JyDataReadStream)
    (key : JyDataEncryptAsymmetric), HeldKey l.encAsym_ → acceptedKey side l ds = .ok (some key) →
      ∀ payload, Usable key payload := by
  intro h
  have hkey : acceptedKey .client (JyTcpListener.new ⟨[], [], []⟩) (tenBytes 0 200 3) = .ok (some ⟨200, 3⟩) :=
    rfl
  have husable := h .client _ _ _ .start hkey [5]
  exact absurd ((usable_short_iff (by decide) [5]).mp husable).1 (List.cons_ne_nil _ _)

end JyDataEncryptAsymmetric

end EuhatExpert
