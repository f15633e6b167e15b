import EuhatExpert.Common.JyDataCrypto
import EuhatExpert.Machinery.Rsa
import Mathlib.Tactic.NormNum.Prime

/-!
# Common/AsymmetricRoundTrip — decryption of what was encrypted

Under one key, a block is opened to itself unless it is all zero: its count of leading zeros then covers
it whole, and the number zero that is left opens to one byte more (`opened_block`).  So decryption undoes
encryption exactly for the plaintexts none of whose blocks is all zero, as long as the streams stay
within their `int` indices (`undoes_iff`).
-/

namespace EuhatExpert

open Machinery JyDataEncryptAsymmetric JyDataDecryptAsymmetric

/-- A key: two distinct primes with a product of 16 to 4096 bits, and two inverse exponents. -/
structure AsymmetricKey where
  p : ℕ
  q : ℕ
  e : ℕ
  d : ℕ
  pair : KeyPair p q e d
  le_bits : 16 ≤ JyBigNum.getBits (p * q)
  bits_le : JyBigNum.getBits (p * q) ≤ 4096

namespace AsymmetricKey

variable (key : AsymmetricKey)

def encryptor : JyDataEncryptAsymmetric := ⟨key.p * key.q, key.e⟩

def decryptor : JyDataDecryptAsymmetric := ⟨key.p * key.q, key.d⟩

/-- The bytes of a block. -/
def stepBytes : ℕ := key.encryptor.stepBytes

variable {key}

theorem stepBytes_eq : key.stepBytes = JyBigNum.getBits (key.p * key.q) / 8 - 1 := rfl

theorem stepBytes_pos : 0 < key.stepBytes := by
  have := key.le_bits
  rw [stepBytes_eq]
  omega

theorem stepBytes_lt : key.stepBytes < 512 := by
  have := key.bits_le
  rw [stepBytes_eq]
  omega

theorem modulus_pos : 0 < key.p * key.q :=
  Nat.mul_pos key.pair.prime_p.pos key.pair.prime_q.pos

/-- A block spells a number below the modulus. -/
theorem beNat_lt_modulus {block : Bytes} (h : block.length ≤ key.stepBytes) :
    beNat block < key.p * key.q := by
  have hbits : 8 * key.stepBytes < JyBigNum.getBits (key.p * key.q) := by
    have := key.le_bits
    rw [stepBytes_eq]
    omega
  calc beNat block < 256 ^ block.length := beNat_lt block
    _ ≤ 256 ^ key.stepBytes := Nat.pow_le_pow_right (by norm_num) h
    _ = 2 ^ (8 * key.stepBytes) := (two_pow_bits _).symm
    _ ≤ key.p * key.q := Nat.lt_size.mp hbits

theorem power_lt (block : Bytes) : key.encryptor.power block < 256 ^ 512 :=
  (Nat.mod_lt _ modulus_pos).trans (lt_pow_of_size_le key.bits_le)

/-- The bytes of an encrypted block are counted in a `short`. -/
theorem length_power_le (block : Bytes) :
    (JyBigNum.numBytes (key.encryptor.power block)).length ≤ 512 := by
  rw [JyBigNum.length_numBytes]
  exact max_le (by norm_num) (byteLen_le_iff.mpr (power_lt block))

/-! ## One block -/

/-- What the record of a block opens to. -/
def openedBlock (key : AsymmetricKey) (block : Bytes) : Bytes :=
  List.replicate (nullCount block) 0 ++
    JyBigNum.numBytes (key.encryptor.power block ^ key.d % (key.p * key.q))

/-- A block is its leading zeros and the rest, which starts with another byte. -/
theorem nullCount_append (block : Bytes) :
    block = List.replicate (nullCount block) 0 ++ block.dropWhile (· = 0) := by
  conv_lhs => rw [← @List.takeWhile_append_dropWhile _ (fun b : UInt8 => decide (b = 0)) block]
  congr 1
  refine List.eq_replicate_iff.mpr ⟨rfl, fun b hb => ?_⟩
  have := List.mem_takeWhile_imp hb
  simpa using this

theorem power_power {block : Bytes} (h : block.length ≤ key.stepBytes) :
    key.encryptor.power block ^ key.d % (key.p * key.q) = beNat block :=
  key.pair.pow_pow_mod (beNat_lt_modulus h)

/-- **A block that is not all zero opens to itself.** -/
theorem openedBlock_of_ne {block : Bytes} (h : block.length ≤ key.stepBytes)
    (hne : ∃ b ∈ block, b ≠ 0) : openedBlock key block = block := by
  rw [openedBlock, power_power h]
  have happ := nullCount_append block
  cases hrest : block.dropWhile (· = 0) with
  | nil =>
    obtain ⟨b, hb, hb0⟩ := hne
    rw [hrest, List.append_nil] at happ
    rw [happ] at hb
    exact absurd (List.eq_of_mem_replicate hb) hb0
  | cons b rest =>
    have hb : b ≠ 0 := by
      have hne : block.dropWhile (· = 0) ≠ [] := by
        rw [hrest]
        exact List.cons_ne_nil _ _
      have := List.head_dropWhile_not _ hne
      simpa [hrest] using this
    rw [hrest] at happ
    have hnum : JyBigNum.numBytes (beNat block) = b :: rest := by
      rw [JyBigNum.numBytes, if_neg]
      · rw [happ, beBytes_beNat_replicate _ hb]
      · rw [happ, beNat_replicate_append]
        exact (beNat_cons_pos hb rest).ne'
    rw [hnum, ← happ]

/-- **An all-zero block opens to one byte more.** -/
theorem openedBlock_of_zero {block : Bytes} (h : block.length ≤ key.stepBytes)
    (hz : ∀ b ∈ block, b = 0) : openedBlock key block = block ++ [0] := by
  have hrep : block = List.replicate block.length 0 := List.eq_replicate_iff.mpr ⟨rfl, hz⟩
  have hnull : nullCount block = block.length := by
    rw [nullCount, List.takeWhile_eq_self_iff.mpr]
    exact fun b hb => decide_eq_true (hz b hb)
  have hnat : beNat block = 0 := by rw [hrep, beNat_replicate_zero]
  rw [openedBlock, power_power h, hnull, hnat, ← hrep]
  rfl

theorem length_openedBlock {block : Bytes} (h : block.length ≤ key.stepBytes) :
    (openedBlock key block).length
      = block.length + if block.all (· = 0) then 1 else 0 := by
  split_ifs with hz
  · rw [openedBlock_of_zero h (by simpa using hz), List.length_append, List.length_singleton]
  · rw [openedBlock_of_ne h (by simpa using hz), Nat.add_zero]

/-! ## The records of a plaintext -/

/-- The records the decrypting loop finds for a list of blocks. -/
def records (key : AsymmetricKey) : List Bytes → SealedStream
  | [] => .done
  | block :: blocks => .record (nullCount block)
      (JyBigNum.numBytes (key.encryptor.power block)) (records key blocks)

theorem nullCount_le (block : Bytes) : nullCount block ≤ block.length :=
  (List.takeWhile_sublist _).length_le

/-- **The loop finds the records that were written**, whatever stands behind them. -/
theorem parse_sealedBlocks {blocks : List Bytes} (h : ∀ block ∈ blocks, block.length ≤ key.stepBytes)
    (stale : Bytes) :
    SealedStream.parse (blocks.flatMap key.encryptor.sealedBlock ++ stale)
      (blocks.flatMap key.encryptor.sealedBlock).length = records key blocks := by
  induction blocks with
  | nil => rw [SealedStream.parse]; rfl
  | cons block blocks ih =>
    have hpow := @length_power_le key block
    have hnull : nullCount block < 512 :=
      ((nullCount_le block).trans (h block List.mem_cons_self)).trans_lt stepBytes_lt
    have ih := ih fun b hb => h b (List.mem_cons_of_mem block hb)
    rw [List.flatMap_cons, sealedBlock, List.append_assoc, List.length_append, records, ← ih]
    simp only [List.length_append, length_putInt]
    rw [← SealedStream.parse_record (by omega) (by omega) (by omega)]
    simp only [List.append_assoc]
    congr 1
    omega

/-- What the records of a list of blocks open to. -/
theorem opened_records {blocks : List Bytes} (h : ∀ block ∈ blocks, block.length ≤ key.stepBytes)
    (c m : ℕ) : key.decryptor.opened (records key blocks) c m = blocks.flatMap (openedBlock key) := by
  induction blocks generalizing c m with
  | nil => rfl
  | cons block blocks ih =>
    have hlen := @length_power_le key block
    rw [JyBigNum.length_numBytes] at hlen
    have hbytes : byteLen (key.encryptor.power block) < 2 ^ 28 := by omega
    have hn : ¬ (key.decryptor.n_ = 0 ∧ key.decryptor.d_ ≠ 0) := fun h0 => modulus_pos.ne' h0.1
    have hnull : zeros (nullCount block) = nullCount block := by
      have := (nullCount_le block).trans (h block List.mem_cons_self)
      have := @stepBytes_lt key
      rw [zeros]
      omega
    rw [records, opened, JyBigNum.setBuf_numBytes c hbytes, JyBigNum.expMod, if_neg hn, hnull,
      ih fun b hb => h b (List.mem_cons_of_mem block hb), List.flatMap_cons, openedBlock,
      List.append_assoc]
    rfl

theorem ending_records (blocks : List Bytes) : (records key blocks).ending = .ok () := by
  induction blocks with
  | nil => rfl
  | cons block blocks ih => exact ih

/-- The blocks of a plaintext. -/
def blocks (key : AsymmetricKey) (s : Bytes) : List Bytes := chunks key.stepBytes s

/-- What decryption makes of a plaintext. -/
def reopened (key : AsymmetricKey) (s : Bytes) : Bytes := (blocks key s).flatMap (openedBlock key)

theorem length_le_of_mem_blocks {s : Bytes} : ∀ block ∈ blocks key s, block.length ≤ key.stepBytes :=
  fun _ => length_le_of_mem_chunks

/-- Every all-zero block makes the plaintext one byte longer. -/
theorem length_reopened (s : Bytes) : (reopened key s).length
    = s.length + (blocks key s).countP fun block => block.all (· = 0) := by
  have hsum : ∀ l : List Bytes, (∀ block ∈ l, block.length ≤ key.stepBytes) →
      (l.flatMap (openedBlock key)).length
        = l.flatten.length + l.countP fun block => block.all (· = 0) := by
    intro l hl
    induction l with
    | nil => rfl
    | cons block l ih =>
      have ih := ih fun b hb => hl b (List.mem_cons_of_mem block hb)
      rw [List.flatMap_cons, List.length_append, ih, List.flatten_cons, List.length_append,
        List.countP_cons, length_openedBlock (hl block List.mem_cons_self)]
      omega
  rw [reopened, hsum _ length_le_of_mem_blocks, blocks, flatten_chunks stepBytes_pos]

/-- **Decryption gives the plaintext back exactly when no block of it is all zero.** -/
theorem reopened_eq_iff (s : Bytes) :
    reopened key s = s ↔ ∀ block ∈ blocks key s, ∃ b ∈ block, b ≠ 0 := by
  constructor
  · intro h block hblock
    by_contra hz
    have hpos : 0 < (blocks key s).countP fun block => block.all (· = 0) :=
      List.countP_pos_iff.mpr ⟨block, hblock, by simpa using hz⟩
    have hlen := @length_reopened key s
    rw [h] at hlen
    omega
  · intro h
    have hmap : (blocks key s).flatMap (openedBlock key) = (blocks key s).flatMap id :=
      List.flatMap_congr fun block hb =>
        openedBlock_of_ne (length_le_of_mem_blocks block hb) (h block hb)
    rw [reopened, hmap, List.flatMap_id, blocks, flatten_chunks stepBytes_pos]

/-! ## Whole plaintexts -/

/-- How many bytes a plaintext is encrypted to: the checksum, and for each block two counts and the bytes
of its power. -/
def sealedLen (key : AsymmetricKey) (s : Bytes) : ℕ :=
  4 + ((blocks key s).map fun block =>
    4 + max 1 (byteLen (beNat block ^ key.e % (key.p * key.q)))).sum

theorem length_sealed (s : Bytes) : (key.encryptor.sealed s).length = sealedLen key s := by
  rw [sealed, List.length_append, length_putInt, sealedLen, List.length_flatMap]
  congr 2
  refine List.map_congr_left fun block _ => ?_
  rw [sealedBlock, List.length_append, List.length_append, length_putInt, length_putInt,
    JyBigNum.length_numBytes, ← Nat.add_assoc]
  rfl

theorem four_le_sealedLen (s : Bytes) : 4 ≤ sealedLen key s := Nat.le_add_right _ _

theorem leNat_take_sealed (s stale : Bytes) :
    leNat ((key.encryptor.sealed s ++ stale).take 4) = (crc32 s).toNat := by
  have hlt : ((crc32 s).toNat : ℤ) < (256 ^ 4 : ℕ) := by
    have := (crc32 s).toNat_lt
    norm_num
    omega
  rw [sealed, List.append_assoc, List.take_left' (length_putInt _ _), putInt,
    Int.emod_eq_of_lt (by omega) hlt, Int.toNat_natCast, leNat_leBytes]
  exact Nat.mod_eq_of_lt (by exact_mod_cast hlt)

theorem recordsIn_sealed {s : Bytes} (h : sealedLen key s < 2 ^ 31) (stale : Bytes) :
    recordsIn (key.encryptor.sealed s ++ stale) (sealedLen key s) = records key (blocks key s) := by
  have hlen := @length_sealed key s
  rw [sealed, List.length_append, length_putInt] at hlen
  have hleft : (((sealedLen key s : ℤ) - 4) % 2 ^ 64).toNat
      = ((chunks key.encryptor.stepBytes s).flatMap key.encryptor.sealedBlock).length := by
    omega
  rw [recordsIn, hleft, sealed, List.append_assoc, List.drop_left' (length_putInt _ _)]
  exact parse_sealedBlocks length_le_of_mem_blocks stale

/-- **What decryption writes for an encrypted plaintext, and what it returns.** -/
theorem emits_reopened {s : Bytes} (h : sealedLen key s < 2 ^ 31) (stale : Bytes) :
    JyDataWriteStream.Emits
      (decrypt key.decryptor (key.encryptor.sealed s ++ stale) (sealedLen key s)) (reopened key s)
      (.ok (decide ((crc32 s).toNat = (crc32 (reopened key s)).toNat))) := by
  have hfour : 4 ≤ (key.encryptor.sealed s ++ stale).length := by
    have := @four_le_sealedLen key s
    rw [List.length_append, length_sealed]
    omega
  have he := @emits_decrypt key.decryptor _ hfour (sealedLen key s)
  rw [recordsIn_sealed h, opened_records length_le_of_mem_blocks, ending_records,
    leNat_take_sealed] at he
  exact he

/-- Encryption of `s` on a stream `o` appends some bytes, and decryption of these, with anything behind
them in memory, returns 1 and appends `s` to a stream `o'`. -/
def Undoes (key : AsymmetricKey) (s stale : Bytes) (o o' : JyDataWriteStream) : Prop :=
  ∃ x, (∃ h, (encrypt key.encryptor s).run o = .ok () (o.push x h)) ∧
    ∃ h', (decrypt key.decryptor (x ++ stale) x.length).run o' = .ok true (o'.push s h')

theorem emits_encryptor (s : Bytes) : JyDataWriteStream.Emits (encrypt key.encryptor s)
    (key.encryptor.sealed s) (.ok ()) :=
  emits_encrypt stepBytes_pos (stepBytes_lt.trans (by norm_num)) s

/-- When decryption gave the plaintext back, the streams had room and no block was lengthened. -/
theorem Undoes.reopened_eq {s stale : Bytes} {o o' : JyDataWriteStream} (h : Undoes key s stale o o') :
    reopened key s = s ∧ o.idx_ + sealedLen key s < 2 ^ 31 ∧ o'.idx_ + s.length < 2 ^ 31 := by
  obtain ⟨x, ⟨h, hx⟩, h', hd⟩ := h
  by_cases hlt : o.idx_ + (key.encryptor.sealed s).length < 2 ^ 31
  · rw [(emits_encryptor s).run o hlt] at hx
    injection hx with _ hpush
    obtain rfl := JyDataWriteStream.push_inj _ hpush
    rw [length_sealed] at hlt hd
    have hdec := @emits_reopened key s (by omega) stale
    refine ⟨?_, hlt, h'⟩
    by_cases hlt' : o'.idx_ + (reopened key s).length < 2 ^ 31
    · rw [hdec.run o' hlt'] at hd
      injection hd with _ hpush'
      exact JyDataWriteStream.push_inj _ hpush'
    · obtain ⟨t, ht, -⟩ := hdec.overrun o' (not_lt.mp hlt')
      rw [ht] at hd
      cases hd
  · obtain ⟨t, ht, -⟩ := (emits_encryptor s).overrun o (not_lt.mp hlt)
    rw [ht] at hx
    cases hx

/-- **Decryption undoes encryption exactly for the plaintexts with no all-zero block**, as far as the
indices of the streams go. -/
theorem undoes_iff (key : AsymmetricKey) (s stale : Bytes) (o o' : JyDataWriteStream) :
    Undoes key s stale o o' ↔
      (∀ block ∈ blocks key s, ∃ b ∈ block, b ≠ 0) ∧
        o.idx_ + sealedLen key s < 2 ^ 31 ∧ o'.idx_ + s.length < 2 ^ 31 := by
  rw [← reopened_eq_iff]
  refine ⟨Undoes.reopened_eq, fun ⟨hs, hlt, hlt'⟩ => ?_⟩
  have hlen := @length_sealed key s
  have hdec := @emits_reopened key s (by omega) stale
  rw [hs] at hdec
  refine ⟨key.encryptor.sealed s, ⟨by rwa [hlen], (emits_encryptor s).run o _⟩, hlt', ?_⟩
  rw [hlen, hdec.run o' hlt', decide_eq_true rfl]
  rfl

/-- The primes `251` and `257`, with a product of 16 bits. -/
def small : AsymmetricKey where
  p := 251
  q := 257
  e := 3
  d := 42667
  pair := ⟨by norm_num, by norm_num, by norm_num, by decide⟩
  le_bits := by decide
  bits_le := by decide

/-- **A zero byte does not come back as one.** -/
theorem small_not_undoes_zero :
    ¬ Undoes small [0] [] JyDataWriteStream.new JyDataWriteStream.new := by
  intro h
  have hstep : 0 < small.stepBytes := stepBytes_pos
  have hmem : [0] ∈ blocks small [0] := by
    rw [blocks, chunks_of_ne_nil hstep (List.cons_ne_nil _ _), List.take_of_length_le hstep]
    exact List.mem_cons_self
  obtain ⟨b, hb, hb0⟩ := (reopened_eq_iff [0]).mp h.reopened_eq.1 [0] hmem
  exact hb0 (List.mem_singleton.mp hb)

end AsymmetricKey

end EuhatExpert
