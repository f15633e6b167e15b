import EuhatExpert.Common.JyBigNum
import EuhatExpert.Machinery.Chunks

/-!
# Common/JyDataCrypto — the ciphers of a packet

`JyDataEncryptAsymmetric` writes a checksum and then one record for each block of the plaintext: the
count of its leading zero bytes and the bytes of its power modulo `n_` (`sealed`).  The decrypting loop
reads such records until its stream believes it is at the end; what it reads is a `SealedStream`
(`parse`), what it writes for one is `opened`, and a read that leaves the memory ends it.  The symmetric
cipher xors with a repeated key.
-/

namespace EuhatExpert

open Machinery

/-! ## `JyCrc32` -/

namespace JyCrc32

/-- `CRC32_POLYNOMIAL`. -/
def CRC32_POLYNOMIAL : UInt32 := 0xEDB88320

/-- One turn of the constructor's inner loop. -/
def shift (crc : UInt32) : UInt32 :=
  if crc &&& 1 ≠ 0 then (crc >>> 1) ^^^ CRC32_POLYNOMIAL else crc >>> 1

/-- The entry `tab_[i]`. -/
def tab_ (i : UInt32) : UInt32 := Nat.iterate shift 8 i

/-- `gen`.  Its default seed `-1` clears the register instead of setting it. -/
def gen (buf : Bytes) (c : UInt32) : UInt32 :=
  ~~~ buf.foldl (fun c b => (c >>> 8) ^^^ tab_ ((c ^^^ b.toUInt32) &&& 0xff)) (c ^^^ 0xFFFFFFFF)

end JyCrc32

/-- `gJyCrc32.gen(buf, len)`, with the default seed. -/
def crc32 (buf : Bytes) : UInt32 := JyCrc32.gen buf 0xFFFFFFFF

/-- Use a result that may be a fault in a writing call. -/
def liftFault {α : Type} : Except Fault α → WriteM α
  | .ok a => pure a
  | .error f => throw f

/-! ## The asymmetric cipher -/

structure JyDataEncryptAsymmetric where
  n_ : ℕ
  e_ : ℕ

structure JyDataDecryptAsymmetric where
  n_ : ℕ
  d_ : ℕ

namespace JyDataEncryptAsymmetric

/-- The leading zero bytes of a block. -/
def nullCount (block : Bytes) : ℕ := (block.takeWhile (· = 0)).length

/-- The loop over the blocks; `m` and `c` are the numbers it declares outside. -/
def encryptBlocks (key : JyDataEncryptAsymmetric) (stepBytes : ℕ) : ℕ → Bytes → ℕ → ℕ → WriteM Unit
  | 0, _, _, _ => pure ()
  | fuel + 1, p, m, c => do
    let block := p.take stepBytes
    if block = [] then pure ()
    else
      JyDataWriteStream.put 2 (nullCount block)
      let m := JyBigNum.setBuf m block
      let c := JyBigNum.expMod c m key.e_ key.n_
      let bufTmp ← liftFault (JyBigNum.getBuf c)
      JyDataWriteStream.putBuf 2 bufTmp
      encryptBlocks key stepBytes fuel (p.drop stepBytes) m c

/-- `stepBytes`; below one byte of key, `JyBuf stepBuf(stepBytes)` asks for a negative size. -/
def stepBytes (key : JyDataEncryptAsymmetric) : ℕ := JyBigNum.getBits key.n_ / 8 - 1

def encrypt (key : JyDataEncryptAsymmetric) (buf : Bytes) : WriteM Unit := do
  JyDataWriteStream.put 4 (crc32 buf).toNat
  if JyBigNum.getBits key.n_ < 8 then throw .badAlloc
  else encryptBlocks key key.stepBytes buf.length buf 0 0

end JyDataEncryptAsymmetric

namespace JyDataDecryptAsymmetric

/-- `for (; nullCount--; ) dsOut.put<char>(0)`: a negative count runs through all of `short`. -/
def putZeros : ℕ → WriteM Unit
  | 0 => pure ()
  | k + 1 => do
    JyDataWriteStream.putBufWithoutLen [0]
    putZeros k

/-- How often that loop turns. -/
def zeros (nullCount : ℤ) : ℕ := (nullCount % 65536).toNat

/-- The loop over the records; `c` and `m` are the numbers it declares outside.  Each record takes at
least four bytes, so the fuel never ends before the memory does. -/
def decryptBlocks (key : JyDataDecryptAsymmetric) : ℕ → JyDataReadStream → ℕ → ℕ → WriteM Unit
  | 0, _, _, _ => throw .outside
  | fuel + 1, ds, c, m =>
    if ds.atEnd then pure ()
    else do
      let (nullCount, ds) ← liftFault ((JyDataReadStream.get 2).run ds)
      putZeros (zeros nullCount)
      let (bufTmp, ds) ← liftFault ((JyDataReadStream.getBuf 2).run ds)
      let c := JyBigNum.setBuf c bufTmp
      let m := JyBigNum.expMod m c key.d_ key.n_
      let bufTmp ← liftFault (JyBigNum.getBuf m)
      JyDataWriteStream.putBufWithoutLen bufTmp
      decryptBlocks key fuel ds c m

/-- `decrypt` of `len` bytes at the front of `mem`: the checksum is read without a look at `len`, and
the size the record stream believes in is `len - 4` as a `size_t`. -/
def decrypt (key : JyDataDecryptAsymmetric) (mem : Bytes) (len : ℤ) : WriteM Bool := do
  if mem.length < 4 then throw .outside
  else
    let checksum := leNat (mem.take 4)
    let idx := (← get).idx_
    let ds : JyDataReadStream := ⟨mem.drop 4, ((len - 4) % 2 ^ 64).toNat, 0⟩
    decryptBlocks key (mem.length + 1) ds 0 0
    pure (checksum = (crc32 ((← get).written.drop idx)).toNat)

end JyDataDecryptAsymmetric

/-! ## What encryption appends -/

namespace JyDataEncryptAsymmetric

variable (key : JyDataEncryptAsymmetric)

/-- The number a block is encrypted to. -/
def power (block : Bytes) : ℕ := beNat block ^ key.e_ % key.n_

/-- The record of a block. -/
def sealedBlock (block : Bytes) : Bytes :=
  putInt 2 (nullCount block) ++
    (putInt 2 (JyBigNum.numBytes (key.power block)).length ++ JyBigNum.numBytes (key.power block))

/-- What `encrypt` appends for `buf`. -/
def sealed (buf : Bytes) : Bytes :=
  putInt 4 (crc32 buf).toNat ++ (chunks key.stepBytes buf).flatMap key.sealedBlock

variable {key}

/-- **One turn appends the record of its block**, and the rest of the loop goes on behind it. -/
theorem emits_sealBlock {α : Type} (hn : key.n_ ≠ 0) {block : Bytes} (hblock : block ≠ [])
    (hlen : block.length < 2 ^ 28) (m c : ℕ) {w : WriteM α} {bs : Bytes} {r : Except Fault α}
    (h : JyDataWriteStream.Emits w bs r) :
    JyDataWriteStream.Emits (do
      JyDataWriteStream.put 2 (nullCount block)
      let bufTmp ← liftFault (JyBigNum.getBuf (JyBigNum.expMod c (JyBigNum.setBuf m block) key.e_ key.n_))
      JyDataWriteStream.putBuf 2 bufTmp
      w) (key.sealedBlock block ++ bs) r := by
  rw [sealedBlock, List.append_assoc]
  simp only [JyBigNum.setBuf_eq m hblock hlen, JyBigNum.getBuf_eq, JyBigNum.expMod, hn, false_and,
    if_false, liftFault, pure_bind]
  exact (JyDataWriteStream.emits_put _ _).bind ((JyDataWriteStream.emits_putBuf _ _).bind h)

theorem take_ne_nil {k : ℕ} (hk : 0 < k) {p : Bytes} (hp : p ≠ []) : p.take k ≠ [] := by
  have hpos := List.length_pos_of_ne_nil hp
  rw [← List.length_pos_iff, List.length_take]
  omega

theorem emits_encryptBlocks {k : ℕ} (hk : 0 < k) (hk' : k < 2 ^ 28) (hn : key.n_ ≠ 0) :
    ∀ (fuel : ℕ) (p : Bytes) (m c : ℕ), p.length ≤ fuel →
      JyDataWriteStream.Emits (encryptBlocks key k fuel p m c)
        ((chunks k p).flatMap key.sealedBlock) (.ok ())
  | 0, p, m, c, h => by
    obtain rfl : p = [] := List.length_eq_zero_iff.mp (Nat.le_zero.mp h)
    rw [chunks_nil]
    exact JyDataWriteStream.emits_pure ()
  | fuel + 1, p, m, c, h => by
    by_cases hp : p = []
    · subst hp
      rw [chunks_nil, encryptBlocks, List.take_nil]
      exact JyDataWriteStream.emits_pure ()
    · have hblock := take_ne_nil hk hp
      rw [chunks_of_ne_nil hk hp, List.flatMap_cons]
      simp only [encryptBlocks, if_neg hblock]
      refine emits_sealBlock hn hblock ((List.length_take_le _ _).trans_lt hk') m c ?_
      exact emits_encryptBlocks hk hk' hn fuel (p.drop k) _ _ (by
        rw [List.length_drop]
        have := List.length_pos_of_ne_nil hp
        omega)

/-- **`encrypt` appends the sealed bytes.** -/
theorem emits_encrypt (hk : 0 < key.stepBytes) (hk' : key.stepBytes < 2 ^ 28) (buf : Bytes) :
    JyDataWriteStream.Emits (encrypt key buf) (key.sealed buf) (.ok ()) := by
  have hbits : ¬ JyBigNum.getBits key.n_ < 8 := by
    rw [stepBytes] at hk
    omega
  have hn : key.n_ ≠ 0 := by
    rintro h0
    rw [h0] at hbits
    exact hbits (by decide)
  refine (JyDataWriteStream.emits_put _ _).bind ?_
  rw [if_neg hbits]
  exact emits_encryptBlocks hk hk' hn _ buf 0 0 le_rfl

end JyDataEncryptAsymmetric

/-! ## What decryption reads and appends -/

/-- What the decrypting loop finds in a packet: its records, and how they end — where the stream
believes it is at the end, before a count, or between a count and its block. -/
inductive SealedStream
  | done
  | broken (f : Fault)
  | cut (nullCount : ℤ) (f : Fault)
  | record (nullCount : ℤ) (block : Bytes) (next : SealedStream)

namespace SealedStream

/-- The records in front of a stream: the bytes of memory there are, and how many of them the stream
believes are left. -/
def parse (bs : Bytes) (left : ℕ) : SealedStream :=
  if left = 0 then .done
  else if bs.length < 2 then .broken .outside
  else if _h : bs.length < 4 then .cut (getInt (bs.take 2)) .outside
  else
    let len := getInt ((bs.drop 2).take 2)
    if len < 0 then .cut (getInt (bs.take 2)) .badAlloc
    else if bs.length < 4 + len.toNat then .cut (getInt (bs.take 2)) .outside
    else .record (getInt (bs.take 2)) ((bs.drop 4).take len.toNat)
      (parse (bs.drop (4 + len.toNat)) (left - (4 + len.toNat)))
termination_by bs.length
decreasing_by
  rw [List.length_drop]
  omega

/-- **A record is found as it was put**, when its counts fit a `short`. -/
theorem parse_record {nullCount : ℤ} {block more : Bytes} {left : ℕ} (h₀ : -32768 ≤ nullCount)
    (h₁ : nullCount < 32768) (hb : block.length < 32768) :
    parse (putInt 2 nullCount ++ (putInt 2 block.length ++ (block ++ more)))
        (4 + block.length + left)
      = .record nullCount block (parse more left) := by
  have hnull : getInt (putInt 2 nullCount) = nullCount :=
    getInt_putInt_of_range (by norm_num; omega) (by norm_num; omega)
  have hlen : getInt (putInt 2 block.length) = block.length :=
    getInt_putInt_of_range (by norm_num; omega) (by norm_num; omega)
  have h4 : ∀ rest : Bytes, (putInt 2 nullCount ++ (putInt 2 block.length ++ rest)).drop 4 = rest := by
    intro rest
    rw [show (4 : ℕ) = 2 + 2 from rfl, ← List.drop_drop, List.drop_left' (length_putInt _ _),
      List.drop_left' (length_putInt _ _)]
  have hdrop : (putInt 2 nullCount ++ (putInt 2 block.length ++ (block ++ more))).drop
      (4 + block.length) = more := by
    rw [← List.drop_drop, h4, List.drop_left]
  have htotal : (putInt 2 nullCount ++ (putInt 2 block.length ++ (block ++ more))).length
      = 4 + block.length + more.length := by
    simp only [List.length_append, length_putInt]
    omega
  rw [parse, if_neg (by omega), if_neg (by omega), dif_neg (by omega)]
  rw [List.take_left' (length_putInt _ _), List.drop_left' (length_putInt _ _),
    List.take_left' (length_putInt _ _), hnull, hlen]
  simp only [Int.toNat_natCast, h4, hdrop, List.take_left]
  rw [if_neg (by omega), if_neg (by omega), Nat.add_sub_cancel_left]

/-- How the loop ends. -/
def ending : SealedStream → Except Fault Unit
  | done => .ok ()
  | broken f => .error f
  | cut _ f => .error f
  | record _ _ next => next.ending

end SealedStream

namespace JyDataDecryptAsymmetric

variable (key : JyDataDecryptAsymmetric)

/-- What the loop writes for a stream of records, from the numbers `c` and `m` on. -/
def opened : SealedStream → ℕ → ℕ → Bytes
  | .done, _, _ => []
  | .broken _, _, _ => []
  | .cut nullCount _, _, _ => List.replicate (zeros nullCount) 0
  | .record nullCount block next, c, m =>
    let c := JyBigNum.setBuf c block
    let m := JyBigNum.expMod m c key.d_ key.n_
    List.replicate (zeros nullCount) 0 ++ (JyBigNum.numBytes m ++ opened next c m)

variable {key}

theorem emits_putZeros (k : ℕ) :
    JyDataWriteStream.Emits (putZeros k) (List.replicate k 0) (.ok ()) := by
  induction k with
  | zero => exact JyDataWriteStream.emits_pure ()
  | succ k ih => exact (JyDataWriteStream.emits_putBufWithoutLen [0]).bind ih

open JyDataReadStream

/-- **The loop reads the records in front of its stream and writes what they open to.** -/
theorem emits_decryptBlocks :
    ∀ (fuel : ℕ) (ds : JyDataReadStream) (bs : Bytes) (c m : ℕ), Ahead ds bs → bs.length < fuel →
      JyDataWriteStream.Emits (decryptBlocks key fuel ds c m)
        (key.opened (SealedStream.parse bs (ds.size_ - ds.idx_.toNat)) c m)
        (SealedStream.parse bs (ds.size_ - ds.idx_.toNat)).ending
  | 0, _, _, _, _, _, hf => absurd hf (Nat.not_lt_zero _)
  | fuel + 1, ds, bs, c, m, h, hf => by
    have hnonneg := h.nonneg
    rw [SealedStream.parse]
    by_cases hend : ds.size_ - ds.idx_.toNat = 0
    · have hat : ds.atEnd = true := by
        rw [atEnd, if_neg (not_lt.mpr hnonneg)]
        exact decide_eq_true (by omega)
      rw [if_pos hend, decryptBlocks, if_pos hat]
      exact JyDataWriteStream.emits_pure ()
    have hat : ¬ ds.atEnd = true := by
      rw [atEnd, if_neg (not_lt.mpr hnonneg), decide_eq_true_iff]
      omega
    rw [if_neg hend, decryptBlocks, if_neg hat, h.run_get]
    by_cases h2 : bs.length < 2
    · rw [if_pos h2, if_neg (by omega)]
      exact (JyDataWriteStream.emits_throw _).bind_error _
    rw [if_neg h2, if_pos (by omega)]
    have hs := h.drop_skip (show 2 ≤ bs.length by omega)
    simp only [liftFault, pure_bind]
    by_cases h4 : bs.length < 4
    · have hb : (getBuf 2).run (ds.skip 2) = .error .outside := by
        rw [getBuf, StateT.run_bind, hs.run_get, if_neg (by rw [List.length_drop]; omega)]
        rfl
      rw [dif_pos h4, hb, opened, ← List.append_nil (List.replicate _ _)]
      exact (emits_putZeros _).bind ((JyDataWriteStream.emits_throw _).bind_error _)
    rw [dif_neg h4, hs.run_getBuf (by rw [List.length_drop]; omega)]
    by_cases hneg : getInt ((bs.drop 2).take 2) < 0
    · simp only [if_pos hneg]
      rw [opened, ← List.append_nil (List.replicate _ _)]
      exact (emits_putZeros _).bind ((JyDataWriteStream.emits_throw _).bind_error _)
    simp only [if_neg hneg]
    generalize (getInt ((bs.drop 2).take 2)).toNat = len
    by_cases hcut : bs.length < 4 + len
    · rw [if_pos hcut, if_neg (by rw [List.drop_drop, List.length_drop]; omega), opened,
        ← List.append_nil (List.replicate _ _)]
      exact (emits_putZeros _).bind ((JyDataWriteStream.emits_throw _).bind_error _)
    rw [if_neg hcut, if_pos (by rw [List.drop_drop, List.length_drop]; omega), opened]
    simp only [JyBigNum.getBuf_eq, pure_bind, List.drop_drop, Nat.reduceAdd]
    refine (emits_putZeros _).bind ((JyDataWriteStream.emits_putBufWithoutLen _).bind ?_)
    have hnext : Ahead (((ds.skip 2).skip 2).skip len) (bs.drop (4 + len)) := by
      have h4' := hs.drop_skip (show 2 ≤ (bs.drop 2).length by rw [List.length_drop]; omega)
      rw [List.drop_drop] at h4'
      have hl := h4'.drop_skip (show len ≤ (bs.drop (2 + 2)).length by
        rw [List.length_drop]
        omega)
      rwa [List.drop_drop] at hl
    have hleft : ds.size_ - ds.idx_.toNat - (4 + len) = (((ds.skip 2).skip 2).skip len).size_
        - (((ds.skip 2).skip 2).skip len).idx_.toNat := by
      simp only [skip_size, skip_idx]
      omega
    rw [hleft]
    exact emits_decryptBlocks fuel _ _ _ _ hnext (by rw [List.length_drop]; omega)

/-- What `decrypt` finds in `len` bytes at the front of `mem`. -/
def recordsIn (mem : Bytes) (len : ℤ) : SealedStream :=
  SealedStream.parse (mem.drop 4) ((len - 4) % 2 ^ 64).toNat

/-- **What `decrypt` writes and returns.** -/
theorem emits_decrypt {mem : Bytes} (h4 : 4 ≤ mem.length) (len : ℤ) :
    JyDataWriteStream.Emits (decrypt key mem len) (key.opened (recordsIn mem len) 0 0)
      ((recordsIn mem len).ending.map fun _ =>
        decide (leNat (mem.take 4) = (crc32 (key.opened (recordsIn mem len) 0 0)).toNat)) := by
  have hloop := @emits_decryptBlocks key (mem.length + 1)
    ⟨mem.drop 4, ((len - 4) % 2 ^ 64).toNat, 0⟩ (mem.drop 4) 0 0 ⟨le_rfl, by simp, rfl⟩
    (by rw [List.length_drop]; omega)
  have hin : ¬ mem.length < 4 := not_lt.mpr h4
  rw [recordsIn]
  refine ⟨fun s hs => ?_, fun s ho => ?_⟩
  · have hout : (s.push (key.opened (SealedStream.parse (mem.drop 4) ((len - 4) % 2 ^ 64).toNat)
        0 0) hs).written.drop s.idx_ = key.opened _ 0 0 := List.drop_left
    have hl := hloop.run s hs
    rw [decrypt, if_neg hin]
    simp only [EStateM.run_bind, EStateM.run_get]
    simp only [Int.toNat_zero, Nat.sub_zero] at hl
    rw [hl]
    cases (SealedStream.parse (mem.drop 4) ((len - 4) % 2 ^ 64).toNat).ending with
    | ok u => simp only [JyDataWriteStream.resultOn, Except.map, EStateM.run_pure, hout]
    | error f => rfl
  · obtain ⟨t, ht, hh⟩ := hloop.overrun s ho
    refine ⟨t, ?_, hh⟩
    rw [decrypt, if_neg hin]
    simp only [EStateM.run_bind, EStateM.run_get, ht]

end JyDataDecryptAsymmetric

/-! ## The symmetric cipher -/

/-- What `xorData` leaves in the bytes it allocates: `buf` against the repeated `xorBuf`.  Without a key
its loop ends at once, and whatever stood there, `stale`, stays. -/
def xorBytes (xorBuf buf : Bytes) (stale : ℕ → UInt8) : Bytes :=
  if xorBuf = [] then (List.range buf.length).map stale
  else (chunks xorBuf.length buf).flatMap fun step => step.zipWith (· ^^^ ·) xorBuf

theorem length_xorBytes (xorBuf buf : Bytes) (stale : ℕ → UInt8) :
    (xorBytes xorBuf buf stale).length = buf.length := by
  rw [xorBytes]
  split_ifs with h
  · rw [List.length_map, List.length_range]
  · have hpos := List.length_pos_of_ne_nil h
    conv_rhs => rw [← flatten_chunks hpos buf]
    rw [List.length_flatMap, List.length_flatten]
    congr 1
    refine List.map_congr_left fun step hstep => ?_
    rw [List.length_zipWith, min_eq_left (length_le_of_mem_chunks hstep)]

/-- With a key, what stood in the buffer is gone. -/
theorem xorBytes_stale {xorBuf : Bytes} (h : xorBuf ≠ []) (buf : Bytes) (stale stale' : ℕ → UInt8) :
    xorBytes xorBuf buf stale = xorBytes xorBuf buf stale' := by
  rw [xorBytes, xorBytes, if_neg h, if_neg h]

private theorem zipWith_xor_xor {xorBuf : Bytes} :
    ∀ {step : Bytes}, step.length ≤ xorBuf.length →
      (step.zipWith (· ^^^ ·) xorBuf).zipWith (· ^^^ ·) xorBuf = step := by
  induction xorBuf with
  | nil =>
    intro step h
    rw [List.length_eq_zero_iff.mp (Nat.le_zero.mp h)]
    rfl
  | cons x xs ih =>
    intro step h
    cases step with
    | nil => rfl
    | cons b bs =>
      rw [List.zipWith_cons_cons, List.zipWith_cons_cons, ih (Nat.le_of_succ_le_succ h),
        UInt8.xor_assoc, UInt8.xor_self, UInt8.xor_zero]

/-- **The symmetric cipher undoes itself**, whatever stood in the buffers. -/
theorem xorBytes_xorBytes {xorBuf : Bytes} (h : xorBuf ≠ []) (buf : Bytes) (stale stale' : ℕ → UInt8) :
    xorBytes xorBuf (xorBytes xorBuf buf stale) stale' = buf := by
  have hpos := List.length_pos_of_ne_nil h
  simp only [xorBytes, if_neg h]
  rw [chunks_flatMap (f := fun step => step.zipWith (· ^^^ ·) xorBuf)
    (fun step hstep => by rw [List.length_zipWith, min_eq_left hstep]), List.flatMap_map]
  conv_rhs => rw [← flatten_chunks hpos buf, ← List.flatMap_id]
  exact List.flatMap_congr fun step hstep => zipWith_xor_xor (length_le_of_mem_chunks hstep)

end EuhatExpert
