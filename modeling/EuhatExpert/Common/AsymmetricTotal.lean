import EuhatExpert.Common.PacketRoom

/-!
# Common/AsymmetricTotal — does the asymmetric `decrypt` end inside any input

A genuine input is a checksum of four bytes and complete records whose plaintext has that checksum.  The
loop trusts the lengths it reads: what it can read to the end is exactly what consists of complete records
(`ending_parse_iff`), and it comes to an answer exactly for a checksum in front of such records, as long
as the plaintext they announce can be counted in an `int` (`totalOn_iff`).
-/

namespace EuhatExpert

open Machinery

/-- A record with its whole block: the count of the leading zero bytes, and the block. -/
structure SealedRecord where
  nullCount : ℤ
  block : Bytes
  le_nullCount : -32768 ≤ nullCount
  nullCount_lt : nullCount < 32768
  block_lt : block.length < 32768

/-- A record as it stands in a packet. -/
def SealedRecord.bytes (r : SealedRecord) : Bytes :=
  putInt 2 r.nullCount ++ (putInt 2 r.block.length ++ r.block)

namespace SealedStream

/-- Records up to the end of the packet. -/
def ofRecords : List SealedRecord → SealedStream
  | [] => .done
  | r :: rs => .record r.nullCount r.block (ofRecords rs)

theorem ending_ofRecords (rs : List SealedRecord) : (ofRecords rs).ending = .ok () := by
  induction rs with
  | nil => rfl
  | cons r rs ih => exact ih

/-- Complete records are found as they stand. -/
theorem parse_flatMap_bytes (rs : List SealedRecord) :
    parse (rs.flatMap SealedRecord.bytes) (rs.flatMap SealedRecord.bytes).length = ofRecords rs := by
  induction rs with
  | nil =>
    rw [List.flatMap_nil, parse]
    rfl
  | cons r rs ih =>
    have hlen : (r.bytes ++ rs.flatMap SealedRecord.bytes).length
        = 4 + r.block.length + (rs.flatMap SealedRecord.bytes).length := by
      simp only [SealedRecord.bytes, List.length_append, length_putInt]
      omega
    rw [List.flatMap_cons, hlen, SealedRecord.bytes, List.append_assoc, List.append_assoc,
      parse_record r.le_nullCount r.nullCount_lt r.block_lt, ih]
    rfl

/-- Bytes that the loop reads to the end are complete records. -/
theorem exists_records {n : ℕ} : ∀ {bs : Bytes}, bs.length ≤ n →
    (parse bs bs.length).ending = .ok () → ∃ rs : List SealedRecord, bs = rs.flatMap SealedRecord.bytes := by
  induction n with
  | zero =>
    intro bs hn _
    exact ⟨[], List.length_eq_zero_iff.mp (Nat.le_zero.mp hn)⟩
  | succ n ih =>
    intro bs hn hend
    rw [parse] at hend
    by_cases h0 : bs.length = 0
    · exact ⟨[], List.length_eq_zero_iff.mp h0⟩
    by_cases h2 : bs.length < 2
    · rw [if_neg h0, if_pos h2] at hend
      cases hend
    by_cases h4 : bs.length < 4
    · rw [if_neg h0, if_neg h2, dif_pos h4] at hend
      cases hend
    rw [if_neg h0, if_neg h2, dif_neg h4] at hend
    by_cases hneg : getInt ((bs.drop 2).take 2) < 0
    · simp only [if_pos hneg] at hend
      cases hend
    by_cases hcut : bs.length < 4 + (getInt ((bs.drop 2).take 2)).toNat
    · simp only [if_neg hneg, if_pos hcut] at hend
      cases hend
    simp only [if_neg hneg, if_neg hcut, ending] at hend
    obtain ⟨rs, hrs⟩ := @ih (bs.drop (4 + (getInt ((bs.drop 2).take 2)).toNat))
      (by rw [List.length_drop]; omega) (by rwa [List.length_drop])
    have hcount : (bs.take 2).length = 2 := by
      rw [List.length_take]
      omega
    have hsize : ((bs.drop 2).take 2).length = 2 := by
      rw [List.length_take, List.length_drop]
      omega
    have hblock : ((bs.drop 4).take (getInt ((bs.drop 2).take 2)).toNat).length
        = (getInt ((bs.drop 2).take 2)).toNat := by
      rw [List.length_take, List.length_drop]
      omega
    have hrange : -32768 ≤ getInt (bs.take 2) ∧ getInt (bs.take 2) < 32768 := by
      have h₁ := le_getInt (bs.take 2)
      have h₂ := @getInt_lt_of_ne_nil (bs.take 2) (List.length_pos_iff.mp (by omega))
      rw [hcount] at h₁ h₂
      norm_num at h₁ h₂
      omega
    have hlt : (getInt ((bs.drop 2).take 2)).toNat < 32768 := by
      have h := @getInt_lt_of_ne_nil ((bs.drop 2).take 2) (List.length_pos_iff.mp (by omega))
      rw [hsize] at h
      norm_num at h
      omega
    refine ⟨⟨_, _, hrange.1, hrange.2, hblock.trans_lt hlt⟩ :: rs, ?_⟩
    have hlen : putInt 2 (((bs.drop 4).take (getInt ((bs.drop 2).take 2)).toNat).length : ℤ)
        = (bs.drop 2).take 2 := by
      rw [hblock, Int.toNat_of_nonneg (not_lt.mp hneg), putInt_getInt hsize]
    simp only [List.flatMap_cons, SealedRecord.bytes, ← hrs, putInt_getInt hcount, hlen,
      List.append_assoc]
    rw [← List.drop_drop, List.take_append_drop, show (4 : ℕ) = 2 + 2 from rfl, ← List.drop_drop,
      List.take_append_drop, List.take_append_drop]

/-- **The loop ends inside the packet exactly when the packet is complete records.** -/
theorem ending_parse_iff {bs : Bytes} : (parse bs bs.length).ending = .ok () ↔
    ∃ rs : List SealedRecord, bs = rs.flatMap SealedRecord.bytes := by
  refine ⟨exists_records le_rfl, ?_⟩
  rintro ⟨rs, rfl⟩
  rw [parse_flatMap_bytes, ending_ofRecords]

end SealedStream

namespace JyDataDecryptAsymmetric

/-- Bytes whose number is an `int`. -/
abbrev Input := { bs : Bytes // bs.length < 2 ^ 31 }

variable (key : JyDataDecryptAsymmetric) (buf : Input)

/-- A checksum of four bytes and complete records. -/
def Complete (rs : List SealedRecord) : Prop :=
  4 ≤ buf.val.length ∧ buf.val.drop 4 = rs.flatMap SealedRecord.bytes

/-- The plaintext of complete records. -/
def plaintext (rs : List SealedRecord) : Bytes := key.opened (.ofRecords rs) 0 0

/-- How many bytes of it the records announce. -/
def plaintextLen (rs : List SealedRecord) : ℕ := key.announced (.ofRecords rs) 0 0

/-- Complete records behind a checksum that is the one of their plaintext. -/
def Genuine : Prop :=
  ∃ rs, Complete buf rs ∧ leNat (buf.val.take 4) = (crc32 (key.plaintext rs)).toNat

/-- Decrypted behind what stands in `s`, the input is read to its end and no further, and the answer is
`1` exactly when it is genuine. -/
def TotalOn (s : JyDataWriteStream) : Prop :=
  ∃ b t, (key.decrypt buf.val buf.val.length).run s = .ok b t ∧ (b = true ↔ key.Genuine buf)

variable {key buf}

theorem length_plaintext (rs : List SealedRecord) : (key.plaintext rs).length = key.plaintextLen rs :=
  key.length_opened _ _ _

theorem recordsIn_input (h4 : 4 ≤ buf.val.length) :
    recordsIn buf.val buf.val.length = .parse (buf.val.drop 4) (buf.val.drop 4).length := by
  have hint := buf.property
  rw [recordsIn, List.length_drop]
  congr 1
  omega

theorem Complete.recordsIn_eq {rs : List SealedRecord} (h : Complete buf rs) :
    recordsIn buf.val buf.val.length = .ofRecords rs := by
  rw [recordsIn_input h.1, h.2, SealedStream.parse_flatMap_bytes]

/-- The records of an input are determined by the input. -/
theorem Complete.plaintext_eq {rs rs' : List SealedRecord} (h : Complete buf rs)
    (h' : Complete buf rs') : key.plaintext rs = key.plaintext rs' := by
  rw [plaintext, plaintext, ← h.recordsIn_eq, h'.recordsIn_eq]

/-- What `decrypt` makes of complete records. -/
theorem Complete.emits (key : JyDataDecryptAsymmetric) {rs : List SealedRecord} (h : Complete buf rs) :
    JyDataWriteStream.Emits (key.decrypt buf.val buf.val.length) (key.plaintext rs)
      (.ok (decide (leNat (buf.val.take 4) = (crc32 (key.plaintext rs)).toNat))) := by
  have he := @emits_decrypt key buf.val h.1 buf.val.length
  rw [h.recordsIn_eq, SealedStream.ending_ofRecords] at he
  exact he

/-- An input without a checksum: the read of it leaves the memory. -/
theorem not_totalOn_of_short (h : buf.val.length < 4) (s : JyDataWriteStream) :
    ¬ key.TotalOn buf s := by
  rintro ⟨b, t, hrun, -⟩
  rw [decrypt, if_pos h] at hrun
  cases hrun

/-- An input that is read to its end is complete records. -/
theorem TotalOn.complete {s : JyDataWriteStream} (h : key.TotalOn buf s) :
    ∃ rs, Complete buf rs := by
  have h4 : 4 ≤ buf.val.length := by
    by_contra hlt
    exact not_totalOn_of_short (not_le.mp hlt) s h
  obtain ⟨b, t, hrun, -⟩ := h
  have he := @emits_decrypt key buf.val h4 buf.val.length
  by_cases hlt : s.idx_ + (key.opened (recordsIn buf.val buf.val.length) 0 0).length < 2 ^ 31
  · rw [he.run s hlt] at hrun
    cases hend : (recordsIn buf.val buf.val.length).ending with
    | error f =>
      rw [hend] at hrun
      cases hrun
    | ok u =>
      rw [recordsIn_input h4] at hend
      obtain ⟨rs, hrs⟩ := SealedStream.ending_parse_iff.mp hend
      exact ⟨rs, h4, hrs⟩
  · obtain ⟨t', ht', -⟩ := he.overrun s (not_lt.mp hlt)
    rw [ht'] at hrun
    cases hrun

/-- **`decrypt` comes to an answer exactly for a checksum and complete records, when the plaintext they
announce can still be counted in the `int` index of the stream.** -/
theorem totalOn_iff (key : JyDataDecryptAsymmetric) (buf : Input) (s : JyDataWriteStream) :
    key.TotalOn buf s ↔ ∃ rs, Complete buf rs ∧ s.idx_ + key.plaintextLen rs < 2 ^ 31 := by
  constructor
  · intro h
    obtain ⟨rs, hrs⟩ := h.complete
    refine ⟨rs, hrs, ?_⟩
    obtain ⟨b, t, hrun, -⟩ := h
    by_contra hover
    rw [← length_plaintext] at hover
    obtain ⟨t', ht', -⟩ := (hrs.emits key).overrun s (not_lt.mp hover)
    rw [ht'] at hrun
    cases hrun
  · rintro ⟨rs, hrs, hlt⟩
    rw [← length_plaintext] at hlt
    refine ⟨_, _, (hrs.emits key).run s hlt, ?_⟩
    rw [decide_eq_true_iff]
    constructor
    · exact fun h => ⟨rs, hrs, h⟩
    · rintro ⟨rs', hrs', h⟩
      rwa [hrs.plaintext_eq hrs']

/-- **Three bytes, one less than the checksum `decrypt` reads first.** -/
theorem threeBytes_not_totalOn :
    ¬ JyDataDecryptAsymmetric.TotalOn ⟨64507, 42667⟩ ⟨[0, 0, 0], by decide⟩ .new :=
  not_totalOn_of_short (by decide) _

end JyDataDecryptAsymmetric

end EuhatExpert
