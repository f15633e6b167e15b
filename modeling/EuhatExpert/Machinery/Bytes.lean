import Mathlib.Data.Nat.Digits.Lemmas
import Mathlib.Data.Nat.Size
import Mathlib.Tactic.Ring

/-!
# Machinery/Bytes — integers laid out in bytes

A fixed-width integer is `k` bytes, least significant first (`leBytes`, `leNat`), read back as
written when it fits; a signed one is the balanced residue (`putInt`, `getInt`).  A big number is its
minimal bytes, most significant first (`beBytes`, `beNat`): leading zero bytes do not change its value,
so `beBytes` of the value of a byte string is the string without them (`beBytes_beNat_replicate`).
-/

namespace EuhatExpert.Machinery

abbrev Bytes := List UInt8

/-- The bytes of a text of plain ASCII. -/
def ofAscii (text : String) : Bytes := text.toList.map fun c => UInt8.ofNat c.toNat

/-! ## Little-endian integers of fixed width -/

/-- The low `k` bytes of `n`, least significant first. -/
def leBytes : ℕ → ℕ → Bytes
  | 0, _ => []
  | k + 1, n => UInt8.ofNat n :: leBytes k (n / 256)

/-- The number a byte string spells, least significant first. -/
def leNat : Bytes → ℕ
  | [] => 0
  | b :: bs => b.toNat + 256 * leNat bs

@[simp] theorem length_leBytes (k n : ℕ) : (leBytes k n).length = k := by
  induction k generalizing n with
  | zero => rfl
  | succ k ih => simp [leBytes, ih]

/-- **The low bytes spell the number up to their width.** -/
theorem leNat_leBytes (k n : ℕ) : leNat (leBytes k n) = n % 256 ^ k := by
  induction k generalizing n with
  | zero => simp [leBytes, leNat, Nat.mod_one]
  | succ k ih =>
    rw [leBytes, leNat, ih, UInt8.toNat_ofNat', pow_succ' 256 k]
    exact Nat.mod_mul.symm

theorem leNat_lt (bs : Bytes) : leNat bs < 256 ^ bs.length := by
  induction bs with
  | nil => simp [leNat]
  | cons b bs ih =>
    have hb : b.toNat < 256 := b.toNat_lt
    rw [leNat, List.length_cons, Nat.pow_succ']
    omega

/-- `v` as a signed integer of `k` bytes. -/
def putInt (k : ℕ) (v : ℤ) : Bytes := leBytes k (v % (256 ^ k : ℕ)).toNat

/-- The signed integer a byte string spells. -/
def getInt (bs : Bytes) : ℤ := Int.bmod (leNat bs) (256 ^ bs.length)

@[simp] theorem length_putInt (k : ℕ) (v : ℤ) : (putInt k v).length = k := length_leBytes _ _

theorem getInt_putInt (k : ℕ) (v : ℤ) : getInt (putInt k v) = Int.bmod v (256 ^ k) := by
  have hpos : (0 : ℤ) < (256 ^ k : ℕ) := by positivity
  have hlt : (v % (256 ^ k : ℕ)).toNat < 256 ^ k := by
    have h0 := Int.emod_nonneg v hpos.ne'
    have h1 := Int.emod_lt_of_pos v hpos
    omega
  rw [getInt, putInt, length_leBytes, leNat_leBytes, Nat.mod_eq_of_lt hlt,
    Int.toNat_of_nonneg (Int.emod_nonneg v hpos.ne'), Int.emod_bmod]

/-- **A signed integer in range is read back as written.** -/
theorem getInt_putInt_of_range {k : ℕ} {v : ℤ} (h₁ : -((256 ^ k : ℕ) : ℤ) ≤ 2 * v)
    (h₂ : 2 * v < (256 ^ k : ℕ)) : getInt (putInt k v) = v := by
  rw [getInt_putInt, Int.bmod_eq_iff (by positivity)]
  refine ⟨by omega, by omega, by simp⟩

theorem le_getInt (bs : Bytes) : -((256 ^ bs.length : ℕ) : ℤ) ≤ 2 * getInt bs := by
  have h := Int.le_bmod (x := leNat bs) (m := 256 ^ bs.length) (by positivity)
  rw [getInt]
  omega

theorem getInt_lt_of_ne_nil {bs : Bytes} (h : bs ≠ []) : 2 * getInt bs < (256 ^ bs.length : ℕ) := by
  obtain ⟨k, hk⟩ := Nat.exists_eq_succ_of_ne_zero (List.length_pos_of_ne_nil h).ne'
  have hlt := Int.bmod_lt (x := leNat bs) (m := 256 ^ bs.length) (by positivity)
  rw [getInt]
  rw [hk, pow_succ] at hlt ⊢
  omega

/-- **Bytes are put back as they were read.** -/
theorem leBytes_leNat (bs : Bytes) : leBytes bs.length (leNat bs) = bs := by
  induction bs with
  | nil => rfl
  | cons b bs ih =>
    have hb : b.toNat < 256 := b.toNat_lt
    have hlow : UInt8.ofNat (b.toNat + 256 * leNat bs) = b := by
      rw [← UInt8.toNat_inj, UInt8.toNat_ofNat', Nat.add_mul_mod_self_left, Nat.mod_eq_of_lt hb]
    rw [List.length_cons, leNat, leBytes, hlow, Nat.add_mul_div_left _ _ (by norm_num),
      Nat.div_eq_of_lt hb, Nat.zero_add, ih]

/-- Nothing but the low bytes is put. -/
theorem leBytes_mod (k n : ℕ) : leBytes k (n % 256 ^ k) = leBytes k n := by
  rw [← leNat_leBytes]
  have h := leBytes_leNat (leBytes k n)
  rwa [length_leBytes] at h

/-- The low bytes, and those of what is above them. -/
theorem leBytes_add (j k n : ℕ) : leBytes (j + k) n = leBytes j n ++ leBytes k (n / 256 ^ j) := by
  induction j generalizing n with
  | zero => rw [Nat.zero_add, leBytes, List.nil_append, Nat.pow_zero, Nat.div_one]
  | succ j ih =>
    rw [Nat.succ_add, leBytes, leBytes, List.cons_append, ih, Nat.div_div_eq_div_mul, Nat.pow_succ']

theorem putInt_getInt {k : ℕ} {bs : Bytes} (h : bs.length = k) : putInt k (getInt bs) = bs := by
  subst h
  have hlt : ((leNat bs : ℕ) : ℤ) < (256 ^ bs.length : ℕ) := by exact_mod_cast leNat_lt bs
  rw [putInt, getInt, Int.bmod_emod, Int.emod_eq_of_lt (by omega) hlt, Int.toNat_natCast,
    leBytes_leNat]

/-! ## Bytes of an exclusive or -/

/-- **The bytes of an exclusive or are those of the numbers, each against the other's.** -/
theorem leBytes_xor (k m n : ℕ) : leBytes k (m ^^^ n) = (leBytes k m).zipWith (· ^^^ ·) (leBytes k n) := by
  induction k generalizing m n with
  | zero => rfl
  | succ k ih =>
    have hlow : UInt8.ofNat (m ^^^ n) = UInt8.ofNat m ^^^ UInt8.ofNat n := by
      rw [← UInt8.toNat_inj, UInt8.toNat_xor, UInt8.toNat_ofNat', UInt8.toNat_ofNat', UInt8.toNat_ofNat',
        Nat.xor_mod_two_pow]
    have hhigh : (m ^^^ n) / 256 = m / 256 ^^^ n / 256 := @Nat.xor_div_two_pow m n 8
    rw [leBytes, leBytes, leBytes, List.zipWith_cons_cons, hlow, hhigh, ih]

/-! ## Big numbers -/

/-- The number a byte string spells, most significant first. -/
def beNat (bs : Bytes) : ℕ := Nat.ofDigits 256 (bs.map UInt8.toNat).reverse

/-- The bytes of a number, most significant first and none of them spare: zero has none. -/
def beBytes (n : ℕ) : Bytes := (Nat.digits 256 n).reverse.map UInt8.ofNat

/-- How many bytes `beBytes` takes. -/
def byteLen (n : ℕ) : ℕ := (Nat.digits 256 n).length

@[simp] theorem length_beBytes (n : ℕ) : (beBytes n).length = byteLen n := by
  simp [beBytes, byteLen]

@[simp] theorem beBytes_zero : beBytes 0 = [] := by simp [beBytes]

@[simp] theorem beNat_nil : beNat [] = 0 := rfl

private theorem map_toNat_ofNat_of_lt {l : List ℕ} (h : ∀ d ∈ l, d < 256) :
    (l.map UInt8.ofNat).map UInt8.toNat = l := by
  rw [List.map_map]
  conv_rhs => rw [← List.map_id l]
  refine List.map_congr_left fun d hd => ?_
  simp [Nat.mod_eq_of_lt (h d hd)]

private theorem map_ofNat_toNat (bs : Bytes) : (bs.map UInt8.toNat).map UInt8.ofNat = bs := by
  rw [List.map_map]
  conv_rhs => rw [← List.map_id bs]
  exact List.map_congr_left fun b _ => by simp

private theorem digit_lt (bs : Bytes) : ∀ d ∈ (bs.map UInt8.toNat).reverse, d < 256 := by
  intro d hd
  obtain ⟨b, -, rfl⟩ := List.mem_map.mp (List.mem_reverse.mp hd)
  exact b.toNat_lt

theorem beNat_cons (b : UInt8) (bs : Bytes) :
    beNat (b :: bs) = b.toNat * 256 ^ bs.length + beNat bs := by
  simp only [beNat, List.map_cons, List.reverse_cons, Nat.ofDigits_append, Nat.ofDigits_singleton,
    List.length_reverse, List.length_map]
  ring

/-- **A number is read back from its bytes.** -/
theorem beNat_beBytes (n : ℕ) : beNat (beBytes n) = n := by
  rw [beNat, beBytes, map_toNat_ofNat_of_lt, List.reverse_reverse, Nat.ofDigits_digits]
  intro d hd
  exact Nat.digits_lt_base (by norm_num) (List.mem_reverse.mp hd)

/-- Leading zero bytes spell nothing. -/
theorem beNat_replicate_append (k : ℕ) (bs : Bytes) :
    beNat (List.replicate k 0 ++ bs) = beNat bs := by
  simp [beNat, Nat.ofDigits_append_replicate_zero]

@[simp] theorem beNat_replicate_zero (k : ℕ) : beNat (List.replicate k 0) = 0 := by
  simpa using beNat_replicate_append k []

/-- A byte string that starts with a nonzero byte is the minimal one of its number. -/
theorem beBytes_beNat_cons {b : UInt8} (hb : b ≠ 0) (bs : Bytes) :
    beBytes (beNat (b :: bs)) = b :: bs := by
  have hb' : b.toNat ≠ 0 := fun h => hb (UInt8.toNat_inj.mp (by simpa using h))
  rw [beBytes, beNat, Nat.digits_ofDigits 256 (by norm_num) _ (digit_lt _),
    List.reverse_reverse, map_ofNat_toNat]
  intro hne
  simpa using hb'

theorem beNat_cons_pos {b : UInt8} (hb : b ≠ 0) (bs : Bytes) : 0 < beNat (b :: bs) := by
  refine Nat.pos_of_ne_zero fun h => ?_
  have := beBytes_beNat_cons hb bs
  rw [h, beBytes_zero] at this
  cases this

/-- **Leading zero bytes are all that is lost when a byte string becomes a number.** -/
theorem beBytes_beNat_replicate (k : ℕ) {b : UInt8} (hb : b ≠ 0) (bs : Bytes) :
    beBytes (beNat (List.replicate k 0 ++ b :: bs)) = b :: bs := by
  rw [beNat_replicate_append, beBytes_beNat_cons hb]

theorem beNat_lt (bs : Bytes) : beNat bs < 256 ^ bs.length := by
  have := Nat.ofDigits_lt_base_pow_length (b := 256) (by norm_num) (digit_lt bs)
  simpa [beNat] using this

/-- `k` bytes are eight times as many bits. -/
theorem two_pow_bits (k : ℕ) : 2 ^ (8 * k) = 256 ^ k := by
  rw [pow_mul]
  norm_num

/-- A number of at most `8 * k` bits has at most `k` bytes. -/
theorem lt_pow_of_size_le {n k : ℕ} (h : Nat.size n ≤ 8 * k) : n < 256 ^ k :=
  (Nat.size_le.mp h).trans_eq (two_pow_bits k)

theorem byteLen_le_iff {n k : ℕ} : byteLen n ≤ k ↔ n < 256 ^ k :=
  Nat.digits_length_le_iff (by norm_num) n

theorem byteLen_pos {n : ℕ} (h : 0 < n) : 0 < byteLen n :=
  List.length_pos_of_ne_nil (Nat.digits_ne_nil_iff_ne_zero.mpr h.ne')

end EuhatExpert.Machinery
