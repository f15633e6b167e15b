import EuhatExpert.Common.JyDataStream
import Mathlib.Data.List.TakeWhile

/-!
# Common/JyBigNum — big numbers and their bytes

A `JyBigNum` is moved in and out of bytes through hexadecimal text: `setBuf` is `data2hex` and
`BN_hex2bn`, `getBuf` is `BN_bn2hex` and `hex2data`.  Through the text the number is the one its bytes
spell (`setBuf_eq`), except that no bytes leave the old value; the bytes of a number are its minimal
ones (`getBuf_eq`), except that zero has one.
-/

namespace EuhatExpert

open Machinery

namespace JyBigNum

/-- `pat`. -/
def pat : List Char := "0123456789ABCDEF".toList

/-- The two characters `data2hex` writes for a byte. -/
def hexPair (ch : UInt8) : List Char :=
  [pat.getD (ch >>> 4).toNat '0', pat.getD (ch &&& 0xF).toNat '0']

def data2hex (data : Bytes) : List Char := data.flatMap hexPair

/-- `hex2data`: a character outside `pat` sends the search past its end, and an odd one out is written
past the end of the buffer. -/
def hex2data : List Char → Except Fault Bytes
  | [] => .ok []
  | [_] => .error .outside
  | ch0 :: ch1 :: str =>
    match pat.idxOf? ch0, pat.idxOf? ch1, hex2data str with
    | some idx0, some idx1, .ok bs => .ok (UInt8.ofNat (16 * idx0 + idx1) :: bs)
    | _, _, _ => .error .outside

/-! ## The library's text functions -/

/-- `OPENSSL_hexchar2int` of an upper-case digit. -/
def hexDigit (c : Char) : Option ℕ := pat.idxOf? c

/-- `BN_hex2bn` of a new number: the value of the leading digits, nothing when there is none or too
many of them. -/
def BN_hex2bn (str : List Char) : Option ℕ :=
  let digits := (str.takeWhile fun c => (hexDigit c).isSome).filterMap hexDigit
  if digits = [] ∨ 536870911 < digits.length then none
  else some (digits.foldl (fun n d => 16 * n + d) 0)

/-- `BN_bn2hex`: whole bytes in upper case, and one character for zero. -/
def BN_bn2hex (n : ℕ) : List Char := if n = 0 then ['0'] else data2hex (beBytes n)

/-! ## `JyBigNum` -/

/-- `setBuf` on a number of value `old`. -/
def setBuf (old : ℕ) (buf : Bytes) : ℕ := (BN_hex2bn (data2hex buf)).getD old

def getBuf (value : ℕ) : Except Fault Bytes :=
  let p := BN_bn2hex value
  if p.length = 1 then hex2data ['0', '0'] else hex2data p

def getBits (value : ℕ) : ℕ := Nat.size value

/-- `expMod` on a number of value `old`: reducing modulo zero fails and leaves it. -/
def expMod (old a power mod : ℕ) : ℕ := if mod = 0 ∧ power ≠ 0 then old else a ^ power % mod

/-! ## What they come to -/

theorem hexDigit_pat : ∀ k : Fin 16, hexDigit (pat.getD k '0') = some k.val := by decide

theorem hexDigit_pat_of_lt {k : ℕ} (h : k < 16) : hexDigit (pat.getD k '0') = some k :=
  hexDigit_pat ⟨k, h⟩

/-- The two characters are the halves of the byte. -/
theorem hexPair_eq (b : UInt8) :
    hexPair b = [pat.getD (b.toNat / 16) '0', pat.getD (b.toNat % 16) '0'] := by
  have hlo : (b &&& 0xF).toNat = b.toNat % 16 := by
    rw [UInt8.toNat_and]
    exact Nat.and_two_pow_sub_one_eq_mod b.toNat 4
  have hhi : (b >>> 4).toNat = b.toNat / 16 := by
    rw [UInt8.toNat_shiftRight]
    exact Nat.shiftRight_eq_div_pow b.toNat 4
  rw [hexPair, hlo, hhi]

/-- The digits a byte string is written with, half a byte each. -/
def nibbles (data : Bytes) : List ℕ := data.flatMap fun b => [b.toNat / 16, b.toNat % 16]

theorem nibbles_cons (b : UInt8) (bs : Bytes) :
    nibbles (b :: bs) = b.toNat / 16 :: b.toNat % 16 :: nibbles bs := rfl

theorem length_nibbles (data : Bytes) : (nibbles data).length = 2 * data.length := by
  induction data with
  | nil => rfl
  | cons b bs ih =>
    simp only [nibbles_cons, List.length_cons, ih]
    omega

theorem data2hex_eq (data : Bytes) :
    data2hex data = (nibbles data).map fun k => pat.getD k '0' := by
  induction data with
  | nil => rfl
  | cons b bs ih =>
    rw [data2hex, List.flatMap_cons, ← data2hex, ih, hexPair_eq, nibbles_cons]
    rfl

theorem nibbles_lt (data : Bytes) : ∀ k ∈ nibbles data, k < 16 := by
  intro k hk
  obtain ⟨b, -, hb⟩ := List.mem_flatMap.mp hk
  have hlt : b.toNat < 256 := b.toNat_lt
  rcases List.mem_cons.mp hb with rfl | hb
  · omega
  · obtain rfl : k = b.toNat % 16 := by simpa using hb
    omega

/-- The text of a byte string is read digit by digit. -/
theorem digits_data2hex (data : Bytes) :
    ((data2hex data).takeWhile fun c => (hexDigit c).isSome).filterMap hexDigit = nibbles data := by
  rw [data2hex_eq, List.takeWhile_eq_self_iff.mpr]
  · rw [List.filterMap_map]
    conv_rhs => rw [← List.filterMap_some (l := nibbles data)]
    refine List.filterMap_congr fun k hk => ?_
    exact hexDigit_pat_of_lt (nibbles_lt data k hk)
  · intro c hc
    obtain ⟨k, hk, rfl⟩ := List.mem_map.mp hc
    rw [hexDigit_pat_of_lt (nibbles_lt data k hk), Option.isSome_some]

theorem foldl_nibbles (n : ℕ) (data : Bytes) :
    (nibbles data).foldl (fun n d => 16 * n + d) n = n * 256 ^ data.length + beNat data := by
  induction data generalizing n with
  | nil => simp [nibbles]
  | cons b bs ih =>
    have hb : 16 * (16 * n + b.toNat / 16) + b.toNat % 16 = 256 * n + b.toNat := by omega
    rw [nibbles_cons, List.foldl_cons, List.foldl_cons, hb, ih, beNat_cons, List.length_cons, pow_succ]
    ring

/-- **`setBuf` sets the number its bytes spell.** -/
theorem setBuf_eq (old : ℕ) {buf : Bytes} (hne : buf ≠ []) (hlen : buf.length < 2 ^ 28) :
    setBuf old buf = beNat buf := by
  have hdig : ¬ (nibbles buf = [] ∨ 536870911 < (nibbles buf).length) := by
    rw [← List.length_eq_zero_iff, length_nibbles]
    have := List.length_pos_of_ne_nil hne
    omega
  simp only [setBuf, BN_hex2bn, digits_data2hex, if_neg hdig, foldl_nibbles, zero_mul, zero_add,
    Option.getD_some]

/-- `setBuf` of no bytes sets nothing. -/
@[simp] theorem setBuf_nil (old : ℕ) : setBuf old [] = old := rfl

theorem hex2data_data2hex (data : Bytes) : hex2data (data2hex data) = .ok data := by
  induction data with
  | nil => rfl
  | cons b bs ih =>
    have hlt : b.toNat < 256 := b.toNat_lt
    have hhi := hexDigit_pat_of_lt (show b.toNat / 16 < 16 by omega)
    have hlo := hexDigit_pat_of_lt (show b.toNat % 16 < 16 by omega)
    have hb : 16 * (b.toNat / 16) + b.toNat % 16 = b.toNat := by omega
    rw [hexDigit] at hhi hlo
    rw [data2hex, List.flatMap_cons, ← data2hex, hexPair_eq]
    simp only [List.cons_append, List.nil_append, hex2data, hhi, hlo, ih, hb, UInt8.ofNat_toNat]

/-- The bytes `getBuf` gives: the minimal ones of the number, and one for zero. -/
def numBytes (value : ℕ) : Bytes := if value = 0 then [0] else beBytes value

theorem length_data2hex (data : Bytes) : (data2hex data).length = 2 * data.length := by
  rw [data2hex_eq, List.length_map, length_nibbles]

/-- **`getBuf` gives the minimal bytes of the number.** -/
theorem getBuf_eq (value : ℕ) : getBuf value = .ok (numBytes value) := by
  by_cases h : value = 0
  · subst h
    decide
  · have hlen : ¬ (data2hex (beBytes value)).length = 1 := by
      rw [length_data2hex]
      omega
    simp only [getBuf, BN_bn2hex, if_neg h, if_neg hlen, hex2data_data2hex, numBytes]

theorem length_numBytes (value : ℕ) : (numBytes value).length = max 1 (byteLen value) := by
  rw [numBytes]
  split_ifs with h
  · subst h
    decide
  · rw [length_beBytes, max_eq_right (byteLen_pos (Nat.pos_of_ne_zero h))]

theorem numBytes_ne_nil (value : ℕ) : numBytes value ≠ [] := by
  rw [← List.length_pos_iff, length_numBytes]
  exact lt_max_of_lt_left Nat.one_pos

theorem beNat_numBytes (value : ℕ) : beNat (numBytes value) = value := by
  rw [numBytes]
  split_ifs with h
  · rw [h]
    decide
  · exact beNat_beBytes value

/-- **A number set from its own bytes is that number.** -/
theorem setBuf_numBytes (old : ℕ) {value : ℕ} (h : byteLen value < 2 ^ 28) :
    setBuf old (numBytes value) = value := by
  rw [setBuf_eq old (numBytes_ne_nil value) (by rw [length_numBytes]; omega), beNat_numBytes]

end JyBigNum

end EuhatExpert
