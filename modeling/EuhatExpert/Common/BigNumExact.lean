import EuhatExpert.Common.JyBigNum

/-!
# Common/BigNumExact — when a big number is set from its bytes, and they are given back

The loops of `data2hex` and `hex2data` count bytes in an `int`; counted so (`Counted`) they are the
conversions of `JyBigNum` while the count does not run over.  **Setting a number from bytes is exact
unless there are none and the number was not zero before** (`Counted.exact_iff`): `BN_hex2bn` makes nothing
of an empty text, and the old value stays.
-/

namespace EuhatExpert

open Machinery

namespace JyBigNum

/-- What is promised of `BN_hex2bn`: nothing is made of an empty text, and any other text of digits gives
the number it spells. -/
structure ReadsHex (hex2bn : List Char → Option ℕ) : Prop where
  nil : hex2bn [] = none
  digits : ∀ ds : List ℕ, ds ≠ [] → (∀ d ∈ ds, d < 16) →
    hex2bn (ds.map fun d => pat.getD d '0') = some (ds.foldl (fun n d => 16 * n + d) 0)

namespace Counted

/-- `data2hex`, whose counter is at `i`. -/
def data2hexFrom : ℕ → Bytes → Except Fault (List Char)
  | _, [] => .ok []
  | i, ch :: data => if i + 1 < 2 ^ 31 then (data2hexFrom (i + 1) data).map (hexPair ch ++ ·) else .error .overflow

def data2hex (data : Bytes) : Except Fault (List Char) := data2hexFrom 0 data

/-- `hex2data`, which writes at `idx` next. -/
def hex2dataFrom : ℕ → List Char → Except Fault Bytes
  | _, [] => .ok []
  | _, [_] => .error .outside
  | idx, ch0 :: ch1 :: str =>
    match pat.idxOf? ch0, pat.idxOf? ch1 with
    | some idx0, some idx1 =>
      if idx + 1 < 2 ^ 31 then (hex2dataFrom (idx + 1) str).map (UInt8.ofNat (16 * idx0 + idx1) :: ·)
      else .error .overflow
    | _, _ => .error .outside

def hex2data (str : List Char) : Except Fault Bytes := hex2dataFrom 0 str

/-- `BN_bn2hex`, with the sign of a negative number. -/
def BN_bn2hex (value : ℤ) : List Char :=
  if value < 0 then '-' :: JyBigNum.BN_bn2hex value.natAbs else JyBigNum.BN_bn2hex value.toNat

/-- `setBuf` on a number of value `old`, through the library's `BN_hex2bn`. -/
def setBuf (hex2bn : List Char → Option ℕ) (old : ℤ) (buf : Bytes) : Except Fault ℤ :=
  (data2hex buf).map fun str => (hex2bn str).elim old fun n => n

def getBuf (value : ℤ) : Except Fault Bytes :=
  let p := BN_bn2hex value
  if p.length = 1 then hex2data ['0', '0'] else hex2data p

/-- A number of value `old` set from `b` has the value `b` spells and gives back the shortest bytes of it,
and `b` comes back through its text. -/
structure Exact (hex2bn : List Char → Option ℕ) (old : ℤ) (b : Bytes) : Prop where
  value : setBuf hex2bn old b = .ok (beNat b)
  bytes : ∃ r, getBuf (beNat b) = .ok r ∧ r ≠ [] ∧ beNat r = beNat b ∧
    ∀ r', r' ≠ [] → beNat r' = beNat b → r.length ≤ r'.length
  text : (data2hex b).bind hex2data = .ok b

/-! ## Counted, they are what they were -/

theorem data2hexFrom_eq {i : ℕ} (hi : i < 2 ^ 31) (data : Bytes) :
    data2hexFrom i data = if i + data.length < 2 ^ 31 then .ok (JyBigNum.data2hex data) else .error .overflow := by
  induction data generalizing i with
  | nil => simpa [data2hexFrom, JyBigNum.data2hex] using hi
  | cons ch data ih =>
    rw [data2hexFrom, List.length_cons]
    by_cases hlt : i + 1 < 2 ^ 31
    · rw [if_pos hlt, ih hlt, Nat.add_right_comm, Nat.add_assoc]
      split_ifs
      · rfl
      · rfl
    · rw [if_neg hlt, if_neg (by omega)]

theorem hex2dataFrom_data2hex {idx : ℕ} (hidx : idx < 2 ^ 31) (data : Bytes) :
    hex2dataFrom idx (JyBigNum.data2hex data)
      = if idx + data.length < 2 ^ 31 then .ok data else .error .overflow := by
  induction data generalizing idx with
  | nil => simpa [hex2dataFrom, JyBigNum.data2hex] using hidx
  | cons b bs ih =>
    have hlt : b.toNat < 256 := b.toNat_lt
    have hhi := hexDigit_pat_of_lt (show b.toNat / 16 < 16 by omega)
    have hlo := hexDigit_pat_of_lt (show b.toNat % 16 < 16 by omega)
    have hb : 16 * (b.toNat / 16) + b.toNat % 16 = b.toNat := by omega
    rw [hexDigit] at hhi hlo
    rw [JyBigNum.data2hex, List.flatMap_cons, ← JyBigNum.data2hex, hexPair_eq, List.cons_append, List.cons_append,
      List.nil_append, hex2dataFrom, hhi, hlo, List.length_cons]
    dsimp only
    rw [hb, UInt8.ofNat_toNat]
    by_cases hroom : idx + 1 < 2 ^ 31
    · rw [if_pos hroom, ih hroom, Nat.add_right_comm, Nat.add_assoc]
      split_ifs
      · rfl
      · rfl
    · rw [if_neg hroom, if_neg (by omega)]

theorem data2hex_eq (data : Bytes) :
    data2hex data = if data.length < 2 ^ 31 then .ok (JyBigNum.data2hex data) else .error .overflow := by
  rw [data2hex, data2hexFrom_eq (by norm_num), Nat.zero_add]

theorem hex2data_data2hex (data : Bytes) :
    hex2data (JyBigNum.data2hex data) = if data.length < 2 ^ 31 then .ok data else .error .overflow := by
  rw [hex2data, hex2dataFrom_data2hex (by norm_num), Nat.zero_add]

/-! ## What a number gives back -/

/-- No bytes but those of a number are fewer, unless there are none. -/
theorem length_numBytes_le {value : ℕ} {r : Bytes} (hne : r ≠ []) (hr : beNat r = value) :
    (numBytes value).length ≤ r.length := by
  rw [length_numBytes]
  exact max_le (List.length_pos_of_ne_nil hne) (byteLen_le_iff.mpr (hr ▸ beNat_lt r))

theorem BN_bn2hex_natCast (value : ℕ) : BN_bn2hex value = JyBigNum.BN_bn2hex value := by
  rw [BN_bn2hex, if_neg (Int.natCast_nonneg value).not_gt, Int.toNat_natCast]

/-- A number whose bytes can be counted gives them back. -/
theorem getBuf_natCast {value : ℕ} (h : (numBytes value).length < 2 ^ 31) :
    getBuf (value : ℤ) = .ok (numBytes value) := by
  rw [getBuf, BN_bn2hex_natCast, JyBigNum.BN_bn2hex]
  by_cases h0 : value = 0
  · rw [if_pos h0, h0]
    decide
  · rw [numBytes, if_neg h0] at h ⊢
    have hlen : ¬ (JyBigNum.data2hex (beBytes value)).length = 1 := by
      rw [length_data2hex]
      omega
    rw [if_neg h0, if_neg hlen, hex2data_data2hex, if_pos h]

/-! ## What a number is set to -/

variable {hex2bn : List Char → Option ℕ}

/-- What is read of the text of bytes: their number, and nothing when there are none. -/
theorem hex2bn_data2hex (h : ReadsHex hex2bn) (b : Bytes) :
    hex2bn (JyBigNum.data2hex b) = if b = [] then none else some (beNat b) := by
  split_ifs with hb
  · rw [hb]
    exact h.nil
  · have hne : nibbles b ≠ [] := by
      rw [← List.length_pos_iff, length_nibbles]
      have := List.length_pos_of_ne_nil hb
      omega
    rw [JyBigNum.data2hex_eq, h.digits _ hne (nibbles_lt b), foldl_nibbles, Nat.zero_mul, Nat.zero_add]

/-- `setBuf` sets the number its bytes spell; no bytes leave the old value. -/
theorem setBuf_eq (h : ReadsHex hex2bn) (old : ℤ) {b : Bytes} (hlen : b.length < 2 ^ 31) :
    setBuf hex2bn old b = .ok (if b = [] then old else (beNat b : ℤ)) := by
  rw [setBuf, data2hex_eq, if_pos hlen, Except.map, hex2bn_data2hex h]
  split_ifs <;> rfl

/-- **Setting a number from bytes is exact** when the bytes can be counted, and there are some or the number
was zero. -/
theorem exact_iff (h : ReadsHex hex2bn) (old : ℤ) (b : Bytes) :
    Exact hex2bn old b ↔ (b ≠ [] ∨ old = 0) ∧ b.length < 2 ^ 31 := by
  constructor
  · intro hx
    have hlen : b.length < 2 ^ 31 := by
      by_contra hlong
      have hv := hx.value
      rw [setBuf, data2hex_eq, if_neg hlong] at hv
      exact Except.noConfusion rfl rfl (heq_of_eq hv)
    refine ⟨?_, hlen⟩
    have hv := hx.value
    rw [setBuf_eq h old hlen, Except.ok.injEq] at hv
    rcases eq_or_ne b [] with rfl | hne
    · exact .inr hv
    · exact .inl hne
  · rintro ⟨hor, hlen⟩
    have hnum : (numBytes (beNat b)).length < 2 ^ 31 := by
      rw [length_numBytes]
      have hle : byteLen (beNat b) ≤ b.length := byteLen_le_iff.mpr (beNat_lt b)
      omega
    refine ⟨?_, ⟨numBytes (beNat b), getBuf_natCast hnum, numBytes_ne_nil _, beNat_numBytes _,
      fun r' hne hr => length_numBytes_le hne hr⟩, ?_⟩
    · rw [setBuf_eq h old hlen]
      split_ifs with hb
      · rw [hb, beNat_nil, hor.resolve_left fun hne => hne hb]
        rfl
      · rfl
    · rw [data2hex_eq, if_pos hlen]
      exact (hex2data_data2hex b).trans (if_pos hlen)

/-! ### The bundled library -/

/-- Through the bundled `BN_hex2bn`, bytes that can be counted are set as before. -/
theorem setBuf_bundled (old : ℕ) {b : Bytes} (hlen : b.length < 2 ^ 31) :
    setBuf BN_hex2bn old b = .ok (JyBigNum.setBuf old b : ℕ) := by
  rw [setBuf, data2hex_eq, if_pos hlen, Except.map, JyBigNum.setBuf]
  cases BN_hex2bn (JyBigNum.data2hex b) <;> rfl

/-- Bytes that can be counted are given back as before. -/
theorem getBuf_bundled {value : ℕ} (h : (numBytes value).length < 2 ^ 31) :
    getBuf (value : ℤ) = JyBigNum.getBuf value := by
  rw [getBuf_natCast h, JyBigNum.getBuf_eq]

/-! ### A reader of texts of any length -/

/-- The number a text spells, when it is not empty. -/
def readHex (str : List Char) : Option ℕ :=
  if str = [] then none else some ((str.filterMap hexDigit).foldl (fun n d => 16 * n + d) 0)

theorem readsHex_readHex : ReadsHex readHex where
  nil := rfl
  digits ds hne hlt := by
    rw [readHex, if_neg (by simpa using hne), List.filterMap_map]
    have hds : ds.filterMap (hexDigit ∘ fun d => pat.getD d '0') = ds := by
      conv_rhs => rw [← List.filterMap_some (l := ds)]
      exact List.filterMap_congr fun d hd => hexDigit_pat_of_lt (hlt d hd)
    rw [hds]

theorem exact_two_bytes : Exact readHex 5 [1, 2] :=
  (exact_iff readsHex_readHex 5 [1, 2]).mpr (by decide)

/-- A number set from no bytes after another keeps the other's value. -/
theorem stale_after_empty : ReadsHex readHex ∧ ¬ Exact readHex 1 [] :=
  ⟨readsHex_readHex, fun hx => absurd hx.value (by decide)⟩

end Counted

end JyBigNum

end EuhatExpert
