import Mathlib.Data.BitVec
import Mathlib.Data.List.Basic
import Mathlib.Logic.Function.Iterate

/-!
# Machinery/ShiftRegister — division by a polynomial, bit by bit and byte by byte

A register of `w` bits moves down by one bit a turn, and takes a feedback when a one falls out.  Turns are
linear in exclusive or (`turn_xor`), and lose nothing when the top bit of the feedback is set
(`turn_injective`).  So no string is taken for another that differs from it in no more bytes than the register
holds (`eq_of_feed_eq`).
-/

namespace EuhatExpert.Machinery.ShiftRegister

variable {w : ℕ} (poly : BitVec w)

/-- One turn: a bit falls out at the bottom, and if it is a one the feedback is added. -/
def turn (c : BitVec w) : BitVec w := if c.getLsbD 0 then (c >>> 1) ^^^ poly else c >>> 1

/-- A byte is added at the bottom, and falls out. -/
def feed (c : BitVec w) (b : BitVec 8) : BitVec w := (turn poly)^[8] (c ^^^ b.setWidth w)

/-- The bytes of a string, the first one at the bottom. -/
def word (w : ℕ) : List (BitVec 8) → BitVec w
  | [] => 0
  | b :: bs => b.setWidth w ^^^ (word w bs <<< 8)

variable {poly}

/-! ## Turns -/

theorem turn_xor (a b : BitVec w) : turn poly (a ^^^ b) = turn poly a ^^^ turn poly b := by
  simp only [turn, BitVec.getLsbD_xor, BitVec.ushiftRight_xor_distrib]
  cases a.getLsbD 0 <;> cases b.getLsbD 0
  · rfl
  · exact BitVec.xor_assoc _ _ _
  · change (a >>> 1 ^^^ b >>> 1) ^^^ poly = (a >>> 1 ^^^ poly) ^^^ b >>> 1
    rw [BitVec.xor_assoc, BitVec.xor_comm (b >>> 1), BitVec.xor_assoc]
  · change _ ^^^ _ = _ ^^^ poly ^^^ (_ ^^^ poly)
    rw [BitVec.xor_assoc (a >>> 1), ← BitVec.xor_assoc poly, BitVec.xor_comm poly, BitVec.xor_assoc (b >>> 1),
      BitVec.xor_self, BitVec.xor_zero]

theorem turns_xor (k : ℕ) (a b : BitVec w) :
    (turn poly)^[k] (a ^^^ b) = (turn poly)^[k] a ^^^ (turn poly)^[k] b := by
  induction k generalizing a b with
  | zero => rfl
  | succ k ih => rw [Function.iterate_succ_apply, turn_xor, ih, Function.iterate_succ_apply, Function.iterate_succ_apply]

/-- What falls out is seen at the top. -/
theorem eq_zero_of_turn (hpoly : poly.msb = true) {c : BitVec w} (h : turn poly c = 0) : c = 0 := by
  have hlow : c.getLsbD 0 = false := by
    by_contra hone
    rw [turn, if_pos (by simpa using hone)] at h
    have hmsb := congrArg BitVec.msb h
    rw [BitVec.msb_xor, BitVec.msb_ushiftRight, hpoly] at hmsb
    simp at hmsb
  rw [turn, hlow, if_neg Bool.false_ne_true] at h
  ext i hi
  rcases i with - | i
  · simpa [BitVec.getLsbD_eq_getElem hi] using hlow
  · have hbit := congrArg (fun c => c.getLsbD i) h
    simpa [Nat.add_comm 1 i, BitVec.getLsbD_eq_getElem hi] using hbit

theorem turn_injective (hpoly : poly.msb = true) : Function.Injective (turn poly) := by
  intro a b h
  have hzero : turn poly (a ^^^ b) = 0 := by
    rw [turn_xor, h, BitVec.xor_self]
    rfl
  exact BitVec.xor_eq_zero_iff.mp (eq_zero_of_turn hpoly hzero)

/-- Zeros only move. -/
theorem turns_of_zeros (k : ℕ) (c : BitVec w) (h : ∀ i < k, c.getLsbD i = false) :
    (turn poly)^[k] c = c >>> k := by
  induction k generalizing c with
  | zero => simp
  | succ k ih =>
    have hturn : turn poly c = c >>> 1 := by
      rw [turn, h 0 (Nat.succ_pos k), if_neg Bool.false_ne_true]
    rw [Function.iterate_succ_apply, hturn, ih, Nat.add_comm k, BitVec.shiftRight_add]
    intro i hi
    rw [BitVec.getLsbD_ushiftRight, Nat.add_comm]
    exact h (i + 1) (Nat.succ_lt_succ hi)

/-- The bits that fall out in `k` turns decide all of the feedback. -/
theorem turns_eq_low (k : ℕ) (c : BitVec w) :
    (turn poly)^[k] c = (c >>> k) ^^^ (turn poly)^[k] (c &&& BitVec.ofNat w (2 ^ k - 1)) := by
  have hmask : ∀ i < w, (BitVec.ofNat w (2 ^ k - 1)).getLsbD i = decide (i < k) := by
    intro i hi
    rw [BitVec.getLsbD_ofNat, Nat.testBit_two_pow_sub_one, decide_eq_true hi, Bool.true_and]
  have hsplit : c = ((c >>> k) <<< k) ^^^ (c &&& BitVec.ofNat w (2 ^ k - 1)) := by
    ext i hi
    by_cases hik : i < k
    · simp [hik, ← BitVec.getLsbD_eq_getElem, hmask i hi]
    · simp [hik, hi, Nat.add_sub_cancel' (not_lt.mp hik), ← BitVec.getLsbD_eq_getElem, hmask i hi]
  have hback : ((c >>> k) <<< k) >>> k = c >>> k := by
    ext i hi
    by_cases hik : k + i < w
    · simp [hik]
    · simp [hik, BitVec.getLsbD_of_ge c _ (not_lt.mp hik)]
  conv_lhs => rw [hsplit, turns_xor, turns_of_zeros k _ (fun i hi => by simp [hi]), hback]

/-! ## Bytes -/

theorem feed_injective (hpoly : poly.msb = true) (b : BitVec 8) : Function.Injective fun c => feed poly c b := by
  intro c c' h
  exact (BitVec.xor_left_inj _).mp ((turn_injective hpoly).iterate 8 h)

theorem feeds_injective (hpoly : poly.msb = true) (bs : List (BitVec 8)) :
    Function.Injective fun c => bs.foldl (feed poly) c := by
  induction bs with
  | nil => exact Function.injective_id
  | cons b bs ih => exact ih.comp (feed_injective hpoly b)

theorem getLsbD_word_of_ge {i : ℕ} : ∀ (bs : List (BitVec 8)), 8 * bs.length ≤ i → (word w bs).getLsbD i = false
  | [], _ => by simp [word]
  | b :: bs, h => by
    rw [List.length_cons] at h
    obtain ⟨j, rfl⟩ := Nat.exists_eq_add_of_le (show 8 ≤ i by omega)
    simp [word, getLsbD_word_of_ge bs (show 8 * bs.length ≤ j by omega)]

theorem word_cons_high {b : BitVec 8} {bs : List (BitVec 8)} (h : 8 * (b :: bs).length ≤ w) :
    word w (b :: bs) >>> 8 = word w bs := by
  rw [List.length_cons] at h
  ext i hi
  by_cases hiw : 8 + i < w
  · simp [word, hiw]
  · have hzero := getLsbD_word_of_ge (w := w) bs (show 8 * bs.length ≤ i by omega)
    rw [BitVec.getLsbD_eq_getElem hi] at hzero
    simp [hzero, BitVec.getLsbD_of_ge _ _ (not_lt.mp hiw)]

/-- A string that the register holds can be added at once. -/
theorem feeds_eq_word (c : BitVec w) (bs : List (BitVec 8)) (h : 8 * bs.length ≤ w) :
    bs.foldl (feed poly) c = (turn poly)^[8 * bs.length] (c ^^^ word w bs) := by
  induction bs generalizing c with
  | nil => simp [word]
  | cons b bs ih =>
    have hlen : 8 * bs.length ≤ w := by
      rw [List.length_cons] at h
      omega
    have hrest : (turn poly)^[8] (word w bs <<< 8) = word w bs := by
      rw [turns_of_zeros 8 _ (fun i hi => by simp [hi])]
      ext i hi
      by_cases hiw : 8 + i < w
      · simp [hiw]
      · rw [List.length_cons] at h
        have hzero := getLsbD_word_of_ge (w := w) bs (show 8 * bs.length ≤ i by omega)
        rw [BitVec.getLsbD_eq_getElem hi] at hzero
        simp [hiw, hzero]
    rw [List.foldl_cons, ih _ hlen, List.length_cons, Nat.mul_succ, Function.iterate_add_apply, word, feed,
      ← BitVec.xor_assoc, turns_xor 8 (c ^^^ _), hrest]

/-- Strings that the register holds are seen in it. -/
theorem word_injective : ∀ (bs bs' : List (BitVec 8)), bs.length = bs'.length → 8 * bs.length ≤ w →
    word w bs = word w bs' → bs = bs'
  | [], [], _, _, _ => rfl
  | b :: bs, b' :: bs', hlen, hroom, h => by
    have hhigh : word w bs = word w bs' := by
      rw [← word_cons_high hroom, h, word_cons_high (hlen ▸ hroom)]
    have hlow : b = b' := by
      ext i hi
      have hbit := congrArg (fun c => c.getLsbD i) h
      rw [List.length_cons] at hroom
      simpa [word, hi, show i < w by omega] using hbit
    rw [hlow, word_injective bs bs' (Nat.succ.inj hlen) (by rw [List.length_cons] at hroom; omega) hhigh]

/-- **No string is taken for another that differs from it in no more bytes than the register holds.** -/
theorem eq_of_feed_eq (hpoly : poly.msb = true) {pre mid mid' post : List (BitVec 8)} {c : BitVec w}
    (hlen : mid.length = mid'.length) (hroom : 8 * mid.length ≤ w)
    (h : (pre ++ (mid ++ post)).foldl (feed poly) c = (pre ++ (mid' ++ post)).foldl (feed poly) c) :
    mid = mid' := by
  simp only [List.foldl_append] at h
  have hmid := feeds_injective hpoly post h
  rw [feeds_eq_word _ mid hroom, feeds_eq_word _ mid' (hlen ▸ hroom), hlen] at hmid
  exact word_injective mid mid' hlen hroom ((BitVec.xor_right_inj _).mp ((turn_injective hpoly).iterate _ hmid))

end EuhatExpert.Machinery.ShiftRegister
