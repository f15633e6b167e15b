import EuhatExpert.Common.JyDataCrypto
import EuhatExpert.Machinery.ShiftRegister

/-!
# Common/Crc32Bursts — what the checksum of a packet can tell

The entries of `tab_` are eight turns of a shift register (`shift_eq_turn`), so `gen` feeds a string to the
register byte by byte (`gen_eq_feeds`).  A string that differs from another only inside four consecutive bytes
has another checksum, and the checksum of a string goes on from that of its front (`gen_bursts_and_composes`).
-/

namespace EuhatExpert

open Machinery ShiftRegister

/-- The strings are equally long, and differ only inside some window of `k` consecutive bytes. -/
def DifferWithin (k : ℕ) (x y : Bytes) : Prop :=
  x.length = y.length ∧ ∃ i, ∀ j, x[j]? ≠ y[j]? → i ≤ j ∧ j < i + k

/-- Around the window the strings agree. -/
theorem DifferWithin.split {k : ℕ} {x y : Bytes} (h : DifferWithin k x y) :
    ∃ pre mid mid' post, x = pre ++ (mid ++ post) ∧ y = pre ++ (mid' ++ post) ∧
      mid.length = mid'.length ∧ mid.length ≤ k := by
  obtain ⟨hlen, i, hi⟩ := h
  have hpre : x.take i = y.take i := by
    refine List.ext_getElem? fun j => ?_
    rw [List.getElem?_take, List.getElem?_take]
    split_ifs with hj
    · by_contra hne
      exact absurd (hi j hne).1 (not_le.mpr hj)
    · rfl
  have hpost : (x.drop i).drop k = (y.drop i).drop k := by
    refine List.ext_getElem? fun j => ?_
    rw [List.getElem?_drop, List.getElem?_drop, List.getElem?_drop, List.getElem?_drop]
    by_contra hne
    have := (hi _ hne).2
    omega
  refine ⟨x.take i, (x.drop i).take k, (y.drop i).take k, (x.drop i).drop k, ?_, ?_, ?_, List.length_take_le _ _⟩
  · rw [List.take_append_drop, List.take_append_drop]
  · rw [hpre, hpost, List.take_append_drop, List.take_append_drop]
  · rw [List.length_take, List.length_take, List.length_drop, List.length_drop, hlen]

namespace JyCrc32

/-! ## The table -/

/-- `CRC32_POLYNOMIAL`, as the feedback of the register. -/
abbrev feedback : BitVec 32 := CRC32_POLYNOMIAL.toBitVec

theorem shift_eq_turn (crc : UInt32) : (shift crc).toBitVec = turn feedback crc.toBitVec := by
  have hlow : (crc &&& 1 ≠ 0) ↔ crc.toBitVec.getLsbD 0 = true := by
    rw [ne_eq, ← UInt32.toBitVec_inj, UInt32.toBitVec_and]
    constructor
    · intro h
      by_contra hzero
      refine h (BitVec.eq_of_getLsbD_eq fun i hi => ?_)
      rcases i with - | i
      · simpa using hzero
      · simp [BitVec.getLsbD_one]
    · intro h hzero
      have hbit := congrArg (fun c => c.getLsbD 0) hzero
      rw [BitVec.getLsbD_and, h] at hbit
      cases hbit
  rw [shift, turn]
  by_cases h : crc &&& 1 ≠ 0
  · rw [if_pos h, if_pos (hlow.mp h)]
    rfl
  · rw [if_neg h, if_neg (mt hlow.mpr h)]
    rfl

theorem tab_eq_turns (i : UInt32) : (tab_ i).toBitVec = (turn feedback)^[8] i.toBitVec :=
  (Function.Semiconj.iterate_right shift_eq_turn 8).eq i

/-- One turn of `gen`'s loop feeds the byte to the register. -/
theorem gen_step (c : UInt32) (b : UInt8) :
    ((c >>> 8) ^^^ tab_ ((c ^^^ b.toUInt32) &&& 0xff)).toBitVec = feed feedback c.toBitVec b.toBitVec := by
  have hshift : (c.toBitVec ^^^ b.toBitVec.setWidth 32) >>> 8 = c.toBitVec >>> 8 := by
    ext i hi
    simp
  rw [UInt32.toBitVec_xor, tab_eq_turns, feed, turns_eq_low 8 (c.toBitVec ^^^ _), hshift]
  rfl

theorem gen_eq_feeds (buf : Bytes) (c : UInt32) :
    (gen buf c).toBitVec =
      ~~~ (buf.map UInt8.toBitVec).foldl (feed feedback) (c.toBitVec ^^^ BitVec.allOnes 32) := by
  rw [gen, UInt32.toBitVec_not, List.foldl_map]
  refine congrArg _ ?_
  exact (List.foldl_hom UInt32.toBitVec fun c b => (gen_step c b).symm).symm

/-! ## What the checksum tells -/

theorem gen_ne_of_differWithin {c : UInt32} {x y : Bytes} (h : DifferWithin 4 x y) (hne : x ≠ y) :
    gen x c ≠ gen y c := by
  obtain ⟨pre, mid, mid', post, rfl, rfl, hlen, hfour⟩ := h.split
  intro heq
  have hbits := congrArg UInt32.toBitVec heq
  rw [gen_eq_feeds, gen_eq_feeds, BitVec.not_inj] at hbits
  simp only [List.map_append] at hbits
  have hmid := eq_of_feed_eq (by decide) (by simpa using hlen) (by rw [List.length_map]; omega) hbits
  rw [List.map_injective_iff.mpr (fun _ _ => UInt8.toBitVec_inj.mp) hmid] at hne
  exact hne rfl

theorem gen_append (a b : Bytes) (c : UInt32) : gen (a ++ b) c = gen b (gen a c) := by
  rw [gen, gen, gen, List.foldl_append]
  generalize a.foldl _ _ = r
  have hback : ~~~ r ^^^ 0xFFFFFFFF = r := by
    refine UInt32.toBitVec_inj.mp ?_
    exact BitVec.xor_allOnes.trans BitVec.not_not
  rw [hback]

/-- **The checksum tells strings apart that differ inside four consecutive bytes, and it composes.** -/
theorem gen_bursts_and_composes (c : UInt32) :
    (∀ x y : Bytes, DifferWithin 4 x y → x ≠ y → gen x c ≠ gen y c) ∧
      ∀ a b : Bytes, gen (a ++ b) c = gen b (gen a c) :=
  ⟨fun _ _ h hne => gen_ne_of_differWithin h hne, fun a b => gen_append a b c⟩

theorem gen_bursts_and_composes_here :
    gen [1, 2, 3, 4, 5] 7 ≠ gen [1, 9, 9, 9, 5] 7 ∧ gen ([1, 2] ++ [3]) 7 = gen [3] (gen [1, 2] 7) := by
  refine ⟨(gen_bursts_and_composes 7).1 _ _ ⟨rfl, 1, fun j hj => ?_⟩ (by decide),
    (gen_bursts_and_composes 7).2 _ _⟩
  rcases j with - | - | - | - | - | j
  · exact absurd rfl hj
  · decide
  · decide
  · decide
  · exact absurd rfl hj
  · exact absurd rfl hj

end JyCrc32

end EuhatExpert
