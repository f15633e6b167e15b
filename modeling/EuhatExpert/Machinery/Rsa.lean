import Mathlib.FieldTheory.Finite.Basic

/-!
# Machinery/Rsa — raising to `e` and then to `d` modulo two primes

By Fermat's little theorem `m ^ (e * d)` is `m` modulo a prime `p` when `e * d` is one modulo `p - 1`
(`pow_modEq_self`), for the multiples of `p` too; the Chinese remainder theorem joins two distinct
primes (`pow_pow_mod`).
-/

namespace EuhatExpert.Machinery

/-- One more than a multiple of `p - 1`, as an exponent modulo `p`. -/
theorem pow_modEq_self {p k : ℕ} (hp : p.Prime) (hk : k ≡ 1 [MOD p - 1]) (hk₀ : k ≠ 0) (m : ℕ) :
    m ^ k ≡ m [MOD p] := by
  have : Fact p.Prime := ⟨hp⟩
  by_cases hm : (m : ZMod p) = 0
  · refine (ZMod.natCast_eq_natCast_iff _ _ _).mp ?_
    rw [Nat.cast_pow, hm, zero_pow hk₀]
  · obtain ⟨j, hj⟩ := (Nat.modEq_iff_dvd' (Nat.one_le_iff_ne_zero.mpr hk₀)).mp hk.symm
    have hk' : k = (p - 1) * j + 1 := by omega
    refine (ZMod.natCast_eq_natCast_iff _ _ _).mp ?_
    rw [Nat.cast_pow, hk', pow_succ, pow_mul, ZMod.pow_card_sub_one_eq_one hm, one_pow, one_mul]

/-- The exponents of a key modulo two distinct primes. -/
structure KeyPair (p q e d : ℕ) : Prop where
  prime_p : p.Prime
  prime_q : q.Prime
  ne : p ≠ q
  inverse : e * d ≡ 1 [MOD (p - 1) * (q - 1)]

namespace KeyPair

variable {p q e d : ℕ}

/-- Two distinct primes leave room for a unit besides one, so neither exponent is zero. -/
theorem mul_ne_zero (h : KeyPair p q e d) : e * d ≠ 0 := by
  intro h0
  have hp := h.prime_p.two_le
  have hq := h.prime_q.two_le
  have hlt : 1 < (p - 1) * (q - 1) := by
    rcases Nat.lt_or_gt_of_ne h.ne with hlt | hlt
    · exact Nat.lt_of_lt_of_le (by omega : 1 < q - 1) (Nat.le_mul_of_pos_left _ (by omega))
    · exact Nat.lt_of_lt_of_le (by omega : 1 < p - 1) (Nat.le_mul_of_pos_right _ (by omega))
  have := h.inverse
  rw [h0, Nat.ModEq, Nat.zero_mod, Nat.mod_eq_of_lt hlt] at this
  cases this

/-- **Decryption undoes encryption, as numbers.** -/
theorem pow_pow_mod (h : KeyPair p q e d) {m : ℕ} (hm : m < p * q) :
    (m ^ e % (p * q)) ^ d % (p * q) = m := by
  have hp : e * d ≡ 1 [MOD p - 1] := h.inverse.of_mul_right _
  have hq : e * d ≡ 1 [MOD q - 1] := h.inverse.of_mul_left _
  have hpq : m ^ (e * d) ≡ m [MOD p * q] :=
    (Nat.modEq_and_modEq_iff_modEq_mul ((Nat.coprime_primes h.prime_p h.prime_q).mpr h.ne)).mp
      ⟨pow_modEq_self h.prime_p hp h.mul_ne_zero m, pow_modEq_self h.prime_q hq h.mul_ne_zero m⟩
  rw [← Nat.pow_mod, ← pow_mul]
  exact Eq.trans hpq (Nat.mod_eq_of_lt hm)

end KeyPair

end EuhatExpert.Machinery
