import EuhatExpert.Machinery.Doubling

/-!
# Machinery/WordDoubling — doubling in a word

`growIn m` doubles a size modulo `m` until it reaches a need.  It ends exactly when some doubling, reduced
modulo `m`, reaches the need (`exists_growIn_iff`); a need of at most half of `m` is always reached, and
then nothing was reduced on the way (`growIn_eq_grow`).
-/

namespace EuhatExpert.Machinery

variable {m fuel need size t : ℕ}

/-- Double `size` modulo `m` until it reaches `need`: the size reached, when `fuel` turns are enough. -/
def growIn (m : ℕ) : ℕ → ℕ → ℕ → Option ℕ
  | 0, _, _ => none
  | fuel + 1, need, size => if size < need then growIn m fuel need (2 * size % m) else some size

/-- One doubling, then `k`. -/
theorem double_mod_mul_pow (m size k : ℕ) : 2 * size % m * 2 ^ k % m = size * 2 ^ (k + 1) % m := by
  rw [Nat.mod_mul_mod, pow_succ', ← mul_assoc, mul_comm size 2]

/-- The size reached meets the need, and is a doubling. -/
theorem of_growIn (hsize : size < m) (h : growIn m fuel need size = some t) :
    need ≤ t ∧ ∃ k, t = size * 2 ^ k % m := by
  induction fuel generalizing size with
  | zero => cases h
  | succ fuel ih =>
    rw [growIn] at h
    split_ifs at h with hlt
    · obtain ⟨hneed, k, rfl⟩ := ih (Nat.mod_lt _ (by omega)) h
      exact ⟨hneed, k + 1, double_mod_mul_pow m size k⟩
    · obtain rfl := Option.some.inj h
      exact ⟨not_lt.mp hlt, 0, by rw [pow_zero, mul_one, Nat.mod_eq_of_lt hsize]⟩

/-- **The doubling ends** exactly when some doubling reaches the need. -/
theorem exists_growIn_iff (hsize : size < m) :
    (∃ fuel t, growIn m fuel need size = some t) ↔ ∃ k, need ≤ size * 2 ^ k % m := by
  constructor
  · rintro ⟨fuel, t, h⟩
    obtain ⟨hneed, k, rfl⟩ := of_growIn hsize h
    exact ⟨k, hneed⟩
  · rintro ⟨k, hk⟩
    induction k generalizing size with
    | zero =>
      rw [pow_zero, mul_one, Nat.mod_eq_of_lt hsize] at hk
      exact ⟨1, size, if_neg (not_lt.mpr hk)⟩
    | succ k ih =>
      by_cases hlt : size < need
      · rw [← double_mod_mul_pow] at hk
        obtain ⟨fuel, t, h⟩ := ih (Nat.mod_lt _ (by omega)) hk
        exact ⟨fuel + 1, t, (if_pos hlt).trans h⟩
      · exact ⟨1, size, if_neg hlt⟩

/-- **Below half of `m` nothing is reduced.** -/
theorem growIn_eq_grow (hm : 2 * need ≤ m) (h : need ≤ size * 2 ^ fuel) :
    growIn m (fuel + 1) need size = some (grow fuel need size) := by
  induction fuel generalizing size with
  | zero => exact if_neg (not_lt.mpr (by simpa using h))
  | succ fuel ih =>
    by_cases hlt : size < need
    · have hmod : 2 * size % m = 2 * size := Nat.mod_eq_of_lt (by omega)
      have hrec : need ≤ 2 * size * 2 ^ fuel := by rwa [mul_assoc, mul_left_comm, ← pow_succ']
      rw [grow_of_lt hlt, ← ih hrec, growIn, if_pos hlt, hmod]
    · rw [growIn, if_neg hlt, grow_of_le (not_lt.mp hlt)]

/-- A need of at most half of `m` is reached. -/
theorem exists_growIn_of_le (hpos : 0 < size) (hm : 2 * need ≤ m) :
    growIn m (need + 1) need size = some (grow need need size) :=
  growIn_eq_grow hm (Nat.lt_two_pow_self.le.trans (Nat.le_mul_of_pos_left _ hpos))

end EuhatExpert.Machinery
