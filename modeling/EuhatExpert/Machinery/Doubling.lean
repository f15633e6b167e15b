import Mathlib.Data.Nat.Log
import Mathlib.Tactic.Ring

/-!
# Machinery/Doubling — a buffer that doubles until the data fits

`grow` doubles a size until it reaches a need, `room` does so only when the need is not met yet and
starts an empty buffer at `unit`.  The size reached depends on the largest need alone, not on how it
was reached (`room_room`), and stays put while the need is met (`room_of_le`).
-/

namespace EuhatExpert.Machinery

/-- Double `size` until it reaches `need`, at most `fuel` times. -/
def grow : ℕ → ℕ → ℕ → ℕ
  | 0, _, size => size
  | fuel + 1, need, size => if size < need then grow fuel need (2 * size) else size

/-- The size of a buffer after making room for `need` bytes. -/
def room (unit size need : ℕ) : ℕ :=
  if size < need then grow need need (if size = 0 then unit else size) else size

theorem grow_of_le {need size : ℕ} (h : need ≤ size) : ∀ fuel, grow fuel need size = size
  | 0 => rfl
  | _ + 1 => if_neg (not_lt.mpr h)

theorem le_grow_self (fuel need size : ℕ) : size ≤ grow fuel need size := by
  induction fuel generalizing size with
  | zero => exact le_rfl
  | succ fuel ih =>
    rw [grow]
    split_ifs
    · exact (by omega : size ≤ 2 * size).trans (ih _)
    · exact le_rfl

theorem grow_of_lt {fuel need size : ℕ} (h : size < need) :
    grow (fuel + 1) need size = grow fuel need (2 * size) := if_pos h

/-- One doubling uses one unit of fuel. -/
private theorem double_le {fuel need size : ℕ} (h : need ≤ size * 2 ^ (fuel + 1)) :
    need ≤ 2 * size * 2 ^ fuel := by
  rwa [mul_assoc, mul_left_comm, ← pow_succ']

theorem le_grow {fuel need size : ℕ} (h : need ≤ size * 2 ^ fuel) : need ≤ grow fuel need size := by
  induction fuel generalizing size with
  | zero => simpa [grow] using h
  | succ fuel ih =>
    rw [grow]
    split_ifs with hlt
    · exact ih (double_le h)
    · exact not_lt.mp hlt

theorem grow_succ {fuel need size : ℕ} (h : need ≤ size * 2 ^ fuel) :
    grow (fuel + 1) need size = grow fuel need size := by
  induction fuel generalizing size with
  | zero => exact grow_of_le (by simpa using h) 1
  | succ fuel ih =>
    by_cases hlt : size < need
    · rw [grow_of_lt hlt, grow_of_lt hlt, ih (double_le h)]
    · rw [grow_of_le (not_lt.mp hlt), grow_of_le (not_lt.mp hlt)]

theorem grow_fuel {fuel need size : ℕ} (h : need ≤ size * 2 ^ fuel) (k : ℕ) :
    grow (fuel + k) need size = grow fuel need size := by
  induction k with
  | zero => rfl
  | succ k ih =>
    rw [← Nat.add_assoc, grow_succ, ih]
    exact h.trans (Nat.mul_le_mul_left _ (Nat.pow_le_pow_right (by norm_num) (by omega)))

/-- Growing to a smaller need on the way changes nothing. -/
theorem grow_grow {fuel a b size : ℕ} (hab : a ≤ b) (h : b ≤ size * 2 ^ fuel) :
    grow fuel b (grow fuel a size) = grow fuel b size := by
  induction fuel generalizing size with
  | zero => rfl
  | succ fuel ih =>
    by_cases hlt : size < a
    · have hb : b ≤ 2 * size * 2 ^ fuel := double_le h
      rw [grow_of_lt hlt, grow_of_lt (hlt.trans_le hab),
        grow_succ (hb.trans (Nat.mul_le_mul_right _ (le_grow_self _ _ _))), ih hb]
    · rw [grow_of_le (not_lt.mp hlt)]

private theorem enough {size : ℕ} (hs : 0 < size) (need : ℕ) : need ≤ size * 2 ^ need :=
  Nat.lt_two_pow_self.le.trans (Nat.le_mul_of_pos_left _ hs)

variable {unit : ℕ}

/-- **There is room.** -/
theorem le_room (hu : 0 < unit) (size need : ℕ) : need ≤ room unit size need := by
  rw [room]
  split_ifs with h h0
  · exact le_grow (enough hu need)
  · exact le_grow (enough (Nat.pos_of_ne_zero h0) need)
  · exact not_lt.mp h

theorem le_room_self (size need : ℕ) : size ≤ room unit size need := by
  rw [room]
  split_ifs with h h0
  · exact h0 ▸ Nat.zero_le _
  · exact le_grow_self _ _ _
  · exact le_rfl

theorem room_of_le {size need : ℕ} (h : need ≤ size) : room unit size need = size :=
  if_neg (not_lt.mpr h)

/-- **Room made in steps is room made at once.** -/
theorem room_room (hu : 0 < unit) {a b : ℕ} (hab : a ≤ b) (size : ℕ) :
    room unit (room unit size a) b = room unit size b := by
  by_cases ha : size < a
  · have hb : size < b := ha.trans_le hab
    have hs : 0 < if size = 0 then unit else size := by
      split_ifs with h0
      · exact hu
      · exact Nat.pos_of_ne_zero h0
    generalize hz : (if size = 0 then unit else size) = z at hs
    have ea : room unit size a = grow b a z := by
      rw [room, if_pos ha, hz, ← Nat.add_sub_cancel' hab, grow_fuel (enough hs a)]
    have eb : room unit size b = grow b b z := by rw [room, if_pos hb, hz]
    have hpos : 0 < grow b a z := hs.trans_le (le_grow_self _ _ _)
    rw [ea, eb, ← grow_grow hab (enough hs b), room, if_neg hpos.ne']
    split_ifs with h
    · rfl
    · exact (grow_of_le (not_lt.mp h) b).symm
  · rw [room_of_le (not_lt.mp ha)]

end EuhatExpert.Machinery
