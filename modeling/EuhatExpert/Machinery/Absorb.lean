import EuhatExpert.Machinery.Chunks

/-!
# Machinery/Absorb — a message taken in whole blocks

`absorb f k s l` folds `f` over the whole blocks of `l`, `k` entries each, and leaves what is less than a
block.  A message cut in two is absorbed as it is whole, if what the first part leaves is put before the
second (`absorb_append`); one of whole blocks only is folded over its pieces (`absorb_eq_foldl`).
-/

namespace EuhatExpert.Machinery

variable {α σ : Type*} {f : σ → List α → σ} {k : ℕ}

/-- The fold of `f` over the whole blocks of a list, and what is left of it. -/
def absorb (f : σ → List α → σ) (k : ℕ) (s : σ) (l : List α) : σ × List α :=
  if _h : 0 < k ∧ k ≤ l.length then absorb f k (f s (l.take k)) (l.drop k) else (s, l)
termination_by l.length
decreasing_by
  rw [List.length_drop]
  omega

theorem absorb_of_lt {l : List α} (h : l.length < k) (s : σ) : absorb f k s l = (s, l) := by
  rw [absorb, dif_neg (by omega)]

theorem absorb_of_le {l : List α} (hk : 0 < k) (h : k ≤ l.length) (s : σ) :
    absorb f k s l = absorb f k (f s (l.take k)) (l.drop k) := by
  rw [absorb, dif_pos ⟨hk, h⟩]

/-- A whole block, and what comes after it. -/
theorem absorb_block {block : List α} (hk : 0 < k) (h : block.length = k) (s : σ) (l : List α) :
    absorb f k s (block ++ l) = absorb f k (f s block) l := by
  rw [absorb_of_le hk (by rw [List.length_append]; omega), List.take_left' h, List.drop_left' h]

theorem length_absorb (hk : 0 < k) (s : σ) (l : List α) : (absorb f k s l).2.length = l.length % k := by
  induction s, l using absorb.induct f k with
  | case1 s l h ih =>
    rw [absorb_of_le h.1 h.2, ih, List.length_drop, Nat.mod_eq_sub_mod h.2]
  | case2 s l h =>
    have hlt : l.length < k := not_le.mp fun hle => h ⟨hk, hle⟩
    rw [absorb_of_lt hlt, Nat.mod_eq_of_lt hlt]

/-- **A message cut in two is absorbed part by part.** -/
theorem absorb_append (hk : 0 < k) (s : σ) (l m : List α) :
    absorb f k s (l ++ m) = absorb f k (absorb f k s l).1 ((absorb f k s l).2 ++ m) := by
  induction s, l using absorb.induct f k with
  | case1 s l h ih =>
    have hle : k ≤ (l ++ m).length := h.2.trans (by rw [List.length_append]; omega)
    rw [absorb_of_le h.1 hle, List.take_append_of_le_length h.2, List.drop_append_of_le_length h.2, ih,
      absorb_of_le h.1 h.2]
  | case2 s l h =>
    have hlt : l.length < k := not_le.mp fun hle => h ⟨hk, hle⟩
    rw [absorb_of_lt hlt]

/-- **A message of whole blocks is folded over them.** -/
theorem absorb_eq_foldl (hk : 0 < k) (s : σ) {l : List α} (h : l.length % k = 0) :
    absorb f k s l = ((chunks k l).foldl f s, []) := by
  induction s, l using absorb.induct f k with
  | case1 s l hl ih =>
    have hne : l ≠ [] := List.ne_nil_of_length_pos (hl.1.trans_le hl.2)
    have hdrop : (l.drop k).length % k = 0 := by rw [List.length_drop, ← Nat.mod_eq_sub_mod hl.2, h]
    rw [absorb_of_le hl.1 hl.2, ih hdrop, chunks_of_ne_nil hk hne, List.foldl_cons]
  | case2 s l hl =>
    have hlt : l.length < k := not_le.mp fun hle => hl ⟨hk, hle⟩
    obtain rfl : l = [] := List.length_eq_zero_iff.mp ((Nat.mod_eq_of_lt hlt).symm.trans h)
    rw [absorb_of_lt hlt, chunks_nil, List.foldl_nil]

end EuhatExpert.Machinery
