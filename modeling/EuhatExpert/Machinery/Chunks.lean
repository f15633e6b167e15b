import Mathlib.Data.List.Basic
import Mathlib.Order.Lattice

/-!
# Machinery/Chunks — a list cut into pieces of one length

`chunks k l` cuts `l` every `k` entries, the last piece being what is left.
-/

namespace EuhatExpert.Machinery

variable {α : Type*}

/-- The pieces of `l`, `k` entries each, the last one shorter if need be. -/
def chunks (k : ℕ) (l : List α) : List (List α) :=
  if _h : 0 < k ∧ l ≠ [] then l.take k :: chunks k (l.drop k) else []
termination_by l.length
decreasing_by
  have := List.length_pos_of_ne_nil _h.2
  rw [List.length_drop]
  omega

@[simp] theorem chunks_nil (k : ℕ) : chunks k ([] : List α) = [] := by
  rw [chunks, dif_neg (by simp)]

theorem chunks_of_ne_nil {k : ℕ} {l : List α} (hk : 0 < k) (hl : l ≠ []) :
    chunks k l = l.take k :: chunks k (l.drop k) := by
  rw [chunks, dif_pos ⟨hk, hl⟩]

/-- **The pieces make up the list.** -/
theorem flatten_chunks {k : ℕ} (hk : 0 < k) (l : List α) : (chunks k l).flatten = l := by
  induction l using chunks.induct k with
  | case1 l h ih => rw [chunks_of_ne_nil hk h.2, List.flatten_cons, ih, List.take_append_drop]
  | case2 l h =>
    obtain rfl : l = [] := by_contra fun hl => h ⟨hk, hl⟩
    simp

theorem length_le_of_mem_chunks {k : ℕ} {l piece : List α} (h : piece ∈ chunks k l) :
    piece.length ≤ k := by
  induction l using chunks.induct k with
  | case1 l hl ih =>
    rw [chunks_of_ne_nil hl.1 hl.2] at h
    rcases List.mem_cons.mp h with rfl | h
    · exact List.length_take_le _ _
    · exact ih h
  | case2 l hl =>
    rw [chunks, dif_neg hl] at h
    cases h

/-- A change that keeps the length of every piece keeps the cuts. -/
theorem chunks_flatMap {k : ℕ} {f : List α → List α} (hf : ∀ piece, piece.length ≤ k →
    (f piece).length = piece.length) (l : List α) :
    chunks k ((chunks k l).flatMap f) = (chunks k l).map f := by
  induction l using chunks.induct k with
  | case1 l hl ih =>
    have hpos := List.length_pos_of_ne_nil hl.2
    have hlen : (f (l.take k)).length = (l.take k).length := hf _ (List.length_take_le _ _)
    rw [chunks_of_ne_nil hl.1 hl.2, List.flatMap_cons, List.map_cons, ← ih]
    have hne : f (l.take k) ++ (chunks k (l.drop k)).flatMap f ≠ [] := by
      rw [← List.length_pos_iff, List.length_append, hlen, List.length_take]
      omega
    rw [chunks_of_ne_nil hl.1 hne]
    by_cases hfull : k ≤ l.length
    · have hk : (f (l.take k)).length = k := by rw [hlen, List.length_take, min_eq_left hfull]
      rw [List.take_left' hk, List.drop_left' hk]
    · -- the piece is the last one
      have hdrop : l.drop k = [] := List.drop_of_length_le (by omega)
      have hk : (f (l.take k)).length ≤ k := hlen.trans_le (List.length_take_le _ _)
      rw [hdrop, chunks_nil, List.flatMap_nil, List.append_nil, List.take_of_length_le hk,
        List.drop_of_length_le hk, chunks_nil]
  | case2 l hl =>
    have hnil : chunks k l = [] := by rw [chunks, dif_neg hl]
    rw [hnil, List.flatMap_nil, List.map_nil, chunks_nil]

end EuhatExpert.Machinery
