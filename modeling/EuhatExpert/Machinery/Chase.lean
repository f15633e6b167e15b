import Mathlib.Data.Finset.Card
import Mathlib.Data.Finset.Range
import Mathlib.Logic.Function.Iterate

/-!
# Machinery/Chase — places visited one after another

From each place a step leads to the next, until a last place is reached.  A chase that comes to its end
never comes back to a place (`Chases.injOn`), so it is no longer than there are places (`Chases.lt_card`).
-/

namespace EuhatExpert.Machinery

variable {α : Type*} {next : α → α} {entry last : α → Prop} {a : α} {n : ℕ}

/-- From `a` there are `n` entries in front of a last place. -/
structure Chases (next : α → α) (entry last : α → Prop) (a : α) (n : ℕ) : Prop where
  entries : ∀ i < n, entry (next^[i] a)
  last : last (next^[n] a)

theorem chases_zero : Chases next entry last a 0 ↔ last a :=
  ⟨fun h => h.last, fun h => ⟨nofun, h⟩⟩

theorem chases_succ : Chases next entry last a (n + 1) ↔ entry a ∧ Chases next entry last (next a) n := by
  constructor
  · intro h
    exact ⟨h.entries 0 (Nat.succ_pos n), fun i hi => h.entries (i + 1) (Nat.succ_lt_succ hi), h.last⟩
  · rintro ⟨ha, h⟩
    refine ⟨fun i hi => ?_, h.last⟩
    cases i with
    | zero => exact ha
    | succ i => exact h.entries i (Nat.lt_of_succ_lt_succ hi)

/-- A chase never gets on from an entry that leads to itself. -/
theorem not_chases_of_loop (hdisj : ∀ a, entry a → ¬ last a) (ha : entry a) (hloop : next a = a) :
    ∀ n, ¬ Chases next entry last a n
  | 0 => fun h => hdisj a ha (chases_zero.mp h)
  | n + 1 => fun h => not_chases_of_loop hdisj ha hloop n (hloop ▸ (chases_succ.mp h).2)

/-- **A chase that ends never comes back.** -/
theorem Chases.injOn (h : Chases next entry last a n) (hdisj : ∀ a, entry a → ¬ last a) :
    Set.InjOn (fun i => next^[i] a) (Finset.range (n + 1)) := by
  -- from a place visited twice, the last place is reached too early
  have key : ∀ i j, i < j → j ≤ n → next^[i] a ≠ next^[j] a := by
    intro i j hij hj heq
    have hshift : next^[n - j + i] a = next^[n] a := by
      rw [Function.iterate_add_apply, heq, ← Function.iterate_add_apply, Nat.sub_add_cancel hj]
    exact hdisj _ (h.entries (n - j + i) (by omega)) (hshift ▸ h.last)
  intro i hi j hj heq
  have hi' := Finset.mem_range.mp (Finset.mem_coe.mp hi)
  have hj' := Finset.mem_range.mp (Finset.mem_coe.mp hj)
  obtain hlt | heq' | hlt := Nat.lt_trichotomy i j
  · exact absurd heq (key i j hlt (by omega))
  · exact heq'
  · exact absurd heq.symm (key j i hlt (by omega))

/-- **It visits no more places than there are.** -/
theorem Chases.lt_card (h : Chases next entry last a n) (hdisj : ∀ a, entry a → ¬ last a) {s : Finset α}
    (hs : ∀ a, entry a ∨ last a → a ∈ s) : n < s.card := by
  have hmaps : Set.MapsTo (fun i => next^[i] a) (Finset.range (n + 1)) s := by
    intro i hi
    have hi' := Finset.mem_range.mp (Finset.mem_coe.mp hi)
    obtain hlt | rfl := Nat.lt_or_eq_of_le (Nat.le_of_lt_succ hi')
    · exact hs _ (.inl (h.entries i hlt))
    · exact hs _ (.inr h.last)
  have hcard := Finset.card_le_card_of_injOn _ hmaps (h.injOn hdisj)
  rwa [Finset.card_range] at hcard

end EuhatExpert.Machinery
