import Mathlib.Data.Multiset.AddSub
import Mathlib.Data.Set.Card

/-!
# Machinery/Ownership — memory of which every cell has one owner

A heap maps the addresses in use to what is there.  `Owns heap owned`: the addresses in use are those of
`owned`, each of them once.  Allocating, freeing and writing keep that, and what is done at one address
changes nothing at the others that are owned (`Owns.ne`); nothing is leaked, since as many addresses are in
use as there are owners (`Owns.ncard`).
-/

namespace EuhatExpert.Machinery

open Function

variable {τ α : Type*} {heap heap' : τ → Option α} {owned owned' : Multiset τ} {p q : τ}

/-- The addresses in use are those that are owned, each by one owner. -/
structure Owns (heap : τ → Option α) (owned : Multiset τ) : Prop where
  nodup : owned.Nodup
  live : ∀ p, (heap p).isSome ↔ p ∈ owned

/-- Two heaps agree at the addresses of `owned`. -/
def SameAt (heap heap' : τ → Option α) (owned : Multiset τ) : Prop := ∀ p ∈ owned, heap' p = heap p

/-- A heap agrees with itself. -/
theorem SameAt.refl (heap : τ → Option α) (owned : Multiset τ) : SameAt heap heap owned := fun _ _ => rfl

/-- Who looks at less sees no more. -/
theorem SameAt.mono (h : SameAt heap heap' owned) (hle : owned' ≤ owned) : SameAt heap heap' owned' :=
  fun p hp => h p (Multiset.mem_of_le hle hp)

namespace Owns

/-- Who owns one address owns none of the others. -/
theorem ne (h : Owns heap (p ::ₘ owned)) (hq : q ∈ owned) : q ≠ p := by
  rintro rfl
  exact (Multiset.nodup_cons.mp h.nodup).1 hq

/-- An owned address is in use. -/
theorem isSome (h : Owns heap owned) (hp : p ∈ owned) : (heap p).isSome := (h.live p).mpr hp

/-- As many addresses are in use as there are owners. -/
theorem ncard (h : Owns heap owned) : {p | (heap p).isSome}.ncard = owned.card := by
  classical
  have hset : {p | (heap p).isSome} = (owned.toFinset : Set τ) := by
    ext p
    simp [h.live p]
  rw [hset, Set.ncard_coe_finset, Multiset.toFinset_card_of_nodup h.nodup]

variable [DecidableEq τ]

/-- A free address is nobody's, so nothing is changed where one is taken. -/
theorem sameAt_alloc (h : Owns heap owned) (hp : heap p = none) (a : Option α) :
    SameAt heap (update heap p a) owned := by
  intro q hq
  have hne : q ≠ p := by
    rintro rfl
    simpa [hp] using h.isSome hq
  exact update_of_ne hne a heap

/-- What is done at an address changes nothing at the others. -/
theorem sameAt_update (h : Owns heap (p ::ₘ owned)) (a : Option α) : SameAt heap (update heap p a) owned :=
  fun _ hq => update_of_ne (h.ne hq) a heap

/-- A free address gets an owner, -/
theorem alloc (h : Owns heap owned) (hp : heap p = none) (x : α) : Owns (update heap p (some x)) (p ::ₘ owned) := by
  have hnot : p ∉ owned := fun hmem => by simpa [hp] using h.isSome hmem
  refine ⟨Multiset.nodup_cons.mpr ⟨hnot, h.nodup⟩, fun q => ?_⟩
  rw [Multiset.mem_cons, ← h.live q]
  by_cases hq : q = p
  · simp [hq]
  · simp [hq]

/-- who may write at it -/
theorem write (h : Owns heap (p ::ₘ owned)) (x : α) : Owns (update heap p (some x)) (p ::ₘ owned) := by
  refine ⟨h.nodup, fun q => ?_⟩
  rw [← h.live q]
  by_cases hq : q = p
  · subst hq
    simp [h.isSome (Multiset.mem_cons_self q owned)]
  · simp [hq]

/-- and give it back. -/
theorem free (h : Owns heap (p ::ₘ owned)) : Owns (update heap p none) owned := by
  refine ⟨(Multiset.nodup_cons.mp h.nodup).2, fun q => ?_⟩
  by_cases hq : q = p
  · subst hq
    simpa using (Multiset.nodup_cons.mp h.nodup).1
  · simp [hq, h.live q]

end Owns

end EuhatExpert.Machinery
