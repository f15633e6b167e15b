import Mathlib.Data.List.Sort
import Mathlib.Order.Basic

/-!
# Machinery/InsertAfter — insertion behind the first smaller entry

Walking a list from the front, `insertAfter` puts a new entry right behind the first entry that is
smaller, and at the far end if there is none.  On an ascending list the first smaller entry is the
front or nothing, so this is *not* sorted insertion: `ascending_insertAfter_iff` says exactly when
the result ascends again.
-/

namespace EuhatExpert.Machinery

variable {α β : Type*} [LinearOrder β] (key : α → β)

/-- The list ascends along its keys. -/
def Ascending (l : List α) : Prop := l.Pairwise fun a b => key a ≤ key b

/-- Put `a` right behind the first entry with a smaller key, or at the far end. -/
def insertAfter (a : α) : List α → List α
  | [] => [a]
  | x :: xs => if key x < key a then x :: a :: xs else x :: insertAfter a xs

/-- The place `insertAfter` gives `a` is one where the list still ascends: behind the front and
before everything else, or behind a list that is nowhere larger. -/
def Lands (a : α) : List α → Prop
  | [] => True
  | x :: xs => if key x < key a then ∀ y ∈ xs, key a ≤ key y else ∀ y ∈ x :: xs, key y ≤ key a

variable {key}

theorem ascending_nil : Ascending key ([] : List α) := List.Pairwise.nil

theorem ascending_cons {x : α} {xs : List α} :
    Ascending key (x :: xs) ↔ (∀ y ∈ xs, key x ≤ key y) ∧ Ascending key xs :=
  List.pairwise_cons

/-- **The front of an ascending list is a least entry.** -/
theorem Ascending.front_le {x : α} {xs : List α} (h : Ascending key (x :: xs)) :
    ∀ y ∈ x :: xs, key x ≤ key y := by
  intro y hy
  rcases List.mem_cons.mp hy with rfl | hy
  · exact le_rfl
  · exact (ascending_cons.mp h).1 y hy

theorem Ascending.sublist {l l' : List α} (h : Ascending key l') (hs : l.Sublist l') :
    Ascending key l :=
  List.Pairwise.sublist hs h

/-- With no smaller entry, insertion appends. -/
theorem insertAfter_of_forall_le {a : α} :
    ∀ {l : List α}, (∀ y ∈ l, key a ≤ key y) → insertAfter key a l = l ++ [a]
  | [], _ => rfl
  | x :: xs, h => by
    have hx : ¬ key x < key a := not_lt.mpr (h x List.mem_cons_self)
    rw [insertAfter, if_neg hx,
      insertAfter_of_forall_le fun y hy => h y (List.mem_cons_of_mem x hy), List.cons_append]

/-- Insertion looks at the keys only. -/
theorem map_insertAfter {γ : Type*} (f : γ → α) (a : γ) :
    ∀ l : List γ, (insertAfter (key ∘ f) a l).map f = insertAfter key (f a) (l.map f)
  | [] => rfl
  | x :: xs => by
    rw [insertAfter, List.map_cons, insertAfter, apply_ite (List.map f), List.map_cons, List.map_cons,
      List.map_cons, map_insertAfter f a xs]
    rfl

theorem ascending_append_singleton {a : α} {l : List α} (h : Ascending key l) :
    Ascending key (l ++ [a]) ↔ ∀ y ∈ l, key y ≤ key a := by
  unfold Ascending at *
  rw [List.pairwise_append]
  simp [h]

/-- **When insertion behind the first smaller entry keeps a list ascending.** -/
theorem ascending_insertAfter_iff {a : α} {l : List α} (h : Ascending key l) :
    Ascending key (insertAfter key a l) ↔ Lands key a l := by
  cases l with
  | nil => simp [insertAfter, Lands, Ascending]
  | cons x xs =>
    obtain ⟨hx, hxs⟩ := ascending_cons.mp h
    by_cases hlt : key x < key a
    · rw [insertAfter, if_pos hlt, Lands, if_pos hlt, ascending_cons, ascending_cons]
      refine ⟨fun h' => h'.2.1, fun h' => ⟨fun y hy => ?_, h', hxs⟩⟩
      rcases List.mem_cons.mp hy with rfl | hy
      · exact hlt.le
      · exact hx y hy
    · -- the front is a least entry, so nothing behind it is smaller than `a` either
      have hge : ∀ y ∈ x :: xs, key a ≤ key y := fun y hy =>
        (not_lt.mp hlt).trans (h.front_le y hy)
      rw [insertAfter_of_forall_le hge, ascending_append_singleton h, Lands, if_neg hlt]

end EuhatExpert.Machinery
