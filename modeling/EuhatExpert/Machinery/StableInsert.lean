import Mathlib.Data.List.DropRight
import Mathlib.Data.List.Pairwise
import Mathlib.Order.Lattice

/-!
# Machinery/StableInsert — insertion from the far end

Walking a list from the far end, `insertStable` puts a new entry right behind the first entry whose key
is not larger.  A list that is **ranked**, ascending along its keys and among equal keys along `tie`, stays
ranked when the new entry comes after every other along `tie`.
-/

namespace EuhatExpert.Machinery

variable {α β : Type*} [LinearOrder β] (key : α → β) (tie : α → α → Prop)

/-- Put `a` right behind the last entry with a key not larger than its own, or at the front. -/
def insertStable (a : α) (l : List α) : List α :=
  l.rdropWhile (fun x => key a < key x) ++ a :: l.rtakeWhile (fun x => key a < key x)

/-- `x` has a smaller key than `y`, or the same key and comes before it along `tie`. -/
def Before (x y : α) : Prop := key x < key y ∨ key x = key y ∧ tie x y

/-- Ascending along the keys, and among equal keys along `tie`. -/
def Ranked (l : List α) : Prop := l.Pairwise (Before key tie)

variable {key tie} {a : α} {l l' : List α}

theorem Before.le {x y : α} (h : Before key tie x y) : key x ≤ key y :=
  h.elim le_of_lt fun h => h.1.le

theorem insertStable_perm (a : α) (l : List α) : (insertStable key a l).Perm (a :: l) := by
  refine List.perm_middle.trans (List.Perm.cons a ?_)
  rw [List.rdropWhile_append_rtakeWhile]

@[simp] theorem mem_insertStable {x : α} : x ∈ insertStable key a l ↔ x = a ∨ x ∈ l := by
  rw [(insertStable_perm a l).mem_iff, List.mem_cons]

@[simp] theorem insertStable_nil (a : α) : insertStable key a [] = [a] := rfl

/-- The new entry comes first, or the entry that did so far. -/
theorem insertStable_cases (key : α → β) (a : α) (l : List α) :
    (insertStable key a l = a :: l ∧ ∀ x ∈ l, key a < key x) ∨
      ∃ x xs ys, l = x :: xs ∧ insertStable key a l = x :: ys ∧ ∀ y ∈ ys, y = a ∨ y ∈ xs := by
  have hl := List.rdropWhile_append_rtakeWhile (p := fun x => decide (key a < key x)) (l := l)
  rw [insertStable]
  cases hdrop : l.rdropWhile fun x => decide (key a < key x) with
  | nil =>
    rw [hdrop, List.nil_append] at hl
    refine .inl ⟨by rw [hl, List.nil_append], fun x hx => of_decide_eq_true ?_⟩
    exact List.rdropWhile_eq_nil_iff.mp hdrop x hx
  | cons x xs =>
    rw [hdrop, List.cons_append] at hl
    refine .inr ⟨x, _, _, hl.symm, rfl, fun y hy => ?_⟩
    obtain hy | hy := List.mem_append.mp hy
    · exact .inr (List.mem_append_left _ hy)
    · exact (List.mem_cons.mp hy).imp_right fun hy => List.mem_append_right _ hy

/-- What has the smallest key of all comes first. -/
theorem insertStable_of_lt (h : ∀ x ∈ l, key a < key x) : insertStable key a l = a :: l := by
  have hdrop : l.rdropWhile (fun x => decide (key a < key x)) = [] :=
    List.rdropWhile_eq_nil_iff.mpr fun x hx => decide_eq_true (h x hx)
  have hl := List.rdropWhile_append_rtakeWhile (p := fun x => decide (key a < key x)) (l := l)
  rw [hdrop, List.nil_append] at hl
  rw [insertStable, hdrop, List.nil_append, hl]

theorem ranked_nil : Ranked key tie ([] : List α) := List.Pairwise.nil

theorem ranked_toList : ∀ o : Option α, Ranked key tie o.toList
  | none => ranked_nil
  | some a => List.pairwise_singleton _ a

theorem Ranked.sublist (h : Ranked key tie l') (hs : l.Sublist l') : Ranked key tie l :=
  List.Pairwise.sublist hs h

/-- **The front of a ranked list has a least key.** -/
theorem Ranked.front_le {x : α} (h : Ranked key tie (x :: l)) : ∀ y ∈ x :: l, key x ≤ key y := by
  intro y hy
  rcases List.mem_cons.mp hy with rfl | hy
  · exact le_rfl
  · exact ((List.pairwise_cons.mp h).1 y hy).le

/-- What the walk from the far end stops at has no larger key, and nothing before it has. -/
theorem Ranked.le_of_mem_rdropWhile (h : Ranked key tie l) {x : α}
    (hx : x ∈ l.rdropWhile fun x => key a < key x) : key x ≤ key a := by
  have hne : (l.rdropWhile fun x => decide (key a < key x)) ≠ [] := List.ne_nil_of_mem hx
  have hlast := List.rdropWhile_last_not _ _ hne
  rw [decide_eq_true_eq, not_lt] at hlast
  have hpre := h.sublist (List.rdropWhile_prefix (fun x => decide (key a < key x)) l).sublist
  rw [← List.dropLast_append_getLast hne] at hpre hx
  rcases List.mem_append.mp hx with hx | hx
  · exact (((List.pairwise_append.mp hpre).2.2 x hx _ List.mem_cons_self).le).trans hlast
  · exact List.mem_singleton.mp hx ▸ hlast

/-- **Insertion from the far end keeps a list ranked.** -/
theorem Ranked.insertStable (h : Ranked key tie l) (ha : ∀ x ∈ l, tie x a) :
    Ranked key tie (insertStable key a l) := by
  have hl := h
  rw [Ranked, ← List.rdropWhile_append_rtakeWhile (p := fun x => decide (key a < key x)) (l := l),
    List.pairwise_append] at h
  obtain ⟨hdrop, htake, hacross⟩ := h
  refine List.pairwise_append.mpr ⟨hdrop, List.pairwise_cons.mpr ⟨fun y hy => ?_, htake⟩,
    fun x hx y hy => ?_⟩
  · exact .inl (of_decide_eq_true (List.mem_rtakeWhile_imp (p := fun x => decide (key a < key x)) hy))
  · rcases List.mem_cons.mp hy with rfl | hy
    · rcases (hl.le_of_mem_rdropWhile hx).lt_or_eq with hlt | heq
      · exact .inl hlt
      · exact .inr ⟨heq, ha x ((List.rdropWhile_prefix _ _).subset hx)⟩
    · exact hacross x hx y hy

/-- A map that keeps keys and ties keeps a list ranked. -/
theorem Ranked.map {f : α → α} (h : Ranked key tie l) (hkey : ∀ x ∈ l, key (f x) = key x)
    (htie : ∀ x y, tie x y → tie (f x) (f y)) : Ranked key tie (l.map f) := by
  refine List.pairwise_map.mpr (List.Pairwise.imp_of_mem (fun {x y} hx hy hxy => ?_) h)
  rw [Before, hkey x hx, hkey y hy]
  exact hxy.imp_right fun h => ⟨h.1, htie x y h.2⟩

/-- The search for a first entry of a kind finds one of a least key among its kind. -/
theorem Ranked.find?_le (h : Ranked key tie l) {p : α → Bool} {x : α} (hx : l.find? p = some x) :
    ∀ y ∈ l, p y = true → key x ≤ key y := by
  obtain ⟨-, as, bs, rfl, has⟩ := List.find?_eq_some_iff_append.mp hx
  intro y hy hp
  rcases List.mem_append.mp hy with hy | hy
  · have hnot := has y hy
    rw [hp] at hnot
    cases hnot
  · exact Ranked.front_le (h.sublist (List.sublist_append_right as _)) y hy

/-- The entry it finds comes before every other of its kind. -/
theorem Ranked.find?_before (h : Ranked key tie l) {p : α → Bool} {x : α} (hx : l.find? p = some x) :
    ∀ y ∈ l, p y = true → y = x ∨ Before key tie x y := by
  obtain ⟨-, as, bs, rfl, has⟩ := List.find?_eq_some_iff_append.mp hx
  intro y hy hp
  rcases List.mem_append.mp hy with hy | hy
  · have hnot := has y hy
    rw [hp] at hnot
    cases hnot
  · have hback := List.pairwise_cons.mp (h.sublist (List.sublist_append_right as _))
    exact (List.mem_cons.mp hy).imp_right (hback.1 y)

end EuhatExpert.Machinery
