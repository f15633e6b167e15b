import Mathlib.Algebra.Order.BigOperators.Group.List
import Mathlib.Algebra.GroupWithZero.Nat
import Mathlib.Algebra.Order.Group.Nat

/-!
# Machinery/Intercalate — parts, and a separator between them

What is put together with a separator is as long as its parts and the separators, and has no entries but
theirs.
-/

namespace EuhatExpert.Machinery

variable {α : Type*} {x y : α} {l : List α} {L L' : List (List α)}

theorem length_intercalate (x : α) (L : List (List α)) :
    ([x].intercalate L).length = (L.map List.length).sum + (L.length - 1) := by
  induction L with
  | nil => rfl
  | cons l L ih =>
    cases L with
    | nil => simp
    | cons l' L =>
      rw [List.intercalate_cons_cons, List.length_append, List.length_append, ih]
      simp only [List.map_cons, List.sum_cons, List.length_cons, List.length_nil]
      omega

/-- **Fewer parts are not longer**, whatever stands between them. -/
theorem length_intercalate_le (h : L.Sublist L') (x y : α) :
    ([x].intercalate L).length ≤ ([y].intercalate L').length := by
  rw [length_intercalate, length_intercalate]
  have hsum := (h.map List.length).sum_le_sum fun n _ => Nat.zero_le n
  have hlen := h.length_le
  omega

/-- What is put together begins with its first parts, put together. -/
theorem isPrefix_intercalate (x : α) (h : L ≠ []) (L' : List (List α)) :
    [x].intercalate L <+: [x].intercalate (L ++ L') := by
  induction L with
  | nil => exact absurd rfl h
  | cons l L ih =>
    cases L with
    | nil =>
      cases L' with
      | nil => exact List.prefix_refl _
      | cons l' L' =>
        rw [List.intercalate_singleton, List.singleton_append, List.intercalate_cons_cons, List.append_assoc]
        exact List.prefix_append _ _
    | cons l' L =>
      rw [List.cons_append, List.cons_append, List.intercalate_cons_cons, List.intercalate_cons_cons]
      exact (List.prefix_append_right_inj _).mpr (ih (List.cons_ne_nil _ _))

/-- Two lists up to their first separators, and what is behind these. -/
theorem append_cons_prefix_iff {a b : List α} (ha : x ∉ a) (hb : x ∉ b) {as bs : List α} :
    a ++ x :: as <+: b ++ x :: bs ↔ a = b ∧ as <+: bs := by
  induction a generalizing b with
  | nil =>
    cases b with
    | nil => simp [List.cons_prefix_cons]
    | cons c b =>
      have hc : x ≠ c := fun h => hb (h ▸ List.mem_cons_self)
      simp [List.cons_prefix_cons, hc]
  | cons c a ih =>
    have hc : c ≠ x := fun h => ha (h ▸ List.mem_cons_self)
    cases b with
    | nil => simp [List.cons_prefix_cons, hc]
    | cons d b =>
      have ih := ih (fun h => ha (List.mem_cons_of_mem c h)) fun h => hb (List.mem_cons_of_mem d h)
      rw [List.cons_append, List.cons_append, List.cons_prefix_cons, ih, List.cons.injEq, and_assoc]

/-- What has no separator begins the parts only by beginning the first. -/
theorem prefix_append_cons_iff {a b : List α} (ha : x ∉ a) {bs : List α} : a <+: b ++ x :: bs ↔ a <+: b := by
  refine ⟨fun h => ?_, fun h => h.trans (List.prefix_append _ _)⟩
  rcases List.prefix_or_prefix_of_prefix h (List.prefix_append b (x :: bs)) with hab | ⟨t, rfl⟩
  · exact hab
  · rw [List.prefix_append_right_inj] at h
    cases t with
    | nil => simp
    | cons c t =>
      obtain ⟨rfl, -⟩ := List.cons_prefix_cons.mp h
      exact absurd (List.mem_append_right _ List.mem_cons_self) ha

/-- **A prefix by letters**: all parts but the last are there, and the last is how the next one begins. -/
theorem intercalate_concat_prefix_iff {last : List α} (hL : ∀ l ∈ L, x ∉ l) (hlast : x ∉ last) (hne : last ≠ [])
    (hL' : ∀ l ∈ L', x ∉ l) : [x].intercalate (L ++ [last]) <+: [x].intercalate L' ↔
      ∃ name rest, L' = L ++ name :: rest ∧ last <+: name := by
  induction L generalizing L' with
  | nil =>
    rw [List.nil_append, List.intercalate_singleton]
    cases L' with
    | nil => simpa using hne
    | cons name rest =>
      have hname : ([] ++ name :: rest : List (List α)) = name :: rest := rfl
      refine (?_ : _ ↔ last <+: name).trans ⟨fun h => ⟨name, rest, rfl, h⟩, ?_⟩
      · cases rest with
        | nil => rw [List.intercalate_singleton]
        | cons next rest =>
          rw [List.intercalate_cons_cons, List.append_assoc, List.singleton_append, prefix_append_cons_iff hlast]
      · rintro ⟨name', rest', heq, h⟩
        rw [(List.cons.inj heq).1]
        exact h
  | cons l L ih =>
    obtain ⟨m, M, hM⟩ := List.exists_cons_of_ne_nil (List.append_ne_nil_of_right_ne_nil L (List.cons_ne_nil last []))
    have hl := hL l List.mem_cons_self
    rw [List.cons_append, hM, List.intercalate_cons_cons, ← hM]
    cases L' with
    | nil => simp
    | cons name rest =>
      have hname := hL' name List.mem_cons_self
      have ih := @ih rest (fun k hk => hL k (List.mem_cons_of_mem l hk)) fun k hk => hL' k (List.mem_cons_of_mem _ hk)
      cases rest with
      | nil =>
        rw [List.intercalate_singleton]
        refine iff_of_false (fun h => hname (h.subset ?_)) (by simp)
        simp
      | cons next rest =>
        rw [List.intercalate_cons_cons, List.append_assoc, List.append_assoc, List.singleton_append,
          List.singleton_append, append_cons_prefix_iff hl hname, ih]
        constructor
        · rintro ⟨rfl, name', rest', hrest, hprefix⟩
          exact ⟨name', rest', by rw [hrest, List.cons_append], hprefix⟩
        · rintro ⟨name', rest', hrest, hprefix⟩
          rw [List.cons_append] at hrest
          obtain ⟨hname, hnext⟩ := List.cons.inj hrest
          exact ⟨hname.symm, name', rest', hnext, hprefix⟩

theorem mem_intercalate (h : y ∈ [x].intercalate L) : y = x ∨ ∃ l ∈ L, y ∈ l := by
  induction L with
  | nil => cases h
  | cons l L ih =>
    cases L with
    | nil =>
      rw [List.intercalate_singleton] at h
      exact .inr ⟨l, List.mem_cons_self, h⟩
    | cons l' L =>
      rw [List.intercalate_cons_cons, List.mem_append, List.mem_append, List.mem_singleton] at h
      rcases h with (h | h) | h
      · exact .inr ⟨l, List.mem_cons_self, h⟩
      · exact .inl h
      · exact (ih h).imp id fun ⟨m, hm, hy⟩ => ⟨m, List.mem_cons_of_mem _ hm, hy⟩

theorem subset_intercalate (x : α) (h : l ∈ L) : l ⊆ [x].intercalate L := by
  induction L with
  | nil => cases h
  | cons m L ih =>
    cases L with
    | nil =>
      rw [List.mem_singleton.mp h, List.intercalate_singleton]
      exact List.Subset.refl _
    | cons m' L =>
      rw [List.intercalate_cons_cons]
      rcases List.mem_cons.mp h with rfl | h
      · exact fun y hy => List.mem_append_left _ (List.mem_append_left _ hy)
      · exact fun y hy => List.mem_append_right _ (ih h hy)

/-- The parts of a list have no entries but its own. -/
theorem subset_of_mem_splitOn [BEq α] [LawfulBEq α] {xs : List α} (h : l ∈ xs.splitOn x) : l ⊆ xs := by
  have hsub := subset_intercalate x h
  rwa [List.intercalate_splitOn] at hsub

/-- No part has the separator. -/
theorem not_mem_of_mem_splitOn [BEq α] [LawfulBEq α] {xs : List α} (h : l ∈ xs.splitOn x) : x ∉ l := by
  induction xs generalizing l with
  | nil =>
    rw [List.splitOn_nil, List.mem_singleton] at h
    rw [h]
    exact List.not_mem_nil
  | cons y xs ih =>
    rw [List.splitOn_cons_eq_if_modifyHead] at h
    split_ifs at h with hy
    · rcases List.mem_cons.mp h with rfl | h
      · exact List.not_mem_nil
      · exact ih h
    · obtain ⟨part, parts, hparts⟩ := List.exists_cons_of_ne_nil (List.splitOn_ne_nil x xs)
      rw [hparts, List.modifyHead_cons] at h
      rcases List.mem_cons.mp h with rfl | h
      · have hpart := ih (hparts ▸ List.mem_cons_self)
        rw [List.mem_cons]
        rintro (rfl | hmem)
        · exact hy BEq.rfl
        · exact hpart hmem
      · exact ih (hparts ▸ List.mem_cons_of_mem _ h)

end EuhatExpert.Machinery
