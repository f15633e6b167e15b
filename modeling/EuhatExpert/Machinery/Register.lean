import Mathlib.Data.List.Basic
import Mathlib.Data.List.Induction
import Mathlib.Data.List.Pairwise

/-!
# Machinery/Register — lists with one entry for each key

An entry that is registered takes the place of the entry with its key: the old one goes, and the new one
goes to the end.  What a list registered one after another holds is what came last under each key
(`mem_foldl_register`), and no key twice (`pairwise_foldl_register`).
-/

namespace EuhatExpert.Machinery

variable {α κ : Type*} {key : α → κ} {l xs : List α} {x y : α}

/-- The first entry with the key goes, and the new one goes to the end. -/
def register [DecidableEq κ] (key : α → κ) (l : List α) (x : α) : List α := l.eraseP (fun y => key y = key x) ++ [x]

/-- No two entries have one key. -/
def OneEach (key : α → κ) (l : List α) : Prop := l.Pairwise fun x y => key x ≠ key y

/-- `x` is in the list, and nothing behind it has its key. -/
def Latest (key : α → κ) (xs : List α) (x : α) : Prop :=
  ∃ before after, xs = before ++ x :: after ∧ ∀ y ∈ after, key y ≠ key x

theorem latest_concat : Latest key (xs ++ [x]) y ↔ y = x ∨ (Latest key xs y ∧ key y ≠ key x) := by
  constructor
  · rintro ⟨before, after, heq, hafter⟩
    rcases List.eq_nil_or_concat after with rfl | ⟨after, last, rfl⟩
    · exact .inl (List.singleton_inj.mp (List.append_inj' heq rfl).2).symm
    · rw [List.concat_eq_append, ← List.cons_append, ← List.append_assoc] at heq
      obtain ⟨hxs, hx⟩ := List.append_inj' heq rfl
      obtain rfl := List.singleton_inj.mp hx
      rw [List.concat_eq_append] at hafter
      exact .inr ⟨⟨before, after, hxs, fun z hz => hafter z (List.mem_append_left _ hz)⟩,
        (hafter x (List.mem_append_right _ List.mem_cons_self)).symm⟩
  · rintro (rfl | ⟨⟨before, after, rfl, hafter⟩, hne⟩)
    · exact ⟨xs, [], rfl, fun _ hz => absurd hz List.not_mem_nil⟩
    · refine ⟨before, after ++ [x], by simp, fun z hz => ?_⟩
      rcases List.mem_append.mp hz with hz | hz
      · exact hafter z hz
      · rw [List.mem_singleton.mp hz]
        exact hne.symm

variable [DecidableEq κ]

/-- With one entry for each key, erasing one erases them all. -/
theorem OneEach.eraseP_eq (h : OneEach key l) (k : κ) :
    l.eraseP (fun y => key y = k) = l.filter fun y => key y ≠ k := by
  induction l with
  | nil => rfl
  | cons y l ih =>
    obtain ⟨hy, hl⟩ := List.pairwise_cons.mp h
    by_cases hk : key y = k
    · have hall : ∀ z ∈ l, key z ≠ k := fun z hz hzk => hy z hz (hk.trans hzk.symm)
      rw [List.eraseP_cons_of_pos (by simpa using hk), List.filter_cons_of_neg (by simpa using hk),
        List.filter_eq_self.mpr fun z hz => by simpa using hall z hz]
    · rw [List.eraseP_cons_of_neg (by simpa using hk), List.filter_cons_of_pos (by simpa using hk), ih hl]

theorem OneEach.mem_register (h : OneEach key l) :
    y ∈ register key l x ↔ y = x ∨ (y ∈ l ∧ key y ≠ key x) := by
  rw [register, h.eraseP_eq, List.mem_append, List.mem_filter, List.mem_singleton, decide_eq_true_eq, or_comm]

/-- The entry found under a key is the one that has it. -/
theorem OneEach.find?_eq_some (h : OneEach key l) {k : κ} :
    (l.find? fun y => key y = k) = some x ↔ x ∈ l ∧ key x = k := by
  refine ⟨fun hfind => ⟨List.mem_of_find?_eq_some hfind, of_decide_eq_true (List.find?_some hfind :)⟩, ?_⟩
  rintro ⟨hx, rfl⟩
  induction l with
  | nil => cases hx
  | cons y l ih =>
    obtain ⟨hy, hl⟩ := List.pairwise_cons.mp h
    rcases List.mem_cons.mp hx with rfl | hx
    · rw [List.find?_cons_of_pos (by simp)]
    · rw [List.find?_cons_of_neg (by simpa using hy x hx), ih hl hx]

/-- **Registering keeps one entry for each key.** -/
theorem OneEach.register (h : OneEach key l) : OneEach key (register key l x) := by
  rw [Machinery.register, h.eraseP_eq]
  refine List.pairwise_append.mpr ⟨List.Pairwise.filter _ h, List.pairwise_singleton _ _, fun y hy z hz => ?_⟩
  rw [List.mem_singleton.mp hz]
  exact of_decide_eq_true (List.mem_filter.mp hy).2

theorem pairwise_foldl_register (key : α → κ) (xs : List α) : OneEach key (xs.foldl (register key) []) := by
  induction xs using List.reverseRecOn with
  | nil => exact List.Pairwise.nil
  | append_singleton xs x ih =>
    rw [List.foldl_append]
    exact ih.register

/-- **What has been registered is what came last under its key.** -/
theorem mem_foldl_register : y ∈ xs.foldl (register key) [] ↔ Latest key xs y := by
  induction xs using List.reverseRecOn with
  | nil =>
    refine iff_of_false List.not_mem_nil ?_
    rintro ⟨before, after, heq, -⟩
    simp at heq
  | append_singleton xs x ih =>
    rw [List.foldl_append, List.foldl_cons, List.foldl_nil, (pairwise_foldl_register key xs).mem_register, ih,
      latest_concat]

end EuhatExpert.Machinery
