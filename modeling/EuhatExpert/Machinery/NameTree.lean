import Mathlib.Algebra.BigOperators.Group.Finset.Basic
import Mathlib.Data.List.Infix

/-!
# Machinery/NameTree — finite trees of names

A node of a tree is the list of the names that lead to it, the last one first, so that the nodes under a
node are those it is a suffix of.  What is summed over the nodes under a node is summed child by child
(`sum_below`).
-/

namespace EuhatExpert.Machinery

/-- A finite tree of names under a root; only folders have nodes under them. -/
structure NameTree (ν : Type*) [DecidableEq ν] where
  nodes : Finset (List ν)
  isFolder : List ν → Bool
  root_mem : [] ∈ nodes
  root_isFolder : isFolder [] = true
  parent_mem : ∀ {a n}, a :: n ∈ nodes → n ∈ nodes
  parent_isFolder : ∀ {a n}, a :: n ∈ nodes → isFolder n = true

namespace NameTree

variable {ν : Type*} [DecidableEq ν] (T : NameTree ν) {n m c : List ν} {a : ν}

/-- What is in a folder. -/
def children (n : List ν) : Finset (List ν) := T.nodes.filter fun c => c ≠ [] ∧ c.tail = n

/-- What is under a node, however deep. -/
def below (n : List ν) : Finset (List ν) := T.nodes.filter fun m => n <:+ m ∧ m ≠ n

variable {T}

theorem mem_children : c ∈ T.children n ↔ c ∈ T.nodes ∧ ∃ a, c = a :: n := by
  rw [children, Finset.mem_filter]
  refine and_congr_right fun _ => ⟨fun ⟨hne, htail⟩ => ?_, ?_⟩
  · obtain ⟨a, l, rfl⟩ := List.exists_cons_of_ne_nil hne
    exact ⟨a, congrArg (a :: ·) htail⟩
  · rintro ⟨a, rfl⟩
    exact ⟨List.cons_ne_nil _ _, rfl⟩

theorem cons_mem_children : a :: n ∈ T.children n ↔ a :: n ∈ T.nodes :=
  mem_children.trans (and_iff_left ⟨a, rfl⟩)

theorem mem_below : m ∈ T.below n ↔ m ∈ T.nodes ∧ n <:+ m ∧ m ≠ n := Finset.mem_filter

/-- A node under another is behind a child of it. -/
theorem exists_of_mem_below (h : m ∈ T.below n) : ∃ l a, m = l ++ a :: n := by
  obtain ⟨-, ⟨l, rfl⟩, hne⟩ := mem_below.mp h
  rcases List.eq_nil_or_concat l with rfl | ⟨l, a, rfl⟩
  · exact absurd rfl hne
  · exact ⟨l, a, by rw [List.concat_eq_append, List.append_assoc, List.singleton_append]⟩

/-- What a node is under is in the tree, too. -/
theorem mem_of_suffix (h : n <:+ m) (hm : m ∈ T.nodes) : n ∈ T.nodes := by
  obtain ⟨l, rfl⟩ := h
  induction l with
  | nil => exact hm
  | cons a l ih => exact ih (T.parent_mem hm)

theorem isFolder_of_below (h : m ∈ T.below n) : T.isFolder n = true := by
  obtain ⟨l, a, rfl⟩ := exists_of_mem_below h
  exact T.parent_isFolder (mem_of_suffix (List.suffix_append l _) (mem_below.mp h).1)

theorem below_eq_empty (h : T.isFolder n = false) : T.below n = ∅ :=
  Finset.eq_empty_of_forall_notMem fun _ hm => Bool.false_ne_true (h.symm.trans (isFolder_of_below hm))

theorem mem_below_root : m ∈ T.below [] ↔ m ∈ T.nodes ∧ m ≠ [] :=
  mem_below.trans (and_congr_right fun _ => and_iff_right List.nil_suffix)

theorem notMem_below_self (n : List ν) : n ∉ T.below n := fun h => (mem_below.mp h).2.2 rfl

theorem mem_below_of_mem_children (h : c ∈ T.children n) : c ∈ T.below n := by
  obtain ⟨hc, a, rfl⟩ := mem_children.mp h
  exact mem_below.mpr ⟨hc, List.suffix_cons a n, fun h => absurd (congrArg List.length h) (by simp)⟩

/-! ## Child by child -/

/-- Of the nodes right under `n`, the one on the way to `m`. -/
def towards (n m : List ν) : List ν := m.drop (m.length - (n.length + 1))

omit [DecidableEq ν] in
theorem towards_append (l : List ν) (a : ν) (n : List ν) : towards n (l ++ a :: n) = a :: n := by
  rw [towards, List.length_append, List.length_cons, Nat.add_sub_cancel]
  exact List.drop_left

theorem towards_mem (h : m ∈ T.below n) : towards n m ∈ T.children n := by
  obtain ⟨l, a, rfl⟩ := exists_of_mem_below h
  rw [towards_append, cons_mem_children]
  exact mem_of_suffix (List.suffix_append l _) (mem_below.mp h).1

/-- A child, and what is under it. -/
theorem filter_towards (h : c ∈ T.children n) :
    (T.below n).filter (fun m => towards n m = c) = insert c (T.below c) := by
  obtain ⟨hc, a, rfl⟩ := mem_children.mp h
  ext m
  rw [Finset.mem_filter, Finset.mem_insert]
  refine ⟨fun ⟨hm, htowards⟩ => ?_, ?_⟩
  · obtain ⟨l, b, rfl⟩ := exists_of_mem_below hm
    rw [towards_append] at htowards
    rw [htowards] at hm ⊢
    by_cases hl : l ++ a :: n = a :: n
    · exact .inl hl
    · exact .inr (mem_below.mpr ⟨(mem_below.mp hm).1, List.suffix_append l _, hl⟩)
  · have hself : a :: n ∈ T.below n := mem_below_of_mem_children h
    rintro (rfl | hm)
    · exact ⟨hself, towards_append [] a n⟩
    · obtain ⟨l, b, rfl⟩ := exists_of_mem_below hm
      have hlen : (l ++ b :: a :: n).length ≠ n.length := by simp; omega
      refine ⟨mem_below.mpr ⟨(mem_below.mp hm).1, ?_, fun h => hlen (congrArg List.length h)⟩, ?_⟩
      · exact ((List.suffix_cons a n).trans (List.suffix_cons b _)).trans (List.suffix_append l _)
      · have happend : l ++ b :: a :: n = (l ++ [b]) ++ a :: n := by simp
        rw [happend, towards_append]

/-- **What is under a node are its children and what is under them.** -/
theorem sum_below {M : Type*} [AddCommMonoid M] (n : List ν) (f : List ν → M) :
    ∑ m ∈ T.below n, f m = ∑ c ∈ T.children n, (f c + ∑ m ∈ T.below c, f m) := by
  rw [← Finset.sum_fiberwise_of_maps_to (fun _ => towards_mem) f]
  refine Finset.sum_congr rfl fun c hc => ?_
  rw [filter_towards hc, Finset.sum_insert (notMem_below_self c)]

/-! ## Some of what is in the root -/

variable (T)

/-- The root, with some of what is in it. -/
def only (keep : ν → Bool) : NameTree ν where
  nodes := T.nodes.filter fun n => n.getLast?.all keep = true
  isFolder := T.isFolder
  root_mem := Finset.mem_filter.mpr ⟨T.root_mem, rfl⟩
  root_isFolder := T.root_isFolder
  parent_mem h := by
    obtain ⟨hmem, hkeep⟩ := Finset.mem_filter.mp h
    refine Finset.mem_filter.mpr ⟨T.parent_mem hmem, ?_⟩
    rename_i n
    cases n with
    | nil => rfl
    | cons b n => rwa [List.getLast?_cons_cons] at hkeep
  parent_isFolder h := T.parent_isFolder (Finset.mem_filter.mp h).1

variable {T} {keep : ν → Bool}

theorem mem_only : n ∈ (T.only keep).nodes ↔ n ∈ T.nodes ∧ n.getLast?.all keep = true := Finset.mem_filter

/-- But for the root, folders are as they were. -/
theorem children_only (hn : n ∈ (T.only keep).nodes) (hne : n ≠ []) : (T.only keep).children n = T.children n := by
  obtain ⟨b, l, rfl⟩ := List.exists_cons_of_ne_nil hne
  ext c
  rw [mem_children, mem_children]
  refine and_congr_left fun ⟨a, hc⟩ => mem_only.trans (and_iff_left ?_)
  rw [hc, List.getLast?_cons_cons]
  exact (mem_only.mp hn).2

/-- Under the root is what is under what is in it. -/
theorem exists_child_of_mem (hm : m ∈ T.nodes) (hne : m ≠ []) : ∃ c ∈ T.children [], m = c ∨ m ∈ T.below c := by
  have hbelow : m ∈ T.below [] := mem_below_root.mpr ⟨hm, hne⟩
  have hself : m ∈ (T.below []).filter fun n => towards [] n = towards [] m := Finset.mem_filter.mpr ⟨hbelow, rfl⟩
  rw [filter_towards (towards_mem hbelow), Finset.mem_insert] at hself
  exact ⟨_, towards_mem hbelow, hself⟩

end NameTree

end EuhatExpert.Machinery
