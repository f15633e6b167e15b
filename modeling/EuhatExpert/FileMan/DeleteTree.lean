import EuhatExpert.FileMan.BottomUp
import EuhatExpert.FileMan.TreeDisk
import EuhatExpert.FileMan.UserLoops

/-!
# FileMan/DeleteTree — deleting a folder with all that is in it

Two engines at one queue list the folders of a tree and delete its files and folders.  Every run ends with
all of them gone, each by one task and folders behind what is in them, exactly if the tree is so shallow
that the numbers say so (`deletes_iff`).
-/

namespace EuhatExpert

open Machinery Sides

variable {X : Type}

namespace Errand

/-- In every run, no task fails and the queue ends empty, with the nodes of the tree deleted by one task each,
folders behind what is in them. -/
structure Deletes (E : Errand) (S : Sides.Setup X) (has : X → Node → Prop) (q : FmScheduler) (disks : Bool → X) :
    Prop where
  noFail : ∀ es s, Run (Sides.Step S) (ready q disks) es s → ∀ t ∈ s.tasks_, t.result_ = FmResultOk
  ends : ∃ N, ∀ es s, Run (Sides.Step S) (ready q disks) es s → es.length ≤ N
  drains : ∀ es s, Run (Sides.Step S) (ready q disks) es s → (∀ s', ¬ Acts S s s') → s.tasks_ = []
  gone : ∀ es s, Run (Sides.Step S) (ready q disks) es s → s.tasks_ = [] →
    ∀ n ∈ E.tree.nodes, ¬ has (s.disks E.src.remote) n
  bottomUp : ∀ es s, Run (Sides.Step S) (ready q disks) es s → s.tasks_ = [] → ∃ order : List Node,
    order.Nodup ∧ (∀ n, n ∈ order ↔ n ∈ E.tree.nodes) ∧ order.Pairwise (fun n c => c ∉ E.tree.children n) ∧
      (es.flatten.filter fun t => t.asDel.isSome).map FmTask.body = order.map fun n => E.body (E.fell n)

variable {E : Errand} {S : Sides.Setup X} {has : X → Node → Prop} {n : Node} {i : Item}

/-! ## The tasks that take nodes away -/

/-- The node a task takes away. -/
def felled : Item → Option Node
  | .file n | .del n => some n
  | .list _ | .new _ => none

theorem felled_fell : felled (E.fell n) = some n := by
  rw [fell]
  split_ifs
  · rfl
  · rfl

theorem eq_fell (h : E.Belongs i) (hi : felled i = some n) : i = E.fell n := by
  cases i with
  | list m => cases hi
  | new m => cases hi
  | file m =>
    obtain rfl := Option.some.inj hi
    exact (fell_of_file h.2).symm
  | del m =>
    obtain rfl := Option.some.inj hi
    exact (fell_of_folder h.2.1).symm

/-- In an errand that deletes, these are the deletions. -/
theorem isSome_asDel (hpurpose : E.purpose = .del) {t : FmTask} (ht : t.body = E.body i) :
    t.asDel.isSome = (felled i).isSome := by
  rw [FmTask.asDel, ht]
  cases i with
  | file n => rw [body, fileBody, hpurpose]; rfl
  | _ => rfl

/-- The bodies of deletions, node by node. -/
theorem map_filter_asDel (hpurpose : E.purpose = .del) : ∀ {ts : List FmTask},
    (∀ t ∈ ts, E.Belongs (E.item t.body) ∧ t.body = E.body (E.item t.body)) →
      (ts.filter fun t => t.asDel.isSome).map FmTask.body
        = (ts.filterMap fun t => felled (E.item t.body)).map fun n => E.body (E.fell n)
  | [], _ => rfl
  | t :: ts, h => by
    obtain ⟨hi, hbody⟩ := h t List.mem_cons_self
    have ih := map_filter_asDel hpurpose fun u hu => h u (List.mem_cons_of_mem t hu)
    rw [List.filter_cons, isSome_asDel hpurpose hbody, List.filterMap_cons]
    cases hfelled : felled (E.item t.body) with
    | none => exact ih
    | some n =>
      have hitem := eq_fell hi hfelled
      rw [Option.isSome_some, if_pos rfl, List.map_cons, List.map_cons, ih, ← hitem, ← hbody]

end Errand

theorem Hand.phase_le (h : Hand) : h.phase ≤ 2 := by
  cases h with
  | idle => exact Nat.zero_le 2
  | taken t => exact Nat.le_succ 1
  | done t out => exact le_rfl

namespace Workers

variable {E : Errand} {has : X → Node → Prop} {w : Workers X} {n : Node}

/-- The nodes that were taken away, in order. -/
def away (E : Errand) (w : Workers X) : List Node := w.ended.filterMap fun t => Errand.felled (E.item t.body)

theorem Upward.mem_away (h : Upward E w) : n ∈ away E w ↔ E.fell n ∈ items E w.ended := by
  rw [away, List.mem_filterMap, items, Multiset.mem_map]
  constructor
  · rintro ⟨t, ht, hfelled⟩
    exact ⟨t, ht, Errand.eq_fell (h.tasks t ht).1 hfelled⟩
  · rintro ⟨t, ht, hitem⟩
    exact ⟨t, ht, hitem ▸ Errand.felled_fell⟩

theorem Upward.pairwise_away (h : Upward E w) :
    (away E w).Pairwise fun n c => n ≠ c ∧ c ∉ E.tree.children n := by
  refine List.pairwise_filterMap.mpr (List.Pairwise.imp_of_mem (fun {t u} ht hu hord n hn c hc => ?_) h.order)
  exact hord n c (Errand.eq_fell (h.tasks t ht).1 hn) (Errand.eq_fell (h.tasks u hu).1 hc)

/-- **With the queue empty, all is over.** -/
theorem Tracks.fell_mem_over (h : Tracks E has w) (hfells : E.fells = true) (hnil : w.scheduler_.tasks_ = []) :
    E.fell n ∈ items E w.ended ↔ n ∈ E.tree.nodes := by
  have haccount := h.account
  rw [coming, hnil, Multiset.coe_nil, Multiset.zero_bind, add_zero] at haccount
  rw [haccount, Errand.fell_mem_list hfells E.tree.root_isFolder, NameTree.mem_below_root]
  by_cases hn : n = []
  · rw [hn]
    exact ⟨fun _ => E.tree.root_mem, fun _ => .inl rfl⟩
  · rw [or_iff_right hn, and_iff_left hn]

/-- An errand has so many tasks only. -/
theorem Tracks.progress_le (h : Tracks E has w) : w.progress ≤ 3 * Multiset.card (E.whole (.list [])) + 4 := by
  have hcard := congrArg Multiset.card h.account
  rw [Multiset.card_add, items, Multiset.card_map, Multiset.coe_card] at hcard
  have h₁ := (w.hand false).phase_le
  have h₂ := (w.hand true).phase_le
  rw [progress]
  omega

/-- **What was taken away once all is over.** -/
theorem Tracks.not_has (h : Tracks E has w) (hfells : E.fells = true) (hnil : w.scheduler_.tasks_ = []) :
    ¬ has (w.disks E.src.remote) n := by
  rw [h.has_iff]
  exact fun ⟨hn, hover, _⟩ => hover ((h.fell_mem_over hfells hnil).mpr hn)

/-- The tasks are listings, deletions and creations, and none failed. -/
theorem Smooth.plain_ok {S : Sides.Setup X} (h : Smooth E w) (htracks : Tracks E has w) (hfits : E.Fits S)
    (huntransferred : E.Untransferred) {t : FmTask} (ht : t ∈ w.scheduler_.tasks_) :
    Plain S t.body ∧ t.result_ = FmResultOk := by
  obtain ⟨hi, hbody⟩ := htracks.item_body ht
  exact ⟨hbody ▸ Errand.plain_body hfits huntransferred hi, h.ok t ht⟩

/-- The queue ends empty in shallow trees only. -/
theorem shallow_of_drained {S : Sides.Setup X} {q : FmScheduler} {id : ℤ} {disks : Bool → X} {es : List (List FmTask)}
    {s : Sides X} (hfells : E.fells = true) (huntransferred : E.Untransferred) (hfits : E.Fits S)
    (hos : HoldsTree (S.os E.src.remote) E.tree E.src has) (hq : q.tasks_ = [⟨id, FmResultOk, E.body (.list [])⟩])
    (hhas : ∀ n, has (disks E.src.remote) n ↔ n ∈ E.tree.nodes) (hrun : Run (Sides.Step S) (ready q disks) es s)
    (hnil : s.tasks_ = []) : E.Shallow := by
  intro n c hc
  by_contra hdeep
  exact stuck_of_run hfells huntransferred hfits hos hq hhas hc hdeep hrun hnil

end Workers

/-- **A queue that drains ends empty.** -/
theorem Sides.exists_drained {S : Sides.Setup X} {s₀ : Sides X}
    (hends : ∃ N, ∀ es s, Run (Sides.Step S) s₀ es s → es.length ≤ N)
    (hdrains : ∀ es s, Run (Sides.Step S) s₀ es s → (∀ s', ¬ Acts S s s') → s.tasks_ = []) :
    ∃ es s, Run (Sides.Step S) s₀ es s ∧ s.tasks_ = [] := by
  obtain ⟨N, hN⟩ := hends
  obtain ⟨es, s, hrun, hstop⟩ := Run.exists_maximal hN
  exact ⟨es, s, hrun, hdrains es s hrun fun s' hacts => hstop _ s' ⟨hacts, rfl⟩⟩

namespace Errand

variable {E : Errand} {S : Sides.Setup X} {has : X → Node → Prop} {q : FmScheduler} {id : ℤ} {disks : Bool → X}

section Deletes

variable (hpurpose : E.purpose = .del) (hfits : E.Fits S)
  (hos : HoldsTree (S.os E.src.remote) E.tree E.src has)
  (hq : q.tasks_ = [⟨id, FmResultOk, E.body (.list [])⟩]) (hhas : ∀ n, has (disks E.src.remote) n ↔ n ∈ E.tree.nodes)

include hpurpose hfits hos hq hhas

/-- A shallow tree is deleted. -/
theorem deletes_of_shallow (hshallow : E.Shallow) : E.Deletes S has q disks := by
  have hfells : E.fells = true := by rw [fells, hpurpose]
  have hcreates : ∀ x, E.Creates S x := by
    rintro x n ⟨-, -, hcopies⟩
    rw [copies, hpurpose] at hcopies
    cases hcopies
  have hsmooth := fun {es s} (hrun : Run (Sides.Step S) (ready q disks) es s) =>
    Workers.smooth_of_run (J := fun _ => True) hfells (.inl hpurpose) hfits hos hq hhas trivial
      (fun _ _ _ _ _ _ => trivial) (fun w _ => hcreates _) hshallow hrun
  refine ⟨fun es s hrun => ?_, ⟨4 * (3 * Multiset.card (E.whole (.list [])) + 4) + 3, fun es s hrun => ?_⟩,
    fun es s hrun hstop => nil_of_run (fun es s hrun => ?_) hrun hstop, fun es s hrun hnil n _ => ?_,
    fun es s hrun hnil => ?_⟩
  · obtain ⟨w, hshows, ⟨-, h, -⟩, -⟩ := hsmooth hrun
    rw [tasks_, hshows.scheduler]
    exact h.ok
  · obtain ⟨w, -, ⟨htracks, -⟩, -, hlen⟩ := hsmooth hrun
    have hprogress := htracks.progress_le
    omega
  · obtain ⟨w, hshows, ⟨htracks, h, -⟩, -⟩ := hsmooth hrun
    exact ⟨w, hshows, fun t => h.plain_ok htracks hfits (.inl hpurpose)⟩
  · obtain ⟨w, hshows, ⟨htracks, -⟩, -⟩ := hsmooth hrun
    rw [tasks_, hshows.scheduler] at hnil
    rw [hshows.disks]
    exact htracks.not_has hfells hnil
  · obtain ⟨w, hshows, ⟨htracks, -, hupward, -⟩, hover, -⟩ := hsmooth hrun
    rw [tasks_, hshows.scheduler] at hnil
    refine ⟨Workers.away E w, hupward.pairwise_away.imp And.left, fun n => ?_, hupward.pairwise_away.imp And.right, ?_⟩
    · exact hupward.mem_away.trans (htracks.fell_mem_over hfells hnil)
    · rw [← hover]
      exact map_filter_asDel hpurpose hupward.tasks

/-- A tree that is deleted is shallow. -/
theorem shallow_of_deletes (h : E.Deletes S has q disks) : E.Shallow := by
  have hfells : E.fells = true := by rw [fells, hpurpose]
  obtain ⟨es, s, hrun, hnil⟩ := exists_drained h.ends h.drains
  exact Workers.shallow_of_drained hfells (.inl hpurpose) hfits hos hq hhas hrun hnil

end Deletes

/-- **A folder is deleted with all that is in it exactly if its folders of files are at most 900 names deep, and
its folders of folders at most 930.** -/
theorem deletes_iff (hpurpose : E.purpose = .del) (hfits : E.Fits S)
    (hos : HoldsTree (S.os E.src.remote) E.tree E.src has)
    (hq : q.tasks_ = [⟨id, FmResultOk, E.body (.list [])⟩])
    (hhas : ∀ n, has (disks E.src.remote) n ↔ n ∈ E.tree.nodes) :
    E.Deletes S has q disks ↔ E.Shallow :=
  ⟨shallow_of_deletes hpurpose hfits hos hq hhas, deletes_of_shallow hpurpose hfits hos hq hhas⟩

/-! ## A file in a folder far down -/

/-- A folder with one file in it. -/
def oneFile : FolderTree where
  nodes := {[], [[102]]}
  isFolder n := n.isEmpty
  root_mem := by simp
  root_isFolder := rfl
  parent_mem := by
    intro a n h
    rw [Finset.mem_insert, Finset.mem_singleton] at h
    obtain h | h := h
    · cases h
    · obtain ⟨-, rfl⟩ := List.cons.inj h
      exact Finset.mem_insert_self _ _
  parent_isFolder := by
    intro a n h
    rw [Finset.mem_insert, Finset.mem_singleton] at h
    obtain h | h := h
    · cases h
    · obtain ⟨-, rfl⟩ := List.cons.inj h
      rfl
  isPart n hn name hname := by
    rw [Finset.mem_insert, Finset.mem_singleton] at hn
    obtain rfl | rfl := hn
    · cases hname
    · rw [List.mem_singleton.mp hname]
      exact ⟨by decide, by decide, by decide⟩
  size _ := 1
  lastWriteTime _ := 0

/-- A folder on the server, `k` folders down. -/
def folderDown (k : ℕ) : Place where
  remote := true
  isUnix_ := true
  root := ⟨List.replicate (k + 1) [97], true, true⟩
  isPart part h := by
    rw [List.eq_of_mem_replicate h]
    exact ⟨by decide, by decide, by decide⟩
  ne_nil := List.cons_ne_nil _ _
  isUnix_root := rfl

/-- Its deletion, with the file in it. -/
def deletion (k : ℕ) : Errand := ⟨oneFile, folderDown k, .del, nofun⟩

def deletionSetup (k : ℕ) : Sides.Setup TreeDisk := ⟨fun _ => TreeDisk.os oneFile (folderDown k) [[], [[102]]], []⟩

/-- A disk with the folder and the file. -/
def oneFileDisk : TreeDisk := fun n => if n = [] then some .folder else if n = [[102]] then some (.file [1]) else none

/-- The task of the user. -/
def deletionQueue (k : ℕ) : FmScheduler := FmScheduler.new.add ((deletion k).body (.list []))

theorem mem_oneFile {n : Node} : n ∈ oneFile.nodes ↔ n = [] ∨ n = [[102]] := by
  rw [oneFile, Finset.mem_insert, Finset.mem_singleton]

theorem isCStr_path_oneFile {k : ℕ} (hk : k ≤ 1000) {n : Node} (hn : n ∈ oneFile.nodes) :
    IsCStr ((folderDown k).path n) := by
  have hpart : ∀ part ∈ ((folderDown k).goSubs n).path_, part = [97] ∨ part = [102] := by
    intro part hpart
    obtain hroot | hname := List.mem_append.mp hpart
    · exact .inl (List.eq_of_mem_replicate hroot)
    · obtain rfl | rfl := mem_oneFile.mp hn
      · cases hname
      · exact .inr (List.mem_singleton.mp hname)
  have hlength : ∀ part ∈ ((folderDown k).goSubs n).path_, part.length = 1 := by
    intro part h
    obtain rfl | rfl := hpart part h
    · rfl
    · rfl
  have hcount : ((folderDown k).goSubs n).path_.length ≤ k + 2 := by
    have hle : n.length ≤ 1 := by
      obtain rfl | rfl := mem_oneFile.mp hn
      · decide
      · decide
    change (List.replicate (k + 1) [97] ++ n.reverse).length ≤ k + 2
    rw [List.length_append, List.length_replicate, List.length_reverse]
    omega
  have hpath : (folderDown k).path n = [slash] ++ [slash].intercalate ((folderDown k).goSubs n).path_ := rfl
  refine ⟨fun hnul => ?_, ?_⟩
  · rw [hpath, List.mem_append] at hnul
    obtain h | h := hnul
    · cases List.mem_singleton.mp h
    · obtain h | ⟨part, hmem, h⟩ := mem_intercalate h
      · cases h
      · obtain rfl | rfl := hpart part hmem
        · cases List.mem_singleton.mp h
        · cases List.mem_singleton.mp h
  · have hsum : ∀ m, (List.replicate m 1).sum = m := fun m => by simp
    rw [hpath, List.length_append, length_intercalate, List.map_congr_left hlength, List.map_const', hsum,
      List.length_singleton]
    omega

theorem listable_oneFile {n : Node} (hn : n ∈ oneFile.nodes) : (oneFile.entry n).Listable := by
  obtain rfl | rfl := mem_oneFile.mp hn
  · exact ⟨by decide, by decide⟩
  · exact ⟨⟨by decide, by decide⟩, ⟨by decide, by decide⟩, ⟨by decide, by decide⟩⟩

theorem holdsTree_oneFile {k : ℕ} (hk : k ≤ 1000) : HoldsTree ((deletionSetup k).os (deletion k).src.remote)
    (deletion k).tree (deletion k).src TreeDisk.Has :=
  TreeDisk.holdsTree_os (by decide) (fun n => by rw [mem_oneFile]; simp) (fun _ hn => isCStr_path_oneFile hk hn)
    fun _ hn => listable_oneFile hn

theorem has_oneFileDisk (n : Node) : TreeDisk.Has oneFileDisk n ↔ n ∈ oneFile.nodes := by
  rw [mem_oneFile, TreeDisk.Has, oneFileDisk]
  split_ifs with hroot hfile
  · exact iff_of_true rfl (.inl hroot)
  · exact iff_of_true rfl (.inr hfile)
  · exact iff_of_false (by simp) (not_or.mpr ⟨hroot, hfile⟩)

theorem fits_deletion (k : ℕ) : (deletion k).Fits (deletionSetup k) := ⟨rfl, fun _ => rfl⟩

/-- **A folder at the top of a disk is deleted with its file.** -/
theorem deletes_iff_here : (deletion 0).Deletes (deletionSetup 0) TreeDisk.Has (deletionQueue 0)
    fun _ => oneFileDisk := by
  refine (deletes_iff rfl (fits_deletion 0) (holdsTree_oneFile (Nat.zero_le _)) rfl has_oneFileDisk).mpr ?_
  intro n c hc
  obtain ⟨hc, a, rfl⟩ := NameTree.mem_children.mp hc
  obtain h | h := mem_oneFile.mp hc
  · cases h
  · obtain ⟨-, rfl⟩ := List.cons.inj h
    change 1 + 0 ≤ if oneFile.isFolder [a] then 930 else 900
    split_ifs
    · decide
    · decide

/-- **A file 901 names deep is not deleted before its folder is to go.** -/
theorem not_deletes : ¬ ∀ (E : Errand) (S : Sides.Setup TreeDisk) (has : TreeDisk → Node → Prop) (q : FmScheduler)
    (id : ℤ) (disks : Bool → TreeDisk), E.purpose = .del → E.Fits S →
    HoldsTree (S.os E.src.remote) E.tree E.src has → q.tasks_ = [⟨id, FmResultOk, E.body (.list [])⟩] →
    (∀ n, has (disks E.src.remote) n ↔ n ∈ E.tree.nodes) → E.Deletes S has q disks := by
  intro h
  have hos := @holdsTree_oneFile 900 (by decide)
  have hdeletes := h (deletion 900) (deletionSetup 900) TreeDisk.Has (deletionQueue 900) 0 (fun _ => oneFileDisk)
    rfl (fits_deletion 900) hos rfl has_oneFileDisk
  have hshallow := shallow_of_deletes rfl (fits_deletion 900) hos rfl has_oneFileDisk hdeletes
  have hchild : [[102]] ∈ (deletion 900).tree.children [] :=
    NameTree.mem_children.mpr ⟨mem_oneFile.mpr (.inr rfl), _, rfl⟩
  have hdeep := hshallow [] [[102]] hchild
  rw [show (deletion 900).src.root.path_.length = 901 from List.length_replicate] at hdeep
  exact absurd hdeep (by decide)

end Errand

end EuhatExpert
