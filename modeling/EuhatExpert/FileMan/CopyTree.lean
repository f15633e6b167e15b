import EuhatExpert.FileMan.CopyRun
import EuhatExpert.FileMan.DeleteTree

/-!
# FileMan/CopyTree — copying a folder with all that is in it

Two engines at one queue list a folder tree, create its folders at the other side, and transfer its files.  However
they take turns, the queue ends empty, and each file was transferred once (`copies_tree`).
-/

namespace EuhatExpert

open Machinery Sides

variable {X : Type}

/-- What a task transfers: whether it comes from the server, from where, and to where. -/
def FmTask.transfer (t : FmTask) : Option (Bool × Bytes × Bytes) :=
  match t.body with
  | .download d => some (true, d.peerPath_, d.localPath_)
  | .upload d => some (false, d.localPath_, d.peerPath_)
  | _ => none

namespace Errand

/-- In every run, no task fails and the queue ends empty.  Every file is then transferred by one task, to where it
goes to, and is there as it was; a task was run to create each folder, and nothing else was done but to list. -/
structure Copies (E : Errand) (dst : Place) (S : Sides.Setup X) (content : Node → Bytes)
    (holds : X → (Node → Bytes) → Prop) (q : FmScheduler) (disks : Bool → X) : Prop where
  noFail : ∀ es s, Run (Sides.Step S) (ready q disks) es s → ∀ t ∈ s.tasks_, t.result_ = FmResultOk
  ends : ∃ N, ∀ es s, Run (Sides.Step S) (ready q disks) es s → es.length ≤ N
  drains : ∀ es s, Run (Sides.Step S) (ready q disks) es s → (∀ s', ¬ Acts S s s') → s.tasks_ = []
  transfers : ∀ es s, Run (Sides.Step S) (ready q disks) es s → s.tasks_ = [] → ∃ order : List Node,
    order.Nodup ∧ (∀ n, n ∈ order ↔ n ∈ E.tree.nodes ∧ E.tree.isFolder n = false) ∧
      es.flatten.filterMap FmTask.transfer = order.map fun n => (E.src.remote, E.src.path n, dst.path n)
  creations : ∀ es s, Run (Sides.Step S) (ready q disks) es s → s.tasks_ = [] → ∀ b : FmTask.Body,
    (∃ t ∈ es.flatten, t.asNew.isSome = true ∧ t.body = b) ↔
      ∃ n ∈ E.tree.nodes, E.tree.isFolder n = true ∧ b = .new dst.remote ⟨dst.path n, 1, false⟩
  only : ∀ es s, Run (Sides.Step S) (ready q disks) es s → ∀ t ∈ es.flatten,
    t.transfer.isSome = true ∨ t.asNew.isSome = true ∨
      ∃ n ∈ E.tree.nodes, E.tree.isFolder n = true ∧ t.body = E.body (.list n)
  copied : ∀ es s, Run (Sides.Step S) (ready q disks) es s → s.tasks_ = [] →
    ∃ f, holds (s.disks dst.remote) f ∧ ∀ n ∈ E.tree.nodes, E.tree.isFolder n = false → f n = content n

variable {E : Errand} {dst : Place} {S : Sides.Setup X} {content f₀ : Node → Bytes}
  {holds : X → (Node → Bytes) → Prop} {q : FmScheduler} {id : ℤ} {disks : Bool → X} {i : Item} {n c : Node}
  {es : List (List FmTask)} {s : Sides X} {t : FmTask} {ended : List FmTask}

/-! ## What the tasks of a copy are -/

/-- The file an item transfers. -/
def sentFile : Item → Option Node
  | .file n => some n
  | .list _ | .new _ | .del _ => none

theorem sentFile_eq_some : sentFile i = some n ↔ i = .file n := by
  cases i with
  | file m => exact Option.some_inj.trans ⟨congrArg _, Item.file.inj⟩
  | _ => exact ⟨nofun, nofun⟩

/-- The files that were transferred, in order. -/
def sentFiles (E : Errand) (ts : List FmTask) : List Node := ts.filterMap fun t => sentFile (E.item t.body)

theorem count_sentFiles (ts : List FmTask) (n : Node) :
    (E.sentFiles ts).count n = (Workers.items E ts).count (.file n) := by
  rw [sentFiles, List.count_filterMap, Workers.items, Multiset.map_coe, Multiset.coe_count, List.count, List.countP_map]
  refine List.countP_congr fun t _ => ?_
  rw [Function.comp_apply, beq_iff_eq, beq_iff_eq]
  exact sentFile_eq_some

theorem file_mem_whole (hn : n ∈ E.tree.nodes) (hfile : E.tree.isFolder n = false) : .file n ∈ E.whole (.list []) := by
  have hne : n ≠ [] := by
    rintro rfl
    exact absurd (hfile.symm.trans E.tree.root_isFolder) Bool.false_ne_true
  rw [whole, Multiset.mem_cons, Multiset.mem_add, Multiset.mem_sum]
  refine .inr (.inr ⟨n, NameTree.mem_below_root.mpr ⟨hn, hne⟩, ?_⟩)
  rw [own, inside, hfile, if_neg Bool.false_ne_true]
  exact Multiset.mem_add.mpr (.inl (Multiset.mem_singleton_self _))

/-- Every folder is created. -/
theorem new_mem_whole (hcopies : E.copies = true) (hn : n ∈ E.tree.nodes) (hfolder : E.tree.isFolder n = true) :
    .new n ∈ E.whole (.list []) := by
  have hclosing : ∀ m, .new m ∈ (E.closing m : Multiset Item) := fun m => by
    rw [closing, hcopies, if_pos rfl]
    exact List.mem_append_right _ List.mem_cons_self
  rw [whole, Multiset.mem_cons, Multiset.mem_add, Multiset.mem_sum]
  by_cases hne : n = []
  · exact .inr (.inl (hne ▸ hclosing n))
  · refine .inr (.inr ⟨n, NameTree.mem_below_root.mpr ⟨hn, hne⟩, ?_⟩)
    rw [own, if_pos hfolder]
    exact Multiset.mem_add.mpr (.inr (hclosing n))

/-- The creations of a copy are those of its folders. -/
theorem asNew_isSome (h : E.Carries (E.item t.body) t.body) :
    t.asNew.isSome = true ↔ ∃ n, E.item t.body = .new n := by
  obtain ⟨id, result, body⟩ := t
  dsimp only at h ⊢
  generalize E.item body = i at h
  cases h with
  | file offset hn =>
    rw [FmTask.asNew, sending]
    cases hremote : E.src.remote
    · exact iff_of_false (by simp) (by simp)
    · exact iff_of_false (by simp) (by simp)
  | plain hi hfile =>
    cases i with
    | file n => exact absurd rfl (hfile n)
    | new n => exact iff_of_true rfl ⟨n, rfl⟩
    | _ => exact iff_of_false (fun h => Bool.false_ne_true h) (by simp)

section Tasks

variable {x₀ : X} (hC : E.CopiesOn dst S content holds x₀)

include hC

/-- The transfers of a copy are those of its files. -/
theorem transfer_eq (h : E.Carries (E.item t.body) t.body) :
    t.transfer = (sentFile (E.item t.body)).map fun n => (E.src.remote, E.src.path n, dst.path n) := by
  obtain ⟨id, result, body⟩ := t
  dsimp only at h ⊢
  generalize E.item body = i at h
  cases h with
  | file offset hn =>
    rw [FmTask.transfer, sending, hC.peerPath_eq]
    cases hremote : E.src.remote
    · rfl
    · rfl
  | plain hi hfile =>
    cases i with
    | file n => exact absurd rfl (hfile n)
    | _ => rfl

theorem body_new (n : Node) : E.body (.new n) = .new dst.remote ⟨dst.path n, 1, false⟩ := by
  rw [body, hC.peerPath_eq, hC.remote_dst]

end Tasks

/-! ## Runs -/

section Runs

variable (hC : E.CopiesOn dst S content holds (disks E.src.remote))
  (hq : q.tasks_ = [⟨id, FmResultOk, E.body (.list [])⟩]) (hf₀ : holds (disks !E.src.remote) f₀)

include hC hq hf₀

omit hC in
theorem copying_start : Copying E S content holds (disks E.src.remote) [] f₀ (ready q disks).quiet := by
  have hroot : E.Belongs (.list []) := ⟨E.tree.root_mem, E.tree.root_isFolder⟩
  have hitem := item_body hroot
  have htask : ∀ t ∈ (ready q disks).quiet.tasks_, t = ⟨id, FmResultOk, E.body (.list [])⟩ := by
    intro t ht
    change t ∈ q.tasks_ at ht
    rw [hq] at ht
    exact List.mem_singleton.mp ht
  refine ⟨rfl, hf₀, ⟨fun t ht => ?_, fun t ht => ?_, nofun, ?_⟩, fun n hn => absurd hn (Multiset.notMem_zero _),
    none, .idle, fun t ht _ n hn => ?_⟩
  · rw [htask t ht]
  · rw [htask t ht, hitem]
    exact .plain hroot nofun
  · refine (zero_add _).trans ?_
    change ((q.tasks_ : Multiset FmTask).bind fun t => E.whole (E.item t.body)) = _
    rw [hq, Multiset.coe_singleton, Multiset.singleton_bind, hitem]
  · rw [htask t ht, hitem] at hn
    cases hn

/-- What holds of a copy under way holds of the work, which has so many steps only. -/
theorem copying_of_work (hrun : Run (Sides.WorkStep S) (ready q disks).quiet es s) : ∃ f,
    Copying E S content holds (disks E.src.remote) es.flatten f s ∧
      es.length + Copying.stepsLeft E content s ≤ Copying.stepsLeft E content (ready q disks) := by
  induction hrun with
  | nil => exact ⟨f₀, copying_start hq hf₀, (Nat.zero_add _).le⟩
  | snoc _ hstep ih =>
    obtain ⟨f, h, hle⟩ := ih
    obtain ⟨hworks, rfl⟩ := hstep
    obtain ⟨f', h', hlt⟩ := Copying.step hC h hworks
    refine ⟨f', ?_, ?_⟩
    · rwa [List.flatten_append, List.flatten_singleton]
    · rw [List.length_append, List.length_singleton]
      omega

/-- **What holds of a copy under way holds of every run**, which has so many steps only. -/
theorem copying_of_run (hrun : Run (Sides.Step S) (ready q disks) es s) : ∃ f,
    Copying E S content holds (disks E.src.remote) es.flatten f s ∧
      es.length ≤ 4 * Copying.stepsLeft E content (ready q disks) + 3 := by
  obtain ⟨es', hrun', hflatten, hlen⟩ := works_of_run hrun
  obtain ⟨f, h, hle⟩ := copying_of_work hC hq hf₀ hrun'
  rw [hflatten] at h
  rw [loops_ready] at hlen
  exact ⟨f, h.of_quiet, by omega⟩

/-- A copy is served until it is over. -/
theorem served_of_run (hrun : Run (Sides.Step S) (ready q disks) es s) : s.Served := by
  obtain ⟨f, h, -⟩ := copying_of_run hC hq hf₀ hrun
  exact fun t ht => ⟨h.books.ok t ht, (h.books.tasks t ht).ne_copy false⟩

/-- With the queue empty, all that came of the root is over. -/
theorem items_eq (hrun : Run (Sides.Step S) (ready q disks) es s) (hnil : s.tasks_ = []) :
    Workers.items E es.flatten = E.whole (.list []) := by
  obtain ⟨f, h, -⟩ := copying_of_run hC hq hf₀ hrun
  have haccount := h.books.account
  rwa [Workers.coming, show s.scheduler_.tasks_ = [] from hnil, Multiset.coe_nil, Multiset.zero_bind, add_zero]
    at haccount

/-- Each file was then transferred once. -/
theorem sentFiles_of_run (hrun : Run (Sides.Step S) (ready q disks) es s) (hnil : s.tasks_ = []) :
    (E.sentFiles es.flatten).Nodup ∧
      ∀ n, n ∈ E.sentFiles es.flatten ↔ n ∈ E.tree.nodes ∧ E.tree.isFolder n = false := by
  obtain ⟨f, h, -⟩ := copying_of_run hC hq hf₀ hrun
  have hall := items_eq hC hq hf₀ hrun hnil
  refine ⟨List.nodup_iff_count_le_one.mpr fun n => ?_, fun n => ⟨fun hn => ?_, fun ⟨hn, hfile⟩ => ?_⟩⟩
  · rw [count_sentFiles, hall]
    exact count_file_le n
  · obtain ⟨t, ht, hitem⟩ := List.mem_filterMap.mp hn
    have hbelongs := (h.books.past t ht).belongs
    rw [sentFile_eq_some.mp hitem] at hbelongs
    exact hbelongs
  · rw [← List.count_pos_iff, count_sentFiles, hall, Multiset.count_pos]
    exact file_mem_whole hn hfile

/-- **However the engines take turns, a folder is copied with all that is in it.** -/
theorem copies_tree : E.Copies dst S content holds q disks := by
  have hcopying := fun {es s} => @copying_of_run X E dst S content f₀ holds q id disks es s hC hq hf₀
  have hpast : ∀ {es s} {t : FmTask}, Run (Sides.Step S) (ready q disks) es s → t ∈ es.flatten →
      E.Carries (E.item t.body) t.body := fun hrun ht => by
    obtain ⟨f, h, -⟩ := hcopying hrun
    exact h.books.past _ ht
  refine ⟨fun es s hrun => ?_, ⟨4 * Copying.stepsLeft E content (ready q disks) + 3, fun es s hrun => ?_⟩,
    fun es s hrun hstop => ?_, fun es s hrun hnil => ?_, fun es s hrun hnil b => ⟨?_, ?_⟩, fun es s hrun t ht => ?_,
    fun es s hrun hnil => ?_⟩
  · obtain ⟨f, h, -⟩ := hcopying hrun
    exact h.books.ok
  · obtain ⟨f, -, hle⟩ := hcopying hrun
    exact hle
  · obtain ⟨f, h, -⟩ := hcopying hrun
    by_contra hne
    obtain ⟨s', hworks⟩ := Copying.exists_works hC h hne
    exact not_works_of_run (fun es s => served_of_run hC hq hf₀) hrun hstop hworks
  · obtain ⟨hnodup, hmem⟩ := sentFiles_of_run hC hq hf₀ hrun hnil
    refine ⟨_, hnodup, hmem, ?_⟩
    rw [sentFiles, List.map_filterMap]
    exact List.filterMap_congr fun t ht => transfer_eq hC (hpast hrun ht)
  · rintro ⟨t, ht, hnew, rfl⟩
    have hcarries := hpast hrun ht
    obtain ⟨n, hitem⟩ := (asNew_isSome hcarries).mp hnew
    have hbody := hcarries.body_eq fun m hm => nomatch hitem.symm.trans hm
    have hbelongs := hcarries.belongs
    rw [hitem] at hbelongs hbody
    exact ⟨n, hbelongs.1, hbelongs.2.1, hbody.trans (body_new hC n)⟩
  · rintro ⟨n, hn, hfolder, rfl⟩
    have hmem := new_mem_whole hC.copies_eq hn hfolder
    rw [← items_eq hC hq hf₀ hrun hnil] at hmem
    obtain ⟨t, ht, hitem⟩ := Multiset.mem_map.mp hmem
    have hcarries := hpast hrun (Multiset.mem_coe.mp ht)
    have hbody := hcarries.body_eq fun m hm => nomatch hitem.symm.trans hm
    rw [hitem, body_new hC] at hbody
    exact ⟨t, Multiset.mem_coe.mp ht, (asNew_isSome hcarries).mpr ⟨n, hitem⟩, hbody⟩
  · have hcarries := hpast hrun ht
    have hbelongs := hcarries.belongs
    cases hitem : E.item t.body with
    | file n =>
      refine .inl ?_
      rw [transfer_eq hC hcarries, hitem]
      rfl
    | new n => exact .inr (.inl ((asNew_isSome hcarries).mpr ⟨n, hitem⟩))
    | list n =>
      have hbody := hcarries.body_eq fun m hm => nomatch hitem.symm.trans hm
      rw [hitem] at hbelongs hbody
      exact .inr (.inr ⟨n, hbelongs.1, hbelongs.2, hbody⟩)
    | del n =>
      rw [hitem] at hbelongs
      exact absurd (hbelongs.2.2.symm.trans hC.fells_eq) nofun
  · obtain ⟨f, h, -⟩ := hcopying hrun
    refine ⟨f, hC.remote_dst ▸ h.target, fun n hn hfile => h.copied n ?_⟩
    rw [items_eq hC hq hf₀ hrun hnil]
    exact file_mem_whole hn hfile

end Runs

/-! ## A folder with a file, downloaded -/

/-- A folder of the local disk. -/
def localFolder : Place where
  remote := false
  isUnix_ := true
  root := ⟨[[98]], false, false⟩
  isPart part h := by
    rw [List.mem_singleton.mp h]
    exact ⟨by decide, by decide, by decide⟩
  ne_nil := List.cons_ne_nil _ _
  isUnix_root := rfl

/-- The download of the folder with one file. -/
def downloading : Errand := ⟨oneFile, folderDown 0, .downUp localFolder false, fun dst isMove_ h => by cases h; rfl⟩

def downloadingSetup : Sides.Setup TreeDisk :=
  ⟨fun remote => TreeDisk.os oneFile (if remote then folderDown 0 else localFolder) [[], [[102]]], []⟩

/-- The server has the folder and the file, the local disk nothing. -/
def downloadingDisks (remote : Bool) : TreeDisk := if remote then oneFileDisk else fun _ => none

theorem copiesOn_downloading : downloading.CopiesOn localFolder downloadingSetup
    (fun n => Disk.contentOf (oneFileDisk n)) (TreeDisk.Holds oneFile) (downloadingDisks true) := by
  have hns : ∀ n, n ∈ [[], [[102]]] ↔ n ∈ oneFile.nodes := fun n => by rw [mem_oneFile]; simp
  have hsize : (1 : ℤ) < 2 ^ 63 := by decide
  refine ⟨rfl, ⟨rfl, fun _ => rfl⟩, nofun, ?_, TreeDisk.takesTree_os fun _ _ => ⟨zero_le_one, hsize⟩⟩
  exact TreeDisk.readsTree_os (by decide) hns (fun _ hn => isCStr_path_oneFile (Nat.zero_le _) hn)
    (fun _ hn => listable_oneFile hn) fun n hn => (has_oneFileDisk n).mpr hn

/-- **A folder is downloaded with its file.** -/
theorem copies_tree_here : downloading.Copies localFolder downloadingSetup
    (fun n => Disk.contentOf (oneFileDisk n)) (TreeDisk.Holds oneFile)
    (FmScheduler.new.add (downloading.body (.list []))) downloadingDisks := by
  have hempty : TreeDisk.Holds oneFile (downloadingDisks false) fun _ => [] := fun _ _ _ => ⟨nofun, rfl⟩
  exact copies_tree copiesOn_downloading rfl hempty

end Errand

end EuhatExpert
