import EuhatExpert.FileMan.Errand
import EuhatExpert.FileMan.Sides

/-!
# FileMan/TreeRun — an errand under way

Two engines run an errand in which nothing is transferred: listings, deletions, creations.  Whatever they
take next, the tasks that are over and those that come of the ones in the queue are the errand's tasks, each
once (`Tracks.account`); a node is on the disk as long as the task that takes it away is not done.
-/

namespace EuhatExpert

open Machinery

variable {X : Type}

/-- On the disks of a system, a folder tree at a place: `has` tells which of its nodes are there.  A listing
lists what is there, a file can be deleted, and a folder exactly if it is empty. -/
structure HoldsTree (os : Os X) (T : FolderTree) (P : Place) (has : X → Node → Prop) : Prop where
  listed : ∀ x n, n ∈ T.nodes → T.isFolder n = true → has x n → ∃ (bytes : Bytes) (cs : List Node),
    os.whGetSubFiles (P.path n) x = some bytes ∧ SubList.read bytes = .ok ⟨P.path n, cs.map T.entry⟩ ∧
      cs.Nodup ∧ ∀ c, c ∈ cs ↔ c ∈ T.children n ∧ has x c
  unlinked : ∀ x n, n ∈ T.nodes → T.isFolder n = false → has x n →
    (os.opUnlink (P.path n) x).1 = true ∧ ∀ m, has (os.opUnlink (P.path n) x).2 m ↔ has x m ∧ m ≠ n
  removed : ∀ x n, n ∈ T.nodes → T.isFolder n = true → has x n → (∀ c ∈ T.children n, ¬ has x c) →
    (os.opRmDir (P.path n) x).1 = true ∧ ∀ m, has (os.opRmDir (P.path n) x).2 m ↔ has x m ∧ m ≠ n
  kept : ∀ x n, n ∈ T.nodes → T.isFolder n = true → has x n → (∃ c ∈ T.children n, has x c) →
    (os.opRmDir (P.path n) x).1 = false ∧ ∀ m, has (os.opRmDir (P.path n) x).2 m ↔ has x m

namespace Errand

/-- The client was told the kind of the server, whose shared directory the errand's folder is in. -/
structure Fits (E : Errand) (S : Sides.Setup X) : Prop where
  isUnix_src : E.src.isUnix_ = S.isUnix_
  base : E.src.remote = true → strIsStartWith (E.src.path []) S.baseDir_ = true

/-- Nothing is transferred. -/
def Untransferred (E : Errand) : Prop := E.purpose = .del ∨ ∀ n ∈ E.tree.nodes, E.tree.isFolder n = true

variable {E : Errand} {S : Sides.Setup X} {has : X → Node → Prop} {i j : Item} {n m c : Node}

/-- The engine of the errand's side was told what the client was. -/
theorem toFmLoop_src (h : E.Fits S) : E.src.toFmLoop = S.loop E.src.remote :=
  congrArg (FmLoop.mk _) h.isUnix_src

/-- A node is taken away by one item only. -/
theorem fell_inj : E.fell n = E.fell m ↔ n = m := by
  refine ⟨fun h => ?_, congrArg _⟩
  rw [fell, fell] at h
  split_ifs at h
  · exact Item.del.inj h
  · exact Item.file.inj h

/-- A folder is deleted as a folder, -/
theorem fell_of_folder (h : E.tree.isFolder n = true) : E.fell n = .del n := if_pos h

/-- and a file as a file; -/
theorem fell_of_file (h : E.tree.isFolder n = false) : E.fell n = .file n :=
  if_neg (Bool.eq_false_iff.mp h)

/-- it is not listed, -/
theorem fell_ne_list : E.fell n ≠ .list m := by
  rw [fell]
  split_ifs
  · simp
  · simp

/-- and not created. -/
theorem fell_ne_new : E.fell n ≠ .new m := by
  rw [fell]
  split_ifs
  · simp
  · simp

/-- What a listing takes away is the folder and all that is under it. -/
theorem fell_mem_list (hfells : E.fells = true) (hn : E.tree.isFolder n = true) :
    E.fell c ∈ E.whole (.list n) ↔ c = n ∨ c ∈ E.tree.below n := by
  rw [← Multiset.count_pos, count_fell_list hfells hn]
  split_ifs with h h' h' <;> simp [h, h']

/-- Other tasks take away no other node than their own. -/
theorem fell_mem (hi : ∀ n, i ≠ .list n) : E.fell c ∈ E.whole i ↔ E.fell c = i := by
  cases i with
  | list n => exact absurd rfl (hi n)
  | _ => exact Multiset.mem_singleton

/-- The server takes the paths of an errand on it as they are. -/
theorem whCorrectFilePath_path (hfits : E.Fits S) (hn : n ∈ E.tree.nodes) (hremote : E.src.remote = true) :
    whCorrectFilePath S.isUnix_ (E.src.path n) = E.src.path n := by
  rw [← hfits.isUnix_src]
  exact Place.whCorrectFilePath_path hremote (E.tree.isPart n hn)

/-- But for the files, the tasks of an errand are such that engines do in one go. -/
theorem plain_of_ne_file (hfits : E.Fits S) (h : E.Belongs i) (hfile : ∀ n, i ≠ .file n) :
    Sides.Plain S (E.body i) := by
  cases i with
  | list n =>
    exact fun hremote => ⟨whCorrectFilePath_path hfits h.1 hremote,
      Place.strIsStartWith_path (hfits.base hremote) n⟩
  | file n => exact absurd rfl (hfile n)
  | new n =>
    obtain ⟨hn, -, hcopies⟩ := h
    intro hremote
    rw [copies] at hcopies
    rw [peerPath_]
    cases hpurpose : E.purpose with
    | del =>
      rw [hpurpose] at hcopies
      cases hcopies
    | downUp dst isMove_ =>
      have hother := E.other dst isMove_ hpurpose
      have hdst : dst.remote = true := by rw [hother]; exact hremote
      have hunix : dst.isUnix_ = S.isUnix_ := by rw [hother]; exact hfits.isUnix_src
      dsimp only
      rw [← hunix]
      exact Place.whCorrectFilePath_path hdst (E.tree.isPart n hn)
  | del n => exact whCorrectFilePath_path hfits h.1

/-- The tasks of an errand without transfers are such that engines do in one go. -/
theorem plain_body (hfits : E.Fits S) (huntransferred : E.Untransferred) (h : E.Belongs i) :
    Sides.Plain S (E.body i) := by
  cases i with
  | file n =>
    rcases huntransferred with hpurpose | hfolders
    · rw [body, fileBody, hpurpose]
      exact whCorrectFilePath_path hfits h.1
    · exact absurd (h.2.symm.trans (hfolders n h.1)) Bool.false_ne_true
  | _ => exact plain_of_ne_file hfits h (by simp)

/-- The side a task is done on: folders are created on the other one. -/
def side (E : Errand) : Item → Bool
  | .new _ => !E.src.remote
  | .list _ | .file _ | .del _ => E.src.remote

/-- Nodes are taken away on the side they are on, -/
theorem side_fell : E.side (E.fell n) = E.src.remote := by
  rw [fell]
  split_ifs
  · rfl
  · rfl

/-- and so is all that an item takes away. -/
theorem side_of_fell_mem (h : E.fell c ∈ E.whole i) : E.side i = E.src.remote := by
  cases i with
  | new n => exact absurd (Multiset.mem_singleton.mp h) fell_ne_new
  | _ => rfl

/-- Which engine gets a task that moves no file, -/
theorem isLocal_of_ne_file {t : FmTask} (hfile : ∀ n, i ≠ .file n) (ht : t.body = E.body i) :
    t.isLocal = !E.side i := by
  rw [FmTask.isLocal, ht]
  cases i with
  | file n => exact absurd rfl (hfile n)
  | list n => rw [body, side]; cases E.src.remote <;> rfl
  | new n => rw [body, side]; cases E.src.remote <;> rfl
  | del n => rw [body, delBody, side]; cases E.src.remote <;> rfl

/-- and any task where nothing is transferred. -/
theorem isLocal_eq {t : FmTask} (huntransferred : E.Untransferred) (h : E.Belongs i) (ht : t.body = E.body i) :
    t.isLocal = !E.side i := by
  cases i with
  | file n =>
    rcases huntransferred with hpurpose | hfolders
    · rw [FmTask.isLocal, ht, body, fileBody, hpurpose, side]
      cases E.src.remote <;> rfl
    · exact absurd (h.2.symm.trans (hfolders n h.1)) Bool.false_ne_true
  | _ => exact isLocal_of_ne_file (by simp) ht

/-- The engine that got a task is that of its side. -/
theorem eq_side {t : FmTask} (huntransferred : E.Untransferred) (h : E.Belongs i) (ht : t.body = E.body i)
    {remote : Bool} (hside : (t.isLocal != remote) = true) : remote = E.side i := by
  rw [isLocal_eq huntransferred h ht] at hside
  cases remote <;> cases hE : E.side i <;> simp_all

end Errand

/-! ## What holds on the way -/

namespace Workers

/-- The items of tasks. -/
def items (E : Errand) (ts : List FmTask) : Multiset Item := (ts : Multiset FmTask).map fun t => E.item t.body

/-- All that comes of the tasks in the queue. -/
def coming (E : Errand) (s : FmScheduler) : Multiset Item :=
  (s.tasks_ : Multiset FmTask).bind fun t => E.whole (E.item t.body)

/-- What an engine made of a task it has done. -/
def Makes (E : Errand) (t : FmTask) (bodies : List FmTask.Body) : Prop :=
  (∀ n, E.item t.body = .list n → ∃ cs : List Node, cs.Nodup ∧ (∀ c, c ∈ cs ↔ c ∈ E.tree.children n) ∧
    bodies = (cs.flatMap E.inside ++ E.closing n).map E.body) ∧
  ((∀ n, E.item t.body ≠ .list n) → bodies = [])

/-- The tasks are the errand's, each once; a node is there as long as it is not taken away. -/
structure Tracks (E : Errand) (has : X → Node → Prop) (w : Workers X) : Prop where
  sorted : w.scheduler_.Sorted
  tasks : ∀ t ∈ w.scheduler_.tasks_, ∃ i, E.Belongs i ∧ t.body = E.body i
  account : items E w.ended + coming E w.scheduler_ = E.whole (.list [])
  has_iff : ∀ n, has (w.disks E.src.remote) n ↔ n ∈ E.tree.nodes ∧ E.fell n ∉ items E w.ended ∧
    ∀ t bodies, w.hand E.src.remote = .done t (some bodies) → E.item t.body ≠ E.fell n
  makes : ∀ remote t bodies, w.hand remote = .done t (some bodies) → Makes E t bodies
  felled : ∀ t bodies n, w.hand E.src.remote = .done t (some bodies) → E.item t.body = .del n →
    ∀ c ∈ E.tree.children n, E.fell c ∈ items E w.ended

variable {E : Errand} {S : Sides.Setup X} {has : X → Node → Prop} {w w' : Workers X} {t u : FmTask} {n c : Node}
  {i j : Item}

/-- Items of tasks one behind the other. -/
theorem items_append (ts us : List FmTask) : items E (ts ++ us) = items E ts + items E us := by
  rw [items, items, items, ← Multiset.coe_add, Multiset.map_add]

theorem items_singleton (t : FmTask) : items E [t] = {E.item t.body} := rfl

namespace Tracks

variable (h : Tracks E has w)

include h

/-- A task in the queue is one of the errand's. -/
theorem item_body (ht : t ∈ w.scheduler_.tasks_) : E.Belongs (E.item t.body) ∧ t.body = E.body (E.item t.body) := by
  obtain ⟨i, hi, hbody⟩ := h.tasks t ht
  rw [hbody, Errand.item_body hi]
  exact ⟨hi, rfl⟩

variable (hfells : E.fells = true)

include hfells

/-- No node is taken away twice. -/
theorem count_le (c : Node) : (items E w.ended + coming E w.scheduler_).count (E.fell c) ≤ 1 := by
  rw [h.account, Errand.count_fell_list hfells E.tree.root_isFolder]
  by_cases hc : c = []
  · rw [if_pos hc, hc, if_neg (NameTree.notMem_below_self [])]
  · rw [if_neg hc]
    split_ifs <;> omega

/-- One task in the queue takes a node away. -/
theorem owner_unique (ht : t ∈ w.scheduler_.tasks_) (hu : u ∈ w.scheduler_.tasks_)
    (hct : E.fell c ∈ E.whole (E.item t.body)) (hcu : E.fell c ∈ E.whole (E.item u.body)) : t = u := by
  have hle := h.count_le hfells c
  rw [Multiset.count_add] at hle
  exact eq_of_count_bind_le_one (f := fun t : FmTask => E.whole (E.item t.body)) (Nat.le_of_add_left_le hle)
    ht hu hct hcu

/-- What a task in the queue takes away is not over. -/
theorem notMem_over (hu : u ∈ w.scheduler_.tasks_) (hcu : E.fell c ∈ E.whole (E.item u.body)) :
    E.fell c ∉ items E w.ended := by
  intro hover
  have hle := h.count_le hfells c
  rw [Multiset.count_add] at hle
  have h₁ := Multiset.one_le_count_iff_mem.mpr hover
  have h₂ : 1 ≤ (coming E w.scheduler_).count (E.fell c) :=
    Multiset.one_le_count_iff_mem.mpr (Multiset.mem_bind.mpr ⟨u, Multiset.mem_coe.mpr hu, hcu⟩)
  omega

/-- A node of the tree is taken away, or there is a task that will take it away. -/
theorem exists_owner (hc : c ∈ E.tree.nodes) (hover : E.fell c ∉ items E w.ended) :
    ∃ u ∈ w.scheduler_.tasks_, E.fell c ∈ E.whole (E.item u.body) := by
  have hmem : E.fell c ∈ E.whole (.list []) := by
    rw [Errand.fell_mem_list hfells E.tree.root_isFolder, NameTree.mem_below_root]
    by_cases hnil : c = []
    · exact .inl hnil
    · exact .inr ⟨hc, hnil⟩
  rw [← h.account, Multiset.mem_add] at hmem
  obtain ⟨u, hu, hcu⟩ := Multiset.mem_bind.mp (hmem.resolve_left hover)
  exact ⟨u, Multiset.mem_coe.mp hu, hcu⟩

/-- The nodes are there that the task in hand takes away. -/
theorem there (ht : t ∈ w.scheduler_.tasks_) (htaken : w.hand E.src.remote = .taken t) (hc : c ∈ E.tree.nodes)
    (hct : E.fell c ∈ E.whole (E.item t.body)) : has (w.disks E.src.remote) c := by
  refine (h.has_iff c).mpr ⟨hc, h.notMem_over hfells ht hct, fun u bodies hdone => ?_⟩
  rw [htaken] at hdone
  cases hdone

end Tracks

/-! ## What the errand's tasks come to on the disk -/

/-- **A listing makes the tasks of what it lists.** -/
theorem deed_of_listed (hfits : E.Fits S) {x : X} {bytes : Bytes} {cs : List Node}
    (hbytes : (S.os E.src.remote).whGetSubFiles (E.src.path n) x = some bytes)
    (hread : SubList.read bytes = .ok ⟨E.src.path n, cs.map E.tree.entry⟩)
    (hcs : ∀ c ∈ cs, c ∈ E.tree.children n) :
    deed (S.os E.src.remote) ⟨E.src.remote, S.isUnix_⟩ x (E.body (.list n))
      = (some ((cs.flatMap E.inside ++ E.closing n).map E.body), x) := by
  have hlisted : listed ⟨E.src.remote, S.isUnix_⟩ (E.listing n) bytes
      = (cs.flatMap E.inside ++ E.closing n).map E.body := by
    rw [listed, hread, ← Errand.bodies_eq hcs, Errand.toFmLoop_src hfits]
    rfl
  rw [Errand.body, deed, ← hlisted]
  exact congrArg (fun o => (Option.map _ o, x)) hbytes

section Deeds

variable (hos : HoldsTree (S.os E.src.remote) E.tree E.src has) {x : X}

include hos

/-- **A folder's listing makes the tasks of what is in it**, as long as that is there. -/
theorem deed_list (hfits : E.Fits S) (hn : E.Belongs (.list n)) (hx : has x n) (hall : ∀ c ∈ E.tree.children n, has x c) :
    ∃ cs : List Node, cs.Nodup ∧ (∀ c, c ∈ cs ↔ c ∈ E.tree.children n) ∧
      deed (S.os E.src.remote) ⟨E.src.remote, S.isUnix_⟩ x (E.body (.list n))
        = (some ((cs.flatMap E.inside ++ E.closing n).map E.body), x) := by
  obtain ⟨bytes, cs, hbytes, hread, hnodup, hcs⟩ := hos.listed x n hn.1 hn.2 hx
  have hcs' : ∀ c, c ∈ cs ↔ c ∈ E.tree.children n := fun c =>
    (hcs c).trans (and_iff_left_of_imp (hall c))
  exact ⟨cs, hnodup, hcs', deed_of_listed hfits hbytes hread fun c => (hcs' c).mp⟩

/-- **A folder is deleted exactly if nothing is left in it.** -/
theorem deed_del (hn : E.Belongs (.del n)) (hx : has x n) (loop : FmLoop) :
    (∃ c ∈ E.tree.children n, has x c) ∧ (deed (S.os E.src.remote) loop x (E.body (.del n))).1 = none ∧
        (∀ m, has (deed (S.os E.src.remote) loop x (E.body (.del n))).2 m ↔ has x m) ∨
      (∀ c ∈ E.tree.children n, ¬ has x c) ∧
        (deed (S.os E.src.remote) loop x (E.body (.del n))).1 = some [] ∧
        ∀ m, has (deed (S.os E.src.remote) loop x (E.body (.del n))).2 m ↔ has x m ∧ m ≠ n := by
  have hdeleted : FmLocal.deleted (S.os E.src.remote)
      ⟨E.src.path n, 1, 1000 - (EuhatPath.inStr (E.src.path n)).path_.length⟩ x
        = (S.os E.src.remote).opRmDir (E.src.path n) x := if_pos (one_ne_zero)
  rw [Errand.body, delBody, deed, hdeleted]
  by_cases hchild : ∃ c ∈ E.tree.children n, has x c
  · obtain ⟨hfalse, hsame⟩ := hos.kept x n hn.1 hn.2.1 hx hchild
    exact .inl ⟨hchild, by rw [hfalse, if_neg Bool.false_ne_true], hsame⟩
  · have hnone : ∀ c ∈ E.tree.children n, ¬ has x c := fun c hc hxc => hchild ⟨c, hc, hxc⟩
    obtain ⟨htrue, hless⟩ := hos.removed x n hn.1 hn.2.1 hx hnone
    exact .inr ⟨hnone, by rw [htrue, if_pos rfl], hless⟩

/-- A file is deleted. -/
theorem deed_file (hpurpose : E.purpose = .del) (hn : E.Belongs (.file n)) (hx : has x n) (loop : FmLoop) :
    (deed (S.os E.src.remote) loop x (E.body (.file n))).1 = some [] ∧
      ∀ m, has (deed (S.os E.src.remote) loop x (E.body (.file n))).2 m ↔ has x m ∧ m ≠ n := by
  have hdeleted : FmLocal.deleted (S.os E.src.remote) ⟨E.src.path n, 0, 100⟩ x
      = (S.os E.src.remote).opUnlink (E.src.path n) x := if_neg (not_not_intro rfl)
  obtain ⟨htrue, hless⟩ := hos.unlinked x n hn.1 hn.2 hx
  rw [Errand.body, Errand.fileBody, hpurpose]
  dsimp only
  rw [deed, hdeleted]
  exact ⟨by rw [htrue, if_pos rfl], hless⟩

end Deeds

/-! ## Step by step -/

namespace Tracks

/-- Taking the front task changes nothing on a disk. -/
theorem take (h : Tracks E has w) {remote : Bool} (hidle : w.hand remote = .idle) :
    Tracks E has { w with hand := Function.update w.hand remote (.taken t) } := by
  have hhand : ∀ {r u bodies}, Function.update w.hand remote (.taken t) r = .done u (some bodies) →
      w.hand r = .done u (some bodies) := fun hdone => (Hand.eq_of_update (by simp) hdone).2
  refine ⟨h.sorted, h.tasks, h.account, fun n => ?_, fun r u bodies hdone => h.makes r u bodies (hhand hdone),
    fun u bodies n hdone => h.felled u bodies n (hhand hdone)⟩
  rw [h.has_iff]
  refine and_congr_right fun _ => and_congr_right fun _ =>
    ⟨fun hall u bodies hdone => hall u bodies (hhand hdone), fun hall u bodies hdone => hall u bodies ?_⟩
  by_cases hr : E.src.remote = remote
  · rw [hr, hidle] at hdone
    cases hdone
  · exact (Function.update_of_ne hr _ _).trans hdone

/-- A task in hand is done: on its side nothing is gone but what it takes away, and the account is as it was. -/
theorem act_of (h : Tracks E has w) {remote : Bool} {out : Outcome} {x : X} (htaken : w.hand remote = .taken t)
    (hhas : ∀ m, has (Function.update w.disks remote x E.src.remote) m ↔ has (w.disks E.src.remote) m ∧
      (remote = E.src.remote → out.isSome = true → E.item t.body ≠ E.fell m))
    (hmakes : ∀ bodies, out = some bodies → Makes E t bodies)
    (hfelled : ∀ bodies n, out = some bodies → E.item t.body = .del n → ∀ c ∈ E.tree.children n,
      E.fell c ∈ items E w.ended) :
    Tracks E has { w with
      hand := Function.update w.hand remote (.done t out)
      disks := Function.update w.disks remote x } := by
  have hhand : ∀ {r u bodies}, Function.update w.hand remote (.done t out) r = .done u (some bodies) →
      r = remote ∧ u = t ∧ out = some bodies ∨ r ≠ remote ∧ w.hand r = .done u (some bodies) := by
    intro r u bodies hdone
    by_cases hr : r = remote
    · subst hr
      rw [Function.update_self] at hdone
      cases hdone
      exact .inl ⟨rfl, rfl, rfl⟩
    · rw [Function.update_of_ne hr] at hdone
      exact .inr ⟨hr, hdone⟩
  refine ⟨h.sorted, h.tasks, h.account, fun m => ?_, fun r u bodies hdone => ?_, fun u bodies n hdone => ?_⟩
  · refine (hhas m).trans ?_
    rw [h.has_iff, and_assoc, and_assoc]
    refine and_congr_right fun _ => and_congr_right fun _ => ⟨fun ⟨hall, hself⟩ u bodies hdone => ?_,
      fun hall => ⟨fun u bodies hdone => ?_, fun hr hout => ?_⟩⟩
    · rcases hhand hdone with ⟨hr, rfl, hout⟩ | ⟨-, hdone⟩
      · exact hself hr.symm (by rw [hout]; rfl)
      · exact hall u bodies hdone
    · by_cases hr : E.src.remote = remote
      · rw [hr, htaken] at hdone
        cases hdone
      · exact hall u bodies ((Function.update_of_ne hr _ _).trans hdone)
    · obtain ⟨bodies, rfl⟩ := Option.isSome_iff_exists.mp hout
      exact hall t bodies (hr ▸ Function.update_self _ _ _)
  · rcases hhand hdone with ⟨-, rfl, hout⟩ | ⟨-, hdone⟩
    · exact hmakes bodies hout
    · exact h.makes r u bodies hdone
  · rcases hhand hdone with ⟨-, rfl, hout⟩ | ⟨-, hdone⟩
    · exact hfelled bodies n hout
    · exact h.felled u bodies n hdone

/-- A node's task was done, and the node is gone. -/
theorem act_fell (h : Tracks E has w) {x : X} (htaken : w.hand E.src.remote = .taken t)
    (hitem : E.item t.body = E.fell n) (hhas : ∀ m, has x m ↔ has (w.disks E.src.remote) m ∧ m ≠ n)
    (hnone : E.tree.isFolder n = true → ∀ c ∈ E.tree.children n, ¬ has (w.disks E.src.remote) c) :
    Tracks E has { w with
      hand := Function.update w.hand E.src.remote (.done t (some []))
      disks := Function.update w.disks E.src.remote x } := by
  refine h.act_of htaken (fun m => ?_) (fun bodies hbodies => ?_) fun bodies m _ hdel c hc => ?_
  · rw [Function.update_self, hhas, hitem]
    refine and_congr_right fun _ => ⟨fun hne _ _ heq => hne (Errand.fell_inj.mp heq).symm,
      fun hne heq => hne rfl rfl (congrArg _ heq.symm)⟩
  · rw [← Option.some.inj hbodies]
    exact ⟨fun m hm => absurd (hitem.symm.trans hm) Errand.fell_ne_list, fun _ => rfl⟩
  · rw [hitem, Errand.fell] at hdel
    split_ifs at hdel with hfolder
    obtain rfl := Item.del.inj hdel
    by_contra hover
    refine hnone hfolder c hc ((h.has_iff c).mpr ⟨(NameTree.mem_children.mp hc).1, hover, fun u bodies hdone => ?_⟩)
    rw [htaken] at hdone
    cases hdone

/-- **What an engine does on its disk keeps the account.** -/
theorem act (h : Tracks E has w) (hheld : w.Held) (hfells : E.fells = true) (huntransferred : E.Untransferred)
    (hos : HoldsTree (S.os E.src.remote) E.tree E.src has) (hfits : E.Fits S) {remote : Bool}
    (htaken : w.hand remote = .taken t) :
    Tracks E has { w with
      hand := Function.update w.hand remote
        (.done t (deed (S.os remote) ⟨remote, S.isUnix_⟩ (w.disks remote) t.body).1)
      disks := Function.update w.disks remote
        (deed (S.os remote) ⟨remote, S.isUnix_⟩ (w.disks remote) t.body).2 } := by
  obtain ⟨hmem, hside⟩ := hheld remote t (.inl htaken)
  obtain ⟨hi, hbody⟩ := h.item_body hmem
  have hremote := Errand.eq_side huntransferred hi hbody hside
  have hthere : ∀ c ∈ E.tree.nodes, remote = E.src.remote → E.fell c ∈ E.whole (E.item t.body) →
      has (w.disks E.src.remote) c := fun c hc hr => h.there hfells hmem (hr ▸ htaken) hc
  generalize hitem : E.item t.body = i at hi hbody hremote hthere
  rw [hbody]
  cases i with
  | list n =>
    obtain rfl : remote = E.src.remote := hremote
    have hmem_list := fun c => @Errand.fell_mem_list E n c hfells hi.2
    have hall : ∀ c ∈ E.tree.children n, has (w.disks E.src.remote) c := by
      intro c hc
      have hbelow := NameTree.mem_below_of_mem_children hc
      exact hthere c (NameTree.mem_children.mp hc).1 rfl ((hmem_list c).mpr (.inr hbelow))
    have hself := hthere n hi.1 rfl ((hmem_list n).mpr (.inl rfl))
    obtain ⟨cs, hnodup, hcs, hdeed⟩ := deed_list hos hfits hi hself hall
    rw [hdeed]
    refine h.act_of htaken (fun m => ?_) (fun bodies hbodies => ?_) fun bodies m _ hdel => ?_
    · rw [Function.update_self, hitem]
      exact (and_iff_left fun _ _ => Errand.fell_ne_list.symm).symm
    · rw [← Option.some.inj hbodies]
      refine ⟨fun m hm => ⟨cs, hnodup, ?_⟩, fun hne => absurd hitem (hne n)⟩
      obtain rfl := Item.list.inj (hitem.symm.trans hm)
      exact ⟨hcs, rfl⟩
    · rw [hitem] at hdel
      cases hdel
  | file n =>
    obtain rfl : remote = E.src.remote := hremote
    have hfell := Errand.fell_of_file hi.2
    have hpurpose : E.purpose = .del := by
      refine huntransferred.resolve_right fun hfolders => ?_
      exact absurd (hi.2.symm.trans (hfolders n hi.1)) Bool.false_ne_true
    obtain ⟨hout, hhas⟩ := deed_file hos hpurpose hi (hthere n hi.1 rfl (by
      rw [hfell]
      exact Multiset.mem_singleton_self _)) ⟨E.src.remote, S.isUnix_⟩
    rw [hout]
    exact h.act_fell htaken (hitem.trans hfell.symm) hhas fun hfolder => absurd hi.2 (by rw [hfolder]; simp)
  | new n =>
    obtain rfl : remote = !E.src.remote := hremote
    have hne : E.src.remote ≠ !E.src.remote := (Bool.not_ne_self _).symm
    refine h.act_of htaken (fun m => ?_) (fun bodies hbodies => ?_) fun bodies m _ hdel => ?_
    · rw [Function.update_of_ne hne]
      exact (and_iff_left fun hr => absurd hr.symm hne).symm
    · refine ⟨fun m hm => (by rw [hitem] at hm; cases hm), fun _ => ?_⟩
      rw [Errand.body, deed] at hbodies
      dsimp only at hbodies
      split_ifs at hbodies
      exact (Option.some.inj hbodies).symm
    · rw [hitem] at hdel
      cases hdel
  | del n =>
    obtain rfl : remote = E.src.remote := hremote
    have hfell := Errand.fell_of_folder hi.2.1
    have hself := hthere n hi.1 rfl (by
      rw [hfell]
      exact Multiset.mem_singleton_self _)
    rcases deed_del hos hi hself ⟨E.src.remote, S.isUnix_⟩ with ⟨-, hout, hhas⟩ | ⟨hnone, hout, hhas⟩
    · rw [hout]
      refine h.act_of htaken (fun m => ?_) (fun bodies hbodies => (by cases hbodies)) fun bodies m hbodies =>
        (by cases hbodies)
      rw [Function.update_self, hhas]
      exact (and_iff_left fun _ hsome => (by cases hsome)).symm
    · rw [hout]
      exact h.act_fell htaken (hitem.trans hfell.symm) hhas fun _ => hnone

/-- What a task that was done makes, item by item. -/
theorem exists_items (h : Tracks E has w) {remote : Bool} {bodies : List FmTask.Body}
    (hdone : w.hand remote = .done t (some bodies)) :
    ∃ is : List Item, bodies = is.map E.body ∧ (is : Multiset Item) = E.spawn (E.item t.body) := by
  obtain ⟨hlist, hother⟩ := h.makes remote t bodies hdone
  cases hitem : E.item t.body with
  | list n =>
    obtain ⟨cs, hnodup, hcs, rfl⟩ := hlist n hitem
    exact ⟨_, rfl, Errand.coe_spawn hnodup hcs⟩
  | _ =>
    refine ⟨[], hother fun n hn => ?_, rfl⟩
    rw [hitem] at hn
    cases hn

/-- The tasks that were made are those of the items. -/
theorem exists_item_of_drawFrom {is : List Item} (his : ∀ i ∈ is, E.Belongs i) {idxBase_ : ℤ}
    (hu : u ∈ FmScheduler.drawFrom idxBase_ (is.map E.body)) : ∃ i ∈ is, u.body = E.body i ∧ E.item u.body = i := by
  have hu' := List.mem_map_of_mem (f := FmTask.body) hu
  rw [FmScheduler.map_body_drawFrom] at hu'
  obtain ⟨i, hi, hbody⟩ := List.mem_map.mp hu'
  exact ⟨i, hi, hbody.symm, by rw [← hbody, Errand.item_body (his i hi)]⟩

/-- What comes of the tasks that were made. -/
theorem bind_drawFrom {is : List Item} (his : ∀ i ∈ is, E.Belongs i) (idxBase_ : ℤ) :
    (FmScheduler.drawFrom idxBase_ (is.map E.body) : Multiset FmTask).bind (fun t => E.whole (E.item t.body))
      = (is : Multiset Item).bind E.whole := by
  have hmap : ((FmScheduler.drawFrom idxBase_ (is.map E.body) : Multiset FmTask).map FmTask.body)
      = (is : Multiset Item).map E.body := by
    rw [Multiset.map_coe, FmScheduler.map_body_drawFrom, Multiset.map_coe]
  rw [← Multiset.bind_map (m := (FmScheduler.drawFrom idxBase_ (is.map E.body) : Multiset FmTask))
    (f := FmTask.body) (n := fun body => E.whole (E.item body)), hmap, Multiset.bind_map]
  exact Multiset.bind_congr fun i hi => by rw [Errand.item_body (his i (Multiset.mem_coe.mp hi))]

/-- A task that is over, and all that comes of what it made, come to what came of it. -/
theorem coming_of_replaces {is : List Item} (hbelongs : ∀ i ∈ is, E.Belongs i)
    (his : (is : Multiset Item) = E.spawn (E.item t.body)) {s s' : FmScheduler} {idxBase_ : ℤ}
    (hreplaces : s.Replaces t (FmScheduler.drawFrom idxBase_ (is.map E.body)) s') :
    {E.item t.body} + coming E s' = coming E s := by
  have hbind := hreplaces.bind_eq fun t => E.whole (E.item t.body)
  rw [bind_drawFrom hbelongs, his, Errand.spawns.whole_eq, ← Multiset.singleton_add, ← add_assoc,
    add_comm (Multiset.bind _ _)] at hbind
  exact add_right_cancel (hbind.trans (add_comm _ _))

/-- **What it writes into the queue then, too.** -/
theorem settle (h : Tracks E has w) (hheld : w.Held) (huntransferred : E.Untransferred) {remote : Bool}
    {out : Outcome} {s : FmScheduler} (hdone : w.hand remote = .done t out) (hsettles : Settles w.scheduler_ t out s) :
    Tracks E has { w with
      scheduler_ := s
      hand := Function.update w.hand remote .idle
      ended := w.ended ++ if out.isSome then [t] else [] } := by
  obtain ⟨hmem, hside⟩ := hheld remote t (.inr ⟨out, hdone⟩)
  obtain ⟨hi, hbody⟩ := h.item_body hmem
  have hremote := Errand.eq_side huntransferred hi hbody hside
  have hhand : ∀ {r u bodies}, Function.update w.hand remote .idle r = .done u (some bodies) →
      w.hand r = .done u (some bodies) := fun hr => (Hand.eq_of_update (by simp) hr).2
  cases out with
  | none =>
    have hreplaces : w.scheduler_.Replaces t [{ t with result_ := FmResultFailed }] s := hsettles
    have hover : items E (w.ended ++ if (none : Outcome).isSome then [t] else []) = items E w.ended :=
      congrArg (items E) (List.append_nil _)
    have hcoming : coming E s = coming E w.scheduler_ := by
      have hbind := hreplaces.bind_eq fun t => E.whole (E.item t.body)
      rw [Multiset.coe_singleton, Multiset.singleton_bind, add_comm] at hbind
      exact add_left_cancel hbind
    refine ⟨hreplaces.sorted h.sorted, fun u hu => ?_, ?_, fun n => ?_, fun r u bodies hr =>
      h.makes r u bodies (hhand hr), fun u bodies n hr hdel c hc => ?_⟩
    · rcases hreplaces.mem_iff.mp hu with hu | ⟨hu, -⟩
      · rw [List.mem_singleton.mp hu]
        exact h.tasks t hmem
      · exact h.tasks u hu
    · rw [hover, hcoming, h.account]
    · rw [hover, h.has_iff]
      refine and_congr_right fun _ => and_congr_right fun _ =>
        ⟨fun hall u bodies hr => hall u bodies (hhand hr), fun hall u bodies hr => hall u bodies ?_⟩
      by_cases hne : E.src.remote = remote
      · rw [hne, hdone] at hr
        cases hr
      · exact (Function.update_of_ne hne _ _).trans hr
    · rw [hover]
      exact h.felled u bodies n (hhand hr) hdel c hc
  | some bodies =>
    have hreplaces : w.scheduler_.Replaces t (FmScheduler.drawFrom w.scheduler_.idxBase_ bodies) s := hsettles
    obtain ⟨is, rfl, his⟩ := h.exists_items hdone
    have hbelongs : ∀ i ∈ is, E.Belongs i := fun i hi' =>
      Errand.belongs_of_mem_spawn hi (his ▸ Multiset.mem_coe.mpr hi')
    have hover : items E (w.ended ++ if (some (is.map E.body) : Outcome).isSome then [t] else [])
        = items E w.ended + {E.item t.body} := items_append _ _
    have hcoming := coming_of_replaces hbelongs his hreplaces
    refine ⟨hreplaces.sorted h.sorted, fun u hu => ?_, ?_, fun n => ?_, fun r u bodies hr =>
      h.makes r u bodies (hhand hr), fun u bodies n hr hdel c hc => ?_⟩
    · rcases hreplaces.mem_iff.mp hu with hu | ⟨hu, -⟩
      · obtain ⟨i, hi', hbody', -⟩ := exists_item_of_drawFrom hbelongs hu
        exact ⟨i, hbelongs i hi', hbody'⟩
      · exact h.tasks u hu
    · rw [hover, add_assoc, hcoming, h.account]
    · rw [hover, h.has_iff, Multiset.mem_add, Multiset.mem_singleton, not_or, and_assoc]
      refine and_congr_right fun _ => and_congr_right fun _ => ⟨fun hall => ⟨?_, fun u bodies hr =>
        hall u bodies (hhand hr)⟩, fun ⟨hne, hall⟩ u bodies hr => ?_⟩
      · by_cases hb : E.src.remote = remote
        · exact (hall t _ (hb ▸ hdone)).symm
        · intro hfell
          rw [← hfell, Errand.side_fell] at hremote
          exact hb hremote.symm
      · by_cases hb : E.src.remote = remote
        · rw [hb, hdone] at hr
          cases hr
          exact fun heq => hne heq.symm
        · exact hall u bodies ((Function.update_of_ne hb _ _).trans hr)
    · rw [hover]
      exact Multiset.mem_add.mpr (.inl (h.felled u bodies n (hhand hr) hdel c hc))

/-- **Every small step keeps the errand's account.** -/
theorem step (h : Tracks E has w) (hheld : w.Held) (hfells : E.fells = true) (huntransferred : E.Untransferred)
    (hos : HoldsTree (S.os E.src.remote) E.tree E.src has) (hfits : E.Fits S)
    (hstep : Step S.os S.isUnix_ w w') : Tracks E has w' := by
  cases hstep with
  | take hidle _ => exact h.take hidle
  | act htaken => exact h.act hheld hfells huntransferred hos hfits htaken
  | settle hdone hsettles => exact h.settle hheld huntransferred hdone hsettles

end Tracks

/-- The listing of the root, and nothing else in the queue. -/
theorem tracks_start {q : FmScheduler} {id : ℤ} (hq : q.tasks_ = [⟨id, FmResultOk, E.body (.list [])⟩])
    {disks : Bool → X} (hhas : ∀ n, has (disks E.src.remote) n ↔ n ∈ E.tree.nodes) :
    Tracks E has ⟨q, fun _ => .idle, disks, []⟩ := by
  have hroot : E.Belongs (.list []) := ⟨E.tree.root_mem, E.tree.root_isFolder⟩
  refine ⟨?_, fun t ht => ?_, ?_, fun n => ?_, fun _ _ _ hdone => (nomatch hdone),
    fun _ _ _ hdone => (nomatch hdone)⟩
  · rw [FmScheduler.Sorted, hq]
    exact List.pairwise_singleton _ _
  · rw [hq, List.mem_singleton] at ht
    exact ⟨_, hroot, by rw [ht]⟩
  · rw [coming, hq, Multiset.coe_singleton, Multiset.singleton_bind, Errand.item_body hroot]
    exact zero_add _
  · exact (hhas n).trans ⟨fun hn => ⟨hn, Multiset.notMem_zero _, fun _ _ hdone => nomatch hdone⟩, And.left⟩

end Workers

end EuhatExpert
