import EuhatExpert.FileMan.Place
import EuhatExpert.Machinery.Spawn

/-!
# FileMan/Errand — the tasks of a folder tree

A listing that is asked for with an action makes tasks for what is in the folder, listings among them, and
tasks for the folder itself.  What is done with a whole tree is the same however its tasks are ordered:
`bodies_eq` tells what `dispatchSubList` makes of a node, and `spawns` what comes of the listing of a node.
-/

namespace EuhatExpert

open Machinery

/-- What a listing is asked for with: to delete what is listed, or to copy or move it to another place. -/
inductive Purpose
  | del
  | downUp (dst : Place) (isMove_ : Bool)

/-- A folder tree at a place, and what is to be done with it. -/
structure Errand where
  tree : FolderTree
  src : Place
  purpose : Purpose
  other : ∀ dst isMove_, purpose = .downUp dst isMove_ → dst.toFmLoop = src.toFmLoop.other

/-- A task for a node: to list a folder, to delete or transfer a file, to create or delete a folder. -/
inductive Item
  | list (n : Node)
  | file (n : Node)
  | new (n : Node)
  | del (n : Node)
  deriving DecidableEq

namespace Errand

variable (E : Errand)

/-! ## The tasks -/

def action_ : SubsequentAction :=
  match E.purpose with
  | .del => .ActionDel
  | .downUp _ _ => .ActionDownUp

def peerPath_ (n : Node) : Bytes :=
  match E.purpose with
  | .del => []
  | .downUp dst _ => dst.path n

def isMove_ : Bool :=
  match E.purpose with
  | .del => false
  | .downUp _ isMove_ => isMove_

/-- The listing of a folder. -/
def listing (n : Node) : FmTaskGetSubList := ⟨E.src.path n, E.action_, E.peerPath_ n, E.isMove_⟩

/-- What is done with a file. -/
def fileBody (n : Node) : FmTask.Body :=
  match E.purpose with
  | .del => .del E.src.remote ⟨E.src.path n, 0, 100⟩
  | .downUp dst isMove_ =>
    if E.src.remote then
      .download ⟨dst.path n, E.src.path n, -1, E.tree.size n, E.tree.lastWriteTime n, isMove_⟩
    else .upload ⟨E.src.path n, dst.path n, -1, E.tree.size n, E.tree.lastWriteTime n, isMove_⟩

def body : Item → FmTask.Body
  | .list n => .getSubList E.src.remote (E.listing n)
  | .file n => E.fileBody n
  | .new n => .new (!E.src.remote) ⟨E.peerPath_ n, 1, false⟩
  | .del n => delBody E.src.toFmLoop (E.src.path n)

/-- Folders are deleted behind what is in them. -/
def fells : Bool :=
  match E.purpose with
  | .del => true
  | .downUp _ isMove_ => isMove_

/-- Folders are created at the other side. -/
def copies : Bool :=
  match E.purpose with
  | .del => false
  | .downUp _ _ => true

/-! ## What a listing makes -/

/-- The tasks for what is in a folder. -/
def inside (c : Node) : List Item :=
  if E.tree.isFolder c then (if E.copies then [.new c] else []) ++ [.list c] else [.file c]

/-- The tasks for the folder itself. -/
def closing (n : Node) : List Item :=
  (if E.fells then [.del n] else []) ++ (if E.copies then [.new n] else [])

variable {E} {n c : Node}

theorem lastBodies_eq (n : Node) :
    SubList.lastBodies E.src.toFmLoop (E.listing n) (E.src.path n) = (E.closing n).map E.body := by
  have hother := E.other
  rw [SubList.lastBodies, closing, listing, action_, isMove_, fells, copies]
  cases hpurpose : E.purpose with
  | del => simp [body]
  | downUp dst isMove_ =>
    have hpeer : E.peerPath_ n = dst.path n := by rw [peerPath_, hpurpose]
    cases isMove_ with
    | false => simp [body, hpeer, FmLoop.other]
    | true => simp [body, hpeer, FmLoop.other]

theorem bodies_entry (hc : c ∈ E.tree.children n) :
    (E.tree.entry c).bodies E.src.toFmLoop (E.listing n) (E.src.path n) = (E.inside c).map E.body := by
  have hpart := FolderTree.isPart_of_children hc
  obtain ⟨-, name, rfl⟩ := NameTree.mem_children.mp hc
  have hsrc : E.src.toFmLoop.combinePath (E.src.path n) name = E.src.path (name :: n) :=
    Place.combinePath_path hpart name
  have hother := E.other
  have hlisting : E.listing (name :: n)
      = ⟨E.src.path (name :: n), E.action_, E.peerPath_ (name :: n), E.isMove_⟩ := rfl
  rw [FolderTree.entry, inside, List.headD_cons, listing]
  cases hpurpose : E.purpose with
  | del =>
    have hpeer : ∀ m, E.peerPath_ m = [] := fun m => by rw [peerPath_, hpurpose]
    cases hfolder : E.tree.isFolder (name :: n)
    · simp [SubEntry.bodies, action_, body, fileBody, hsrc, hpurpose]
    · simp [SubEntry.bodies, action_, isMove_, copies, body, hlisting, hsrc, hpurpose, hpeer]
  | downUp dst isMove_ =>
    have hpeer : ∀ m, E.peerPath_ m = dst.path m := fun m => by rw [peerPath_, hpurpose]
    have hdst : E.src.toFmLoop.other.combinePath (dst.path n) name = dst.path (name :: n) := by
      rw [← hother dst isMove_ hpurpose]
      exact Place.combinePath_path hpart name
    have hside : E.src.toFmLoop.other.remote = !E.src.remote := rfl
    cases hfolder : E.tree.isFolder (name :: n)
    · cases hremote : E.src.remote
      all_goals simp [SubEntry.bodies, action_, Errand.isMove_, body, fileBody, hsrc, hdst, hpurpose, hpeer, hremote]
    · simp [SubEntry.bodies, action_, Errand.isMove_, copies, body, hlisting, hsrc, hdst, hpurpose, hpeer, hside]

/-- **What `dispatchSubList` makes of the listing of a folder.** -/
theorem bodies_eq {cs : List Node} (hcs : ∀ c ∈ cs, c ∈ E.tree.children n) :
    SubList.bodies E.src.toFmLoop (E.listing n) ⟨E.src.path n, cs.map E.tree.entry⟩
      = (cs.flatMap E.inside ++ E.closing n).map E.body := by
  rw [SubList.bodies, lastBodies_eq, List.map_append, List.flatMap_map, List.map_flatMap]
  refine congrArg (· ++ _) (List.flatMap_congr fun c hc => bodies_entry (hcs c hc))

/-! ## What comes of a listing -/

variable (E)

/-- The tasks the listing of a folder makes; other tasks make none. -/
def spawn : Item → Multiset Item
  | .list n => (∑ c ∈ E.tree.children n, (E.inside c : Multiset Item)) + (E.closing n : Multiset Item)
  | _ => 0

/-- The tasks for a node under the root. -/
def own (m : Node) : Multiset Item :=
  (E.inside m : Multiset Item) + if E.tree.isFolder m then (E.closing m : Multiset Item) else 0

/-- All the tasks that come of a task. -/
def whole : Item → Multiset Item
  | .list n => .list n ::ₘ ((E.closing n : Multiset Item) + ∑ m ∈ E.tree.below n, E.own m)
  | i => {i}

variable {E}

theorem bind_whole_closing (n : Node) :
    (E.closing n : Multiset Item).bind E.whole = (E.closing n : Multiset Item) := by
  have hself : ∀ i ∈ (E.closing n : Multiset Item), E.whole i = {i} := by
    intro i hi
    rw [Multiset.mem_coe, closing, List.mem_append] at hi
    rcases hi with hi | hi
    all_goals
      split_ifs at hi
      · rw [List.mem_singleton.mp hi, whole]
        exact nofun
      · cases hi
  rw [Multiset.bind_congr hself, Multiset.bind_singleton, Multiset.map_id']

theorem bind_whole_inside (c : Node) :
    (E.inside c : Multiset Item).bind E.whole = E.own c + ∑ m ∈ E.tree.below c, E.own m := by
  have hnew : ((if E.copies then [.new c] else [] : List Item) : Multiset Item).bind E.whole
      = (if E.copies then [.new c] else [] : List Item) := by
    cases E.copies <;> simp [whole]
  rw [own, inside]
  cases hfolder : E.tree.isFolder c
  · simp [whole, NameTree.below_eq_empty hfolder]
  · rw [if_pos rfl, if_pos rfl, ← Multiset.coe_add, Multiset.add_bind, hnew, Multiset.coe_singleton,
      Multiset.singleton_bind, whole, ← Multiset.singleton_add, add_assoc, add_assoc]

/-- **What comes of the listing of a folder** are its own tasks and those of all that is under it. -/
theorem spawns : Spawns E.spawn E.whole := by
  refine ⟨fun i => ?_⟩
  cases i with
  | list n =>
    rw [whole, spawn, Multiset.add_bind, sum_bind, bind_whole_closing, NameTree.sum_below,
      add_comm (E.closing n : Multiset Item)]
    exact congrArg (fun s => Item.list n ::ₘ (s + _))
      (Finset.sum_congr rfl fun c _ => (bind_whole_inside c).symm)
  | _ => rfl

/-- The tasks made of a listing, in the order in which it was written. -/
theorem coe_spawn {cs : List Node} (hnodup : cs.Nodup) (hcs : ∀ c, c ∈ cs ↔ c ∈ E.tree.children n) :
    ((cs.flatMap E.inside ++ E.closing n : List Item) : Multiset Item) = E.spawn (.list n) := by
  have hsum : ((cs.flatMap E.inside : List Item) : Multiset Item)
      = (cs.map fun c => (E.inside c : Multiset Item)).sum := by
    rw [← Multiset.coe_bind, Multiset.bind, Multiset.join, Multiset.map_coe, Multiset.sum_coe]
  have hchildren : E.tree.children n = cs.toFinset :=
    Finset.ext fun c => (hcs c).symm.trans List.mem_toFinset.symm
  rw [spawn, ← Multiset.coe_add, hsum, hchildren, List.sum_toFinset _ hnodup]

/-! ## Which node a task is for -/

variable (E)

/-- The node of a path on the other side. -/
def peerNode (path : Bytes) : Node :=
  match E.purpose with
  | .del => []
  | .downUp dst _ => dst.node path

def item : FmTask.Body → Item
  | .getSubList _ t => .list (E.src.node t.path_)
  | .download t => .file (E.src.node t.peerPath_)
  | .upload t => .file (E.src.node t.localPath_)
  | .del _ t => if t.isFolder_ = 0 then .file (E.src.node t.path_) else .del (E.src.node t.path_)
  | .new _ t => .new (E.peerNode t.path_)
  | .connect | .copy _ _ => .list []

/-- The tasks that come of the listing of the root. -/
def Belongs : Item → Prop
  | .list n => n ∈ E.tree.nodes ∧ E.tree.isFolder n = true
  | .file n => n ∈ E.tree.nodes ∧ E.tree.isFolder n = false
  | .new n => n ∈ E.tree.nodes ∧ E.tree.isFolder n = true ∧ E.copies = true
  | .del n => n ∈ E.tree.nodes ∧ E.tree.isFolder n = true ∧ E.fells = true

variable {E} {i j : Item}

/-- **A task tells what it is for.** -/
theorem item_body (h : E.Belongs i) : E.item (E.body i) = i := by
  cases i with
  | list n => exact congrArg Item.list (Place.node_path (E.tree.isPart n h.1))
  | file n =>
    have hnode := Place.node_path (P := E.src) (E.tree.isPart n h.1)
    rw [body, fileBody]
    cases E.purpose with
    | del => simp [item, hnode]
    | downUp dst isMove_ => cases E.src.remote <;> simp [item, hnode]
  | new n =>
    obtain ⟨hn, -, hcopies⟩ := h
    rw [copies] at hcopies
    rw [body, item, peerNode, peerPath_]
    cases hpurpose : E.purpose with
    | del =>
      rw [hpurpose] at hcopies
      cases hcopies
    | downUp dst isMove_ => exact congrArg Item.new (Place.node_path (E.tree.isPart n hn))
  | del n => simp [body, delBody, item, Place.node_path (P := E.src) (E.tree.isPart n h.1)]

theorem belongs_of_mem_spawn (h : E.Belongs i) (hj : j ∈ E.spawn i) : E.Belongs j := by
  cases i with
  | list n =>
    rw [spawn, Multiset.mem_add, Multiset.mem_sum, Multiset.mem_coe, closing, List.mem_append] at hj
    rcases hj with ⟨c, hc, hj⟩ | hj | hj
    · have hmem := (NameTree.mem_children.mp hc).1
      rw [Multiset.mem_coe, inside] at hj
      cases hfolder : E.tree.isFolder c
      · rw [hfolder, if_neg Bool.false_ne_true, List.mem_singleton] at hj
        rw [hj]
        exact ⟨hmem, hfolder⟩
      · rw [hfolder, if_pos rfl, List.mem_append, List.mem_singleton] at hj
        rcases hj with hj | rfl
        · split_ifs at hj with hcopies
          · rw [List.mem_singleton.mp hj]
            exact ⟨hmem, hfolder, hcopies⟩
          · cases hj
        · exact ⟨hmem, hfolder⟩
    · split_ifs at hj with hfells
      · rw [List.mem_singleton.mp hj]
        exact ⟨h.1, h.2, hfells⟩
      · cases hj
    · split_ifs at hj with hcopies
      · rw [List.mem_singleton.mp hj]
        exact ⟨h.1, h.2, hcopies⟩
      · cases hj
  | _ => cases hj

/-! ## What takes a node away -/

variable (E)

/-- The task that takes a node of a tree away that is deleted. -/
def fell (c : Node) : Item := if E.tree.isFolder c then .del c else .file c

variable {E}

theorem count_fell_closing (hfells : E.fells = true) (hn : E.tree.isFolder n = true) (c : Node) :
    (E.closing n : Multiset Item).count (E.fell c) = if c = n then 1 else 0 := by
  rw [closing, fell, hfells, if_pos rfl, Multiset.coe_count]
  by_cases hcn : c = n
  · subst hcn
    cases E.copies <;> simp [hn]
  · cases E.tree.isFolder c <;> cases E.copies <;> simp [hcn, Ne.symm hcn]

theorem count_fell_inside (c m : Node) : (E.inside m : Multiset Item).count (E.fell c)
    = if E.tree.isFolder m = false ∧ c = m then 1 else 0 := by
  rw [inside, fell, Multiset.coe_count]
  by_cases hcm : c = m
  · subst hcm
    cases E.tree.isFolder c <;> cases E.copies <;> simp
  · cases E.tree.isFolder m <;> cases E.tree.isFolder c <;> cases E.copies <;> simp [hcm, Ne.symm hcm]

theorem count_fell_own (hfells : E.fells = true) (c m : Node) :
    (E.own m).count (E.fell c) = if c = m then 1 else 0 := by
  rw [own, Multiset.count_add, count_fell_inside]
  cases hm : E.tree.isFolder m
  · simp
  · rw [if_pos rfl, count_fell_closing hfells hm]
    simp

/-- **A node is taken away once by what comes of the listing of a folder it is in.** -/
theorem count_fell_list (hfells : E.fells = true) (hn : E.tree.isFolder n = true) (c : Node) :
    (E.whole (.list n)).count (E.fell c)
      = (if c = n then 1 else 0) + if c ∈ E.tree.below n then 1 else 0 := by
  have hhead : E.fell c ≠ .list n := by
    rw [fell]
    split_ifs
    · exact nofun
    · exact nofun
  rw [whole, Multiset.count_cons_of_ne hhead, Multiset.count_add, count_fell_closing hfells hn,
    Multiset.count_sum', Finset.sum_congr rfl fun m _ => count_fell_own hfells c m, Finset.sum_ite_eq]

end Errand

end EuhatExpert
