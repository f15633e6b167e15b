import EuhatExpert.FileMan.CopyTree
import EuhatExpert.FileMan.MoveTasks

/-!
# FileMan/MoveTree — moving a folder with all that is in it

To move is to copy, and to delete behind oneself.  But only folders are deleted (`MoveTasks`): a file that was copied
stays where it was, the folder it is in cannot be deleted, and its task stays at the front of the queue.  So folders
are moved exactly if there is no file in them, and they are no deeper than folders are deleted (`moves_iff`).
-/

namespace EuhatExpert

open Machinery Sides

variable {X : Type}

/-- No file stands where a folder of the tree is to be. -/
def FolderTree.Clear (T : FolderTree) (f : Node → Option Entry) : Prop :=
  ∀ n ∈ T.nodes, T.isFolder n = true → f n = none ∨ f n = some .folder

/-- Where no file is in the way, a folder of a tree can be created at a place, and with it those it is in. -/
def MakesFolders (os : Os X) (T : FolderTree) (P : Place) (view : X → Node → Option Entry) : Prop :=
  ∀ x n, n ∈ T.nodes → T.isFolder n = true → T.Clear (view x) →
    (os.opMkDir (P.path n) (os.whPrepareFolder (P.path n) x)).1 = true ∧
      ∀ m, view (os.opMkDir (P.path n) (os.whPrepareFolder (P.path n) x)).2 m
        = if m <:+ n then some .folder else view x m

namespace Errand

/-- A move on two disks, of which `view` tells what is at the nodes: the tree stands on the one, where deleting folders
leaves files, and the other takes its folders. -/
structure MovesOn (E : Errand) (dst : Place) (S : Sides.Setup X) (view : Bool → X → Node → Option Entry)
    (disks : Bool → X) : Prop where
  purpose : E.purpose = .downUp dst true
  fits : E.Fits S
  holds : HoldsTree (S.os E.src.remote) E.tree E.src fun x n => (view E.src.remote x n).isSome = true
  spares : ∀ path x n, E.tree.isFolder n = false →
    view E.src.remote ((S.os E.src.remote).opRmDir path x).2 n = view E.src.remote x n
  makes : MakesFolders (S.os !E.src.remote) E.tree dst (view !E.src.remote)
  there : ∀ n, (view E.src.remote (disks E.src.remote) n).isSome = true ↔ n ∈ E.tree.nodes
  folders : ∀ n ∈ E.tree.nodes, E.tree.isFolder n = true → view E.src.remote (disks E.src.remote) n = some .folder
  clear : E.tree.Clear (view (!E.src.remote) (disks !E.src.remote))

/-- In every run the queue ends empty, and then the tree is at the other side as it was, and is gone from its own.
No file is gone before it is at the other side. -/
structure Moves (E : Errand) (S : Sides.Setup X) (view : Bool → X → Node → Option Entry) (q : FmScheduler)
    (disks : Bool → X) : Prop where
  safe : ∀ es s, Run (Sides.Step S) (ready q disks) es s → ∀ n ∈ E.tree.nodes, E.tree.isFolder n = false →
    view E.src.remote (s.disks E.src.remote) n = view E.src.remote (disks E.src.remote) n ∨
      view (!E.src.remote) (s.disks !E.src.remote) n = view E.src.remote (disks E.src.remote) n
  ends : ∃ N, ∀ es s, Run (Sides.Step S) (ready q disks) es s → es.length ≤ N
  drains : ∀ es s, Run (Sides.Step S) (ready q disks) es s → (∀ s', ¬ Acts S s s') → s.tasks_ = []
  gone : ∀ es s, Run (Sides.Step S) (ready q disks) es s → s.tasks_ = [] →
    ∀ n ∈ E.tree.nodes, view E.src.remote (s.disks E.src.remote) n = none
  copied : ∀ es s, Run (Sides.Step S) (ready q disks) es s → s.tasks_ = [] → ∀ n ∈ E.tree.nodes,
    view (!E.src.remote) (s.disks !E.src.remote) n = view E.src.remote (disks E.src.remote) n

variable {E : Errand} {dst : Place} {S : Sides.Setup X} {view : Bool → X → Node → Option Entry} {q : FmScheduler} {id : ℤ}
  {disks : Bool → X} {es : List (List FmTask)} {s : Sides X} {n m : Node} {i : Item}

namespace MovesOn

variable (h : E.MovesOn dst S view disks)

include h

theorem fells_eq : E.fells = true := by rw [fells, h.purpose]

theorem copies_eq : E.copies = true := by rw [copies, h.purpose]

/-- What creating a folder at the other side comes to. -/
theorem deed_new (hn : E.Belongs (.new n)) {x : X} (hclear : E.tree.Clear (view (!E.src.remote) x)) (loop : FmLoop) :
    (Workers.deed (S.os !E.src.remote) loop x (E.body (.new n))).1 = some [] ∧
      ∀ m, view (!E.src.remote) (Workers.deed (S.os !E.src.remote) loop x (E.body (.new n))).2 m
        = if m <:+ n then some .folder else view (!E.src.remote) x m := by
  obtain ⟨hmade, hview⟩ := h.makes x n hn.1 hn.2.1 hclear
  have hpath : E.peerPath_ n = dst.path n := by rw [peerPath_, h.purpose]
  have hcreated : FmLocal.created (S.os !E.src.remote) ⟨dst.path n, 1, false⟩ x
      = (S.os !E.src.remote).opMkDir (dst.path n) ((S.os !E.src.remote).whPrepareFolder (dst.path n) x) :=
    if_pos one_ne_zero
  rw [body, Workers.deed, hpath, hcreated, hmade, Bool.true_or, if_pos rfl]
  exact ⟨rfl, hview⟩

theorem creates {x : X} (hclear : E.tree.Clear (view (!E.src.remote) x)) : E.Creates S x := fun n hn => by
  rw [(h.deed_new hn hclear ⟨!E.src.remote, S.isUnix_⟩).1, Option.isSome_some]

/-- What is in the files stays where it was. -/
theorem file_stays (hq : q.tasks_ = [⟨id, FmResultOk, E.body (.list [])⟩])
    (hrun : Run (Sides.Step S) (ready q disks) es s) (hfile : E.tree.isFolder n = false) :
    view E.src.remote (s.disks E.src.remote) n = view E.src.remote (disks E.src.remote) n := by
  refine Sides.stays_of_run (P := fun x => view E.src.remote x n = view E.src.remote (disks E.src.remote) n)
    (fun path x hx => (h.spares path x n hfile).trans hx) (fun t ht => ?_) rfl hrun
  rw [hq, List.mem_singleton] at ht
  rw [ht]
  exact ⟨rfl, by rw [listing, action_, h.purpose]⟩

end MovesOn

end Errand

/-! ## The folders at the other side -/

namespace Workers

/-- A folder was created: its task is over, or done. -/
def Created (E : Errand) (w : Workers X) (n : Node) : Prop :=
  .new n ∈ items E w.ended ∨
    ∃ t bodies, w.hand (!E.src.remote) = .done t (some bodies) ∧ E.item t.body = .new n

/-- No file is in the way of a folder, and the folders that were created are there. -/
structure Made (E : Errand) (view : Bool → X → Node → Option Entry) (w : Workers X) : Prop where
  clear : E.tree.Clear (view (!E.src.remote) (w.disks !E.src.remote))
  made : ∀ n, Created E w n → view (!E.src.remote) (w.disks !E.src.remote) n = some .folder

variable {E : Errand} {dst : Place} {S : Sides.Setup X} {view : Bool → X → Node → Option Entry} {disks : Bool → X}
  {has : X → Node → Prop} {w w' : Workers X}

namespace Made

variable (h : Made E view w)

include h

theorem take {remote : Bool} {t : FmTask} :
    Made E view { w with hand := Function.update w.hand remote (.taken t) } := by
  refine ⟨h.clear, fun n hn => h.made n (hn.imp_right ?_)⟩
  rintro ⟨u, bodies, hdone, hitem⟩
  exact ⟨u, bodies, (Hand.eq_of_update (by simp) hdone).2, hitem⟩

/-- What is done at the side the folders come from. -/
theorem act_src {remote : Bool} {t : FmTask} {out : Outcome} {x : X} (hne : (!E.src.remote) ≠ remote) :
    Made E view { w with
      hand := Function.update w.hand remote (.done t out)
      disks := Function.update w.disks remote x } := by
  refine ⟨?_, fun n hn => ?_⟩
  · dsimp only
    rw [Function.update_of_ne hne]
    exact h.clear
  · rw [Created] at hn
    dsimp only at hn ⊢
    rw [Function.update_of_ne hne] at hn ⊢
    exact h.made n hn

/-- A folder is created at the other side. -/
theorem act_new {t : FmTask} {out : Outcome} {x : X} (hitem : E.item t.body = .new n)
    (hview : ∀ m, view (!E.src.remote) x m
      = if m <:+ n then some .folder else view (!E.src.remote) (w.disks !E.src.remote) m) :
    Made E view { w with
      hand := Function.update w.hand (!E.src.remote) (.done t out)
      disks := Function.update w.disks (!E.src.remote) x } := by
  refine ⟨?_, fun m hm => ?_⟩
  · dsimp only
    rw [Function.update_self]
    intro m hm hfolder
    rw [hview]
    split_ifs
    · exact .inr rfl
    · exact h.clear m hm hfolder
  · dsimp only
    rw [Function.update_self, hview]
    split_ifs with hsuffix
    · rfl
    · refine h.made m (hm.imp_right ?_)
      rintro ⟨u, bodies, hdone, hu⟩
      -- the task just done is the one for `n`
      dsimp only at hdone
      rw [Function.update_self] at hdone
      obtain ⟨rfl, -⟩ := Hand.done.inj hdone
      obtain rfl := Item.new.inj (hitem.symm.trans hu)
      exact absurd List.suffix_rfl hsuffix

theorem act (hmoves : E.MovesOn dst S view disks) (huntransferred : E.Untransferred) (hheld : w.Held)
    (htracks : Tracks E has w) {remote : Bool} {t : FmTask} (htaken : w.hand remote = .taken t) :
    Made E view { w with
      hand := Function.update w.hand remote
        (.done t (deed (S.os remote) ⟨remote, S.isUnix_⟩ (w.disks remote) t.body).1)
      disks := Function.update w.disks remote
        (deed (S.os remote) ⟨remote, S.isUnix_⟩ (w.disks remote) t.body).2 } := by
  by_cases hr : (!E.src.remote) = remote
  · subst hr
    obtain ⟨hmem, hside⟩ := hheld _ t (.inl htaken)
    obtain ⟨hi, hbody⟩ := htracks.item_body hmem
    have hremote := Errand.eq_side huntransferred hi hbody hside
    -- the other side only creates folders
    obtain ⟨n, hitem⟩ : ∃ n, E.item t.body = .new n := by
      cases hitem : E.item t.body with
      | new n => exact ⟨n, rfl⟩
      | _ =>
        rw [hitem] at hremote
        exact absurd hremote (Bool.not_ne_self _)
    rw [hitem] at hi hbody
    refine h.act_new hitem ?_
    rw [hbody]
    exact (hmoves.deed_new hi h.clear ⟨!E.src.remote, S.isUnix_⟩).2
  · exact h.act_src hr

theorem settle (huntransferred : E.Untransferred) (hheld : w.Held) (htracks : Tracks E has w) {remote : Bool}
    {t : FmTask} {out : Outcome} {s : FmScheduler} (hdone : w.hand remote = .done t out) :
    Made E view { w with
      scheduler_ := s
      hand := Function.update w.hand remote .idle
      ended := w.ended ++ if out.isSome then [t] else [] } := by
  refine ⟨h.clear, fun n hn => h.made n ?_⟩
  rcases hn with hn | ⟨u, bodies, hdone', hitem⟩
  · dsimp only at hn
    cases out with
    | none => exact .inl (by rwa [Option.isSome_none, if_neg Bool.false_ne_true, List.append_nil] at hn)
    | some bodies =>
      rw [items_append, Multiset.mem_add] at hn
      rcases hn with hn | hn
      · exact .inl hn
      · have hitem : E.item t.body = .new n := (Multiset.mem_singleton.mp hn).symm
        obtain ⟨hmem, hside⟩ := hheld remote t (.inr ⟨_, hdone⟩)
        obtain ⟨hi, hbody⟩ := htracks.item_body hmem
        have hremote := Errand.eq_side huntransferred hi hbody hside
        rw [hitem, Errand.side] at hremote
        exact .inr ⟨t, bodies, hremote ▸ hdone, hitem⟩
  · exact .inr ⟨u, bodies, (Hand.eq_of_update (by simp) hdone').2, hitem⟩

/-- **Every small step leaves the folders that are there.** -/
theorem step (hmoves : E.MovesOn dst S view disks) (huntransferred : E.Untransferred) (hheld : w.Held)
    (htracks : Tracks E has w) (hstep : Step S.os S.isUnix_ w w') : Made E view w' := by
  cases hstep with
  | take _ _ => exact h.take
  | act htaken => exact h.act hmoves huntransferred hheld htracks htaken
  | settle hdone _ => exact h.settle huntransferred hheld htracks hdone

end Made

end Workers

namespace Errand

variable {E : Errand} {dst : Place} {S : Sides.Setup X} {view : Bool → X → Node → Option Entry} {q : FmScheduler} {id : ℤ}
  {disks : Bool → X}

section Moves

variable (h : E.MovesOn dst S view disks) (hq : q.tasks_ = [⟨id, FmResultOk, E.body (.list [])⟩])

include h hq

/-- Folders that are not too deep are moved. -/
theorem moves_of_folders (hfolders : ∀ n ∈ E.tree.nodes, E.tree.isFolder n = true) (hshallow : E.Shallow) :
    E.Moves S view q disks := by
  have hsmooth := fun {es s} (hrun : Run (Sides.Step S) (ready q disks) es s) =>
    Workers.smooth_of_run (J := Workers.Made E view) h.fells_eq (.inr hfolders) h.fits h.holds hq h.there
      ⟨h.clear, fun n hn => hn.elim (fun hn => absurd hn (Multiset.notMem_zero _))
        fun ⟨_, _, hdone, _⟩ => (by cases hdone)⟩
      (fun w w' hheld htracks hmade hstep => hmade.step h (.inr hfolders) hheld htracks hstep)
      (fun w hmade => h.creates hmade.clear) hshallow hrun
  refine ⟨fun es s hrun n hn hfile => absurd (hfile.symm.trans (hfolders n hn)) Bool.false_ne_true,
    ⟨4 * (3 * Multiset.card (E.whole (.list [])) + 4) + 3, fun es s hrun => ?_⟩,
    fun es s hrun hstop => nil_of_run (fun es s hrun => ?_) hrun hstop, fun es s hrun hnil n hn => ?_,
    fun es s hrun hnil n hn => ?_⟩
  · obtain ⟨w, -, ⟨htracks, -⟩, -, hlen⟩ := hsmooth hrun
    have hprogress := htracks.progress_le
    omega
  · obtain ⟨w, hshows, ⟨htracks, hw, -⟩, -⟩ := hsmooth hrun
    exact ⟨w, hshows, fun t => hw.plain_ok htracks h.fits (.inr hfolders)⟩
  · obtain ⟨w, hshows, ⟨htracks, -⟩, -⟩ := hsmooth hrun
    rw [tasks_, hshows.scheduler] at hnil
    have hgone := htracks.not_has h.fells_eq hnil (n := n)
    rwa [← hshows.disks, Bool.not_eq_true, Option.isSome_eq_false_iff, Option.isNone_iff_eq_none] at hgone
  · obtain ⟨w, hshows, ⟨htracks, -, -, hmade⟩, -⟩ := hsmooth hrun
    rw [tasks_, hshows.scheduler] at hnil
    rw [hshows.disks, h.folders n hn (hfolders n hn)]
    refine hmade.made n (.inl ?_)
    have haccount := htracks.account
    rw [Workers.coming, hnil, Multiset.coe_nil, Multiset.zero_bind, add_zero] at haccount
    rw [haccount]
    exact new_mem_whole h.copies_eq hn (hfolders n hn)

/-- Where a folder is moved, there is no file in it. -/
theorem folders_of_moves (hmoves : E.Moves S view q disks) : ∀ n ∈ E.tree.nodes, E.tree.isFolder n = true := by
  intro n hn
  by_contra hfile
  obtain ⟨es, s, hrun, hnil⟩ := exists_drained hmoves.ends hmoves.drains
  have hstays := h.file_stays hq hrun (Bool.eq_false_iff.mpr hfile)
  have hthere := (h.there n).mpr hn
  rw [← hstays, hmoves.gone es s hrun hnil n hn] at hthere
  cases hthere

/-- **A folder is moved with all that is in it exactly if there are only folders in it, and they are not too deep.** -/
theorem moves_iff : E.Moves S view q disks ↔ (∀ n ∈ E.tree.nodes, E.tree.isFolder n = true) ∧ E.Shallow := by
  refine ⟨fun hmoves => ?_, fun ⟨hfolders, hshallow⟩ => moves_of_folders h hq hfolders hshallow⟩
  have hfolders := folders_of_moves h hq hmoves
  obtain ⟨es, s, hrun, hnil⟩ := exists_drained hmoves.ends hmoves.drains
  exact ⟨hfolders, Workers.shallow_of_drained h.fells_eq (.inr hfolders) h.fits h.holds hq h.there hrun hnil⟩

end Moves

end Errand

/-! ## A folder and a file, downloaded and deleted -/

namespace TreeDisk

variable {T : FolderTree} {P : Place} {ns : List Node}

/-- The disk takes the folders of the tree. -/
theorem makesFolders_os : MakesFolders (os T P ns) T P fun x => x := by
  intro x n hn _ _
  have hnode : P.node (P.path n) = n := Place.node_path (T.isPart n hn)
  refine ⟨rfl, fun m => ?_⟩
  change opMkDir (P.node (P.path n)) (whPrepareFolder P (P.path n) x) m = _
  rw [whPrepareFolder, hnode, opMkDir]
  split_ifs with hsuffix hroot
  · rfl
  · rfl
  · rw [opMkDir, if_neg fun h => hsuffix (h.trans (List.tail_suffix n))]

/-- Deleting a folder leaves the files. -/
theorem opRmDir_of_file (path : Bytes) (x : TreeDisk) {n : Node} (hfile : T.isFolder n = false) :
    (opRmDir T P ns path x).2 n = x n := by
  rw [opRmDir]
  split_ifs with hthere
  · refine Function.update_of_ne (fun hn => ?_) _ _
    rw [← hn, hfile, Bool.false_and, Bool.false_and] at hthere
    cases hthere
  · rfl

end TreeDisk

namespace Errand

/-- What is at the nodes of a disk. -/
def viewOf (_ : Bool) (x : TreeDisk) : Node → Option Entry := x

/-- A folder with one folder in it. -/
def oneFolder : FolderTree :=
  { oneFile with
    isFolder := fun _ => true
    root_isFolder := rfl
    parent_isFolder := fun _ => rfl }

/-- The download of a tree from the server, to be deleted there. -/
def moving (T : FolderTree) : Errand :=
  ⟨T, folderDown 0, .downUp localFolder true, fun dst isMove_ h => by cases h; rfl⟩

def movingSetup (T : FolderTree) : Sides.Setup TreeDisk :=
  ⟨fun remote => TreeDisk.os T (if remote then folderDown 0 else localFolder) [[], [[102]]], []⟩

/-- The server has the tree, the local disk nothing. -/
def movingDisks (disk : TreeDisk) (remote : Bool) : TreeDisk := if remote then disk else fun _ => none

/-- A disk with the two folders. -/
def oneFolderDisk : TreeDisk := fun n => if n ∈ [[], [[102]]] then some .folder else none

theorem mem_twoNodes (n : Node) : n ∈ [[], [[102]]] ↔ n ∈ oneFile.nodes := by
  rw [mem_oneFile]
  simp

theorem movesOn_moving {T : FolderTree} {disk : TreeDisk} (hns : ∀ n, n ∈ [[], [[102]]] ↔ n ∈ T.nodes)
    (hentry : ∀ n ∈ T.nodes, (T.entry n).Listable) (hdisk : ∀ n, TreeDisk.Has disk n ↔ n ∈ T.nodes)
    (hfolders : ∀ n ∈ T.nodes, T.isFolder n = true → disk n = some .folder) :
    (moving T).MovesOn localFolder (movingSetup T) viewOf (movingDisks disk) where
  purpose := rfl
  fits := ⟨rfl, fun _ => rfl⟩
  holds := TreeDisk.holdsTree_os (by decide) hns
    (fun _ hn => isCStr_path_oneFile (Nat.zero_le _) ((mem_twoNodes _).mp ((hns _).mpr hn))) hentry
  spares := fun path x _ hfile => TreeDisk.opRmDir_of_file path x hfile
  makes := TreeDisk.makesFolders_os
  there := hdisk
  folders := hfolders
  clear := fun _ _ _ => .inl rfl

/-- **A folder is moved with the folder in it.** -/
theorem moves_iff_here : (moving oneFolder).Moves (movingSetup oneFolder) viewOf
    (FmScheduler.new.add ((moving oneFolder).body (.list []))) (movingDisks oneFolderDisk) := by
  have hlistable : ∀ n ∈ oneFolder.nodes, (oneFolder.entry n).Listable := by
    intro n hn
    obtain rfl | rfl := mem_oneFile.mp hn
    · exact ⟨by decide, by decide⟩
    · exact ⟨by decide, by decide⟩
  have hdisk : ∀ n, TreeDisk.Has oneFolderDisk n ↔ n ∈ oneFolder.nodes := by
    intro n
    rw [TreeDisk.Has, oneFolderDisk, ← show _ ↔ n ∈ oneFolder.nodes from mem_twoNodes n]
    split_ifs with hn
    · exact iff_of_true rfl hn
    · exact iff_of_false (by simp) hn
  have hmoves := movesOn_moving (T := oneFolder) mem_twoNodes hlistable hdisk fun n hn _ => if_pos ((mem_twoNodes n).mpr hn)
  refine (moves_iff hmoves rfl).mpr ⟨fun _ _ => rfl, fun n c hc => ?_⟩
  obtain ⟨hc, a, rfl⟩ := NameTree.mem_children.mp hc
  obtain h | h := mem_oneFile.mp hc
  · cases h
  · obtain ⟨-, rfl⟩ := List.cons.inj h
    exact (by decide : 1 + 0 ≤ 930)

/-- What a move of the folder with the file needs. -/
theorem movesOn_oneFile : (moving oneFile).MovesOn localFolder (movingSetup oneFile) viewOf (movingDisks oneFileDisk) := by
  refine movesOn_moving mem_twoNodes (fun _ hn => listable_oneFile hn) has_oneFileDisk fun n hn hfolder => ?_
  obtain rfl | rfl := mem_oneFile.mp hn
  · rfl
  · cases hfolder

/-- **A folder with a file in it is not moved**, whatever can be done on the two disks: in every run the file is still
where it was. -/
theorem not_moves :
    (∀ es s, Run (Sides.Step (movingSetup oneFile))
        (ready (FmScheduler.new.add ((moving oneFile).body (.list []))) (movingDisks oneFileDisk)) es s →
      s.disks true [[102]] = some (.file [1])) ∧
    ¬ ∀ (E : Errand) (dst : Place) (S : Sides.Setup TreeDisk) (view : Bool → TreeDisk → Node → Option Entry)
      (content : Node → Bytes) (holds : TreeDisk → (Node → Bytes) → Prop) (f₀ : Node → Bytes) (q : FmScheduler) (id : ℤ)
      (disks : Bool → TreeDisk), E.MovesOn dst S view disks →
      ReadsTree (S.os E.src.remote) E.tree E.src content (disks E.src.remote) →
      TakesTree (S.os !E.src.remote) E.tree dst holds → holds (disks !E.src.remote) f₀ →
      q.tasks_ = [⟨id, FmResultOk, E.body (.list [])⟩] → E.Moves S view q disks := by
  have hq : (FmScheduler.new.add ((moving oneFile).body (.list []))).tasks_
      = [⟨0, FmResultOk, (moving oneFile).body (.list [])⟩] := rfl
  refine ⟨fun es s hrun => movesOn_oneFile.file_stays hq hrun (n := [[102]]) rfl, fun h => ?_⟩
  have hsize : (1 : ℤ) < 2 ^ 63 := by decide
  have hreads : ReadsTree ((movingSetup oneFile).os true) oneFile (folderDown 0) (fun n => Disk.contentOf (oneFileDisk n))
      oneFileDisk :=
    TreeDisk.readsTree_os (by decide) mem_twoNodes (fun _ hn => isCStr_path_oneFile (Nat.zero_le _) hn)
      (fun _ hn => listable_oneFile hn) fun n hn => (has_oneFileDisk n).mpr hn
  have htakes : TakesTree ((movingSetup oneFile).os false) oneFile localFolder (TreeDisk.Holds oneFile) :=
    TreeDisk.takesTree_os fun _ _ => ⟨zero_le_one, hsize⟩
  have hempty : TreeDisk.Holds oneFile (fun _ => none) fun _ => [] := fun _ _ _ => ⟨by simp, rfl⟩
  have hmoves := h _ _ _ _ _ _ _ _ _ _ movesOn_oneFile hreads htakes hempty hq
  exact Bool.false_ne_true (folders_of_moves movesOn_oneFile hq hmoves [[102]] (mem_oneFile.mpr (.inr rfl)))

end Errand

end EuhatExpert
