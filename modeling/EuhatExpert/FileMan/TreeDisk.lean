import EuhatExpert.FileMan.CopyParts

/-!
# FileMan/TreeDisk — a disk with room for one folder tree

The disk holds, at a place, nodes of a tree and nothing else, and does with them what a file system does.  So
there are systems that hold a folder tree, systems that one is read from, and systems that one is written to.
-/

namespace EuhatExpert

open Machinery

/-- What stands at the nodes. -/
abbrev TreeDisk := Node → Option Entry

namespace TreeDisk

variable (T : FolderTree) (P : Place) (ns : List Node)

/-- Is there nothing in a folder? -/
def isEmpty (x : TreeDisk) (n : Node) : Bool := ns.all fun c => !(decide (c ∈ T.children n) && (x c).isSome)

def opUnlink (path : Bytes) (x : TreeDisk) : Bool × TreeDisk :=
  if !T.isFolder (P.node path) && (x (P.node path)).isSome then (true, Function.update x (P.node path) none)
  else (false, x)

def opRmDir (path : Bytes) (x : TreeDisk) : Bool × TreeDisk :=
  if T.isFolder (P.node path) && (x (P.node path)).isSome && isEmpty T ns x (P.node path) then
    (true, Function.update x (P.node path) none)
  else (false, x)

/-- The folder at a node, and those it is in. -/
def opMkDir (n : Node) (x : TreeDisk) : TreeDisk := fun m => if m <:+ n then some .folder else x m

def whPrepareFolder (path : Bytes) (x : TreeDisk) : TreeDisk :=
  if P.node path = [] then x else opMkDir (P.node path).tail x

def fopenAppend (path : Bytes) (x : TreeDisk) : Bool × TreeDisk :=
  match x (P.node path) with
  | some (.file _) => (true, x)
  | some .folder => (false, x)
  | none => (true, Function.update x (P.node path) (some (.file [])))

/-- What is listed of a folder: the nodes are looked up in `ns`. -/
def listing (x : TreeDisk) (n : Node) : List Node := ns.filter fun c => decide (c ∈ T.children n) && (x c).isSome

def whGetSubFiles (path : Bytes) (x : TreeDisk) : Option Bytes :=
  if T.isFolder (P.node path) && (x (P.node path)).isSome then
    some (SubList.write ⟨path, (listing T ns x (P.node path)).map T.entry⟩)
  else none

/-- The system on the disk, with room for every file. -/
def os : Os TreeDisk where
  isUnix_ := P.isUnix_
  fopenRead path x := !T.isFolder (P.node path) && (x (P.node path)).isSome
  fopenAppend := fopenAppend P
  fopenCreate path x := (true, Function.update x (P.node path) (some (.file [])))
  whGetFileSize path x := (Disk.contentOf (x (P.node path))).length
  fread path pos n x := ((Disk.contentOf (x (P.node path))).drop pos.toNat).take n
  fwrite path buf x :=
    Function.update x (P.node path) (some (.file (Disk.contentOf (x (P.node path)) ++ buf)))
  opUnlink := opUnlink T P
  opMkDir path x := (true, opMkDir (P.node path) x)
  opRmDir := opRmDir T P ns
  whPrepareFolder := whPrepareFolder P
  freeSpaceInMB _ _ := 2 ^ 62
  whSetFileLastWriteTime _ _ x := x
  whGetSubFiles := whGetSubFiles T P ns

/-- Something stands at the node. -/
def Has (x : TreeDisk) (n : Node) : Prop := (x n).isSome = true

variable {T P ns} {x : TreeDisk} {n m : Node}

theorem has_update_none : Has (Function.update x n none) m ↔ Has x m ∧ m ≠ n := by
  rw [Has, Has, Function.update_apply]
  split_ifs with h
  · exact ⟨fun hnone => (nomatch hnone), fun ⟨_, hne⟩ => absurd h hne⟩
  · exact (and_iff_left h).symm

theorem isEmpty_iff (hns : ∀ n, n ∈ ns ↔ n ∈ T.nodes) :
    isEmpty T ns x n = true ↔ ∀ c ∈ T.children n, ¬ Has x c := by
  rw [isEmpty, List.all_eq_true]
  refine ⟨fun h c hc hx => ?_, fun h c _ => ?_⟩
  · have := h c ((hns c).mpr (NameTree.mem_children.mp hc).1)
    rw [decide_eq_true hc, Bool.true_and, hx] at this
    cases this
  · by_cases hc : c ∈ T.children n
    · rw [Bool.eq_false_iff.mpr (h c hc), Bool.and_false]
      rfl
    · rw [decide_eq_false hc, Bool.false_and]
      rfl

section Holds

variable (hnodup : ns.Nodup) (hns : ∀ n, n ∈ ns ↔ n ∈ T.nodes) (hpath : ∀ n ∈ T.nodes, IsCStr (P.path n))
  (hentry : ∀ n ∈ T.nodes, (T.entry n).Listable)

include hnodup hns hpath hentry

/-- What is there of a folder is listed. -/
theorem listed_os (x : TreeDisk) (hn : n ∈ T.nodes) (hfolder : T.isFolder n = true) (hx : Has x n) :
    ∃ (bytes : Bytes) (cs : List Node), (os T P ns).whGetSubFiles (P.path n) x = some bytes ∧
      SubList.read bytes = .ok ⟨P.path n, cs.map T.entry⟩ ∧ cs.Nodup ∧ ∀ c, c ∈ cs ↔ c ∈ T.children n ∧ Has x c := by
  have hnode : P.node (P.path n) = n := Place.node_path (T.isPart _ hn)
  have hlisting : ∀ c, c ∈ listing T ns x n ↔ c ∈ T.children n ∧ Has x c := by
    intro c
    rw [listing, List.mem_filter, Bool.and_eq_true, decide_eq_true_iff]
    exact and_iff_right_of_imp fun h => (hns c).mpr (NameTree.mem_children.mp h.1).1
  refine ⟨_, listing T ns x n, ?_, SubList.read_write ⟨P.path n, (listing T ns x n).map T.entry⟩ (hpath n hn)
    fun e he => ?_, hnodup.filter _, hlisting⟩
  · change whGetSubFiles T P ns (P.path n) x = _
    rw [whGetSubFiles, hnode, hfolder, show (x n).isSome = true from hx]
    rfl
  · obtain ⟨c, hc, rfl⟩ := List.mem_map.mp he
    exact hentry c (NameTree.mem_children.mp ((hlisting c).mp hc).1).1

/-- **The disk holds the tree.** -/
theorem holdsTree_os : HoldsTree (os T P ns) T P Has := by
  have hnode : ∀ {n}, n ∈ T.nodes → P.node (P.path n) = n := fun hn => Place.node_path (T.isPart _ hn)
  refine ⟨fun x n hn hfolder hx => listed_os hnodup hns hpath hentry x hn hfolder hx, fun x n hn hfile hx => ?_,
    fun x n hn hfolder hx hempty => ?_, fun x n hn hfolder hx hchild => ?_⟩
  · change (opUnlink T P (P.path n) x).1 = true ∧ ∀ m, Has (opUnlink T P (P.path n) x).2 m ↔ _
    rw [opUnlink, hnode hn, hfile, show (x n).isSome = true from hx]
    exact ⟨rfl, fun m => has_update_none⟩
  · change (opRmDir T P ns (P.path n) x).1 = true ∧ ∀ m, Has (opRmDir T P ns (P.path n) x).2 m ↔ _
    rw [opRmDir, hnode hn, hfolder, show (x n).isSome = true from hx, (isEmpty_iff hns).mpr hempty]
    exact ⟨rfl, fun m => has_update_none⟩
  · have hfull : isEmpty T ns x n = false := by
      obtain ⟨c, hc, hxc⟩ := hchild
      exact Bool.eq_false_iff.mpr fun h => (isEmpty_iff hns).mp h c hc hxc
    change (opRmDir T P ns (P.path n) x).1 = false ∧ ∀ m, Has (opRmDir T P ns (P.path n) x).2 m ↔ _
    rw [opRmDir, hnode hn, hfull, Bool.and_false]
    exact ⟨rfl, fun m => Iff.rfl⟩

/-- **The tree is read from a disk that has it.** -/
theorem readsTree_os (hx : ∀ n ∈ T.nodes, Has x n) :
    ReadsTree (os T P ns) T P (fun n => Disk.contentOf (x n)) x := by
  have hnode : ∀ {n}, n ∈ T.nodes → P.node (P.path n) = n := fun hn => Place.node_path (T.isPart _ hn)
  refine ⟨fun n hn hfolder => ?_, fun n hn hfile => ?_, fun n hn _ => ?_, fun n hn _ pos len => ?_⟩
  · obtain ⟨bytes, cs, hbytes, hread, hnodup, hcs⟩ := listed_os hnodup hns hpath hentry x hn hfolder (hx n hn)
    refine ⟨bytes, cs, hbytes, hread, hnodup, fun c => (hcs c).trans (and_iff_left_of_imp fun hc => ?_)⟩
    exact hx c (NameTree.mem_children.mp hc).1
  · change (!T.isFolder (P.node (P.path n)) && (x (P.node (P.path n))).isSome) = true
    rw [hnode hn, hfile, show (x n).isSome = true from hx n hn]
    rfl
  · change ((Disk.contentOf (x (P.node (P.path n)))).length : ℤ) = _
    rw [hnode hn]
  · change ((Disk.contentOf (x (P.node (P.path n)))).drop pos.toNat).take len = _
    rw [hnode hn]

end Holds

/-! ## Taking a tree -/

/-- What the files have in them, where none is a folder. -/
def Holds (T : FolderTree) (x : TreeDisk) (f : Node → Bytes) : Prop :=
  ∀ n ∈ T.nodes, T.isFolder n = false → x n ≠ some .folder ∧ Disk.contentOf (x n) = f n

/-- Making folders leaves the files. -/
theorem Holds.opMkDir {f : Node → Bytes} (h : Holds T x f) (hm : m ∈ T.nodes) (hfolder : T.isFolder m = true) :
    Holds T (opMkDir m x) f := by
  intro n hn hfile
  have hsuffix : ¬ n <:+ m := by
    intro hsuffix
    have hne : m ≠ n := by
      rintro rfl
      exact Bool.false_ne_true (hfile.symm.trans hfolder)
    exact Bool.false_ne_true (hfile.symm.trans (NameTree.isFolder_of_below (NameTree.mem_below.mpr ⟨hm, hsuffix, hne⟩)))
  rw [TreeDisk.opMkDir, if_neg hsuffix]
  exact h n hn hfile

theorem Holds.update {f : Node → Bytes} {e : Option Entry} {c : Bytes} (h : Holds T x f)
    (hfolder : e ≠ some .folder) (hcontent : Disk.contentOf e = c) :
    Holds T (Function.update x n e) (Function.update f n c) := by
  intro m hm hfile
  rw [Function.update_apply, Function.update_apply]
  split_ifs
  · exact ⟨hfolder, hcontent⟩
  · exact h m hm hfile

/-- **A disk with no folder in the way takes the tree.** -/
theorem takesTree_os (hsize : ∀ n ∈ T.nodes, 0 ≤ T.size n ∧ T.size n < 2 ^ 63) : TakesTree (os T P ns) T P (Holds T) := by
  have hnode : ∀ {n}, n ∈ T.nodes → P.node (P.path n) = n := fun hn => Place.node_path (T.isPart _ hn)
  have hparent : ∀ {n}, n ∈ T.nodes → n ≠ [] → n.tail ∈ T.nodes ∧ T.isFolder n.tail = true := by
    intro n hn hne
    obtain ⟨a, l, rfl⟩ := List.exists_cons_of_ne_nil hne
    exact ⟨T.parent_mem hn, T.parent_isFolder hn⟩
  have hprepare : ∀ x f n, Holds T x f → n ∈ T.nodes → Holds T (whPrepareFolder P (P.path n) x) f := by
    intro x f n hx hn
    rw [whPrepareFolder, hnode hn]
    split_ifs with hroot
    · exact hx
    · exact hx.opMkDir (hparent hn hroot).1 (hparent hn hroot).2
  have hopened : ∀ x f n, Holds T x f → n ∈ T.nodes → T.isFolder n = false →
      (fopenAppend P (P.path n) x).1 = true ∧
        Disk.contentOf ((fopenAppend P (P.path n) x).2 n) = f n ∧ Holds T (fopenAppend P (P.path n) x).2 f := by
    intro x f n hx hn hfile
    obtain ⟨hne, hcontent⟩ := hx n hn hfile
    rw [fopenAppend, hnode hn]
    cases hentry : x n with
    | none =>
      rw [hentry] at hcontent
      refine ⟨rfl, ?_, ?_⟩
      · dsimp only
        rw [Function.update_self]
        exact hcontent
      · have hupdate := hx.update (n := n) (e := some (.file [])) (c := f n) nofun hcontent
        rwa [Function.update_eq_self] at hupdate
    | some e =>
      cases e with
      | folder => exact absurd hentry hne
      | file content => exact ⟨rfl, hcontent, hx⟩
  refine ⟨fun x f n hx hn hfolder => ⟨rfl, ?_⟩, fun x f n _ hn _ => ?_, fun x f n hx hn hfile => ?_,
    fun x f n hx hn hfile => ?_, fun x f n hx hn hfile buf => ?_, fun x f n hx _ _ _ => hx⟩
  · change Holds T (TreeDisk.opMkDir (P.node (P.path n)) (whPrepareFolder P (P.path n) x)) f
    rw [hnode hn]
    exact (hprepare x f n hx hn).opMkDir hn hfolder
  · obtain ⟨hnonneg, hlt⟩ := hsize n hn
    change 100 ≤ (2 ^ 62 : ℤ) - (T.size n).tdiv (1024 * 1024)
    rw [Int.tdiv_eq_ediv_of_nonneg hnonneg]
    omega
  · have hprepared := hprepare x f n hx hn
    change Holds T (opUnlink T P (P.path n) (whPrepareFolder P (P.path n) x)).2 _
    generalize whPrepareFolder P (P.path n) x = y at hprepared ⊢
    rw [opUnlink, hnode hn]
    split_ifs with hthere
    · exact hprepared.update nofun rfl
    · rw [hfile, Bool.not_false, Bool.true_and, Bool.not_eq_true, Option.isSome_eq_false_iff,
        Option.isNone_iff_eq_none] at hthere
      have hcontent := (hprepared n hn hfile).2
      rw [hthere] at hcontent
      rwa [show Function.update f n [] = f from (congrArg _ hcontent).trans (Function.update_eq_self n f)]
  · obtain ⟨htrue, hcontent, -⟩ := hopened x f n hx hn hfile
    refine ⟨htrue, ?_⟩
    change ((Disk.contentOf ((fopenAppend P (P.path n) x).2 (P.node (P.path n)))).length : ℤ) = _
    rw [hnode hn, hcontent]
  · obtain ⟨-, hcontent, hheld⟩ := hopened x f n hx hn hfile
    change Holds T (Function.update (fopenAppend P (P.path n) x).2 (P.node (P.path n)) (some (.file
      (Disk.contentOf ((fopenAppend P (P.path n) x).2 (P.node (P.path n))) ++ buf)))) _
    rw [hnode hn, hcontent]
    exact hheld.update nofun rfl

end TreeDisk

end EuhatExpert
