import EuhatExpert.FileMan.DispatchSubList
import EuhatExpert.FileMan.PathParts
import EuhatExpert.Machinery.NameTree

/-!
# FileMan/Place — a folder tree at a path

The nodes of a folder tree are the names under its root, and each has a path behind the root's.  The paths
are those `combinePath` prints (`combinePath_path`), the server corrects none of them
(`whCorrectFilePath_path`), and `inStr` finds the nodes in them again (`node_path`).
-/

namespace EuhatExpert

open Machinery

/-- The names under a folder, the last one first. -/
abbrev Node := List Bytes

/-- A folder with all that is in it. -/
structure FolderTree extends NameTree Bytes where
  isPart : ∀ n ∈ nodes, ∀ name ∈ n, IsPart name
  size : Node → ℤ
  lastWriteTime : Node → ℤ

namespace FolderTree

variable (T : FolderTree) {n c : Node}

/-- What is listed of a node. -/
def entry (c : Node) : SubEntry :=
  if T.isFolder c then .folder (c.headD []) else .file (c.headD []) (T.size c) (T.lastWriteTime c)

variable {T}

theorem isPart_of_children (h : c ∈ T.children n) : ∀ name ∈ n, IsPart name := by
  obtain ⟨hc, a, rfl⟩ := NameTree.mem_children.mp h
  exact T.isPart n (T.parent_mem hc)

end FolderTree

/-- A path on one side: `remote` is the server's, of whom the client was told `isUnix_`. -/
structure Place extends FmLoop where
  root : EuhatPath
  isPart : ∀ part ∈ root.path_, IsPart part
  ne_nil : root.path_ ≠ []
  isUnix_root : root.isUnix_ = (remote && isUnix_)

/-- A path is printed by its parts, the separator, and whether that stands in front. -/
theorem EuhatPath.toStr_congr {p q : EuhatPath} (hpath : p.path_ = q.path_) (hunix : p.isUnix_ = q.isUnix_)
    (habs : (p.isUnix_ && p.isAbsPath_) = (q.isUnix_ && q.isAbsPath_)) : p.toStr = q.toStr := by
  rw [toStr, toStr, hpath, habs, hunix]

namespace Place

variable (P : Place) {n : Node}

/-- The root of the place, with names behind it. -/
def goSubs (n : Node) : EuhatPath := { P.root with path_ := P.root.path_ ++ n.reverse }

def path (n : Node) : Bytes := (P.goSubs n).toStr

/-- What stands behind the root in a path. -/
def node (path : Bytes) : Node := ((EuhatPath.inStr path).path_.drop P.root.path_.length).reverse

variable {P}

theorem isPart_goSubs (hn : ∀ name ∈ n, IsPart name) : ∀ part ∈ (P.goSubs n).path_, IsPart part := by
  intro part hpart
  rcases List.mem_append.mp hpart with hpart | hpart
  · exact P.isPart part hpart
  · exact hn part (List.mem_reverse.mp hpart)

theorem path_inStr_path (hn : ∀ name ∈ n, IsPart name) :
    (EuhatPath.inStr (P.path n)).path_ = P.root.path_ ++ n.reverse :=
  EuhatPath.path_inStr_toStr (isPart_goSubs hn)

theorem isUnix_and_isAbsPath (hn : ∀ name ∈ n, IsPart name) :
    (P.root.isUnix_ && (EuhatPath.inStr (P.path n)).isAbsPath_) = (P.root.isUnix_ && P.root.isAbsPath_) := by
  have habs := EuhatPath.isAbsPath_inStr_toStr (isPart_goSubs (P := P) hn)
  have hne : (P.goSubs n).path_.isEmpty = false :=
    List.isEmpty_eq_false_iff.mpr (List.append_ne_nil_of_left_ne_nil P.ne_nil _)
  rw [hne, Bool.not_false, Bool.and_true] at habs
  rw [path, habs, ← Bool.and_assoc]
  change (P.root.isUnix_ && P.root.isUnix_ && P.root.isAbsPath_) = _
  rw [Bool.and_self]

/-- **Printed again, a path is as it was.** -/
theorem toStr_inStr_path (hn : ∀ name ∈ n, IsPart name) :
    { EuhatPath.inStr (P.path n) with isUnix_ := P.remote && P.isUnix_ }.toStr = P.path n := by
  refine EuhatPath.toStr_congr (path_inStr_path hn) P.isUnix_root.symm ?_
  rw [← P.isUnix_root]
  exact isUnix_and_isAbsPath hn

/-- **`combinePath` prints the path of a child.** -/
theorem combinePath_path (hn : ∀ name ∈ n, IsPart name) (name : Bytes) :
    P.toFmLoop.combinePath (P.path n) name = P.path (name :: n) := by
  refine EuhatPath.toStr_congr ?_ P.isUnix_root.symm ?_
  · change (EuhatPath.inStr (P.path n)).path_ ++ [name] = P.root.path_ ++ (name :: n).reverse
    rw [path_inStr_path hn, List.reverse_cons, List.append_assoc]
  · change (P.remote && P.isUnix_ && (EuhatPath.inStr (P.path n)).isAbsPath_) = _
    rw [← P.isUnix_root]
    exact isUnix_and_isAbsPath hn

theorem whCorrectFilePath_path (hremote : P.remote = true) (hn : ∀ name ∈ n, IsPart name) :
    whCorrectFilePath P.isUnix_ (P.path n) = P.path n := by
  have h := toStr_inStr_path (P := P) hn
  rwa [hremote, Bool.true_and] at h

theorem node_path (hn : ∀ name ∈ n, IsPart name) : P.node (P.path n) = n := by
  rw [node, path_inStr_path hn, List.drop_left, List.reverse_reverse]

/-- Every path in a place starts with its root. -/
theorem isPrefix_path (n : Node) : P.path [] <+: P.path n := by
  rw [path, path, EuhatPath.toStr, EuhatPath.toStr]
  refine (List.prefix_append_right_inj _).mpr ?_
  rw [goSubs, goSubs, List.reverse_nil, List.append_nil]
  exact isPrefix_intercalate _ P.ne_nil _

theorem strIsStartWith_path {baseDir : Bytes} (h : strIsStartWith (P.path []) baseDir = true) (n : Node) :
    strIsStartWith (P.path n) baseDir = true :=
  List.isPrefixOf_iff_prefix.mpr ((List.isPrefixOf_iff_prefix.mp h).trans (isPrefix_path n))

theorem length_path (hn : ∀ name ∈ n, IsPart name) :
    (EuhatPath.inStr (P.path n)).path_.length = P.root.path_.length + n.length := by
  rw [path_inStr_path hn, List.length_append, List.length_reverse]

end Place

end EuhatExpert
