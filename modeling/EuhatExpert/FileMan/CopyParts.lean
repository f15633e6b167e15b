import EuhatExpert.FileMan.DiskSession
import EuhatExpert.FileMan.TreeRun

/-!
# FileMan/CopyParts — what a copy asks of the two disks, and what a part of a file comes to

A tree is copied from a disk on which it stands (`ReadsTree`) to one that takes it (`TakesTree`).  A file goes
over in segments, each of which is stored where those before it end (`storeFile_yields`).
-/

namespace EuhatExpert

open Machinery TraceM

variable {X : Type}

/-- On a disk stands a folder tree at a place: its folders are listed, and its files can be read. -/
structure ReadsTree (os : Os X) (T : FolderTree) (P : Place) (content : Node → Bytes) (x : X) : Prop where
  listed : ∀ n, n ∈ T.nodes → T.isFolder n = true → ∃ (bytes : Bytes) (cs : List Node),
    os.whGetSubFiles (P.path n) x = some bytes ∧ SubList.read bytes = .ok ⟨P.path n, cs.map T.entry⟩ ∧
      cs.Nodup ∧ ∀ c, c ∈ cs ↔ c ∈ T.children n
  opened : ∀ n, n ∈ T.nodes → T.isFolder n = false → os.fopenRead (P.path n) x = true
  size : ∀ n, n ∈ T.nodes → T.isFolder n = false → os.whGetFileSize (P.path n) x = (content n).length
  read : ∀ n, n ∈ T.nodes → T.isFolder n = false → ∀ (pos : ℤ) (len : ℕ),
    os.fread (P.path n) pos len x = ((content n).drop pos.toNat).take len

/-- On the disks of a system there is room for a folder tree at a place, and nothing in its way; `holds` tells what
its files have in them.  Folders can be created, and files be emptied, appended to and stamped. -/
structure TakesTree (os : Os X) (T : FolderTree) (P : Place) (holds : X → (Node → Bytes) → Prop) : Prop where
  made : ∀ x f n, holds x f → n ∈ T.nodes → T.isFolder n = true →
    (os.opMkDir (P.path n) (os.whPrepareFolder (P.path n) x)).1 = true ∧
      holds (os.opMkDir (P.path n) (os.whPrepareFolder (P.path n) x)).2 f
  room : ∀ x f n, holds x f → n ∈ T.nodes → T.isFolder n = false →
    100 ≤ os.freeSpaceInMB (P.path n) x - (T.size n).tdiv (1024 * 1024)
  begun : ∀ x f n, holds x f → n ∈ T.nodes → T.isFolder n = false →
    holds (os.opUnlink (P.path n) (os.whPrepareFolder (P.path n) x)).2 (Function.update f n [])
  opened : ∀ x f n, holds x f → n ∈ T.nodes → T.isFolder n = false →
    (os.fopenAppend (P.path n) x).1 = true ∧
      os.whGetFileSize (P.path n) (os.fopenAppend (P.path n) x).2 = (f n).length
  written : ∀ x f n, holds x f → n ∈ T.nodes → T.isFolder n = false → ∀ buf,
    holds (os.fwrite (P.path n) buf (os.fopenAppend (P.path n) x).2) (Function.update f n (f n ++ buf))
  stamped : ∀ x f n, holds x f → n ∈ T.nodes → T.isFolder n = false → ∀ t,
    holds (os.whSetFileLastWriteTime (P.path n) t x) f

/-- The offset behind a segment from `k` on, and whether it is the last. -/
def passed (src : Bytes) (k : ℕ) : ℤ × ℤ :=
  if k + segmentLen < src.length then ((k + segmentLen : ℕ), FmResultOk) else (src.length, FmResultFileReachEnd)

variable {os : Os X} {T : FolderTree} {P : Place} {content : Node → Bytes} {x : X} {n : Node}

theorem ReadsTree.fmReadFile_yields (h : ReadsTree os T P content x) (hn : n ∈ T.nodes) (hfile : T.isFolder n = false)
    {k : ℕ} (hk : k ≤ (content n).length) :
    Yields (fmReadFile os (P.path n) k FILE_MAN_RECV_FILE_SEGMENT_MAX_LEN) x
      (Disk.segmentOf (content n) k segmentLen) x :=
  Disk.fmReadFile_yields_of (h.opened n hn hfile) (h.size n hn hfile) (h.read n hn hfile) hk segmentLen

namespace TakesTree

variable {holds : X → (Node → Bytes) → Prop} {f : Node → Bytes}

/-- **A segment is stored where those before it end.** -/
theorem storeFile_yields (h : TakesTree os T P holds) (hx : holds x f) (hn : n ∈ T.nodes)
    (hfile : T.isFolder n = false) {src : Bytes} {k : ℕ} (hk : k ≤ src.length) (hf : f n = src.take k) :
    ∃ x', Yields (storeFile os (Disk.segmentOf src k segmentLen).found (P.path n) k) x (passed src k) x' ∧
      holds x' (Function.update f n (src.take (k + segmentLen))) := by
  obtain ⟨hopened, hsize⟩ := h.opened x f n hx hn hfile
  have hheld := h.written x f n hx hn hfile ((src.drop k).take segmentLen)
  rw [hf, ← List.take_add] at hheld
  have hlength : (f n).length = k := by rw [hf, List.length_take, Nat.min_eq_left hk]
  rw [hlength] at hsize
  refine ⟨_, ?_, hheld⟩
  have hwrite : Yields (fmWriteFile os (Disk.segmentOf src k segmentLen).found.segment (P.path n)) x
      (((src.drop k).take segmentLen).length : ℤ)
      (os.fwrite (P.path n) ((src.drop k).take segmentLen) (os.fopenAppend (P.path n) x).2) := by
    refine Yields.bind (yields_call _ _ x) ?_
    rw [hopened, if_pos rfl]
    refine Yields.bind (yields_pure _ _) ?_
    refine Yields.bind (Os.yields_onHandle _ _) ?_
    dsimp only
    rw [hsize, if_neg (not_not_intro rfl)]
    exact Yields.bind (yields_pure _ _) (Yields.bind (Os.yields_onHandle _ _) (yields_pure _ _))
  refine Yields.bind (yields_pure _ _) ?_
  have hresult : (Disk.segmentOf src k segmentLen).result = FmResultOk ∨
      (Disk.segmentOf src k segmentLen).result = FmResultFileReachEnd := ite_eq_or_eq _ _ _
  rw [if_pos hresult]
  refine Yields.bind hwrite ?_
  rw [if_neg (not_lt.mpr (Int.natCast_nonneg _)), List.length_take, List.length_drop, passed, Disk.segmentOf]
  dsimp only
  by_cases hmore : k + segmentLen < src.length
  · rw [if_pos hmore, if_pos hmore, Nat.min_eq_left (by omega), ← Nat.cast_add]
    exact yields_pure _ _
  · have hsum : (k : ℤ) + (min segmentLen (src.length - k) : ℕ) = src.length := by omega
    rw [if_neg hmore, if_neg hmore, hsum]
    exact yields_pure _ _

end TakesTree

/-! ## A copy -/

namespace Errand

variable (E : Errand)

/-- The transfer of a file, from an offset on. -/
def sending (n : Node) (offset_ : ℤ) : FmTask.Body :=
  if E.src.remote then
    .download ⟨E.peerPath_ n, E.src.path n, offset_, E.tree.size n, E.tree.lastWriteTime n, E.isMove_⟩
  else .upload ⟨E.src.path n, E.peerPath_ n, offset_, E.tree.size n, E.tree.lastWriteTime n, E.isMove_⟩

/-- A copy on two disks: the tree stands at its place on the one, with `content` in its files, and the other takes it
at the place it goes to. -/
structure CopiesOn (dst : Place) (S : Sides.Setup X) (content : Node → Bytes) (holds : X → (Node → Bytes) → Prop)
    (x₀ : X) : Prop where
  purpose : E.purpose = .downUp dst false
  fits : E.Fits S
  base : dst.remote = true → strIsStartWith (dst.path []) S.baseDir_ = true
  reads : ReadsTree (S.os E.src.remote) E.tree E.src content x₀
  takes : TakesTree (S.os !E.src.remote) E.tree dst holds

/-- As much of a file is over as the offset says; before it is begun, anything. -/
def Reached (src : Bytes) (offset : ℤ) (there : Bytes) : Prop :=
  offset < 0 ∨ ∃ k : ℕ, offset = k ∧ k ≤ src.length ∧ there = src.take k

/-- What is there of a file once a segment was stored, with the offset behind it and whether it was the last. -/
inductive Passes (src : Bytes) (offset : ℤ) : ℤ × ℤ → Bytes → Prop
  | more {k : ℕ} : offset < k → k ≤ src.length → Passes src offset (k, FmResultOk) (src.take k)
  | last {k : ℕ} : offset = k → k ≤ src.length → Passes src offset (src.length, FmResultFileReachEnd) src

/-- The queue once the answer to a transfer was taken: its task goes on, or is over. -/
inductive Turns (n : Node) (src : Bytes) (id offset : ℤ) (s q : FmScheduler) : Bytes → Prop
  | more {k : ℕ} : offset < k → k ≤ src.length →
      s.Replaces ⟨id, FmResultOk, E.sending n offset⟩ [⟨id, FmResultOk, E.sending n k⟩] q →
      Turns n src id offset s q (src.take k)
  | last {k : ℕ} : offset = k → k ≤ src.length → s.Replaces ⟨id, FmResultOk, E.sending n offset⟩ [] q →
      Turns n src id offset s q src

variable {E}

theorem passes_passed {src : Bytes} {k : ℕ} (hk : k ≤ src.length) :
    Passes src k (passed src k) (src.take (k + segmentLen)) := by
  rw [passed]
  split_ifs with hmore
  · exact .more (by rw [segmentLen]; omega) hmore.le
  · rw [List.take_of_length_le (not_lt.mp hmore)]
    exact .last rfl hk

theorem sending_of_remote (h : E.src.remote = true) (n : Node) (offset_ : ℤ) : E.sending n offset_
    = .download ⟨E.peerPath_ n, E.src.path n, offset_, E.tree.size n, E.tree.lastWriteTime n, E.isMove_⟩ := if_pos h

theorem sending_of_local (h : E.src.remote = false) (n : Node) (offset_ : ℤ) : E.sending n offset_
    = .upload ⟨E.src.path n, E.peerPath_ n, offset_, E.tree.size n, E.tree.lastWriteTime n, E.isMove_⟩ := by
  rw [sending, h, if_neg Bool.false_ne_true]

theorem getPriority_sending (n : Node) (k l : ℤ) : (E.sending n k).getPriority = (E.sending n l).getPriority := by
  rw [sending, sending]
  split_ifs
  · rfl
  · rfl

end Errand

/-- A task is written over, and taken out. -/
theorem FmScheduler.replaces_write_remove {s : FmScheduler} {t u : FmTask} (ht : t ∈ s.tasks_) (hid : u.id_ = t.id_)
    (hpriority : u.getPriority = t.getPriority) : s.Replaces t [] ((s.write u).remove u.id_) := by
  have hwrite := replaces_write ht hid hpriority
  obtain ⟨rest, hs, hs'⟩ := hwrite.perm
  have hu : u ∈ (s.write u).tasks_ := hwrite.mem_iff.mpr (.inl List.mem_cons_self)
  have hremove := perm_remove hu
  refine ⟨⟨rest, hs, ?_⟩, fun h => (replaces_remove hu).sorted (hwrite.sorted h)⟩
  exact List.Perm.cons_inv (hremove.symm.trans hs')

/-! ## A turn of a transfer -/

namespace Errand.CopiesOn

variable {E : Errand} {dst : Place} {S : Sides.Setup X} {content : Node → Bytes} {holds : X → (Node → Bytes) → Prop}
  {x₀ x : X} {f : Node → Bytes} {n : Node} {id offset : ℤ} {s : FmScheduler}

section Basics

variable (h : E.CopiesOn dst S content holds x₀)

include h

theorem copies_eq : E.copies = true := by rw [copies, h.purpose]

theorem fells_eq : E.fells = false := by rw [fells, h.purpose]

theorem peerPath_eq (n : Node) : E.peerPath_ n = dst.path n := by rw [peerPath_, h.purpose]

theorem toFmLoop_dst : dst.toFmLoop = E.src.toFmLoop.other := E.other dst false h.purpose

theorem remote_dst : dst.remote = !E.src.remote := by rw [h.toFmLoop_dst]; rfl

theorem fileBody_eq (n : Node) : E.fileBody n = E.sending n (-1) := by
  have hpeer : E.peerPath_ n = dst.path n := h.peerPath_eq n
  rw [fileBody, sending, isMove_, h.purpose, hpeer]

end Basics

section Down

variable (h : E.CopiesOn dst S content holds x₀) (hremote : E.src.remote = true) (hn : n ∈ E.tree.nodes)
  (hfile : E.tree.isFolder n = false)

include h hremote hn hfile

/-- **The client asks for what its file lacks**, and before that empties it. -/
theorem down_req (hx : holds x f) (hreached : Reached (content n) offset (f n)) (id : ℤ) : ∃ (k : ℕ) (x' : X),
    Yields (FileManClient.req (S.os false) ⟨id, FmResultOk, E.sending n offset⟩) x
        (⟨id, FmResultOk, E.sending n k⟩, some (.down ⟨id, E.src.path n, k, FILE_MAN_RECV_FILE_SEGMENT_MAX_LEN⟩)) x' ∧
      (offset < 0 ∨ offset = k) ∧ k ≤ (content n).length ∧
      holds x' (Function.update f n ((content n).take k)) := by
  have htakes := h.takes
  rw [hremote, Bool.not_true] at htakes
  have hpeer := h.peerPath_eq n
  simp only [sending_of_remote hremote]
  obtain hneg | ⟨k, rfl, hk, hf⟩ := hreached
  · have hbegun := htakes.begun x f n hx hn hfile
    refine ⟨0, _, ?_, .inl hneg, Nat.zero_le _, by rwa [List.take_zero]⟩
    have hroom := htakes.room _ _ n hbegun hn hfile
    refine Yields.bind (?_ : Yields (FmcDownFile.req _ _ _) x (_, some _) _) (yields_pure _ _)
    rw [FmcDownFile.req, if_pos hneg, hpeer]
    refine Yields.bind (yields_call _ _ x) (Yields.bind (yields_call _ _ _) (Yields.bind (yields_call _ _ _) ?_))
    refine Eq.mpr (congrArg (fun m => Yields m _ _ _) (if_neg (not_lt.mpr hroom))) ?_
    exact yields_pure _ _
  · refine ⟨k, x, ?_, .inr rfl, hk, ?_⟩
    · refine Yields.bind (?_ : Yields (FmcDownFile.req _ _ _) x (_, some _) _) (yields_pure _ _)
      rw [FmcDownFile.req, if_neg (not_lt.mpr (Int.natCast_nonneg k))]
      exact yields_pure _ _
    · rwa [← hf, Function.update_eq_self]

/-- **The server answers with the segment from there on.** -/
theorem down_echo {k : ℕ} (hk : k ≤ (content n).length) (id : ℤ) :
    Yields (FileManServer.echo (S.os true) S.baseDir_
        (.down ⟨id, E.src.path n, k, FILE_MAN_RECV_FILE_SEGMENT_MAX_LEN⟩)) x₀
      (.down ⟨id, E.src.path n, Disk.segmentOf (content n) k segmentLen⟩) x₀ := by
  have hreads := h.reads
  rw [hremote] at hreads
  have hpath : whCorrectFilePath (S.os true).isUnix_ (E.src.path n) = E.src.path n := by
    have hunix : E.src.isUnix_ = (S.os true).isUnix_ := h.fits.isUnix_src
    rw [← hunix]
    exact Place.whCorrectFilePath_path hremote (E.tree.isPart n hn)
  refine Yields.bind (?_ : Yields (FmsDownFile.echo _ _ _) x₀ _ x₀) (yields_pure _ _)
  rw [FmsDownFile.echo]
  dsimp only
  rw [hpath, if_pos (Place.strIsStartWith_path (h.fits.base hremote) n), if_neg (lt_irrefl _)]
  exact Yields.bind (hreads.fmReadFile_yields hn hfile hk) (yields_pure _ _)

/-- **The client stores the segment**, and the task goes on or is over. -/
theorem down_ack {k : ℕ} (hk : k ≤ (content n).length) (hx : holds x f) (hf : f n = (content n).take k)
    (ht : ⟨id, FmResultOk, E.sending n k⟩ ∈ s.tasks_) (dispatchSubList : FmTask → Bytes → FmScheduler → FmScheduler)
    (path : Bytes) : ∃ (q : FmScheduler) (x' : X) (there : Bytes),
      Yields (FileManClient.ack (S.os false) dispatchSubList
        (.down ⟨id, path, Disk.segmentOf (content n) k segmentLen⟩) s) x q x' ∧
      E.Turns n (content n) id k s q there ∧ holds x' (Function.update f n there) := by
  have htakes := h.takes
  rw [hremote, Bool.not_true] at htakes
  have hpeer := h.peerPath_eq n
  obtain ⟨x', hstore, hheld⟩ := htakes.storeFile_yields hx hn hfile hk hf
  have hget : s.getAs FmTask.asDownload id = some (⟨id, FmResultOk, E.sending n k⟩,
      ⟨E.peerPath_ n, E.src.path n, k, E.tree.size n, E.tree.lastWriteTime n, E.isMove_⟩) := by
    rw [FmScheduler.getAs, show s.get id = some _ from FmScheduler.get_of_mem ht, Option.bind_eq_bind,
      Option.bind_some, FmTask.asDownload]
    dsimp only
    rw [sending_of_remote hremote]
    rfl
  have hset : ∀ p : ℤ, (⟨id, FmResultOk, E.sending n k⟩ : FmTask).setDownload
      ⟨E.peerPath_ n, E.src.path n, p, E.tree.size n, E.tree.lastWriteTime n, E.isMove_⟩
        = ⟨id, FmResultOk, E.sending n p⟩ := fun p => by
    rw [FmTask.setDownload, sending_of_remote hremote, sending_of_remote hremote]
  rw [FileManClient.ack, FmcDownFile.ack]
  dsimp only
  rw [hget, hpeer]
  dsimp only
  rw [passed] at hstore
  by_cases hmore : k + segmentLen < (content n).length
  · rw [if_pos hmore] at hstore
    refine ⟨_, x', _, Yields.bind hstore ?_, .more (k := k + segmentLen) (by rw [segmentLen]; omega) hmore.le
      (FmScheduler.replaces_write ht rfl (getPriority_sending _ _ _)), hheld⟩
    dsimp only
    rw [if_neg (by decide), if_pos rfl, ← hpeer, hset]
    exact yields_pure _ _
  · rw [if_neg hmore] at hstore
    rw [List.take_of_length_le (not_lt.mp hmore)] at hheld
    refine ⟨_, _, _, Yields.bind hstore ?_, .last rfl hk (FmScheduler.replaces_write_remove
      (u := ⟨id, FmResultOk, E.sending n (content n).length⟩) ht rfl (getPriority_sending _ _ _)),
      htakes.stamped _ _ n hheld hn hfile (E.tree.lastWriteTime n)⟩
    dsimp only
    rw [if_pos rfl, ← hpeer, hset]
    exact Yields.bind (yields_call _ _ _) (yields_pure _ _)

end Down

/-- The request of an upload. -/
def upRequest (E : Errand) (content : Node → Bytes) (n : Node) (id offset : ℤ) : UpReq :=
  ⟨id, E.peerPath_ n, E.tree.lastWriteTime n, E.tree.size n, offset,
    if offset < 0 then .nothing else (Disk.segmentOf (content n) offset.toNat segmentLen).found⟩

section Up

variable (h : E.CopiesOn dst S content holds x₀) (hremote : E.src.remote = false) (hn : n ∈ E.tree.nodes)
  (hfile : E.tree.isFolder n = false)

include h hremote hn hfile

/-- **The client sends what the server lacks**, and before that only asks for room. -/
theorem up_req (hreached : offset < 0 ∨ ∃ k : ℕ, offset = k ∧ k ≤ (content n).length) (id : ℤ) :
    Yields (FileManClient.req (S.os false) ⟨id, FmResultOk, E.sending n offset⟩) x₀
      (⟨id, FmResultOk, E.sending n offset⟩, some (.up (upRequest E content n id offset))) x₀ := by
  have hreads := h.reads
  rw [hremote] at hreads
  rw [sending_of_local hremote, upRequest]
  refine Yields.bind (?_ : Yields (FmcUpFile.req _ _ _) x₀ _ x₀) (yields_pure _ _)
  rw [FmcUpFile.req]
  dsimp only
  obtain hneg | ⟨k, rfl, hk⟩ := hreached
  · simp only [if_pos hneg]
    exact yields_pure _ _
  · simp only [if_neg (not_lt.mpr (Int.natCast_nonneg k)), Int.toNat_natCast]
    exact Yields.bind (hreads.fmReadFile_yields hn hfile hk) (yields_pure _ _)

/-- **The server stores what it is sent**, and before that makes room for it. -/
theorem up_echo (hx : holds x f) (hreached : Reached (content n) offset (f n)) (id : ℤ) :
    ∃ (p : ℤ × ℤ) (there : Bytes) (x' : X),
      Yields (FileManServer.echo (S.os true) S.baseDir_ (.up (upRequest E content n id offset))) x
        (.up ⟨id, E.peerPath_ n, p.1, p.2⟩) x' ∧
      Passes (content n) offset p there ∧ holds x' (Function.update f n there) := by
  have htakes := h.takes
  rw [hremote, Bool.not_false] at htakes
  have hpeer := h.peerPath_eq n
  have hdst : dst.remote = true := by rw [h.remote_dst, hremote]; rfl
  have hpath : whCorrectFilePath (S.os true).isUnix_ (dst.path n) = dst.path n := by
    have hunix : dst.isUnix_ = (S.os true).isUnix_ := by
      rw [h.toFmLoop_dst]
      exact h.fits.isUnix_src
    rw [← hunix]
    exact Place.whCorrectFilePath_path hdst (E.tree.isPart n hn)
  have hecho : ∀ {p : ℤ × ℤ} {x₁ x₂ : X},
      Yields (FmsUpFile.store (S.os true) (upRequest E content n id offset) (dst.path n)) x p x₁ →
      (p.2 ≠ FmResultFileReachEnd ∧ x₂ = x₁ ∨ p.2 = FmResultFileReachEnd ∧
        x₂ = (S.os true).whSetFileLastWriteTime (dst.path n) (E.tree.lastWriteTime n) x₁) →
      Yields (FileManServer.echo (S.os true) S.baseDir_ (.up (upRequest E content n id offset))) x
        (.up ⟨id, dst.path n, p.1, p.2⟩) x₂ := by
    intro p x₁ x₂ hstore hlast
    refine Yields.bind (?_ : Yields (FmsUpFile.echo _ _ _) x _ x₂) (yields_pure _ _)
    rw [FmsUpFile.echo, show (upRequest E content n id offset).path = dst.path n from hpeer, hpath,
      if_pos (Place.strIsStartWith_path (h.base hdst) n)]
    refine Yields.bind hstore ?_
    obtain ⟨hne, rfl⟩ | ⟨heq, rfl⟩ := hlast
    · dsimp only
      rw [if_neg hne]
      exact yields_pure _ _
    · dsimp only
      rw [if_pos heq]
      exact Yields.bind (yields_call _ _ _) (yields_pure _ _)
  rw [hpeer]
  obtain hneg | ⟨k, rfl, hk, hf⟩ := hreached
  · have hroom := htakes.room x f n hx hn hfile
    refine ⟨(0, FmResultOk), _, _, @hecho (0, FmResultOk)
      ((S.os true).opUnlink (dst.path n) ((S.os true).whPrepareFolder (dst.path n) x)).2 _ ?_
      (.inl ⟨by decide, rfl⟩), .more (k := 0) hneg (Nat.zero_le _), ?_⟩
    · rw [FmsUpFile.store, upRequest]
      dsimp only
      rw [if_pos hneg]
      refine Yields.bind (yields_call _ _ x) ?_
      dsimp only
      rw [if_neg (not_lt.mpr hroom)]
      exact Yields.bind (yields_call _ _ _) (Yields.bind (yields_call _ _ _) (yields_pure _ _))
    · rw [List.take_zero]
      exact htakes.begun x f n hx hn hfile
  · obtain ⟨x', hstore, hheld⟩ := htakes.storeFile_yields hx hn hfile hk hf
    have hstore' : Yields (FmsUpFile.store (S.os true) (upRequest E content n id k) (dst.path n)) x
        (passed (content n) k) x' := by
      rw [FmsUpFile.store, upRequest]
      dsimp only
      rw [if_neg (not_lt.mpr (Int.natCast_nonneg k)), if_neg (not_lt.mpr (Int.natCast_nonneg k)), Int.toNat_natCast]
      exact hstore
    have hpasses := passes_passed hk
    by_cases hlast : (passed (content n) k).2 = FmResultFileReachEnd
    · exact ⟨_, _, _, hecho hstore' (.inr ⟨hlast, rfl⟩), hpasses,
        htakes.stamped _ _ n hheld hn hfile (E.tree.lastWriteTime n)⟩
    · exact ⟨_, _, _, hecho hstore' (.inl ⟨hlast, rfl⟩), hpasses, hheld⟩

omit h hn hfile in
/-- **The client notes how far the server is**, and the task goes on or is over. -/
theorem up_ack {p : ℤ × ℤ} {there : Bytes} (hpasses : Passes (content n) offset p there)
    (ht : ⟨id, FmResultOk, E.sending n offset⟩ ∈ s.tasks_) (dispatchSubList : FmTask → Bytes → FmScheduler → FmScheduler)
    (path : Bytes) (x : X) : ∃ q : FmScheduler,
      Yields (FileManClient.ack (S.os false) dispatchSubList (.up ⟨id, path, p.1, p.2⟩) s) x q x ∧
      E.Turns n (content n) id offset s q there := by
  have hget : s.getAs FmTask.asUpload id = some (⟨id, FmResultOk, E.sending n offset⟩,
      ⟨E.src.path n, E.peerPath_ n, offset, E.tree.size n, E.tree.lastWriteTime n, E.isMove_⟩) := by
    rw [FmScheduler.getAs, show s.get id = some _ from FmScheduler.get_of_mem ht, Option.bind_eq_bind,
      Option.bind_some, FmTask.asUpload]
    dsimp only
    rw [sending_of_local hremote]
    rfl
  have hset : ∀ p : ℤ, (⟨id, FmResultOk, E.sending n offset⟩ : FmTask).setDownload
      ⟨E.src.path n, E.peerPath_ n, p, E.tree.size n, E.tree.lastWriteTime n, E.isMove_⟩
        = ⟨id, FmResultOk, E.sending n p⟩ := fun p => by
    rw [FmTask.setDownload, sending_of_local hremote, sending_of_local hremote]
  refine ⟨_, yields_pure _ x, ?_⟩
  rw [FmcUpFile.ack]
  dsimp only
  rw [hget]
  dsimp only
  rw [hset]
  cases hpasses with
  | more hlt hk =>
    dsimp only
    rw [if_neg (by decide), if_neg (by decide), if_pos rfl]
    exact .more hlt hk (FmScheduler.replaces_write ht rfl (getPriority_sending _ _ _))
  | last hoffset hk =>
    dsimp only
    rw [if_neg (by decide), if_pos rfl]
    exact .last hoffset hk (FmScheduler.replaces_write_remove ht rfl (getPriority_sending _ _ _))

end Up

end Errand.CopiesOn

end EuhatExpert
