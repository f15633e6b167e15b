import EuhatExpert.FileMan.DiskFileOp
import EuhatExpert.FileMan.RightToSend

/-!
# FileMan/RefusedForSpace — what a transfer refused for lack of space has changed

`FmsUpFile::echo` measures the space before it makes room for a file, `FmcDownFile::req` afterwards.  So a
refused upload leaves every file as it was, and a refused download has deleted the file there was at its
path (`refusal_iff`).
-/

namespace EuhatExpert

open Machinery TraceM

/-- The files of a world, and what the calls that make room for one do to them. -/
structure FileSystem {W : Type} (os : Os W) where
  file : W → Bytes → Option Bytes
  /-- The system lets the file at a path be deleted. -/
  mayDelete : W → Bytes → Prop
  file_whPrepareFolder : ∀ path w, file (os.whPrepareFolder path w) = file w
  mayDelete_whPrepareFolder : ∀ path w, mayDelete (os.whPrepareFolder path w) = mayDelete w
  file_opUnlink : ∀ path w, (file w path).isSome → mayDelete w path →
    file (os.opUnlink path w).2 path = none
  file_opUnlink_eq : ∀ path w, ¬ ((file w path).isSome ∧ mayDelete w path) →
    file (os.opUnlink path w).2 = file w

/-! ## The files of a disk -/

namespace Disk

theorem file_opMkDir (path : Bytes) (d : Disk) : (opMkDir path d).2.file = d.file := by
  rw [opMkDir]
  split
  · rfl
  · rename_i hnone
    funext path'
    by_cases h : path' = path
    · rw [h, file, file, get_set_self, hnone]
    · exact d.file_set_of_ne _ h

theorem file_whPrepareFolder (path : Bytes) (d : Disk) : (whPrepareFolder path d).file = d.file := by
  have key : ∀ (folders : List Bytes) (d : Disk),
      (folders.foldl (fun d p => (opMkDir p d).2) d).file = d.file := by
    intro folders
    induction folders with
    | nil => exact fun _ => rfl
    | cons p folders ih => exact fun d => (ih _).trans (file_opMkDir p d)
  exact key _ d

/-- Nothing but a file is deleted by `opUnlink`. -/
theorem opUnlink_of_file_eq_none {path : Bytes} {d : Disk} (h : d.file path = none) :
    (opUnlink path d).2 = d := by
  rw [opUnlink]
  split
  · rename_i content hget
    rw [file, hget] at h
    cases h
  · rfl

/-- On a disk every file may be deleted. -/
def fileSystem (isUnix : Bool) (free : Bytes → ℤ) : FileSystem (Disk.os isUnix free) where
  file := Disk.file
  mayDelete _ _ := True
  file_whPrepareFolder := file_whPrepareFolder
  mayDelete_whPrepareFolder _ _ := rfl
  file_opUnlink path d _ _ := by
    rw [file, show (Disk.os isUnix free).opUnlink path d = opUnlink path d from rfl, get_opUnlink]
    obtain _ | _ | _ := d.get path
    all_goals rfl
  file_opUnlink_eq path d h := by
    have hnone : d.file path = none := Option.not_isSome_iff_eq_none.mp fun hsome => h ⟨hsome, trivial⟩
    exact congrArg Disk.file (opUnlink_of_file_eq_none hnone)

end Disk

namespace FileSystem

variable {W L : Type} {server : Os W} {client : Os L}

/-! ## Uploads -/

/-- A refused upload leaves the files of the server as they were. -/
def KeptByUpload (fs : FileSystem server) (baseDir_ : Bytes) : Prop :=
  ∀ r w a w', exec (FmsUpFile.echo server baseDir_ r) w = some (a, w') → a.retResult = FmResultNoSpace →
    fs.file w' = fs.file w

/-- A segment is stored with a result of its own only where nothing is written. -/
theorem storeFile_noSpace {file : FileFound} {path : Bytes} {offset filePos : ℤ} {w w' : W}
    (h : Ends (storeFile server file path offset) w (filePos, FmResultNoSpace) w') : w' = w := by
  obtain ⟨result, w₁, hresult, h⟩ := h.bind
  have hw₁ : w₁ = w := by
    cases hfound : file.result with
    | ok result =>
      rw [hfound] at hresult
      exact (ends_pure hresult).2
    | error e =>
      rw [hfound] at hresult
      exact absurd hresult ends_throw
  rw [hw₁] at h
  split_ifs at h with htaken
  · obtain ⟨writeSize, w₂, -, h⟩ := h.bind
    split_ifs at h with hfailed
    · cases (Prod.mk.inj (ends_pure h).1).2
    · obtain rfl : FmResultNoSpace = result := (Prod.mk.inj (ends_pure h).1).2
      exact absurd htaken (by decide)
  · exact (ends_pure h).2

/-- The space is measured before anything is touched. -/
theorem store_noSpace {r : UpReq} {path : Bytes} {filePos : ℤ} {w w' : W}
    (h : Ends (FmsUpFile.store server r path) w (filePos, FmResultNoSpace) w') : w' = w := by
  rw [FmsUpFile.store] at h
  split_ifs at h with hfirst
  · obtain ⟨free, w₁, husage, h⟩ := h.bind
    have hcall := ends_call husage
    have hw₁ : w₁ = w := (Prod.mk.inj hcall).2.symm
    split_ifs at h with hfull
    · exact (ends_pure h).2.trans hw₁
    · obtain ⟨_, w₂, -, h⟩ := h.bind
      obtain ⟨_, w₃, -, h⟩ := h.bind
      cases (Prod.mk.inj (ends_pure h).1).2
  · exact storeFile_noSpace h

theorem echo_noSpace {baseDir_ : Bytes} {r : UpReq} {a : UpAck} {w w' : W}
    (h : Ends (FmsUpFile.echo server baseDir_ r) w a w') (hfull : a.retResult = FmResultNoSpace) :
    w' = w := by
  rw [FmsUpFile.echo] at h
  split_ifs at h with hbase
  · obtain ⟨⟨filePos, retResult⟩, w₁, hstore, h⟩ := h.bind
    dsimp only at h
    split_ifs at h with hend
    · obtain ⟨_, w₂, -, h⟩ := h.bind
      obtain ⟨rfl, -⟩ := ends_pure h
      exact absurd (hend.symm.trans hfull) (by decide)
    · obtain ⟨rfl, rfl⟩ := ends_pure h
      obtain rfl : retResult = FmResultNoSpace := hfull
      exact store_noSpace hstore
  · exact (ends_pure h).2

/-- **A refused upload changes nothing.** -/
theorem keptByUpload (fs : FileSystem server) (baseDir_ : Bytes) : fs.KeptByUpload baseDir_ :=
  fun _ _ _ _ hexec hfull => congrArg fs.file (echo_noSpace (ends_of_exec hexec) hfull)

/-! ## Downloads -/

/-- A refused download leaves the files of the client as they were. -/
def KeptByDownload (fs : FileSystem client) (task : FmTask) (t : FmTaskDownload) (l : L) : Prop :=
  ∀ task' l', exec (FmcDownFile.req client task t) l = some ((task', none), l') →
    task'.result_ = FmResultNoSpace → fs.file l' = fs.file l

/-- There is a file at the path of the task, and it may be deleted. -/
def MayLose (fs : FileSystem client) (t : FmTaskDownload) (l : L) : Prop :=
  (fs.file l t.localPath_).isSome ∧ fs.mayDelete l t.localPath_

/-- What making room for a file leaves of the files: all of them, but for one at its path. -/
theorem file_cleared (fs : FileSystem client) (t : FmTaskDownload) (l : L) :
    fs.file (client.opUnlink t.localPath_ (client.whPrepareFolder t.localPath_ l)).2 = fs.file l ↔
      ¬ fs.MayLose t l := by
  have hsame : fs.MayLose t (client.whPrepareFolder t.localPath_ l) = fs.MayLose t l := by
    rw [MayLose, fs.file_whPrepareFolder, fs.mayDelete_whPrepareFolder, MayLose]
  constructor
  · intro heq hlose
    have hgone := fs.file_opUnlink _ _ (hsame.mpr hlose).1 (hsame.mpr hlose).2
    rw [heq] at hgone
    rw [MayLose, hgone] at hlose
    cases hlose.1
  · intro hlose
    rw [fs.file_opUnlink_eq _ _ fun h => hlose (hsame.mp h), fs.file_whPrepareFolder]

/-- **A refused download changes nothing exactly where there is nothing to lose.** -/
theorem keptByDownload_iff (fs : FileSystem client) (task : FmTask) (t : FmTaskDownload) (l : L) :
    fs.KeptByDownload task t l ↔ ¬ (FmcDownFile.NoSpace client t l ∧ fs.MayLose t l) := by
  rw [KeptByDownload]
  by_cases hfirst : t.offset_ < 0
  · rw [(FmcDownFile.req_yields client task hfirst l).exec_eq, FmcDownFile.NoSpace]
    split_ifs with hfull
    · rw [and_iff_right ⟨hfirst, hfull⟩, ← fs.file_cleared]
      constructor
      · exact fun hkept => hkept _ _ rfl rfl
      · rintro heq task' l' hexec -
        obtain ⟨-, rfl⟩ := Prod.mk.inj (Option.some.inj hexec)
        exact heq
    · refine iff_of_true ?_ fun h => hfull h.1.2
      rintro task' l' hexec -
      cases (Prod.mk.inj (Prod.mk.inj (Option.some.inj hexec)).1).2
  · refine iff_of_true ?_ fun h => hfirst h.1.1
    rintro task' l' hexec -
    rw [FmcDownFile.req, if_neg hfirst, exec_pure] at hexec
    cases (Prod.mk.inj (Prod.mk.inj (Option.some.inj hexec)).1).2

/-- **Refusals change nothing exactly where a download finds room, or no file that it could delete.** -/
theorem refusal_iff (here : FileSystem client) (there : FileSystem server) (baseDir_ : Bytes)
    (task : FmTask) (t : FmTaskDownload) (l : L) :
    (here.KeptByDownload task t l ∧ there.KeptByUpload baseDir_) ↔
      ¬ (FmcDownFile.NoSpace client t l ∧ here.MayLose t l) := by
  rw [and_iff_left (there.keptByUpload baseDir_), here.keptByDownload_iff]

/-- A file to be downloaded where an older copy is. -/
def again : FmTaskDownload := ⟨[slash, 97], [98], -1, 1, 0, false⟩

/-- **On a full disk the older copy is lost.** -/
theorem not_refusal : ¬ ∀ (free : Bytes → ℤ) (baseDir_ : Bytes) (task : FmTask) (t : FmTaskDownload)
    (l : Disk), (Disk.fileSystem true free).KeptByDownload task t l ∧
      (Disk.fileSystem true free).KeptByUpload baseDir_ := by
  intro h
  have hkept := (h (fun _ => 0) [] ⟨0, FmResultOk, .download again⟩ again [([slash, 97], .file [1])]).1 _ _
    rfl rfl
  exact absurd (congrFun hkept [slash, 97]) (by decide)

end FileSystem

end EuhatExpert
