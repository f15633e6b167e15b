import EuhatExpert.FileMan.EuhatPath
import EuhatExpert.Common.JyDataStream
import EuhatExpert.Machinery.Trace

/-!
# FileMan/Os — the file system under the handlers

An `Os` is the layer of a system that the handlers call, on a world of any type.  Each call is logged
with the path it is made with.
-/

namespace EuhatExpert

open Machinery

/-- The layer under `src/euhat/os`.  The results of `fopen` say whether a handle was given. -/
structure Os (W : Type) where
  isUnix_ : Bool
  fopenRead : Bytes → W → Bool
  fopenAppend : Bytes → W → Bool × W
  fopenCreate : Bytes → W → Bool × W
  whGetFileSize : Bytes → W → ℤ
  fread : Bytes → ℤ → ℕ → W → Bytes
  fwrite : Bytes → Bytes → W → W
  opUnlink : Bytes → W → Bool × W
  opMkDir : Bytes → W → Bool × W
  opRmDir : Bytes → W → Bool × W
  whPrepareFolder : Bytes → W → W
  freeSpaceInMB : Bytes → W → ℤ
  whSetFileLastWriteTime : Bytes → ℤ → W → W
  whGetSubFiles : Bytes → W → Option Bytes

/-- The calls the handlers make with a path. -/
inductive FsCall
  | fopenRead
  | fopenAppend
  | fopenCreate
  | opUnlink
  | opMkDir
  | opRmDir
  | whGetDiskUsage
  | whSetFileLastWriteTime
  | whGetSubFiles
  deriving DecidableEq, Repr

/-- A call, and the path it was made with. -/
structure FsOp where
  call : FsCall
  path : Bytes
  deriving DecidableEq, Repr

/-- A handler on the world of an `Os`. -/
abbrev FsM (W : Type) := TraceM Fault W FsOp

namespace Os

variable {W : Type} (os : Os W) (path : Bytes)

/-- `fopen` with `rb`, which changes nothing. -/
def openRead : FsM W Bool := TraceM.call [⟨.fopenRead, path⟩] fun w => (os.fopenRead path w, w)

/-- `fopen` with `ab+`. -/
def openAppend : FsM W Bool := TraceM.call [⟨.fopenAppend, path⟩] (os.fopenAppend path)

/-- `fopen` with `wb+`. -/
def openCreate : FsM W Bool := TraceM.call [⟨.fopenCreate, path⟩] (os.fopenCreate path)

/-- `opUnlink`, and whether it deleted the file. -/
def unlink : FsM W Bool := TraceM.call [⟨.opUnlink, path⟩] (os.opUnlink path)

/-- `opMkDir`, and whether it made the folder. -/
def mkDir : FsM W Bool := TraceM.call [⟨.opMkDir, path⟩] (os.opMkDir path)

/-- `opRmDir`, and whether it deleted the folder. -/
def rmDir : FsM W Bool := TraceM.call [⟨.opRmDir, path⟩] (os.opRmDir path)

/-- The calls of `whPrepareFolder`, which is part of the layer: an `opMkDir` for each folder above the path. -/
def mkDirs : List FsOp := (EuhatExpert.whPrepareFolder os.isUnix_ path).map fun folder => ⟨.opMkDir, folder⟩

/-- `whPrepareFolder`: the folders above the path are made, and nothing is said of how it went. -/
def prepareFolder : FsM W Unit :=
  TraceM.call (os.mkDirs path) fun w => ((), os.whPrepareFolder path w)

/-- `whGetDiskUsage`, of which the handlers use the free megabytes. -/
def getDiskUsage : FsM W ℤ :=
  TraceM.call [⟨.whGetDiskUsage, path⟩] fun w => (os.freeSpaceInMB path w, w)

/-- `whSetFileLastWriteTime`, whose result no handler looks at. -/
def setFileLastWriteTime (t : ℤ) : FsM W Unit :=
  TraceM.call [⟨.whSetFileLastWriteTime, path⟩] fun w => ((), os.whSetFileLastWriteTime path t w)

/-- `whGetSubFiles`, with nothing where the folder cannot be listed. -/
def getSubFiles : FsM W (Option Bytes) :=
  TraceM.call [⟨.whGetSubFiles, path⟩] fun w => (os.whGetSubFiles path w, w)

/-- A call on an open handle, which names no path. -/
def onHandle {α : Type} (f : W → α × W) : FsM W α := fun s =>
  .ok (f s.state).1 { s with state := (f s.state).2 }

/-- It comes to what it acts as. -/
theorem yields_onHandle {α : Type} (f : W → α × W) (w : W) :
    TraceM.Yields (onHandle f) w (f w).1 (f w).2 :=
  fun log => ⟨log, rfl⟩

end Os

end EuhatExpert
