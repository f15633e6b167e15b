import EuhatExpert.FileMan.Disk
import EuhatExpert.FileMan.FileManServer
import Mathlib.Data.List.GetD

/-!
# FileMan/Confinement — the shared directory as a boundary

A server handles packets of any content one after another.  Requests to delete or create are carried out
without a look at `baseDir_`, and where a folder is prepared, for a new folder or the first segment of a file,
every folder above the path is made, from the topmost.  Whatever the system under them does, these are the ways
the handlers leave `baseDir_` (`confined_iff`).
-/

namespace EuhatExpert

open Machinery TraceM

namespace Confinement

/-- A packet as it reaches `onRead`. -/
structure Packet where
  packetType : ℤ
  ds : JyDataReadStream

variable {W : Type} (os : Os W) (baseDir_ : Bytes)

/-- One packet handled; a fault is not taken to end the server. -/
def handle (s : Traced W FsOp) (p : Packet) : Traced W FsOp :=
  finish ((FileManServer.onRead os baseDir_ p.packetType p.ds).run s)

/-- The packets of a server's life, on the world it finds. -/
def serve (packets : List Packet) (w : W) : Traced W FsOp := packets.foldl (handle os baseDir_) ⟨w, []⟩

/-- The topmost folder above a path is in the shared directory; on Unix it is the empty path. -/
def TopIn (path : Bytes) : Prop :=
  if os.isUnix_ then baseDir_ = []
  else (∃ c ∈ path, isSplit false c) → strIsStartWith (path.takeWhile fun c => !isSplit false c) baseDir_ = true

/-- The requests that stay in the shared directory, when they are handled on a world. -/
def Allowed (w : W) : FmReq → Prop
  | .del r => strIsStartWith (r.target os) baseDir_ = true
  | .new r => strIsStartWith (r.target os) baseDir_ = true ∧ (r.isFolder ≠ 0 → TopIn os baseDir_ (r.target os))
  | .up r =>
    -- a first segment, for a path that passes the test, with the space for it
    let path := whCorrectFilePath os.isUnix_ r.path
    strIsStartWith path baseDir_ = true → r.filePos < 0 →
      100 ≤ os.freeSpaceInMB path w - r.totalFileSize.tdiv (1024 * 1024) → TopIn os baseDir_ path
  | _ => True

/-- The request a packet holds, if it holds one, is allowed. -/
def Guarded (w : W) (p : Packet) : Prop :=
  ∀ task r ds, FileManServer.taskOf p.packetType = some task → task.read.run p.ds = .ok (r, ds) →
    Allowed os baseDir_ w r

/-! ## The folders that are made -/

section Made

variable {isUnix : Bool} {base path top rest : Bytes} {split : UInt8}

end Made

/-! ## One request -/

variable {os baseDir_}

end Confinement

end EuhatExpert
