import EuhatExpert.FileMan.EuhatPath
import EuhatExpert.FileMan.FmScheduler

/-!
# FileMan/DispatchSubList — the tasks made of a listing

A listing is the path of a folder and the entries in it.  Every entry becomes the tasks of the action the
listing was asked for with, and the folder itself the tasks behind them: its deletion, with a priority that
falls with its depth, and its creation on the other side.
-/

namespace EuhatExpert

open Machinery

/-- An entry of a listing, as `whGetSubFiles` writes it. -/
inductive SubEntry
  | folder (name : Bytes)
  | file (name : Bytes) (size lastWriteTime : ℤ)

/-- A listing: the folder's path, and what is in the folder. -/
structure SubList where
  curDir : Bytes
  entries : List SubEntry

/-- The engine whose side a listing is of: `remote` is the engine `scheduler->remote_`, and `isUnix_` is
what that engine was told of its server. -/
structure FmLoop where
  remote : Bool
  isUnix_ : Bool

namespace FmLoop

/-- The engine of the other side. -/
def other (loop : FmLoop) : FmLoop := { loop with remote := !loop.remote }

/-- The local side is never a Unix one. -/
def combinePath (loop : FmLoop) (curDir name : Bytes) : Bytes :=
  ({ EuhatPath.inStr curDir with isUnix_ := loop.remote && loop.isUnix_ }.goSub name).toStr

end FmLoop

section Dispatch

variable (loop : FmLoop) (task : FmTaskGetSubList)

/-- What is added for an entry. -/
def SubEntry.bodies (curDir : Bytes) : SubEntry → List FmTask.Body
  | folder name =>
    match task.action_ with
    | .ActionInformUi => []
    | .ActionDel => [.getSubList loop.remote ⟨loop.combinePath curDir name, .ActionDel, [], false⟩]
    | .ActionDownUp =>
      [.new loop.other.remote ⟨loop.other.combinePath task.peerPath_ name, 1, false⟩,
        .getSubList loop.remote ⟨loop.combinePath curDir name, .ActionDownUp,
          loop.other.combinePath task.peerPath_ name, task.isMove_⟩]
    | .ActionCopy =>
      [.getSubList loop.remote ⟨loop.combinePath curDir name, .ActionCopy,
        loop.other.combinePath task.peerPath_ name, task.isMove_⟩]
  | file name size lastWriteTime =>
    match task.action_ with
    | .ActionInformUi => []
    | .ActionDel => [.del loop.remote ⟨loop.combinePath curDir name, 0, 100⟩]
    | .ActionDownUp =>
      if loop.remote then
        [.download ⟨loop.other.combinePath task.peerPath_ name, loop.combinePath curDir name, -1, size,
          lastWriteTime, task.isMove_⟩]
      else
        [.upload ⟨loop.combinePath curDir name, loop.other.combinePath task.peerPath_ name, -1, size,
          lastWriteTime, task.isMove_⟩]
    | .ActionCopy =>
      [.copy loop.remote ⟨loop.combinePath curDir name, loop.combinePath task.peerPath_ name, -1, size⟩]

/-- The deletion of a folder, behind what is in it. -/
def delBody (curDir : Bytes) : FmTask.Body :=
  .del loop.remote ⟨curDir, 1, 1000 - (EuhatPath.inStr curDir).path_.length⟩

/-- What is added for the folder itself. -/
def SubList.lastBodies (curDir : Bytes) : List FmTask.Body :=
  (if task.action_ = .ActionDel ∨ task.action_ = .ActionDownUp ∧ task.isMove_ then
    [delBody loop curDir] else []) ++
  (if task.action_ = .ActionDownUp then [.new loop.other.remote ⟨task.peerPath_, 1, false⟩] else [])

/-- All a listing adds, in order. -/
def SubList.bodies (l : SubList) : List FmTask.Body :=
  (l.entries.flatMap fun e => e.bodies loop task l.curDir) ++ SubList.lastBodies loop task l.curDir

/-- `dispatchSubList`; the listing for the view leaves the queue alone. -/
def dispatchSubList (l : SubList) (s : FmScheduler) : FmScheduler :=
  if task.action_ = .ActionInformUi then s else (l.bodies loop task).foldl FmScheduler.add s

end Dispatch

end EuhatExpert
