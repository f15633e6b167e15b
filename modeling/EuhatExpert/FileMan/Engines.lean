import EuhatExpert.FileMan.FileManClient
import EuhatExpert.FileMan.FmLocal
import EuhatExpert.FileMan.SchedulerOrder
import EuhatExpert.FileMan.SubListBytes

/-!
# FileMan/Engines — both engines and the user at one queue

`FileManClient` and `FmLocal` take their tasks from one queue, to which the user adds.  The client is on
one connection, past its handshake; the server answers every request once, in any way.
-/

namespace EuhatExpert

open Machinery TraceM

/-- The client with the queue, the local disk, and what is on the line. -/
structure Engines (L : Type) where
  client : FileManClient
  disk : L
  requests : List FmReq
  acks : List FmAck

namespace Engines

variable {L : Type}

/-- After `onUserStart`. -/
def ready (scheduler : FmScheduler) (disk : L) : Engines L :=
  ⟨(FileManClient.fresh scheduler).onUserStart, disk, [], []⟩

def scheduler_ (s : Engines L) : FmScheduler := s.client.scheduler_

/-- The queue as somebody else than the client leaves it. -/
def withScheduler (s : Engines L) (scheduler : FmScheduler) : Engines L :=
  { s with client := { s.client with scheduler_ := scheduler } }

/-- What the user does to the queue. -/
inductive UserCall
  | add (body : FmTask.Body)
  | addRefreshTask (isPeer : Bool) (t : FmTaskGetSubList)
  | fmscOnRefresh
  | cleanError
  | cleanAll

def UserCall.call : UserCall → SchedulerCall
  | add body => .add body
  | addRefreshTask isPeer t => .addRefreshTask isPeer t
  | fmscOnRefresh => .fmscOnRefresh
  | cleanError => .cleanError
  | cleanAll => .cleanAll

inductive Event
  | userLoop
  | serve (a : FmAck)
  | read
  | timer
  | localLoop
  | user (c : UserCall)

/-- What the engines run on; `loop` tells the listings of either side apart. -/
structure Setup (L : Type) where
  os : Os L
  isUnix_ : Bool

variable (S : Setup L)

def Setup.dispatchRemote : FmTask → Bytes → FmScheduler → FmScheduler :=
  dispatchSubListBytes ⟨true, S.isUnix_⟩

def Setup.dispatchLocal : FmTask → Bytes → FmScheduler → FmScheduler :=
  dispatchSubListBytes ⟨false, S.isUnix_⟩

/-- One whole handler of an engine (`Threads` takes them apart), an answer of the server, or a call of the user. -/
inductive Step : Engines L → Event → Engines L → Prop
  | userLoop {s c r l} : exec (FileManClient.onUserLoop S.os s.client) s.disk = some ((c, r), l) →
      Step s .userLoop { s with client := c, disk := l, requests := s.requests ++ r.toList }
  | serve {s r rest} (a : FmAck) : s.requests = r :: rest →
      Step s (.serve a) { s with requests := rest, acks := s.acks ++ [a] }
  | read {s a rest c l} : s.acks = a :: rest →
      exec (FileManClient.onRead S.os S.dispatchRemote a s.client) s.disk = some (c, l) →
      Step s .read { s with client := c, disk := l, acks := rest }
  | timer {s} : Step s .timer s
  | localLoop {s q l} : exec (FmLocal.onUserLoop S.os S.dispatchLocal s.scheduler_) s.disk = some (q, l) →
      Step s .localLoop { s.withScheduler q with disk := l }
  | user {s} (c : UserCall) : Step s (.user c) (s.withScheduler (c.call.apply s.scheduler_))

end Engines

end EuhatExpert
