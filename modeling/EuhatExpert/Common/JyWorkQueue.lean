import EuhatExpert.Machinery.Run

/-!
# Common/JyWorkQueue — a queue, the thread that works it off, and the end of that thread

`workProc` tests `workThreadIsRunning_`, takes a message in `popFrontWait` or waits there for one, and
works it off; `stop` clears the flag, signals, and joins the thread.  A section of the mutex is one step,
and a signal wakes a thread that waits already, or nothing.

The flag is tested outside the mutex and the signal is sent without it: the signal is lost when it comes
between the test and the wait.  `neverHung_of_run`: that is all that can go wrong.
-/

namespace EuhatExpert

open Machinery

/-- Where `workProc` stands. -/
inductive WorkerAt (T : Type)
  /-- At the test of `workThreadIsRunning_`. -/
  | testing
  /-- In front of `popFrontWait`, the flag found set. -/
  | popping
  /-- In `cond_.wait`. -/
  | waiting
  /-- Signalled: `popFrontWait` is about to return nothing. -/
  | woken
  /-- `popFrontWait` returned a message. -/
  | popped (t : T)
  /-- In front of `onWork`, in the first loop or in the one that works off what is left. -/
  | ready (draining : Bool) (t : T)
  /-- In `onWork`. -/
  | working (draining : Bool) (t : T)
  /-- In front of `popFront`, in the second loop. -/
  | draining
  | done

/-- Whether the thread waits for a signal. -/
def WorkerAt.isWaiting {T : Type} : WorkerAt T → Bool
  | waiting => true
  | _ => false

theorem WorkerAt.isWaiting_iff {T : Type} {w : WorkerAt T} : w.isWaiting = true ↔ w = .waiting := by
  cases w
  all_goals simp [isWaiting]

/-- How far the call of `stop` is. -/
inductive StopAt
  | notCalled
  | cleared
  | signalled
  | joined
  deriving DecidableEq

structure JyWorkQueue (T : Type) where
  list_ : List T
  workThreadIsRunning_ : Bool
  workProc : WorkerAt T
  stop : StopAt

/-- What can happen to a queue: a step of `workProc`, a `pushBack` of any thread, a step of `stop`. -/
inductive QueueEvent (T : Type)
  | test
  | popFrontWait
  | wake
  | returnEmpty
  | dropUnique
  | onWork
  | finish
  | popFront
  | pushBack (t : T)
  | clear
  | signal
  | join

namespace JyWorkQueue

variable {T : Type} (isUnique : T → Bool)

/-- `start`, on the messages pushed before. -/
def start (list : List T) : JyWorkQueue T := ⟨list, true, .testing, .notCalled⟩

/-- `cond_.signal()`. -/
def signal (s : JyWorkQueue T) : JyWorkQueue T :=
  if s.workProc.isWaiting then { s with workProc := .woken } else s

/-- `pushBack`: only the message that ends an empty list is signalled. -/
def pushBack (s : JyWorkQueue T) (t : T) : JyWorkQueue T :=
  let s := { s with list_ := s.list_ ++ [t] }
  if s.list_.length = 1 then s.signal else s

/-- `popFrontWait`, up to its wait or its return. -/
def popFrontWait (s : JyWorkQueue T) : JyWorkQueue T :=
  match s.list_ with
  | [] => { s with workProc := .waiting }
  | t :: rest => { s with list_ := rest, workProc := .popped t }

/-- `popFront`, and the end of `workProc` when there is nothing left. -/
def popFront (s : JyWorkQueue T) : JyWorkQueue T :=
  match s.list_ with
  | [] => { s with workProc := .done }
  | t :: rest => { s with list_ := rest, workProc := .ready true t }

/-- A message that is unique takes the others that are with it. -/
def dropUnique (s : JyWorkQueue T) (t : T) : JyWorkQueue T :=
  { s with
    list_ := if isUnique t then s.list_.filter fun t => !isUnique t else s.list_
    workProc := .ready false t }

/-- One step.  A wait may also end by itself, as `pthread_cond_wait` allows. -/
inductive Step : JyWorkQueue T → QueueEvent T → JyWorkQueue T → Prop
  | test {s : JyWorkQueue T} (h : s.workProc = .testing) :
      Step s .test { s with workProc := if s.workThreadIsRunning_ then .popping else .draining }
  | popFrontWait {s : JyWorkQueue T} (h : s.workProc = .popping) : Step s .popFrontWait s.popFrontWait
  | wake {s : JyWorkQueue T} (h : s.workProc = .waiting) : Step s .wake { s with workProc := .woken }
  | returnEmpty {s : JyWorkQueue T} (h : s.workProc = .woken) :
      Step s .returnEmpty { s with workProc := .testing }
  | dropUnique {s : JyWorkQueue T} {t : T} (h : s.workProc = .popped t) :
      Step s .dropUnique (s.dropUnique isUnique t)
  | onWork {s : JyWorkQueue T} {draining : Bool} {t : T} (h : s.workProc = .ready draining t) :
      Step s .onWork { s with workProc := .working draining t }
  | finish {s : JyWorkQueue T} {draining : Bool} {t : T} (h : s.workProc = .working draining t) :
      Step s .finish { s with workProc := if draining then .draining else .testing }
  | popFront {s : JyWorkQueue T} (h : s.workProc = .draining) : Step s .popFront s.popFront
  | pushBack (s : JyWorkQueue T) (t : T) : Step s (.pushBack t) (s.pushBack t)
  | clear {s : JyWorkQueue T} (h : s.stop = .notCalled) :
      Step s .clear { s with workThreadIsRunning_ := false, stop := .cleared }
  | signal {s : JyWorkQueue T} (h : s.stop = .cleared) :
      Step s .signal { s.signal with stop := .signalled }
  | join {s : JyWorkQueue T} (h : s.stop = .signalled) (hdone : s.workProc = .done) :
      Step s .join { s with stop := .joined }

/-! ## What a step leaves -/

section Frame

variable (s : JyWorkQueue T) (t : T)

@[simp] theorem signal_list : s.signal.list_ = s.list_ := by
  rw [signal]
  split_ifs <;> rfl

@[simp] theorem signal_running : s.signal.workThreadIsRunning_ = s.workThreadIsRunning_ := by
  rw [signal]
  split_ifs <;> rfl

@[simp] theorem signal_stop : s.signal.stop = s.stop := by
  rw [signal]
  split_ifs <;> rfl

/-- Nobody waits after a signal. -/
theorem signal_workProc_ne : s.signal.workProc ≠ .waiting := by
  rw [signal]
  split_ifs with h
  · exact nofun
  · exact fun hw => h (WorkerAt.isWaiting_iff.mpr hw)

theorem signal_of_ne {s : JyWorkQueue T} (h : s.workProc ≠ .waiting) : s.signal = s :=
  if_neg fun hw => h (WorkerAt.isWaiting_iff.mp hw)

@[simp] theorem pushBack_list : (s.pushBack t).list_ = s.list_ ++ [t] := by
  rw [pushBack]
  split_ifs
  · exact signal_list _
  · rfl

@[simp] theorem pushBack_running : (s.pushBack t).workThreadIsRunning_ = s.workThreadIsRunning_ := by
  rw [pushBack]
  split_ifs
  · exact signal_running _
  · rfl

@[simp] theorem pushBack_stop : (s.pushBack t).stop = s.stop := by
  rw [pushBack]
  split_ifs
  · exact signal_stop _
  · rfl

theorem pushBack_workProc (h : s.workProc ≠ .waiting) : (s.pushBack t).workProc = s.workProc := by
  rw [pushBack]
  split_ifs
  · rw [@signal_of_ne _ { s with list_ := s.list_ ++ [t] } h]
  · rfl

end Frame

/-! ## Messages on their way to `onWork` -/

/-- The message `workProc` has taken and not handed to `onWork` yet. -/
def taken (s : JyWorkQueue T) : List T :=
  match s.workProc with
  | .popped t => [t]
  | .ready _ t => [t]
  | _ => []

/-- The messages that `onWork` is still to see. -/
def ahead (s : JyWorkQueue T) : List T := s.taken ++ s.list_

theorem taken_signal (s : JyWorkQueue T) : s.signal.taken = s.taken := by
  by_cases hw : s.workProc = .waiting
  · rw [show s.signal = { s with workProc := .woken } from if_pos (WorkerAt.isWaiting_iff.mpr hw), taken,
      taken, hw]
  · rw [signal_of_ne hw]

theorem ahead_signal (s : JyWorkQueue T) : s.signal.ahead = s.ahead := by
  rw [ahead, taken_signal, signal_list, ahead]

theorem ahead_pushBack (s : JyWorkQueue T) (t : T) : (s.pushBack t).ahead = s.ahead ++ [t] := by
  have h : JyWorkQueue.ahead { s with list_ := s.list_ ++ [t] } = s.ahead ++ [t] :=
    (List.append_assoc _ _ _).symm
  rw [pushBack]
  split_ifs
  · rw [ahead_signal, h]
  · exact h

/-- **No message comes from anywhere but a `pushBack`.** -/
theorem Step.mem_ahead {isUnique : T → Bool} {s s' : JyWorkQueue T} {e : QueueEvent T}
    (h : Step isUnique s e s') {t : T} (ht : t ∈ s'.ahead) : t ∈ s.ahead ∨ e = .pushBack t := by
  cases h with
  | test hat =>
    left
    cases hr : s.workThreadIsRunning_
    · simpa [ahead, taken, hat, hr] using ht
    · simpa [ahead, taken, hat, hr] using ht
  | popFrontWait hat =>
    left
    rw [JyWorkQueue.popFrontWait] at ht
    split at ht
    · rename_i hlist
      simp [ahead, taken, hlist] at ht
    · rename_i hlist
      simpa [ahead, taken, hat, hlist] using ht
  | wake hat => exact .inl (by simpa [ahead, taken, hat] using ht)
  | returnEmpty hat => exact .inl (by simpa [ahead, taken, hat] using ht)
  | @dropUnique t' hat =>
    left
    rw [JyWorkQueue.dropUnique] at ht
    split_ifs at ht
    · have hsub : t = t' ∨ t ∈ s.list_ := by
        simp only [ahead, taken, List.mem_append, List.mem_singleton, List.mem_filter] at ht
        exact ht.imp_right And.left
      simpa [ahead, taken, hat] using hsub
    · simpa [ahead, taken, hat] using ht
  | onWork hat =>
    left
    have hlist : t ∈ s.list_ := by simpa [ahead, taken] using ht
    exact List.mem_append_right _ hlist
  | @finish draining _ hat =>
    left
    cases draining
    · simpa [ahead, taken, hat] using ht
    · simpa [ahead, taken, hat] using ht
  | popFront hat =>
    left
    rw [JyWorkQueue.popFront] at ht
    split at ht
    · rename_i hlist
      simp [ahead, taken, hlist] at ht
    · rename_i hlist
      simpa [ahead, taken, hat, hlist] using ht
  | pushBack t' =>
    rw [ahead_pushBack, List.mem_append, List.mem_singleton] at ht
    exact ht.imp_right fun h => by rw [h]
  | clear hat => exact .inl ht
  | signal hat =>
    left
    rw [← ahead_signal]
    exact ht
  | join hat hdone => exact .inl ht

/-! ## Stopping -/

/-- `stop` has cleared the flag and signalled, and the thread waits for a message that is not there. -/
structure Hung (s : JyWorkQueue T) : Prop where
  signalled : s.stop = .signalled
  waiting : s.workProc = .waiting
  empty : s.list_ = []

/-- The signal of `stop` does not come between the test of the flag and the wait on an empty list. -/
def InTime (s : JyWorkQueue T) (e : QueueEvent T) : Prop :=
  match e with
  | .signal => ¬ (s.workProc = .popping ∧ s.list_ = [])
  | _ => True

/-- Once `stop` has begun the flag is clear, and once it has signalled nobody waits, or is about to. -/
structure Stops (s : JyWorkQueue T) : Prop where
  flag : s.stop ≠ .notCalled → s.workThreadIsRunning_ = false
  awake : s.stop = .signalled → s.workProc ≠ .waiting ∧ (s.workProc = .popping → s.list_ ≠ [])

variable {isUnique}

theorem stops_start (list : List T) : Stops (start list) := ⟨fun h => absurd rfl h, nofun⟩

/-- **A step whose signal is in time keeps `Stops`.** -/
theorem Stops.step {s s' : JyWorkQueue T} {e : QueueEvent T} (h : Stops s) (hstep : Step isUnique s e s')
    (hin : InTime s e) : Stops s' := by
  cases hstep with
  | test hat =>
    refine ⟨h.flag, fun hs => ?_⟩
    rw [h.flag (by rw [hs]; exact nofun)]
    exact ⟨nofun, nofun⟩
  | popFrontWait hat =>
    rw [JyWorkQueue.popFrontWait]
    split
    · rename_i hlist
      exact ⟨h.flag, fun hs => absurd hlist ((h.awake hs).2 hat)⟩
    · exact ⟨h.flag, fun _ => ⟨nofun, nofun⟩⟩
  | wake hat => exact ⟨h.flag, fun _ => ⟨nofun, nofun⟩⟩
  | returnEmpty hat => exact ⟨h.flag, fun _ => ⟨nofun, nofun⟩⟩
  | dropUnique hat => exact ⟨h.flag, fun _ => ⟨nofun, nofun⟩⟩
  | onWork hat => exact ⟨h.flag, fun _ => ⟨nofun, nofun⟩⟩
  | @finish draining _ hat =>
    refine ⟨h.flag, fun _ => ?_⟩
    cases draining
    · exact ⟨nofun, nofun⟩
    · exact ⟨nofun, nofun⟩
  | popFront hat =>
    rw [JyWorkQueue.popFront]
    split
    · exact ⟨h.flag, fun _ => ⟨nofun, nofun⟩⟩
    · exact ⟨h.flag, fun _ => ⟨nofun, nofun⟩⟩
  | pushBack t =>
    refine ⟨by simpa using h.flag, fun hs => ?_⟩
    have hawake := h.awake (by simpa using hs)
    rw [pushBack_workProc s t hawake.1]
    exact ⟨hawake.1, fun _ => by simp⟩
  | clear hat => exact ⟨fun _ => rfl, nofun⟩
  | signal hat =>
    have hflag := h.flag (by rw [hat]; exact nofun)
    refine ⟨fun _ => by simpa using hflag, fun _ => ⟨s.signal_workProc_ne, fun hpopping hlist => ?_⟩⟩
    refine hin ⟨?_, by simpa using hlist⟩
    by_cases hw : s.workProc = .waiting
    · rw [show s.signal = { s with workProc := .woken } from
        if_pos (WorkerAt.isWaiting_iff.mpr hw)] at hpopping
      cases hpopping
    · rwa [signal_of_ne hw] at hpopping
  | join hat hdone => exact ⟨fun _ => h.flag (by rw [hat]; exact nofun), nofun⟩

/-- **In a run in which the signal of `stop` is in time, `stop` never hangs.** -/
theorem neverHung_of_run {list : List T} {es : List (QueueEvent T)} {s : JyWorkQueue T}
    (h : Run (restrict (Step isUnique) InTime) (start list) es s) : ¬ Hung s := by
  have hstops : Stops s := h.invariant (stops_start list) fun _ _ _ hs hr => hs.step hr.1 hr.2
  exact fun hhung => (hstops.awake hhung.signalled).1 hhung.waiting

/-- The events of a thread that is stopped while it waits. -/
def stoppedWhileWaiting : List (QueueEvent Unit) :=
  [.test, .popFrontWait, .clear, .signal, .returnEmpty, .test, .popFront, .join]

/-- **Stopped while it waits, the thread is woken and joined.** -/
theorem stoppedWhileWaiting_neverHung : ∃ s : JyWorkQueue Unit, s.stop = .joined ∧
    Run (restrict (Step fun _ => false) InTime) (start []) stoppedWhileWaiting s ∧ ¬ Hung s := by
  have hrun : Run (restrict (Step fun _ => false) InTime) (start []) stoppedWhileWaiting
      ⟨[], false, .done, .joined⟩ :=
    (((((((Run.nil.snoc ⟨.test rfl, trivial⟩).snoc ⟨.popFrontWait rfl, trivial⟩).snoc
      ⟨.clear rfl, trivial⟩).snoc ⟨.signal rfl, fun h => nomatch h.1⟩).snoc
      ⟨.returnEmpty rfl, trivial⟩).snoc ⟨.test rfl, trivial⟩).snoc ⟨.popFront rfl, trivial⟩).snoc
      ⟨.join rfl rfl, trivial⟩
  exact ⟨_, rfl, hrun, neverHung_of_run hrun⟩

/-- **Stopped between the test and the wait, the thread waits for ever.** -/
theorem lostWakeUp : ∃ s : JyWorkQueue Unit,
    Run (Step fun _ => false) (start []) [.test, .clear, .signal, .popFrontWait] s ∧ Hung s := by
  refine ⟨_, (((Run.nil.snoc (.test rfl)).snoc (.clear rfl)).snoc (.signal rfl)).snoc
    (.popFrontWait rfl), rfl, rfl, rfl⟩

end JyWorkQueue

end EuhatExpert
