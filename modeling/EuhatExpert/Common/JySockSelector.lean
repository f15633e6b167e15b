import EuhatExpert.Common.JyWorkQueue
import Mathlib

/-!
# Common/JySockSelector — the thread that waits for packets, and for sockets

    test ──▸ copy the sets ──▸ select ──▸ onRead, socket after socket ──▸ test
                    └──▸ sleep, while `maxFd_` is 0

`workProc` selects among a copy of `readFds_`, and sleeps while there is nothing to select among; `add` wakes it
with the first socket.  `listens_of_run`: a registered socket is in every copy that is taken, and it is never
slept over, as long as the sets have room for every socket and none has the number 0, which is no socket to
`maxFd_`.  `stop` signals without the mutex, so that its signal may come too early, and that is all
(`comesEarly_of_hung`).
-/

namespace EuhatExpert

open Machinery

/-- Where `workProc` stands. -/
inductive SelectorAt
  /-- At the test of `workThreadIsRunning_`. -/
  | testing
  /-- In front of the section that copies the sets, the flag found set. -/
  | copying
  /-- In `cond_.wait`. -/
  | waiting
  | woken
  /-- In `select`, with its copies. -/
  | selecting (readFds : Finset ℕ) (maxFd : ℕ)
  /-- At the sockets `select` found ready. -/
  | reading (ready : List ℕ)
  | done
  deriving DecidableEq

/-- A selector; `socks_` are the keys of the table of its listeners. -/
structure JySockSelector where
  socks_ : Finset ℕ
  readFds_ : Finset ℕ
  maxFd_ : ℕ
  workThreadIsRunning_ : Bool
  workProc : SelectorAt
  stop : StopAt

/-- A step of `workProc`, an `add` or `del` of any thread, a step of `stop`. -/
inductive SelectEvent
  | test
  | copy
  | wake
  | retry
  | select (ready : List ℕ)
  | onRead (sock : ℕ)
  | again
  | add (sock : ℕ)
  | del (sock : ℕ)
  | clear
  | signal
  | join
  deriving DecidableEq

namespace JySockSelector

/-- As `winsock2.h` has it. -/
def FD_SETSIZE : ℕ := 64

/-- `FD_SET` of `winsock2.h`, whose sets are arrays: one that is full stays as it is.  A set of POSIX is a field of
bits, with room for every number below its own `FD_SETSIZE`; sockets there are to be below it. -/
def FD_SET (sock : ℕ) (fds : Finset ℕ) : Finset ℕ := if fds.card < FD_SETSIZE then insert sock fds else fds

/-- A selector whose thread has just been created. -/
def start : JySockSelector := ⟨∅, ∅, 0, true, .testing, .notCalled⟩

/-- `cond_.signal()` of a pthread condition, which nobody hears but who waits.  The semaphore of Windows keeps a
signal for the next wait, which is then ended at once, by a `wake`. -/
def signal (s : JySockSelector) : JySockSelector :=
  if s.workProc = .waiting then { s with workProc := .woken } else s

/-- `add`, of either kind of selector. -/
def add (s : JySockSelector) (sock : ℕ) : JySockSelector :=
  let s := { s with
    readFds_ := FD_SET sock s.readFds_
    maxFd_ := max s.maxFd_ sock
    socks_ := insert sock s.socks_ }
  if s.socks_.card = 1 then s.signal else s

/-- `del`, of either kind of selector. -/
def del (s : JySockSelector) (sock : ℕ) : JySockSelector :=
  if sock ∈ s.socks_ then
    { s with
      socks_ := s.socks_.erase sock
      readFds_ := s.readFds_.erase sock
      maxFd_ := (s.socks_.erase sock).sup id }
  else s

/-- The section of `workProc`. -/
def copy (s : JySockSelector) : JySockSelector :=
  { s with workProc := if s.maxFd_ = 0 then .waiting else .selecting s.readFds_ s.maxFd_ }

/-- One step.  A wait may end by itself, and a `select` that fails or has waited for two seconds finds nothing
ready. -/
inductive Step (s : JySockSelector) : SelectEvent → JySockSelector → Prop
  | test (h : s.workProc = .testing) :
      Step s .test { s with workProc := if s.workThreadIsRunning_ then .copying else .done }
  | copy (h : s.workProc = .copying) : Step s .copy s.copy
  | wake (h : s.workProc = .waiting) : Step s .wake { s with workProc := .woken }
  | retry (h : s.workProc = .woken) : Step s .retry { s with workProc := .testing }
  | select {readFds : Finset ℕ} {maxFd : ℕ} {ready : List ℕ} (h : s.workProc = .selecting readFds maxFd)
      (hready : ∀ sock ∈ ready, sock ∈ readFds ∧ sock ≤ maxFd) :
      Step s (.select ready) { s with workProc := .reading ready }
  | onRead {sock : ℕ} {ready : List ℕ} (h : s.workProc = .reading (sock :: ready)) :
      Step s (.onRead sock) { s with workProc := .reading ready }
  | again (h : s.workProc = .reading []) : Step s .again { s with workProc := .testing }
  | add (sock : ℕ) : Step s (.add sock) (s.add sock)
  | del (sock : ℕ) : Step s (.del sock) (s.del sock)
  | clear (h : s.stop = .notCalled) : Step s .clear { s with workThreadIsRunning_ := false, stop := .cleared }
  | signal (h : s.stop = .cleared) : Step s .signal { s.signal with stop := .signalled }
  | join (h : s.stop = .signalled) (hdone : s.workProc = .done) : Step s .join { s with stop := .joined }

/-! ## What a call leaves -/

section Frame

variable {s s' : JySockSelector} {e : SelectEvent} {sock other : ℕ}

/-- Nobody waits after a signal, and nothing but a wait ends with it. -/
theorem signal_eq :
    s.signal = { s with workProc := if s.workProc = .waiting then .woken else s.workProc } := by
  rw [signal]
  split_ifs <;> rfl

/-- Only a wait is ended by an `add`, and that by the first one. -/
theorem add_eq : s.add sock = { s with
    socks_ := insert sock s.socks_
    readFds_ := FD_SET sock s.readFds_
    maxFd_ := max s.maxFd_ sock
    workProc := if s.workProc = .waiting ∧ (insert sock s.socks_).card = 1 then .woken
      else s.workProc } := by
  rw [add, signal_eq]
  dsimp only
  by_cases hone : (insert sock s.socks_).card = 1
  · simp only [hone, if_true, and_true]
  · simp only [hone, if_false, and_false]

theorem FD_SET_eq {fds : Finset ℕ} (h : (insert sock fds).card ≤ FD_SETSIZE) :
    FD_SET sock fds = insert sock fds := by
  by_cases hmem : sock ∈ fds
  · rw [FD_SET, Finset.insert_eq_of_mem hmem, ite_self]
  · exact if_pos (by rw [Finset.card_insert_of_notMem hmem] at h; omega)

theorem mem_del : other ∈ (s.del sock).socks_ ↔ other ≠ sock ∧ other ∈ s.socks_ := by
  rw [del]
  split_ifs with h
  · exact Finset.mem_erase
  · refine ⟨fun hother => ⟨?_, hother⟩, And.right⟩
    rintro rfl
    exact h hother

@[simp] theorem del_running : (s.del sock).workThreadIsRunning_ = s.workThreadIsRunning_ := by
  rw [del]
  split_ifs <;> rfl

@[simp] theorem del_stop : (s.del sock).stop = s.stop := by
  rw [del]
  split_ifs <;> rfl

@[simp] theorem del_workProc : (s.del sock).workProc = s.workProc := by
  rw [del]
  split_ifs <;> rfl

/-- Sockets come by `add` and go by `del`. -/
theorem Step.socks (h : Step s e s') :
    s'.socks_ = s.socks_ ∨ (∃ sock, e = .add sock ∧ s'.socks_ = insert sock s.socks_) ∨
      ∃ sock, e = .del sock ∧ ∀ other, other ∈ s'.socks_ ↔ other ≠ sock ∧ other ∈ s.socks_ := by
  cases h with
  | add sock => exact .inr (.inl ⟨sock, rfl, by rw [add_eq]⟩)
  | del sock => exact .inr (.inr ⟨sock, rfl, fun _ => mem_del⟩)
  | signal hstop => exact .inl (by rw [signal_eq])
  | _ => exact .inl rfl

end Frame

/-! ## Sockets that are registered are selected -/

/-- A socket that is added is not 0, and there is room for it. -/
def Fits (s : JySockSelector) : SelectEvent → Prop
  | .add sock => sock ≠ 0 ∧ (insert sock s.socks_).card ≤ FD_SETSIZE
  | _ => True

/-- The sets are those of the table, and the thread sleeps only while the table is empty. -/
structure Attends (s : JySockSelector) : Prop where
  readFds : s.readFds_ = s.socks_
  maxFd : s.maxFd_ = s.socks_.sup id
  noZero : 0 ∉ s.socks_
  asleep : s.workProc = .waiting → s.socks_ = ∅

variable {s s' : JySockSelector} {e : SelectEvent} {es : List SelectEvent} {sock : ℕ}

theorem attends_start : start.Attends := ⟨rfl, rfl, by simp [start], nofun⟩

theorem Attends.eq_empty (h : s.Attends) (hmax : s.maxFd_ = 0) : s.socks_ = ∅ := by
  refine Finset.eq_empty_of_forall_notMem fun sock hsock => ?_
  have hle : sock ≤ s.maxFd_ := h.maxFd ▸ Finset.le_sup (f := id) hsock
  obtain rfl : sock = 0 := by omega
  exact h.noZero hsock

/-- A step that leaves the sets, and puts nobody to sleep. -/
theorem Attends.of_eq (h : s.Attends) (hsocks : s'.socks_ = s.socks_) (hread : s'.readFds_ = s.readFds_)
    (hmax : s'.maxFd_ = s.maxFd_) (hawake : s'.workProc = .waiting → s.workProc = .waiting) : s'.Attends where
  readFds := hread.trans (h.readFds.trans hsocks.symm)
  maxFd := by rw [hmax, h.maxFd, hsocks]
  noZero := hsocks ▸ h.noZero
  asleep hwaiting := hsocks.trans (h.asleep (hawake hwaiting))

theorem Attends.add (h : s.Attends) (hsock : sock ≠ 0) (hroom : (insert sock s.socks_).card ≤ FD_SETSIZE) :
    (s.add sock).Attends where
  readFds := by
    rw [add_eq]
    exact (congrArg (FD_SET sock) h.readFds).trans (FD_SET_eq hroom)
  maxFd := by
    rw [add_eq]
    dsimp only
    rw [Finset.sup_insert, h.maxFd, max_comm]
    rfl
  noZero := by
    rw [add_eq]
    exact fun hzero => (Finset.mem_insert.mp hzero).elim hsock.symm h.noZero
  asleep hwaiting := by
    rw [add_eq] at hwaiting
    dsimp only at hwaiting
    split_ifs at hwaiting with hwoken
    -- a thread that sleeps has an empty table, so that this socket is the first
    exact absurd ⟨hwaiting, by simp [h.asleep hwaiting]⟩ hwoken

theorem Attends.del (h : s.Attends) : (s.del sock).Attends := by
  rw [JySockSelector.del]
  split_ifs with hmem
  · exact {
      readFds := congrArg (Finset.erase · sock) h.readFds
      maxFd := rfl
      noZero := fun hzero => h.noZero (Finset.mem_of_mem_erase hzero)
      asleep := fun hwaiting => absurd hmem (by simp [h.asleep hwaiting]) }
  · exact h

/-- **One step.** -/
theorem Attends.step (h : s.Attends) (hstep : Step s e s') (hfits : s.Fits e) : s'.Attends := by
  cases hstep with
  | test hat =>
    refine h.of_eq rfl rfl rfl fun hwaiting => ?_
    dsimp only at hwaiting
    split_ifs at hwaiting
  | copy hat => exact ⟨h.readFds, h.maxFd, h.noZero, fun hwaiting => by
      dsimp only [JySockSelector.copy] at hwaiting
      split_ifs at hwaiting with hmax
      exact h.eq_empty hmax⟩
  | add sock => exact h.add hfits.1 hfits.2
  | del sock => exact h.del
  | clear hstop => exact h.of_eq rfl rfl rfl id
  | signal hstop =>
    rw [signal_eq]
    refine h.of_eq rfl rfl rfl fun hwaiting => ?_
    dsimp only at hwaiting
    split_ifs at hwaiting with hat
    exact absurd hwaiting hat
  | join hstop hdone => exact h.of_eq rfl rfl rfl id
  | _ => exact h.of_eq rfl rfl rfl (by simp)

theorem attends_of_run (h : Run (restrict Step Fits) start es s) : s.Attends :=
  h.invariant attends_start fun _ _ _ hs hr => hs.step hr.1 hr.2

/-- A socket stays in the table until it is deleted. -/
theorem mem_of_run (h : Run Step s es s') (hdel : .del sock ∉ es) (hmem : sock ∈ s.socks_) :
    sock ∈ s'.socks_ := by
  refine h.restrict_mem.invariant (I := fun s => sock ∈ s.socks_) hmem fun s e s' hs ⟨hstep, he⟩ => ?_
  obtain heq | ⟨other, -, heq⟩ | ⟨other, rfl, hiff⟩ := hstep.socks
  · exact heq ▸ hs
  · exact heq ▸ Finset.mem_insert_of_mem hs
  · refine (hiff sock).mpr ⟨?_, hs⟩
    rintro rfl
    exact hdel he

/-- **A registered socket is never slept over**: from its `add` to its `del`, whatever else is added and deleted
meanwhile and wherever the thread stood, the thread does not sleep, and each time it copies the sets it goes on
to select among them, this socket being one. -/
theorem listens_of_run {before after : List SelectEvent}
    (h : Run (restrict Step Fits) start (before ++ .add sock :: after) s) (hdel : .del sock ∉ after) :
    s.workProc ≠ .waiting ∧ ∀ s', Step s .copy s' →
      ∃ readFds maxFd, s'.workProc = .selecting readFds maxFd ∧ sock ∈ readFds ∧ sock ≤ maxFd := by
  have hattends : s.Attends := attends_of_run h
  have hmem : sock ∈ s.socks_ := by
    rw [← List.singleton_append, ← List.append_assoc] at h
    obtain ⟨t, ht, hafter⟩ := h.split
    obtain ⟨u, -, hadd⟩ := ht.split
    refine mem_of_run hafter.of_restrict hdel ?_
    cases hadd.step_of_single.1
    rw [add_eq]
    exact Finset.mem_insert_self _ _
  refine ⟨fun hwaiting => ?_, fun s' hcopy => ?_⟩
  · exact absurd hmem (by simp [hattends.asleep hwaiting])
  · cases hcopy
    have hmax : s.maxFd_ ≠ 0 := fun hmax => absurd hmem (by simp [hattends.eq_empty hmax])
    refine ⟨s.readFds_, s.maxFd_, if_neg hmax, ?_, ?_⟩
    · exact hattends.readFds ▸ hmem
    · exact hattends.maxFd ▸ Finset.le_sup (f := id) hmem

/-- The socket 5, added while the thread sleeps. -/
theorem run_addedAsleep : ∃ s, s.workProc = .copying ∧
    Run (restrict Step Fits) start ([.test, .copy] ++ .add 5 :: [.retry, .test]) s :=
  ⟨⟨{5}, {5}, 5, true, .copying, .notCalled⟩, rfl, ((((Run.nil.snoc ⟨.test rfl, trivial⟩).snoc
    ⟨.copy rfl, trivial⟩).snoc ⟨.add 5, by decide, by decide⟩).snoc ⟨.retry rfl, trivial⟩).snoc
    ⟨.test rfl, trivial⟩⟩

theorem listens_of_run_here : ∃ s : JySockSelector, s.workProc = .copying ∧
    (s.workProc ≠ .waiting ∧ ∀ s', Step s .copy s' →
      ∃ readFds maxFd, s'.workProc = .selecting readFds maxFd ∧ 5 ∈ readFds ∧ 5 ≤ maxFd) := by
  obtain ⟨s, hcopying, hrun⟩ := run_addedAsleep
  exact ⟨s, hcopying, listens_of_run hrun (by decide)⟩

/-- **The socket 0 is slept over**, and so is the one added behind it. -/
theorem sleptOver_zero : ∃ s, Run Step start [.test, .copy, .add 0, .retry, .test, .copy, .add 5] s ∧
    s.workProc = .waiting ∧ 5 ∈ s.socks_ :=
  ⟨_, ((((((Run.nil.snoc (.test rfl)).snoc (.copy rfl)).snoc (.add 0)).snoc (.retry rfl)).snoc (.test rfl)).snoc
    (.copy rfl)).snoc (.add 5), by decide, by decide⟩

/-! ## Stopping -/

/-- `stop` has cleared the flag and signalled, and the thread sleeps. -/
def Hung (s : JySockSelector) : Prop := s.stop = .signalled ∧ s.workProc = .waiting

/-- The signal of `stop` finds the thread between the test of the flag and its section. -/
def ComesEarly (es : List SelectEvent) : Prop :=
  ∃ before after t, es = before ++ .signal :: after ∧ Run Step start before t ∧ t.workProc = .copying

theorem ComesEarly.concat (h : ComesEarly es) (e : SelectEvent) : ComesEarly (es ++ [e]) := by
  obtain ⟨before, after, t, rfl, hrun, hat⟩ := h
  exact ⟨before, after ++ [e], t, by simp, hrun, hat⟩

/-- Once `stop` has begun the flag is clear, and once it has signalled the thread sleeps, or is about to look,
only if the signal came early. -/
structure Stops (es : List SelectEvent) (s : JySockSelector) : Prop where
  run : Run Step start es s
  flag : s.stop ≠ .notCalled → s.workThreadIsRunning_ = false
  early : s.stop = .signalled → s.workProc = .waiting ∨ s.workProc = .copying → ComesEarly es

/-- A step that leaves `stop` where it is, and the thread where it waits or is about to look, if it does. -/
theorem Stops.of_eq (h : Stops es s) (hstep : Step s e s')
    (hrunning : s'.workThreadIsRunning_ = s.workThreadIsRunning_) (hstop : s'.stop = s.stop)
    (hat : s'.workProc = .waiting ∨ s'.workProc = .copying → s.workProc = .waiting ∨ s.workProc = .copying) :
    Stops (es ++ [e]) s' where
  run := h.run.snoc hstep
  flag hcalled := hrunning.trans (h.flag (hstop ▸ hcalled))
  early hsignalled hwork := (h.early (hstop ▸ hsignalled) (hat hwork)).concat e

/-- **One step.** -/
theorem Stops.step (h : Stops es s) (hstep : Step s e s') : Stops (es ++ [e]) s' := by
  cases hstep with
  | test hat =>
    refine ⟨h.run.snoc (.test hat), h.flag, fun hsignalled hwork => ?_⟩
    have hflag : s.workThreadIsRunning_ = false := h.flag (by simp_all)
    simp [hflag] at hwork
  | copy hat => exact h.of_eq (.copy hat) rfl rfl fun _ => .inr hat
  | add sock =>
    refine h.of_eq (.add sock) (by rw [add_eq]) (by rw [add_eq]) fun hwork => ?_
    rw [add_eq] at hwork
    dsimp only at hwork
    split_ifs at hwork with hwoken
    · exact .inl hwoken.1
    · exact hwork
  | del sock => exact h.of_eq (.del sock) del_running del_stop fun hwork => by rwa [del_workProc] at hwork
  | clear hstop => exact ⟨h.run.snoc (.clear hstop), fun _ => rfl, by simp⟩
  | signal hstop =>
    refine ⟨h.run.snoc (.signal hstop), fun _ => ?_, fun _ hwork => ?_⟩
    · rw [signal_eq]
      exact h.flag (by simp [hstop])
    · rw [signal_eq] at hwork
      dsimp only at hwork
      split_ifs at hwork with hwaiting
      · simp at hwork
      · exact ⟨es, [], s, rfl, h.run, hwork.resolve_left hwaiting⟩
  | join hstop hdone => exact ⟨h.run.snoc (.join hstop hdone), fun _ => h.flag (by simp [hstop]), by simp⟩
  | wake hat => exact h.of_eq (.wake hat) rfl rfl (by simp)
  | retry hat => exact h.of_eq (.retry hat) rfl rfl (by simp)
  | select hat hready => exact h.of_eq (.select hat hready) rfl rfl (by simp)
  | onRead hat => exact h.of_eq (.onRead hat) rfl rfl (by simp)
  | again hat => exact h.of_eq (.again hat) rfl rfl (by simp)

/-- **`stop` hangs for one reason only**: its signal came between the test of the flag and the section of
`workProc`. -/
theorem comesEarly_of_hung (h : Run Step start es s) (hhung : s.Hung) : ComesEarly es := by
  have hstops : Stops es s := h.invariant_hist (I := fun es s => Stops es s)
    ⟨.nil, fun hcalled => absurd rfl hcalled, by simp [start]⟩ fun _ _ _ _ hs hstep => hs.step hstep
  exact hstops.early hhung.1 (.inl hhung.2)

/-- And it does hang so. -/
theorem comesEarly_of_hung_here : ComesEarly [.test, .clear, .signal, .copy] :=
  comesEarly_of_hung (s := ⟨∅, ∅, 0, false, .waiting, .signalled⟩)
    ((((Run.nil.snoc (.test rfl)).snoc (.clear rfl)).snoc (.signal rfl)).snoc (.copy rfl)) ⟨rfl, rfl⟩

end JySockSelector

end EuhatExpert
