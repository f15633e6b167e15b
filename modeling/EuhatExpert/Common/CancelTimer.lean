import EuhatExpert.Common.JyMsgTimer
import EuhatExpert.Common.JyWorkQueue

/-!
# Common/CancelTimer — does a cancelled timer stay cancelled

A `JyMsgLoop` is a work queue of messages with a timer thread that posts to it.  The timer thread takes a
due slot under the timer's mutex and posts its message afterwards; `cancelWork` removes the slots of an id
under the first mutex and its messages under the second.  A message that is in neither place when
`cancelWork` looks there escapes it: the one the timer thread holds, and the one `workProc` has taken and
not handed to `onWork` yet.  `staysCancelled`: nothing else does.
-/

namespace EuhatExpert

open Machinery

structure JyMsg where
  cmd_ : ℤ
  p_ : ℕ
  int_ : ℤ

/-- A message of the timer with this id. -/
def JyMsg.IsTimer (id : ℤ) (msg : JyMsg) : Prop := msg.cmd_ = JY_MSG_TYPE_TIMER ∧ msg.int_ = id

instance (id : ℤ) : DecidablePred (JyMsg.IsTimer id) := fun _ => inferInstanceAs (Decidable (_ ∧ _))

/-- `JyMsgLoop`: its queue and its timer, the slot the timer thread has taken and not posted yet, and the
calls of `cancelWork` that have removed the slots and not the messages yet. -/
structure JyMsgLoop where
  queue : JyWorkQueue JyMsg
  timer_ : JyMsgTimer
  slot : Option ℤ
  cancelling : List ℤ

/-- What can happen to a loop.  `killTimer` is `cancelWork`, `createTimer` and `delayWork` are
`addSlot`. -/
inductive LoopEvent
  | queue (e : QueueEvent JyMsg)
  | addSlot (id : ℤ) (interval : WhTimeVal) (isRepeat : Bool) (now : WhTimeVal)
  | takeSlot (now : WhTimeVal)
  | postSlot
  | removeSlot (id : ℤ)
  | removeMsgs (id : ℤ)

namespace JyMsgTimer

/-! ## The ids of a timer queue -/

theorem mem_insertSlot {new slot : JyMsgTimerSlot} {l : List JyMsgTimerSlot}
    (h : slot ∈ insertSlot new l) : slot = new ∨ slot ∈ l := by
  induction l with
  | nil => exact .inl (List.mem_singleton.mp h)
  | cons front rest ih =>
    rw [insertSlot] at h
    split_ifs at h
    · rcases List.mem_cons.mp h with rfl | h
      · exact .inr List.mem_cons_self
      · exact (List.mem_cons.mp h).imp_right (List.mem_cons_of_mem _)
    · rcases List.mem_cons.mp h with rfl | h
      · exact .inr List.mem_cons_self
      · exact (ih h).imp_right (List.mem_cons_of_mem _)

theorem mem_addSlot {t : JyMsgTimer} {id : ℤ} {interval : WhTimeVal} {isRepeat : Bool} {now : WhTimeVal}
    {slot : JyMsgTimerSlot} (h : slot ∈ (t.addSlot id interval isRepeat now).schedule_) :
    slot.id_ = id ∨ slot ∈ t.schedule_ := by
  rw [addSlot] at h
  split_ifs at h
  · exact .inr h
  · exact (mem_insertSlot h).imp_left fun h => by rw [h]

/-- **A turn brings up no new id.** -/
theorem workProc_ids (t : JyMsgTimer) (now : WhTimeVal) :
    (∀ slot ∈ (t.workProc now).1.schedule_, ∃ slot' ∈ t.schedule_, slot.id_ = slot'.id_) ∧
      ∀ id, (t.workProc now).2 = some id → ∃ slot' ∈ t.schedule_, id = slot'.id_ := by
  obtain ⟨schedule⟩ := t
  cases schedule with
  | nil => exact ⟨fun _ h => (by cases h), fun _ h => (by cases h)⟩
  | cons front rest =>
    rw [workProc]
    dsimp only
    split_ifs with hdue hrep hid
    · refine ⟨fun slot h => ?_, fun _ h => (by cases h)⟩
      rcases mem_insertSlot h with rfl | h
      · exact ⟨front, List.mem_cons_self, rfl⟩
      · exact ⟨slot, List.mem_cons_of_mem _ h, rfl⟩
    · refine ⟨fun slot h => ?_, fun id h => ⟨front, List.mem_cons_self, (Option.some.inj h).symm⟩⟩
      rcases mem_insertSlot h with rfl | h
      · exact ⟨front, List.mem_cons_self, rfl⟩
      · exact ⟨slot, List.mem_cons_of_mem _ h, rfl⟩
    · exact ⟨fun slot h => ⟨slot, List.mem_cons_of_mem _ h, rfl⟩, fun _ h => (by cases h)⟩
    · exact ⟨fun slot h => ⟨slot, List.mem_cons_of_mem _ h, rfl⟩,
        fun id h => ⟨front, List.mem_cons_self, (Option.some.inj h).symm⟩⟩
    · refine ⟨fun slot h => ?_, fun _ h => (by cases h)⟩
      rcases List.mem_cons.mp h with rfl | h
      · exact ⟨front, List.mem_cons_self, rfl⟩
      · exact ⟨slot, List.mem_cons_of_mem _ h, rfl⟩

end JyMsgTimer

namespace JyMsgLoop

variable (isUnique : JyMsg → Bool)

/-- `start`, without timers. -/
def start : JyMsgLoop := ⟨.start [], ⟨[]⟩, none, []⟩

/-- The message of a slot. -/
def timerMsg (id : ℤ) : JyMsg := ⟨JY_MSG_TYPE_TIMER, 0, id⟩

/-- The second half of `cancelWork`. -/
def removeMsgs (s : JyMsgLoop) (id : ℤ) : JyMsgLoop :=
  { s with
    queue := { s.queue with list_ := s.queue.list_.filter fun msg => ¬ msg.IsTimer id }
    cancelling := s.cancelling.erase id }

/-- One step.  Nobody but the timer thread posts `JY_MSG_TYPE_TIMER`. -/
inductive Step : JyMsgLoop → LoopEvent → JyMsgLoop → Prop
  | queue {s : JyMsgLoop} {e : QueueEvent JyMsg} {q : JyWorkQueue JyMsg}
      (h : JyWorkQueue.Step isUnique s.queue e q)
      (hpost : ∀ msg, e = .pushBack msg → msg.cmd_ ≠ JY_MSG_TYPE_TIMER) :
      Step s (.queue e) { s with queue := q }
  | addSlot (s : JyMsgLoop) (id : ℤ) (interval : WhTimeVal) (isRepeat : Bool) (now : WhTimeVal) :
      Step s (.addSlot id interval isRepeat now)
        { s with timer_ := s.timer_.addSlot id interval isRepeat now }
  | takeSlot {s : JyMsgLoop} (now : WhTimeVal) (h : s.slot = none) :
      Step s (.takeSlot now)
        { s with timer_ := (s.timer_.workProc now).1, slot := (s.timer_.workProc now).2 }
  | postSlot {s : JyMsgLoop} {id : ℤ} (h : s.slot = some id) :
      Step s .postSlot { s with queue := s.queue.pushBack (timerMsg id), slot := none }
  | removeSlot (s : JyMsgLoop) (id : ℤ) :
      Step s (.removeSlot id)
        { s with timer_ := s.timer_.removeSlot id, cancelling := id :: s.cancelling }
  | removeMsgs {s : JyMsgLoop} {id : ℤ} (h : id ∈ s.cancelling) :
      Step s (.removeMsgs id) (s.removeMsgs id)

/-! ## The property -/

/-- A timer with this id is created. -/
def Creates (id : ℤ) : LoopEvent → Prop
  | .addSlot id' _ _ _ => id' = id
  | _ => False

/-- A step that adds a message of the timer to the queue, or hands one to `onWork`. -/
def Shows (id : ℤ) (s : JyMsgLoop) : LoopEvent → Prop
  | .postSlot => s.slot = some id
  | .queue .onWork => ∃ msg ∈ s.queue.taken, msg.IsTimer id
  | _ => False

/-- Once `cancelWork` has returned, and until a timer with its id is created again, no step adds or
delivers a message of that timer. -/
def StaysCancelled (R : JyMsgLoop → LoopEvent → JyMsgLoop → Prop) : Prop :=
  ∀ before id after s e s', Run R start (before ++ .removeMsgs id :: after) s →
    (∀ x ∈ after, ¬ Creates id x) → R s e s' → ¬ Shows id s e

/-- When `cancelWork` removes the messages of its timer, no slot of the timer was added since it removed
those, none is between the timer thread and the queue, and no message is between the queue and `onWork`. -/
def NothingBetween (s : JyMsgLoop) : LoopEvent → Prop
  | .removeMsgs id => (∀ slot ∈ s.timer_.schedule_, slot.id_ ≠ id) ∧ s.slot ≠ some id ∧
      ∀ msg ∈ s.queue.taken, ¬ msg.IsTimer id
  | _ => True

/-! ## A timer that is gone -/

/-- No trace of the timer but a handler that has started. -/
structure Gone (id : ℤ) (s : JyMsgLoop) : Prop where
  schedule : ∀ slot ∈ s.timer_.schedule_, slot.id_ ≠ id
  slot : s.slot ≠ some id
  ahead : ∀ msg ∈ s.queue.ahead, ¬ msg.IsTimer id

variable {isUnique} {id : ℤ} {s s' : JyMsgLoop} {e : LoopEvent}

/-- When nothing is between, `cancelWork` returns with the timer gone. -/
theorem gone_of_nothingBetween (h : NothingBetween s (.removeMsgs id)) : Gone id (s.removeMsgs id) := by
  obtain ⟨hschedule, hslot, htaken⟩ := h
  refine ⟨hschedule, hslot, fun msg hmsg => ?_⟩
  rcases List.mem_append.mp hmsg with hmsg | hmsg
  · exact htaken msg hmsg
  · exact of_decide_eq_true (List.mem_filter.mp hmsg).2

/-- **A timer that is gone stays gone until it is created again.** -/
theorem Gone.step (h : Gone id s) (hstep : Step isUnique s e s') (hnew : ¬ Creates id e) : Gone id s' := by
  cases hstep with
  | @queue e q hq hpost =>
    refine ⟨h.schedule, h.slot, fun msg hmsg => ?_⟩
    rcases hq.mem_ahead hmsg with hmsg | he
    · exact h.ahead msg hmsg
    · exact fun htimer => hpost msg he htimer.1
  | addSlot id' interval isRepeat now =>
    refine ⟨fun slot hslot => ?_, h.slot, h.ahead⟩
    rcases JyMsgTimer.mem_addSlot hslot with rfl | hslot
    · exact hnew
    · exact h.schedule slot hslot
  | takeSlot now hnone =>
    obtain ⟨hids, hid⟩ := s.timer_.workProc_ids now
    refine ⟨fun slot hslot => ?_, fun hslot => ?_, h.ahead⟩
    · obtain ⟨slot', hslot', heq⟩ := hids slot hslot
      rw [heq]
      exact h.schedule slot' hslot'
    · obtain ⟨slot', hslot', heq⟩ := hid id hslot
      exact h.schedule slot' hslot' heq.symm
  | @postSlot id' hslot =>
    refine ⟨h.schedule, nofun, fun msg hmsg => ?_⟩
    rw [JyWorkQueue.ahead_pushBack, List.mem_append, List.mem_singleton] at hmsg
    rcases hmsg with hmsg | rfl
    · exact h.ahead msg hmsg
    · rintro ⟨-, rfl⟩
      exact h.slot hslot
  | removeSlot id' =>
    exact ⟨fun slot hslot => h.schedule slot (List.mem_of_mem_filter hslot), h.slot, h.ahead⟩
  | @removeMsgs id' hid =>
    refine ⟨h.schedule, h.slot, fun msg hmsg => h.ahead msg ?_⟩
    rcases List.mem_append.mp hmsg with hmsg | hmsg
    · exact List.mem_append_left _ hmsg
    · exact List.mem_append_right _ (List.mem_of_mem_filter hmsg)

/-- A timer that is gone is not shown. -/
theorem Gone.not_shows (h : Gone id s) (e : LoopEvent) : ¬ Shows id s e := by
  cases e with
  | postSlot => exact h.slot
  | queue e =>
    cases e with
    | onWork => exact fun ⟨msg, hmsg, htimer⟩ => h.ahead msg (List.mem_append_left _ hmsg) htimer
    | _ => exact fun h => h
  | _ => exact fun h => h

theorem Gone.run {es : List LoopEvent} (h : Gone id s) (hrun : Run (Step isUnique) s es s')
    (hnew : ∀ x ∈ es, ¬ Creates id x) : Gone id s' := by
  induction hrun with
  | nil => exact h
  | snoc _ hr ih =>
    exact (ih fun x hx => hnew x (List.mem_append_left _ hx)).step hr
      (hnew _ (List.mem_append_right _ List.mem_cons_self))

/-- **A cancelled timer stays cancelled in every run in which `cancelWork` finds nothing of it between
the places where it looks.** -/
theorem staysCancelled (isUnique : JyMsg → Bool) :
    StaysCancelled (restrict (Step isUnique) NothingBetween) := by
  intro before id after s e s' hrun hnew hstep
  rw [← List.singleton_append, ← List.append_assoc] at hrun
  obtain ⟨s₁, hrun₁, hrun₂⟩ := hrun.split
  obtain ⟨s₀, -, hcancel⟩ := hrun₁.split
  have hgone : Gone id s₁ := by
    obtain ⟨hcancel, hbetween⟩ := hcancel.step_of_single
    cases hcancel
    exact gone_of_nothingBetween hbetween
  exact (hgone.run hrun₂.of_restrict hnew).not_shows e

/-- A timer of one second that has fired and waits in the queue when it is cancelled. -/
theorem staysCancelled_queued : ∃ s₀ s, s₀.queue.list_ = [timerMsg 1] ∧ NothingBetween s₀ (.removeMsgs 1) ∧
    Run (restrict (Step fun _ => false) NothingBetween) start
      ([.addSlot 1 ⟨1, 0⟩ false ⟨0, 0⟩, .takeSlot ⟨5, 0⟩, .postSlot, .removeSlot 1] ++ .removeMsgs 1 :: []) s ∧
    ∀ e s', restrict (Step fun _ => false) NothingBetween s e s' → ¬ Shows 1 s e := by
  have hadd : Run (restrict (Step fun _ => false) NothingBetween) start [.addSlot 1 ⟨1, 0⟩ false ⟨0, 0⟩]
      ⟨.start [], ⟨[⟨⟨1, 0⟩, 1, false, ⟨1, 0⟩⟩]⟩, none, []⟩ :=
    Run.nil.snoc ⟨.addSlot start 1 ⟨1, 0⟩ false ⟨0, 0⟩, trivial⟩
  have hfired := (hadd.snoc ⟨.takeSlot ⟨5, 0⟩ rfl, trivial⟩).snoc ⟨@Step.postSlot _ _ 1 rfl, trivial⟩
  have hslots := hfired.snoc ⟨.removeSlot _ 1, trivial⟩
  have hbetween : NothingBetween ⟨(JyWorkQueue.start []).pushBack (timerMsg 1), ⟨[]⟩, none, [1]⟩ (.removeMsgs 1) :=
    ⟨nofun, nofun, nofun⟩
  have hcancelled := hslots.snoc ⟨@Step.removeMsgs _ _ 1 List.mem_cons_self, hbetween⟩
  refine ⟨_, _, rfl, hbetween, hcancelled, fun e s' => staysCancelled _
    [.addSlot 1 ⟨1, 0⟩ false ⟨0, 0⟩, .takeSlot ⟨5, 0⟩, .postSlot, .removeSlot 1] 1 [] _ e s' hcancelled fun x hx => ?_⟩
  cases hx

/-- A timer of one second that is due, taken by the timer thread, and cancelled before it is posted. -/
def cancelledWhileTaken : List LoopEvent :=
  [.addSlot 1 ⟨1, 0⟩ false ⟨0, 0⟩, .takeSlot ⟨5, 0⟩, .removeSlot 1]

/-- **The message of a cancelled timer is posted after `cancelWork` has returned.** -/
theorem cancelledWhileTaken_not_staysCancelled : ¬ StaysCancelled (Step fun _ => false) := by
  intro h
  have hrun : Run (Step fun _ => false) start (cancelledWhileTaken ++ [.removeMsgs 1])
      ⟨.start [], ⟨[]⟩, some 1, []⟩ :=
    (((Run.nil.snoc (.addSlot start 1 ⟨1, 0⟩ false ⟨0, 0⟩)).snoc (.takeSlot ⟨5, 0⟩ rfl)).snoc
      (.removeSlot _ 1)).snoc (.removeMsgs List.mem_cons_self)
  exact h cancelledWhileTaken 1 [] _ .postSlot _ hrun nofun (.postSlot rfl) rfl

end JyMsgLoop

end EuhatExpert
