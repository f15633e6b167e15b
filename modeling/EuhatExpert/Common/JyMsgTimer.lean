import EuhatExpert.Machinery.InsertAfter
import Mathlib.Data.Prod.Lex
import Mathlib.Data.List.Infix

/-!
# Common/JyMsgTimer — the timer queue

`JyMsgTimer` keeps its pending timers in `schedule_` and looks at the front slot only.  `insertSlot`
is `Machinery.insertAfter` (`insertSlot_eq`): it searches for the first *earlier* slot and puts the
new one behind it, so the list ascends again only when the new time lands right behind the front.
`staysSorted_iff` is that condition over whole runs.
-/

namespace EuhatExpert

open Machinery

/-! ## `WhTimeVal` -/

/-- `WhTimeVal`: a `timeval` with field-wise arithmetic, no carry. -/
structure WhTimeVal where
  tv_sec : ℤ
  tv_usec : ℤ
  deriving DecidableEq, Repr

namespace WhTimeVal

def add (l r : WhTimeVal) : WhTimeVal := ⟨l.tv_sec + r.tv_sec, l.tv_usec + r.tv_usec⟩

def sub (l r : WhTimeVal) : WhTimeVal := ⟨l.tv_sec - r.tv_sec, l.tv_usec - r.tv_usec⟩

def biggerThan (l r : WhTimeVal) : Bool :=
  decide (l.tv_sec > r.tv_sec) || (decide (l.tv_sec = r.tv_sec) && decide (l.tv_usec > r.tv_usec))

/-- Seconds first, then microseconds: the order `biggerThan` decides. -/
def key (v : WhTimeVal) : ℤ ×ₗ ℤ := toLex (v.tv_sec, v.tv_usec)

theorem biggerThan_iff (l r : WhTimeVal) : l.biggerThan r = true ↔ r.key < l.key := by
  simp only [biggerThan, key, Prod.Lex.toLex_lt_toLex, Bool.or_eq_true, Bool.and_eq_true,
    decide_eq_true_eq]
  omega

/-- A reading of the clock, or an interval given in whole and rest seconds. -/
structure Normalised (v : WhTimeVal) : Prop where
  sec : 0 ≤ v.tv_sec
  usec : 0 ≤ v.tv_usec
  usec_lt : v.tv_usec < 1000000

/-- Taking a clock reading off a time only moves it down. -/
theorem key_sub_le {v now : WhTimeVal} (h : now.Normalised) : (v.sub now).key ≤ v.key := by
  have hs := h.sec
  have hu := h.usec
  simp only [key, sub, Prod.Lex.toLex_le_toLex]
  omega

end WhTimeVal

/-- A time value carrying its normal form. -/
structure TimeReading where
  val : WhTimeVal
  normalised : val.Normalised

/-! ## The queue -/

/-- `JY_MSG_TYPE_TIMER`; ids from here on are refused for one-shot timers. -/
def JY_MSG_TYPE_TIMER : ℤ := 14

structure JyMsgTimerSlot where
  at_ : WhTimeVal
  id_ : ℤ
  isRepeat_ : Bool
  interval_ : WhTimeVal
  deriving DecidableEq, Repr

structure JyMsgTimer where
  schedule_ : List JyMsgTimerSlot
  deriving DecidableEq, Repr

namespace JyMsgTimer

/-- `insertSlot` with the caller's field assignments: `find_if` stops at the first slot that
`atTime` is bigger than, `it++` steps over it, and the new slot goes in front of `it`. -/
def insertSlot (new : JyMsgTimerSlot) : List JyMsgTimerSlot → List JyMsgTimerSlot
  | [] => [new]
  | slot :: rest =>
    if new.at_.biggerThan slot.at_ then slot :: new :: rest else slot :: insertSlot new rest

def addSlot (t : JyMsgTimer) (id : ℤ) (interval : WhTimeVal) (isRepeat : Bool) (now : WhTimeVal) :
    JyMsgTimer :=
  if !isRepeat && id ≥ JY_MSG_TYPE_TIMER then t
  else ⟨insertSlot ⟨now.add interval, id, isRepeat, interval⟩ t.schedule_⟩

def removeSlot (t : JyMsgTimer) (id : ℤ) : JyMsgTimer :=
  ⟨t.schedule_.filter fun slot => slot.id_ ≠ id⟩

/-- The slot a repeating timer is re-armed with: `now.add` changes `now` in place. -/
def rearm (slot : JyMsgTimerSlot) (now : WhTimeVal) : JyMsgTimerSlot :=
  { slot with at_ := now.add slot.interval_ }

/-- One turn of the loop, with the id of the message it posts.  A front slot that is not due yet is
waited for, and the `sub` that computes the waiting time writes to the slot itself. -/
def workProc (t : JyMsgTimer) (now : WhTimeVal) : JyMsgTimer × Option ℤ :=
  match t.schedule_ with
  | [] => (t, none)
  | slot :: rest =>
    if now.biggerThan slot.at_ then
      (⟨if slot.isRepeat_ then insertSlot (rearm slot now) rest else rest⟩,
        if slot.id_ = -1 then none else some slot.id_)
    else (⟨{ slot with at_ := slot.at_.sub now } :: rest⟩, none)

end JyMsgTimer

/-! ## Runs -/

/-- What can happen to the queue, each with the clock reading it takes. -/
inductive TimerCall
  | addSlot (id : ℤ) (interval : TimeReading) (isRepeat : Bool) (now : TimeReading)
  | removeSlot (id : ℤ)
  | workProc (now : TimeReading)

namespace TimerCall

/-- The reading of the clock a call takes. -/
def now? : TimerCall → Option WhTimeVal
  | addSlot _ _ _ now => some now.val
  | removeSlot _ => none
  | workProc now => some now.val

def apply (t : JyMsgTimer) : TimerCall → JyMsgTimer
  | addSlot id interval isRepeat now => t.addSlot id interval.val isRepeat now.val
  | removeSlot id => t.removeSlot id
  | workProc now => (t.workProc now.val).1

/-- The slot a call hands to `insertSlot`, and the list it is inserted in. -/
def insertion (t : JyMsgTimer) : TimerCall → Option (JyMsgTimerSlot × List JyMsgTimerSlot)
  | addSlot id interval isRepeat now =>
    if !isRepeat && id ≥ JY_MSG_TYPE_TIMER then none
    else some (⟨now.val.add interval.val, id, isRepeat, interval.val⟩, t.schedule_)
  | removeSlot _ => none
  | workProc now =>
    match t.schedule_ with
    | [] => none
    | slot :: rest =>
      if now.val.biggerThan slot.at_ && slot.isRepeat_ then
        some (JyMsgTimer.rearm slot now.val, rest)
      else none

end TimerCall

namespace JyMsgTimer

/-- The queue after a sequence of calls on a new timer. -/
def run (calls : List TimerCall) : JyMsgTimer := calls.foldl TimerCall.apply ⟨[]⟩

theorem run_concat (calls : List TimerCall) (c : TimerCall) :
    run (calls ++ [c]) = c.apply (run calls) := by simp [run]

/-- The key `schedule_` is sorted by. -/
def slotKey (slot : JyMsgTimerSlot) : ℤ ×ₗ ℤ := slot.at_.key

/-- `schedule_` is sorted by `at_`, earliest first. -/
def Sorted (t : JyMsgTimer) : Prop := Ascending slotKey t.schedule_

/-- No clock reading of the sequence is earlier than one before it. -/
def ClockNondecreasing (calls : List TimerCall) : Prop :=
  (calls.filterMap TimerCall.now?).Pairwise fun a b => a.biggerThan b = false

instance (calls : List TimerCall) : Decidable (ClockNondecreasing calls) :=
  inferInstanceAs (Decidable (List.Pairwise _ _))

/-- The front slot, the only one `workProc` looks at, is an earliest one, and due when any slot is. -/
def FrontFirst (t : JyMsgTimer) : Prop :=
  ∀ front rest, t.schedule_ = front :: rest → ∀ slot ∈ t.schedule_,
    slotKey front ≤ slotKey slot ∧
      ∀ now : WhTimeVal, now.biggerThan slot.at_ = true → now.biggerThan front.at_ = true

/-- In every state the sequence passes through, `schedule_` is sorted, so that its front comes first. -/
def StaysSorted (calls : List TimerCall) : Prop :=
  ∀ pre, pre <+: calls → (run pre).Sorted ∧ (run pre).FrontFirst

/-- The slot a call inserts lands where the queue stays sorted: the queue is empty, or the new time
is later than the front slot's and than no other's, or no slot of the queue is later. -/
def CallLands (t : JyMsgTimer) (c : TimerCall) : Prop :=
  ∀ slot rest, c.insertion t = some (slot, rest) → Lands slotKey slot rest

/-! ## One call -/

/-- **`insertSlot` is insertion behind the first smaller entry.** -/
theorem insertSlot_eq (new : JyMsgTimerSlot) (l : List JyMsgTimerSlot) :
    insertSlot new l = insertAfter slotKey new l := by
  induction l with
  | nil => rfl
  | cons slot rest ih =>
    simp only [insertSlot, insertAfter, ih, WhTimeVal.biggerThan_iff]
    rfl

theorem insertSlot_sorted_iff {new : JyMsgTimerSlot} {l : List JyMsgTimerSlot}
    (h : Ascending slotKey l) : Ascending slotKey (insertSlot new l) ↔ Lands slotKey new l := by
  rw [insertSlot_eq]
  exact ascending_insertAfter_iff h

/-- **In a sorted queue no due slot waits behind one that is not.** -/
theorem Sorted.frontFirst {t : JyMsgTimer} (h : t.Sorted) : t.FrontFirst := by
  intro front rest ht slot hs
  rw [Sorted, ht] at h
  have hle := h.front_le slot (ht ▸ hs)
  refine ⟨hle, fun now hdue => ?_⟩
  rw [WhTimeVal.biggerThan_iff] at hdue ⊢
  exact hle.trans_lt hdue

theorem removeSlot_sorted {t : JyMsgTimer} (h : t.Sorted) (id : ℤ) : (t.removeSlot id).Sorted :=
  Ascending.sublist h List.filter_sublist

/-- A wait moves the front slot down, so the queue stays sorted. -/
theorem sorted_wait {slot : JyMsgTimerSlot} {rest : List JyMsgTimerSlot} {now : WhTimeVal}
    (hn : now.Normalised) (h : Ascending slotKey (slot :: rest)) :
    Ascending slotKey ({ slot with at_ := slot.at_.sub now } :: rest) := by
  obtain ⟨hle, hr⟩ := ascending_cons.mp h
  exact ascending_cons.mpr ⟨fun y hy => (WhTimeVal.key_sub_le hn).trans (hle y hy), hr⟩

theorem callLands_of_none {t : JyMsgTimer} {c : TimerCall} (h : c.insertion t = none) :
    CallLands t c := fun slot rest hs => by
  rw [h] at hs
  cases hs

theorem callLands_iff_of_some {t : JyMsgTimer} {c : TimerCall} {new : JyMsgTimerSlot}
    {l : List JyMsgTimerSlot} (h : c.insertion t = some (new, l)) :
    CallLands t c ↔ Lands slotKey new l := by
  refine ⟨fun hl => hl _ _ h, fun hl slot rest hs => ?_⟩
  obtain ⟨rfl, rfl⟩ := Prod.mk.inj (Option.some.inj (h.symm.trans hs))
  exact hl

/-- **A call on a sorted queue leaves it sorted exactly when what it inserts lands.** -/
theorem apply_sorted_iff {t : JyMsgTimer} (h : t.Sorted) (c : TimerCall) :
    (c.apply t).Sorted ↔ CallLands t c := by
  cases c with
  | addSlot id interval isRepeat now =>
    by_cases hid : (!isRepeat && decide (id ≥ JY_MSG_TYPE_TIMER)) = true
    · have hn : (TimerCall.addSlot id interval isRepeat now).insertion t = none := if_pos hid
      simp only [TimerCall.apply, addSlot, if_pos hid]
      exact iff_of_true h (callLands_of_none hn)
    · have hs : (TimerCall.addSlot id interval isRepeat now).insertion t
          = some (⟨now.val.add interval.val, id, isRepeat, interval.val⟩, t.schedule_) := if_neg hid
      rw [callLands_iff_of_some hs]
      simp only [TimerCall.apply, addSlot, if_neg hid]
      exact insertSlot_sorted_iff h
  | removeSlot id => exact iff_of_true (removeSlot_sorted h id) (callLands_of_none rfl)
  | workProc now =>
    obtain ⟨schedule⟩ := t
    cases schedule with
    | nil => exact iff_of_true h (callLands_of_none rfl)
    | cons slot rest =>
      have hrest : Ascending slotKey rest := (ascending_cons.mp h).2
      by_cases hdue : now.val.biggerThan slot.at_ = true
      · cases hrep : slot.isRepeat_ with
        | true =>
          have hs : (TimerCall.workProc now).insertion ⟨slot :: rest⟩
              = some (rearm slot now.val, rest) := if_pos (by simp [hdue, hrep])
          rw [callLands_iff_of_some hs]
          simp only [TimerCall.apply, workProc, if_pos hdue, hrep, if_true]
          exact insertSlot_sorted_iff hrest
        | false =>
          have hs : (TimerCall.workProc now).insertion ⟨slot :: rest⟩ = none :=
            if_neg (by simp [hrep])
          simp only [TimerCall.apply, workProc, if_pos hdue, hrep]
          exact iff_of_true hrest (callLands_of_none hs)
      · have hs : (TimerCall.workProc now).insertion ⟨slot :: rest⟩ = none :=
          if_neg (by simp [hdue])
        simp only [TimerCall.apply, workProc, if_neg hdue]
        exact iff_of_true (sorted_wait now.normalised h) (callLands_of_none hs)

/-! ## Whole runs -/

/-- While every insertion lands, the queue is sorted. -/
theorem sorted_run_of_lands {calls : List TimerCall}
    (h : ∀ pre c, pre ++ [c] <+: calls → CallLands (run pre) c) :
    ∀ pre, pre <+: calls → (run pre).Sorted := by
  intro pre
  induction pre using List.reverseRecOn with
  | nil => exact fun _ => ascending_nil
  | append_singleton pre c ih =>
    intro hp
    rw [run_concat]
    exact (apply_sorted_iff (ih ((List.prefix_append pre [c]).trans hp)) c).mpr (h pre c hp)

/-- **The queue stays sorted in a run exactly when every insertion of the run lands** — right behind
the front slot, or behind a queue that is nowhere later. -/
theorem staysSorted_iff (calls : List TimerCall) :
    StaysSorted calls ↔ ∀ pre c, pre ++ [c] <+: calls → CallLands (run pre) c := by
  constructor
  · intro h pre c hp
    have hpre : (run pre).Sorted := (h pre ((List.prefix_append pre [c]).trans hp)).1
    have hnext : (run (pre ++ [c])).Sorted := (h _ hp).1
    rw [run_concat] at hnext
    exact (apply_sorted_iff hpre c).mp hnext
  · intro h pre hp
    have hs := sorted_run_of_lands h pre hp
    exact ⟨hs, hs.frontFirst⟩

/-- A timer of five seconds, then one of one second, both set at second `100`. -/
def shortAfterLong : List TimerCall :=
  [.addSlot 1 ⟨⟨5, 0⟩, ⟨by decide, by decide, by decide⟩⟩ false
      ⟨⟨100, 0⟩, ⟨by decide, by decide, by decide⟩⟩,
    .addSlot 2 ⟨⟨1, 0⟩, ⟨by decide, by decide, by decide⟩⟩ false
      ⟨⟨100, 0⟩, ⟨by decide, by decide, by decide⟩⟩]

/-- **A shorter timer set after a longer one waits behind it.** -/
theorem shortAfterLong_not_staysSorted :
    ClockNondecreasing shortAfterLong ∧ ¬ StaysSorted shortAfterLong := by
  refine ⟨by decide, fun h => ?_⟩
  have hs : (run shortAfterLong).Sorted := (h _ (List.prefix_refl _)).1
  have hle : ¬ WhTimeVal.biggerThan ⟨105, 0⟩ ⟨101, 0⟩ = true := by
    rw [WhTimeVal.biggerThan_iff, not_lt]
    exact (ascending_cons.mp hs).1 ⟨⟨101, 0⟩, 2, false, ⟨1, 0⟩⟩ List.mem_cons_self
  exact hle (by decide)

end JyMsgTimer

end EuhatExpert
