import EuhatExpert.Common.JyMsgTimer
import Mathlib.Tactic.Ring

/-!
# Common/Punctuality — timers that fire early

To wait for its front slot `workProc` computes `schedule_.front().at_.sub(now)`, and `sub` leaves the
time to wait where the time due was.  Every slot is watched here with the reading it was armed at and the
readings it was waited for at.  `neverEarly_iff`: what fires early is a slot that is looked at again before
the wait for it is over, or one whose microseconds ran past a second without a carry.
-/

namespace EuhatExpert

open Machinery

namespace WhTimeVal

/-- A time in microseconds. -/
def micros (v : WhTimeVal) : ℤ := v.tv_sec * 1000000 + v.tv_usec

/-- A wait for the time, begun at one reading, is over at the other. -/
def HasRun (time begun now : WhTimeVal) : Prop := time.micros < now.micros - begun.micros

/-- `add` carries nothing over, and loses nothing. -/
theorem micros_add (l r : WhTimeVal) : (l.add r).micros = l.micros + r.micros := by
  simp only [micros, add]
  ring

/-- Nor does `sub`. -/
theorem micros_sub (l r : WhTimeVal) : (l.sub r).micros = l.micros - r.micros := by
  simp only [micros, sub]
  ring

theorem biggerThan_eq_true {l r : WhTimeVal} : l.biggerThan r = true ↔
    r.tv_sec < l.tv_sec ∨ l.tv_sec = r.tv_sec ∧ r.tv_usec < l.tv_usec := by
  simp only [biggerThan, Bool.or_eq_true, Bool.and_eq_true, decide_eq_true_eq, gt_iff_lt]

theorem foldl_add_add (v r : WhTimeVal) (l : List WhTimeVal) :
    l.foldl add (v.add r) = (l.foldl add v).add r := by
  induction l generalizing v with
  | nil => rfl
  | cons s l ih =>
    have hcomm : (v.add r).add s = (v.add s).add r := by
      simp only [add, add_right_comm]
    rw [List.foldl_cons, List.foldl_cons, hcomm, ih]

/-- What is taken off one side is put on the other. -/
theorem biggerThan_foldl_sub (v w : WhTimeVal) (l : List WhTimeVal) :
    v.biggerThan (l.foldl sub w) = (l.foldl add v).biggerThan w := by
  induction l generalizing w with
  | nil => rfl
  | cons r l ih =>
    rw [List.foldl_cons, List.foldl_cons, ih, foldl_add_add, Bool.eq_iff_iff, biggerThan_eq_true, biggerThan_eq_true]
    simp only [sub, add]
    omega

/-- Readings that are added up only grow. -/
theorem le_foldl_add {l : List WhTimeVal} (h : ∀ r ∈ l, r.Normalised) (v : WhTimeVal) :
    v.tv_sec ≤ (l.foldl add v).tv_sec ∧ v.tv_usec ≤ (l.foldl add v).tv_usec := by
  induction l generalizing v with
  | nil => exact ⟨le_rfl, le_rfl⟩
  | cons r l ih =>
    obtain ⟨hsec, husec⟩ := ih (fun s hs => h s (List.mem_cons_of_mem r hs)) (v.add r)
    have hr := h r List.mem_cons_self
    have hrsec := hr.sec
    have hrusec := hr.usec
    simp only [add] at hsec husec
    rw [List.foldl_cons]
    exact ⟨by simp only [add]; omega, by simp only [add]; omega⟩

end WhTimeVal

/-! ## Watched slots -/

/-- A slot with the reading it was armed at and the readings taken off it since. -/
structure WatchedSlot where
  slot : JyMsgTimerSlot
  armedAt : TimeReading
  waits : List WhTimeVal
  interval_normalised : slot.interval_.Normalised
  at_eq : slot.at_ = waits.foldl WhTimeVal.sub (armedAt.val.add slot.interval_)

namespace WatchedSlot

/-- A slot for a reading and an interval. -/
def arm (id : ℤ) (isRepeat : Bool) (interval now : TimeReading) : WatchedSlot where
  slot := ⟨now.val.add interval.val, id, isRepeat, interval.val⟩
  armedAt := now
  waits := []
  interval_normalised := interval.normalised
  at_eq := rfl

/-- The slot of a repeating timer, as it fires at `now`. -/
def rearm (w : WatchedSlot) (now : TimeReading) : WatchedSlot where
  slot := JyMsgTimer.rearm w.slot now.val
  armedAt := now
  waits := []
  interval_normalised := w.interval_normalised
  at_eq := rfl

/-- The slot, as the wait at `now` leaves it. -/
def wait (w : WatchedSlot) (now : WhTimeVal) : WatchedSlot where
  slot := { w.slot with at_ := w.slot.at_.sub now }
  armedAt := w.armedAt
  waits := w.waits ++ [now]
  interval_normalised := w.interval_normalised
  at_eq := by rw [List.foldl_append, ← w.at_eq]; rfl

/-- What the slot was armed with. -/
def armed (w : WatchedSlot) : WhTimeVal := w.armedAt.val.add w.slot.interval_

/-- The scheduled time: the reading at which the slot was armed, plus its interval. -/
def due (w : WatchedSlot) : ℤ := w.armed.micros

/-- `insertSlot`. -/
def insert (new : WatchedSlot) (l : List WatchedSlot) : List WatchedSlot :=
  insertAfter (JyMsgTimer.slotKey ∘ slot) new l

theorem map_insert (new : WatchedSlot) (l : List WatchedSlot) :
    (insert new l).map slot = JyMsgTimer.insertSlot new.slot (l.map slot) := by
  rw [JyMsgTimer.insertSlot_eq]
  exact map_insertAfter slot new l

theorem mem_insert {w new : WatchedSlot} {l : List WatchedSlot} : w ∈ insert new l ↔ w = new ∨ w ∈ l := by
  induction l with
  | nil => simp [insert, insertAfter]
  | cons x xs ih =>
    rw [insert] at ih
    rw [insert, insertAfter]
    split_ifs
    · rw [List.mem_cons, List.mem_cons, List.mem_cons, or_left_comm]
    · rw [List.mem_cons, ih, List.mem_cons, or_left_comm]

end WatchedSlot

open WatchedSlot

/-- A call on watched slots. -/
def TimerCall.watch (l : List WatchedSlot) : TimerCall → List WatchedSlot
  | addSlot id interval isRepeat now =>
    if !isRepeat && id ≥ JY_MSG_TYPE_TIMER then l else insert (arm id isRepeat interval now) l
  | removeSlot id => l.filter fun w => w.slot.id_ ≠ id
  | workProc now =>
    match l with
    | [] => []
    | w :: rest =>
      if now.val.biggerThan w.slot.at_ then if w.slot.isRepeat_ then insert (w.rearm now) rest else rest
      else w.wait now.val :: rest

/-- **Watching changes nothing.** -/
theorem TimerCall.map_watch (c : TimerCall) (l : List WatchedSlot) :
    (c.watch l).map slot = (c.apply ⟨l.map slot⟩).schedule_ := by
  cases c with
  | addSlot id interval isRepeat now =>
    simp only [watch, apply, JyMsgTimer.addSlot]
    split_ifs
    · rfl
    · exact map_insert _ l
  | removeSlot id =>
    simp only [watch, apply, JyMsgTimer.removeSlot, List.filter_map]
    rfl
  | workProc now =>
    cases l with
    | nil => rfl
    | cons w rest =>
      simp only [watch, apply, JyMsgTimer.workProc, List.map_cons]
      by_cases hdue : now.val.biggerThan w.slot.at_ = true
      · rw [if_pos hdue, if_pos hdue, apply_ite (List.map slot), map_insert]
        rfl
      · rw [if_neg hdue, if_neg hdue]
        rfl

/-- The interval a call sets a timer with. -/
def TimerCall.interval? : TimerCall → Option WhTimeVal
  | addSlot _ interval _ _ => some interval.val
  | removeSlot _ | workProc _ => none

namespace JyMsgTimer

/-- The watched slots after a sequence of calls on a new timer. -/
def watched (calls : List TimerCall) : List WatchedSlot := calls.foldl TimerCall.watch []

theorem watched_concat (calls : List TimerCall) (c : TimerCall) :
    watched (calls ++ [c]) = c.watch (watched calls) := by
  rw [watched, List.foldl_append]
  rfl

theorem schedule_run (calls : List TimerCall) : (run calls).schedule_ = (watched calls).map slot := by
  induction calls using List.reverseRecOn with
  | nil => rfl
  | append_singleton calls c ih =>
    rw [run_concat, watched_concat, TimerCall.map_watch]
    exact congrArg (fun l => (c.apply ⟨l⟩).schedule_) ih

/-! ## Early and late -/

/-- Every message posted in the sequence is posted at a reading later than its slot's scheduled time. -/
def NeverEarly (calls : List TimerCall) : Prop :=
  ∀ pre now, pre ++ [.workProc now] <+: calls → ∀ w rest, watched pre = w :: rest →
    ∀ id, ((run pre).workProc now.val).2 = some id → w.due < now.val.micros

/-- The microseconds the slot was armed with are a second and more, and the reading is in the second behind
its seconds, but not behind what should have been carried there. -/
def Uncarried (w : WatchedSlot) (now : WhTimeVal) : Prop :=
  1000000 ≤ w.armed.tv_usec ∧ now.tv_sec = w.armed.tv_sec + 1 ∧ now.tv_usec ≤ w.armed.tv_usec - 1000000

/-- A turn waited for the slot, and the time it asked for has not run by the reading: the wait was signalled, it
woke by itself, or `waitTimed` rounded it down to milliseconds. -/
def CutShort (w : WatchedSlot) (now : WhTimeVal) : Prop :=
  ∃ begun rest, w.waits = begun :: rest ∧ ¬ (w.armed.sub begun).HasRun begun now

/-- The reading and those at which the slot was waited for come, together, to more than it was armed with. -/
def Outweighs (w : WatchedSlot) (now : WhTimeVal) : Prop := (w.waits.foldl WhTimeVal.add now).biggerThan w.armed = true

/-- No turn of the sequence reads the clock where `P` holds of its front slot, if that has an id to post. -/
def NoTurn (P : WatchedSlot → WhTimeVal → Prop) (calls : List TimerCall) : Prop :=
  ∀ pre now, pre ++ [.workProc now] <+: calls → ∀ w rest, watched pre = w :: rest → w.slot.id_ ≠ -1 → ¬ P w now.val

/-- A slot looked at for the first time without the carry it needs, or looked at again before its wait is over
while the readings come to more than it was armed with. -/
def Spoilt (w : WatchedSlot) (now : WhTimeVal) : Prop :=
  w.waits = [] ∧ Uncarried w now ∨ CutShort w now ∧ Outweighs w now

/-- Every reading is past every interval, as those of a clock are that counts from 1970. -/
def PastIntervals (calls : List TimerCall) : Prop :=
  ∀ now ∈ calls.filterMap TimerCall.now?, ∀ interval ∈ calls.filterMap TimerCall.interval?, now.biggerThan interval = true

/-- What a turn posts. -/
theorem workProc_eq_some {t : JyMsgTimer} {slot : JyMsgTimerSlot} {rest : List JyMsgTimerSlot}
    {now : WhTimeVal} {id : ℤ} (ht : t.schedule_ = slot :: rest) :
    (t.workProc now).2 = some id ↔ now.biggerThan slot.at_ = true ∧ slot.id_ ≠ -1 ∧ slot.id_ = id := by
  rw [workProc, ht]
  dsimp only
  by_cases hdue : now.biggerThan slot.at_ = true
  · by_cases hid : slot.id_ = -1
    · simp [hid, hdue]
    · simp [hid, hdue]
  · simp [hdue]

theorem cutShort_iff {w : WatchedSlot} {now : WhTimeVal} : CutShort w now ↔ w.waits ≠ [] ∧ now.micros ≤ w.due := by
  constructor
  · rintro ⟨begun, rest, hwaits, hrun⟩
    rw [WhTimeVal.HasRun, WhTimeVal.micros_sub] at hrun
    exact ⟨hwaits ▸ List.cons_ne_nil _ _, by rw [due]; omega⟩
  · rintro ⟨hne, hle⟩
    obtain ⟨begun, rest, hwaits⟩ := List.exists_cons_of_ne_nil hne
    rw [due] at hle
    exact ⟨begun, rest, hwaits, by rw [WhTimeVal.HasRun, WhTimeVal.micros_sub]; omega⟩

/-- **A slot is posted when the readings outweigh what it was armed with.** -/
theorem biggerThan_at (w : WatchedSlot) (now : WhTimeVal) : now.biggerThan w.slot.at_ = true ↔ Outweighs w now := by
  rw [w.at_eq, WhTimeVal.biggerThan_foldl_sub]
  rfl

/-- **A slot that nobody waited for is early exactly where a carry is missing.** -/
theorem uncarried_iff {w : WatchedSlot} {now : TimeReading} (hw : w.waits = []) :
    Uncarried w now.val ↔ Outweighs w now.val ∧ now.val.micros ≤ w.due := by
  have hnow := now.normalised
  have harmed := w.armedAt.normalised
  have hinterval := w.interval_normalised
  have h₁ := hnow.usec
  have h₂ := hnow.usec_lt
  have h₃ := harmed.usec
  have h₄ := harmed.usec_lt
  have h₅ := hinterval.usec
  have h₆ := hinterval.usec_lt
  rw [Uncarried, Outweighs, due, hw, List.foldl_nil, WhTimeVal.biggerThan_eq_true]
  simp only [WhTimeVal.micros, armed, WhTimeVal.add]
  omega

/-- A turn that is early finds its slot spoilt. -/
theorem spoilt_iff (w : WatchedSlot) (now : TimeReading) :
    Spoilt w now.val ↔ Outweighs w now.val ∧ now.val.micros ≤ w.due := by
  rw [Spoilt, cutShort_iff]
  by_cases hw : w.waits = []
  · rw [uncarried_iff hw]
    simp [hw]
  · simp only [hw, false_and, ne_eq, not_false_eq_true, true_and, false_or]
    exact and_comm

theorem neverEarly_iff_spoilt (calls : List TimerCall) : NeverEarly calls ↔ NoTurn Spoilt calls := by
  have hfront : ∀ {pre w rest}, watched pre = w :: rest → (run pre).schedule_ = w.slot :: rest.map slot := by
    intro pre w rest hw
    rw [schedule_run, hw, List.map_cons]
  constructor
  · intro h pre now hp w rest hw hid hspoilt
    obtain ⟨houtweighs, hle⟩ := (spoilt_iff w now).mp hspoilt
    have hpost := (workProc_eq_some (hfront hw)).mpr ⟨(biggerThan_at w _).mpr houtweighs, hid, rfl⟩
    exact hle.not_gt (h pre now hp w rest hw _ hpost)
  · intro h pre now hp w rest hw id hpost
    obtain ⟨hdue, hid, -⟩ := (workProc_eq_some (hfront hw)).mp hpost
    by_contra hle
    exact h pre now hp w rest hw hid ((spoilt_iff w now).mpr ⟨(biggerThan_at w _).mp hdue, not_lt.mp hle⟩)

/-! ## A clock that is past the intervals -/

/-- Where a slot comes from, and that it was waited for after it was armed. -/
structure Kept (calls : List TimerCall) (w : WatchedSlot) : Prop where
  armedAt : w.armedAt.val ∈ calls.filterMap TimerCall.now?
  interval : w.slot.interval_ ∈ calls.filterMap TimerCall.interval?
  waits : ∀ r ∈ w.waits, w.armedAt.val.biggerThan r = false ∧ r.Normalised

theorem Kept.append {calls : List TimerCall} {w : WatchedSlot} (h : Kept calls w) (c : TimerCall) :
    Kept (calls ++ [c]) w where
  armedAt := by
    rw [List.filterMap_append]
    exact List.mem_append_left _ h.armedAt
  interval := by
    rw [List.filterMap_append]
    exact List.mem_append_left _ h.interval
  waits := h.waits

/-- **On a clock that does not go back, slots are waited for after they were armed.** -/
theorem kept_of_mem {calls : List TimerCall} (hclock : ClockNondecreasing calls) :
    ∀ w ∈ watched calls, Kept calls w := by
  induction calls using List.reverseRecOn with
  | nil => exact fun w hw => by cases hw
  | append_singleton calls c ih =>
    rw [ClockNondecreasing, List.filterMap_append, List.pairwise_append] at hclock
    obtain ⟨hbefore, -, hlast⟩ := hclock
    have hold : ∀ w ∈ watched calls, Kept (calls ++ [c]) w := fun w hw => (ih hbefore w hw).append c
    have hnow : ∀ {now}, c.now? = some now → now ∈ (calls ++ [c]).filterMap TimerCall.now? := by
      intro now hc
      rw [List.filterMap_append, List.mem_append]
      exact .inr (List.mem_filterMap.mpr ⟨c, List.mem_singleton_self c, hc⟩)
    rw [watched_concat]
    intro w hw
    cases c with
    | addSlot id interval isRepeat now =>
      rw [TimerCall.watch] at hw
      split_ifs at hw
      · exact hold w hw
      · rcases mem_insert.mp hw with rfl | hw
        · refine ⟨hnow rfl, ?_, fun r hr => by cases hr⟩
          rw [List.filterMap_append, List.mem_append]
          exact .inr List.mem_cons_self
        · exact hold w hw
    | removeSlot id => exact hold w (List.mem_of_mem_filter hw)
    | workProc now =>
      cases hfront : watched calls with
      | nil =>
        rw [hfront] at hw
        cases hw
      | cons front rest =>
        rw [hfront] at hw hold
        rw [TimerCall.watch] at hw
        have hkept := ih hbefore front (hfront ▸ List.mem_cons_self)
        have hrest : ∀ w ∈ rest, Kept (calls ++ [.workProc now]) w := fun w hw => hold w (List.mem_cons_of_mem _ hw)
        split_ifs at hw
        · rcases mem_insert.mp hw with rfl | hw
          · exact ⟨hnow rfl, (hold front List.mem_cons_self).interval, fun r hr => by cases hr⟩
          · exact hrest w hw
        · exact hrest w hw
        · rcases List.mem_cons.mp hw with rfl | hw
          · refine ⟨(hold front List.mem_cons_self).armedAt, (hold front List.mem_cons_self).interval, fun r hr => ?_⟩
            rcases List.mem_append.mp hr with hr | hr
            · exact hkept.waits r hr
            · rw [List.mem_singleton.mp hr]
              exact ⟨hlast _ hkept.armedAt _ List.mem_cons_self, now.normalised⟩
          · exact hrest w hw

/-- **On such a clock, past the intervals, a slot that was waited for is posted at the next look.** -/
theorem outweighs_of_kept {calls : List TimerCall} {w : WatchedSlot} {now : WhTimeVal} (h : Kept calls w)
    (hne : w.waits ≠ []) (hpast : now.biggerThan w.slot.interval_ = true) : Outweighs w now := by
  obtain ⟨first, rest, hwaits⟩ := List.exists_cons_of_ne_nil hne
  have hfirst := (h.waits first (hwaits ▸ List.mem_cons_self)).1
  rw [← Bool.not_eq_true, WhTimeVal.biggerThan_eq_true, not_or, not_and] at hfirst
  obtain ⟨hsec, husec⟩ := WhTimeVal.le_foldl_add
    (fun r hr => (h.waits r (hwaits ▸ List.mem_cons_of_mem _ hr)).2) (now.add first)
  rw [WhTimeVal.biggerThan_eq_true] at hpast
  rw [Outweighs, hwaits, List.foldl_cons, WhTimeVal.biggerThan_eq_true]
  simp only [armed, WhTimeVal.add] at hsec husec ⊢
  omega

/-- **No timer of a sequence fires early exactly when no turn meets a spoilt slot**; on a clock that does not go
back and is past the intervals, exactly when no wait is cut short and no carry is missed. -/
theorem neverEarly_iff (calls : List TimerCall) : (NeverEarly calls ↔ NoTurn Spoilt calls) ∧
    (ClockNondecreasing calls → PastIntervals calls →
      (NeverEarly calls ↔ NoTurn (fun w now => w.waits = [] ∧ Uncarried w now ∨ CutShort w now) calls)) := by
  refine ⟨neverEarly_iff_spoilt calls, fun hclock hpast => ?_⟩
  rw [neverEarly_iff_spoilt]
  constructor
  · intro h pre now hp w rest hw hid hcut
    have hfront : pre <+: calls := (List.prefix_append pre _).trans hp
    have hkept : Kept pre w := by
      refine kept_of_mem (List.Pairwise.sublist (hfront.sublist.filterMap _) hclock) w ?_
      rw [hw]
      exact List.mem_cons_self
    refine h pre now hp w rest hw hid (hcut.imp_right fun hcut => ⟨hcut, ?_⟩)
    refine outweighs_of_kept hkept (cutShort_iff.mp hcut).1 (hpast _ ?_ _ ?_)
    · exact (hp.sublist.filterMap _).subset (by
        rw [List.filterMap_append, List.mem_append]
        exact .inr List.mem_cons_self)
    · exact (hfront.sublist.filterMap _).subset hkept.interval
  · intro h pre now hp w rest hw hid hspoilt
    exact h pre now hp w rest hw hid (hspoilt.imp_right And.left)

theorem second_five : WhTimeVal.Normalised ⟨5, 0⟩ := ⟨by decide, by decide, by decide⟩

theorem second_hundred : WhTimeVal.Normalised ⟨100, 0⟩ := ⟨by decide, by decide, by decide⟩

/-- A timer of five seconds set at second `100`. -/
def armedTimer : List TimerCall := [.addSlot 1 ⟨⟨5, 0⟩, second_five⟩ false ⟨⟨100, 0⟩, second_hundred⟩]

/-- It is waited for at once. -/
def waitedFor : List TimerCall := armedTimer ++ [.workProc ⟨⟨100, 0⟩, second_hundred⟩]

/-- It is looked at again when the wait is over. -/
def waitedOut : List TimerCall := waitedFor ++ [.workProc ⟨⟨106, 0⟩, ⟨by decide, by decide, by decide⟩⟩]

/-- **A timer that is waited for to the end is posted late.** -/
theorem waitedOut_neverEarly : ((run waitedFor).workProc ⟨106, 0⟩).2 = some 1 ∧ NeverEarly waitedOut := by
  refine ⟨by decide, ((neverEarly_iff waitedOut).2 (by decide) (by unfold PastIntervals; decide)).mpr ?_⟩
  intro pre now hp w rest hw _
  rw [waitedOut, List.prefix_concat_iff, waitedFor, List.prefix_concat_iff] at hp
  rcases hp with hlast | hfirst | hnone
  · obtain ⟨rfl, hcall⟩ := List.append_inj' hlast rfl
    obtain rfl := TimerCall.workProc.inj (List.singleton_inj.mp hcall)
    obtain ⟨rfl, -⟩ := List.cons.inj hw
    rintro (⟨hnil, -⟩ | hcut)
    · exact List.cons_ne_nil _ _ hnil
    · exact absurd (cutShort_iff.mp hcut).2 (by decide)
  · obtain ⟨rfl, hcall⟩ := List.append_inj' hfirst rfl
    obtain rfl := TimerCall.workProc.inj (List.singleton_inj.mp hcall)
    obtain ⟨rfl, -⟩ := List.cons.inj hw
    rintro (⟨-, hcarry, -⟩ | hcut)
    · exact absurd hcarry (by decide)
    · exact (cutShort_iff.mp hcut).1 rfl
  · have hmem := hnone.subset (List.mem_append_right pre List.mem_cons_self)
    cases List.mem_singleton.mp hmem

/-- It is looked at again a second later. -/
def lookedAtTwice : List TimerCall := waitedFor ++ [.workProc ⟨⟨101, 0⟩, ⟨by decide, by decide, by decide⟩⟩]

/-- **A wait that ends before its time fires the timer.** -/
theorem lookedAtTwice_not_neverEarly : ClockNondecreasing lookedAtTwice ∧ ¬ NeverEarly lookedAtTwice := by
  refine ⟨by decide, fun h => ?_⟩
  have hlt := h waitedFor _ (List.prefix_refl lookedAtTwice) _ _ rfl 1 (by decide)
  exact absurd hlt (by decide)

end JyMsgTimer

end EuhatExpert
