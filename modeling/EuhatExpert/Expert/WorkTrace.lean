import EuhatExpert.Expert.EuhatWtPayload
import EuhatExpert.Machinery.Run

/-!
# Expert/WorkTrace — counting events by the minute, and storing them by the day

`payloadAddOne` counts an event in the minute of its local time and stores the payload when the minute has
changed.  That a new day has begun it concludes from the minute going back, and the date to store the old
day under is the one of 24 hours ago.  `onTheirDay_of_run`: the counts land on their day as long as the two
conclusions are right, or there is nothing counted.
-/

namespace EuhatExpert

open Machinery

/-- A local time, to the minute. -/
structure LocalTime where
  date : ℤ
  minute : ℕ
  minute_lt : minute < EUHAT_WT_PAYLOAD_COUNT

namespace LocalTime

/-- Not later. -/
def NotAfter (a b : LocalTime) : Prop := a.date < b.date ∨ a.date = b.date ∧ a.minute ≤ b.minute

theorem NotAfter.date_le {a b : LocalTime} (h : a.NotAfter b) : a.date ≤ b.date :=
  h.elim Int.le_of_lt fun h => Int.le_of_eq h.1

end LocalTime

/-- `WorkTrace`: its payload, and the minute it was last called in. -/
structure WorkTrace where
  payload_ : EuhatWtPayload
  lastSlot_ : ℤ

open EuhatWtPayload

namespace WorkTrace

/-- `updateNoMoveSlot`. -/
def updateNoMoveSlot (p : EuhatWtPayload) (slot : ℕ) (value : ℤ) : EuhatWtPayload :=
  let p := if p.getValue slot EUHAT_WT_PL_TYPE_MOUSE = EUHAT_WT_PL_NO_RECORD then
      p.setValue slot EUHAT_WT_PL_TYPE_MOUSE value else p
  if p.getValue slot EUHAT_WT_PL_TYPE_KEYBOARD = EUHAT_WT_PL_NO_RECORD then
    p.setValue slot EUHAT_WT_PL_TYPE_KEYBOARD value else p

/-- The loop of `updateNoMoveGap` over `n` slots from `slot` on. -/
def fill (p : EuhatWtPayload) (slot n : ℕ) (value : ℤ) : EuhatWtPayload :=
  (List.range' slot n).foldl (fun p i => updateNoMoveSlot p i value) p

def updateNoMoveGap (s : WorkTrace) (curSlot : ℕ) : WorkTrace :=
  let fillValue := if (s.lastSlot_ - curSlot).natAbs > 1 then EUHAT_WT_PL_HANG_UP else EUHAT_WT_PL_NO_MOVE
  let p := s.payload_
  let lastSlot := s.lastSlot_.toNat
  if s.lastSlot_ ≥ 0 then
    if s.lastSlot_ > curSlot then
      ⟨fill (fill p lastSlot (EUHAT_WT_PAYLOAD_COUNT - lastSlot) fillValue) 0 curSlot fillValue, curSlot⟩
    else ⟨fill p lastSlot (curSlot + 1 - lastSlot) fillValue, curSlot⟩
  else ⟨p, curSlot⟩

/-- An event counted in a slot.  The first one of a slot counts twice. -/
def addOne (p : EuhatWtPayload) (slot : ℕ) (type : ℤ) : EuhatWtPayload :=
  let p := if p.getValue slot type < 0 then p.setValue slot type 1 else p
  p.setValue slot type (p.getValue slot type + 1)

variable (localtime : ℤ → LocalTime)

/-- What is done when the minute has gone back: the payload is stored under the date of 24 hours ago. -/
def changeDay (s : WorkTrace) (t : ℤ) : WorkTrace × List (ℤ × EuhatWtPayload) :=
  (⟨reset, 0⟩, [((localtime (t - 24 * 60 * 60)).date,
    (s.updateNoMoveGap (EUHAT_WT_PAYLOAD_COUNT - 1)).payload_)])

/-- The trace a call counts in, and what it has stored by then. -/
def beginDay (s : WorkTrace) (t : ℤ) : WorkTrace × List (ℤ × EuhatWtPayload) :=
  if (localtime t).minute < s.lastSlot_ then changeDay localtime s t else (s, [])

/-- An event is counted; a timer calls with a negative type. -/
def count (s : WorkTrace) (slot : ℕ) (type : ℤ) : WorkTrace :=
  { s with payload_ := if type ≥ 0 then addOne s.payload_ slot type else s.payload_ }

/-- `payloadAddOne` at time `t`, with what it stores. -/
def payloadAddOne (s : WorkTrace) (t type : ℤ) : WorkTrace × List (ℤ × EuhatWtPayload) :=
  let slot := (localtime t).minute
  let begun := beginDay localtime s t
  let s := begun.1.count slot type
  if s.lastSlot_ ≠ slot then
    (s.updateNoMoveGap slot, begun.2 ++ [((localtime t).date, (s.updateNoMoveGap slot).payload_)])
  else (s, begun.2)

/-- `startRecord`, on the row of its date. -/
def startRecord (row : Option EuhatWtPayload) : WorkTrace := ⟨read row, -1⟩

/-! ## Filling gaps counts nothing -/

theorem alike_updateNoMoveSlot (p : EuhatWtPayload) (slot : ℕ) {value : ℤ} (hvalue : value < 0) :
    Alike p (updateNoMoveSlot p slot value) := by
  have key : ∀ (p : EuhatWtPayload) {type : ℤ}, IsType type →
      Alike p (if p.getValue slot type = EUHAT_WT_PL_NO_RECORD then p.setValue slot type value else p) := by
    intro p type htype
    split_ifs with h
    · exact alike_setValue p htype (by rw [h]; decide) hvalue
    · exact .refl p
  exact (key p (.inl rfl)).trans (key _ (.inr rfl))

theorem alike_fill (p : EuhatWtPayload) (slot n : ℕ) {value : ℤ} (hvalue : value < 0) :
    Alike p (fill p slot n value) := by
  have key : ∀ (slots : List ℕ) (p : EuhatWtPayload),
      Alike p (slots.foldl (fun p i => updateNoMoveSlot p i value) p) := by
    intro slots
    induction slots with
    | nil => exact fun p => .refl p
    | cons i slots ih => exact fun p => (alike_updateNoMoveSlot p i hvalue).trans (ih _)
  exact key _ p

/-- **A gap is filled without a change to the counts.** -/
theorem alike_updateNoMoveGap (s : WorkTrace) (curSlot : ℕ) :
    Alike s.payload_ (s.updateNoMoveGap curSlot).payload_ := by
  have hvalue : (if (s.lastSlot_ - curSlot).natAbs > 1 then EUHAT_WT_PL_HANG_UP else EUHAT_WT_PL_NO_MOVE) < 0 := by
    split_ifs <;> decide
  rw [updateNoMoveGap]
  generalize (if (s.lastSlot_ - curSlot).natAbs > 1 then EUHAT_WT_PL_HANG_UP
    else EUHAT_WT_PL_NO_MOVE) = value at hvalue ⊢
  generalize EUHAT_WT_PAYLOAD_COUNT - s.lastSlot_.toNat = n
  split_ifs
  · exact (alike_fill s.payload_ s.lastSlot_.toNat n hvalue).trans (alike_fill _ 0 curSlot hvalue)
  · exact alike_fill s.payload_ s.lastSlot_.toNat _ hvalue
  · exact .refl _

@[simp] theorem updateNoMoveGap_lastSlot (s : WorkTrace) (curSlot : ℕ) :
    (s.updateNoMoveGap curSlot).lastSlot_ = curSlot := by
  rw [updateNoMoveGap]
  generalize EUHAT_WT_PAYLOAD_COUNT - s.lastSlot_.toNat = n
  split_ifs
  all_goals rfl

/-! ## Counting -/

/-- What a value comes to when `n` events are counted in it. -/
def tally (v : ℤ) (n : ℕ) : ℤ := if n = 0 then v else (if v < 0 then 1 else v) + n

theorem getValue_addOne_self (p : EuhatWtPayload) (slot : ℕ) {type : ℤ} (h : IsType type) :
    (addOne p slot type).getValue slot type = tally (p.getValue slot type) 1 := by
  rw [addOne, tally, if_neg Nat.one_ne_zero]
  rw [getValue_setValue_self _ h]
  split_ifs
  · rw [getValue_setValue_self p h]
    rfl
  · rfl

theorem getValue_addOne_of_ne (p : EuhatWtPayload) {slot slot' : ℕ} {type type' : ℤ}
    (h : slot' ≠ slot ∨ type' ≠ type) :
    (addOne p slot type).getValue slot' type' = p.getValue slot' type' := by
  rw [addOne, getValue_setValue_of_ne _ h]
  split_ifs
  · rw [getValue_setValue_of_ne p h]
  · rfl

/-- Values that agree still do when one more event is counted in them. -/
theorem Agree.tally_succ {v w : ℤ} {n : ℕ} (h : Agree v (tally w n)) :
    Agree (tally v 1) (tally w (n + 1)) := by
  rw [tally, tally, if_neg Nat.one_ne_zero, if_neg (Nat.succ_ne_zero n)]
  rw [tally] at h
  left
  by_cases hw : w < 0
  · by_cases hn : n = 0
    · rw [if_pos hn] at h
      have hv : v < 0 := h.elim (fun h => h ▸ hw) And.left
      rw [if_pos hv, if_pos hw, hn]
    · rw [if_neg hn, if_pos hw] at h
      have hv : v = 1 + n := h.resolve_right fun h => by omega
      rw [if_neg (by omega), if_pos hw, hv]
      push_cast
      omega
  · rw [if_neg hw] at h ⊢
    have hv : v = w + n := by
      split_ifs at h with hn
      · rcases h with h | h <;> omega
      · rcases h with h | h <;> omega
    rw [if_neg (by omega), hv]
    push_cast
    omega

/-! ## Runs -/

/-- A call of `payloadAddOne`, and what it stored. -/
structure TraceCall where
  t : ℤ
  type : ℤ
  writes : List (ℤ × EuhatWtPayload)

/-- A `WorkTrace`, and the local time of its start or its last call. -/
structure TraceState where
  trace : WorkTrace
  now : LocalTime

section Runs

variable (localtime : ℤ → LocalTime) (row : Option EuhatWtPayload) (t₀ : ℤ)

/-- `startRecord` at time `t₀`. -/
def traceStart : TraceState := ⟨startRecord row, localtime t₀⟩

/-- A call at a local time not before that of the last. -/
inductive Step : TraceState → TraceCall → TraceState → Prop
  | call {s : TraceState} {t : ℤ} (type : ℤ) (h : s.now.NotAfter (localtime t)) :
      Step s ⟨t, type, (payloadAddOne localtime s.trace t type).2⟩
        ⟨(payloadAddOne localtime s.trace t type).1, localtime t⟩

/-- The events of a type in a minute of a date. -/
def eventsIn (calls : List TraceCall) (date : ℤ) (slot : ℕ) (type : ℤ) : ℕ :=
  calls.countP fun c => (localtime c.t).date = date ∧ (localtime c.t).minute = slot ∧ c.type = type

/-- What was read for a date at the start. -/
def loaded (date : ℤ) : EuhatWtPayload := if date = (localtime t₀).date then read row else reset

/-- What the events of a date, on top of what was read for it at the start, come to. -/
def ofDate (calls : List TraceCall) (date : ℤ) (slot : ℕ) (type : ℤ) : ℤ :=
  tally ((loaded localtime row t₀ date).getValue slot type) (eventsIn localtime calls date slot type)

/-- Every count that is stored under a date is one of that date. -/
def OnTheirDay (calls : List TraceCall) : Prop :=
  ∀ before c after, calls = before ++ c :: after → ∀ date p, (date, p) ∈ c.writes →
    ∀ slot type, IsType type → 0 ≤ p.getValue slot type →
      p.getValue slot type = ofDate localtime row t₀ (before ++ [c]) date slot type

/-- The date is the one of the last call, or the minute has gone back and 24 hours ago was the date of
the last call, or nothing is counted. -/
def DaySeen (s : TraceState) (c : TraceCall) : Prop :=
  (localtime c.t).date = s.now.date ∨
    ((localtime c.t).minute < s.trace.lastSlot_ ∧
      (localtime (c.t - 24 * 60 * 60)).date = s.now.date) ∨
    ∀ slot type, IsType type → s.trace.payload_.getValue slot type < 0

/-- The payload counts the date of the last call, and no call was later. -/
structure Tallied (calls : List TraceCall) (s : TraceState) : Prop where
  cells : ∀ slot type, IsType type → Agree (s.trace.payload_.getValue slot type)
    (ofDate localtime row t₀ calls s.now.date slot type)
  start_le : (localtime t₀).date ≤ s.now.date
  calls_le : ∀ c ∈ calls, (localtime c.t).date ≤ s.now.date
  slot_le : s.trace.lastSlot_ ≤ s.now.minute

variable {localtime row t₀} {calls : List TraceCall} {s s' : TraceState} {c : TraceCall}

theorem eventsIn_concat (calls : List TraceCall) (c : TraceCall) (date : ℤ) (slot : ℕ) (type : ℤ) :
    eventsIn localtime (calls ++ [c]) date slot type = eventsIn localtime calls date slot type +
      if (localtime c.t).date = date ∧ (localtime c.t).minute = slot ∧ c.type = type then 1 else 0 := by
  rw [eventsIn, List.countP_append, List.countP_singleton]
  simp only [decide_eq_true_eq]
  rfl

/-- A call that is no event of a value does not change what the value is to be. -/
theorem ofDate_concat_of_ne {date : ℤ} {slot : ℕ} {type : ℤ}
    (h : ¬ ((localtime c.t).date = date ∧ (localtime c.t).minute = slot ∧ c.type = type)) :
    ofDate localtime row t₀ (calls ++ [c]) date slot type = ofDate localtime row t₀ calls date slot type := by
  rw [ofDate, eventsIn_concat, if_neg h, Nat.add_zero, ofDate]

/-- Of a date to come nothing is known. -/
theorem Tallied.ofDate_of_lt (h : Tallied localtime row t₀ calls s) {date : ℤ} (hlt : s.now.date < date)
    (slot : ℕ) (type : ℤ) : ofDate localtime row t₀ calls date slot type = EUHAT_WT_PL_NO_RECORD := by
  have hnone : eventsIn localtime calls date slot type = 0 := by
    rw [eventsIn, List.countP_eq_zero]
    intro c hc hmatch
    have hle := h.calls_le c hc
    rw [(of_decide_eq_true hmatch).1] at hle
    omega
  have hstart := h.start_le
  rw [ofDate, hnone, tally, if_pos rfl, loaded, if_neg (by omega), getValue_reset]

/-- **What a call does**: the counts it leaves are those it counted, and so are the last it stores. -/
theorem payloadAddOne_spec (localtime : ℤ → LocalTime) (s : WorkTrace) (t type : ℤ) :
    (payloadAddOne localtime s t type).1.lastSlot_ = (localtime t).minute ∧
      Alike ((beginDay localtime s t).1.count (localtime t).minute type).payload_
        (payloadAddOne localtime s t type).1.payload_ ∧
      ∀ w ∈ (payloadAddOne localtime s t type).2, w ∈ (beginDay localtime s t).2 ∨
        w = ((localtime t).date, (payloadAddOne localtime s t type).1.payload_) := by
  rw [payloadAddOne]
  generalize (beginDay localtime s t).1.count (localtime t).minute type = s₂
  generalize (beginDay localtime s t).2 = writes
  split_ifs with hslot
  · refine ⟨s₂.updateNoMoveGap_lastSlot _, s₂.alike_updateNoMoveGap _, fun w hw => ?_⟩
    rcases List.mem_append.mp hw with hw | hw
    · exact .inl hw
    · exact .inr (List.mem_singleton.mp hw)
  · exact ⟨Decidable.not_not.mp hslot, .refl _, fun w hw => .inl hw⟩

/-- **A day is begun with the counts of its date, and with those of the last one stored.** -/
theorem Tallied.beginDay (h : Tallied localtime row t₀ calls s) (hafter : s.now.NotAfter (localtime c.t))
    (hseen : DaySeen localtime s c) :
    (∀ slot type, IsType type → Agree ((WorkTrace.beginDay localtime s.trace c.t).1.payload_.getValue slot type)
      (ofDate localtime row t₀ calls (localtime c.t).date slot type)) ∧
    ∀ date p, (date, p) ∈ (WorkTrace.beginDay localtime s.trace c.t).2 → ∀ slot type, IsType type →
      0 ≤ p.getValue slot type →
      p.getValue slot type = ofDate localtime row t₀ (calls ++ [c]) date slot type := by
  have hslot := h.slot_le
  rw [WorkTrace.beginDay]
  split_ifs with hback
  · -- the minute has gone back, so the date is a later one
    have hlater : s.now.date < (localtime c.t).date := hafter.resolve_right fun hsame => by omega
    refine ⟨fun slot type _ => ?_, fun date p hp slot type htype hcount => ?_⟩
    · rw [h.ofDate_of_lt hlater, changeDay, getValue_reset]
      exact .refl _
    · rw [changeDay, List.mem_singleton] at hp
      obtain ⟨rfl, rfl⟩ := Prod.mk.inj hp
      have halike := s.trace.alike_updateNoMoveGap (EUHAT_WT_PAYLOAD_COUNT - 1) slot type
      have hval := halike.symm.eq_of_nonneg hcount
      rcases hseen with hsame | ⟨-, hyesterday⟩ | hnone
      · omega
      · rw [hyesterday, ofDate_concat_of_ne fun hmatch => by omega]
        rw [hval] at hcount ⊢
        exact (h.cells slot type htype).eq_of_nonneg hcount
      · have := hnone slot type htype
        omega
  · refine ⟨fun slot type htype => ?_, nofun⟩
    rcases hafter with hlater | ⟨hsame, -⟩
    · rcases hseen with hsame | ⟨hback', -⟩ | hnone
      · omega
      · exact absurd hback' hback
      · rw [h.ofDate_of_lt hlater]
        exact .inr ⟨hnone slot type htype, by decide⟩
    · rw [← hsame]
      exact h.cells slot type htype

/-- An event is counted in its own value. -/
theorem agree_count {w : WorkTrace} (hw : ∀ slot type, IsType type → Agree (w.payload_.getValue slot type)
      (ofDate localtime row t₀ calls (localtime c.t).date slot type)) :
    ∀ slot type, IsType type → Agree ((w.count (localtime c.t).minute c.type).payload_.getValue slot type)
      (ofDate localtime row t₀ (calls ++ [c]) (localtime c.t).date slot type) := by
  intro slot type htype
  rw [WorkTrace.count]
  by_cases hmatch : (localtime c.t).minute = slot ∧ c.type = type
  · obtain ⟨rfl, rfl⟩ := hmatch
    have hpos : c.type ≥ 0 := by
      rcases htype with h | h
      all_goals
        rw [h]
        decide
    dsimp only
    rw [if_pos hpos, getValue_addOne_self _ _ htype, ofDate, eventsIn_concat, if_pos ⟨rfl, rfl, rfl⟩]
    exact Agree.tally_succ (hw _ _ htype)
  · rw [ofDate_concat_of_ne fun h => hmatch h.2]
    have hne : slot ≠ (localtime c.t).minute ∨ type ≠ c.type := by
      by_contra hsame
      simp only [not_or, Decidable.not_not] at hsame
      exact hmatch ⟨hsame.1.symm, hsame.2.symm⟩
    dsimp only
    split_ifs
    · rw [getValue_addOne_of_ne _ hne]
      exact hw slot type htype
    · exact hw slot type htype

/-- **A call that sees its day keeps the payload the counts of its date, and stores only such.** -/
theorem Tallied.step (h : Tallied localtime row t₀ calls s) (hstep : Step localtime s c s')
    (hseen : DaySeen localtime s c) :
    Tallied localtime row t₀ (calls ++ [c]) s' ∧ ∀ date p, (date, p) ∈ c.writes →
      ∀ slot type, IsType type → 0 ≤ p.getValue slot type →
        p.getValue slot type = ofDate localtime row t₀ (calls ++ [c]) date slot type := by
  cases hstep with
  | @call t type hafter =>
    obtain ⟨hcells, hstored⟩ := h.beginDay hafter hseen
    obtain ⟨hlast, halike, hwrites⟩ := payloadAddOne_spec localtime s.trace t type
    have hnow := agree_count hcells
    have hle := hafter.date_le
    refine ⟨⟨fun slot type' htype => (halike slot type').symm.trans (hnow slot type' htype),
      Int.le_trans h.start_le hle, fun c' hc' => ?_, Int.le_of_eq hlast⟩, fun date p hp slot type' htype hcount => ?_⟩
    · rcases List.mem_append.mp hc' with hc' | hc'
      · exact Int.le_trans (h.calls_le c' hc') hle
      · obtain rfl := List.mem_singleton.mp hc'
        exact Int.le_refl _
    · rcases hwrites _ hp with hp | hp
      · exact hstored date p hp slot type' htype hcount
      · obtain ⟨rfl, rfl⟩ := Prod.mk.inj hp
        exact ((halike slot type').symm.trans (hnow slot type' htype)).eq_of_nonneg hcount

theorem tallied_start : Tallied localtime row t₀ [] (traceStart localtime row t₀) where
  cells slot type _ := by
    have hloaded : loaded localtime row t₀ (traceStart localtime row t₀).now.date = read row := if_pos rfl
    rw [ofDate, hloaded]
    exact .refl _
  start_le := Int.le_refl _
  calls_le := nofun
  slot_le := by
    change (-1 : ℤ) ≤ (localtime t₀).minute
    omega

/-- **In a run whose calls see their days, the counts are stored under their day.** -/
theorem onTheirDay_of_run
    (h : Run (restrict (Step localtime) (DaySeen localtime)) (traceStart localtime row t₀) calls s) :
    OnTheirDay localtime row t₀ calls := by
  have hinv : Tallied localtime row t₀ calls s ∧ OnTheirDay localtime row t₀ calls := by
    refine h.invariant_hist
      (I := fun calls s => Tallied localtime row t₀ calls s ∧ OnTheirDay localtime row t₀ calls)
      ⟨tallied_start, ?_⟩ ?_
    · intro before c after hcalls
      simp at hcalls
    · rintro calls s c s' ⟨htallied, hday⟩ ⟨hstep, hseen⟩
      obtain ⟨htallied', hwrites⟩ := htallied.step hstep hseen
      refine ⟨htallied', fun before c' after hcalls => ?_⟩
      rcases split_of_concat hcalls with ⟨rfl, rfl⟩ | ⟨after, hcalls⟩
      · exact hwrites
      · exact hday before c' after hcalls
  exact hinv.2

end Runs

/-- A zone whose local time is the time. -/
def utc (t : ℤ) : LocalTime := ⟨t / 86400, (t % 86400 / 60).toNat, by rw [EUHAT_WT_PAYLOAD_COUNT]; omega⟩

/-- The call after a run. -/
def callOn (s : TraceState) (t type : ℤ) : TraceCall :=
  ⟨t, type, (payloadAddOne utc s.trace t type).2⟩

/-- The state it leaves. -/
def afterCall (s : TraceState) (t type : ℤ) : TraceState := ⟨(payloadAddOne utc s.trace t type).1, utc t⟩

theorem lastSlot_afterCall (s : TraceState) (t type : ℤ) :
    (afterCall s t type).trace.lastSlot_ = (utc t).minute := (payloadAddOne_spec utc s.trace t type).1

/-- A trace started and called at a minute to midnight. -/
def beforeMidnight : TraceState := afterCall (traceStart utc none 86340) 86340 0

/-- **An event before midnight and a timer after it.** -/
theorem acrossMidnight_onTheirDay : ∃ calls s,
    Run (restrict (Step utc) (DaySeen utc)) (traceStart utc none 86340) calls s ∧
      calls.map TraceCall.t = [86340, 86460] ∧ OnTheirDay utc none 86340 calls := by
  have hback : ((utc 86460).minute : ℤ) < beforeMidnight.trace.lastSlot_ := by
    rw [beforeMidnight, lastSlot_afterCall]
    decide
  have hrun : Run (restrict (Step utc) (DaySeen utc)) (traceStart utc none 86340)
      [callOn (traceStart utc none 86340) 86340 0, callOn beforeMidnight 86460 (-1)]
      (afterCall beforeMidnight 86460 (-1)) :=
    (Run.nil.snoc ⟨.call 0 (.inr ⟨rfl, le_refl _⟩), .inl rfl⟩).snoc
      ⟨.call (-1) (.inl (by decide)), .inr (.inl ⟨hback, by decide⟩)⟩
  exact ⟨_, _, hrun, rfl, onTheirDay_of_run hrun⟩

/-- A trace started and called at ten in the morning. -/
def tenOClock : TraceState := afterCall (traceStart utc none 36000) 36000 0

/-- A call of another minute than the last stores what it leaves. -/
theorem mem_writes_of_ne (localtime : ℤ → LocalTime) {s : WorkTrace} {t : ℤ} (type : ℤ)
    (h : (beginDay localtime s t).1.lastSlot_ ≠ (localtime t).minute) :
    ((localtime t).date, (payloadAddOne localtime s t type).1.payload_) ∈
      (payloadAddOne localtime s t type).2 := by
  rw [payloadAddOne]
  have hcount : ((beginDay localtime s t).1.count (localtime t).minute type).lastSlot_ ≠
    (localtime t).minute := h
  rw [if_pos hcount]
  exact List.mem_append_right _ (List.mem_singleton_self _)

/-- Its one event is counted. -/
theorem getValue_tenOClock : tenOClock.trace.payload_.getValue 600 0 = 2 := by
  have halike := (payloadAddOne_spec utc (startRecord none) 36000 0).2.1
  have hvalue : ((beginDay utc (startRecord none) 36000).1.count (utc 36000).minute 0).payload_.getValue 600 0
      = 2 := by
    decide
  exact (hvalue ▸ (halike 600 0).eq_of_nonneg (by rw [hvalue]; decide)).symm

/-- **Counts of ten in the morning, stored under the next day after a pause of 25 hours.** -/
theorem pausedADay_not_onTheirDay : ∃ calls s, Run (Step utc) (traceStart utc none 36000) calls s ∧
    calls.map TraceCall.t = [36000, 126000] ∧ ¬ OnTheirDay utc none 36000 calls := by
  have hrun : Run (Step utc) (traceStart utc none 36000)
      [callOn (traceStart utc none 36000) 36000 0, callOn tenOClock 126000 (-1)]
      (afterCall tenOClock 126000 (-1)) :=
    (Run.nil.snoc (.call 0 (.inr ⟨rfl, le_refl _⟩))).snoc (.call (-1) (.inl (by decide)))
  refine ⟨_, _, hrun, rfl, fun hday => ?_⟩
  have hslot : tenOClock.trace.lastSlot_ = 600 := lastSlot_afterCall _ _ _
  have hbegin : beginDay utc tenOClock.trace 126000 = (tenOClock.trace, []) :=
    if_neg (by rw [hslot]; decide)
  have hmem := mem_writes_of_ne utc (-1) (s := tenOClock.trace) (t := 126000)
    (by rw [hbegin, hslot]; decide)
  have hvalue : (payloadAddOne utc tenOClock.trace 126000 (-1)).1.payload_.getValue 600 0 = 2 := by
    have halike := (payloadAddOne_spec utc tenOClock.trace 126000 (-1)).2.1 600 0
    simp only [hbegin] at halike
    have hbefore : (tenOClock.trace.count (utc 126000).minute (-1)).payload_.getValue 600 0 = 2 :=
      getValue_tenOClock
    exact (halike.eq_of_nonneg (by rw [hbefore]; decide)).symm.trans hbefore
  have hstored := hday [_] _ [] rfl _ _ hmem 600 0 (.inl rfl) (by rw [hvalue]; decide)
  have hnone : ofDate utc none 36000
      ([callOn (traceStart utc none 36000) 36000 0] ++ [callOn tenOClock 126000 (-1)])
      (utc 126000).date 600 0 = EUHAT_WT_PL_NO_RECORD := rfl
  rw [hvalue, hnone] at hstored
  exact absurd hstored (by decide)

end WorkTrace

end EuhatExpert
