import EuhatExpert.Expert.WorkTrace

/-!
# Expert/MinuteCounts — what a day of calls leaves in the payload

Within a day the minutes of the calls only go up.  No call then leaves the payload's minutes
(`payloadAddOneIn_eq_some`), takes a count back or leaves a gap behind (`kept_of_run`).  What it does not do is
count: the first event of a minute counts twice, so every minute with an event has one too many
(`countsExact_iff`).
-/

namespace EuhatExpert

open Machinery EuhatWtPayload

/-! ## Filling -/

namespace WorkTrace

theorem getValue_setValue (p : EuhatWtPayload) {slot slot' : ℕ} {type type' : ℤ} (htype : IsType type) (val : ℤ) :
    (p.setValue slot type val).getValue slot' type' =
      if slot' = slot ∧ type' = type then val else p.getValue slot' type' := by
  by_cases h : slot' = slot ∧ type' = type
  · rw [if_pos h, h.1, h.2, getValue_setValue_self p htype]
  · rw [if_neg h, getValue_setValue_of_ne p (by tauto)]

/-- A minute without a record is marked, and nothing else changes. -/
theorem getValue_updateNoMoveSlot (p : EuhatWtPayload) {slot slot' : ℕ} {type : ℤ} (htype : IsType type)
    (value : ℤ) :
    (updateNoMoveSlot p slot value).getValue slot' type =
      if slot' = slot ∧ p.getValue slot' type = EUHAT_WT_PL_NO_RECORD then value
      else p.getValue slot' type := by
  have hmark : ∀ (p : EuhatWtPayload) {marked : ℤ}, IsType marked →
      (if p.getValue slot marked = EUHAT_WT_PL_NO_RECORD then p.setValue slot marked value else p).getValue
        slot' type = if (slot' = slot ∧ type = marked) ∧ p.getValue slot' type = EUHAT_WT_PL_NO_RECORD then value
        else p.getValue slot' type := by
    intro p marked hmarked
    by_cases hat : slot' = slot ∧ type = marked
    · obtain ⟨rfl, rfl⟩ := hat
      split_ifs with hnone hnone' hnone'
      · rw [getValue_setValue_self p hmarked]
      · exact absurd ⟨⟨rfl, rfl⟩, hnone⟩ hnone'
      · exact absurd hnone'.2 hnone
      · rfl
    · rw [if_neg (c := (slot' = slot ∧ type = marked) ∧ _) fun h => hat h.1]
      split_ifs
      · rw [getValue_setValue p hmarked, if_neg hat]
      · rfl
  rw [updateNoMoveSlot, hmark _ (.inr rfl), hmark _ (.inl rfl)]
  rcases htype with rfl | rfl
  · rw [if_neg fun h => absurd h.1.2 (by decide)]
    exact if_congr (and_congr_left' (and_iff_left rfl)) rfl rfl
  · rw [if_neg (c := (slot' = slot ∧ EUHAT_WT_PL_TYPE_KEYBOARD = EUHAT_WT_PL_TYPE_MOUSE) ∧ _)
      fun h => absurd h.1.2 (by decide)]
    exact if_congr (and_congr_left' (and_iff_left rfl)) rfl rfl

theorem fill_succ (p : EuhatWtPayload) (slot n : ℕ) (value : ℤ) :
    fill p slot (n + 1) value = fill (updateNoMoveSlot p slot value) (slot + 1) n value := by
  rw [fill, List.range'_succ, List.foldl_cons, fill]

/-- **Every minute of a gap is marked where there is no record, and no other minute.** -/
theorem getValue_fill (p : EuhatWtPayload) (slot n : ℕ) {value : ℤ} {slot' : ℕ} {type : ℤ}
    (htype : IsType type) :
    (fill p slot n value).getValue slot' type =
      if (slot ≤ slot' ∧ slot' < slot + n) ∧ p.getValue slot' type = EUHAT_WT_PL_NO_RECORD then value
      else p.getValue slot' type := by
  induction n generalizing p slot with
  | zero =>
    rw [if_neg fun h => by omega]
    rfl
  | succ n ih =>
    rw [fill_succ, ih, getValue_updateNoMoveSlot p htype]
    by_cases hat : slot' = slot
    · rw [if_neg fun h => by omega]
      refine if_congr ?_ rfl rfl
      rw [and_congr_left_iff]
      exact fun _ => ⟨fun _ => by omega, fun _ => hat⟩
    · rw [if_neg (c := slot' = slot ∧ _) fun h => hat h.1]
      refine if_congr ?_ rfl rfl
      rw [and_congr_left_iff]
      exact fun _ => ⟨fun h => by omega, fun h => by omega⟩

/-! ## Calls that look where they write -/

/-- `getValue`, of an index the payload has. -/
def getValueIn (p : EuhatWtPayload) (idx type : ℤ) : Option ℤ :=
  if 0 ≤ idx ∧ idx < EUHAT_WT_PAYLOAD_COUNT then some (p.getValue idx.toNat type) else none

/-- `setValue`, of an index the payload has. -/
def setValueIn (p : EuhatWtPayload) (idx type val : ℤ) : Option EuhatWtPayload :=
  if 0 ≤ idx ∧ idx < EUHAT_WT_PAYLOAD_COUNT then some (p.setValue idx.toNat type val) else none

def updateNoMoveSlotIn (p : EuhatWtPayload) (slot value : ℤ) : Option EuhatWtPayload := do
  let mouse ← getValueIn p slot EUHAT_WT_PL_TYPE_MOUSE
  let p ← if mouse = EUHAT_WT_PL_NO_RECORD then setValueIn p slot EUHAT_WT_PL_TYPE_MOUSE value else some p
  let keyboard ← getValueIn p slot EUHAT_WT_PL_TYPE_KEYBOARD
  if keyboard = EUHAT_WT_PL_NO_RECORD then setValueIn p slot EUHAT_WT_PL_TYPE_KEYBOARD value else some p

/-- `n` turns of a loop of `updateNoMoveGap`, from `i` on. -/
def fillIn (p : EuhatWtPayload) (i : ℤ) (value : ℤ) : ℕ → Option EuhatWtPayload
  | 0 => some p
  | n + 1 => do
    let p ← updateNoMoveSlotIn p i value
    fillIn p (i + 1) value n

def updateNoMoveGapIn (s : WorkTrace) (curSlot : ℤ) : Option WorkTrace := do
  let fillValue := if (s.lastSlot_ - curSlot).natAbs > 1 then EUHAT_WT_PL_HANG_UP else EUHAT_WT_PL_NO_MOVE
  if s.lastSlot_ ≥ 0 then
    if s.lastSlot_ > curSlot then
      let p ← fillIn s.payload_ s.lastSlot_ fillValue (EUHAT_WT_PAYLOAD_COUNT - s.lastSlot_).toNat
      let p ← fillIn p 0 fillValue curSlot.toNat
      some ⟨p, curSlot⟩
    else
      let p ← fillIn s.payload_ s.lastSlot_ fillValue (curSlot + 1 - s.lastSlot_).toNat
      some ⟨p, curSlot⟩
  else some ⟨s.payload_, curSlot⟩

def addOneIn (p : EuhatWtPayload) (slot type : ℤ) : Option EuhatWtPayload := do
  let v ← getValueIn p slot type
  let p ← if v < 0 then setValueIn p slot type 1 else some p
  let v ← getValueIn p slot type
  setValueIn p slot type (v + 1)

def beginDayIn (localtime : ℤ → LocalTime) (s : WorkTrace) (t : ℤ) : Option WorkTrace :=
  if (localtime t).minute < s.lastSlot_ then
    (updateNoMoveGapIn s ((EUHAT_WT_PAYLOAD_COUNT - 1 : ℕ) : ℤ)).map fun _ => ⟨reset, 0⟩
  else some s

def countIn (s : WorkTrace) (slot type : ℤ) : Option WorkTrace :=
  if type ≥ 0 then (addOneIn s.payload_ slot type).map fun p => { s with payload_ := p } else some s

/-- `payloadAddOne`, without what it stores. -/
def payloadAddOneIn (localtime : ℤ → LocalTime) (s : WorkTrace) (t type : ℤ) : Option WorkTrace := do
  let s ← beginDayIn localtime s t
  let s ← countIn s (localtime t).minute type
  if s.lastSlot_ ≠ (localtime t).minute then updateNoMoveGapIn s (localtime t).minute else some s

theorem getValueIn_eq (p : EuhatWtPayload) {slot : ℕ} (h : slot < EUHAT_WT_PAYLOAD_COUNT) (type : ℤ) :
    getValueIn p slot type = some (p.getValue slot type) :=
  if_pos ⟨Int.natCast_nonneg slot, Int.ofNat_lt.mpr h⟩

theorem setValueIn_eq (p : EuhatWtPayload) {slot : ℕ} (h : slot < EUHAT_WT_PAYLOAD_COUNT) (type val : ℤ) :
    setValueIn p slot type val = some (p.setValue slot type val) :=
  if_pos ⟨Int.natCast_nonneg slot, Int.ofNat_lt.mpr h⟩

theorem updateNoMoveSlotIn_eq (p : EuhatWtPayload) {slot : ℕ} (h : slot < EUHAT_WT_PAYLOAD_COUNT) (value : ℤ) :
    updateNoMoveSlotIn p slot value = some (updateNoMoveSlot p slot value) := by
  simp only [updateNoMoveSlotIn, updateNoMoveSlot, getValueIn_eq _ h, setValueIn_eq _ h, bind, Option.bind]
  split_ifs
  all_goals rfl

/-- **A loop that stays below the end of the payload only uses minutes it has.** -/
theorem fillIn_eq (p : EuhatWtPayload) (slot : ℕ) (value : ℤ) (n : ℕ) (h : slot + n ≤ EUHAT_WT_PAYLOAD_COUNT) :
    fillIn p slot value n = some (fill p slot n value) := by
  induction n generalizing p slot with
  | zero => rfl
  | succ n ih =>
    rw [fillIn, updateNoMoveSlotIn_eq p (by omega)]
    exact (ih (updateNoMoveSlot p slot value) (slot + 1) (by omega)).trans (congrArg some (fill_succ ..).symm)

theorem updateNoMoveGapIn_eq {s : WorkTrace} {slot : ℕ} (hslot : slot < EUHAT_WT_PAYLOAD_COUNT)
    (hlast : s.lastSlot_ < EUHAT_WT_PAYLOAD_COUNT) :
    updateNoMoveGapIn s slot = some (s.updateNoMoveGap slot) := by
  rw [updateNoMoveGapIn, updateNoMoveGap]
  by_cases hneg : s.lastSlot_ ≥ 0
  · obtain ⟨last, hlast'⟩ := Int.eq_ofNat_of_zero_le hneg
    rw [if_pos hneg, if_pos hneg, hlast', Int.toNat_natCast]
    rw [hlast', Int.ofNat_lt] at hlast
    by_cases hback : (last : ℤ) > slot
    · rw [if_pos hback, if_pos hback, show ((EUHAT_WT_PAYLOAD_COUNT : ℤ) - last).toNat = EUHAT_WT_PAYLOAD_COUNT - last by omega,
        fillIn_eq _ _ _ _ (by omega), Option.bind_eq_bind, Option.bind_some]
      have hfront := fillIn_eq (fill s.payload_ last (EUHAT_WT_PAYLOAD_COUNT - last)
        (if ((last : ℤ) - slot).natAbs > 1 then EUHAT_WT_PL_HANG_UP else EUHAT_WT_PL_NO_MOVE)) 0
        (if ((last : ℤ) - slot).natAbs > 1 then EUHAT_WT_PL_HANG_UP else EUHAT_WT_PL_NO_MOVE) slot (by omega)
      rw [Int.toNat_natCast, ← Int.natCast_zero, hfront]
      rfl
    · rw [if_neg hback, if_neg hback, show ((slot : ℤ) + 1 - last).toNat = slot + 1 - last by omega,
        fillIn_eq _ _ _ _ (by omega)]
      rfl
  · rw [if_neg hneg, if_neg hneg]

theorem addOneIn_eq (p : EuhatWtPayload) {slot : ℕ} (h : slot < EUHAT_WT_PAYLOAD_COUNT) (type : ℤ) :
    addOneIn p slot type = some (addOne p slot type) := by
  simp only [addOneIn, addOne, getValueIn_eq _ h, setValueIn_eq _ h, bind, Option.bind]
  split_ifs
  all_goals rfl

theorem beginDayIn_eq (localtime : ℤ → LocalTime) {s : WorkTrace} (hlast : s.lastSlot_ < EUHAT_WT_PAYLOAD_COUNT)
    (t : ℤ) : beginDayIn localtime s t = some (beginDay localtime s t).1 := by
  rw [beginDayIn, beginDay]
  split_ifs
  · rw [updateNoMoveGapIn_eq (by decide) hlast]
    rfl
  · rfl

theorem countIn_eq (s : WorkTrace) {slot : ℕ} (h : slot < EUHAT_WT_PAYLOAD_COUNT) (type : ℤ) :
    countIn s slot type = some (s.count slot type) := by
  rw [countIn, count]
  split_ifs
  · rw [addOneIn_eq _ h]
    rfl
  · rfl

/-- A day begins in the payload's minutes too. -/
theorem lastSlot_beginDay_lt (localtime : ℤ → LocalTime) {s : WorkTrace}
    (hlast : s.lastSlot_ < EUHAT_WT_PAYLOAD_COUNT) (t : ℤ) :
    (beginDay localtime s t).1.lastSlot_ < EUHAT_WT_PAYLOAD_COUNT := by
  rw [beginDay]
  split_ifs
  · exact Int.ofNat_lt.mpr (show 0 < EUHAT_WT_PAYLOAD_COUNT by decide)
  · exact hlast

/-- **From a last minute that the payload has, a call uses no other**, whatever day it is. -/
theorem payloadAddOneIn_eq_some (localtime : ℤ → LocalTime) {s : WorkTrace}
    (hlast : s.lastSlot_ < EUHAT_WT_PAYLOAD_COUNT) (t type : ℤ) :
    payloadAddOneIn localtime s t type = some (payloadAddOne localtime s t type).1 := by
  have hslot := (localtime t).minute_lt
  rw [payloadAddOneIn, beginDayIn_eq localtime hlast, Option.bind_eq_bind, Option.bind_some,
    countIn_eq _ hslot, Option.bind_some, payloadAddOne]
  have hgap := updateNoMoveGapIn_eq (s := (beginDay localtime s t).1.count (localtime t).minute type) hslot
    (lastSlot_beginDay_lt localtime hlast t)
  rw [hgap]
  split_ifs
  · rfl
  · rfl

/-! ## Within a day -/

/-- The call is on the date of the last one. -/
def OneDay (localtime : ℤ → LocalTime) (s : TraceState) (c : TraceCall) : Prop :=
  (localtime c.t).date = s.now.date

/-- A call of the day, at a minute not before the last. -/
abbrev DayStep (localtime : ℤ → LocalTime) : TraceState → TraceCall → TraceState → Prop :=
  restrict (Step localtime) (OneDay localtime)

/-- No count has gone down or become a marker, and no minute lost its record. -/
def Kept (p q : EuhatWtPayload) : Prop :=
  ∀ slot type, IsType type →
    (0 ≤ p.getValue slot type → p.getValue slot type ≤ q.getValue slot type) ∧
      (p.getValue slot type ≠ EUHAT_WT_PL_NO_RECORD → q.getValue slot type ≠ EUHAT_WT_PL_NO_RECORD)

theorem Kept.refl (p : EuhatWtPayload) : Kept p p := fun _ _ _ => ⟨fun _ => Int.le_refl _, id⟩

theorem Kept.trans {p q r : EuhatWtPayload} (h : Kept p q) (h' : Kept q r) : Kept p r := by
  intro slot type htype
  obtain ⟨hcount, hrecord⟩ := h slot type htype
  obtain ⟨hcount', hrecord'⟩ := h' slot type htype
  exact ⟨fun hp => Int.le_trans (hcount hp) (hcount' (Int.le_trans hp (hcount hp))), hrecord' ∘ hrecord⟩

theorem kept_fill (p : EuhatWtPayload) (slot n : ℕ) (value : ℤ) : Kept p (fill p slot n value) := by
  intro slot' type htype
  rw [getValue_fill p slot n htype]
  split_ifs with h
  · exact ⟨fun hp => absurd (h.2 ▸ hp) (by decide), fun hp => absurd h.2 hp⟩
  · exact ⟨fun _ => Int.le_refl _, id⟩

theorem kept_count (s : WorkTrace) (slot : ℕ) (type : ℤ) : Kept s.payload_ (s.count slot type).payload_ := by
  intro slot' type' htype
  rw [count]
  by_cases hat : (slot' = slot ∧ type' = type) ∧ type ≥ 0
  · obtain ⟨⟨rfl, rfl⟩, hpos⟩ := hat
    dsimp only
    rw [if_pos hpos, getValue_addOne_self _ _ htype, tally, if_neg Nat.one_ne_zero, EUHAT_WT_PL_NO_RECORD]
    split_ifs <;> omega
  · have hsame : (if type ≥ 0 then addOne s.payload_ slot type else s.payload_).getValue slot' type' =
        s.payload_.getValue slot' type' := by
      split_ifs with hpos
      · exact getValue_addOne_of_ne _ (by tauto)
      · rfl
    dsimp only
    rw [hsame]
    exact ⟨fun _ => Int.le_refl _, id⟩

/-- What the gap is filled with. -/
def fillValue (s : WorkTrace) (curSlot : ℕ) : ℤ :=
  if (s.lastSlot_ - curSlot).natAbs > 1 then EUHAT_WT_PL_HANG_UP else EUHAT_WT_PL_NO_MOVE

theorem fillValue_ne (s : WorkTrace) (curSlot : ℕ) : fillValue s curSlot ≠ EUHAT_WT_PL_NO_RECORD := by
  rw [fillValue]
  split_ifs <;> decide

/-- Up to a later minute the gap is one range, or there is none yet. -/
theorem updateNoMoveGap_of_le {s : WorkTrace} {curSlot : ℕ} (h : s.lastSlot_ ≤ curSlot) :
    (s.updateNoMoveGap curSlot).payload_ =
      if s.lastSlot_ ≥ 0 then
        fill s.payload_ s.lastSlot_.toNat (curSlot + 1 - s.lastSlot_.toNat) (fillValue s curSlot)
      else s.payload_ := by
  have hback : ¬ s.lastSlot_ > curSlot := Int.not_lt.mpr h
  by_cases hpos : s.lastSlot_ ≥ 0
  · simp only [updateNoMoveGap, if_pos hpos, if_neg hback]
    rfl
  · simp only [updateNoMoveGap, if_neg hpos]

/-- **What a call of the day does**: the event is counted, and the gap to its minute is filled. -/
theorem payloadAddOne_of_le {localtime : ℤ → LocalTime} {s : WorkTrace} {t : ℤ}
    (h : s.lastSlot_ ≤ (localtime t).minute) (type : ℤ) :
    (payloadAddOne localtime s t type).1 =
      if s.lastSlot_ = (localtime t).minute then s.count (localtime t).minute type
      else (s.count (localtime t).minute type).updateNoMoveGap (localtime t).minute := by
  have hbegin : beginDay localtime s t = (s, []) := if_neg (Int.not_lt.mpr h)
  rw [payloadAddOne, hbegin]
  by_cases hsame : s.lastSlot_ = (localtime t).minute
  · rw [if_pos hsame]
    exact congrArg Prod.fst (if_neg (not_not_intro hsame))
  · rw [if_neg hsame]
    exact congrArg Prod.fst (if_pos hsame)

theorem kept_updateNoMoveGap {s : WorkTrace} {curSlot : ℕ} (h : s.lastSlot_ ≤ curSlot) :
    Kept s.payload_ (s.updateNoMoveGap curSlot).payload_ := by
  rw [updateNoMoveGap_of_le h]
  split_ifs
  · exact kept_fill _ _ _ _
  · exact .refl _

/-- A filled gap has no minute without a record. -/
theorem record_updateNoMoveGap {s : WorkTrace} {curSlot slot : ℕ} {type : ℤ} (htype : IsType type)
    (h : s.lastSlot_ ≤ slot) (hpos : 0 ≤ s.lastSlot_) (hslot : slot ≤ curSlot) :
    (s.updateNoMoveGap curSlot).payload_.getValue slot type ≠ EUHAT_WT_PL_NO_RECORD := by
  rw [updateNoMoveGap_of_le (Int.le_trans h (Int.ofNat_le.mpr hslot)), if_pos hpos, getValue_fill _ _ _ htype]
  split_ifs with hgap
  · exact fillValue_ne s curSlot
  · exact fun hnone => hgap ⟨by omega, hnone⟩

/-- A state of the day: the last minute is that of the last call or of none, and from the first call on
there are no gaps. -/
structure Filled (localtime : ℤ → LocalTime) (calls : List TraceCall) (s : TraceState) : Prop where
  last_le : s.trace.lastSlot_ ≤ s.now.minute
  last_of_nil : calls = [] → s.trace.lastSlot_ = -1
  first_le : ∀ c ∈ calls.head?, ((localtime c.t).minute : ℤ) ≤ s.trace.lastSlot_
  records : ∀ c ∈ calls.head?, ∀ (slot : ℕ) (type : ℤ), IsType type → (localtime c.t).minute ≤ slot →
    slot < s.trace.lastSlot_ → s.trace.payload_.getValue slot type ≠ EUHAT_WT_PL_NO_RECORD

variable {localtime : ℤ → LocalTime} {s s' : TraceState} {c : TraceCall} {calls more : List TraceCall}

/-- The minutes go up. -/
theorem DayStep.last_le_minute (h : DayStep localtime s c s') (hlast : s.trace.lastSlot_ ≤ s.now.minute) :
    s.trace.lastSlot_ ≤ (localtime c.t).minute := by
  obtain ⟨hstep, hday⟩ := h
  cases hstep with
  | call type hafter =>
    rcases hafter with hlater | ⟨-, hminute⟩
    · exact absurd hlater (Int.not_lt.mpr (Int.le_of_eq hday))
    · exact Int.le_trans hlast (Int.ofNat_le.mpr hminute)

/-- A call of the day keeps the payload. -/
theorem DayStep.kept (h : DayStep localtime s c s') (hlast : s.trace.lastSlot_ ≤ s.now.minute) :
    Kept s.trace.payload_ s'.trace.payload_ := by
  have hle := h.last_le_minute hlast
  cases h.1 with
  | @call t type hafter =>
    dsimp only at hle ⊢
    rw [payloadAddOne_of_le hle]
    have hcount := kept_count s.trace (localtime t).minute type
    split_ifs
    · exact hcount
    · exact hcount.trans (kept_updateNoMoveGap (s := s.trace.count (localtime t).minute type) hle)

theorem filled_start (localtime : ℤ → LocalTime) (row : Option EuhatWtPayload) (t₀ : ℤ) :
    Filled localtime [] (traceStart localtime row t₀) where
  last_le := Int.le_trans (show (-1 : ℤ) ≤ 0 by decide) (Int.natCast_nonneg _)
  last_of_nil _ := rfl
  first_le := nofun
  records := nofun

/-- **A call of the day leaves no gap.** -/
theorem Filled.step (h : Filled localtime calls s) (hstep : DayStep localtime s c s') :
    Filled localtime (calls ++ [c]) s' := by
  have hle := hstep.last_le_minute h.last_le
  have hkept := hstep.kept h.last_le
  obtain ⟨hcall, -⟩ := hstep
  cases hcall with
  | @call t type hafter =>
    have hlast := (payloadAddOne_spec localtime s.trace t type).1
    refine ⟨Int.le_of_eq hlast, fun hnil => absurd hnil (by simp), ?_, ?_⟩
    · intro c hc
      rw [hlast]
      cases calls with
      | nil =>
        obtain rfl := Option.mem_some_iff.mp hc
        exact Int.le_refl _
      | cons first calls => exact Int.le_trans (h.first_le c hc) hle
    · intro c hc slot type' htype hfirst hslot
      dsimp only at hslot hle
      rw [hlast] at hslot
      cases calls with
      | nil =>
        obtain rfl := Option.mem_some_iff.mp hc
        exact absurd hslot (Int.not_lt.mpr (Int.ofNat_le.mpr hfirst))
      | cons first calls =>
        by_cases hold : (slot : ℤ) < s.trace.lastSlot_
        · exact (hkept slot type' htype).2 (h.records c hc slot type' htype hfirst hold)
        · have hpos := Int.le_trans (Int.natCast_nonneg _) (h.first_le c hc)
          rw [payloadAddOne_of_le hle, if_neg (by omega)]
          exact record_updateNoMoveGap htype (Int.not_lt.mp hold) hpos (by omega)

theorem Filled.run (h : Filled localtime calls s) (hrun : Run (DayStep localtime) s more s') :
    Filled localtime (calls ++ more) s' ∧ Kept s.trace.payload_ s'.trace.payload_ := by
  induction hrun with
  | nil => exact ⟨by rwa [List.append_nil], .refl _⟩
  | snoc _ hstep ih =>
    obtain ⟨hfilled, hkept⟩ := ih
    refine ⟨?_, hkept.trans (hstep.kept hfilled.last_le)⟩
    rw [← List.append_assoc]
    exact hfilled.step hstep

/-- **A day of calls keeps the payload.**  After any calls of the day the next one uses only minutes the
payload has; counts have not gone down since any earlier state, and are no markers; and from the first minute of
a call up to the last one there is a record of either type. -/
theorem kept_of_run {row : Option EuhatWtPayload} {t₀ : ℤ}
    (h : Run (DayStep localtime) (traceStart localtime row t₀) calls s) (h' : Run (DayStep localtime) s more s') :
    (∀ t type, payloadAddOneIn localtime s'.trace t type = some (payloadAddOne localtime s'.trace t type).1) ∧
      (∀ slot type, IsType type → 0 ≤ s.trace.payload_.getValue slot type →
        s.trace.payload_.getValue slot type ≤ s'.trace.payload_.getValue slot type) ∧
      ∀ first ∈ (calls ++ more).head?, ∀ (slot : ℕ) (type : ℤ), IsType type →
        (localtime first.t).minute ≤ slot → slot < s'.trace.lastSlot_ →
          s'.trace.payload_.getValue slot type ≠ EUHAT_WT_PL_NO_RECORD := by
  obtain ⟨hfilled, -⟩ := (filled_start localtime row t₀).run h
  rw [List.nil_append] at hfilled
  obtain ⟨hfilled', hkept⟩ := hfilled.run h'
  refine ⟨fun t type => payloadAddOneIn_eq_some localtime ?_ t type,
    fun slot type htype => (hkept slot type htype).1, hfilled'.records⟩
  exact Int.lt_of_le_of_lt hfilled'.last_le (Int.ofNat_lt.mpr s'.now.minute_lt)

/-- A run of ten in the morning, kept at a quarter to eleven. -/
theorem kept_of_run_here : ∃ calls s, Run (DayStep utc) (traceStart utc none 36000) calls s ∧
    calls.length = 2 ∧ ∀ slot : ℕ, 600 ≤ slot → slot < 645 →
      s.trace.payload_.getValue slot EUHAT_WT_PL_TYPE_MOUSE ≠ EUHAT_WT_PL_NO_RECORD := by
  have hfirst : Run (DayStep utc) (traceStart utc none 36000) [callOn (traceStart utc none 36000) 36000 0] tenOClock :=
    .single ⟨.call 0 (.inr ⟨rfl, Nat.le_refl _⟩), rfl⟩
  have hmore : Run (DayStep utc) tenOClock [callOn tenOClock 38700 (-1)] (afterCall tenOClock 38700 (-1)) :=
    .single ⟨.call (-1) (.inr ⟨rfl, by decide⟩), rfl⟩
  refine ⟨_, _, hfirst.trans hmore, rfl, fun slot h h' => ?_⟩
  refine (kept_of_run hfirst hmore).2.2 _ rfl slot _ (.inl rfl) h ?_
  rw [lastSlot_afterCall]
  exact Int.ofNat_lt.mpr h'

/-! ## Counting -/

/-- A day with an empty payload, at the local time of `t₀`: after a start without a row, or with the change of
a day. -/
def emptyDay (localtime : ℤ → LocalTime) (last t₀ : ℤ) : TraceState := ⟨⟨reset, last⟩, localtime t₀⟩

/-- Every minute with events of a type has their number. -/
def CountsExact (localtime : ℤ → LocalTime) (t₀ : ℤ) (calls : List TraceCall) (s : TraceState) : Prop :=
  ∀ slot type, IsType type → 1 ≤ eventsIn localtime calls (localtime t₀).date slot type →
    s.trace.payload_.getValue slot type = eventsIn localtime calls (localtime t₀).date slot type

variable {last t₀ : ℤ}

/-- The day's run tallies its date, and no other. -/
theorem tallied_of_run (hlast : last ≤ (localtime t₀).minute)
    (h : Run (DayStep localtime) (emptyDay localtime last t₀) calls s) :
    Tallied localtime none t₀ calls s ∧ s.now.date = (localtime t₀).date ∧
      ∀ c ∈ calls, (localtime c.t).date = (localtime t₀).date := by
  refine h.invariant_hist (I := fun calls s => Tallied localtime none t₀ calls s ∧
    s.now.date = (localtime t₀).date ∧ ∀ c ∈ calls, (localtime c.t).date = (localtime t₀).date) ?_ ?_
  · refine ⟨⟨fun slot type _ => ?_, Int.le_refl _, nofun, hlast⟩, rfl, nofun⟩
    have hloaded : loaded localtime none t₀ (emptyDay localtime last t₀).now.date = reset := if_pos rfl
    rw [ofDate, hloaded]
    exact .refl _
  · rintro calls s c s' ⟨htallied, hdate, hcalls⟩ ⟨hstep, hday⟩
    have hc : (localtime c.t).date = (localtime t₀).date := hday.trans hdate
    refine ⟨(htallied.step hstep (.inl hday)).1, ?_, fun c' hc' => ?_⟩
    · cases hstep
      exact hc
    · rcases List.mem_append.mp hc' with hc' | hc'
      · exact hcalls c' hc'
      · rw [List.mem_singleton.mp hc', hc]

/-- **A minute with events has one more than their number**, whatever stood there before. -/
theorem getValue_of_run (hlast : last ≤ (localtime t₀).minute)
    (h : Run (DayStep localtime) (emptyDay localtime last t₀) calls s) {slot : ℕ} {type : ℤ} (htype : IsType type)
    (hevents : 1 ≤ eventsIn localtime calls (localtime t₀).date slot type) :
    s.trace.payload_.getValue slot type = eventsIn localtime calls (localtime t₀).date slot type + 1 := by
  obtain ⟨htallied, hdate, -⟩ := tallied_of_run hlast h
  have hloaded : loaded localtime none t₀ (localtime t₀).date = reset := if_pos rfl
  have hcell := htallied.cells slot type htype
  rw [hdate, ofDate, hloaded, getValue_reset, tally, if_neg (by omega), if_pos (by decide)] at hcell
  have hval := hcell.symm.eq_of_nonneg (by omega)
  rw [← hval, Int.add_comm]

/-- **The counts of a day are exact only where there is nothing to count.** -/
theorem countsExact_iff (hlast : last ≤ (localtime t₀).minute)
    (h : Run (DayStep localtime) (emptyDay localtime last t₀) calls s) :
    CountsExact localtime t₀ calls s ↔ ∀ c ∈ calls, ¬ IsType c.type := by
  constructor
  · intro hexact c hc htype
    have hdate := (tallied_of_run hlast h).2.2 c hc
    have hevents : 1 ≤ eventsIn localtime calls (localtime t₀).date (localtime c.t).minute c.type :=
      List.countP_pos_iff.mpr ⟨c, hc, decide_eq_true ⟨hdate, rfl, rfl⟩⟩
    have hval := getValue_of_run hlast h htype hevents
    rw [hexact _ _ htype hevents] at hval
    omega
  · intro hnone slot type htype hevents
    obtain ⟨c, hc, hmatch⟩ := List.countP_pos_iff.mp hevents
    exact absurd ((of_decide_eq_true hmatch).2.2 ▸ htype) (hnone c hc)

/-- A timer alone. -/
theorem countsExact_of_timer : ∃ calls s, Run (DayStep utc) (emptyDay utc (-1) 36000) calls s ∧
    calls.length = 1 ∧ CountsExact utc 36000 calls s := by
  have hrun : Run (DayStep utc) (emptyDay utc (-1) 36000) [callOn (emptyDay utc (-1) 36000) 36000 (-1)]
      (afterCall (emptyDay utc (-1) 36000) 36000 (-1)) :=
    .single ⟨.call (-1) (.inr ⟨rfl, Nat.le_refl _⟩), rfl⟩
  refine ⟨_, _, hrun, rfl, (countsExact_iff (by decide) hrun).mpr fun c hc htype => ?_⟩
  rw [List.mem_singleton.mp hc] at htype
  exact absurd htype (by rintro (h | h) <;> exact absurd h (by decide))

/-- **One mouse event at ten is counted as two.** -/
theorem not_countsExact : ¬ ∀ calls s, Run (DayStep utc) (emptyDay utc (-1) 36000) calls s →
    CountsExact utc 36000 calls s := by
  intro hexact
  have hrun : Run (DayStep utc) (emptyDay utc (-1) 36000) [callOn (traceStart utc none 36000) 36000 0] tenOClock :=
    .single ⟨.call 0 (.inr ⟨rfl, Nat.le_refl _⟩), rfl⟩
  have hval := hexact _ _ hrun 600 0 (.inl rfl) (by decide)
  rw [getValue_tenOClock] at hval
  exact absurd hval (by decide)

end WorkTrace

end EuhatExpert
