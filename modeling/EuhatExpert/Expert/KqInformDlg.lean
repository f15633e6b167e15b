import EuhatExpert.Expert.WorkSpan
import EuhatExpert.Machinery.Run

/-!
# Expert/KqInformDlg — the reminder of the daily check

Every few seconds `check` looks whether the time is in a span of work, before its end (`in`) or behind it
(`out`), and opens a dialog that asks whether the check has been made.  The dialog has a thread of its own, which
runs on between any two accesses that `check` makes to what they share.  A dialog that is closed without an
answer comes up again at the next `check` (`reminds_of_run`); one that is answered between two checks does not come
up again for the same one, as long as the clock does not go back and no two spans cover one minute
(`answeredOnce_of_run`).

Times are minutes since the epoch on the local clock; summer time is left out.
-/

namespace EuhatExpert

open Machinery

def colon : UInt8 := 58

def time2Minutes (tstr : Bytes) : ℤ :=
  match splitTokenString (cstr tstr) colon with
  | [hour, min, _] => (atoi hour).toInt * 60 + (atoi min).toInt
  | _ => 0

/-- `local->tm_hour * 60 + local->tm_min`. -/
def slotOf (now : ℤ) : ℤ := now % 1440

/-- The minute `slot` of the day of `now`. -/
def minutes2Time (now slot : ℤ) : ℤ := now - slotOf now + slot

/-- A check to remind of: of coming in or of going out, and its time. -/
@[ext] structure Due where
  isIn : Bool
  dispTime : ℤ
  deriving DecidableEq, Repr

namespace WorkSpan

/-- When the work begins, -/
def startMin (it : WorkSpan) : ℤ := time2Minutes it.startTime_

/-- from when on its beginning is asked for, -/
def beginMin (it : WorkSpan) : ℤ := it.startMin - it.beginSecs_.toInt.tdiv 60

/-- when it ends, -/
def endMin (it : WorkSpan) : ℤ := time2Minutes it.endTime_

/-- and until when its end is asked for. -/
def untilMin (it : WorkSpan) : ℤ := it.endMin + it.untilSecs_.toInt.tdiv 60

end WorkSpan

/-- What the main thread is about in `check`: `open` and the assignment behind it, or what stands behind the loop, with
`close` waiting for the dialog's thread in the end. -/
inductive KqMain
  | idle
  | opening (isIn : Bool)
  | setting (isIn : Bool)
  | resettingIn
  | resettingOut
  | resettingKind
  | closing
  | joining
  deriving DecidableEq, Repr

/-- What the dialog's thread is about: it takes clicks, or has read `isInOrOut_` in `OnBnClickedOk`, or has a
`WM_CLOSE` before it. -/
inductive KqThread
  | up
  | answering (isIn : Bool)
  | closing
  deriving DecidableEq, Repr

/-- The dialog, with the two threads at it. -/
structure KqInformDlg where
  isOpened_ : Bool
  hasInChecked_ : Bool
  hasOutChecked_ : Bool
  isInOrOut_ : Bool
  dispTime_ : ℤ
  main : KqMain
  dialog : Option KqThread
  deriving DecidableEq, Repr

namespace KqInformDlg

/-- The dialog before the first check. -/
def new : KqInformDlg := ⟨false, false, false, true, 0, .idle, none⟩

/-- `open`, which starts the dialog's thread. -/
def open_ (s : KqInformDlg) : KqInformDlg :=
  if s.isOpened_ then s else { s with isOpened_ := true, dialog := some .up }

/-- `close`, which posts a `WM_CLOSE` and waits until the dialog is gone. -/
def close (s : KqInformDlg) : KqInformDlg :=
  if s.isOpened_ then { s with isOpened_ := false, main := .joining } else { s with main := .idle }

/-- To what stands behind the loop of `check`. -/
def leave (s : KqInformDlg) : KqInformDlg := { s with main := .resettingIn }

/-- `check`, from a span of the list on, up to its first access to what it shares; and whether it posts the timer's
message again. -/
def check (now : ℤ) (s : KqInformDlg) : List WorkSpan → KqInformDlg × Bool
  | [] => (s.leave, false)
  | it :: rest =>
    if it.beginMin ≤ slotOf now ∧ slotOf now ≤ it.endMin then
      let dispTime := minutes2Time now it.startMin
      if s.dispTime_ ≠ dispTime then ({ s with dispTime_ := dispTime }.leave, true)
      else if !s.hasInChecked_ then ({ s with main := .opening true }, false)
      else (s, false)
    else if it.endMin ≤ slotOf now ∧ slotOf now ≤ it.untilMin then
      let dispTime := minutes2Time now it.endMin
      if s.dispTime_ ≠ dispTime then ({ s with dispTime_ := dispTime }.leave, true)
      else if !s.hasOutChecked_ then ({ s with main := .opening false }, false)
      else (s, false)
    else check now s rest

/-- The next access of `check`. -/
def goOn (s : KqInformDlg) : KqInformDlg :=
  match s.main with
  | .idle | .joining => s
  | .opening isIn => { s.open_ with main := .setting isIn }
  | .setting isIn => { s with isInOrOut_ := isIn, main := .idle }
  | .resettingIn => { s with hasInChecked_ := false, main := .resettingOut }
  | .resettingOut => { s with hasOutChecked_ := false, main := .resettingKind }
  | .resettingKind => { s with isInOrOut_ := true, main := .closing }
  | .closing => s.close

/-- `OnBnClickedOk`, with the `isInOrOut_` that it has read and the `WM_CLOSE` it posts. -/
def onBnClickedOk (s : KqInformDlg) (isIn : Bool) : KqInformDlg :=
  if isIn then { s with hasInChecked_ := true, dialog := some .closing }
  else { s with hasOutChecked_ := true, dialog := some .closing }

end KqInformDlg

/-- A call of `check`, and its further accesses; a click on OK, what it makes of it, a click on Cancel, and the end of
the dialog's thread. -/
inductive KqEvent
  | check (now : ℤ)
  | goOn
  | ok
  | answer
  | cancel
  | gone
  deriving DecidableEq, Repr

namespace KqInformDlg

/-- A step of either thread; a window is taken to be there once its thread is started. -/
inductive Step (spans : List WorkSpan) : KqInformDlg → KqEvent → KqInformDlg → Prop
  | check {s : KqInformDlg} (now : ℤ) : s.main = .idle → Step spans s (.check now) (s.check now spans).1
  | goOn {s : KqInformDlg} : s.main ≠ .idle → s.main ≠ .joining → Step spans s .goOn s.goOn
  | joined {s : KqInformDlg} : s.main = .joining → s.dialog = none → Step spans s .goOn { s with main := .idle }
  | ok {s : KqInformDlg} : s.dialog = some .up → Step spans s .ok { s with dialog := some (.answering s.isInOrOut_) }
  | answer {s : KqInformDlg} {isIn : Bool} : s.dialog = some (.answering isIn) →
      Step spans s .answer (s.onBnClickedOk isIn)
  | cancel {s : KqInformDlg} : s.dialog = some .up → Step spans s .cancel { s with dialog := some .closing }
  | gone {s : KqInformDlg} : s.dialog = some .closing ∨ (s.dialog = some .up ∧ s.main = .joining) →
      Step spans s .gone { s with isOpened_ := false, dialog := none }

/-! ## What a check finds -/

/-- What `check` finds in one span. -/
def dueIn (now : ℤ) (it : WorkSpan) : Option Due :=
  if it.beginMin ≤ slotOf now ∧ slotOf now ≤ it.endMin then some ⟨true, minutes2Time now it.startMin⟩
  else if it.endMin ≤ slotOf now ∧ slotOf now ≤ it.untilMin then some ⟨false, minutes2Time now it.endMin⟩
  else none

/-- The first span with something due. -/
def due (spans : List WorkSpan) (now : ℤ) : Option Due := spans.findSome? (dueIn now)

/-- Whether the span's beginning or end was answered. -/
def hasChecked (s : KqInformDlg) (isIn : Bool) : Bool := if isIn then s.hasInChecked_ else s.hasOutChecked_

/-- **What a check does**, by what it finds. -/
theorem check_eq (spans : List WorkSpan) (now : ℤ) (s : KqInformDlg) :
    (s.check now spans).1 = match due spans now with
      | none => s.leave
      | some d =>
        if s.dispTime_ ≠ d.dispTime then { s with dispTime_ := d.dispTime }.leave
        else if s.hasChecked d.isIn then s else { s with main := .opening d.isIn } := by
  induction spans with
  | nil => rfl
  | cons it rest ih =>
    rw [check, due, List.findSome?_cons, dueIn]
    by_cases hin : it.beginMin ≤ slotOf now ∧ slotOf now ≤ it.endMin
    · simp only [if_pos hin]
      by_cases hdisp : s.dispTime_ = minutes2Time now it.startMin
      · cases hchecked : s.hasInChecked_ <;> simp [hdisp, hchecked, hasChecked]
      · simp only [if_pos (show s.dispTime_ ≠ _ from hdisp)]
    · by_cases hout : it.endMin ≤ slotOf now ∧ slotOf now ≤ it.untilMin
      · simp only [if_neg hin, if_pos hout]
        by_cases hdisp : s.dispTime_ = minutes2Time now it.endMin
        · cases hchecked : s.hasOutChecked_ <;> simp [hdisp, hchecked, hasChecked]
        · simp only [if_pos (show s.dispTime_ ≠ _ from hdisp)]
      · simp only [if_neg hin, if_neg hout]
        exact ih

@[simp] theorem dispTime_open (s : KqInformDlg) : s.open_.dispTime_ = s.dispTime_ := by
  rw [open_]
  split_ifs <;> rfl

/-- What is opened is open. -/
theorem isOpened_open (s : KqInformDlg) : s.open_.isOpened_ = true := by
  rw [open_]
  split_ifs with hopened
  · exact hopened
  · rfl

/-- Between two checks a dialog that takes clicks shows what `P` says of; so will one that a check is about to bring up. -/
structure Displays (P : Due → Prop) (s : KqInformDlg) : Prop where
  idle : s.main = .idle → s.dialog = some .up → P ⟨s.isInOrOut_, s.dispTime_⟩
  going : ∀ isIn, s.main = .opening isIn ∨ s.main = .setting isIn → P ⟨isIn, s.dispTime_⟩
  there : s.main ≠ .joining → s.dialog ≠ none → s.isOpened_ = true

variable {spans : List WorkSpan} {s₀ s s' : KqInformDlg} {e : KqEvent} {es : List KqEvent} {P Q : Due → Prop}

/-- What meets `P` meets all that follows from it. -/
theorem Displays.mono (h : Displays P s) (hPQ : ∀ d, P d → Q d) : Displays Q s :=
  ⟨fun hidle hup => hPQ _ (h.idle hidle hup), fun isIn hmain => hPQ _ (h.going isIn hmain), h.there⟩

/-- At first nothing is displayed. -/
theorem displays_new : Displays P new := ⟨nofun, nofun, nofun⟩

/-- A check looks at what is due only. -/
theorem Displays.check (h : Displays P s) {now : ℤ} (hidle : s.main = .idle) (hP : ∀ d, due spans now = some d → P d) :
    Displays P (s.check now spans).1 := by
  have hthere : s.dialog ≠ none → s.isOpened_ = true := h.there (by rw [hidle]; nofun)
  rw [check_eq]
  cases hdue : due spans now with
  | none => exact ⟨nofun, nofun, fun _ => hthere⟩
  | some d =>
    dsimp only
    split_ifs with hdisp hchecked
    · exact ⟨nofun, nofun, fun _ => hthere⟩
    · exact h
    · refine ⟨nofun, fun isIn hmain => ?_, fun _ => hthere⟩
      obtain hmain | hmain := hmain
      · obtain rfl := KqMain.opening.inj hmain
        have hd : (⟨d.isIn, s.dispTime_⟩ : Due) = d := Due.ext rfl (not_not.mp hdisp)
        exact hd.symm ▸ hP d hdue
      · cases hmain

/-- The rest of a check displays what it found. -/
theorem Displays.goOn (h : Displays P s) : Displays P s.goOn := by
  rw [KqInformDlg.goOn]
  cases hmain : s.main with
  | idle => exact h
  | joining => exact h
  | opening isIn =>
    refine ⟨nofun, fun isIn' hmain' => ?_, fun _ _ => isOpened_open s⟩
    obtain hmain' | hmain' := hmain'
    · cases hmain'
    · obtain rfl := KqMain.setting.inj hmain'
      exact (dispTime_open s).symm ▸ h.going isIn (.inl hmain)
  | setting isIn => exact ⟨fun _ _ => h.going isIn (.inr hmain), nofun, fun _ => h.there (by rw [hmain]; nofun)⟩
  | resettingIn => exact ⟨nofun, nofun, fun _ => h.there (by rw [hmain]; nofun)⟩
  | resettingOut => exact ⟨nofun, nofun, fun _ => h.there (by rw [hmain]; nofun)⟩
  | resettingKind => exact ⟨nofun, nofun, fun _ => h.there (by rw [hmain]; nofun)⟩
  | closing =>
    have hthere := h.there (by rw [hmain]; nofun)
    dsimp only
    rw [close]
    split_ifs with hopened
    · exact ⟨nofun, nofun, fun hjoining => absurd rfl hjoining⟩
    · refine ⟨fun _ hup => ?_, nofun, fun _ hdialog => absurd (hthere hdialog) hopened⟩
      have hup : s.dialog = some .up := hup
      exact absurd (hthere (by rw [hup]; nofun)) hopened

/-- **What a dialog shows has been found by a check.** -/
theorem Displays.step (h : Displays P s) (hstep : Step spans s e s')
    (hP : ∀ now d, e = .check now → due spans now = some d → P d) : Displays P s' := by
  cases hstep with
  | check now hidle => exact h.check hidle fun d => hP now d rfl
  | goOn => exact h.goOn
  | joined hmain hdialog =>
    refine ⟨fun _ hup => ?_, nofun, fun _ hsome => absurd hdialog hsome⟩
    have hup : s.dialog = some .up := hup
    rw [hdialog] at hup
    cases hup
  | ok hup => exact ⟨nofun, h.going, fun hmain _ => h.there hmain (by rw [hup]; nofun)⟩
  | @answer isIn hdialog =>
    have hthere : s.main ≠ .joining → s.isOpened_ = true := fun hmain => h.there hmain (by rw [hdialog]; nofun)
    rw [onBnClickedOk]
    split_ifs
    · exact ⟨nofun, h.going, fun hmain _ => hthere hmain⟩
    · exact ⟨nofun, h.going, fun hmain _ => hthere hmain⟩
  | cancel hup => exact ⟨nofun, h.going, fun hmain _ => h.there hmain (by rw [hup]; nofun)⟩
  | gone => exact ⟨nofun, h.going, fun _ hsome => absurd rfl hsome⟩

/-- The times of the checks. -/
def times (es : List KqEvent) : List ℤ := es.filterMap fun e => match e with | .check now => some now | _ => none

/-- The times of one run behind another. -/
theorem times_append (es es' : List KqEvent) : times (es ++ es') = times es ++ times es' := List.filterMap_append

theorem mem_times {now : ℤ} (h : .check now ∈ es) : now ∈ times es := List.mem_filterMap.mpr ⟨_, h, rfl⟩

/-- **What is displayed was due at some check.** -/
theorem found_of_run (h : Run (Step spans) new es s) : Displays (fun d => ∃ now ∈ times es, due spans now = some d) s := by
  induction h with
  | nil => exact displays_new
  | @snoc es s e s' _ hstep ih =>
    refine Displays.step (ih.mono ?_) hstep fun now d he hdue => ?_
    · rintro d ⟨now, hnow, hdue⟩
      exact ⟨now, times_append es [e] ▸ List.mem_append_left _ hnow, hdue⟩
    · exact ⟨now, mem_times (List.mem_append_right _ (he ▸ List.mem_cons_self)), hdue⟩

/-! ## Spans apart -/

/-- The minutes in which `check` looks at a span. -/
def Covers (it : WorkSpan) (slot : ℤ) : Prop := it.beginMin ≤ slot ∧ slot ≤ it.untilMin

/-- Spans of one day in their order, of which no two cover one minute. -/
structure Apart (spans : List WorkSpan) : Prop where
  begin_le : ∀ it ∈ spans, it.beginMin ≤ it.startMin
  start_nonneg : ∀ it ∈ spans, 0 ≤ it.startMin
  start_le : ∀ it ∈ spans, it.startMin ≤ it.endMin
  end_lt : ∀ it ∈ spans, it.endMin < 1440
  end_le : ∀ it ∈ spans, it.endMin ≤ it.untilMin
  apart : spans.Pairwise fun a b => ∀ slot, ¬ (Covers a slot ∧ Covers b slot)

/-- The kind of a check and its minute. -/
def minuteOf (it : WorkSpan) (isIn : Bool) : ℤ := if isIn then it.startMin else it.endMin

/-- What is due of a span, and when. -/
theorem dueIn_eq_some {it : WorkSpan} {now : ℤ} {d : Due} (hle : it.beginMin ≤ it.endMin) :
    dueIn now it = some d ↔ d.dispTime = minutes2Time now (minuteOf it d.isIn) ∧
      if d.isIn then it.beginMin ≤ slotOf now ∧ slotOf now ≤ it.endMin
      else it.endMin < slotOf now ∧ slotOf now ≤ it.untilMin := by
  obtain ⟨isIn, dispTime⟩ := d
  rw [dueIn]
  by_cases hin : it.beginMin ≤ slotOf now ∧ slotOf now ≤ it.endMin
  · rw [if_pos hin]
    cases isIn with
    | true => simp [minuteOf, hin, eq_comm]
    | false =>
      refine iff_of_false (by simp) ?_
      rintro ⟨-, h⟩
      simp only [Bool.false_eq_true, if_false] at h
      omega
  rw [if_neg hin]
  by_cases hout : it.endMin ≤ slotOf now ∧ slotOf now ≤ it.untilMin
  · rw [if_pos hout]
    cases isIn with
    | true => simp [hin]
    | false =>
      have hlt : it.endMin < slotOf now := by omega
      simp [minuteOf, hlt, hout.2, eq_comm]
  · rw [if_neg hout]
    refine iff_of_false (by simp) ?_
    rintro ⟨-, h⟩
    cases isIn with
    | true => exact hin (by simpa using h)
    | false =>
      simp only [Bool.false_eq_true, if_false] at h
      omega

namespace Apart

variable (h : Apart spans) {it it' : WorkSpan} {d : Due} {now slot a b c : ℤ}
include h

theorem begin_le_end (hit : it ∈ spans) : it.beginMin ≤ it.endMin := (h.begin_le it hit).trans (h.start_le it hit)

/-- One span covers a minute. -/
theorem eq_of_covers (hit : it ∈ spans) (hit' : it' ∈ spans) (hc : Covers it slot) (hc' : Covers it' slot) :
    it = it' := by
  have hsymm : Std.Symm fun a b : WorkSpan => ∀ slot, ¬ (Covers a slot ∧ Covers b slot) :=
    ⟨fun _ _ hab slot hc => hab slot hc.symm⟩
  by_contra hne
  exact h.apart.forall hit hit' hne slot ⟨hc, hc'⟩

/-- A span is due in a minute it covers, -/
theorem covers_of_dueIn (hit : it ∈ spans) (hd : dueIn now it = some d) : Covers it (slotOf now) := by
  have hend := h.end_le it hit
  have hbegin := h.begin_le_end hit
  obtain ⟨-, hslot⟩ := (dueIn_eq_some hbegin).mp hd
  split_ifs at hslot <;> exact ⟨by omega, by omega⟩

/-- and its own minutes are such. -/
theorem covers_minuteOf (hit : it ∈ spans) (isIn : Bool) : Covers it (minuteOf it isIn) := by
  have hbegin := h.begin_le it hit
  have hstart := h.start_le it hit
  have hend := h.end_le it hit
  cases isIn <;> exact ⟨by simp [minuteOf]; omega, by simp [minuteOf]; omega⟩

/-- They are minutes of one day. -/
theorem minuteOf_bounds (hit : it ∈ spans) (isIn : Bool) : 0 ≤ minuteOf it isIn ∧ minuteOf it isIn < 1440 := by
  have hstart := h.start_nonneg it hit
  have hle := h.start_le it hit
  have hend := h.end_lt it hit
  cases isIn <;> simp [minuteOf] <;> omega

/-- What one span is due is due. -/
theorem due_of_dueIn (hit : it ∈ spans) (hd : dueIn now it = some d) : due spans now = some d := by
  have hsome : (due spans now).isSome := List.findSome?_isSome_iff.mpr ⟨it, hit, by rw [hd]; rfl⟩
  obtain ⟨d', hd'⟩ := Option.isSome_iff_exists.mp hsome
  obtain ⟨it', hit', hfound⟩ := List.exists_of_findSome?_eq_some hd'
  obtain rfl := h.eq_of_covers hit hit' (h.covers_of_dueIn hit hd) (h.covers_of_dueIn hit' hfound)
  rw [hd', ← hfound, hd]

/-- **What is due at two times is due between them.** -/
theorem due_between (ha : due spans a = some d) (hc : due spans c = some d) (hab : a ≤ b) (hbc : b ≤ c) :
    due spans b = some d := by
  obtain ⟨it, hit, hda⟩ := List.exists_of_findSome?_eq_some ha
  obtain ⟨it', hit', hdc⟩ := List.exists_of_findSome?_eq_some hc
  obtain ⟨hta, hsa⟩ := (dueIn_eq_some (h.begin_le_end hit)).mp hda
  obtain ⟨htc, hsc⟩ := (dueIn_eq_some (h.begin_le_end hit')).mp hdc
  have hma := h.minuteOf_bounds hit d.isIn
  have hmc := h.minuteOf_bounds hit' d.isIn
  -- the days are the same, and so are the minutes: one span is due at both times
  have hday : a - slotOf a = c - slotOf c ∧ minuteOf it d.isIn = minuteOf it' d.isIn := by
    rw [hta, minutes2Time, minutes2Time, slotOf, slotOf] at htc
    rw [slotOf, slotOf]
    omega
  obtain rfl := h.eq_of_covers hit hit' (h.covers_minuteOf hit d.isIn)
    (by rw [hday.2]; exact h.covers_minuteOf hit' d.isIn)
  have hb : b - slotOf b = a - slotOf a ∧ slotOf a ≤ slotOf b ∧ slotOf b ≤ slotOf c := by
    have hday := hday.1
    rw [slotOf, slotOf] at hday
    rw [slotOf, slotOf, slotOf]
    omega
  refine h.due_of_dueIn hit ((dueIn_eq_some (h.begin_le_end hit)).mpr ⟨?_, ?_⟩)
  · rw [hta, minutes2Time, minutes2Time, hb.1]
  · split_ifs at hsa hsc ⊢ <;> omega

end Apart

/-! ## Answered reminders -/

/-- `d` has been answered, no check is under way, and its dialog is gone or going. -/
structure Quiet (d : Due) (s : KqInformDlg) : Prop where
  main : s.main = .idle
  disp : s.dispTime_ = d.dispTime
  checked : s.hasChecked d.isIn = true
  down : s.dialog = none ∨ s.dialog = some .closing
  there : s.dialog ≠ none → s.isOpened_ = true

theorem Quiet.displays {d : Due} (h : Quiet d s) : Displays P s := by
  refine ⟨fun _ hup => ?_, fun isIn hmain => ?_, fun _ => h.there⟩
  · obtain hdown | hdown := h.down
    · rw [hdown] at hup
      cases hup
    · rw [hdown] at hup
      cases hup
  · rw [h.main] at hmain
    obtain hmain | hmain := hmain
    · cases hmain
    · cases hmain

theorem quiet_onBnClickedOk (isIn : Bool) (hmain : s.main = .idle) (hopened : s.isOpened_ = true) :
    Quiet ⟨isIn, s.dispTime_⟩ (s.onBnClickedOk isIn) := by
  cases isIn
  · exact ⟨hmain, rfl, rfl, .inr rfl, fun _ => hopened⟩
  · exact ⟨hmain, rfl, rfl, .inr rfl, fun _ => hopened⟩

/-- Nothing but a check that finds something else disturbs it. -/
theorem Quiet.step {d : Due} (h : Quiet d s) (hstep : Step spans s e s')
    (hdue : ∀ now, e = .check now → due spans now = some d) : Quiet d s' := by
  have hnotUp : s.dialog ≠ some .up := by
    obtain hdown | hdown := h.down
    · rw [hdown]
      nofun
    · rw [hdown]
      nofun
  cases hstep with
  | check now hidle =>
    rw [check_eq, hdue now rfl]
    dsimp only
    rw [if_neg (not_not.mpr h.disp), if_pos h.checked]
    exact h
  | goOn hidle => exact absurd h.main hidle
  | joined hmain =>
    rw [h.main] at hmain
    cases hmain
  | ok hup => exact absurd hup hnotUp
  | answer hdialog =>
    obtain hdown | hdown := h.down
    · rw [hdown] at hdialog
      cases hdialog
    · rw [hdown] at hdialog
      cases hdialog
  | cancel hup => exact absurd hup hnotUp
  | gone => exact ⟨h.main, h.disp, h.checked, .inl rfl, fun hsome => absurd rfl hsome⟩

/-- What holds after an answer to `d`, which was due at `t₀`: while only `d` is due its dialog stays away;
once something else or nothing is due, `d` is not due any more. -/
def Settled (spans : List WorkSpan) (d : Due) (es : List KqEvent) (s : KqInformDlg) : Prop :=
  ((∀ now ∈ times es, due spans now = some d) ∧ Quiet d s) ∨
    ((∃ now ∈ times es, due spans now ≠ some d) ∧ Displays (· ≠ d) s)

/-- **One step keeps an answered reminder away.** -/
theorem Settled.step {d : Due} {t₀ : ℤ} (h : Settled spans d es s) (hspans : Apart spans)
    (h₀ : due spans t₀ = some d) (hafter : ∀ now ∈ times (es ++ [e]), t₀ ≤ now)
    (hsorted : (times (es ++ [e])).Pairwise (· ≤ ·)) (hstep : Step spans s e s') :
    Settled spans d (es ++ [e]) s' := by
  rw [times_append] at hafter hsorted
  rw [Settled, times_append]
  have hlast : ∀ {now}, now ∈ times [e] → e = .check now := by
    intro now hnow
    cases e with
    | check now' => rw [List.mem_singleton.mp hnow]
    | _ => cases hnow
  have hmem : ∀ {now}, e = .check now → now ∈ times [e] := by
    rintro now rfl
    exact List.mem_cons_self
  rcases h with ⟨hall, hquiet⟩ | ⟨⟨other, hother, hne⟩, hdisplays⟩
  · by_cases hdue : ∀ now, e = .check now → due spans now = some d
    · refine .inl ⟨fun now hnow => ?_, hquiet.step hstep hdue⟩
      exact (List.mem_append.mp hnow).elim (hall now) fun hnow => hdue now (hlast hnow)
    · push Not at hdue
      obtain ⟨now, rfl, hne⟩ := hdue
      refine .inr ⟨⟨now, List.mem_append_right _ (hmem rfl), hne⟩, hquiet.displays.step hstep fun now' d' he hdue' hd => ?_⟩
      obtain rfl := KqEvent.check.inj he
      exact hne (hd ▸ hdue')
  · refine .inr ⟨⟨other, List.mem_append_left _ hother, hne⟩, hdisplays.step hstep fun now d' he hdue hd => hne ?_⟩
    -- a check that finds `d` again would find it due between
    exact hspans.due_between h₀ (hd ▸ hdue) (hafter other (List.mem_append_left _ hother))
      ((List.pairwise_append.mp hsorted).2.2 other hother now (hmem he))

/-- **After an answer** the run goes on with the reminder settled. -/
theorem settled_of_run {d : Due} {t₀ : ℤ} (hspans : Apart spans) (h₀ : due spans t₀ = some d)
    (hquiet : Quiet d s₀) (h : Run (Step spans) s₀ es s) (hafter : ∀ now ∈ times es, t₀ ≤ now)
    (hsorted : (times es).Pairwise (· ≤ ·)) : Settled spans d es s := by
  induction h with
  | nil => exact .inl ⟨fun _ h => absurd h List.not_mem_nil, hquiet⟩
  | @snoc es s e s' _ hstep ih =>
    have hsub : (times es).Sublist (times (es ++ [e])) := by
      rw [times_append]
      exact List.sublist_append_left _ _
    exact (ih (fun now hnow => hafter now (hsub.subset hnow)) (hsorted.sublist hsub)).step hspans h₀ hafter hsorted hstep

/-- **A reminder that is answered between two checks does not come up again**: no dialog that takes clicks between
two later ones shows the same check, unless the clock was set back. -/
theorem answeredOnce_of_run (hspans : Apart spans) {before after : List KqEvent} {s₁ : KqInformDlg}
    (hbefore : Run (Step spans) new before s₁) (hidle : s₁.main = .idle)
    (hafter : Run (Step spans) s₁ (.ok :: .answer :: after) s)
    (hclock : (times (before ++ after)).Pairwise (· ≤ ·)) (hmain : s.main = .idle) (hup : s.dialog = some .up) :
    ¬ (s.isInOrOut_ = s₁.isInOrOut_ ∧ s.dispTime_ = s₁.dispTime_) := by
  have hfound := found_of_run hbefore
  have hafter : Run (Step spans) s₁ ([.ok] ++ ([.answer] ++ after)) s := hafter
  obtain ⟨s₂, hok, hrest⟩ := hafter.split
  obtain ⟨s₃, hanswer, hlater⟩ := hrest.split
  cases hok.step_of_single with
  | ok hanswered =>
    have hopened := hfound.there (by rw [hidle]; nofun) (by rw [hanswered]; nofun)
    have hquiet : Quiet ⟨s₁.isInOrOut_, s₁.dispTime_⟩ s₃ := by
      cases hanswer.step_of_single with
      | answer hdialog =>
        obtain rfl := KqThread.answering.inj (Option.some.inj hdialog)
        exact quiet_onBnClickedOk (s := { s₁ with dialog := some (.answering s₁.isInOrOut_) }) _ hidle hopened
    obtain ⟨t₀, ht₀, hdue⟩ := hfound.idle hidle hanswered
    rw [times_append] at hclock
    obtain ⟨-, hsorted, hle⟩ := List.pairwise_append.mp hclock
    obtain ⟨-, hquiet⟩ | ⟨-, hdisplays⟩ := settled_of_run hspans hdue hquiet hlater (hle t₀ ht₀) hsorted
    · obtain hdown | hdown := hquiet.down
      · rw [hdown] at hup
        cases hup
      · rw [hdown] at hup
        cases hup
    · rintro ⟨hin, hdisp⟩
      exact hdisplays.idle hmain hup (Due.ext hin hdisp)

theorem apart_workday : Apart [WorkSpan.workday] := by
  have hbegin : WorkSpan.workday.beginMin = 480 := by decide
  have hstart : WorkSpan.workday.startMin = 510 := by decide
  have hend : WorkSpan.workday.endMin = 1050 := by decide
  have huntil : WorkSpan.workday.untilMin = 1170 := by decide
  refine ⟨?_, ?_, ?_, ?_, ?_, List.pairwise_singleton _ _⟩ <;>
  · intro it hit
    rw [List.mem_singleton.mp hit]
    omega

/-- At ten past eight the reminder comes up and is answered; in the evening the other one does. -/
theorem answeredOnce_of_run_here : ∃ before after s₁ s, Run (Step [WorkSpan.workday]) new before s₁ ∧
    Run (Step [WorkSpan.workday]) s₁ (.ok :: .answer :: after) s ∧ times before = [1930, 1931] ∧
      times after = [1932, 2500, 2501] ∧ s.dialog = some .up ∧
      ¬ (s.isInOrOut_ = s₁.isInOrOut_ ∧ s.dispTime_ = s₁.dispTime_) := by
  have hfirst : Run (Step [WorkSpan.workday]) new [.check 1930] ⟨false, false, false, true, 1950, .resettingIn, none⟩ :=
    Run.nil.snoc (.check 1930 rfl)
  have hleft := (((hfirst.snoc (.goOn nofun nofun)).snoc (.goOn nofun nofun)).snoc (.goOn nofun nofun)).snoc
    (.goOn nofun nofun)
  have hbefore := ((hleft.snoc (.check 1931 rfl)).snoc (.goOn (by decide) (by decide))).snoc (.goOn (by decide) (by decide))
  have hok : Run (Step [WorkSpan.workday]) ⟨true, false, false, true, 1950, .idle, some .up⟩ [.ok]
      ⟨true, false, false, true, 1950, .idle, some (.answering true)⟩ := Run.nil.snoc (.ok rfl)
  have hafter := (hok.snoc (.answer rfl)).snoc (.gone (.inl rfl))
  have hevening := (hafter.snoc (.check 1932 (by decide))).snoc (.check 2500 (by decide))
  have hreset := (((hevening.snoc (.goOn (by decide) (by decide))).snoc (.goOn (by decide) (by decide))).snoc
    (.goOn (by decide) (by decide))).snoc (.goOn (by decide) (by decide))
  have hup := ((hreset.snoc (.check 2501 (by decide))).snoc (.goOn (by decide) (by decide))).snoc
    (.goOn (by decide) (by decide))
  exact ⟨_, _, _, _, hbefore, hup, by decide, by decide, by decide,
    answeredOnce_of_run apart_workday hbefore (by decide) hup (by decide) (by decide) (by decide)⟩

/-! ## Unanswered reminders -/

/-- `d` is being reminded of, and has not been answered, or its answer is about to be reset. -/
structure Pending (d : Due) (s : KqInformDlg) : Prop where
  disp : s.dispTime_ = d.dispTime
  checked : s.main = .resettingIn ∨ (s.main = .resettingOut ∧ d.isIn = false) ∨ s.hasChecked d.isIn = false

theorem Pending.unanswered {d : Due} (h : Pending d s) (hin : s.main ≠ .resettingIn) (hout : s.main ≠ .resettingOut) :
    s.hasChecked d.isIn = false := by
  obtain hmain | ⟨hmain, -⟩ | hchecked := h.checked
  · exact absurd hmain hin
  · exact absurd hmain hout
  · exact hchecked

/-- A check looks for the dialog of a pending reminder. -/
theorem Pending.check {d : Due} {now : ℤ} (h : Pending d s) (hidle : s.main = .idle) (hdue : due spans now = some d) :
    (s.check now spans).1 = { s with main := .opening d.isIn } := by
  rw [check_eq, hdue]
  dsimp only
  rw [if_neg (not_not.mpr h.disp), h.unanswered (by rw [hidle]; nofun) (by rw [hidle]; nofun), if_neg Bool.false_ne_true]

/-- Opening answers nothing. -/
theorem hasChecked_open (s : KqInformDlg) (isIn : Bool) : s.open_.hasChecked isIn = s.hasChecked isIn := by
  rw [open_]
  split_ifs
  · rfl
  · rfl

/-- The rest of a check keeps a reminder pending. -/
theorem Pending.goOn {d : Due} (h : Pending d s) : Pending d s.goOn := by
  rw [KqInformDlg.goOn]
  cases hmain : s.main with
  | idle => exact h
  | joining => exact h
  | opening isIn =>
    have hchecked := h.unanswered (by rw [hmain]; nofun) (by rw [hmain]; nofun)
    exact ⟨(dispTime_open s).trans h.disp, .inr (.inr ((hasChecked_open s d.isIn).trans hchecked))⟩
  | setting isIn => exact ⟨h.disp, .inr (.inr (h.unanswered (by rw [hmain]; nofun) (by rw [hmain]; nofun)))⟩
  | resettingIn =>
    refine ⟨h.disp, .inr ?_⟩
    cases hin : d.isIn with
    | true => exact .inr rfl
    | false => exact .inl ⟨rfl, rfl⟩
  | resettingOut =>
    refine ⟨h.disp, .inr (.inr ?_)⟩
    cases hin : d.isIn with
    | true =>
      obtain hwrong | ⟨-, hwrong⟩ | hchecked := h.checked
      · rw [hmain] at hwrong
        cases hwrong
      · rw [hin] at hwrong
        cases hwrong
      · rwa [hin] at hchecked
    | false => rfl
  | resettingKind => exact ⟨h.disp, .inr (.inr (h.unanswered (by rw [hmain]; nofun) (by rw [hmain]; nofun)))⟩
  | closing =>
    have hchecked := h.unanswered (by rw [hmain]; nofun) (by rw [hmain]; nofun)
    dsimp only
    rw [close]
    split_ifs
    · exact ⟨h.disp, .inr (.inr hchecked)⟩
    · exact ⟨h.disp, .inr (.inr hchecked)⟩

/-- Without an answer a reminder stays pending. -/
theorem Pending.step {d : Due} (h : Pending d s) (hstep : Step spans s e s') (hno : e ≠ .answer)
    (hdue : ∀ now, e = .check now → due spans now = some d) : Pending d s' := by
  cases hstep with
  | check now hidle =>
    rw [h.check hidle (hdue now rfl)]
    exact ⟨h.disp, .inr (.inr (h.unanswered (by rw [hidle]; nofun) (by rw [hidle]; nofun)))⟩
  | goOn => exact h.goOn
  | joined hmain => exact ⟨h.disp, .inr (.inr (h.unanswered (by rw [hmain]; nofun) (by rw [hmain]; nofun)))⟩
  | ok => exact ⟨h.disp, h.checked⟩
  | answer => exact absurd rfl hno
  | cancel => exact ⟨h.disp, h.checked⟩
  | gone => exact ⟨h.disp, h.checked⟩

/-- **A reminder stays pending** until it is answered. -/
theorem pending_of_run {d : Due} (h : Run (Step spans) s₀ es s) (h₀ : Pending d s₀)
    (hall : ∀ now ∈ times es, due spans now = some d) (hno : .answer ∉ es) : Pending d s := by
  refine h.restrict_mem.invariant h₀ fun s e s' hpending ⟨hstep, he⟩ => ?_
  refine hpending.step hstep (fun hanswer => hno (hanswer ▸ he)) ?_
  rintro now rfl
  exact hall now (mem_times he)

/-- In a check that found `d` pending: its dialog is yet to be looked for, or was there. -/
structure Reminding (d : Due) (es : List KqEvent) (s : KqInformDlg) : Prop where
  disp : s.dispTime_ = d.dispTime
  main : s.main = .opening d.isIn ∨ ((s.main = .setting d.isIn ∨ (s.main = .idle ∧ s.isInOrOut_ = d.isIn)) ∧
    (s.isOpened_ = true ∨ .gone ∈ es))

/-- While no check starts, the dialog opened for a reminder is there or its thread has ended, -/
theorem Reminding.step {d : Due} (h : Reminding d es s) (hstep : Step spans s e s') (hno : ∀ now, e ≠ .check now) :
    Reminding d (es ++ [e]) s' := by
  obtain ⟨hdisp, hmain⟩ := h
  have hkept : ∀ {o : Bool}, o = true ∨ .gone ∈ es → o = true ∨ .gone ∈ es ++ [e] := fun h =>
    h.imp id (List.mem_append_left _)
  cases hstep with
  | check now => exact absurd rfl (hno now)
  | goOn hidle =>
    rw [KqInformDlg.goOn]
    obtain hmain | ⟨hmain | ⟨hmain, -⟩, hopened⟩ := hmain
    · rw [hmain]
      exact ⟨(dispTime_open s).trans hdisp, .inr ⟨.inl rfl, .inl (isOpened_open s)⟩⟩
    · rw [hmain]
      exact ⟨hdisp, .inr ⟨.inr ⟨rfl, rfl⟩, hkept hopened⟩⟩
    · exact absurd hmain hidle
  | joined hjoining =>
    rw [hjoining] at hmain
    simp at hmain
  | ok => exact ⟨hdisp, hmain.imp id fun h => ⟨h.1, hkept h.2⟩⟩
  | @answer isIn =>
    cases isIn
    · exact ⟨hdisp, hmain.imp id fun h => ⟨h.1, hkept h.2⟩⟩
    · exact ⟨hdisp, hmain.imp id fun h => ⟨h.1, hkept h.2⟩⟩
  | cancel => exact ⟨hdisp, hmain.imp id fun h => ⟨h.1, hkept h.2⟩⟩
  | gone => exact ⟨hdisp, hmain.imp id fun h => ⟨h.1, .inr (List.mem_append_right _ List.mem_cons_self)⟩⟩

/-- and so it is over a whole run without a check. -/
theorem reminding_of_run {d : Due} (h : Run (Step spans) s₀ es s) (h₀ : Reminding d [] s₀) (hno : times es = []) :
    Reminding d es s := by
  induction h with
  | nil => exact h₀
  | @snoc es s e s' _ hstep ih =>
    rw [times_append, List.append_eq_nil_iff] at hno
    refine (ih hno.1).step hstep ?_
    rintro now rfl
    cases hno.2

/-- **A reminder that is not answered is there after every check**, from the second that finds it on, however
often its dialog is closed: when the check is through, the dialog has the reminder's time and kind, and is there unless
it went away during the check. -/
theorem reminds_of_run {d : Due} {first last : ℤ} {during : List KqEvent} (hnew : s₀.dispTime_ ≠ d.dispTime)
    (hrun : Run (Step spans) s₀ (.check first :: (es ++ .check last :: during)) s) (hfirst : due spans first = some d)
    (hall : ∀ now ∈ times es, due spans now = some d) (hlast : due spans last = some d) (hno : .answer ∉ es)
    (hduring : times during = []) (hthrough : s.main = .idle) :
    s.isInOrOut_ = d.isIn ∧ s.dispTime_ = d.dispTime ∧ (s.isOpened_ = true ∨ .gone ∈ during) := by
  have hrun : Run (Step spans) s₀ ([.check first] ++ (es ++ ([.check last] ++ during))) s := hrun
  obtain ⟨s₁, hbegin, hrun⟩ := hrun.split
  obtain ⟨s₂, hmid, hrun⟩ := hrun.split
  obtain ⟨s₃, hcheck, hrun⟩ := hrun.split
  have h₁ : Pending d s₁ := by
    cases hbegin.step_of_single
    rw [check_eq, hfirst]
    dsimp only
    rw [if_pos hnew]
    exact ⟨rfl, .inl rfl⟩
  have h₂ : Pending d s₂ := pending_of_run hmid h₁ hall hno
  have h₃ : Reminding d [] s₃ := by
    cases hcheck.step_of_single with
    | check _ hidle =>
      rw [h₂.check hidle hlast]
      exact ⟨h₂.disp, .inl rfl⟩
  obtain ⟨hdisp, hmain⟩ := reminding_of_run hrun h₃ hduring
  rw [hthrough] at hmain
  obtain hmain | ⟨hmain | ⟨-, hin⟩, hopened⟩ := hmain
  · cases hmain
  · cases hmain
  · exact ⟨hin, hdisp, hopened⟩

/-- The reminder comes up, is cancelled, and comes up again. -/
theorem reminds_of_run_here : ∃ es s, Run (Step [WorkSpan.workday]) new es s ∧ times es = [1930, 1931, 1932] ∧
    .cancel ∈ es ∧ s.isInOrOut_ = true ∧ s.dispTime_ = 1950 ∧ s.isOpened_ = true := by
  have hfirst : Run (Step [WorkSpan.workday]) new [.check 1930] ⟨false, false, false, true, 1950, .resettingIn, none⟩ :=
    Run.nil.snoc (.check 1930 rfl)
  have hleft := (((hfirst.snoc (.goOn nofun nofun)).snoc (.goOn nofun nofun)).snoc (.goOn nofun nofun)).snoc
    (.goOn nofun nofun)
  have hup := ((hleft.snoc (.check 1931 rfl)).snoc (.goOn (by decide) (by decide))).snoc (.goOn (by decide) (by decide))
  have hgone := (hup.snoc (.cancel rfl)).snoc (.gone (.inl rfl))
  have hagain := ((hgone.snoc (.check 1932 (by decide))).snoc (.goOn (by decide) (by decide))).snoc
    (.goOn (by decide) (by decide))
  have hsplit : Run (Step [WorkSpan.workday]) new (.check 1930 :: ([.goOn, .goOn, .goOn, .goOn, .check 1931, .goOn, .goOn,
    .cancel, .gone] ++ .check 1932 :: [.goOn, .goOn])) _ := hagain
  obtain ⟨hin, hdisp, hopened⟩ := reminds_of_run (d := ⟨true, 1950⟩) (by decide) hsplit (by decide) (by decide)
    (by decide) (by decide) (by decide) (by decide)
  exact ⟨_, _, hagain, by decide, by decide, hin, hdisp, hopened.resolve_right (by decide)⟩

end KqInformDlg

end EuhatExpert
