import EuhatExpert.Common.Punctuality

/-!
# Common/TimeOrder — the order of times that were added and subtracted field by field

Times are built from clock readings and intervals by `add` and `sub`, which neither carry nor borrow, so the
microseconds of a time may be any number.  Its exact number of microseconds is kept (`micros_val`), but
`biggerThan` compares the fields one after the other, and `calcInt64` adds the last three digits of the
microseconds where it should add their thousands.  `keepsOrder_iff` says when a pair of times is still in the
order of time.
-/

namespace EuhatExpert

namespace WhTimeVal

/-- The interval of `createTimer` and `delayWork`. -/
def ofMsecs (msecs : ℤ) : WhTimeVal := ⟨msecs.tdiv 1000, msecs.tmod 1000 * 1000⟩

def calcInt64 (v : WhTimeVal) : ℤ := v.tv_sec * 1000 + v.tv_usec.tmod 1000

theorem micros_ofMsecs (msecs : ℤ) : (ofMsecs msecs).micros = msecs * 1000 := by
  have hsplit := Int.tmod_add_mul_tdiv msecs 1000
  simp only [micros, ofMsecs]
  omega

end WhTimeVal

open WhTimeVal

/-! ## Times built from readings and intervals -/

/-- How a time was built. -/
inductive BuiltTime
  | now (reading : TimeReading)
  | interval (msecs : ℤ)
  | add (l r : BuiltTime)
  | sub (l r : BuiltTime)

namespace BuiltTime

/-- The time as the code has it. -/
def val : BuiltTime → WhTimeVal
  | now reading => reading.val
  | interval msecs => ofMsecs msecs
  | add l r => l.val.add r.val
  | sub l r => l.val.sub r.val

/-- The exact number of microseconds. -/
def exactMicros : BuiltTime → ℤ
  | now reading => reading.val.tv_sec * 1000000 + reading.val.tv_usec
  | interval msecs => msecs * 1000
  | add l r => l.exactMicros + r.exactMicros
  | sub l r => l.exactMicros - r.exactMicros

/-- **The fields lose nothing**, whatever was added and subtracted. -/
theorem micros_val (t : BuiltTime) : t.val.micros = t.exactMicros := by
  induction t with
  | now reading => rfl
  | interval msecs => exact micros_ofMsecs msecs
  | add l r hl hr => rw [val, micros_add, hl, hr, exactMicros]
  | sub l r hl hr => rw [val, micros_sub, hl, hr, exactMicros]

/-- The two times are compared, and converted, in the order of time. -/
def KeepsOrder (a b : BuiltTime) : Prop :=
  (a.val.biggerThan b.val = true ↔ b.exactMicros < a.exactMicros) ∧
    (a.exactMicros ≤ b.exactMicros → a.val.calcInt64 ≤ b.val.calcInt64)

end BuiltTime

/-! ## When the fields follow the time -/

/-- Where the seconds differ the microseconds do not outweigh them, and the last three digits of the
microseconds follow the time too: within a second they do not fall, and into the next one they fall by at most
a thousand. -/
structure FieldsInLine (a b : WhTimeVal) : Prop where
  above : b.tv_sec < a.tv_sec → b.tv_usec - a.tv_usec < (a.tv_sec - b.tv_sec) * 1000000
  below : a.tv_sec < b.tv_sec → a.tv_usec - b.tv_usec ≤ (b.tv_sec - a.tv_sec) * 1000000
  digits : a.tv_sec = b.tv_sec → a.tv_usec ≤ b.tv_usec → a.tv_usec.tmod 1000 ≤ b.tv_usec.tmod 1000
  next : a.tv_sec + 1 = b.tv_sec → a.tv_usec.tmod 1000 - b.tv_usec.tmod 1000 ≤ 1000

variable {a b : WhTimeVal}

theorem biggerThan_iff_micros :
    (a.biggerThan b = true ↔ b.micros < a.micros) ↔
      (b.tv_sec < a.tv_sec → b.tv_usec - a.tv_usec < (a.tv_sec - b.tv_sec) * 1000000) ∧
        (a.tv_sec < b.tv_sec → a.tv_usec - b.tv_usec ≤ (b.tv_sec - a.tv_sec) * 1000000) := by
  simp only [biggerThan, micros, Bool.or_eq_true, Bool.and_eq_true, decide_eq_true_eq]
  omega

/-- Where the comparison is right, so is the conversion exactly when the last digits follow. -/
theorem calcInt64_le_iff (habove : b.tv_sec < a.tv_sec → b.tv_usec - a.tv_usec < (a.tv_sec - b.tv_sec) * 1000000)
    (hbelow : a.tv_sec < b.tv_sec → a.tv_usec - b.tv_usec ≤ (b.tv_sec - a.tv_sec) * 1000000) :
    (a.micros ≤ b.micros → a.calcInt64 ≤ b.calcInt64) ↔
      (a.tv_sec = b.tv_sec → a.tv_usec ≤ b.tv_usec → a.tv_usec.tmod 1000 ≤ b.tv_usec.tmod 1000) ∧
        (a.tv_sec + 1 = b.tv_sec → a.tv_usec.tmod 1000 - b.tv_usec.tmod 1000 ≤ 1000) := by
  have ha := Int.tmod_lt_of_pos a.tv_usec (show (0 : ℤ) < 1000 by decide)
  have hb := Int.lt_tmod_of_pos b.tv_usec (show (0 : ℤ) < 1000 by decide)
  simp only [micros, calcInt64]
  omega

/-- **Two built times are in the order of time exactly when their fields follow it.** -/
theorem BuiltTime.keepsOrder_iff (a b : BuiltTime) : KeepsOrder a b ↔ FieldsInLine a.val b.val := by
  rw [KeepsOrder, ← micros_val, ← micros_val, biggerThan_iff_micros]
  constructor
  · rintro ⟨⟨habove, hbelow⟩, hcalc⟩
    obtain ⟨hdigits, hnext⟩ := (calcInt64_le_iff habove hbelow).mp hcalc
    exact ⟨habove, hbelow, hdigits, hnext⟩
  · intro h
    exact ⟨⟨h.above, h.below⟩, (calcInt64_le_iff h.above h.below).mpr ⟨h.digits, h.next⟩⟩

/-- A reading of one second is bigger than one of 900 milliseconds with 200 added, and a reading of 999
microseconds is converted to more than one of a millisecond. -/
theorem BuiltTime.not_keepsOrder :
    (¬ ∀ a b : BuiltTime, 0 ≤ a.exactMicros → 0 ≤ b.exactMicros →
      (a.val.biggerThan b.val = true ↔ b.exactMicros < a.exactMicros)) ∧
    ¬ ∀ a b : BuiltTime, 0 ≤ a.exactMicros → 0 ≤ b.exactMicros →
      a.exactMicros ≤ b.exactMicros → a.val.calcInt64 ≤ b.val.calcInt64 := by
  refine ⟨fun h => ?_, fun h => ?_⟩
  · have hbigger := h (.now ⟨⟨1, 0⟩, ⟨by decide, by decide, by decide⟩⟩)
      (.add (.now ⟨⟨0, 900000⟩, ⟨by decide, by decide, by decide⟩⟩) (.interval 200)) (by decide) (by decide)
    exact absurd (hbigger.mp (by decide)) (by decide)
  · have hle := h (.now ⟨⟨0, 999⟩, ⟨by decide, by decide, by decide⟩⟩)
      (.now ⟨⟨0, 1000⟩, ⟨by decide, by decide, by decide⟩⟩) (by decide) (by decide) (by decide)
    exact absurd hle (by decide)

end EuhatExpert
