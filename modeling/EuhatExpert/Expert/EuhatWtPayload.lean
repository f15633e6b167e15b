import Mathlib.Data.Int.Notation
import Mathlib.Data.Nat.Notation
import Mathlib.Logic.Function.Basic
import Mathlib.Tactic.SplitIfs
import Mathlib.Tactic.Tauto

/-!
# Expert/EuhatWtPayload — the counts of a day, minute by minute

A payload holds two values for every minute of a day.  A value that is no negative number is a count; the
negative ones say why there is none.
-/

namespace EuhatExpert

/-- The minutes of a day. -/
def EUHAT_WT_PAYLOAD_COUNT : ℕ := 60 * 24

/-- The value that counts the mouse, -/
def EUHAT_WT_PL_TYPE_MOUSE : ℤ := 0

/-- and the one that counts the keyboard. -/
def EUHAT_WT_PL_TYPE_KEYBOARD : ℤ := 1

/-- Nothing was moved. -/
def EUHAT_WT_PL_NO_MOVE : ℤ := -1

/-- The machine slept. -/
def EUHAT_WT_PL_HANG_UP : ℤ := -2

/-- Nothing was recorded. -/
def EUHAT_WT_PL_NO_RECORD : ℤ := -3

/-- The two values of a minute. -/
structure EuhatWtPl where
  mouse_ : ℤ
  keyboard_ : ℤ
  deriving DecidableEq, Repr

/-- `payload_`, of which only the first `EUHAT_WT_PAYLOAD_COUNT` entries are there. -/
abbrev EuhatWtPayload := ℕ → EuhatWtPl

namespace EuhatWtPayload

/-- `reset`: a day without a record. -/
def reset : EuhatWtPayload := fun _ => ⟨EUHAT_WT_PL_NO_RECORD, EUHAT_WT_PL_NO_RECORD⟩

/-- `read`, on the row of a date: a missing one, or one of another size, is none. -/
def read (row : Option EuhatWtPayload) : EuhatWtPayload := row.getD reset

/-- `getValue`; another type has no value. -/
def getValue (p : EuhatWtPayload) (idx : ℕ) (type : ℤ) : ℤ :=
  if type = EUHAT_WT_PL_TYPE_MOUSE then (p idx).mouse_
  else if type = EUHAT_WT_PL_TYPE_KEYBOARD then (p idx).keyboard_
  else EUHAT_WT_PL_NO_RECORD

/-- `setValue`; another type sets nothing. -/
def setValue (p : EuhatWtPayload) (idx : ℕ) (type val : ℤ) : EuhatWtPayload :=
  Function.update p idx
    (if type = EUHAT_WT_PL_TYPE_MOUSE then { p idx with mouse_ := val }
    else if type = EUHAT_WT_PL_TYPE_KEYBOARD then { p idx with keyboard_ := val }
    else p idx)

/-- A type that has values. -/
def IsType (type : ℤ) : Prop := type = EUHAT_WT_PL_TYPE_MOUSE ∨ type = EUHAT_WT_PL_TYPE_KEYBOARD

variable (p : EuhatWtPayload) {idx idx' : ℕ} {type type' : ℤ}

/-- A day without a record has none at any minute. -/
theorem getValue_reset (idx : ℕ) (type : ℤ) : reset.getValue idx type = EUHAT_WT_PL_NO_RECORD := by
  rw [getValue]
  split_ifs <;> rfl

/-- What was set is there. -/
theorem getValue_setValue_self (h : IsType type) (val : ℤ) :
    (p.setValue idx type val).getValue idx type = val := by
  rcases h with rfl | rfl
  · rw [getValue, setValue, Function.update_self, if_pos rfl, if_pos rfl]
  · rw [getValue, setValue, Function.update_self, if_neg (by decide), if_pos rfl, if_neg (by decide),
      if_pos rfl]

/-- A value that is set changes no other. -/
theorem getValue_setValue_of_ne (h : idx' ≠ idx ∨ type' ≠ type) (val : ℤ) :
    (p.setValue idx type val).getValue idx' type' = p.getValue idx' type' := by
  rw [getValue, getValue, setValue]
  by_cases hidx : idx' = idx
  · obtain rfl := hidx
    have htype : type' ≠ type := h.resolve_left fun hne => hne rfl
    rw [Function.update_self]
    split_ifs with h₁ h₂ h₃ h₄ h₅ h₆
    · exact absurd (h₁.trans h₂.symm) htype
    · rfl
    · rfl
    · rfl
    · exact absurd (h₄.trans h₆.symm) htype
    · rfl
    · rfl
  · rw [Function.update_of_ne hidx]

/-! ## The same counts -/

/-- Two values that are the same count, or no counts. -/
def Agree (v w : ℤ) : Prop := v = w ∨ v < 0 ∧ w < 0

theorem Agree.refl (v : ℤ) : Agree v v := .inl rfl

theorem Agree.trans {u v w : ℤ} (h : Agree u v) (h' : Agree v w) : Agree u w := by
  rcases h with rfl | h
  · exact h'
  · rcases h' with rfl | h'
    · exact .inr h
    · exact .inr ⟨h.1, h'.2⟩

theorem Agree.symm {v w : ℤ} (h : Agree v w) : Agree w v := h.imp Eq.symm And.symm

/-- A count agrees with nothing but itself. -/
theorem Agree.eq_of_nonneg {v w : ℤ} (h : Agree v w) (hv : 0 ≤ v) : v = w :=
  h.resolve_right fun hneg => by omega

/-- Two payloads with the same counts. -/
def Alike (p q : EuhatWtPayload) : Prop :=
  ∀ idx type, Agree (p.getValue idx type) (q.getValue idx type)

theorem Alike.refl (p : EuhatWtPayload) : Alike p p := fun _ _ => .refl _

theorem Alike.trans {p q r : EuhatWtPayload} (h : Alike p q) (h' : Alike q r) : Alike p r :=
  fun idx type => (h idx type).trans (h' idx type)

/-- A negative value in the place of another changes no count. -/
theorem alike_setValue (htype : IsType type) {val : ℤ} (hold : p.getValue idx type < 0) (hval : val < 0) :
    Alike p (p.setValue idx type val) := by
  intro idx' type'
  by_cases h : idx' = idx ∧ type' = type
  · obtain ⟨rfl, rfl⟩ := h
    rw [getValue_setValue_self p htype]
    exact .inr ⟨hold, hval⟩
  · rw [getValue_setValue_of_ne p (by tauto)]
    exact .refl _

end EuhatWtPayload

end EuhatExpert
