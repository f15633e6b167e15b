import EuhatExpert.Machinery.Bytes
import Mathlib.Data.List.TakeWhile

/-!
# Machinery/Decimal — integers as decimal text

`printInt` is the text of `%d`, `readInt` the number at the front of a text as `strtol` finds it: blanks,
a sign, then digits.  An integer is read back from its text, and its text is digits behind a sign at most.
-/

namespace EuhatExpert.Machinery

def minus : UInt8 := 45

def plus : UInt8 := 43

/-- The character of a digit. -/
def digitChar (d : ℕ) : UInt8 := UInt8.ofNat (48 + d)

def isDigit (ch : UInt8) : Bool := 48 ≤ ch.toNat && ch.toNat ≤ 57

/-- `isspace` of plain ASCII. -/
def isSpace (ch : UInt8) : Bool := ch.toNat == 32 || (9 ≤ ch.toNat && ch.toNat ≤ 13)

/-- The digits of a number, most significant first. -/
def printNat (n : ℕ) : Bytes := if n = 0 then [digitChar 0] else ((Nat.digits 10 n).reverse).map digitChar

/-- `%d`. -/
def printInt (v : ℤ) : Bytes := if v < 0 then minus :: printNat v.natAbs else printNat v.natAbs

/-- The number the leading digits of a text spell. -/
def readNat (text : Bytes) : ℕ := (text.takeWhile isDigit).foldl (fun n ch => 10 * n + (ch.toNat - 48)) 0

/-- `strtol` of base ten, without a bound. -/
def readInt (text : Bytes) : ℤ :=
  match text.dropWhile isSpace with
  | [] => 0
  | ch :: rest => if ch = minus then -readNat rest else if ch = plus then readNat rest else readNat (ch :: rest)

/-! ## A number is read back -/

theorem toNat_digitChar {d : ℕ} (h : d < 10) : (digitChar d).toNat = 48 + d := by
  rw [digitChar, UInt8.toNat_ofNat']
  omega

theorem isDigit_digitChar {d : ℕ} (h : d < 10) : isDigit (digitChar d) = true := by
  rw [isDigit, toNat_digitChar h]
  simp
  omega

theorem foldl_digits (ds : List ℕ) (h : ∀ d ∈ ds, d < 10) :
    (ds.reverse.map digitChar).foldl (fun n ch => 10 * n + (ch.toNat - 48)) 0 = Nat.ofDigits 10 ds := by
  induction ds with
  | nil => rfl
  | cons d ds ih =>
    have hd : (digitChar d).toNat - 48 = d := by
      rw [toNat_digitChar (h d List.mem_cons_self)]
      omega
    rw [List.reverse_cons, List.map_append, List.foldl_append, ih fun x hx => h x (List.mem_cons_of_mem _ hx),
      List.map_singleton, List.foldl_cons, List.foldl_nil, hd, Nat.ofDigits_cons]
    simp [Nat.add_comm]

/-- The text of a number is digits, and there are some. -/
theorem printNat_spec (n : ℕ) : printNat n ≠ [] ∧ (∀ ch ∈ printNat n, isDigit ch = true) := by
  rw [printNat]
  split_ifs with h
  · refine ⟨List.cons_ne_nil _ _, fun ch hch => ?_⟩
    rw [List.mem_singleton.mp hch]
    exact isDigit_digitChar (by decide)
  · refine ⟨by simpa using Nat.digits_ne_nil_iff_ne_zero.mpr h, fun ch hch => ?_⟩
    obtain ⟨d, hd, rfl⟩ := List.mem_map.mp hch
    exact isDigit_digitChar (Nat.digits_lt_base (by decide) (List.mem_reverse.mp hd))

theorem readNat_printNat (n : ℕ) : readNat (printNat n) = n := by
  rw [readNat, List.takeWhile_eq_self_iff.mpr (printNat_spec n).2, printNat]
  split_ifs with h
  · rw [h]
    rfl
  · rw [foldl_digits _ fun d hd => Nat.digits_lt_base (by decide) hd, Nat.ofDigits_digits]

theorem not_isSpace_of_isDigit {ch : UInt8} (h : isDigit ch = true) : isSpace ch = false := by
  simp [isDigit, isSpace] at h ⊢
  omega

/-- **An integer is read back from its text.** -/
theorem readInt_printInt (v : ℤ) : readInt (printInt v) = v := by
  rw [printInt]
  split_ifs with h
  · have hdrop : (minus :: printNat v.natAbs).dropWhile isSpace = minus :: printNat v.natAbs := by
      rw [List.dropWhile_cons_of_neg (by decide)]
    rw [readInt, hdrop]
    simp only [if_pos, readNat_printNat]
    omega
  · obtain ⟨hne, hdigit⟩ := printNat_spec v.natAbs
    have hread := readNat_printNat v.natAbs
    obtain ⟨ch, rest, heq⟩ := List.exists_cons_of_ne_nil hne
    rw [heq] at hdigit hread ⊢
    have hch := hdigit ch List.mem_cons_self
    have hminus : ch ≠ minus := by
      rintro rfl
      exact absurd hch (by decide)
    have hplus : ch ≠ plus := by
      rintro rfl
      exact absurd hch (by decide)
    rw [readInt, List.dropWhile_cons_of_neg (by simp [not_isSpace_of_isDigit hch])]
    simp only [if_neg hminus, if_neg hplus, hread]
    omega

/-- A character of an integer's text is a digit or the sign. -/
theorem mem_printInt {v : ℤ} {ch : UInt8} (h : ch ∈ printInt v) : ch = minus ∨ isDigit ch = true := by
  rw [printInt] at h
  split_ifs at h
  · rcases List.mem_cons.mp h with rfl | h
    · exact .inl rfl
    · exact .inr ((printNat_spec _).2 ch h)
  · exact .inr ((printNat_spec _).2 ch h)

theorem length_printNat_le {n k : ℕ} (hk : 0 < k) (h : n < 10 ^ k) : (printNat n).length ≤ k := by
  rw [printNat]
  split_ifs
  · exact hk
  · rw [List.length_map, List.length_reverse]
    exact (Nat.digits_length_le_iff (by decide) n).mpr h

/-- The text of an integer is as long as its digits and a sign at most. -/
theorem length_printInt_le {v : ℤ} {k : ℕ} (hk : 0 < k) (h : v.natAbs < 10 ^ k) :
    (printInt v).length ≤ k + 1 := by
  have hlen := length_printNat_le hk h
  rw [printInt]
  split_ifs
  · exact Nat.succ_le_succ hlen
  · exact hlen.trans (Nat.le_succ k)

end EuhatExpert.Machinery
