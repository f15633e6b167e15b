import EuhatExpert.Machinery.Bytes
import Mathlib.Data.List.TakeWhile

/-!
# Machinery/TextStream — text streams, and their lines

A text stream may translate what is written: with `TextMode.crlf` a newline is stored as a carriage
return and a newline, and a stored Ctrl-Z ends the text.  What is read of a stored text is the text
itself, up to its first Ctrl-Z (`shown_stored`).  `fgets` takes a text apart into pieces; a line no
longer than the buffer is one piece, and its newline is in it or is a piece of its own (`pieces_line`).
-/

namespace EuhatExpert.Machinery

def newline : UInt8 := 10

def carriageReturn : UInt8 := 13

def ctrlZ : UInt8 := 26

/-- What a text stream does to the characters that go through it. -/
inductive TextMode
  | plain
  | crlf
  deriving DecidableEq, Repr

/-! ## What is stored, and what is read of it -/

/-- The bytes a text is stored as. -/
def stored : TextMode → Bytes → Bytes
  | .plain, text => text
  | .crlf, text => text.flatMap fun ch => if ch = newline then [carriageReturn, newline] else [ch]

/-- The characters read of the bytes of a file whose newlines are translated. -/
def untranslated : Bytes → Bytes
  | [] => []
  | ch :: bs =>
    if ch = ctrlZ then []
    else if ch = carriageReturn ∧ bs.head? = some newline then untranslated bs
    else ch :: untranslated bs

/-- The characters read of the bytes of a file. -/
def shown : TextMode → Bytes → Bytes
  | .plain, bs => bs
  | .crlf, bs => untranslated bs

/-- The part of a text in front of the first Ctrl-Z, where that ends a text. -/
def legible : TextMode → Bytes → Bytes
  | .plain, text => text
  | .crlf, text => text.takeWhile fun ch => ch ≠ ctrlZ

theorem stored_cons (ch : UInt8) (text : Bytes) :
    stored .crlf (ch :: text) = (if ch = newline then [carriageReturn, newline] else [ch]) ++ stored .crlf text :=
  rfl

/-- A stored text does not begin with a newline. -/
theorem head_stored (text : Bytes) : (stored .crlf text).head? ≠ some newline := by
  cases text with
  | nil => simp [stored]
  | cons ch text =>
    rw [stored_cons]
    split_ifs with h
    · simp [carriageReturn, newline]
    · simpa using h

theorem untranslated_stored (text : Bytes) :
    untranslated (stored .crlf text) = text.takeWhile fun ch => ch ≠ ctrlZ := by
  induction text with
  | nil => rfl
  | cons ch text ih =>
    rw [stored_cons]
    split_ifs with hnew
    · subst hnew
      simp [untranslated, newline, carriageReturn, ctrlZ, ih]
    · have hhead : ¬ (ch = carriageReturn ∧ (stored .crlf text).head? = some newline) :=
        fun h => head_stored text h.2
      by_cases hz : ch = ctrlZ
      · simp [untranslated, hz]
      · simp [untranslated, hz, hhead, ih]

/-- **What is read of a stored text** is the text, up to what ends it. -/
theorem shown_stored (mode : TextMode) (text : Bytes) : shown mode (stored mode text) = legible mode text := by
  cases mode with
  | plain => rfl
  | crlf => exact untranslated_stored text

/-- Nothing in the text ends it. -/
def Unended (mode : TextMode) (text : Bytes) : Prop := mode = .crlf → ctrlZ ∉ text

instance (mode : TextMode) (text : Bytes) : Decidable (Unended mode text) :=
  inferInstanceAs (Decidable (mode = .crlf → ctrlZ ∉ text))

theorem unended_append {mode : TextMode} {text rest : Bytes} :
    Unended mode (text ++ rest) ↔ Unended mode text ∧ Unended mode rest := by
  rw [Unended, List.mem_append, not_or]
  exact imp_and

/-- What stands in front of a whole text is read with it. -/
theorem legible_append {mode : TextMode} {text : Bytes} (h : Unended mode text) (rest : Bytes) :
    legible mode (text ++ rest) = text ++ legible mode rest := by
  cases mode with
  | plain => rfl
  | crlf =>
    refine List.takeWhile_append_of_pos fun ch hch => ?_
    have : ch ≠ ctrlZ := fun hz => h rfl (hz ▸ hch)
    simpa using this

/-- Nothing is read behind a text that is not whole. -/
theorem legible_append_of_not {mode : TextMode} {text : Bytes} (h : ¬ Unended mode text) (rest : Bytes) :
    legible mode (text ++ rest) = legible mode text := by
  obtain ⟨rfl, hz⟩ := Classical.not_imp.mp h
  have hz : ctrlZ ∈ text := not_not.mp hz
  have hlt : ¬ (text.takeWhile fun ch => ch ≠ ctrlZ).length = text.length := by
    intro heq
    have hself := (List.takeWhile_prefix fun ch : UInt8 => (decide (ch ≠ ctrlZ))).eq_of_length heq
    exact absurd (List.takeWhile_eq_self_iff.mp hself ctrlZ hz) (by simp)
  rw [legible, List.takeWhile_append, if_neg hlt, legible]

theorem legible_sublist (mode : TextMode) (text : Bytes) : (legible mode text).Sublist text := by
  cases mode with
  | plain => exact List.Sublist.refl _
  | crlf => exact List.takeWhile_sublist _

/-! ## Lines -/

/-- `fgets` into a buffer of `size + 1` characters: those through the first newline, `size` at most, and
those left. -/
def fgets : ℕ → Bytes → Bytes × Bytes
  | 0, text => ([], text)
  | _ + 1, [] => ([], [])
  | size + 1, ch :: text =>
    if ch = newline then ([ch], text) else (ch :: (fgets size text).1, (fgets size text).2)

theorem length_fgets (size : ℕ) (text : Bytes) :
    (fgets size text).1.length + (fgets size text).2.length = text.length := by
  induction size generalizing text with
  | zero => simp [fgets]
  | succ size ih =>
    cases text with
    | nil => rfl
    | cons ch text =>
      rw [fgets]
      have hlen := ih text
      split_ifs
      · simp [Nat.add_comm]
      · simp only [List.length_cons]
        omega

/-- `while (fgets(..) != NULL)`: the pieces it reads. -/
def pieces (size : ℕ) (text : Bytes) : List Bytes :=
  if (fgets size text).1 = [] then [] else (fgets size text).1 :: pieces size (fgets size text).2
termination_by text.length
decreasing_by
  have hlen := length_fgets size text
  have hpos := List.length_pos_of_ne_nil ‹(fgets size text).1 ≠ []›
  omega

theorem pieces_nil (size : ℕ) : pieces size [] = [] := by
  rw [pieces, if_pos]
  cases size <;> rfl

/-- A text without a newline that fits the buffer is read at once. -/
theorem fgets_of_fits {size : ℕ} {text : Bytes} (hno : newline ∉ text) (hlen : text.length ≤ size) :
    fgets size text = (text, []) := by
  induction text generalizing size with
  | nil => cases size <;> rfl
  | cons ch text ih =>
    obtain ⟨size, rfl⟩ : ∃ k, size = k + 1 := ⟨size - 1, by simp at hlen; omega⟩
    have hch : ch ≠ newline := fun h => hno (h ▸ List.mem_cons_self)
    rw [fgets, if_neg hch, ih (fun h => hno (List.mem_cons_of_mem _ h)) (by simpa using hlen)]

/-- A line is read with its newline, where that fits the buffer too. -/
theorem fgets_line {size : ℕ} {line : Bytes} (rest : Bytes) (hno : newline ∉ line) (hlen : line.length ≤ size) :
    fgets size (line ++ newline :: rest)
      = if line.length < size then (line ++ [newline], rest) else (line, newline :: rest) := by
  induction line generalizing size with
  | nil =>
    cases size with
    | zero => rfl
    | succ size => simp [fgets]
  | cons ch line ih =>
    obtain ⟨size, rfl⟩ : ∃ k, size = k + 1 := ⟨size - 1, by simp at hlen; omega⟩
    have hch : ch ≠ newline := fun h => hno (h ▸ List.mem_cons_self)
    have hrec := ih (fun h => hno (List.mem_cons_of_mem _ h)) (by simpa using hlen)
    rw [List.cons_append, fgets, if_neg hch, hrec]
    simp only [List.length_cons, Nat.add_lt_add_iff_right]
    split_ifs <;> rfl

theorem pieces_of_fits {size : ℕ} {text : Bytes} (hne : text ≠ []) (hno : newline ∉ text)
    (hlen : text.length ≤ size) : pieces size text = [text] := by
  rw [pieces, fgets_of_fits hno hlen, if_neg hne, pieces_nil]

theorem pieces_newline {size : ℕ} (h : 0 < size) (rest : Bytes) :
    pieces size (newline :: rest) = [newline] :: pieces size rest := by
  obtain ⟨k, rfl⟩ := Nat.exists_eq_succ_of_ne_zero h.ne'
  rw [pieces, fgets, if_pos rfl, if_neg (List.cons_ne_nil _ _)]

/-- **A line that fits the buffer is one piece**, with its newline or in front of it. -/
theorem pieces_line {size : ℕ} {line : Bytes} (rest : Bytes) (hne : line ≠ []) (hno : newline ∉ line)
    (hlen : line.length ≤ size) :
    pieces size (line ++ newline :: rest)
      = (if line.length < size then [line ++ [newline]] else [line, [newline]]) ++ pieces size rest := by
  have hsize : 0 < size := (List.length_pos_of_ne_nil hne).trans_le hlen
  by_cases hlt : line.length < size
  · rw [pieces, fgets_line rest hno hlen, if_pos hlt, if_pos hlt, if_neg (by simp)]
    rfl
  · rw [pieces, fgets_line rest hno hlen, if_neg hlt, if_neg hlt, if_neg hne, pieces_newline hsize]
    rfl

end EuhatExpert.Machinery
