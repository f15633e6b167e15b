import EuhatExpert.Common.JyList
import EuhatExpert.Machinery.Decimal

/-!
# Expert/WorkSpan — the working hours, kept in a file

A `WorkSpan` is saved as a line of four cells.  **A saved list is loaded again exactly when the stream it
is saved through lets every text through whole** (`saved_iff`): a text with a Ctrl-Z ends the file where
newlines are translated, and its entry and those behind it are gone.
-/

namespace EuhatExpert

open Machinery

/-- `atoi` of MSVC, which stops at the bounds of an `int`; C leaves open what comes of a number beyond them. -/
def atoi (text : Bytes) : Int32 := Int32.ofInt (max (-2 ^ 31) (min (2 ^ 31 - 1) (readInt text)))

/-- A span of work, and when it is looked at. -/
structure WorkSpan where
  beginSecs_ : Int32
  startTime_ : Bytes
  endTime_ : Bytes
  untilSecs_ : Int32
  deriving DecidableEq

namespace WorkSpan

/-- `load`, of the cells of a line. -/
def load : List Bytes → Option WorkSpan
  | cell0 :: cell1 :: cell2 :: cell3 :: _ => some ⟨atoi cell0, cell1, cell2, atoi cell3⟩
  | _ => none

/-- `save`: the cells, with a separator between them. -/
def save (split : UInt8) (ws : WorkSpan) : Bytes :=
  printInt ws.beginSecs_.toInt ++ split :: (cstr ws.startTime_ ++ split ::
    (cstr ws.endTime_ ++ split :: printInt ws.untilSecs_.toInt))

instance : JyListItem WorkSpan where
  load := load
  save := save

/-- Texts without a comma, a newline or a NUL, short enough for one line. -/
structure OneLine (ws : WorkSpan) : Prop where
  start : ∀ ch ∈ ws.startTime_, ch ≠ JyList.comma ∧ ch ≠ newline ∧ ch ≠ 0
  stop : ∀ ch ∈ ws.endTime_, ch ≠ JyList.comma ∧ ch ≠ newline ∧ ch ≠ 0
  length : (ws.save JyList.comma).length ≤ 2046

/-- The span `EuhatBase::load` starts with where there is no file. -/
def workday : WorkSpan := ⟨30 * 60, ofAscii "08:30:00", ofAscii "17:30:00", 2 * 60 * 60⟩

/-! ## The text of a span -/

/-- **A number is read as it was printed.** -/
theorem atoi_printInt (v : Int32) : atoi (printInt v.toInt) = v := by
  have hlo := v.le_toInt
  have hhi := v.toInt_lt
  rw [atoi, readInt_printInt, min_eq_right (by omega), max_eq_right (by omega), Int32.ofInt_toInt]

/-- No separator and nothing that ends a line or a text is in the text of an integer. -/
theorem mem_printInt_ne {v : ℤ} {ch : UInt8} (h : ch ∈ printInt v) :
    ch ≠ JyList.comma ∧ ch ≠ newline ∧ ch ≠ 0 ∧ ch ≠ ctrlZ := by
  rcases mem_printInt h with rfl | hd
  · decide
  · refine ⟨?_, ?_, ?_, ?_⟩ <;>
    · rintro rfl
      exact absurd hd (by decide)

/-- No number is longer than the buffer it is printed in. -/
theorem length_printInt_toInt_le (v : Int32) : (printInt v.toInt).length ≤ 11 := by
  have hlo := v.le_toInt
  have hhi := v.toInt_lt
  exact length_printInt_le (k := 10) (by decide) (by omega)

/-- Times of two thousand characters together are short enough. -/
theorem length_save_le (split : UInt8) (ws : WorkSpan) :
    (ws.save split).length ≤ 25 + (ws.startTime_.length + ws.endTime_.length) := by
  have hb := length_printInt_toInt_le ws.beginSecs_
  have hu := length_printInt_toInt_le ws.untilSecs_
  have hs : (cstr ws.startTime_).length ≤ ws.startTime_.length := (List.takeWhile_sublist _).length_le
  have he : (cstr ws.endTime_).length ≤ ws.endTime_.length := (List.takeWhile_sublist _).length_le
  simp only [save, List.length_append, List.length_cons]
  omega

/-- A number does not end a text, -/
theorem unended_printInt (mode : TextMode) (v : ℤ) : Unended mode (printInt v) :=
  fun _ hz => (mem_printInt_ne hz).2.2.2 rfl

/-- nor does the comma. -/
theorem unended_comma (mode : TextMode) : Unended mode [JyList.comma] := fun _ => by decide

section OneLine

variable {ws : WorkSpan} (h : ws.OneLine)

include h

/-- A span on one line is saved as its cells. -/
theorem OneLine.save_eq :
    ws.save JyList.comma = printInt ws.beginSecs_.toInt ++ JyList.comma :: (ws.startTime_ ++ JyList.comma ::
      (ws.endTime_ ++ JyList.comma :: printInt ws.untilSecs_.toInt)) := by
  rw [save, cstr_eq_self fun h0 => (h.start 0 h0).2.2 rfl, cstr_eq_self fun h0 => (h.stop 0 h0).2.2 rfl]

/-- No byte of it ends the line. -/
theorem OneLine.mem_save {ch : UInt8} (hch : ch ∈ ws.save JyList.comma) : ch ≠ newline ∧ ch ≠ 0 := by
  rw [h.save_eq] at hch
  simp only [List.mem_append, List.mem_cons] at hch
  rcases hch with hb | rfl | hs | rfl | he | rfl | hu
  · exact ⟨(mem_printInt_ne hb).2.1, (mem_printInt_ne hb).2.2.1⟩
  · decide
  · exact (h.start ch hs).2
  · decide
  · exact (h.stop ch he).2
  · decide
  · exact ⟨(mem_printInt_ne hu).2.1, (mem_printInt_ne hu).2.2.1⟩

/-- The cells of a line are what was printed. -/
theorem OneLine.loadLine_save : JyList.loadLine JyList.comma (ws.save JyList.comma) = some ws := by
  have hcells : splitTokenString (ws.save JyList.comma) JyList.comma
      = [printInt ws.beginSecs_.toInt, ws.startTime_, ws.endTime_, printInt ws.untilSecs_.toInt] := by
    rw [splitTokenString, h.save_eq,
      List.splitOn_append_cons_self_of_not_mem fun hc => (mem_printInt_ne hc).1 rfl,
      List.splitOn_append_cons_self_of_not_mem fun hc => (h.start _ hc).1 rfl,
      List.splitOn_append_cons_self_of_not_mem fun hc => (h.stop _ hc).1 rfl,
      List.splitOn_eq_singleton fun hc => (mem_printInt_ne hc).1 rfl]
  rw [JyList.loadLine, hcells]
  change some (WorkSpan.mk _ _ _ _) = some ws
  rw [atoi_printInt, atoi_printInt]

/-- The text of a span is whole when its times are. -/
theorem OneLine.unended_save (mode : TextMode) :
    Unended mode (ws.save JyList.comma) ↔ Unended mode ws.startTime_ ∧ Unended mode ws.endTime_ := by
  have hcell : ∀ text : Bytes, Unended mode (JyList.comma :: text) ↔ Unended mode text := fun text => by
    rw [← List.singleton_append, unended_append, and_iff_right (unended_comma mode)]
  have hprint := fun v => iff_true_intro (unended_printInt mode v)
  rw [h.save_eq, unended_append, hcell, unended_append, hcell, unended_append, hcell, hprint, hprint, true_and,
    and_true]

/-- **A line cut short has three cells at most**, and gives no entry. -/
theorem OneLine.loadLine_cut (hz : ctrlZ ∈ ws.save JyList.comma) :
    JyList.loadLine (T := WorkSpan) JyList.comma (legible .crlf (ws.save JyList.comma)) = none := by
  have hnot : ¬ (Unended .crlf ws.startTime_ ∧ Unended .crlf ws.endTime_) := fun hw =>
    (h.unended_save .crlf).mpr hw rfl hz
  have hstart {text : Bytes} (hsub : text.Sublist ws.startTime_) : JyList.comma ∉ text := fun hc =>
    (h.start _ (hsub.subset hc)).1 rfl
  have hstop {text : Bytes} (hsub : text.Sublist ws.endTime_) : JyList.comma ∉ text := fun hc =>
    (h.stop _ (hsub.subset hc)).1 rfl
  have happend : ∀ {text : Bytes}, Unended .crlf text → ∀ rest : Bytes,
      legible .crlf (text ++ JyList.comma :: rest) = text ++ JyList.comma :: legible .crlf rest := by
    intro text hw rest
    rw [legible_append hw, ← List.singleton_append, legible_append (unended_comma _), List.singleton_append]
  rw [h.save_eq, happend (unended_printInt _ _), JyList.loadLine, splitTokenString,
    List.splitOn_append_cons_self_of_not_mem fun hc => (mem_printInt_ne hc).1 rfl]
  by_cases hs : Unended .crlf ws.startTime_
  · have he : ¬ Unended .crlf ws.endTime_ := fun he => hnot ⟨hs, he⟩
    rw [happend hs, legible_append_of_not he,
      List.splitOn_append_cons_self_of_not_mem (hstart (List.Sublist.refl _)),
      List.splitOn_eq_singleton (hstop (legible_sublist _ _))]
    rfl
  · rw [legible_append_of_not hs, List.splitOn_eq_singleton (hstart (legible_sublist _ _))]
    rfl

/-- **It is a line that is read as it was saved.** -/
theorem OneLine.savesLine : JyList.SavesLine JyList.comma ws where
  ne_nil := fun hnil => by
    have hlen := congrArg List.length (h.save_eq.symm.trans hnil)
    simp at hlen
  one_line := fun hn => (h.mem_save hn).1 rfl
  no_nul := fun h0 => (h.mem_save h0).2 rfl
  length := h.length
  loads := h.loadLine_save
  cut := h.loadLine_cut

end OneLine

/-- **What is loaded of a saved list**: the entries in front of the first that has a Ctrl-Z where newlines
are translated, all of them where they are not. -/
theorem load_save (mode : TextMode) (spans : List WorkSpan) (h : ∀ ws ∈ spans, ws.OneLine) {opens : Bool}
    {file file' : Option Bytes} (hsave : (JyList.ofList spans).save mode opens file = (true, file'))
    (old : List WorkSpan) :
    (JyList.ofList old).load mode file'
      = (true, JyList.ofList (spans.takeWhile fun ws => Unended mode (ws.save JyList.comma))) :=
  JyList.load_save mode rfl spans (fun ws hws => (h ws hws).savesLine) hsave old

/-- **A saved list is loaded again exactly when its texts go through the stream whole.** -/
theorem saved_iff (mode : TextMode) (spans : List WorkSpan) (h : ∀ ws ∈ spans, ws.OneLine) {opens : Bool}
    {file file' : Option Bytes} (hsave : (JyList.ofList spans).save mode opens file = (true, file'))
    (old : List WorkSpan) :
    (JyList.ofList old).load mode file' = (true, JyList.ofList spans)
      ↔ (mode = .crlf → ∀ ws ∈ spans, ctrlZ ∉ ws.startTime_ ∧ ctrlZ ∉ ws.endTime_) := by
  have hall : (spans.takeWhile fun ws => Unended mode (ws.save JyList.comma)) = spans
      ↔ ∀ ws ∈ spans, Unended mode ws.startTime_ ∧ Unended mode ws.endTime_ := by
    rw [List.takeWhile_eq_self_iff]
    exact forall₂_congr fun ws hws => decide_eq_true_iff.trans ((h ws hws).unended_save mode)
  rw [load_save mode spans h hsave old, Prod.mk.injEq, and_iff_right rfl, JyList.ofList, JyList.ofList,
    JyList.mk.injEq, and_iff_left rfl, hall]
  exact ⟨fun hw hm ws hws => ⟨(hw ws hws).1 hm, (hw ws hws).2 hm⟩,
    fun hw ws hws => ⟨fun hm => (hw hm ws hws).1, fun hm => (hw hm ws hws).2⟩⟩

theorem oneLine_of_texts {ws : WorkSpan}
    (hstart : (ws.startTime_.all fun ch => ch ≠ JyList.comma ∧ ch ≠ newline ∧ ch ≠ 0) = true)
    (hend : (ws.endTime_.all fun ch => ch ≠ JyList.comma ∧ ch ≠ newline ∧ ch ≠ 0) = true)
    (hlen : ws.startTime_.length + ws.endTime_.length ≤ 2000) : ws.OneLine where
  start ch hch := by simpa using List.all_eq_true.mp hstart ch hch
  stop ch hch := by simpa using List.all_eq_true.mp hend ch hch
  length := (length_save_le _ _).trans (by omega)

/-- The first day's span, and one behind it with an empty text and numbers below zero. -/
theorem saved_workday :
    ∃ file', (JyList.ofList [workday, ⟨-5400, [], ofAscii "20:00:00", -1⟩]).save .crlf true none = (true, file')
      ∧ (JyList.ofList []).load .crlf file' = (true, JyList.ofList [workday, ⟨-5400, [], ofAscii "20:00:00", -1⟩]) := by
  have hsave : (JyList.ofList [workday, ⟨-5400, [], ofAscii "20:00:00", -1⟩]).save .crlf true none
      = (true, some (stored .crlf (JyList.ofList [workday, ⟨-5400, [], ofAscii "20:00:00", -1⟩]).text)) := rfl
  refine ⟨_, hsave, (saved_iff .crlf _ (fun ws hws => ?_) hsave []).mpr fun _ => by decide⟩
  obtain rfl | hws := List.mem_cons.mp hws
  · exact oneLine_of_texts (by decide) (by decide) (by decide)
  · rw [List.mem_singleton.mp hws]
    exact oneLine_of_texts (by decide) (by decide) (by decide)

/-- A start that is a Ctrl-Z is saved, and nothing is loaded. -/
theorem lost_at_ctrlZ : ∃ ws : WorkSpan, ws.OneLine ∧ ∃ file',
    (JyList.ofList [ws]).save .crlf true none = (true, file')
      ∧ (JyList.ofList []).load .crlf file' ≠ (true, JyList.ofList [ws]) := by
  obtain ⟨ws, hws, hstart⟩ : ∃ ws : WorkSpan, ws.OneLine ∧ ws.startTime_ = [ctrlZ] :=
    ⟨⟨0, [ctrlZ], [], 0⟩, oneLine_of_texts (by decide) (by decide) (by decide), rfl⟩
  have hsave : (JyList.ofList [ws]).save .crlf true none
      = (true, some (stored .crlf (JyList.ofList [ws]).text)) := rfl
  refine ⟨ws, hws, _, hsave, ?_⟩
  have hmem : ∀ x ∈ [ws], x.OneLine := fun x hx => List.mem_singleton.mp hx ▸ hws
  have hnot : ¬ Unended .crlf (ws.save JyList.comma) := fun hw =>
    absurd ((hws.unended_save .crlf).mp hw).1 (hstart ▸ by decide)
  rw [load_save .crlf [ws] hmem hsave [], List.takeWhile_cons_of_neg (by simpa using hnot)]
  exact fun h => List.cons_ne_nil ws [] (congrArg JyList.list_ (Prod.mk.inj h).2).symm

end WorkSpan

end EuhatExpert
