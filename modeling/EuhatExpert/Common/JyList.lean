import EuhatExpert.FileMan.EuhatPath
import EuhatExpert.Machinery.TextStream

/-!
# Common/JyList — lists kept in text files

`JyList` writes its entries one a line and reads them back by lines of a fixed buffer, each split at
`split_`; a line that gives no entry is passed over.  Of a list whose entries save lines that give them
back, the entries in front of the first whose text does not go through the stream whole are read back
(`load_save`).
-/

namespace EuhatExpert

open Machinery

/-- The text of a C string: what stands in front of its first NUL. -/
def cstr (text : Bytes) : Bytes := text.takeWhile fun ch => ch ≠ 0

/-- What a `JyList` asks of its entries: `load` of the cells of a line, and the text `save` prints. -/
class JyListItem (T : Type) where
  load : List Bytes → Option T
  save : UInt8 → T → Bytes

/-- The characters one `fgets` of `readLinesFromFile` reads at most. -/
def lineRoom : ℕ := 2048 - 1 - 1

/-- The line in `buf`: a newline in it ends it. -/
def lineOf (buf : Bytes) : Bytes := (cstr buf).takeWhile fun ch => ch ≠ newline

/-- The lines of a text. -/
def textLines (text : Bytes) : List Bytes := (pieces lineRoom text).map lineOf

/-- `readLinesFromFile`, of a file that may not be there. -/
def readLinesFromFile (mode : TextMode) (file : Option Bytes) : Option (List Bytes) :=
  file.map fun bytes => textLines (shown mode bytes)

/-- `JyList<T>`, without its `filePath_`. -/
structure JyList (T : Type) where
  list_ : List T
  split_ : UInt8

namespace JyList

variable {T : Type} [JyListItem T]

def comma : UInt8 := 44

/-- `JyList()`, with entries put in its `list_`. -/
def ofList (items : List T) : JyList T := ⟨items, comma⟩

/-- The entry a line gives. -/
def loadLine (split : UInt8) (line : Bytes) : Option T := JyListItem.load (splitTokenString line split)

def load (mode : TextMode) (file : Option Bytes) (l : JyList T) : Bool × JyList T :=
  match readLinesFromFile mode file with
  | none => (false, { l with list_ := [] })
  | some lines => (true, { l with list_ := lines.filterMap (loadLine l.split_) })

/-- What `save` prints. -/
def text (l : JyList T) : Bytes := l.list_.flatMap fun t => JyListItem.save l.split_ t ++ [newline]

/-- `save`, where `opens` says whether the file can be opened for writing. -/
def save (mode : TextMode) (opens : Bool) (l : JyList T) (file : Option Bytes) : Bool × Option Bytes :=
  if opens then (true, some (stored mode l.text)) else (false, file)

/-- The text of `t` is a line that gives `t` back, and none when a Ctrl-Z cuts it short. -/
structure SavesLine (split : UInt8) (t : T) : Prop where
  ne_nil : JyListItem.save split t ≠ []
  one_line : newline ∉ JyListItem.save split t
  no_nul : 0 ∉ JyListItem.save split t
  length : (JyListItem.save split t).length ≤ lineRoom
  loads : loadLine split (JyListItem.save split t) = some t
  cut : ctrlZ ∈ JyListItem.save split t →
    loadLine (T := T) split (legible .crlf (JyListItem.save split t)) = none

end JyList

/-! ## Lines are read back -/

theorem cstr_eq_self {text : Bytes} (h : 0 ∉ text) : cstr text = text := by
  refine List.takeWhile_eq_self_iff.mpr fun ch hch => ?_
  have : ch ≠ 0 := fun h0 => h (h0 ▸ hch)
  simpa using this

theorem lineOf_eq_self {line : Bytes} (hno : newline ∉ line) (hnul : 0 ∉ line) : lineOf line = line := by
  rw [lineOf, cstr_eq_self hnul]
  refine List.takeWhile_eq_self_iff.mpr fun ch hch => ?_
  have : ch ≠ newline := fun h => hno (h ▸ hch)
  simpa using this

theorem lineOf_newline {line : Bytes} (hno : newline ∉ line) (hnul : 0 ∉ line) :
    lineOf (line ++ [newline]) = line := by
  have hz : (0 : UInt8) ∉ line ++ [newline] := by
    simpa [newline] using hnul
  rw [lineOf, cstr_eq_self hz, List.takeWhile_append_of_pos]
  · simp
  · intro ch hch
    have : ch ≠ newline := fun h => hno (h ▸ hch)
    simpa using this

/-- A line is read, and an empty one behind it when its newline does not fit the buffer. -/
theorem textLines_line {line : Bytes} (rest : Bytes) (hne : line ≠ []) (hno : newline ∉ line)
    (hnul : 0 ∉ line) (hlen : line.length ≤ lineRoom) :
    textLines (line ++ newline :: rest)
      = (if line.length < lineRoom then [line] else [line, []]) ++ textLines rest := by
  rw [textLines, pieces_line rest hne hno hlen, List.map_append, ← textLines]
  split_ifs
  · rw [List.map_singleton, lineOf_newline hno hnul]
  · rw [List.map_cons, List.map_singleton, lineOf_eq_self hno hnul]
    rfl

theorem textLines_of_fits {text : Bytes} (hne : text ≠ []) (hno : newline ∉ text) (hnul : 0 ∉ text)
    (hlen : text.length ≤ lineRoom) : textLines text = [text] := by
  rw [textLines, pieces_of_fits hne hno hlen, List.map_singleton, lineOf_eq_self hno hnul]

namespace JyList

variable {T : Type} [JyListItem T] {split : UInt8} {t : T}

/-- The entry a line gives stands in front of those of the lines behind it. -/
theorem SavesLine.load_line (ht : SavesLine split t) (hblank : loadLine (T := T) split [] = none)
    (rest : Bytes) :
    (textLines (JyListItem.save split t ++ newline :: rest)).filterMap (loadLine split)
      = t :: (textLines rest).filterMap (loadLine split) := by
  rw [textLines_line rest ht.ne_nil ht.one_line ht.no_nul ht.length, List.filterMap_append]
  split_ifs
  · simp [ht.loads]
  · simp [ht.loads, hblank]

/-- A text cut short gives no entry. -/
theorem SavesLine.load_cut (ht : SavesLine split t) (hz : ctrlZ ∈ JyListItem.save split t) :
    (textLines (legible .crlf (JyListItem.save split t))).filterMap (loadLine (T := T) split) = [] := by
  have hsub := legible_sublist .crlf (JyListItem.save split t)
  rcases eq_or_ne (legible .crlf (JyListItem.save split t)) [] with hnil | hne
  · rw [hnil, textLines, pieces_nil]
    rfl
  · rw [textLines_of_fits hne (fun h => ht.one_line (hsub.subset h)) (fun h => ht.no_nul (hsub.subset h))
      (hsub.length_le.trans ht.length)]
    simp [ht.cut hz]

theorem text_cons (items : List T) :
    (⟨t :: items, split⟩ : JyList T).text
      = JyListItem.save split t ++ newline :: (⟨items, split⟩ : JyList T).text := by
  simp [text]

/-- **The entries in front of the first text that is not whole are read back**, in their order. -/
theorem load_legible (mode : TextMode) (hblank : loadLine (T := T) split [] = none) (items : List T)
    (h : ∀ t ∈ items, SavesLine split t) :
    (textLines (legible mode (⟨items, split⟩ : JyList T).text)).filterMap (loadLine split)
      = items.takeWhile fun t => Unended mode (JyListItem.save split t) := by
  induction items with
  | nil => cases mode <;> simp [text, legible, textLines, pieces_nil]
  | cons t items ih =>
    have ht := h t List.mem_cons_self
    rw [text_cons]
    by_cases hw : Unended mode (JyListItem.save split t)
    · have hnew : Unended mode [newline] := fun _ => by decide
      rw [legible_append hw, ← List.singleton_append, legible_append hnew, List.singleton_append,
        ht.load_line hblank, ih fun x hx => h x (List.mem_cons_of_mem _ hx),
        List.takeWhile_cons_of_pos (by simpa using hw)]
    · rw [legible_append_of_not hw, List.takeWhile_cons_of_neg (by simpa using hw)]
      obtain ⟨rfl, hz⟩ := Classical.not_imp.mp hw
      exact ht.load_cut (not_not.mp hz)

/-- **What `load` makes of what `save` wrote.** -/
theorem load_save (mode : TextMode) (hblank : loadLine (T := T) split [] = none) (items : List T)
    (h : ∀ t ∈ items, SavesLine split t) {opens : Bool} {file file' : Option Bytes}
    (hsave : (⟨items, split⟩ : JyList T).save mode opens file = (true, file')) (old : List T) :
    (⟨old, split⟩ : JyList T).load mode file'
      = (true, ⟨items.takeWhile fun t => Unended mode (JyListItem.save split t), split⟩) := by
  cases opens with
  | false => simp [save] at hsave
  | true =>
    obtain rfl : some (stored mode (⟨items, split⟩ : JyList T).text) = file' := (Prod.mk.inj hsave).2
    simp only [load, readLinesFromFile, Option.map_some, shown_stored, load_legible mode hblank items h]

end JyList

end EuhatExpert
