import EuhatExpert.Dbop.DbOpSqliteTable
import EuhatExpert.Machinery.Run

/-!
# Dbop/DbOpIni — sections, keys and values in a table

`write` deletes the row of a pair and inserts a new one, `readStr` selects it.  The insertion binds the
strings, the deletion and the query splice them into the statement between quotes, so the two sides mean
the same pair only as long as there is no quote in it (`isMap_of_run`).
-/

namespace EuhatExpert

open Machinery

/-- A C string. -/
abbrev Text := { bs : Bytes // (0 : UInt8) ∉ bs }

namespace DbOpIni

/-- `tab_`. -/
def tab_ : DbOpSqliteTable := ⟨"Config", ["rowid", "section", "key", "val"]⟩

variable (db : Sqlite)

def write (section_ key val : Bytes) (tab : List IniRow) : List IniRow :=
  let sql := ofAscii ("delete from " ++ tab_.tableName_ ++ " where section = '") ++
    (section_ ++ (ofAscii "' and key = '" ++ (key ++ ofAscii "'")))
  tab_.insert db [[], section_, key, val] (db.run sql tab)

def readStr (section_ key defaultVal : Bytes) (tab : List IniRow) : Bytes :=
  match tab_.select db (whereText section_ key) tab with
  | [] => defaultVal
  | row :: _ => row.val

/-! ## One call -/

theorem insert_eq (section_ key val : Bytes) (tab : List IniRow) :
    tab_.insert db [[], section_, key, val] tab = tab ++ [⟨section_, key, val⟩] := by
  have hsql : ofAscii tab_.insertSql = Sqlite.insertText := by decide
  have hbound : (((tab_.cols_.zip [[], section_, key, val]).filter
      fun cell => cell.1 ≠ "rowid").map Prod.snd) = [section_, key, val] := rfl
  rw [DbOpSqliteTable.insert, hbound, hsql, Sqlite.stepBound]
  exact if_pos rfl

theorem write_eq {section_ key : Bytes} (hs : quote ∉ section_) (hk : quote ∉ key) (val : Bytes)
    (tab : List IniRow) : write db section_ key val tab
      = (tab.filter fun row => ¬ row.IsOf section_ key) ++ [⟨section_, key, val⟩] := by
  have hsql : ofAscii ("delete from " ++ tab_.tableName_ ++ " where section = '") ++
      (section_ ++ (ofAscii "' and key = '" ++ (key ++ ofAscii "'")))
        = Sqlite.deleteText ++ whereText section_ key := rfl
  rw [write, insert_eq, hsql, Sqlite.run, afterWord_append, Option.bind_some, whereOf_whereText hs hk]

theorem readStr_eq {section_ key : Bytes} (hs : quote ∉ section_) (hk : quote ∉ key) (defaultVal : Bytes)
    (tab : List IniRow) : readStr db section_ key defaultVal tab
      = ((tab.filter (IniRow.IsOf section_ key)).map IniRow.val).head?.getD defaultVal := by
  have hsql : ofAscii tab_.selectSql = Sqlite.selectText := by decide
  rw [readStr, DbOpSqliteTable.select, hsql, Sqlite.query, afterWord_append, Option.bind_some,
    whereOf_whereText hs hk]
  dsimp only
  cases tab.filter (IniRow.IsOf section_ key) with
  | nil => rfl
  | cons row rows => rfl

end DbOpIni

/-! ## Runs -/

/-- A call, and what `readStr` returned. -/
inductive IniCall
  | write (section_ key val : Text)
  | readStr (section_ key defaultVal : Text) (result : Bytes)

namespace DbOpIni

inductive Step (db : Sqlite) : List IniRow → IniCall → List IniRow → Prop
  | write (tab : List IniRow) (section_ key val : Text) :
      Step db tab (.write section_ key val) (DbOpIni.write db section_.val key.val val.val tab)
  | readStr (tab : List IniRow) (section_ key defaultVal : Text) :
      Step db tab (.readStr section_ key defaultVal
        (DbOpIni.readStr db section_.val key.val defaultVal.val tab)) tab

/-- What the latest of some calls wrote to a pair. -/
def latest (calls : List IniCall) (section_ key : Bytes) : Option Bytes :=
  calls.foldl (fun found c => match c with
    | .write s k val => if s.val = section_ ∧ k.val = key then some val.val else found
    | .readStr .. => found) none

/-- Every read returns what the latest write to its own pair wrote, or the default, and no pair has
two rows. -/
structure IsMap (calls : List IniCall) (tab : List IniRow) : Prop where
  reads : ∀ before section_ key defaultVal result after,
    calls = before ++ .readStr section_ key defaultVal result :: after →
      result = (latest before section_.val key.val).getD defaultVal.val
  oneRow : ∀ section_ key, (tab.filter (IniRow.IsOf section_ key)).length ≤ 1

/-- A call with a quote neither in its section nor in its key. -/
def Plain : IniCall → Prop
  | .write section_ key _ => quote ∉ section_.val ∧ quote ∉ key.val
  | .readStr section_ key _ _ => quote ∉ section_.val ∧ quote ∉ key.val

/-- The rows of a pair are what was written to it last. -/
def Holds (calls : List IniCall) (tab : List IniRow) : Prop :=
  ∀ section_ key, (tab.filter (IniRow.IsOf section_ key)).map IniRow.val
    = (latest calls section_ key).toList

variable {db : Sqlite} {calls : List IniCall} {tab tab' : List IniRow} {c : IniCall}

theorem latest_concat (calls : List IniCall) (c : IniCall) (section_ key : Bytes) :
    latest (calls ++ [c]) section_ key = match c with
      | .write s k val =>
        if s.val = section_ ∧ k.val = key then some val.val else latest calls section_ key
      | .readStr .. => latest calls section_ key := by
  rw [latest, List.foldl_append]
  rfl

/-- **A call without quotes keeps the rows what was written last.** -/
theorem Holds.step (h : Holds calls tab) (hstep : Step db tab c tab') (hplain : Plain c) :
    Holds (calls ++ [c]) tab' := by
  intro section_ key
  rw [latest_concat]
  cases hstep with
  | write s k val =>
    dsimp only
    rw [write_eq db hplain.1 hplain.2, List.filter_append, List.filter_filter, List.map_append]
    by_cases hpair : s.val = section_ ∧ k.val = key
    · have hold : tab.filter (fun row => decide (row.IsOf section_ key) && decide (¬ row.IsOf s.val k.val))
          = [] := by
        rw [List.filter_eq_nil_iff, hpair.1, hpair.2]
        intro row _
        simp
      have hnew : [IniRow.mk s.val k.val val.val].filter (IniRow.IsOf section_ key)
          = [⟨s.val, k.val, val.val⟩] := List.filter_eq_self.mpr fun row hrow => by
        rw [List.mem_singleton.mp hrow]
        exact decide_eq_true hpair
      rw [hold, hnew, if_pos hpair]
      rfl
    · have hold : tab.filter (fun row => decide (row.IsOf section_ key) && decide (¬ row.IsOf s.val k.val))
          = tab.filter (IniRow.IsOf section_ key) := by
        refine List.filter_congr fun row _ => ?_
        by_cases hrow : row.IsOf section_ key
        · have hne : ¬ row.IsOf s.val k.val := fun h =>
            hpair ⟨h.1.symm.trans hrow.1, h.2.symm.trans hrow.2⟩
          simp [hrow, hne]
        · simp [hrow]
      have hnew : [IniRow.mk s.val k.val val.val].filter (IniRow.IsOf section_ key) = [] := by
        rw [List.filter_eq_nil_iff]
        intro row hrow
        rw [List.mem_singleton.mp hrow]
        exact fun h => hpair (of_decide_eq_true h)
      rw [hold, hnew, if_neg hpair, List.map_nil, List.append_nil]
      exact h section_ key
  | readStr s k d => exact h section_ key

theorem Step.readStr_of_eq {section_ key defaultVal : Text} {result : Bytes}
    (h : DbOpIni.readStr db section_.val key.val defaultVal.val tab = result) :
    Step db tab (.readStr section_ key defaultVal result) tab := by
  rw [← h]
  exact .readStr tab section_ key defaultVal

/-- **What a read without quotes returns is what was written last, or the default.** -/
theorem Holds.readStr_eq (h : Holds calls tab) {section_ key : Bytes} (hs : quote ∉ section_)
    (hk : quote ∉ key) (defaultVal : Bytes) :
    readStr db section_ key defaultVal tab = (latest calls section_ key).getD defaultVal := by
  rw [DbOpIni.readStr_eq db hs hk, h section_ key]
  cases latest calls section_ key with
  | none => rfl
  | some val => rfl

/-- The reads of a run are right. -/
def ReadsRight (calls : List IniCall) : Prop :=
  ∀ before section_ key defaultVal result after,
    calls = before ++ .readStr section_ key defaultVal result :: after →
      result = (latest before section_.val key.val).getD defaultVal.val

theorem ReadsRight.step (h : ReadsRight calls) (hold : Holds calls tab) (hstep : Step db tab c tab')
    (hplain : Plain c) : ReadsRight (calls ++ [c]) := by
  intro before section_ key defaultVal result after hcalls
  rcases split_of_concat hcalls with ⟨rfl, rfl⟩ | ⟨after, hcalls⟩
  · cases hstep
    exact hold.readStr_eq hplain.1 hplain.2 defaultVal.val
  · exact h before section_ key defaultVal result after hcalls

/-- **In a run whose calls have no quote in a section or a key, the table is a map.** -/
theorem isMap_of_run (h : Run (restrict (Step db) fun _ c => Plain c) [] calls tab) : IsMap calls tab := by
  have hinv : Holds calls tab ∧ ReadsRight calls := by
    refine h.invariant_hist (I := fun calls tab => Holds calls tab ∧ ReadsRight calls)
      ⟨fun _ _ => rfl, ?_⟩ ?_
    · intro before section_ key defaultVal result after hcalls
      simp at hcalls
    · rintro calls tab c tab' ⟨hold, hreads⟩ ⟨hstep, hplain⟩
      exact ⟨hold.step hstep hplain, hreads.step hold hstep hplain⟩
  refine ⟨hinv.2, fun section_ key => ?_⟩
  rw [← List.length_map IniRow.val, hinv.1 section_ key]
  cases latest calls section_ key with
  | none => exact Nat.zero_le 1
  | some val => exact le_rfl

/-- A SQLite that does nothing with any other statement. -/
def noOther : Sqlite := ⟨fun _ tab => tab, fun _ _ => []⟩

/-- A section without quotes. -/
def fileServer : Text := ⟨ofAscii "fileServer", by decide⟩

def port : Text := ⟨ofAscii "port", by decide⟩

/-- A port written twice, and read. -/
def writtenTwice : List IniCall :=
  [.write fileServer port ⟨[49], by decide⟩, .write fileServer port ⟨[50], by decide⟩,
    .readStr fileServer port ⟨[], by decide⟩ [50]]

/-- **A port written twice is read as it was written last.** -/
theorem writtenTwice_isMap : ∃ tab,
    Run (restrict (Step noOther) fun _ c => Plain c) [] writtenTwice tab ∧ IsMap writtenTwice tab := by
  have hplain : quote ∉ fileServer.val ∧ quote ∉ port.val := by decide
  have hread : DbOpIni.readStr noOther fileServer.val port.val []
      (DbOpIni.write noOther fileServer.val port.val [50]
        (DbOpIni.write noOther fileServer.val port.val [49] [])) = [50] := by decide +kernel
  have hrun : Run (restrict (Step noOther) fun _ c => Plain c) [] writtenTwice _ :=
    ((Run.nil.snoc ⟨.write [] fileServer port ⟨[49], by decide⟩, hplain⟩).snoc
      ⟨.write _ fileServer port ⟨[50], by decide⟩, hplain⟩).snoc ⟨.readStr_of_eq hread, hplain⟩
  exact ⟨_, hrun, isMap_of_run hrun⟩

/-- A section with two quotes in a row. -/
def twoQuotes : Text := ⟨ofAscii "fileMan_a''b", by decide⟩

/-- A value written to it, and read. -/
def writtenQuoted : List IniCall :=
  [.write twoQuotes port ⟨[49], by decide⟩, .readStr twoQuotes port ⟨[], by decide⟩ []]

/-- **What is written to a section with two quotes in a row is not read back.** -/
theorem twoQuotes_not_isMap :
    ∃ tab, Run (Step noOther) [] writtenQuoted tab ∧ ¬ IsMap writtenQuoted tab := by
  have hread : DbOpIni.readStr noOther twoQuotes.val port.val []
      (DbOpIni.write noOther twoQuotes.val port.val [49] []) = [] := by decide +kernel
  have hrun : Run (Step noOther) [] writtenQuoted _ :=
    (Run.nil.snoc (.write [] twoQuotes port ⟨[49], by decide⟩)).snoc (.readStr_of_eq hread)
  refine ⟨_, hrun, fun h => ?_⟩
  have hright := h.reads [.write twoQuotes port ⟨[49], by decide⟩] twoQuotes port ⟨[], by decide⟩ [] [] rfl
  exact absurd hright (by decide)

end DbOpIni

end EuhatExpert
