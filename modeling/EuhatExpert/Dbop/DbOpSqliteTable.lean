import EuhatExpert.Machinery.Bytes

/-!
# Dbop/DbOpSqliteTable — statements built from text, and what SQLite reads in them

A table builds its statements from its name and its columns.  Of SQLite, the model has what `DbOpIni` relies on:
an insertion takes the bound values as they are, a condition is read back from the text of the statement,
string literals lexed as documented: two quotes in a literal are one, and a single one ends it
(`lexString`).  What it does with any other statement is left open.
-/

namespace EuhatExpert

open Machinery

/-! ## String literals -/

/-- The quote around a string literal. -/
def quote : UInt8 := 39

/-- The string a literal stands for, read from behind its first quote, and what follows the literal. -/
def lexString : Bytes → Option (Bytes × Bytes)
  | [] => none
  | b :: rest =>
    if b = quote then
      match rest with
      | [] => some ([], [])
      | b' :: rest' =>
        if b' = quote then (lexString rest').map fun lexed => (quote :: lexed.1, lexed.2)
        else some ([], b' :: rest')
    else (lexString rest).map fun lexed => (b :: lexed.1, lexed.2)

/-- **Without a quote in it, a string between quotes is lexed as it is.** -/
theorem lexString_append {str rest : Bytes} (h : quote ∉ str) (hrest : rest.head? ≠ some quote) :
    lexString (str ++ quote :: rest) = some (str, rest) := by
  induction str with
  | nil =>
    rw [List.nil_append, lexString.eq_def]
    dsimp only
    rw [if_pos rfl]
    cases rest with
    | nil => rfl
    | cons b rest =>
      have hb : b ≠ quote := fun hb => hrest (congrArg some hb)
      dsimp only
      rw [if_neg hb]
  | cons b str ih =>
    have hb : b ≠ quote := fun hb => h (hb ▸ List.mem_cons_self)
    rw [List.cons_append, lexString.eq_def]
    dsimp only
    rw [if_neg hb, ih fun hs => h (List.mem_cons_of_mem _ hs)]
    rfl

/-- What follows a word of a statement. -/
def afterWord (word text : Bytes) : Option Bytes :=
  if word <+: text then some (text.drop word.length) else none

theorem afterWord_append (word text : Bytes) : afterWord word (word ++ text) = some text := by
  rw [afterWord, if_pos (List.prefix_append word text), List.drop_left]

/-- The two strings a condition on `section` and `key` compares with. -/
def whereOf (text : Bytes) : Option (Bytes × Bytes) := do
  let text ← afterWord (ofAscii "where section = '") text
  let (section_, text) ← lexString text
  let text ← afterWord (ofAscii " and key = '") text
  let (key, text) ← lexString text
  if text = [] then some (section_, key) else none

/-- A condition with two strings spliced into it. -/
def whereText (section_ key : Bytes) : Bytes :=
  ofAscii "where section = '" ++ (section_ ++ (ofAscii "' and key = '" ++ (key ++ ofAscii "'")))

/-- **Without a quote in them, the strings of a condition are the ones spliced into it.** -/
theorem whereOf_whereText {section_ key : Bytes} (hs : quote ∉ section_) (hk : quote ∉ key) :
    whereOf (whereText section_ key) = some (section_, key) := by
  have hsplit : ofAscii "' and key = '" ++ (key ++ ofAscii "'")
      = quote :: (ofAscii " and key = '" ++ (key ++ ofAscii "'")) := rfl
  have hlast : ofAscii "'" = [quote] := rfl
  have hhead : (ofAscii " and key = '" ++ (key ++ ofAscii "'")).head? ≠ some quote := by
    change some (32 : UInt8) ≠ some quote
    decide
  rw [whereOf, whereText, afterWord_append]
  dsimp only [bind, Option.bind]
  rw [hsplit, lexString_append hs hhead, hlast]
  dsimp only
  rw [afterWord_append]
  dsimp only
  have hend : lexString (key ++ [quote]) = some (key, []) :=
    lexString_append hk (show (none : Option UInt8) ≠ some quote from nofun)
  rw [hend]
  rfl

/-! ## The table -/

structure IniRow where
  section_ : Bytes
  key : Bytes
  val : Bytes
  deriving DecidableEq, Repr

/-- The row of a pair. -/
def IniRow.IsOf (section_ key : Bytes) (row : IniRow) : Prop := row.section_ = section_ ∧ row.key = key

instance (section_ key : Bytes) : DecidablePred (IniRow.IsOf section_ key) :=
  fun _ => inferInstanceAs (Decidable (_ ∧ _))

/-- What SQLite does with the statements that are not read here. -/
structure Sqlite where
  exec : Bytes → List IniRow → List IniRow
  rows : Bytes → List IniRow → List IniRow

namespace Sqlite

variable (db : Sqlite)

/-- `sqlite3_exec`, which reads a deletion. -/
def deleteText : Bytes := ofAscii "delete from Config "

def run (sql : Bytes) (tab : List IniRow) : List IniRow :=
  match (afterWord deleteText sql).bind whereOf with
  | some (section_, key) => tab.filter fun row => ¬ row.IsOf section_ key
  | none => db.exec sql tab

/-- The insertion that is read. -/
def insertText : Bytes := ofAscii "insert into Config(section, key, val) values (?, ?, ?);"

/-- `sqlite3_step` of a statement with bound texts. -/
def stepBound (sql : Bytes) (bound : List Bytes) (tab : List IniRow) : List IniRow :=
  match bound with
  | [section_, key, val] => if sql = insertText then tab ++ [⟨section_, key, val⟩] else db.exec sql tab
  | _ => db.exec sql tab

/-- The query that is read. -/
def selectText : Bytes := ofAscii "select rowid, section, key, val from Config "

/-- The rows of a query, in the order of their row ids. -/
def query (sql : Bytes) (tab : List IniRow) : List IniRow :=
  match (afterWord selectText sql).bind whereOf with
  | some (section_, key) => tab.filter (IniRow.IsOf section_ key)
  | none => db.rows sql tab

end Sqlite

/-- `DbOpSqliteTable`: its name and the names of its columns. -/
structure DbOpSqliteTable where
  tableName_ : String
  cols_ : List String

namespace DbOpSqliteTable

variable (tab_ : DbOpSqliteTable)

/-- The columns that are bound: all but `rowid`. -/
def boundCols : List String := tab_.cols_.filter fun name => name ≠ "rowid"

def insertSql : String :=
  "insert into " ++ tab_.tableName_ ++ "(" ++ ", ".intercalate tab_.boundCols ++ ") values (" ++
    ", ".intercalate (tab_.boundCols.map fun _ => "?") ++ ");"

def selectSql : String :=
  "select " ++ ", ".intercalate tab_.cols_ ++ " from " ++ tab_.tableName_ ++ " "

/-- `insert`: `exePrepare` binds the cells of every column but `rowid`. -/
def insert (db : Sqlite) (cells : List Bytes) (tab : List IniRow) : List IniRow :=
  db.stepBound (ofAscii tab_.insertSql)
    (((tab_.cols_.zip cells).filter fun cell => cell.1 ≠ "rowid").map Prod.snd) tab

def select (db : Sqlite) (where_ : Bytes) (tab : List IniRow) : List IniRow :=
  db.query (ofAscii tab_.selectSql ++ where_) tab

end DbOpSqliteTable

end EuhatExpert
