import EuhatExpert.Dbop.DbOpSqliteTable
import EuhatExpert.Machinery.Intercalate

/-!
# Dbop/SqlText — insertions, updates and queries, read from their text

A statement with parameters is a text, and the values bound to it are known by their positions only.  What
SQLite does with it is said of the columns the text names (`SqlStmt.insert`, `SqlStmt.update`,
`SqlStmt.select`), the `k`-th parameter standing for the `k`-th of them.  A statement is read back from the
text it is written as (`read_insertText`, `read_updateText`, `read_selectText`).
-/

namespace EuhatExpert

open Machinery

/-- A value of a column. -/
inductive SqlValue
  | null
  | int (n : ℤ)
  | text (bs : Bytes)
  | blob (bs : Bytes)
  deriving DecidableEq, Repr

/-- A row: its row id, and its values by the names of the columns. -/
structure SqlRow where
  rowid : ℤ
  col : Bytes → SqlValue

/-- The name of the row id. -/
def rowidName : Bytes := ofAscii "rowid"

/-- The value a query finds. -/
def SqlRow.value (row : SqlRow) (name : Bytes) : SqlValue :=
  if name = rowidName then .int row.rowid else row.col name

/-- A condition `where col = 'lit'`. -/
structure SqlWhere where
  col : Bytes
  lit : Bytes
  deriving DecidableEq, Repr

/-- The rows of a condition. -/
def SqlWhere.Matches (cond : SqlWhere) (row : SqlRow) : Prop := row.value cond.col = .text cond.lit

instance (cond : SqlWhere) : DecidablePred cond.Matches := fun _ => inferInstanceAs (Decidable (_ = _))

/-- The statements that are read. -/
inductive SqlStmt
  | insert (table : Bytes) (cols : List Bytes) (marks : ℕ)
  | update (table : Bytes) (cols : List Bytes) (cond : SqlWhere)
  | select (cols : List Bytes) (table : Bytes) (cond : SqlWhere)
  deriving DecidableEq, Repr

/-! ## Their texts -/

def comma : Bytes := ofAscii ", "

def SqlWhere.text (cond : SqlWhere) : Bytes :=
  ofAscii "where " ++ (cond.col ++ (ofAscii " = '" ++ (cond.lit ++ ofAscii "'")))

/-- What is written, item by item. -/
def listText {α : Type} (item : α → Bytes) (items : List α) : Bytes := comma.intercalate (items.map item)

def insertText (table : Bytes) (cols : List Bytes) : Bytes :=
  ofAscii "insert into " ++ (table ++ (ofAscii "(" ++ (listText id cols ++ (ofAscii ") values (" ++
    (listText (fun _ => ofAscii "?") cols ++ ofAscii ");")))))

def updateText (table : Bytes) (cols : List Bytes) (cond : SqlWhere) : Bytes :=
  ofAscii "update " ++ (table ++ (ofAscii " set " ++ (listText (· ++ ofAscii " = ?") cols ++
    (ofAscii " " ++ cond.text))))

def selectText (cols : List Bytes) (table : Bytes) (cond : SqlWhere) : Bytes :=
  ofAscii "select " ++ (listText id cols ++ (ofAscii " from " ++ (table ++ (ofAscii " " ++ cond.text))))

/-! ## Reading them -/

/-- A letter. -/
def isLetter (b : UInt8) : Bool := (65 ≤ b && b ≤ 90) || (97 ≤ b && b ≤ 122)

/-- A name: letters, as many as there are. -/
def lexName (text : Bytes) : Option (Bytes × Bytes) :=
  if text.takeWhile isLetter = [] then none else some (text.takeWhile isLetter, text.dropWhile isLetter)

/-- A parameter. -/
def lexMark (text : Bytes) : Option (Unit × Bytes) := (afterWord (ofAscii "?") text).map fun text => ((), text)

/-- A column that is set to a parameter. -/
def lexSet (text : Bytes) : Option (Bytes × Bytes) := do
  let (name, text) ← lexName text
  let text ← afterWord (ofAscii " = ?") text
  some (name, text)

/-- Items with commas between them. -/
def lexList {α : Type} (item : Bytes → Option (α × Bytes)) : ℕ → Bytes → Option (List α × Bytes)
  | 0, _ => none
  | fuel + 1, text => do
    let (a, text) ← item text
    match afterWord comma text with
    | none => some ([a], text)
    | some text => do
      let (as, text) ← lexList item fuel text
      some (a :: as, text)

def readWhere (text : Bytes) : Option SqlWhere := do
  let text ← afterWord (ofAscii "where ") text
  let (col, text) ← lexName text
  let text ← afterWord (ofAscii " = '") text
  let (lit, text) ← lexString text
  if text = [] then some ⟨col, lit⟩ else none

def readInsert (sql : Bytes) : Option SqlStmt := do
  let text ← afterWord (ofAscii "insert into ") sql
  let (table, text) ← lexName text
  let text ← afterWord (ofAscii "(") text
  let (cols, text) ← lexList lexName sql.length text
  let text ← afterWord (ofAscii ") values (") text
  let (marks, text) ← lexList lexMark sql.length text
  if text = ofAscii ");" then some (.insert table cols marks.length) else none

def readUpdate (sql : Bytes) : Option SqlStmt := do
  let text ← afterWord (ofAscii "update ") sql
  let (table, text) ← lexName text
  let text ← afterWord (ofAscii " set ") text
  let (cols, text) ← lexList lexSet sql.length text
  let text ← afterWord (ofAscii " ") text
  let cond ← readWhere text
  some (.update table cols cond)

def readSelect (sql : Bytes) : Option SqlStmt := do
  let text ← afterWord (ofAscii "select ") sql
  let (cols, text) ← lexList lexName sql.length text
  let text ← afterWord (ofAscii " from ") text
  let (table, text) ← lexName text
  let text ← afterWord (ofAscii " ") text
  let cond ← readWhere text
  some (.select cols table cond)

/-- The statement a text is. -/
def SqlStmt.read (sql : Bytes) : Option SqlStmt := (readInsert sql <|> readUpdate sql) <|> readSelect sql

/-- A name that is read as one: letters, and not none. -/
structure IsName (name : Bytes) : Prop where
  letters : ∀ b ∈ name, isLetter b = true
  ne_nil : name ≠ []

instance : DecidablePred IsName := fun name =>
  decidable_of_iff (name.all isLetter = true ∧ name ≠ [])
    ⟨fun h => ⟨List.all_eq_true.mp h.1, h.2⟩, fun h => ⟨List.all_eq_true.mpr h.letters, h.ne_nil⟩⟩

/-- No name goes on here. -/
def Stops (text : Bytes) : Prop := ∀ b ∈ text.head?, isLetter b = false

theorem stops_cons {b : UInt8} (h : isLetter b = false) (text : Bytes) : Stops (b :: text) := by
  intro b' hb'
  rw [Option.mem_some_iff.mp hb'] at h
  exact h

theorem lexName_append {name text : Bytes} (h : IsName name) (htext : Stops text) :
    lexName (name ++ text) = some (name, text) := by
  have hstop : text.takeWhile isLetter = [] ∧ text.dropWhile isLetter = text := by
    cases text with
    | nil => exact ⟨rfl, rfl⟩
    | cons b text =>
      have hb := htext b rfl
      exact ⟨List.takeWhile_cons_of_neg (by rw [hb]; decide), List.dropWhile_cons_of_neg (by rw [hb]; decide)⟩
  rw [lexName, List.takeWhile_append_of_pos h.letters, List.dropWhile_append_of_pos h.letters, hstop.1, hstop.2,
    List.append_nil, if_neg h.ne_nil]

theorem lexMark_append (text : Bytes) : lexMark (ofAscii "?" ++ text) = some ((), text) := by
  rw [lexMark, afterWord_append, Option.map_some]

theorem lexSet_append {name : Bytes} (h : IsName name) (text : Bytes) :
    lexSet ((name ++ ofAscii " = ?") ++ text) = some (name, text) := by
  have hstops : Stops (ofAscii " = ?" ++ text) := stops_cons (by decide) _
  rw [lexSet, List.append_assoc, lexName_append h hstops, Option.bind_eq_bind, Option.bind_some]
  dsimp only
  rw [afterWord_append]
  rfl

section Lists

variable {α β : Type} {item : α → Bytes} {lex : Bytes → Option (β × Bytes)} {f : α → β}

theorem listText_cons_cons (item : α → Bytes) (a a' : α) (items : List α) :
    listText item (a :: a' :: items) = item a ++ (comma ++ listText item (a' :: items)) := by
  simp only [listText, List.map_cons, List.intercalate_cons_cons, List.append_assoc]

/-- Items that are not written as nothing. -/
theorem length_le_listText :
    ∀ items : List α, (∀ a ∈ items, item a ≠ []) → items.length ≤ (listText item items).length
  | [], _ => Nat.zero_le _
  | [a], h => by
    rw [listText, List.map_singleton, List.intercalate_singleton]
    exact List.length_pos_of_ne_nil (h a List.mem_cons_self)
  | a :: a' :: items, h => by
    have := length_le_listText (a' :: items) fun b hb => h b (List.mem_cons_of_mem _ hb)
    have := List.length_pos_of_ne_nil (h a List.mem_cons_self)
    rw [listText_cons_cons, List.length_append, List.length_append]
    simp only [List.length_cons] at *
    omega

/-- **A list is read item by item**, up to what follows it. -/
theorem lexList_listText {items : List α} (hne : items ≠ [])
    (hlex : ∀ a ∈ items, ∀ text, Stops text → lex (item a ++ text) = some (f a, text)) (tail : Bytes)
    (htail : Stops tail) (hend : afterWord comma tail = none) {fuel : ℕ} (hfuel : items.length ≤ fuel) :
    lexList lex fuel (listText item items ++ tail) = some (items.map f, tail) := by
  induction items generalizing fuel with
  | nil => exact absurd rfl hne
  | cons a items ih =>
    obtain ⟨fuel, rfl⟩ := Nat.exists_eq_succ_of_ne_zero (Nat.ne_of_gt (Nat.lt_of_lt_of_le (Nat.succ_pos _) hfuel))
    cases items with
    | nil =>
      rw [listText, List.map_singleton, List.intercalate_singleton, lexList,
        hlex a List.mem_cons_self tail htail, Option.bind_eq_bind, Option.bind_some]
      dsimp only
      rw [hend]
      rfl
    | cons a' items =>
      have hrest := ih (List.cons_ne_nil _ _) (fun b hb => hlex b (List.mem_cons_of_mem _ hb))
        (Nat.le_of_succ_le_succ hfuel)
      have hstops : Stops (comma ++ (listText item (a' :: items) ++ tail)) := stops_cons (by decide) _
      rw [listText_cons_cons, List.append_assoc, List.append_assoc, lexList,
        hlex a List.mem_cons_self _ hstops, Option.bind_eq_bind, Option.bind_some]
      dsimp only
      rw [afterWord_append]
      dsimp only
      rw [hrest]
      rfl

end Lists

/-! ## Statements are read as they are written -/

/-- A condition that is read as it is written. -/
structure SqlWhere.Plain (cond : SqlWhere) : Prop where
  name : IsName cond.col
  noQuote : quote ∉ cond.lit

theorem readWhere_text {cond : SqlWhere} (h : cond.Plain) : readWhere cond.text = some cond := by
  have hstops : Stops (ofAscii " = '" ++ (cond.lit ++ ofAscii "'")) := stops_cons (by decide) _
  have hlit : lexString (cond.lit ++ ofAscii "'") = some (cond.lit, []) :=
    lexString_append h.noQuote (show (none : Option UInt8) ≠ some quote from nofun)
  simp only [readWhere, SqlWhere.text, afterWord_append, lexName_append h.name hstops, hlit, bind, Option.bind,
    if_true]

variable {table : Bytes} {cols : List Bytes} {cond : SqlWhere}

theorem read_insertText (htable : IsName table) (hcols : ∀ name ∈ cols, IsName name) (hne : cols ≠ []) :
    SqlStmt.read (insertText table cols) = some (.insert table cols cols.length) := by
  have hfuel : cols.length ≤ (insertText table cols).length := by
    have := length_le_listText cols fun _ _ => show ofAscii "?" ≠ [] by decide
    simp only [insertText, List.length_append]
    omega
  have hnames := lexList_listText (f := id) hne (fun name hname _ => lexName_append (hcols name hname))
    (ofAscii ") values (" ++ (listText (fun _ => ofAscii "?") cols ++ ofAscii ");"))
    (stops_cons (by decide) _) rfl hfuel
  have hmarks := lexList_listText (f := fun _ => ()) hne (fun _ _ text _ => lexMark_append text)
    (ofAscii ");") (stops_cons (by decide) _) rfl hfuel
  have hparen : Stops (ofAscii "(" ++ (listText id cols ++ (ofAscii ") values (" ++
    (listText (fun _ => ofAscii "?") cols ++ ofAscii ");")))) := stops_cons (by decide) _
  have hread : readInsert (insertText table cols) = some (.insert table cols cols.length) := by
    rw [readInsert]
    conv_lhs =>
      arg 1
      rw [insertText]
    simp only [afterWord_append, lexName_append htable hparen, hnames, hmarks, bind, Option.bind, if_true,
      List.map_id, List.length_map]
  rw [SqlStmt.read, hread]
  rfl

theorem read_updateText (htable : IsName table) (hcols : ∀ name ∈ cols, IsName name) (hne : cols ≠ [])
    (hcond : cond.Plain) : SqlStmt.read (updateText table cols cond) = some (.update table cols cond) := by
  have hfuel : cols.length ≤ (updateText table cols cond).length := by
    have := length_le_listText cols fun name _ =>
      List.append_ne_nil_of_right_ne_nil name (show ofAscii " = ?" ≠ [] by decide)
    simp only [updateText, List.length_append]
    omega
  have hsets := lexList_listText (f := id) hne (fun name hname text _ => lexSet_append (hcols name hname) text)
    (ofAscii " " ++ cond.text) (stops_cons (by decide) _) rfl hfuel
  have hset : Stops (ofAscii " set " ++ (listText (· ++ ofAscii " = ?") cols ++ (ofAscii " " ++ cond.text))) :=
    stops_cons (by decide) _
  have hinsert : readInsert (updateText table cols cond) = none := rfl
  have hread : readUpdate (updateText table cols cond) = some (.update table cols cond) := by
    rw [readUpdate]
    conv_lhs =>
      arg 1
      rw [updateText]
    simp only [afterWord_append, lexName_append htable hset, hsets, readWhere_text hcond, bind, Option.bind,
      List.map_id]
  rw [SqlStmt.read, hinsert, hread]
  rfl

theorem read_selectText (htable : IsName table) (hcols : ∀ name ∈ cols, IsName name) (hne : cols ≠ [])
    (hcond : cond.Plain) : SqlStmt.read (selectText cols table cond) = some (.select cols table cond) := by
  have hfuel : cols.length ≤ (selectText cols table cond).length := by
    have := @length_le_listText _ id cols fun name hname => (hcols name hname).ne_nil
    simp only [selectText, List.length_append]
    omega
  have hnames := lexList_listText (f := id) hne (fun name hname _ => lexName_append (hcols name hname))
    (ofAscii " from " ++ (table ++ (ofAscii " " ++ cond.text))) (stops_cons (by decide) _) rfl hfuel
  have hspace : Stops (ofAscii " " ++ cond.text) := stops_cons (by decide) _
  have hinsert : readInsert (selectText cols table cond) = none := rfl
  have hupdate : readUpdate (selectText cols table cond) = none := rfl
  have hread : readSelect (selectText cols table cond) = some (.select cols table cond) := by
    rw [readSelect]
    conv_lhs =>
      arg 1
      rw [selectText]
    simp only [afterWord_append, lexName_append htable hspace, hnames, readWhere_text hcond, bind, Option.bind,
      List.map_id]
  rw [SqlStmt.read, hinsert, hupdate, hread]
  rfl

/-! ## What a statement does -/

/-- The value bound for a column: its position among the columns that are named decides. -/
def boundFor (cols : List Bytes) (bound : List SqlValue) (name : Bytes) : Option SqlValue :=
  (cols.zip bound).lookup name

/-- A row id that is not taken. -/
def freshRowid (rows : List SqlRow) : ℤ := rows.foldl (fun top row => max top row.rowid) 0 + 1

/-- A database with one table: what it takes a text for as a number and a number as a text, and what it does
with the statements that are not read here. -/
structure SqlDb where
  table : Bytes
  numberOf : Bytes → ℤ
  textOf : ℤ → Bytes
  exec : Bytes → List SqlValue → List SqlRow → List SqlRow
  rows : Bytes → List SqlRow → List (List SqlValue)

namespace SqlDb

variable (db : SqlDb)

/-- `sqlite3_step` of a statement with bound values that returns no rows. -/
def step (sql : Bytes) (bound : List SqlValue) (rows : List SqlRow) : List SqlRow :=
  match SqlStmt.read sql with
  | some (.insert table cols marks) =>
    if table = db.table ∧ marks = cols.length ∧ bound.length = marks then
      rows ++ [⟨freshRowid rows, fun name => (boundFor cols bound name).getD .null⟩]
    else db.exec sql bound rows
  | some (.update table cols cond) =>
    if table = db.table ∧ bound.length = cols.length then
      rows.map fun row => if cond.Matches row then
        { row with col := fun name => (boundFor cols bound name).getD (row.col name) } else row
    else db.exec sql bound rows
  | _ => db.exec sql bound rows

/-- The rows of a query, in the order of their row ids. -/
def query (sql : Bytes) (rows : List SqlRow) : List (List SqlValue) :=
  match SqlStmt.read sql with
  | some (.select cols table cond) =>
    if table = db.table then (rows.filter cond.Matches).map fun row => cols.map row.value
    else db.rows sql rows
  | _ => db.rows sql rows

variable {db}

/-- An insertion appends a row with the bound values. -/
theorem step_insertText (htable : IsName db.table) (hcols : ∀ name ∈ cols, IsName name) (hne : cols ≠ [])
    {bound : List SqlValue} (hbound : bound.length = cols.length) (rows : List SqlRow) :
    db.step (insertText db.table cols) bound rows =
      rows ++ [⟨freshRowid rows, fun name => (boundFor cols bound name).getD .null⟩] := by
  rw [step, read_insertText htable hcols hne]
  exact if_pos ⟨rfl, rfl, hbound⟩

/-- An update sets the named columns of the rows of its condition. -/
theorem step_updateText (htable : IsName db.table) (hcols : ∀ name ∈ cols, IsName name) (hne : cols ≠ [])
    (hcond : cond.Plain) {bound : List SqlValue} (hbound : bound.length = cols.length) (rows : List SqlRow) :
    db.step (updateText db.table cols cond) bound rows =
      rows.map fun row => if cond.Matches row then
        { row with col := fun name => (boundFor cols bound name).getD (row.col name) } else row := by
  rw [step, read_updateText htable hcols hne hcond]
  exact if_pos ⟨rfl, hbound⟩

/-- A query finds the named columns of the rows of its condition. -/
theorem query_selectText (htable : IsName db.table) (hcols : ∀ name ∈ cols, IsName name) (hne : cols ≠ [])
    (hcond : cond.Plain) (rows : List SqlRow) :
    db.query (selectText cols db.table cond) rows =
      (rows.filter cond.Matches).map fun row => cols.map row.value := by
  rw [query, read_selectText htable hcols hne hcond]
  exact if_pos rfl

end SqlDb

end EuhatExpert
