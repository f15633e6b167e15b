import EuhatExpert.Dbop.SqlText

/-!
# Dbop/TableLayout — cells and columns, for every layout of a table

A `DbOpSqliteTable` writes its statements in loops over its columns, and binds its cells in another one with
two counters: one for the cells, and one for the parameters, which stays where it is at `rowid`.  For every
layout whose names can be told apart the counters mean the same column (`boundFor_bindings`), so `insert`,
`update` and `select` put and find the cell of a column in that column.
-/

namespace EuhatExpert

open Machinery

/-- `DbOpColumnType`, as far as tables have it. -/
inductive DbOpColumnType
  | Text
  | Int
  | Int64
  | Blob
  deriving DecidableEq, Repr

/-- A column of a table. -/
structure DbOpColumn where
  name_ : Bytes
  type_ : DbOpColumnType
  deriving DecidableEq, Repr

/-- A cell of a row: `buf_` with its length in `i_`, or the number `i_`. -/
structure DbOpCell where
  buf_ : Option Bytes
  i_ : ℤ
  deriving DecidableEq, Repr

/-- `DbOpSqliteTable`, with the types of its columns. -/
structure DbOpTable where
  tableName_ : Bytes
  cols_ : List DbOpColumn

/-! ## Cells and values -/

/-- What a cell is bound as. -/
def DbOpColumnType.bindCell (cell : DbOpCell) : DbOpColumnType → SqlValue
  | Text => (cell.buf_.map fun buf => .text (buf.takeWhile (· ≠ 0))).getD .null
  | Int => .int (getInt (putInt 4 cell.i_))
  | Int64 => .int cell.i_
  | Blob => (cell.buf_.map fun buf => .blob (buf.take cell.i_.toNat)).getD .null

namespace SqlDb

variable (db : SqlDb)

/-- `sqlite3_column_text`, up to the end of the C string. -/
def columnText : SqlValue → Option Bytes
  | .null => none
  | .int n => some (db.textOf n)
  | .text bs => some (bs.takeWhile (· ≠ 0))
  | .blob bs => some (bs.takeWhile (· ≠ 0))

/-- The bytes of `sqlite3_column_blob`. -/
def columnBlob : SqlValue → Bytes
  | .null => []
  | .int n => db.textOf n
  | .text bs => bs
  | .blob bs => bs

/-- `sqlite3_column_int64`. -/
def columnInt64 : SqlValue → ℤ
  | .null => 0
  | .int n => n
  | .text bs => db.numberOf bs
  | .blob bs => db.numberOf bs

/-- The cell `select` makes of a value; a text leaves `i_` as it is, and a number `buf_`. -/
def cellOf (v : SqlValue) : DbOpColumnType → DbOpCell
  | .Text => ⟨db.columnText v, 0⟩
  | .Int => ⟨none, getInt (putInt 4 (db.columnInt64 v))⟩
  | .Int64 => ⟨none, db.columnInt64 v⟩
  | .Blob => ⟨some (db.columnBlob v), (db.columnBlob v).length⟩

end SqlDb

namespace DbOpTable

variable (tab_ : DbOpTable)

/-! ## Statements -/

/-- A loop over columns, with a comma in front of all but the first. -/
def eachCol (put : Bytes → Bytes) : Bool → List Bytes → Bytes
  | _, [] => []
  | isFirstCol, name :: names => (if isFirstCol then [] else comma) ++ (put name ++ eachCol put false names)

/-- The columns, as a statement names them. -/
def names : List Bytes := tab_.cols_.map DbOpColumn.name_

/-- The columns a loop goes on with: all but `rowid`. -/
def boundNames : List Bytes := tab_.names.filter fun name => name ≠ rowidName

/-- The text of an `insert`. -/
def insertSql : Bytes :=
  ofAscii "insert into " ++ (tab_.tableName_ ++ (ofAscii "(" ++ (eachCol id true tab_.boundNames ++
    (ofAscii ") values (" ++ (eachCol (fun _ => ofAscii "?") true tab_.boundNames ++ ofAscii ");")))))

/-- The text of a `select`. -/
def selectSql (where_ : Bytes) : Bytes :=
  ofAscii "select " ++ (eachCol id true tab_.names ++ (ofAscii " from " ++ (tab_.tableName_ ++
    (ofAscii " " ++ where_))))

/-- The text of an `update`. -/
def updateSql (where_ : Bytes) : Bytes :=
  ofAscii "update " ++ (tab_.tableName_ ++ (ofAscii " set " ++
    (eachCol (· ++ ofAscii " = ?") true tab_.boundNames ++ (ofAscii " " ++ where_))))

/-- The loop of `exePrepare`: the values bound to the parameters one after the other, `i` counting the
cells. -/
def bindings (cells : List DbOpCell) : ℕ → List DbOpColumn → List SqlValue
  | _, [] => []
  | i, col :: cols =>
    if col.name_ = rowidName then bindings cells (i + 1) cols
    else col.type_.bindCell (cells.getD i ⟨none, 0⟩) :: bindings cells (i + 1) cols

/-- `exePrepare`: the text is compiled, and the cells are bound to its marks. -/
def exePrepare (db : SqlDb) (sql : Bytes) (cells : List DbOpCell) (rows : List SqlRow) : List SqlRow :=
  db.step sql (bindings cells 0 tab_.cols_) rows

/-- `insert` into a table. -/
def insert (db : SqlDb) (cells : List DbOpCell) (rows : List SqlRow) : List SqlRow :=
  tab_.exePrepare db tab_.insertSql cells rows

/-- `update` of the rows that meet a condition. -/
def update (db : SqlDb) (where_ : Bytes) (cells : List DbOpCell) (rows : List SqlRow) : List SqlRow :=
  tab_.exePrepare db (tab_.updateSql where_) cells rows

/-- `select` of the rows that meet a condition. -/
def select (db : SqlDb) (where_ : Bytes) (rows : List SqlRow) : List (List DbOpCell) :=
  (db.query (tab_.selectSql where_) rows).map fun values =>
    (tab_.cols_.zip values).map fun cell => db.cellOf cell.2 cell.1.type_

/-- A layout SQLite can read: every name is one, no two are the same, and some column is bound. -/
structure WellFormed : Prop where
  table : IsName tab_.tableName_
  isName : ∀ name ∈ tab_.names, IsName name
  nodup : tab_.names.Nodup
  bound : tab_.boundNames ≠ []

/-! ## The statements are the ones that are read -/

theorem eachCol_false (put : Bytes → Bytes) (name : Bytes) (names : List Bytes) :
    eachCol put false (name :: names) = comma ++ eachCol put true (name :: names) := by
  simp only [eachCol, Bool.false_eq_true, if_false, if_true, List.nil_append]

theorem eachCol_eq (put : Bytes → Bytes) : ∀ names, eachCol put true names = listText put names
  | [] => rfl
  | [name] => by simp [eachCol, listText]
  | name :: name' :: names => by
    rw [listText_cons_cons, ← eachCol_eq put (name' :: names), ← eachCol_false]
    rfl

/-- The texts are those that the statements are read from: -/
theorem insertSql_eq : tab_.insertSql = insertText tab_.tableName_ tab_.boundNames := by
  simp only [insertSql, insertText, eachCol_eq]

/-- of an update, -/
theorem updateSql_eq (cond : SqlWhere) :
    tab_.updateSql cond.text = updateText tab_.tableName_ tab_.boundNames cond := by
  simp only [updateSql, updateText, eachCol_eq]

/-- and of a query. -/
theorem selectSql_eq (cond : SqlWhere) :
    tab_.selectSql cond.text = selectText tab_.names tab_.tableName_ cond := by
  simp only [selectSql, selectText, eachCol_eq]

variable {tab_}

/-- The columns that are written have names, -/
theorem WellFormed.isName_bound (h : tab_.WellFormed) : ∀ name ∈ tab_.boundNames, IsName name :=
  fun name hname => h.isName name (List.mem_of_mem_filter hname)

/-- and there is one. -/
theorem WellFormed.names_ne_nil (h : tab_.WellFormed) : tab_.names ≠ [] := by
  intro hnil
  exact h.bound (by rw [boundNames, hnil]; rfl)

/-! ## The two counters -/

/-- Each mark gets one cell. -/
theorem length_bindings (cells : List DbOpCell) (i : ℕ) (cols : List DbOpColumn) :
    (bindings cells i cols).length = ((cols.map DbOpColumn.name_).filter fun name => name ≠ rowidName).length := by
  induction cols generalizing i with
  | nil => rfl
  | cons col cols ih =>
    rw [bindings, List.map_cons, List.filter_cons]
    by_cases hrowid : col.name_ = rowidName
    · rw [if_pos hrowid, ih, if_neg (by simpa using hrowid)]
    · rw [if_neg hrowid, if_pos (by simpa using hrowid), List.length_cons, List.length_cons, ih]

/-- **The value bound for a column is that of its own cell**, for every layout with distinct names. -/
theorem boundFor_bindings (cells : List DbOpCell) (i : ℕ) {cols : List DbOpColumn}
    (hnodup : (cols.map DbOpColumn.name_).Nodup) {k : ℕ} {col : DbOpColumn} (hcol : cols[k]? = some col)
    (hrowid : col.name_ ≠ rowidName) :
    boundFor ((cols.map DbOpColumn.name_).filter fun name => name ≠ rowidName) (bindings cells i cols) col.name_ =
      some (col.type_.bindCell (cells.getD (i + k) ⟨none, 0⟩)) := by
  induction cols generalizing i k with
  | nil => simp at hcol
  | cons first cols ih =>
    rw [List.map_cons, List.nodup_cons] at hnodup
    rw [bindings, List.map_cons, List.filter_cons]
    cases k with
    | zero =>
      obtain rfl : first = col := by simpa using hcol
      rw [if_neg hrowid, if_pos (by simpa using hrowid), boundFor, List.zip_cons_cons, List.lookup_cons_self]
      rfl
    | succ k =>
      have hmem : col.name_ ∈ cols.map DbOpColumn.name_ :=
        List.mem_map_of_mem (List.mem_of_getElem? (by simpa using hcol))
      have hne : col.name_ ≠ first.name_ := fun heq => hnodup.1 (heq ▸ hmem)
      have hrest := ih (i + 1) hnodup.2 (k := k) (by simpa using hcol)
      rw [Nat.add_right_comm, Nat.add_assoc] at hrest
      by_cases hfirst : first.name_ = rowidName
      · rw [if_pos hfirst, if_neg (by simpa using hfirst)]
        exact hrest
      · rw [if_neg hfirst, if_pos (by simpa using hfirst), boundFor, List.zip_cons_cons, List.lookup_cons,
          beq_false_of_ne hne]
        exact hrest

/-- What stands in a column when the cells are written over what stood there. -/
def written (tab_ : DbOpTable) (cells : List DbOpCell) (old : Bytes → SqlValue) (name : Bytes) : SqlValue :=
  (boundFor tab_.boundNames (bindings cells 0 tab_.cols_) name).getD (old name)

theorem WellFormed.written_eq (h : tab_.WellFormed) (cells : List DbOpCell) (old : Bytes → SqlValue) {k : ℕ}
    {col : DbOpColumn} (hcol : tab_.cols_[k]? = some col) (hrowid : col.name_ ≠ rowidName) :
    tab_.written cells old col.name_ = col.type_.bindCell (cells.getD k ⟨none, 0⟩) := by
  have hbound := boundFor_bindings cells 0 h.nodup hcol hrowid
  rw [Nat.zero_add] at hbound
  rw [written, boundNames, names, hbound, Option.getD_some]

variable {db : SqlDb} {cond : SqlWhere}

/-- **An insertion appends a row with the cells in their columns.** -/
theorem insert_eq (h : tab_.WellFormed) (hdb : db.table = tab_.tableName_) (cells : List DbOpCell)
    (rows : List SqlRow) :
    tab_.insert db cells rows = rows ++ [⟨freshRowid rows, tab_.written cells fun _ => .null⟩] := by
  rw [insert, exePrepare, insertSql_eq, ← hdb]
  exact SqlDb.step_insertText (hdb ▸ h.table) h.isName_bound h.bound (length_bindings _ _ _) rows

/-- **An update writes the cells into their columns**, in the rows of the condition. -/
theorem update_eq (h : tab_.WellFormed) (hdb : db.table = tab_.tableName_) (hcond : cond.Plain)
    (cells : List DbOpCell) (rows : List SqlRow) :
    tab_.update db cond.text cells rows = rows.map fun row =>
      if cond.Matches row then { row with col := tab_.written cells row.col } else row := by
  rw [update, exePrepare, updateSql_eq, ← hdb]
  exact SqlDb.step_updateText (hdb ▸ h.table) h.isName_bound h.bound hcond (length_bindings _ _ _) rows

/-- **A query makes cells of the columns**, in the rows of the condition. -/
theorem select_eq (h : tab_.WellFormed) (hdb : db.table = tab_.tableName_) (hcond : cond.Plain)
    (rows : List SqlRow) :
    tab_.select db cond.text rows = (rows.filter cond.Matches).map fun row =>
      tab_.cols_.map fun col => db.cellOf (row.value col.name_) col.type_ := by
  rw [select, selectSql_eq, ← hdb, SqlDb.query_selectText (hdb ▸ h.table) h.isName h.names_ne_nil hcond,
    List.map_map]
  refine List.map_congr_left fun row _ => ?_
  dsimp only [Function.comp_apply, names]
  rw [List.map_map, ← List.map_prod_left_eq_zip, List.map_map]
  rfl

end DbOpTable

end EuhatExpert
