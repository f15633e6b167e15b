import EuhatExpert.Dbop.DbOpIni
import EuhatExpert.Dbop.TableLayout
import EuhatExpert.Expert.EuhatWtPayload
import Mathlib.Data.List.TakeWhile

/-!
# Expert/WorkTraceTable — payloads stored by their date

`EuhatWtPayload::write` looks for a row of its date and inserts one or updates it, with the memory of the payload
as a blob; `read` copies the blob back when it has the size of the memory.  So a read finds what the latest write
to its date stored, and a write touches no other date (`isUpsert_of_run`).
-/

namespace EuhatExpert

open Machinery

/-! ## The memory of a payload -/

/-- `sizeof(payload_)`. -/
def payloadSize : ℕ := EUHAT_WT_PAYLOAD_COUNT * 8

/-- Both values fit an `int`. -/
structure EuhatWtPl.InMemory (pl : EuhatWtPl) : Prop where
  le_mouse : -2 ^ 31 ≤ pl.mouse_
  mouse_lt : pl.mouse_ < 2 ^ 31
  le_keyboard : -2 ^ 31 ≤ pl.keyboard_
  keyboard_lt : pl.keyboard_ < 2 ^ 31

/-- A payload whose minutes are in memory. -/
structure WtMemory where
  payload_ : EuhatWtPayload
  inMemory : ∀ i < EUHAT_WT_PAYLOAD_COUNT, (payload_ i).InMemory

namespace EuhatWtPl

/-- Two integers of four bytes. -/
def image (pl : EuhatWtPl) : Bytes := putInt 4 pl.mouse_ ++ putInt 4 pl.keyboard_

def ofImage (bs : Bytes) : EuhatWtPl := ⟨getInt (bs.take 4), getInt ((bs.drop 4).take 4)⟩

theorem length_image (pl : EuhatWtPl) : pl.image.length = 8 := by
  rw [image, List.length_append, length_putInt, length_putInt]

theorem ofImage_image {pl : EuhatWtPl} (h : pl.InMemory) (bs : Bytes) : ofImage (pl.image ++ bs) = pl := by
  have hmouse : getInt (putInt 4 pl.mouse_) = pl.mouse_ :=
    getInt_putInt_of_range (by have := h.le_mouse; norm_num; omega) (by have := h.mouse_lt; norm_num; omega)
  have hkeyboard : getInt (putInt 4 pl.keyboard_) = pl.keyboard_ :=
    getInt_putInt_of_range (by have := h.le_keyboard; norm_num; omega) (by have := h.keyboard_lt; norm_num; omega)
  rw [ofImage, image, List.append_assoc, List.take_left' (length_putInt _ _), List.drop_left' (length_putInt _ _),
    List.take_left' (length_putInt _ _), hmouse, hkeyboard]

/-- Any four bytes are an `int`. -/
theorem getInt_take_four (bs : Bytes) : -2 ^ 31 ≤ getInt (bs.take 4) ∧ getInt (bs.take 4) < 2 ^ 31 := by
  have hlen : (256 : ℕ) ^ (bs.take 4).length ≤ 256 ^ 4 := Nat.pow_le_pow_right (by decide) (List.length_take_le 4 bs)
  have hle := le_getInt (bs.take 4)
  by_cases hnil : bs.take 4 = []
  · rw [hnil]
    decide
  · have hlt := getInt_lt_of_ne_nil hnil
    omega

theorem inMemory_ofImage (bs : Bytes) : (ofImage bs).InMemory where
  le_mouse := (getInt_take_four bs).1
  mouse_lt := (getInt_take_four bs).2
  le_keyboard := (getInt_take_four (bs.drop 4)).1
  keyboard_lt := (getInt_take_four (bs.drop 4)).2

end EuhatWtPl

namespace WtMemory

/-- The memory, minute by minute. -/
def image (m : WtMemory) : Bytes := (List.range' 0 EUHAT_WT_PAYLOAD_COUNT).flatMap fun i => (m.payload_ i).image

/-- What `memcpy` of a blob makes of the memory. -/
def ofImage (bs : Bytes) : WtMemory where
  payload_ i := EuhatWtPl.ofImage (bs.drop (8 * i))
  inMemory _ _ := EuhatWtPl.inMemory_ofImage _

theorem inMemory_noRecord : (⟨EUHAT_WT_PL_NO_RECORD, EUHAT_WT_PL_NO_RECORD⟩ : EuhatWtPl).InMemory :=
  ⟨by decide, by decide, by decide, by decide⟩

def reset : WtMemory := ⟨EuhatWtPayload.reset, fun _ _ => inMemory_noRecord⟩

/-- The same minutes. -/
def Same (m m' : WtMemory) : Prop := ∀ i < EUHAT_WT_PAYLOAD_COUNT, m.payload_ i = m'.payload_ i

theorem Same.refl (m : WtMemory) : Same m m := fun _ _ => rfl

theorem length_minutes (p : EuhatWtPayload) (start n : ℕ) :
    ((List.range' start n).flatMap fun i => (p i).image).length = n * 8 := by
  induction n generalizing start with
  | zero => rfl
  | succ n ih => rw [List.range'_succ, List.flatMap_cons, List.length_append, ih, EuhatWtPl.length_image, Nat.succ_mul,
      Nat.add_comm]

theorem length_image (m : WtMemory) : m.image.length = payloadSize := length_minutes m.payload_ 0 _

/-- A minute is where its eight bytes are. -/
theorem drop_minutes (p : EuhatWtPayload) {start n i : ℕ} (hi : i < n) :
    ∃ bs, ((List.range' start n).flatMap fun i => (p i).image).drop (8 * i) = (p (start + i)).image ++ bs := by
  induction i generalizing start n with
  | zero =>
    obtain ⟨n, rfl⟩ := Nat.exists_eq_succ_of_ne_zero (Nat.ne_of_gt hi)
    rw [List.range'_succ, List.flatMap_cons]
    exact ⟨_, rfl⟩
  | succ i ih =>
    obtain ⟨n, rfl⟩ := Nat.exists_eq_succ_of_ne_zero (Nat.ne_of_gt (Nat.lt_of_le_of_lt (Nat.zero_le _) hi))
    obtain ⟨bs, hbs⟩ := @ih (start + 1) n (Nat.lt_of_succ_lt_succ hi)
    refine ⟨bs, ?_⟩
    rw [List.range'_succ, List.flatMap_cons, Nat.mul_succ, Nat.add_comm (8 * i), ← List.drop_drop,
      List.drop_left' (EuhatWtPl.length_image _), hbs, Nat.add_assoc, Nat.add_comm 1 i]

/-- **The memory is found again.** -/
theorem same_ofImage_image (m : WtMemory) : Same (ofImage m.image) m := by
  intro i hi
  obtain ⟨bs, hbs⟩ := @drop_minutes m.payload_ 0 _ _ hi
  rw [Nat.zero_add] at hbs
  exact (congrArg EuhatWtPl.ofImage hbs).trans (EuhatWtPl.ofImage_image (m.inMemory i hi) bs)

end WtMemory

/-! ## Reading and writing -/

namespace WorkTraceTable

def dateName : Bytes := ofAscii "date"

def datName : Bytes := ofAscii "dat"

/-- `tab_`. -/
def tab_ : DbOpTable :=
  ⟨ofAscii "WorkTrace", [⟨rowidName, .Int64⟩, ⟨dateName, .Text⟩, ⟨datName, .Blob⟩]⟩

/-- The condition on a date. -/
def ofDate (date : Bytes) : SqlWhere := ⟨dateName, date⟩

/-- `where`. -/
def whereDate (filePath : Bytes) : Bytes := ofAscii "where date = '" ++ (filePath ++ ofAscii "'")

/-- `read`. -/
def read (db : SqlDb) (filePath : Bytes) (rows : List SqlRow) : WtMemory :=
  match tab_.select db (whereDate filePath) rows with
  | [] => .reset
  | row :: _ =>
    let dat := row.getD 2 ⟨none, 0⟩
    if payloadSize ≠ dat.i_ then .reset else .ofImage (dat.buf_.getD [])

/-- `write`, of a payload whose memory is lent to the row. -/
def write (db : SqlDb) (m : WtMemory) (filePath : Bytes) (rows : List SqlRow) : List SqlRow :=
  let found := tab_.select db (whereDate filePath) rows
  let row := [⟨none, 0⟩, ⟨some filePath, 0⟩, ⟨some m.image, payloadSize⟩]
  if found.length = 0 then tab_.insert db row rows else tab_.update db (whereDate filePath) row rows

/-- A date as it is spliced into a statement: a C string without quotes. -/
abbrev Date := { bs : Bytes // quote ∉ bs ∧ (0 : UInt8) ∉ bs }

theorem wellFormed : tab_.WellFormed where
  table := by decide
  isName := by decide
  nodup := by decide
  bound := by decide

variable {db : SqlDb}

theorem isName_date : IsName dateName := by decide

theorem plain_ofDate (date : Date) : (ofDate date.val).Plain := ⟨isName_date, date.2.1⟩

theorem whereDate_eq (date : Date) : whereDate date.val = (ofDate date.val).text := rfl

/-- The rows of a date. -/
def rowsOf (date : Bytes) (rows : List SqlRow) : List SqlRow := rows.filter (ofDate date).Matches

/-- The blob of a row. -/
def blobOf (db : SqlDb) (row : SqlRow) : Bytes := db.columnBlob (row.col datName)

/-- What is made of a blob. -/
def ofBlob (bs : Bytes) : WtMemory := if bs.length = payloadSize then .ofImage bs else .reset

/-- **A read makes a payload of the blob of the first row of its date.** -/
theorem read_eq (hdb : db.table = tab_.tableName_) (date : Date) (rows : List SqlRow) :
    read db date.val rows = (((rowsOf date.val rows).map (blobOf db)).head?.map ofBlob).getD .reset := by
  rw [read, whereDate_eq, DbOpTable.select_eq wellFormed hdb (plain_ofDate date), ← rowsOf]
  cases rowsOf date.val rows with
  | nil => rfl
  | cons row rest =>
    change (if (payloadSize : ℤ) ≠ ((blobOf db row).length : ℤ) then WtMemory.reset
      else .ofImage (blobOf db row)) = ofBlob (blobOf db row)
    rw [ofBlob]
    by_cases hsize : (blobOf db row).length = payloadSize
    · rw [if_pos hsize, hsize, if_neg (not_not_intro rfl)]
    · rw [if_neg hsize, if_pos fun h => hsize (Int.ofNat_inj.mp h.symm)]

/-- The cells of a payload. -/
def cellsOf (m : WtMemory) (date : Bytes) : List DbOpCell :=
  [⟨none, 0⟩, ⟨some date, 0⟩, ⟨some m.image, payloadSize⟩]

/-- Written over a row, they make it a row of the date. -/
theorem written_date (m : WtMemory) (date : Date) (old : Bytes → SqlValue) :
    tab_.written (cellsOf m date.val) old dateName = .text date.val := by
  have hcol : tab_.cols_[1]? = some ⟨dateName, .Text⟩ := rfl
  have hcell := wellFormed.written_eq (cellsOf m date.val) old hcol (by decide)
  have hall : date.val.takeWhile (· ≠ 0) = date.val := by
    rw [List.takeWhile_eq_self_iff]
    exact fun b hb => decide_eq_true fun h0 => date.2.2 (h0 ▸ hb)
  rw [hcell]
  exact congrArg SqlValue.text hall

/-- Written over a row, they make its blob the memory of the payload. -/
theorem written_dat (m : WtMemory) (date : Date) (old : Bytes → SqlValue) :
    tab_.written (cellsOf m date.val) old datName = .blob m.image := by
  have hcol : tab_.cols_[2]? = some ⟨datName, .Blob⟩ := rfl
  have hcell := wellFormed.written_eq (cellsOf m date.val) old hcol (by decide)
  have hall : m.image.take (payloadSize : ℤ).toNat = m.image := by
    rw [Int.toNat_natCast, ← m.length_image, List.take_length]
  rw [hcell]
  exact congrArg SqlValue.blob hall

/-- A row with the payload written over it. -/
def overlaid (m : WtMemory) (date : Bytes) (row : SqlRow) : SqlRow :=
  { row with col := tab_.written (cellsOf m date) row.col }

/-- **A write makes one row of its date**, or writes over those there are. -/
theorem write_eq (hdb : db.table = tab_.tableName_) (m : WtMemory) (date : Date) (rows : List SqlRow) :
    write db m date.val rows =
      if (rowsOf date.val rows).length = 0 then rows ++ [overlaid m date.val ⟨freshRowid rows, fun _ => .null⟩]
      else rows.map fun row => if (ofDate date.val).Matches row then overlaid m date.val row else row := by
  have hfound : (tab_.select db (whereDate date.val) rows).length = (rowsOf date.val rows).length := by
    rw [whereDate_eq, DbOpTable.select_eq wellFormed hdb (plain_ofDate date), List.length_map, rowsOf]
  rw [write, hfound, DbOpTable.insert_eq wellFormed hdb, whereDate_eq,
    DbOpTable.update_eq wellFormed hdb (plain_ofDate date)]
  rfl

theorem matches_ofDate (date : Bytes) (row : SqlRow) :
    (ofDate date).Matches row ↔ row.col dateName = .text date := by
  have hname : dateName ≠ rowidName := by decide
  rw [SqlWhere.Matches, SqlRow.value, ofDate, if_neg hname]

@[simp] theorem over_col (m : WtMemory) (date : Bytes) (row : SqlRow) :
    (overlaid m date row).col = tab_.written (cellsOf m date) row.col := rfl

theorem matches_over (m : WtMemory) (date : Date) (row : SqlRow) (date' : Bytes) :
    (ofDate date').Matches (overlaid m date.val row) ↔ date.val = date' := by
  rw [matches_ofDate, over_col, written_date, SqlValue.text.injEq]

theorem blobOf_over (db : SqlDb) (m : WtMemory) (date : Date) (row : SqlRow) :
    blobOf db (overlaid m date.val row) = m.image := by
  rw [blobOf, over_col, written_dat]
  rfl

/-- Rows that are written over stay of their date. -/
theorem rowsOf_map_over (m : WtMemory) (date : Date) (date' : Bytes) (rows : List SqlRow) :
    rowsOf date' (rows.map fun row => if (ofDate date.val).Matches row then overlaid m date.val row else row) =
      (rowsOf date' rows).map fun row => if (ofDate date.val).Matches row then overlaid m date.val row else row := by
  rw [rowsOf, List.filter_map, rowsOf]
  refine congrArg _ (List.filter_congr fun row _ => decide_eq_decide.mpr ?_)
  dsimp only [Function.comp_apply]
  split_ifs with hrow
  · rw [matches_over, matches_ofDate, (matches_ofDate _ _).mp hrow, SqlValue.text.injEq]
  · exact Iff.rfl

/-- **A write changes no other date's rows.** -/
theorem rowsOf_write_of_ne (hdb : db.table = tab_.tableName_) (m : WtMemory) {date : Date} {date' : Bytes}
    (hne : date.val ≠ date') (rows : List SqlRow) :
    rowsOf date' (write db m date.val rows) = rowsOf date' rows := by
  rw [write_eq hdb]
  split_ifs
  · rw [rowsOf, List.filter_append, List.filter_singleton,
      decide_eq_false fun h => hne ((matches_over m date _ date').mp h)]
    exact List.append_nil _
  · rw [rowsOf_map_over]
    refine (List.map_congr_left fun row hrow => ?_).trans (List.map_id _)
    rw [rowsOf, List.mem_filter, decide_eq_true_eq, matches_ofDate] at hrow
    rw [if_neg fun h => hne ?_]
    · rfl
    · rw [matches_ofDate, hrow.2] at h
      exact (SqlValue.text.inj h).symm

/-- **The rows of the date hold the payload**: one, or as many as there were. -/
theorem blobs_write (hdb : db.table = tab_.tableName_) (m : WtMemory) (date : Date) (rows : List SqlRow) :
    (rowsOf date.val (write db m date.val rows)).map (blobOf db) =
      List.replicate (max 1 (rowsOf date.val rows).length) m.image := by
  rw [write_eq hdb]
  split_ifs with hnone
  · rw [rowsOf, List.filter_append, ← rowsOf, List.length_eq_zero_iff.mp hnone, List.filter_singleton,
      decide_eq_true ((matches_over m date _ date.val).mpr rfl)]
    exact congrArg (fun bs => [bs]) (blobOf_over db m date _)
  · rw [rowsOf_map_over, List.map_map, Nat.max_eq_right (Nat.one_le_iff_ne_zero.mpr hnone)]
    refine List.eq_replicate_iff.mpr ⟨List.length_map _, fun bs hbs => ?_⟩
    obtain ⟨row, hrow, rfl⟩ := List.mem_map.mp hbs
    rw [rowsOf, List.mem_filter, decide_eq_true_eq] at hrow
    rw [Function.comp_apply, if_pos hrow.2, blobOf_over]

end WorkTraceTable

/-! ## Runs -/

/-- A payload, and the rows of the table. -/
structure WtState where
  memory : WtMemory
  rows : List SqlRow

/-- What happens: the payload is changed in memory, is written, or is read, with what was found. -/
inductive WtCall
  | set (m : WtMemory)
  | write (date : WorkTraceTable.Date) (m : WtMemory)
  | read (date : WorkTraceTable.Date) (m : WtMemory)

namespace WorkTraceTable

/-- A call; a write is one of the payload as it is, and leaves it. -/
inductive Step (db : SqlDb) : WtState → WtCall → WtState → Prop
  | set (s : WtState) (m : WtMemory) : Step db s (.set m) ⟨m, s.rows⟩
  | write (s : WtState) (date : Date) :
      Step db s (.write date s.memory) ⟨s.memory, WorkTraceTable.write db s.memory date.val s.rows⟩
  | read (s : WtState) (date : Date) :
      Step db s (.read date (WorkTraceTable.read db date.val s.rows))
        ⟨WorkTraceTable.read db date.val s.rows, s.rows⟩

/-- What was last written to a date. -/
def latest (calls : List WtCall) (date : Bytes) : Option WtMemory :=
  calls.foldl (fun found c => match c with
    | .write d m => if d.val = date then some m else found
    | _ => found) none

/-- No date has two rows. -/
def OneRow (rows : List SqlRow) : Prop := ∀ date, (rowsOf date rows).length ≤ 1

/-- What a table holds for a date: what its row is made of, and without a row no record. -/
def heldIn (db : SqlDb) (rows : List SqlRow) (date : Bytes) : WtMemory :=
  (((rowsOf date rows).map (blobOf db)).head?.map ofBlob).getD .reset

/-- Every read finds what was last written to its date, and where nothing was, what the table held. -/
def ReadsLatest (db : SqlDb) (rows₀ : List SqlRow) (calls : List WtCall) : Prop :=
  ∀ before date m after, calls = before ++ .read date m :: after →
    m.Same ((latest before date.val).getD (heldIn db rows₀ date.val))

/-- The rows of a date hold what was last written to it, or are those there were. -/
def Holds (db : SqlDb) (rows₀ : List SqlRow) (calls : List WtCall) (rows : List SqlRow) : Prop :=
  ∀ date : Bytes, (rowsOf date rows).map (blobOf db) =
    match latest calls date with
    | some m => [m.image]
    | none => (rowsOf date rows₀).map (blobOf db)

variable {db : SqlDb} {rows₀ : List SqlRow} {calls : List WtCall} {s s' : WtState} {c : WtCall}

theorem latest_concat (calls : List WtCall) (c : WtCall) (date : Bytes) :
    latest (calls ++ [c]) date = match c with
      | .write d m => if d.val = date then some m else latest calls date
      | _ => latest calls date := by
  rw [latest, List.foldl_append]
  rfl

theorem Holds.oneRow (h : Holds db rows₀ calls s.rows) (hone : OneRow rows₀) : OneRow s.rows := by
  intro date
  have hlen := congrArg List.length (h date)
  rw [List.length_map] at hlen
  rw [hlen]
  split
  · exact le_refl 1
  · rw [List.length_map]
    exact hone date

/-- **A call keeps what the rows hold.** -/
theorem Holds.step (hdb : db.table = tab_.tableName_) (hone : OneRow rows₀) (h : Holds db rows₀ calls s.rows)
    (hstep : Step db s c s') : Holds db rows₀ (calls ++ [c]) s'.rows := by
  intro date
  rw [latest_concat]
  cases hstep with
  | set => exact h date
  | read => exact h date
  | write written =>
    dsimp only
    by_cases hdate : written.val = date
    · subst hdate
      rw [if_pos rfl, blobs_write hdb, Nat.max_eq_left (h.oneRow hone written.val)]
      rfl
    · rw [if_neg hdate, rowsOf_write_of_ne hdb _ hdate]
      exact h date

/-- **A read finds what was written last.** -/
theorem Holds.read_same (hdb : db.table = tab_.tableName_) (h : Holds db rows₀ calls s.rows) (date : Date) :
    (WorkTraceTable.read db date.val s.rows).Same
      ((latest calls date.val).getD (heldIn db rows₀ date.val)) := by
  rw [read_eq hdb, h date.val]
  cases latest calls date.val with
  | some m =>
    have hblob : ofBlob m.image = .ofImage m.image := if_pos m.length_image
    rw [List.head?_cons, Option.map_some, Option.getD_some, Option.getD_some, hblob]
    exact m.same_ofImage_image
  | none => exact .refl _

theorem Step.of_write {date : Date} {m : WtMemory} (h : Step db s (.write date m) s') :
    s'.memory = s.memory ∧ s'.rows = WorkTraceTable.write db s.memory date.val s.rows := by
  generalize hc : WtCall.write date m = c at h
  cases h with
  | set => cases hc
  | read => cases hc
  | write =>
    injection hc with hdate
    subst hdate
    dsimp only
    exact ⟨rfl, rfl⟩

theorem ReadsLatest.step (hdb : db.table = tab_.tableName_) (h : ReadsLatest db rows₀ calls)
    (hold : Holds db rows₀ calls s.rows) (hstep : Step db s c s') : ReadsLatest db rows₀ (calls ++ [c]) := by
  intro before date m after hcalls
  rcases split_of_concat hcalls with ⟨rfl, rfl⟩ | ⟨after, hcalls⟩
  · cases hstep
    exact hold.read_same hdb date
  · exact h before date m after hcalls

/-- **In every run a read finds what was last written to its date, no date has two rows, and a write leaves the
payload and every other date's rows as they are.** -/
theorem isUpsert_of_run (hdb : db.table = tab_.tableName_) (hone : OneRow rows₀) {m₀ : WtMemory}
    (h : Run (Step db) ⟨m₀, rows₀⟩ calls s) :
    ReadsLatest db rows₀ calls ∧ OneRow s.rows ∧
      ∀ (date : Date) (s' : WtState), Step db s (.write date s.memory) s' →
        s'.memory = s.memory ∧ ∀ date' : Bytes, date.val ≠ date' → rowsOf date' s'.rows = rowsOf date' s.rows := by
  have hinv : Holds db rows₀ calls s.rows ∧ ReadsLatest db rows₀ calls := by
    refine h.invariant_hist (I := fun calls s => Holds db rows₀ calls s.rows ∧ ReadsLatest db rows₀ calls)
      ⟨fun _ => rfl, ?_⟩ ?_
    · intro before date m after hcalls
      simp at hcalls
    · rintro calls s c s' ⟨hold, hreads⟩ hstep
      exact ⟨hold.step hdb hone hstep, hreads.step hdb hold hstep⟩
  refine ⟨hinv.2, hinv.1.oneRow hone, fun date s' hstep => ?_⟩
  obtain ⟨hmemory, hrows⟩ := hstep.of_write
  exact ⟨hmemory, fun date' hne => hrows ▸ rowsOf_write_of_ne hdb s.memory hne s.rows⟩

/-- **Seven events are written for New Year's Day, lost in memory, and found again**, in a database that does
nothing with other statements. -/
theorem isUpsert_of_run_here : ∃ (db : SqlDb) (date : Date) (m : WtMemory) (calls : List WtCall) (s : WtState),
    date.val = ofAscii "20240101" ∧ (m.payload_ 600).mouse_ = 7 ∧ Run (Step db) ⟨m, []⟩ calls s ∧
      calls.length = 3 ∧ s.memory.Same m := by
  obtain ⟨db, hdb⟩ : ∃ db : SqlDb, db.table = tab_.tableName_ :=
    ⟨⟨ofAscii "WorkTrace", fun _ => 0, fun _ => [], fun _ _ rows => rows, fun _ _ => []⟩, rfl⟩
  obtain ⟨date, hdate⟩ : ∃ date : Date, date.val = ofAscii "20240101" := ⟨⟨_, by decide⟩, rfl⟩
  obtain ⟨m, hm⟩ : ∃ m : WtMemory, (m.payload_ 600).mouse_ = 7 :=
    ⟨⟨fun _ => ⟨7, 8⟩, fun _ _ => ⟨by decide, by decide, by decide, by decide⟩⟩, rfl⟩
  have hrun := ((Run.single (@Step.write db ⟨m, []⟩ date)).snoc (.set _ .reset)).snoc (.read _ date)
  have hone : OneRow [] := fun _ => Nat.zero_le 1
  have hsame := (isUpsert_of_run hdb hone hrun).1 [.write date m, .set .reset] date _ [] rfl
  have hlatest : latest [.write date m, .set .reset] date.val = some m := by
    rw [latest, List.foldl_cons, List.foldl_cons, List.foldl_nil]
    exact if_pos rfl
  rw [hlatest] at hsame
  exact ⟨db, date, m, _, _, hdate, hm, hrun, rfl, hsame⟩

end WorkTraceTable

end EuhatExpert
