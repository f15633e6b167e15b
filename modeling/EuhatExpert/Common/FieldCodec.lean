import EuhatExpert.Common.ReadBack

/-!
# Common/FieldCodec — every sequence of fields is read back

A packet is a sequence of integers, strings and buffers, put one behind the other, of which an integer may be
written over later, by its index.  A writer's calls leave the bytes of the fields as they are in the end
(`written_of_run`), and the calls that match them read the same fields and come to the end of the stream
(`fields_round_trip`).
-/

namespace EuhatExpert

open Machinery JyDataReadStream JyDataWriteStream

/-- An integer type, as it is a parameter of `put` and `get`, `putStr` and `getStr`, `putBuf` and `getBuf`. -/
structure IntType where
  size : ℕ
  signed : Bool
  pos : 0 < size
  deriving DecidableEq

namespace IntType

/-- A value is one of the type. -/
def Holds (T : IntType) (v : ℤ) : Prop :=
  if T.signed then -((256 ^ T.size : ℕ) : ℤ) ≤ 2 * v ∧ 2 * v < (256 ^ T.size : ℕ)
  else 0 ≤ v ∧ v < (256 ^ T.size : ℕ)

instance (T : IntType) : DecidablePred T.Holds := fun v => inferInstanceAs (Decidable
  (if T.signed then -((256 ^ T.size : ℕ) : ℤ) ≤ 2 * v ∧ 2 * v < (256 ^ T.size : ℕ)
    else 0 ≤ v ∧ v < (256 ^ T.size : ℕ)))

/-- The value some bytes are. -/
def ofBytes (T : IntType) (bs : Bytes) : ℤ := if T.signed then getInt bs else leNat bs

/-- **A value of the type is read as it was put.** -/
theorem ofBytes_putInt {T : IntType} {v : ℤ} (h : T.Holds v) : T.ofBytes (putInt T.size v) = v := by
  rw [Holds] at h
  rw [ofBytes]
  split_ifs at h ⊢
  · exact getInt_putInt_of_range h.1 h.2
  · have hmod : v % (256 ^ T.size : ℕ) = v := Int.emod_eq_of_lt h.1 h.2
    have hlt : v.toNat < 256 ^ T.size := by omega
    rw [putInt, hmod, leNat_leBytes, Nat.mod_eq_of_lt hlt, Int.toNat_of_nonneg h.1]

end IntType

/-! ## Reading -/

namespace JyDataReadStream

/-- `get<T>`. -/
def getAs (T : IntType) : ReadM ℤ := do
  let bs ← take T.size
  pure (T.ofBytes bs)

/-- The `int len` that `getStr<T>` and `getBuf<T>` make of a value. -/
def getLen (T : IntType) : ReadM ℤ := do
  let len ← getAs T
  pure (Int.bmod len (2 ^ 32))

/-- `getStr<T>`: the C string at the pointer, whatever the length says. -/
def getStrAs (T : IntType) : ReadM Bytes := do
  let len ← getLen T
  fun ds =>
    if 0 ≤ ds.idx_ ∧ (0 : UInt8) ∈ ds.mem.drop ds.idx_.toNat then
      .ok ((ds.mem.drop ds.idx_.toNat).takeWhile (· ≠ 0), { ds with idx_ := ds.idx_ + len })
    else .error .outside

/-- `getBuf<T>`. -/
def getBufAs (T : IntType) : ReadM Bytes := do
  let len ← getLen T
  if len < 0 then throw .badAlloc else take len.toNat

end JyDataReadStream

/-! ## Fields -/

/-- A field of a packet, with its type and what is in it. -/
inductive Field
  | int (T : IntType) (v : ℤ)
  | str (T : IntType) (text : Bytes)
  | buf (T : IntType) (data : Bytes)
  deriving DecidableEq

/-- The call a field is read with. -/
inductive FieldType
  | int (T : IntType)
  | str (T : IntType)
  | buf (T : IntType)

namespace Field

def type : Field → FieldType
  | int T _ => .int T
  | str T _ => .str T
  | buf T _ => .buf T

/-- `put<T>`, `putStr<T>` or `putBuf<T>`. -/
def put : Field → WriteM Unit
  | int T v => JyDataWriteStream.put T.size v
  | str T text => putBuf T.size (text ++ [0])
  | buf T data => putBuf T.size data

/-- What stands in a packet for it. -/
def bytes : Field → Bytes
  | int T v => putInt T.size v
  | str T text => putInt T.size (text ++ [0]).length ++ (text ++ [0])
  | buf T data => putInt T.size data.length ++ data

/-- Its type holds its value, or its length, and a string has no NUL. -/
def Fits : Field → Prop
  | int T v => T.Holds v
  | str T text => (0 : UInt8) ∉ text ∧ T.Holds (text ++ [0]).length
  | buf T data => T.Holds data.length

instance : DecidablePred Fits := fun
  | int T v => inferInstanceAs (Decidable (T.Holds v))
  | str T text => inferInstanceAs (Decidable ((0 : UInt8) ∉ text ∧ T.Holds (text ++ [0]).length))
  | buf T data => inferInstanceAs (Decidable (T.Holds data.length))

end Field

/-- `get<T>`, `getStr<T>` or `getBuf<T>`. -/
def FieldType.get : FieldType → ReadM Field
  | int T => do
    let v ← getAs T
    pure (.int T v)
  | str T => do
    let text ← getStrAs T
    pure (.str T text)
  | buf T => do
    let data ← getBufAs T
    pure (.buf T data)

def readFields : List FieldType → ReadM (List Field)
  | [] => pure []
  | type :: types => do
    let field ← type.get
    let fields ← readFields types
    pure (field :: fields)

/-- The bytes of a packet. -/
def bytesOf (fields : List Field) : Bytes := fields.flatMap Field.bytes

theorem Field.emits_put (field : Field) : Emits field.put field.bytes (.ok ()) := by
  cases field with
  | int T v => exact JyDataWriteStream.emits_put T.size v
  | str T text => exact emits_putBuf T.size _
  | buf T data => exact emits_putBuf T.size data

section Reads

variable {T : IntType}

theorem reads_getAs {v : ℤ} (h : T.Holds v) : Reads (getAs T) (putInt T.size v) v := by
  intro ds more hds
  have htake := hds.take
  rw [length_putInt] at htake
  rw [getAs, StateT.run_bind, htake, length_putInt]
  simp only [bind, Except.bind, T.ofBytes_putInt h]
  rfl

/-- A length an `int` holds. -/
theorem reads_getLen {len : ℕ} (h : T.Holds len) (hint : len < 2 ^ 31) :
    Reads (getLen T) (putInt T.size len) len := by
  have hmod : Int.bmod (len : ℤ) (2 ^ 32) = len := by
    rw [Int.bmod_eq_iff (by norm_num)]
    omega
  have hmap := (reads_getAs h).map fun v : ℤ => Int.bmod v (2 ^ 32)
  rwa [hmod] at hmap

theorem reads_getStrAs {str : Bytes} (hnul : (0 : UInt8) ∉ str) (h : T.Holds (str ++ [0]).length)
    (hint : (str ++ [0]).length < 2 ^ 31) :
    Reads (getStrAs T) (putInt T.size (str ++ [0]).length ++ (str ++ [0])) str := by
  refine (reads_getLen h hint).bind fun ds more hds => ?_
  have htake : (str ++ [0] ++ more).takeWhile (· ≠ 0) = str := by
    have hne : ∀ b ∈ str, decide (b ≠ 0) = true := fun b hb =>
      decide_eq_true (ne_of_mem_of_not_mem hb hnul)
    rw [List.append_assoc, List.takeWhile_append_of_pos hne]
    simp
  have hmem : (0 : UInt8) ∈ ds.mem.drop ds.idx_.toNat := by
    rw [hds.drop]
    simp
  refine (if_pos ⟨hds.nonneg, hmem⟩).trans ?_
  rw [hds.drop, htake]
  rfl

theorem reads_getBufAs {buf : Bytes} (h : T.Holds buf.length) (hint : buf.length < 2 ^ 31) :
    Reads (getBufAs T) (putInt T.size buf.length ++ buf) buf := by
  refine (reads_getLen h hint).bind ?_
  rw [if_neg (by omega), Int.toNat_natCast]
  exact fun ds more hds => hds.take

end Reads

/-- **A field that fits is read as it was put.** -/
theorem reads_field {field : Field} (h : field.Fits) (hint : field.bytes.length < 2 ^ 31) :
    Reads field.type.get field.bytes field := by
  cases field with
  | int T v => exact (reads_getAs h).map (Field.int T)
  | str T text =>
    rw [Field.bytes, List.length_append] at hint
    exact (reads_getStrAs h.1 h.2 (by omega)).map (Field.str T)
  | buf T data =>
    rw [Field.bytes, List.length_append] at hint
    exact (reads_getBufAs h (by omega)).map (Field.buf T)

/-- **Fields that fit are read as they were put.** -/
theorem reads_readFields {fields : List Field} (h : ∀ field ∈ fields, field.Fits)
    (hint : (bytesOf fields).length < 2 ^ 31) :
    Reads (readFields (fields.map Field.type)) (bytesOf fields) fields := by
  induction fields with
  | nil => exact fun ds _ _ => congrArg Except.ok (Prod.ext rfl (by simp [JyDataReadStream.skip, bytesOf]))
  | cons field fields ih =>
    rw [bytesOf, List.flatMap_cons, ← bytesOf] at hint ⊢
    rw [List.length_append] at hint
    obtain ⟨hfield, hfields⟩ := List.forall_mem_cons.mp h
    exact (reads_field hfield (by omega)).bind ((ih hfields (by omega)).map fun fields => field :: fields)

/-! ## Writing over -/

/-- A writer's calls: a field is put, or an integer written over at an index. -/
inductive FieldOp
  | put (field : Field)
  | putAt (T : IntType) (v : ℤ) (at_ : ℕ)

def FieldOp.run : FieldOp → WriteM Unit
  | put field => field.put
  | putAt T v at_ => JyDataWriteStream.putAt T.size v at_

def writeFields : List FieldOp → WriteM Unit
  | [] => pure ()
  | op :: ops => do
    op.run
    writeFields ops

/-- The fields with the integer that starts `at_` bytes in written over: there is to be one, of the same size. -/
def overwriteField (T : IntType) (v : ℤ) : ℕ → List Field → Option (List Field)
  | _, [] => none
  | 0, .int T' _ :: fields => if T'.size = T.size then some (.int T v :: fields) else none
  | 0, _ :: _ => none
  | at_ + 1, field :: fields =>
    if field.bytes.length ≤ at_ + 1 then
      (overwriteField T v (at_ + 1 - field.bytes.length) fields).map (field :: ·)
    else none

/-- What a writer's calls come to, from the index `start` on: the fields as they are in the end. -/
def fieldsOf (start : ℕ) : List Field → List FieldOp → Option (List Field)
  | fields, [] => some fields
  | fields, .put field :: ops => fieldsOf start (fields ++ [field]) ops
  | fields, .putAt T v at_ :: ops =>
    if start ≤ at_ then (overwriteField T v (at_ - start) fields).bind fun fields => fieldsOf start fields ops
    else none

theorem exists_of_overwriteField {T : IntType} {v : ℤ} :
    ∀ {at_ : ℕ} {fields fields' : List Field}, overwriteField T v at_ fields = some fields' →
      ∃ front T' v' back, fields = front ++ .int T' v' :: back ∧ T'.size = T.size ∧
        fields' = front ++ .int T v :: back ∧ at_ = (bytesOf front).length := by
  intro at_ fields
  induction fields generalizing at_ with
  | nil =>
    intro fields' h
    rw [overwriteField] at h
    cases h
  | cons field fields ih =>
    intro fields' h
    cases at_ with
    | zero =>
      cases field with
      | int T' v' =>
        rw [overwriteField] at h
        split_ifs at h with hsize
        exact ⟨[], T', v', fields, rfl, hsize, (Option.some.inj h).symm, rfl⟩
      | str T' text => rw [overwriteField.eq_def] at h; cases h
      | buf T' data => rw [overwriteField.eq_def] at h; cases h
    | succ at_ =>
      rw [overwriteField] at h
      split_ifs at h with hle
      obtain ⟨rest, hrest, rfl⟩ := Option.map_eq_some_iff.mp h
      obtain ⟨front, T', v', back, rfl, hsize, rfl, hat⟩ := ih hrest
      refine ⟨field :: front, T', v', back, rfl, hsize, rfl, ?_⟩
      rw [bytesOf, List.flatMap_cons, List.length_append, ← bytesOf, ← hat]
      omega

theorem bytesOf_append (fields fields' : List Field) :
    bytesOf (fields ++ fields') = bytesOf fields ++ bytesOf fields' := List.flatMap_append

theorem bytesOf_cons (field : Field) (fields : List Field) :
    bytesOf (field :: fields) = field.bytes ++ bytesOf fields := List.flatMap_cons

/-- **Writing an integer over changes its bytes, and nothing else.** -/
theorem overwrite_bytesOf {T : IntType} {v : ℤ} {at_ : ℕ} {fields fields' : List Field} (before : Bytes)
    (h : overwriteField T v at_ fields = some fields') :
    overwrite (before ++ bytesOf fields) (before.length + at_) (putInt T.size v)
        = before ++ bytesOf fields' ∧
      at_ + T.size ≤ (bytesOf fields).length ∧ (bytesOf fields').length = (bytesOf fields).length := by
  obtain ⟨front, T', v', back, rfl, hsize, rfl, rfl⟩ := exists_of_overwriteField h
  have hold : (putInt T'.size v').length = (putInt T.size v).length := by
    rw [length_putInt, length_putInt, hsize]
  simp only [bytesOf_append, bytesOf_cons, Field.bytes]
  refine ⟨?_, ?_, ?_⟩
  · rw [overwrite, ← List.append_assoc before, ← List.length_append, List.take_left, ← List.drop_drop,
      List.drop_left, List.drop_left' hold, List.append_assoc]
  · simp only [List.length_append, length_putInt]
    omega
  · simp only [List.length_append, length_putInt, hsize]

/-- The fields are never fewer bytes than those put so far. -/
theorem length_bytesOf_le {start : ℕ} {ops : List FieldOp} : ∀ {fields fields' : List Field},
    fieldsOf start fields ops = some fields' → (bytesOf fields).length ≤ (bytesOf fields').length := by
  induction ops with
  | nil =>
    intro fields fields' h
    rw [fieldsOf, Option.some.injEq] at h
    rw [h]
  | cons op ops ih =>
    intro fields fields' h
    cases op with
    | put field =>
      rw [fieldsOf] at h
      have hle := ih h
      rw [bytesOf_append, List.length_append] at hle
      omega
    | putAt T v at_ =>
      rw [fieldsOf] at h
      split_ifs at h
      obtain ⟨rest, hrest, h⟩ := Option.bind_eq_some_iff.mp h
      rw [← (overwrite_bytesOf [] hrest).2.2]
      exact ih h

variable {before : Bytes} {fields fields' : List Field} {ops : List FieldOp}

/-- Where there is an integer, it is written over. -/
theorem run_putAt_field {T : IntType} {v : ℤ} {at_ : ℕ} {s : JyDataWriteStream}
    (hs : s.written = before ++ bytesOf fields) (hat : before.length ≤ at_)
    (h : overwriteField T v (at_ - before.length) fields = some fields') :
    ∃ s', (JyDataWriteStream.putAt T.size v at_).run s = .ok () s' ∧
      s'.written = before ++ bytesOf fields' := by
  obtain ⟨hover, hroom, -⟩ := overwrite_bytesOf before h
  rw [Nat.add_sub_cancel' hat] at hover
  have hle : at_ + (putInt T.size v).length ≤ s.idx_ := by
    rw [length_putInt, JyDataWriteStream.idx_, hs, List.length_append]
    omega
  refine ⟨_, dif_pos hle, ?_⟩
  change overwrite s.written at_ (putInt T.size v) = _
  rw [hs, hover]

/-- **What a writer's calls leave in the stream are the fields as they are in the end.** -/
theorem written_of_run : ∀ {fields : List Field} {s s' : JyDataWriteStream},
    s.written = before ++ bytesOf fields → fieldsOf before.length fields ops = some fields' →
    (writeFields ops).run s = .ok () s' → s'.written = before ++ bytesOf fields' := by
  induction ops with
  | nil =>
    intro fields s s' hs h hrun
    rw [fieldsOf, Option.some.injEq] at h
    cases hrun
    rw [hs, h]
  | cons op ops ih =>
    intro fields s s' hs h hrun
    rw [writeFields, EStateM.run_bind] at hrun
    cases op with
    | put field =>
      rw [fieldsOf] at h
      cases hput : (FieldOp.put field).run.run s with
      | error f t =>
        rw [hput] at hrun
        cases hrun
      | ok u t =>
        rw [hput] at hrun
        refine ih ?_ h hrun
        have hone : bytesOf [field] = field.bytes := List.append_nil _
        rw [(field.emits_put.of_run hput).1, hs, bytesOf_append, hone, List.append_assoc]
    | putAt T v at_ =>
      rw [fieldsOf] at h
      split_ifs at h with hat
      obtain ⟨rest, hrest, h⟩ := Option.bind_eq_some_iff.mp h
      obtain ⟨t, ht, hwritten⟩ := run_putAt_field hs hat hrest
      rw [FieldOp.run, ht] at hrun
      exact ih hwritten h hrun

/-- They succeed where an index can count them. -/
theorem exists_run : ∀ {fields : List Field} {s : JyDataWriteStream},
    s.written = before ++ bytesOf fields → fieldsOf before.length fields ops = some fields' →
    before.length + (bytesOf fields').length < 2 ^ 31 → ∃ s', (writeFields ops).run s = .ok () s' := by
  induction ops with
  | nil => exact fun _ _ _ => ⟨_, rfl⟩
  | cons op ops ih =>
    intro fields s hs h hlt
    rw [writeFields, EStateM.run_bind]
    cases op with
    | put field =>
      rw [fieldsOf] at h
      have hle := length_bytesOf_le h
      have hone : bytesOf [field] = field.bytes := List.append_nil _
      rw [bytesOf_append, List.length_append, hone] at hle
      have hroom : s.idx_ + field.bytes.length < 2 ^ 31 := by
        rw [JyDataWriteStream.idx_, hs, List.length_append]
        omega
      have hput : (FieldOp.put field).run.run s = .ok () (s.push field.bytes hroom) :=
        field.emits_put.run s hroom
      rw [hput]
      refine ih ?_ h hlt
      rw [push_written, hs, bytesOf_append, hone, List.append_assoc]
    | putAt T v at_ =>
      rw [fieldsOf] at h
      split_ifs at h with hat
      obtain ⟨rest, hrest, h⟩ := Option.bind_eq_some_iff.mp h
      obtain ⟨t, ht, hwritten⟩ := run_putAt_field hs hat hrest
      rw [FieldOp.run, ht]
      exact ih hwritten h hlt

/-- **Fields are read back as they are in the end**: a writer's calls succeed where an index can count the bytes,
and then the calls that match them read the fields, whatever stands behind them in memory, and are at the end. -/
theorem fields_round_trip {s : JyDataWriteStream} {fields : List Field} {ops : List FieldOp}
    (h : fieldsOf s.idx_ [] ops = some fields) (hfits : ∀ field ∈ fields, field.Fits) :
    (s.idx_ + (bytesOf fields).length < 2 ^ 31 → ∃ s', (writeFields ops).run s = .ok () s') ∧
      ∀ s', (writeFields ops).run s = .ok () s' → ∃ payload, s'.written = s.written ++ payload ∧
        ∀ stale, ∃ ds, (readFields (fields.map Field.type)).run ⟨payload ++ stale, payload.length, 0⟩
          = .ok (fields, ds) ∧ ds.atEnd = true := by
  have hs : s.written = s.written ++ bytesOf [] := (List.append_nil _).symm
  refine ⟨exists_run hs h, fun s' hrun => ⟨bytesOf fields, written_of_run hs h hrun, fun stale => ?_⟩⟩
  have hint : (bytesOf fields).length < 2 ^ 31 := by
    have hlt := s'.isInt
    rw [written_of_run hs h hrun, List.length_append] at hlt
    omega
  refine ⟨_, reads_readFields hfits hint _ stale ⟨le_rfl, Int.natCast_nonneg _, rfl⟩, ?_⟩
  rw [atEnd, skip_idx, skip_size, Int.zero_add, if_neg (by omega)]
  exact decide_eq_true le_rfl

/-- The type `short`, the default for the length of a string. -/
def IntType.short : IntType := ⟨2, true, by decide⟩

/-- The type `int`, the default for the length of a buffer. -/
def IntType.int : IntType := ⟨4, true, by decide⟩

/-- A count that is put before it is known, a string and a buffer. -/
theorem fields_round_trip_count :
    ∃ s', (writeFields [.put (.int .int 0), .put (.str .short [97]), .put (.buf .int [1, 2, 3]),
      .putAt .int 2 0]).run .new = .ok () s' ∧ ∃ payload, s'.written = [] ++ payload ∧
        ∀ stale, ∃ ds, (readFields [.int .int, .str .short, .buf .int]).run ⟨payload ++ stale, payload.length, 0⟩
          = .ok ([.int .int 2, .str .short [97], .buf .int [1, 2, 3]], ds) ∧ ds.atEnd = true := by
  obtain ⟨hrun, hread⟩ := @fields_round_trip .new [.int .int 2, .str .short [97], .buf .int [1, 2, 3]]
    [.put (.int .int 0), .put (.str .short [97]), .put (.buf .int [1, 2, 3]), .putAt .int 2 0]
    (by decide) (by decide)
  obtain ⟨s', hs⟩ := hrun (by decide)
  exact ⟨s', hs, hread s' hs⟩

end EuhatExpert
