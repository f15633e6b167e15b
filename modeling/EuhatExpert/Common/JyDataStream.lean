import EuhatExpert.Machinery.Bytes
import EuhatExpert.Machinery.Doubling

/-!
# Common/JyDataStream — the byte streams packets are written to and read from

`JyDataWriteStream` appends behind `idx_` and lets its buffer double; a `JyDataWriteBlock` starts on a
block borrowed from a `JyBufPool`, and the doubling frees that block (`Holder`).  `Emits w bs r`
says what a writing call amounts to: `bs` appended and the result `r`, or the `int` index running over
after the buffer was replaced.  `JyDataReadStream` reads from `idx_` on without a bounds check, so a read past the memory it
points into is a `Fault`; `Ahead ds bs` says that the next bytes are `bs`.
-/

namespace EuhatExpert

open Machinery

/-- How a call ends without a result: `new` asked for a negative size, an access outside the buffer or
to one that was freed, or an `int` index running over. -/
inductive Fault
  | badAlloc
  | outside
  | freed
  | overflow
  deriving DecidableEq, Repr

/-- `JyBufPool`: what its callers see of it, the size of its blocks. -/
structure JyBufPool where
  unitSize_ : ℕ
  isInt : unitSize_ < 2 ^ 31

/-! ## Writing -/

/-- Who allocated the buffer a stream writes to. -/
inductive Holder
  | pool
  | heap
  deriving DecidableEq, Repr

/-- `JyDataWriteStream`: the bytes before `idx_`, and the size of the buffer they stand in. -/
@[ext]
structure JyDataWriteStream where
  written : Bytes
  size_ : ℕ
  holder : Holder
  fits : written.length ≤ size_
  isInt : written.length < 2 ^ 31
  poolIsInt : holder = .pool → size_ < 2 ^ 31

/-- `JY_ENCRYPT_DATA_ROOM_UNIT_SIZE`. -/
def JY_ENCRYPT_DATA_ROOM_UNIT_SIZE : ℕ := 1024 * 8

abbrev WriteM := EStateM Fault JyDataWriteStream

namespace JyDataWriteStream

/-- `idx_`, and `size()`. -/
def idx_ (s : JyDataWriteStream) : ℕ := s.written.length

def new : JyDataWriteStream := ⟨[], 0, .heap, le_rfl, by decide, by decide⟩

/-- `JyDataWriteBlock(pool)`. -/
def ofPool (pool : JyBufPool) : JyDataWriteStream :=
  ⟨[], pool.unitSize_, .pool, Nat.zero_le _, by decide, fun _ => pool.isInt⟩

/-- `ensureRoom`: `buf_.data_.reset` frees the buffer it replaces, a pool block included — the empty
`JyDataWriteBlock::ensureRoom(int)` only hides this one, it does not override it. -/
def ensureRoom (s : JyDataWriteStream) (addSize : ℕ) : JyDataWriteStream where
  written := s.written
  size_ := room JY_ENCRYPT_DATA_ROOM_UNIT_SIZE s.size_ (s.idx_ + addSize)
  holder := if s.size_ < s.idx_ + addSize then .heap else s.holder
  fits := s.fits.trans (le_room_self _ _)
  isInt := s.isInt
  poolIsInt h := by
    split_ifs at h with hlt
    rw [room_of_le (not_lt.mp hlt)]
    exact s.poolIsInt h

theorem unit_pos : 0 < JY_ENCRYPT_DATA_ROOM_UNIT_SIZE := by decide

/-- The stream with `buf` appended. -/
def push (s : JyDataWriteStream) (buf : Bytes) (h : s.idx_ + buf.length < 2 ^ 31) :
    JyDataWriteStream where
  written := s.written ++ buf
  size_ := (s.ensureRoom buf.length).size_
  holder := (s.ensureRoom buf.length).holder
  fits := by
    rw [List.length_append]
    exact le_room unit_pos _ _
  isInt := by rwa [List.length_append]
  poolIsInt := (s.ensureRoom buf.length).poolIsInt

def putBufWithoutLen (buf : Bytes) : WriteM Unit := fun s =>
  if h : s.idx_ + buf.length < 2 ^ 31 then .ok () (s.push buf h)
  else .error .overflow (s.ensureRoom buf.length)

/-- `put<T>` of an integer of `k` bytes. -/
def put (k : ℕ) (v : ℤ) : WriteM Unit := putBufWithoutLen (putInt k v)

/-- `putBuf<T>` with a length of `k` bytes. -/
def putBuf (k : ℕ) (buf : Bytes) : WriteM Unit := do
  put k buf.length
  putBufWithoutLen buf

/-! ### What a write amounts to -/

section Push

variable (s : JyDataWriteStream) {a b : Bytes}

@[simp] theorem push_written (h : s.idx_ + a.length < 2 ^ 31) :
    (s.push a h).written = s.written ++ a := rfl

@[simp] theorem push_idx (h : s.idx_ + a.length < 2 ^ 31) :
    (s.push a h).idx_ = s.idx_ + a.length := List.length_append

theorem push_size (h : s.idx_ + a.length < 2 ^ 31) :
    (s.push a h).size_ = room JY_ENCRYPT_DATA_ROOM_UNIT_SIZE s.size_ (s.idx_ + a.length) := rfl

theorem push_holder (h : s.idx_ + a.length < 2 ^ 31) :
    (s.push a h).holder = if s.size_ < s.idx_ + a.length then .heap else s.holder := rfl

@[simp] theorem push_nil (h : s.idx_ + ([] : Bytes).length < 2 ^ 31) : s.push [] h = s := by
  have hs : s.idx_ + ([] : Bytes).length ≤ s.size_ := s.fits
  refine JyDataWriteStream.ext (by simp) ?_ ?_
  · rw [push_size, room_of_le hs]
  · rw [push_holder, if_neg (not_lt.mpr hs)]

/-- What was appended can be told from the stream. -/
theorem push_inj {ha : s.idx_ + a.length < 2 ^ 31} {hb : s.idx_ + b.length < 2 ^ 31}
    (h : s.push a ha = s.push b hb) : a = b := by
  have hw := congrArg written h
  rw [push_written, push_written] at hw
  exact List.append_cancel_left hw

/-- Two appends are one. -/
theorem push_push (ha : s.idx_ + a.length < 2 ^ 31) (hb : (s.push a ha).idx_ + b.length < 2 ^ 31)
    (hab : s.idx_ + (a ++ b).length < 2 ^ 31) : (s.push a ha).push b hb = s.push (a ++ b) hab := by
  have hlen : (s.push a ha).idx_ + b.length = s.idx_ + (a ++ b).length := by
    rw [push_idx, List.length_append, Nat.add_assoc]
  have hle : s.idx_ + a.length ≤ s.idx_ + (a ++ b).length := by
    rw [List.length_append]
    omega
  refine JyDataWriteStream.ext (by simp) ?_ ?_
  · rw [push_size, hlen, push_size, push_size, room_room unit_pos hle]
  · rw [push_holder, push_holder, push_holder, hlen, push_size]
    by_cases hlt : s.size_ < s.idx_ + a.length
    · rw [if_pos hlt, if_pos (hlt.trans_le hle), ite_self]
    · rw [if_neg hlt, room_of_le (not_lt.mp hlt)]

end Push

/-- A buffer too large for a pool block is none. -/
theorem ensureRoom_holder_of_le {s : JyDataWriteStream} {k : ℕ} (h : 2 ^ 31 ≤ s.idx_ + k) :
    (s.ensureRoom k).holder = .heap := by
  cases hh : (s.ensureRoom k).holder with
  | heap => rfl
  | pool =>
    have hlt := (s.ensureRoom k).poolIsInt hh
    have hle : s.idx_ + k ≤ (s.ensureRoom k).size_ := le_room unit_pos _ _
    omega

/-- The stream a call leaves behind, with or without a result. -/
def after {α : Type} : EStateM.Result Fault JyDataWriteStream α → JyDataWriteStream
  | .ok _ s => s
  | .error _ s => s

/-- A result on a stream. -/
def resultOn {α : Type} (s : JyDataWriteStream) :
    Except Fault α → EStateM.Result Fault JyDataWriteStream α
  | .ok a => .ok a s
  | .error f => .error f s

/-- The call `w` appends `bs` and ends in `r`.  When the index would run over on the way, the call
stops, on a buffer that is no pool block any more. -/
structure Emits {α : Type} (w : WriteM α) (bs : Bytes) (r : Except Fault α) : Prop where
  run : ∀ (s : JyDataWriteStream) (h : s.idx_ + bs.length < 2 ^ 31),
    w.run s = resultOn (s.push bs h) r
  overrun : ∀ s : JyDataWriteStream, 2 ^ 31 ≤ s.idx_ + bs.length →
    ∃ t, w.run s = .error .overflow t ∧ t.holder = .heap

variable {α β : Type}

theorem emits_pure (a : α) : Emits (pure a) [] (.ok a) where
  run s _ := by rw [push_nil]; rfl
  overrun s h := absurd h (not_le.mpr s.isInt)

theorem emits_throw (f : Fault) : Emits (throw f : WriteM α) [] (.error f) where
  run s _ := by rw [push_nil]; rfl
  overrun s h := absurd h (not_le.mpr s.isInt)

theorem emits_putBufWithoutLen (buf : Bytes) : Emits (putBufWithoutLen buf) buf (.ok ()) where
  run _ h := dif_pos h
  overrun s h := ⟨s.ensureRoom buf.length, dif_neg (not_lt.mpr h), ensureRoom_holder_of_le h⟩

/-- One call after another. -/
theorem Emits.bind {w : WriteM α} {f : α → WriteM β} {bs bs' : Bytes} {a : α} {r : Except Fault β}
    (h : Emits w bs (.ok a)) (h' : Emits (f a) bs' r) : Emits (w >>= f) (bs ++ bs') r where
  run s hs := by
    have hlen := hs
    rw [List.length_append] at hlen
    have ha : s.idx_ + bs.length < 2 ^ 31 := by omega
    have hb : (s.push bs ha).idx_ + bs'.length < 2 ^ 31 := by
      rw [push_idx]
      omega
    rw [EStateM.run_bind, h.run s ha, ← push_push s ha hb hs]
    exact h'.run (s.push bs ha) hb
  overrun s ho := by
    rw [List.length_append] at ho
    rw [EStateM.run_bind]
    by_cases hlt : s.idx_ + bs.length < 2 ^ 31
    · rw [h.run s hlt]
      exact h'.overrun (s.push bs hlt) (by rw [push_idx]; omega)
    · obtain ⟨t, ht, hh⟩ := h.overrun s (not_lt.mp hlt)
      exact ⟨t, by rw [ht], hh⟩

/-- A call that ends in a fault is not followed by another. -/
theorem Emits.bind_error {w : WriteM α} {bs : Bytes} {e : Fault} (h : Emits w bs (.error e))
    (f : α → WriteM β) : Emits (w >>= f) bs (.error e) where
  run s hs := by
    rw [EStateM.run_bind, h.run s hs]
    rfl
  overrun s ho := by
    obtain ⟨t, ht, hh⟩ := h.overrun s ho
    exact ⟨t, by rw [EStateM.run_bind, ht], hh⟩

theorem emits_put (k : ℕ) (v : ℤ) : Emits (put k v) (putInt k v) (.ok ()) :=
  emits_putBufWithoutLen _

theorem emits_putBuf (k : ℕ) (buf : Bytes) :
    Emits (putBuf k buf) (putInt k buf.length ++ buf) (.ok ()) :=
  (emits_put k _).bind (emits_putBufWithoutLen buf)

/-- With or without a result, what a call leaves is the stream it appended to. -/
theorem Emits.after_run {w : WriteM α} {bs : Bytes} {r : Except Fault α} (h : Emits w bs r)
    (s : JyDataWriteStream) (hs : s.idx_ + bs.length < 2 ^ 31) : after (w.run s) = s.push bs hs := by
  rw [h.run s hs]
  cases r <;> rfl

/-- What a call appends is determined, when there is room for it. -/
theorem Emits.unique {w : WriteM α} {bs bs' : Bytes} {a b : α} (h : Emits w bs (.ok a))
    (h' : Emits w bs' (.ok b)) (hlt : bs.length < 2 ^ 31) : bs = bs' := by
  have hs : new.idx_ + bs.length < 2 ^ 31 := (Nat.zero_add _).trans_lt hlt
  have hrun := h.run new hs
  by_cases hlt' : new.idx_ + bs'.length < 2 ^ 31
  · rw [h'.run new hlt'] at hrun
    injection hrun with _ hpush
    exact (push_inj _ hpush).symm
  · obtain ⟨t, ht, -⟩ := h'.overrun new (not_lt.mp hlt')
    rw [ht] at hrun
    cases hrun

/-- A call that succeeds on a new stream had room for what it appended. -/
theorem Emits.of_run_new {w : WriteM α} {bs : Bytes} {r : Except Fault α} (h : Emits w bs r) {a : α}
    {s : JyDataWriteStream} (hrun : w.run new = .ok a s) :
    r = .ok a ∧ s.written = bs ∧ bs.length < 2 ^ 31 := by
  by_cases hlt : new.idx_ + bs.length < 2 ^ 31
  · rw [h.run new hlt] at hrun
    cases r with
    | error f => cases hrun
    | ok b =>
      injection hrun with hb hpush
      rw [hb, ← hpush]
      exact ⟨rfl, List.nil_append bs, (Nat.zero_add _).symm.trans_lt hlt⟩
  · obtain ⟨t, ht, -⟩ := h.overrun new (not_lt.mp hlt)
    rw [ht] at hrun
    cases hrun

/-- **A call keeps the block it borrowed from a pool exactly when what it appends fits it.** -/
theorem Emits.holder_ofPool {w : WriteM α} {bs : Bytes} {r : Except Fault α} (h : Emits w bs r)
    (pool : JyBufPool) :
    (after (w.run (ofPool pool))).holder = .pool ↔ bs.length ≤ pool.unitSize_ := by
  have hint := pool.isInt
  by_cases hlt : (ofPool pool).idx_ + bs.length < 2 ^ 31
  · rw [h.after_run _ hlt, push_holder]
    simp [ofPool, idx_]
  · obtain ⟨t, ht, hh⟩ := h.overrun (ofPool pool) (not_lt.mp hlt)
    rw [ht, after, hh]
    simp only [ofPool, idx_, List.length_nil, zero_add] at hlt
    simp only [reduceCtorEq, false_iff]
    omega

end JyDataWriteStream

/-! ## Reading -/

/-- `JyDataReadStream`: the memory `data_` points into, the size the stream believes it has, and
`idx_`. -/
structure JyDataReadStream where
  mem : Bytes
  size_ : ℕ
  idx_ : ℤ
  deriving DecidableEq, Repr

abbrev ReadM := StateT JyDataReadStream (Except Fault)

namespace JyDataReadStream

/-- `end()`: `idx_ >= buf_.size_` compares as `size_t`. -/
def atEnd (ds : JyDataReadStream) : Bool :=
  decide ((ds.size_ : ℤ) ≤ if ds.idx_ < 0 then ds.idx_ + 2 ^ 64 else ds.idx_)

/-- `memcpy` of the `k` bytes at `idx_`, which steps over them. -/
def take (k : ℕ) : ReadM Bytes := fun ds =>
  if 0 ≤ ds.idx_ ∧ ds.idx_ + k ≤ ds.mem.length then
    .ok ((ds.mem.drop ds.idx_.toNat).take k, { ds with idx_ := ds.idx_ + k })
  else .error .outside

/-- `get<T>` of an integer of `k` bytes. -/
def get (k : ℕ) : ReadM ℤ := do
  let bs ← take k
  pure (getInt bs)

/-- `getBuf<T>()` with a length of `k` bytes: `JyBuf buf(len)` of a negative length asks `new` for
more than there is. -/
def getBuf (k : ℕ) : ReadM Bytes := do
  let len ← get k
  if len < 0 then throw .badAlloc else take len.toNat

/-- The bytes in front of the stream, up to the end of the memory it points into, are `bs`. -/
structure Ahead (ds : JyDataReadStream) (bs : Bytes) : Prop where
  nonneg : 0 ≤ ds.idx_
  le : ds.idx_ ≤ ds.mem.length
  drop : ds.mem.drop ds.idx_.toNat = bs

/-- The stream `k` bytes on. -/
def skip (ds : JyDataReadStream) (k : ℕ) : JyDataReadStream := { ds with idx_ := ds.idx_ + k }

@[simp] theorem skip_mem (ds : JyDataReadStream) (k : ℕ) : (ds.skip k).mem = ds.mem := rfl

@[simp] theorem skip_size (ds : JyDataReadStream) (k : ℕ) : (ds.skip k).size_ = ds.size_ := rfl

@[simp] theorem skip_idx (ds : JyDataReadStream) (k : ℕ) : (ds.skip k).idx_ = ds.idx_ + k := rfl

/-- **What a read does is decided by the bytes in front of the stream.** -/
theorem Ahead.run_take {ds : JyDataReadStream} {bs : Bytes} (h : Ahead ds bs) (k : ℕ) :
    (take k).run ds = if k ≤ bs.length then .ok (bs.take k, ds.skip k) else .error .outside := by
  obtain ⟨h0, hle, rfl⟩ := h
  have hiff : (0 ≤ ds.idx_ ∧ ds.idx_ + k ≤ ds.mem.length)
      ↔ k ≤ (ds.mem.drop ds.idx_.toNat).length := by
    rw [List.length_drop]
    omega
  simp only [← hiff]
  rfl

theorem Ahead.drop_skip {ds : JyDataReadStream} {bs : Bytes} (h : Ahead ds bs) {k : ℕ}
    (hk : k ≤ bs.length) : Ahead (ds.skip k) (bs.drop k) := by
  obtain ⟨h0, hle, rfl⟩ := h
  rw [List.length_drop] at hk
  refine ⟨by rw [skip_idx]; omega, by rw [skip_idx, skip_mem]; omega, ?_⟩
  rw [skip_idx, skip_mem, List.drop_drop]
  congr 1
  omega

theorem Ahead.run_get {ds : JyDataReadStream} {bs : Bytes} (h : Ahead ds bs) (k : ℕ) :
    (get k).run ds
      = if k ≤ bs.length then .ok (getInt (bs.take k), ds.skip k) else .error .outside := by
  rw [get, StateT.run_bind, h.run_take]
  split_ifs <;> rfl

/-- The count of a buffer is read first, then looked at, then that many bytes are read. -/
theorem Ahead.run_getBuf {ds : JyDataReadStream} {bs : Bytes} (h : Ahead ds bs) {k : ℕ}
    (hk : k ≤ bs.length) :
    (getBuf k).run ds
      = if getInt (bs.take k) < 0 then .error .badAlloc
        else if (getInt (bs.take k)).toNat ≤ (bs.drop k).length then
          .ok ((bs.drop k).take (getInt (bs.take k)).toNat,
            (ds.skip k).skip (getInt (bs.take k)).toNat)
        else .error .outside := by
  rw [getBuf, StateT.run_bind, h.run_get, if_pos hk]
  simp only [bind, Except.bind]
  split_ifs with hlt hle
  · rfl
  · rw [(h.drop_skip hk).run_take, if_pos hle]
  · rw [(h.drop_skip hk).run_take, if_neg hle]

theorem Ahead.skip {ds : JyDataReadStream} {bs more : Bytes} (h : Ahead ds (bs ++ more)) :
    Ahead (ds.skip bs.length) more := by
  have hd := h.drop_skip (k := bs.length) (by rw [List.length_append]; omega)
  rwa [List.drop_left] at hd

theorem Ahead.take {ds : JyDataReadStream} {bs more : Bytes} (h : Ahead ds (bs ++ more)) :
    (JyDataReadStream.take bs.length).run ds = .ok (bs, ds.skip bs.length) := by
  rw [h.run_take, if_pos (by rw [List.length_append]; omega), List.take_left]

/-- **An integer in range is read back as it was put.** -/
theorem Ahead.get {ds : JyDataReadStream} {k : ℕ} {v : ℤ} {more : Bytes}
    (h : Ahead ds (putInt k v ++ more)) (h₁ : -((256 ^ k : ℕ) : ℤ) ≤ 2 * v)
    (h₂ : 2 * v < (256 ^ k : ℕ)) :
    (JyDataReadStream.get k).run ds = .ok (v, ds.skip k) := by
  have hlen : k = (putInt k v).length := (length_putInt k v).symm
  have hle : k ≤ (putInt k v ++ more).length := by
    rw [List.length_append, ← hlen]
    omega
  have htake : (putInt k v ++ more).take k = putInt k v := List.take_left' hlen.symm
  rw [h.run_get, if_pos hle, htake, getInt_putInt_of_range h₁ h₂]

/-- **A buffer is read back as it was put.** -/
theorem Ahead.getBuf {ds : JyDataReadStream} {k : ℕ} {buf more : Bytes}
    (h : Ahead ds (putInt k buf.length ++ buf ++ more)) (hk : 2 * buf.length < 256 ^ k) :
    (JyDataReadStream.getBuf k).run ds = .ok (buf, ds.skip (k + buf.length)) := by
  rw [List.append_assoc] at h
  have hlen : (putInt k buf.length).length = k := length_putInt k _
  have hle : k ≤ (putInt k buf.length ++ (buf ++ more)).length := by
    rw [List.length_append, hlen]
    omega
  have hv : getInt (putInt k buf.length) = buf.length :=
    getInt_putInt_of_range (by omega) (by exact_mod_cast hk)
  rw [h.run_getBuf hle, List.take_left' hlen, List.drop_left' hlen, hv, Int.toNat_natCast,
    if_neg (by omega), if_pos (by rw [List.length_append]; omega), List.take_left]
  simp only [JyDataReadStream.skip, Nat.cast_add, Int.add_assoc]

/-- What stands behind a buffer is in front of the stream once it is read. -/
theorem Ahead.skip_buf {ds : JyDataReadStream} {k : ℕ} {buf more : Bytes}
    (h : Ahead ds (putInt k buf.length ++ buf ++ more)) : Ahead (ds.skip (k + buf.length)) more := by
  have hs := h.skip
  rwa [List.length_append, length_putInt] at hs

end JyDataReadStream

end EuhatExpert
