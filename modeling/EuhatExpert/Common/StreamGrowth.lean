import EuhatExpert.Common.JyTcpSelector
import EuhatExpert.Machinery.Run
import EuhatExpert.Machinery.WordDoubling

/-!
# Common/StreamGrowth — a write stream in machine words

`JyDataStream` has the stream with exact numbers; here its sizes are `size_t`s of 64 bits and its index is
an `int`, so a length may wrap where it is added to the index, where the size is doubled, and where it is
narrowed.  **A length is met safely exactly when it does none of these** (`RoomFor`, `grows_iff`), in every
state that safe calls lead to, and then the stream is the exact one (`Holds.puts`).
-/

namespace EuhatExpert

open Machinery JyDataWriteStream

/-- An `int` as a `size_t`. -/
def asSize (v : ℤ) : ℕ := (v % 2 ^ 64).toNat

/-- A `size_t` as an `int`. -/
def asInt (n : ℕ) : ℤ := Int.bmod n (2 ^ 32)

/-- `JyDataWriteStream` as the machine has it: the `buf_.size_` bytes at `data_`, and `idx_`. -/
structure WordWriteStream where
  mem : Bytes
  idx_ : ℤ
  deriving DecidableEq

namespace WordWriteStream

def size_ (s : WordWriteStream) : ℕ := s.mem.length

/-- The bytes written already. -/
def written (s : WordWriteStream) : Bytes := s.mem.take s.idx_.toNat

/-- `idx_ + addSize`. -/
def needed (s : WordWriteStream) (addSize : ℕ) : ℕ := (asSize s.idx_ + addSize) % 2 ^ 64

/-- `dataSize` before the loop. -/
def firstSize (s : WordWriteStream) : ℕ := if s.size_ = 0 then JY_ENCRYPT_DATA_ROOM_UNIT_SIZE else s.size_

/-- `ensureRoom`, when its loop ends within `fuel` turns; `new` gives what it is asked for, with `junk` in
it. -/
def ensureRoom (junk : ℕ → UInt8) (fuel addSize : ℕ) (s : WordWriteStream) : Option WordWriteStream :=
  if s.size_ < s.needed addSize then
    (growIn (2 ^ 64) fuel (s.needed addSize) s.firstSize).map fun dataSize =>
      { s with mem := s.mem ++ (List.range (dataSize - s.size_)).map junk }
  else some s

/-- `memcpy` to the memory of the stream. -/
def memcpy (at_ : ℤ) (buf : Bytes) (s : WordWriteStream) : Except Fault WordWriteStream :=
  if 0 ≤ at_ ∧ at_ + buf.length ≤ s.size_ then .ok { s with mem := overwrite s.mem at_.toNat buf }
  else .error .outside

/-- `idx_ += (int)len`. -/
def advance (len : ℕ) (s : WordWriteStream) : Except Fault WordWriteStream :=
  if -2 ^ 31 ≤ s.idx_ + asInt len ∧ s.idx_ + asInt len < 2 ^ 31 then .ok { s with idx_ := s.idx_ + asInt len }
  else .error .overflow

def putBufWithoutLen (junk : ℕ → UInt8) (fuel : ℕ) (buf : Bytes) (s : WordWriteStream) :
    Option (Except Fault WordWriteStream) :=
  (s.ensureRoom junk fuel buf.length).map fun s => (s.memcpy s.idx_ buf).bind (advance buf.length)

def allocBufWithoutLen (junk : ℕ → UInt8) (fuel bufLen : ℕ) (s : WordWriteStream) :
    Option (Except Fault WordWriteStream) :=
  (s.ensureRoom junk fuel bufLen).map (advance bufLen)

/-- `put<T>` of a value that is the bytes `t`; `idx_ += sizeof(t)` adds as `size_t`s. -/
def put (junk : ℕ → UInt8) (fuel : ℕ) (t : Bytes) (s : WordWriteStream) :
    Option (Except Fault WordWriteStream) :=
  (s.ensureRoom junk fuel t.length).map fun s =>
    (s.memcpy s.idx_ t).map fun s => { s with idx_ := asInt (s.needed t.length) }

end WordWriteStream

/-! ## Histories -/

/-- The calls that write to a stream. -/
inductive WriteCall
  | ensureRoom (addSize : ℕ)
  | put (t : Bytes)
  | putAt (t : Bytes) (at_ : ℤ)
  | putBufWithoutLen (buf : Bytes)
  | allocBufWithoutLen (bufLen : ℕ)

namespace WriteCall

/-- The length a call asks room for. -/
def addSize : WriteCall → ℕ
  | .ensureRoom addSize => addSize
  | .put t => t.length
  | .putAt _ _ => 0
  | .putBufWithoutLen buf => buf.length
  | .allocBufWithoutLen bufLen => bufLen

def run (junk : ℕ → UInt8) (fuel : ℕ) (s : WordWriteStream) : WriteCall → Option (Except Fault WordWriteStream)
  | .ensureRoom addSize => (s.ensureRoom junk fuel addSize).map .ok
  | .put t => s.put junk fuel t
  | .putAt t at_ => some (s.memcpy at_ t)
  | .putBufWithoutLen buf => s.putBufWithoutLen junk fuel buf
  | .allocBufWithoutLen bufLen => s.allocBufWithoutLen junk fuel bufLen

end WriteCall

namespace WordWriteStream

/-- A call with a 64-bit length that returns. -/
def Step (s : WordWriteStream) (call : WriteCall) (s' : WordWriteStream) : Prop :=
  call.addSize < 2 ^ 64 ∧ ∃ junk fuel, call.run junk fuel s = some (.ok s')

/-- `JyDataWriteStream()`, or a `JyDataWriteBlock` on a block of a pool. -/
inductive Fresh : WordWriteStream → Prop
  | new : Fresh ⟨[], 0⟩
  | block (pool : JyBufPool) {mem : Bytes} (h : mem.length = pool.unitSize_) : Fresh ⟨mem, 0⟩

/-- `addSize` wraps nowhere: not added to the index, not when the capacity is doubled until it is enough, and
not as an `int` added to the index. -/
structure RoomFor (s : WordWriteStream) (addSize : ℕ) : Prop where
  sum : s.idx_ + addSize < 2 ^ 64
  doubles : s.idx_ + addSize ≤ s.size_ ∨ ∃ k, s.idx_ + addSize ≤ (s.firstSize * 2 ^ k % 2 ^ 64 : ℕ)
  narrowed : 0 ≤ asInt addSize
  index : s.idx_ + asInt addSize < 2 ^ 31

/-- `s'` has at least the bytes written to `s`. -/
def Keeps (s s' : WordWriteStream) : Prop := s'.mem.take s.idx_.toNat = s.written

/-- A call that returned kept what was written and left the index in the buffer, not behind where it was. -/
structure Moved (s s' : WordWriteStream) : Prop where
  keeps : s.Keeps s'
  forward : s.idx_ ≤ s'.idx_
  inside : s'.idx_ ≤ s'.size_

/-- Growing by `addSize` is safe, whatever stands in new memory. -/
structure GrowsSafely (s : WordWriteStream) (addSize : ℕ) : Prop where
  room : ∀ junk, ∃ fuel s', s.ensureRoom junk fuel addSize = some s' ∧ s.idx_ + addSize ≤ s'.size_ ∧ s.Keeps s'
  alloc : ∀ junk, ∃ fuel s', s.allocBufWithoutLen junk fuel addSize = some (.ok s') ∧ s.Moved s'
  put : ∀ junk buf, buf.length = addSize →
    ∃ fuel s', s.putBufWithoutLen junk fuel buf = some (.ok s') ∧ s.Moved s'

/-- The index is in the buffer, and both are numbers of their types. -/
structure Sound (s : WordWriteStream) : Prop where
  nonneg : 0 ≤ s.idx_
  inside : s.idx_ ≤ s.size_
  isInt : s.idx_ < 2 ^ 31
  isSize : s.size_ < 2 ^ 64

/-! ## Numbers of one type as another -/

theorem asSize_of_nonneg {v : ℤ} (h0 : 0 ≤ v) (h : v < 2 ^ 64) : (asSize v : ℤ) = v := by
  have hmod : v % 2 ^ 64 = v := Int.emod_eq_of_lt h0 h
  rw [asSize, hmod]
  exact Int.toNat_of_nonneg h0

theorem bmod_le_natCast (n m : ℕ) : Int.bmod n m ≤ n := by
  have hmod : ((n % m : ℕ) : ℤ) ≤ n := Int.ofNat_le.mpr (Nat.mod_le n m)
  rw [Int.bmod_def, ← Int.natCast_mod]
  split_ifs <;> omega

theorem asInt_le (n : ℕ) : asInt n ≤ n := bmod_le_natCast n _

theorem asInt_of_lt {n : ℕ} (h : n < 2 ^ 31) : asInt n = n :=
  Int.bmod_eq_of_le_mul_two (by omega) (by push_cast; omega)

variable {s s' : WordWriteStream} {addSize fuel : ℕ} {junk : ℕ → UInt8}

theorem Sound.needed_eq (hs : s.Sound) (hsum : s.idx_ + addSize < 2 ^ 64) :
    (s.needed addSize : ℤ) = s.idx_ + addSize := by
  have hidx := asSize_of_nonneg hs.nonneg (hs.isInt.trans (by norm_num))
  rw [needed, Nat.mod_eq_of_lt (by omega)]
  push_cast
  rw [hidx]

theorem firstSize_pos (s : WordWriteStream) : 0 < s.firstSize := by
  rw [firstSize]
  split_ifs with h
  · exact unit_pos
  · exact Nat.pos_of_ne_zero h

theorem Sound.firstSize_lt (hs : s.Sound) : s.firstSize < 2 ^ 64 := by
  rw [firstSize]
  split_ifs
  · decide
  · exact hs.isSize

/-! ## What `ensureRoom` does -/

/-- When `ensureRoom` ends, the memory goes on from what it was and meets the length as it was added. -/
theorem Sound.of_ensureRoom (hs : s.Sound) (h : s.ensureRoom junk fuel addSize = some s') :
    s'.idx_ = s.idx_ ∧ s.mem <+: s'.mem ∧ s'.size_ < 2 ^ 64 ∧ s.needed addSize ≤ s'.size_ ∧
      (s.needed addSize ≤ s.size_ ∨ ∃ k, s.needed addSize ≤ s.firstSize * 2 ^ k % 2 ^ 64) := by
  rw [ensureRoom] at h
  split_ifs at h with hlt
  · obtain ⟨dataSize, hgrow, rfl⟩ := Option.map_eq_some_iff.mp h
    obtain ⟨hneed, k, hk⟩ := of_growIn hs.firstSize_lt hgrow
    have hsize : (s.mem ++ (List.range (dataSize - s.size_)).map junk).length = dataSize := by
      rw [List.length_append, List.length_map, List.length_range, ← size_]
      omega
    have hdata : dataSize < 2 ^ 64 := hk ▸ Nat.mod_lt _ (by norm_num)
    exact ⟨rfl, List.prefix_append _ _, hsize.trans_lt hdata, hneed.trans_eq hsize.symm, .inr ⟨k, hk ▸ hneed⟩⟩
  · obtain rfl := Option.some.inj h
    exact ⟨rfl, List.prefix_refl _, hs.isSize, not_lt.mp hlt, .inl (not_lt.mp hlt)⟩

/-- **`ensureRoom` ends** when some doubling of the capacity is enough. -/
theorem Sound.exists_ensureRoom (hs : s.Sound) (junk : ℕ → UInt8)
    (h : s.needed addSize ≤ s.size_ ∨ ∃ k, s.needed addSize ≤ s.firstSize * 2 ^ k % 2 ^ 64) :
    ∃ fuel s', s.ensureRoom junk fuel addSize = some s' := by
  by_cases hlt : s.size_ < s.needed addSize
  · obtain ⟨fuel, t, hgrow⟩ := (exists_growIn_iff hs.firstSize_lt).mpr (h.resolve_left (not_le.mpr hlt))
    exact ⟨fuel, _, by rw [ensureRoom, if_pos hlt, hgrow, Option.map_some]⟩
  · exact ⟨0, s, if_neg hlt⟩

theorem Sound.keeps (hs : s.Sound) (h : s.mem <+: s'.mem) : s.Keeps s' := by
  obtain ⟨more, hmore⟩ := h
  have hin := hs.inside
  rw [Keeps, ← hmore, List.take_append_of_le_length (by rw [← size_]; omega), written]

/-- With room for the length, the memory after `ensureRoom` has room for it behind the index. -/
theorem Sound.met (hs : s.Sound) (hroom : s.RoomFor addSize) (h : s.ensureRoom junk fuel addSize = some s') :
    s'.idx_ = s.idx_ ∧ s.mem <+: s'.mem ∧ s'.size_ < 2 ^ 64 ∧ s.idx_ + addSize ≤ s'.size_ := by
  obtain ⟨hidx, hmem, hsize, hneed, -⟩ := hs.of_ensureRoom h
  have heq := hs.needed_eq hroom.sum
  exact ⟨hidx, hmem, hsize, by omega⟩

theorem Sound.exists_room (hs : s.Sound) (hroom : s.RoomFor addSize) (junk : ℕ → UInt8) :
    ∃ fuel s', s.ensureRoom junk fuel addSize = some s' := by
  refine hs.exists_ensureRoom junk ?_
  have heq := hs.needed_eq hroom.sum
  rcases hroom.doubles with hle | ⟨k, hk⟩
  · exact .inl (by omega)
  · exact .inr ⟨k, by omega⟩

/-! ## What the calls that move the index do -/

theorem take_overwrite_front {block data : Bytes} {at_ k : ℕ} (hk : k ≤ at_) (h : at_ ≤ block.length) :
    (overwrite block at_ data).take k = block.take k := by
  rw [overwrite, List.take_append_of_le_length (by rw [List.length_take]; omega), List.take_take, min_eq_left hk]

theorem memcpy_eq_ok {at_ : ℤ} {buf : Bytes} :
    s.memcpy at_ buf = .ok s' ↔
      (0 ≤ at_ ∧ at_ + buf.length ≤ s.size_) ∧ s' = { s with mem := overwrite s.mem at_.toNat buf } := by
  rw [memcpy]
  split_ifs with h
  · rw [Except.ok.injEq, and_iff_right h, eq_comm]
  · exact iff_of_false (by simp) fun hok => h hok.1

theorem advance_eq_ok {len : ℕ} :
    s.advance len = .ok s' ↔ (-2 ^ 31 ≤ s.idx_ + asInt len ∧ s.idx_ + asInt len < 2 ^ 31) ∧
      s' = { s with idx_ := s.idx_ + asInt len } := by
  rw [advance]
  split_ifs with h
  · rw [Except.ok.injEq, and_iff_right h, eq_comm]
  · exact iff_of_false (by simp) fun hok => h hok.1

/-- What is copied into the memory leaves its size, and what stands in front of it. -/
theorem size_memcpy {at_ : ℤ} {buf : Bytes} (h : s.memcpy at_ buf = .ok s') :
    s'.idx_ = s.idx_ ∧ s'.size_ = s.size_ ∧ s'.mem.take at_.toNat = s.mem.take at_.toNat := by
  obtain ⟨⟨h0, hle⟩, rfl⟩ := memcpy_eq_ok.mp h
  rw [size_] at hle
  exact ⟨rfl, length_overwrite (by omega), take_overwrite_front le_rfl (by omega)⟩

/-- The index moved by a length there is room for is in the buffer. -/
theorem RoomFor.moved (hroom : s.RoomFor addSize) {mem : Bytes}
    (hkeep : mem.take s.idx_.toNat = s.written) (hsize : s.idx_ + addSize ≤ mem.length) :
    s.Moved ⟨mem, s.idx_ + asInt addSize⟩ where
  keeps := hkeep
  forward := by
    have := hroom.narrowed
    dsimp only
    omega
  inside := by
    have := asInt_le addSize
    rw [size_]
    dsimp only
    omega

theorem Sound.alloc (hs : s.Sound) (hroom : s.RoomFor addSize) (junk : ℕ → UInt8) :
    ∃ fuel s', s.allocBufWithoutLen junk fuel addSize = some (.ok s') ∧ s.Moved s' := by
  obtain ⟨fuel, t, ht⟩ := hs.exists_room hroom junk
  obtain ⟨hidx, hmem, -, hsize⟩ := hs.met hroom ht
  have h0 := hs.nonneg
  have hn := hroom.narrowed
  have hi := hroom.index
  have hadv : t.advance addSize = .ok ⟨t.mem, s.idx_ + asInt addSize⟩ :=
    advance_eq_ok.mpr ⟨by rw [hidx]; omega, by rw [hidx]⟩
  exact ⟨fuel, _, by rw [allocBufWithoutLen, ht, Option.map_some, hadv], hroom.moved (hs.keeps hmem) hsize⟩

theorem Sound.put (hs : s.Sound) {buf : Bytes} (hroom : s.RoomFor buf.length) (junk : ℕ → UInt8) :
    ∃ fuel s', s.putBufWithoutLen junk fuel buf = some (.ok s') ∧ s.Moved s' := by
  obtain ⟨fuel, t, ht⟩ := hs.exists_room hroom junk
  obtain ⟨hidx, hmem, -, hsize⟩ := hs.met hroom ht
  have h0 := hs.nonneg
  have hn := hroom.narrowed
  have hi := hroom.index
  obtain ⟨u, hu⟩ : ∃ u, t.memcpy t.idx_ buf = .ok u := ⟨_, memcpy_eq_ok.mpr ⟨⟨by omega, by omega⟩, rfl⟩⟩
  obtain ⟨hui, hus, hut⟩ := size_memcpy hu
  have hadv : u.advance buf.length = .ok ⟨u.mem, s.idx_ + asInt buf.length⟩ :=
    advance_eq_ok.mpr ⟨by rw [hui, hidx]; omega, by rw [hui, hidx]⟩
  refine ⟨fuel, _, by rw [putBufWithoutLen, ht, Option.map_some, hu, Except.bind, hadv], hroom.moved ?_ ?_⟩
  · rw [← hidx, hut, hidx]
    exact hs.keeps hmem
  · rw [← size_, hus]
    exact hsize

/-- **Growing by a length is safe exactly when there is room for it.** -/
theorem Sound.growsSafely_iff (hs : s.Sound) : s.GrowsSafely addSize ↔ s.RoomFor addSize := by
  constructor
  · intro hg
    obtain ⟨fuel, s', hens, hroom, -⟩ := hg.room fun _ => 0
    obtain ⟨-, -, hsize, -, hdoubles⟩ := hs.of_ensureRoom hens
    have hsum : s.idx_ + addSize < 2 ^ 64 := hroom.trans_lt (by exact_mod_cast hsize)
    have heq := hs.needed_eq hsum
    obtain ⟨fuel, s', halloc, hmoved⟩ := hg.alloc fun _ => 0
    obtain ⟨t, ht, hadv⟩ := Option.map_eq_some_iff.mp halloc
    obtain ⟨hidx, -⟩ := hs.of_ensureRoom ht
    obtain ⟨⟨-, hlt⟩, rfl⟩ := advance_eq_ok.mp hadv
    have hforward := hmoved.forward
    dsimp only at hforward
    rw [hidx] at hlt hforward
    refine ⟨hsum, ?_, by omega, hlt⟩
    rcases hdoubles with hle | ⟨k, hk⟩
    · exact .inl (by omega)
    · exact .inr ⟨k, by omega⟩
  · intro hroom
    refine ⟨fun junk => ?_, fun junk => hs.alloc hroom junk, ?_⟩
    · obtain ⟨fuel, s', h⟩ := hs.exists_room hroom junk
      obtain ⟨-, hmem, -, hsize⟩ := hs.met hroom h
      exact ⟨fuel, s', h, hsize, hs.keeps hmem⟩
    · rintro junk buf rfl
      exact hs.put hroom junk

/-! ## Histories of writes -/

theorem Fresh.sound (h : Fresh s) : s.Sound := by
  cases h with
  | new => exact ⟨le_rfl, le_rfl, by norm_num, by simp [size_]⟩
  | block pool h =>
    have hlt : pool.unitSize_ < 2 ^ 31 := pool.isInt
    exact ⟨le_rfl, Int.natCast_nonneg _, by norm_num, by rw [size_, h]; omega⟩

/-- A stream that goes on in memory that meets the length is sound. -/
theorem Sound.advanced (hs : s.Sound) (hroom : s.RoomFor addSize) {mem : Bytes} (hlt : mem.length < 2 ^ 64)
    (hsize : s.idx_ + addSize ≤ mem.length) : Sound ⟨mem, s.idx_ + asInt addSize⟩ where
  nonneg := add_nonneg hs.nonneg hroom.narrowed
  inside := by
    have := asInt_le addSize
    rw [size_]
    dsimp only
    omega
  isInt := hroom.index
  isSize := hlt

/-- `idx_ += sizeof(t)` adds as an `int` where there is room. -/
theorem Sound.asInt_needed (hs : s.Sound) (hroom : s.RoomFor addSize) :
    asInt (s.needed addSize) = s.idx_ + asInt addSize := by
  have h0 := hs.nonneg
  have hn := hroom.narrowed
  have hi := hroom.index
  calc asInt (s.needed addSize)
    _ = Int.bmod (s.idx_ + addSize) (2 ^ 32) := congrArg (Int.bmod · (2 ^ 32)) (hs.needed_eq hroom.sum)
    _ = Int.bmod (s.idx_ + asInt addSize) (2 ^ 32) := Int.add_bmod_bmod.symm
    _ = s.idx_ + asInt addSize := Int.bmod_eq_of_le_mul_two (by omega) (by push_cast; omega)

/-- **A call with room for its length leaves a sound stream.** -/
theorem Sound.step (hs : s.Sound) {call : WriteCall} (hroom : s.RoomFor call.addSize)
    (hstep : s.Step call s') : s'.Sound := by
  obtain ⟨-, junk, fuel, hrun⟩ := hstep
  cases call with
  | ensureRoom addSize =>
    obtain ⟨t, ht, ⟨⟩⟩ := Option.map_eq_some_iff.mp hrun
    obtain ⟨hidx, hmem, hlt, -⟩ := hs.met hroom ht
    have hle : s.size_ ≤ s'.size_ := hmem.length_le
    have hin := hs.inside
    exact ⟨hidx ▸ hs.nonneg, by omega, hidx ▸ hs.isInt, hlt⟩
  | put t =>
    obtain ⟨u, hu, hok⟩ := Option.map_eq_some_iff.mp hrun
    obtain ⟨hidx, -, hlt, hsize⟩ := hs.met hroom hu
    obtain ⟨v, hv, rfl⟩ : ∃ v, u.memcpy u.idx_ t = .ok v ∧ _ = s' := by
      cases hcopy : u.memcpy u.idx_ t with
      | error f => rw [hcopy] at hok; cases hok
      | ok v => rw [hcopy] at hok; exact ⟨v, rfl, Except.ok.inj hok⟩
    obtain ⟨hvi, hvs, -⟩ := size_memcpy hv
    have hneed : v.needed t.length = s.needed t.length := by rw [needed, needed, hvi, hidx]
    have heq : asInt (v.needed t.length) = s.idx_ + asInt t.length :=
      (congrArg asInt hneed).trans (hs.asInt_needed hroom)
    rw [heq]
    exact hs.advanced hroom (hvs.trans_lt hlt) (by rw [← size_, hvs]; exact hsize)
  | putAt t at_ =>
    obtain ⟨hidx, hsize, -⟩ := size_memcpy (Option.some.inj hrun)
    exact ⟨hidx ▸ hs.nonneg, by rw [hidx, hsize]; exact hs.inside, hidx ▸ hs.isInt, hsize ▸ hs.isSize⟩
  | putBufWithoutLen buf =>
    obtain ⟨u, hu, hok⟩ := Option.map_eq_some_iff.mp hrun
    obtain ⟨hidx, -, hlt, hsize⟩ := hs.met hroom hu
    obtain ⟨v, hv, hadv⟩ : ∃ v, u.memcpy u.idx_ buf = .ok v ∧ v.advance buf.length = .ok s' := by
      cases hcopy : u.memcpy u.idx_ buf with
      | error f => rw [hcopy] at hok; cases hok
      | ok v => rw [hcopy] at hok; exact ⟨v, rfl, hok⟩
    obtain ⟨hvi, hvs, -⟩ := size_memcpy hv
    obtain ⟨-, rfl⟩ := advance_eq_ok.mp hadv
    rw [hvi, hidx]
    exact hs.advanced hroom (hvs.trans_lt hlt) (by rw [← size_, hvs]; exact hsize)
  | allocBufWithoutLen bufLen =>
    obtain ⟨u, hu, hadv⟩ := Option.map_eq_some_iff.mp hrun
    obtain ⟨hidx, -, hlt, hsize⟩ := hs.met hroom hu
    obtain ⟨-, rfl⟩ := advance_eq_ok.mp hadv
    rw [hidx]
    exact hs.advanced hroom hlt hsize

/-- **Calls that all find room lead to sound streams only.** -/
theorem Fresh.sound_of_run {s₀ : WordWriteStream} (h₀ : Fresh s₀) {calls : List WriteCall}
    (hrun : Run (restrict Step fun s call => s.RoomFor call.addSize) s₀ calls s) : s.Sound :=
  hrun.invariant h₀.sound fun _ _ _ hs hstep => hs.step hstep.2 hstep.1

/-! ## Lengths of `int`s, and the exact stream -/

/-- A length that keeps the index an `int` has room. -/
theorem Sound.roomFor (hs : s.Sound) (h : s.idx_ + addSize < 2 ^ 31) : s.RoomFor addSize := by
  have h0 := hs.nonneg
  have hint : asInt addSize = addSize := asInt_of_lt (by omega)
  have hgrow : growIn (2 ^ 64) (s.idx_.toNat + addSize + 1) (s.idx_.toNat + addSize) s.firstSize = some _ :=
    exists_growIn_of_le s.firstSize_pos (by omega)
  obtain ⟨hneed, k, hk⟩ := of_growIn hs.firstSize_lt hgrow
  refine ⟨by omega, .inr ⟨k, ?_⟩, by omega, by rw [hint]; exact h⟩
  rw [← hk]
  omega

/-- The exact stream whose bytes, size and index these are. -/
structure Holds (w : WordWriteStream) (s : JyDataWriteStream) : Prop where
  idx : w.idx_ = s.idx_
  size : w.size_ = s.size_
  bytes : w.written = s.written

theorem holds_new : Holds ⟨[], 0⟩ .new := ⟨rfl, rfl, rfl⟩

theorem holds_ofPool (pool : JyBufPool) {mem : Bytes} (h : mem.length = pool.unitSize_) :
    Holds ⟨mem, 0⟩ (.ofPool pool) := ⟨rfl, h, rfl⟩

/-- For the lengths of the exact stream `ensureRoom` makes the room it makes there. -/
theorem Sound.ensureRoom_room (hs : s.Sound) (h : s.idx_ + addSize < 2 ^ 31) (junk : ℕ → UInt8) :
    ∃ fuel s', s.ensureRoom junk fuel addSize = some s' ∧
      s'.size_ = room JY_ENCRYPT_DATA_ROOM_UNIT_SIZE s.size_ (s.idx_.toNat + addSize) := by
  have h0 := hs.nonneg
  have hneed : s.needed addSize = s.idx_.toNat + addSize := by
    have heq : (s.needed addSize : ℤ) = s.idx_ + addSize := hs.needed_eq (by omega)
    omega
  by_cases hlt : s.size_ < s.idx_.toNat + addSize
  · have hgrow : growIn (2 ^ 64) (s.needed addSize + 1) (s.needed addSize) s.firstSize = some _ :=
      exists_growIn_of_le s.firstSize_pos (by omega)
    have hroom : room JY_ENCRYPT_DATA_ROOM_UNIT_SIZE s.size_ (s.idx_.toNat + addSize)
        = grow (s.needed addSize) (s.needed addSize) s.firstSize := by
      rw [hneed, room, if_pos hlt, firstSize]
    have hle : s.size_ ≤ grow (s.needed addSize) (s.needed addSize) s.firstSize := hroom ▸ le_room_self _ _
    refine ⟨_, _, by rw [ensureRoom, if_pos (by rw [hneed]; exact hlt), hgrow, Option.map_some], ?_⟩
    rw [hroom, size_, List.length_append, List.length_map, List.length_range, ← size_]
    omega
  · exact ⟨0, s, if_neg (by rw [hneed]; exact hlt), (room_of_le (not_lt.mp hlt)).symm⟩

/-- **In machine words a write that keeps the index an `int` is the exact one.** -/
theorem Holds.put {w : WordWriteStream} {x : JyDataWriteStream} (hw : w.Holds x) (hs : w.Sound) {buf : Bytes}
    (h : x.idx_ + buf.length < 2 ^ 31) (junk : ℕ → UInt8) :
    ∃ fuel w', w.putBufWithoutLen junk fuel buf = some (.ok w') ∧ w'.Holds (x.push buf h) := by
  have hidx := hw.idx
  have hlt : w.idx_ + buf.length < 2 ^ 31 := by omega
  obtain ⟨fuel, t, ht, hsize⟩ := hs.ensureRoom_room hlt junk
  obtain ⟨hti, hmem, -, hroom⟩ := hs.met (hs.roomFor hlt) ht
  have hint : asInt buf.length = buf.length := asInt_of_lt (by omega)
  have hnat : w.idx_.toNat = x.idx_ := by omega
  have hcopy : t.memcpy t.idx_ buf = .ok { t with mem := overwrite t.mem t.idx_.toNat buf } :=
    memcpy_eq_ok.mpr ⟨⟨by omega, by omega⟩, rfl⟩
  have hadv : WordWriteStream.advance buf.length { t with mem := overwrite t.mem t.idx_.toNat buf }
      = .ok ⟨overwrite t.mem x.idx_ buf, w.idx_ + buf.length⟩ :=
    advance_eq_ok.mpr ⟨by dsimp only; omega, by dsimp only; rw [hti, hint, hnat]⟩
  refine ⟨fuel, _, by rw [putBufWithoutLen, ht, Option.map_some, hcopy, Except.bind, hadv], ?_, ?_, ?_⟩
  · rw [push_idx]
    push_cast
    rw [hidx]
  · rw [push_size, ← hw.size, ← hnat, ← hsize, size_]
    exact length_overwrite (by rw [← size_]; omega)
  · have hkeep := hs.keeps hmem
    have htake : (w.idx_ + buf.length).toNat = x.idx_ + buf.length := by omega
    rw [written, htake, take_overwrite (by rw [← size_]; omega), push_written, ← hw.bytes, ← hkeep, hnat]

/-- The exact stream a fresh one holds has nothing in it. -/
theorem Fresh.exists_holds (h : Fresh s) : ∃ x : JyDataWriteStream, s.Holds x ∧ x.written = [] := by
  cases h with
  | new => exact ⟨_, holds_new, rfl⟩
  | block pool hmem => exact ⟨_, holds_ofPool pool hmem, rfl⟩

/-- **Buffers put one behind the other find room in machine words**, and leave what they leave in the exact
stream, as long as its index stays an `int`. -/
theorem Holds.puts (bufs : List Bytes) : ∀ {w : WordWriteStream} {x : JyDataWriteStream}, w.Holds x → w.Sound →
    ∀ h : x.idx_ + bufs.flatten.length < 2 ^ 31, ∃ w', Run (restrict Step fun s call => s.RoomFor call.addSize) w
      (bufs.map .putBufWithoutLen) w' ∧ w'.Holds (x.push bufs.flatten h) := by
  induction bufs with
  | nil =>
    intro w x hw _ h
    have hnil : x.push ([] : List Bytes).flatten h = x := push_nil x h
    exact ⟨w, .nil, by rwa [hnil]⟩
  | cons buf bufs ih =>
    intro w x hw hs h
    rw [List.flatten_cons] at h
    have hlen := h
    rw [List.length_append] at hlen
    have hbuf : x.idx_ + buf.length < 2 ^ 31 := by omega
    obtain ⟨fuel, w₁, hput, hw₁⟩ := hw.put hs hbuf fun _ => 0
    have hroom : w.RoomFor buf.length := hs.roomFor (by rw [hw.idx]; exact_mod_cast hbuf)
    have hstep : Step w (.putBufWithoutLen buf) w₁ :=
      ⟨lt_of_le_of_lt (Nat.le_add_left _ _) (hbuf.trans (by norm_num)), fun _ => 0, fuel, hput⟩
    have hrest : (x.push buf hbuf).idx_ + bufs.flatten.length < 2 ^ 31 := by
      rw [push_idx]
      omega
    have hs₁ : w₁.Sound := @Sound.step w w₁ hs (.putBufWithoutLen buf) hroom hstep
    obtain ⟨w', hrun, hw'⟩ := ih hw₁ hs₁ hrest
    rw [push_push _ hbuf hrest h] at hw'
    exact ⟨w', (Run.single ⟨hstep, hroom⟩).trans hrun, hw'⟩

/-- **A fresh stream has the buffers that are put in it**, if they are below `2 ^ 31` bytes. -/
theorem Fresh.written_of_puts (h₀ : Fresh s) {bufs : List Bytes} (h : bufs.flatten.length < 2 ^ 31) :
    ∃ w', Run (restrict Step fun s call => s.RoomFor call.addSize) s (bufs.map .putBufWithoutLen) w' ∧
      w'.written = bufs.flatten := by
  obtain ⟨x, hx, hempty⟩ := h₀.exists_holds
  have hidx : x.idx_ = 0 := by rw [JyDataWriteStream.idx_, hempty, List.length_nil]
  obtain ⟨w', hrun, hw'⟩ := hx.puts bufs h₀.sound (by rwa [hidx, Nat.zero_add])
  exact ⟨w', hrun, by rw [hw'.bytes, push_written, hempty, List.nil_append]⟩

/-- **In every state that calls with room lead to, growing by a length is safe exactly when there is room
for it.** -/
theorem grows_iff {s₀ : WordWriteStream} (h₀ : Fresh s₀) {calls : List WriteCall} {s : WordWriteStream}
    (hrun : Run (restrict Step fun s call => s.RoomFor call.addSize) s₀ calls s) (addSize : ℕ) :
    s.GrowsSafely addSize ↔ s.RoomFor addSize :=
  (h₀.sound_of_run hrun).growsSafely_iff

/-- A block of four bytes, one of them written. -/
theorem run_block : ∃ s₀, Fresh s₀ ∧
    Run (restrict Step fun s call => s.RoomFor call.addSize) s₀ [.putBufWithoutLen [7]] ⟨[7, 0, 0, 0], 1⟩ := by
  have hfresh : Fresh ⟨[0, 0, 0, 0], 0⟩ := .block ⟨4, by norm_num⟩ rfl
  refine ⟨_, hfresh, .single ⟨⟨by simp [WriteCall.addSize], fun _ => 0, 0, by decide⟩, ?_⟩⟩
  exact hfresh.sound.roomFor (by simp [WriteCall.addSize])

theorem grows_block : GrowsSafely ⟨[7, 0, 0, 0], 1⟩ 100000 := by
  obtain ⟨s₀, h₀, hrun⟩ := run_block
  exact (grows_iff h₀ hrun 100000).mpr ((h₀.sound_of_run hrun).roomFor (by norm_num))

/-- **A length of `-1`**, which is `2 ^ 64 - 1`, makes no room and moves the index back. -/
theorem moves_back : ∃ s₀ calls s, Fresh s₀ ∧
    Run (restrict Step fun s call => s.RoomFor call.addSize) s₀ calls s ∧
    s.allocBufWithoutLen (fun _ => 0) 0 (asSize (-1)) = some (.ok { s with idx_ := s.idx_ - 1 }) ∧
    ¬ s.GrowsSafely (asSize (-1)) := by
  obtain ⟨s₀, h₀, hrun⟩ := run_block
  refine ⟨s₀, _, _, h₀, hrun, by decide, fun hg => ?_⟩
  have hnarrow := ((h₀.sound_of_run hrun).growsSafely_iff.mp hg).narrowed
  exact absurd hnarrow (by decide)

end WordWriteStream

end EuhatExpert
