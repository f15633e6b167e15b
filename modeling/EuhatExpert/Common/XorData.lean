import EuhatExpert.Common.JyDataCrypto
import EuhatExpert.Common.ReadBack

/-!
# Common/XorData — the symmetric cipher as it runs, word by word

`xorData` reserves room in its stream and fills it through moving pointers: one period of the key after the
other, in each period four words at a time, and single bytes for what is left.  Each of these loops is a
transfer of some number of bytes (`Xors`), and transfers compose.  Whatever stood in the room, the stream is
left with the bytes the disabled loop puts one by one, `xorStream` (`xorData_eq`).
-/

namespace EuhatExpert

open Machinery JyDataWriteStream

/-! ## Memory -/

namespace JyDataWriteStream

/-- The stream with bytes of its own written over, where it has them. -/
def poked (s : JyDataWriteStream) (at_ : ℕ) (data : Bytes) : JyDataWriteStream :=
  if h : at_ + data.length ≤ s.idx_ then s.patch at_ data h else s

/-- A write through a pointer into the stream. -/
def poke (at_ : ℕ) (data : Bytes) : WriteM Unit := fun s =>
  if at_ + data.length ≤ s.idx_ then .ok () (s.poked at_ data) else .error .outside s

/-- `ensureRoom`, as a call. -/
def reserve (addSize : ℕ) : WriteM Unit := fun s => .ok () (s.ensureRoom addSize)

/-- `allocBufWithoutLen`: where the room starts, in which `stale` stands. -/
def allocBufWithoutLen (stale : ℕ → UInt8) (bufLen : ℕ) : WriteM ℕ := do
  let at_ ← getIdx
  putBufWithoutLen ((List.range bufLen).map stale)
  pure at_

variable {s : JyDataWriteStream} {at_ : ℕ} {data data' : Bytes}

theorem poked_written (h : at_ + data.length ≤ s.idx_) :
    (s.poked at_ data).written = overwrite s.written at_ data := by
  rw [poked, dif_pos h, patch]

@[simp] theorem poked_idx : (s.poked at_ data).idx_ = s.idx_ := by
  rw [poked]
  split_ifs with h
  · exact length_overwrite h
  · rfl

@[simp] theorem poked_size : (s.poked at_ data).size_ = s.size_ := by
  rw [poked]
  split_ifs
  · rfl
  · rfl

@[simp] theorem poked_holder : (s.poked at_ data).holder = s.holder := by
  rw [poked]
  split_ifs
  · rfl
  · rfl

theorem run_poke (h : at_ + data.length ≤ s.idx_) : (poke at_ data).run s = .ok () (s.poked at_ data) :=
  if_pos h

theorem poked_nil (h : at_ ≤ s.idx_) : s.poked at_ [] = s := by
  refine JyDataWriteStream.ext ?_ poked_size poked_holder
  rw [poked_written h, overwrite, List.length_nil, Nat.add_zero, List.nil_append, List.take_append_drop]

/-- Two writes, one behind the other, are one. -/
theorem poked_poked (h : at_ + (data ++ data').length ≤ s.idx_) :
    (s.poked at_ data).poked (at_ + data.length) data' = s.poked at_ (data ++ data') := by
  have hlen := h
  rw [List.length_append] at hlen
  have hdata : at_ + data.length ≤ s.idx_ := by omega
  have htake : (s.written.take at_).length = at_ := by
    rw [List.length_take, min_eq_left]
    exact le_trans (Nat.le_add_right _ _) hdata
  refine JyDataWriteStream.ext ?_ (by simp only [poked_size]) (by simp only [poked_holder])
  rw [poked_written (by rw [poked_idx]; omega), poked_written hdata, poked_written h, overwrite,
    take_overwrite (le_trans (Nat.le_add_right _ _) hdata), overwrite, overwrite, ← List.append_assoc,
    ← List.drop_drop, ← List.append_assoc, List.drop_left' (by rw [List.length_append, htake])]
  simp only [List.append_assoc, List.drop_drop, List.length_append, Nat.add_assoc]

/-- Room that is written over whole might have been appended as what it is written over with. -/
theorem poked_push {room : Bytes} (hlen : data.length = room.length)
    (h : s.idx_ + room.length < 2 ^ 31) (h' : s.idx_ + data.length < 2 ^ 31) :
    (s.push room h).poked s.idx_ data = s.push data h' := by
  refine JyDataWriteStream.ext ?_ ?_ ?_
  · rw [poked_written (by rw [push_idx, hlen]), push_written, push_written, overwrite, idx_,
      List.take_left, hlen, ← List.length_append, List.drop_length, List.append_nil]
  · rw [poked_size, push_size, push_size, hlen]
  · rw [poked_holder, push_holder, push_holder, hlen]

/-- What is reserved before is not reserved again. -/
theorem push_ensureRoom (h' : (s.ensureRoom data.length).idx_ + data.length < 2 ^ 31)
    (h : s.idx_ + data.length < 2 ^ 31) : (s.ensureRoom data.length).push data h' = s.push data h := by
  have hidx : (s.ensureRoom data.length).idx_ = s.idx_ := rfl
  have hsize : (s.ensureRoom data.length).size_
      = room JY_ENCRYPT_DATA_ROOM_UNIT_SIZE s.size_ (s.idx_ + data.length) := rfl
  have hholder : (s.ensureRoom data.length).holder
      = if s.size_ < s.idx_ + data.length then .heap else s.holder := rfl
  refine JyDataWriteStream.ext rfl ?_ ?_
  · rw [push_size, push_size, hidx, hsize, room_room unit_pos le_rfl]
  · rw [push_holder, push_holder, hidx, hholder, hsize, if_neg (not_lt.mpr (le_room unit_pos _ _))]

/-- Room that is reserved and allocated: any bytes are appended. -/
theorem run_reserve_alloc {stale : ℕ → UInt8} {room : Bytes} {bufLen : ℕ}
    (hroom : (List.range bufLen).map stale = room) (h : s.idx_ + room.length < 2 ^ 31) :
    (reserve bufLen >>= fun _ => allocBufWithoutLen stale bufLen).run s = .ok s.idx_ (s.push room h) := by
  have hlen : bufLen = room.length := by rw [← hroom, List.length_map, List.length_range]
  have hput : (putBufWithoutLen room).run (s.ensureRoom room.length) = .ok () (s.push room h) :=
    (dif_pos h).trans (congrArg _ (push_ensureRoom h h))
  rw [EStateM.run_bind, allocBufWithoutLen, hroom, hlen]
  change (putBufWithoutLen room >>= fun _ => pure s.idx_).run (s.ensureRoom room.length) = _
  rw [EStateM.run_bind, hput]
  rfl

theorem run_reserve_alloc_over {stale : ℕ → UInt8} {bufLen : ℕ} (h : 2 ^ 31 ≤ s.idx_ + bufLen) :
    ∃ t, (reserve bufLen >>= fun _ => allocBufWithoutLen stale bufLen).run s = .error .overflow t ∧
      t.holder = .heap := by
  have hlen : ((List.range bufLen).map stale).length = bufLen := by
    rw [List.length_map, List.length_range]
  obtain ⟨t, ht, hheap⟩ := (emits_putBufWithoutLen ((List.range bufLen).map stale)).overrun
    (s.ensureRoom bufLen) (by rwa [hlen])
  refine ⟨t, ?_, hheap⟩
  rw [EStateM.run_bind, allocBufWithoutLen]
  change (putBufWithoutLen _ >>= fun _ => pure s.idx_).run (s.ensureRoom bufLen) = _
  rw [EStateM.run_bind, ht]

end JyDataWriteStream

/-! ## The loops -/

/-- The pointers `p`, `pFrom` and `pTo`, as offsets into the payload, the key and the stream. -/
@[ext]
structure XorCursor where
  p : ℕ
  pFrom : ℕ
  pTo : ℕ

def XorCursor.advance (c : XorCursor) (k : ℕ) : XorCursor := ⟨c.p + k, c.pFrom + k, c.pTo + k⟩

/-- `k` bytes of memory. -/
def loadBytes (mem : Bytes) (p k : ℕ) : Except Fault Bytes :=
  if p + k ≤ mem.length then .ok ((mem.drop p).take k) else .error .outside

/-- `*(int64_t *)p`, by its bits. -/
def loadWord (mem : Bytes) (p : ℕ) : Except Fault UInt64 :=
  (loadBytes mem p 8).map fun bs => UInt64.ofNat (leNat bs)

/-- Repeat a step of a loop. -/
def repeatStep : ℕ → (XorCursor → WriteM XorCursor) → XorCursor → WriteM XorCursor
  | 0, _, c => pure c
  | n + 1, step, c => do
    let c ← step c
    repeatStep n step c

section Loops

variable (key buf : Bytes)

/-- One word. -/
def xorWord (c : XorCursor) : WriteM XorCursor := do
  let a ← liftFault (loadWord buf c.p)
  let b ← liftFault (loadWord key c.pFrom)
  poke c.pTo (leBytes 8 (a ^^^ b).toNat)
  pure (c.advance 8)

/-- A turn of the loop over words. -/
def xorFour (c : XorCursor) : WriteM XorCursor := do
  let c ← xorWord key buf c
  let c ← xorWord key buf c
  let c ← xorWord key buf c
  xorWord key buf c

/-- A turn of the loop over bytes. -/
def xorByte (c : XorCursor) : WriteM XorCursor := do
  let a ← liftFault (loadBytes buf c.p 1)
  let b ← liftFault (loadBytes key c.pFrom 1)
  poke c.pTo (a.zipWith (· ^^^ ·) b)
  pure (c.advance 1)

/-- `toCopy` bytes from the start of the key on. -/
def xorPeriod (toCopy : ℕ) (c : XorCursor) : WriteM XorCursor := do
  let c ← repeatStep (toCopy / (8 * 4)) (xorFour key buf) { c with pFrom := 0 }
  repeatStep (toCopy % (8 * 4)) (xorByte key buf) c

/-- The loop over the periods. -/
def xorPeriods (leftBytes : ℕ) (c : XorCursor) : WriteM Unit :=
  let toCopy := if key.length ≤ leftBytes then key.length else leftBytes
  if _h : toCopy = 0 then pure ()
  else do
    let c ← xorPeriod key buf toCopy c
    xorPeriods (leftBytes - toCopy) c
termination_by leftBytes
decreasing_by
  dsimp only [toCopy] at _h
  split_ifs at _h ⊢
  · omega
  · omega

/-- The disabled loop over `toCopy` bytes of a period, which puts one after the other. -/
def putBytes : ℕ → ℕ → ℕ → WriteM ℕ
  | 0, p, _ => pure p
  | toCopy + 1, p, i => do
    let a ← liftFault (loadBytes buf p 1)
    let b ← liftFault (loadBytes key i 1)
    putBufWithoutLen (a.zipWith (· ^^^ ·) b)
    putBytes toCopy (p + 1) (i + 1)

/-- The periods of the disabled loop. -/
def putPeriods (leftBytes p : ℕ) : WriteM Unit :=
  let toCopy := if key.length ≤ leftBytes then key.length else leftBytes
  if _h : toCopy = 0 then pure ()
  else do
    let p ← putBytes key buf toCopy p 0
    putPeriods (leftBytes - toCopy) p
termination_by leftBytes
decreasing_by
  dsimp only [toCopy] at _h
  split_ifs at _h ⊢
  · omega
  · omega

/-- `xorData`; `stale` is what stands in the room it reserves. -/
def xorData (stale : ℕ → UInt8) : WriteM Unit := do
  reserve buf.length
  let pTo ← allocBufWithoutLen stale buf.length
  xorPeriods key buf buf.length ⟨0, 0, pTo⟩

/-! ## Transfers -/

/-- The `k` bytes at the pointers, against each other. -/
def xored (c : XorCursor) (k : ℕ) : Bytes :=
  ((buf.drop c.p).take k).zipWith (· ^^^ ·) ((key.drop c.pFrom).take k)

/-- The pointers have `k` bytes in front of them. -/
structure XorCursor.Room (c : XorCursor) (s : JyDataWriteStream) (k : ℕ) : Prop where
  p : c.p + k ≤ buf.length
  pFrom : c.pFrom + k ≤ key.length
  pTo : c.pTo + k ≤ s.idx_

/-- A step transfers `k` bytes, where there are as many, and moves the pointers behind them. -/
def Xors (k : ℕ) (step : XorCursor → WriteM XorCursor) : Prop :=
  ∀ c s, c.Room key buf s k → (step c).run s = .ok (c.advance k) (s.poked c.pTo (xored key buf c k))

variable {key buf} {c : XorCursor} {s : JyDataWriteStream} {j k : ℕ}

theorem XorCursor.Room.length_xored (h : c.Room key buf s k) : (xored key buf c k).length = k := by
  have hp := h.p
  have hfrom := h.pFrom
  rw [xored, List.length_zipWith, List.length_take, List.length_take, List.length_drop, List.length_drop]
  omega

theorem XorCursor.Room.left (h : c.Room key buf s (j + k)) : c.Room key buf s j := by
  obtain ⟨hp, hfrom, hto⟩ := h
  exact ⟨by omega, by omega, by omega⟩

theorem XorCursor.Room.right (h : c.Room key buf s (j + k)) (data : Bytes) :
    (c.advance j).Room key buf (s.poked c.pTo data) k := by
  obtain ⟨hp, hfrom, hto⟩ := h
  refine ⟨?_, ?_, ?_⟩
  · change c.p + j + k ≤ _
    omega
  · change c.pFrom + j + k ≤ _
    omega
  · change c.pTo + j + k ≤ _
    rw [poked_idx]
    omega

/-- What is transferred in two steps. -/
theorem xored_add (hp : c.p + (j + k) ≤ buf.length) (hfrom : c.pFrom + (j + k) ≤ key.length) :
    xored key buf c (j + k) = xored key buf c j ++ xored key buf (c.advance j) k := by
  have hlen : ((buf.drop c.p).take j).length = ((key.drop c.pFrom).take j).length := by
    rw [List.length_take, List.length_take, List.length_drop, List.length_drop]
    omega
  rw [xored, List.take_add, List.take_add, List.zipWith_append hlen, List.drop_drop, List.drop_drop]
  rfl

/-- **Transfers compose.** -/
theorem Xors.comp {f g : XorCursor → WriteM XorCursor} (hf : Xors key buf j f) (hg : Xors key buf k g) :
    Xors key buf (j + k) fun c => f c >>= g := by
  intro c s h
  have hleft := h.left
  have hto := h.pTo
  rw [EStateM.run_bind, hf c s hleft]
  dsimp only
  rw [hg _ _ (h.right _), xored_add h.p h.pFrom]
  have hj : (c.advance j).pTo = c.pTo + (xored key buf c j).length := by rw [hleft.length_xored]; rfl
  rw [hj, poked_poked (by rw [← xored_add h.p h.pFrom, h.length_xored]; exact hto)]
  simp only [XorCursor.advance, Nat.add_assoc]

theorem xors_pure : Xors key buf 0 pure := by
  intro c s h
  have hto : c.pTo ≤ s.idx_ := h.pTo
  rw [xored, List.take_zero, List.zipWith_nil_left, poked_nil hto]
  rfl

theorem Xors.repeatStep {step : XorCursor → WriteM XorCursor} (h : Xors key buf k step) (n : ℕ) :
    Xors key buf (n * k) (repeatStep n step) := by
  induction n with
  | zero =>
    rw [Nat.zero_mul]
    exact xors_pure
  | succ n ih =>
    rw [Nat.succ_mul, Nat.add_comm]
    exact h.comp ih

theorem loadBytes_of_le {mem : Bytes} {p : ℕ} (h : p + k ≤ mem.length) :
    loadBytes mem p k = .ok ((mem.drop p).take k) := if_pos h

/-- A word against a word is their bytes against each other. -/
theorem leBytes_xor_words {a b : Bytes} (ha : a.length = 8) (hb : b.length = 8) :
    leBytes 8 (UInt64.ofNat (leNat a) ^^^ UInt64.ofNat (leNat b)).toNat = a.zipWith (· ^^^ ·) b := by
  have hlt : ∀ x : Bytes, x.length = 8 → leNat x % 2 ^ 64 = leNat x := by
    intro x hx
    have h := leNat_lt x
    rw [hx] at h
    exact Nat.mod_eq_of_lt (h.trans_eq (by norm_num))
  rw [UInt64.toNat_xor, UInt64.toNat_ofNat', UInt64.toNat_ofNat', hlt a ha, hlt b hb, leBytes_xor]
  conv_rhs => rw [← leBytes_leNat a, ← leBytes_leNat b, ha, hb]

theorem xors_xorWord : Xors key buf 8 (xorWord key buf) := by
  intro c s h
  have hlen : ∀ {mem : Bytes} {p : ℕ}, p + 8 ≤ mem.length → ((mem.drop p).take 8).length = 8 := by
    intro mem p hp
    rw [List.length_take, List.length_drop]
    omega
  have hrun : (poke c.pTo (xored key buf c 8)).run s = .ok () (s.poked c.pTo (xored key buf c 8)) :=
    run_poke (by rw [h.length_xored]; exact h.pTo)
  rw [xorWord, loadWord, loadWord, loadBytes_of_le h.p, loadBytes_of_le h.pFrom]
  simp only [Except.map, liftFault, pure_bind]
  rw [leBytes_xor_words (hlen h.p) (hlen h.pFrom), ← xored, EStateM.run_bind, hrun]
  rfl

theorem xors_xorFour : Xors key buf 32 (xorFour key buf) :=
  xors_xorWord.comp (xors_xorWord.comp (xors_xorWord.comp xors_xorWord))

theorem xors_xorByte : Xors key buf 1 (xorByte key buf) := by
  intro c s h
  have hrun : (poke c.pTo (xored key buf c 1)).run s = .ok () (s.poked c.pTo (xored key buf c 1)) :=
    run_poke (by rw [h.length_xored]; exact h.pTo)
  rw [xorByte, loadBytes_of_le h.p, loadBytes_of_le h.pFrom]
  simp only [liftFault, pure_bind]
  rw [← xored, EStateM.run_bind, hrun]
  rfl

/-- **Blocks of four words and the bytes behind them are the whole period.** -/
theorem run_xorPeriod {toCopy : ℕ} (h : XorCursor.Room key buf { c with pFrom := 0 } s toCopy) :
    (xorPeriod key buf toCopy c).run s
      = .ok ⟨c.p + toCopy, toCopy, c.pTo + toCopy⟩
          (s.poked c.pTo (xored key buf { c with pFrom := 0 } toCopy)) := by
  have hparts : toCopy / (8 * 4) * 32 + toCopy % (8 * 4) * 1 = toCopy := by omega
  have hperiod : Xors key buf (toCopy / (8 * 4) * 32 + toCopy % (8 * 4) * 1) fun c =>
      repeatStep (toCopy / (8 * 4)) (xorFour key buf) c >>=
        repeatStep (toCopy % (8 * 4)) (xorByte key buf) :=
    (xors_xorFour.repeatStep _).comp (xors_xorByte.repeatStep _)
  rw [hparts] at hperiod
  rw [xorPeriod, hperiod _ _ h]
  simp only [XorCursor.advance, Nat.zero_add]

/-! ## The stream of the key -/

variable (key buf) in
/-- Each byte against the one of the repeated key. -/
def xorStream : Bytes := buf.mapIdx fun i b => b ^^^ key.getD (i % key.length) 0

@[simp] theorem length_xorStream : (xorStream key buf).length = buf.length := List.length_mapIdx

/-- Up to a period, the stream is the bytes against the key's. -/
theorem zipWith_eq_mapIdx (h : buf.length ≤ key.length) :
    buf.zipWith (· ^^^ ·) key = xorStream key buf := by
  refine List.ext_getElem (by simp [h]) fun i hi hi' => ?_
  have hlt : i < key.length := by
    rw [List.length_zipWith] at hi
    omega
  simp only [List.getElem_zipWith, xorStream, List.getElem_mapIdx]
  rw [Nat.mod_eq_of_lt hlt, List.getD_eq_getElem?_getD, List.getElem?_eq_getElem hlt, Option.getD_some]

/-- Behind a period, the key starts again. -/
theorem xorStream_append {front back : Bytes} (h : front.length = key.length) :
    xorStream key (front ++ back) = xorStream key front ++ xorStream key back := by
  rw [xorStream, List.mapIdx_append, h]
  simp only [Nat.add_mod_right]
  rfl

/-- The stream, cut behind a period or where the payload ends. -/
theorem xorStream_take_append (h : k = key.length ∨ buf.length ≤ k) :
    xorStream key buf = xorStream key (buf.take k) ++ xorStream key (buf.drop k) := by
  by_cases hle : buf.length ≤ k
  · rw [List.take_of_length_le hle, List.drop_eq_nil_of_le hle]
    exact (List.append_nil _).symm
  · have hlen : (buf.take k).length = key.length := by
      rw [List.length_take]
      omega
    rw [← xorStream_append hlen, List.take_append_drop]

/-- **What the endpoints send is this stream.** -/
theorem xorBytes_eq_xorStream (hkey : key ≠ []) (buf : Bytes) (stale : ℕ → UInt8) :
    xorBytes key buf stale = xorStream key buf := by
  have hpos := List.length_pos_of_ne_nil hkey
  rw [xorBytes, if_neg hkey]
  induction buf using chunks.induct key.length with
  | case1 buf h ih =>
    rw [chunks_of_ne_nil hpos h.2, List.flatMap_cons, ih, zipWith_eq_mapIdx (List.length_take_le _ _),
      ← xorStream_take_append (.inl rfl)]
  | case2 buf h =>
    obtain rfl : buf = [] := by_contra fun hbuf => h ⟨hpos, hbuf⟩
    rw [chunks_nil]
    rfl

/-- A period of the loop, or what is left of one. -/
theorem xored_eq_xorStream {p pTo toCopy : ℕ} (hkey : toCopy ≤ key.length) :
    xored key buf ⟨p, 0, pTo⟩ toCopy = xorStream key ((buf.drop p).take toCopy) := by
  rw [xored, List.drop_zero, ← zipWith_eq_mapIdx ((List.length_take_le _ _).trans hkey)]
  refine List.ext_getElem ?_ fun i _ _ => ?_
  · simp only [List.length_zipWith, List.length_take]
    omega
  · simp only [List.getElem_zipWith, List.getElem_take]

/-- The stream from a place on: a period, or what is left of one, and the stream behind it. -/
theorem xorStream_drop_eq {p pTo leftBytes toCopy : ℕ} (hp : p + leftBytes = buf.length)
    (hcopy : toCopy = min key.length leftBytes) : xorStream key (buf.drop p)
      = xored key buf ⟨p, 0, pTo⟩ toCopy ++ xorStream key (buf.drop (p + toCopy)) := by
  rw [xored_eq_xorStream (hcopy ▸ Nat.min_le_left _ _), ← List.drop_drop]
  exact xorStream_take_append (by rw [List.length_drop]; omega)

/-- **The loop over the periods writes the stream over the room.** -/
theorem run_xorPeriods (hkey : key ≠ []) : ∀ (leftBytes : ℕ) (c : XorCursor) (s : JyDataWriteStream),
    c.p + leftBytes = buf.length → c.pTo + leftBytes ≤ s.idx_ →
      (xorPeriods key buf leftBytes c).run s = .ok () (s.poked c.pTo (xorStream key (buf.drop c.p))) := by
  intro leftBytes
  induction leftBytes using Nat.strong_induction_on with
  | h leftBytes ih =>
    intro c s hp hto
    have hpos := List.length_pos_of_ne_nil hkey
    rw [xorPeriods]
    generalize hcopy : (if key.length ≤ leftBytes then key.length else leftBytes) = toCopy
    have hcopy' : toCopy = min key.length leftBytes := by
      rw [← hcopy, min_def]
    have hle : toCopy ≤ key.length ∧ toCopy ≤ leftBytes := by omega
    split_ifs with h0
    · obtain rfl : leftBytes = 0 := by omega
      have hdrop : buf.drop c.p = [] := List.drop_eq_nil_of_le (by omega)
      rw [hdrop, xorStream, List.mapIdx_nil, poked_nil (by omega)]
      rfl
    · have hroom : XorCursor.Room key buf { c with pFrom := 0 } s toCopy :=
        ⟨by change c.p + _ ≤ _; omega, by change 0 + _ ≤ _; omega, by change c.pTo + _ ≤ _; omega⟩
      have hlen := hroom.length_xored
      have hnext := ih (leftBytes - toCopy) (by omega) ⟨c.p + toCopy, toCopy, c.pTo + toCopy⟩
        (s.poked c.pTo (xored key buf { c with pFrom := 0 } toCopy)) (by dsimp only; omega)
        (by rw [poked_idx]; dsimp only; omega)
      have hsplit : xorStream key (buf.drop c.p) = xored key buf { c with pFrom := 0 } toCopy
          ++ xorStream key (buf.drop (c.p + toCopy)) := xorStream_drop_eq hp hcopy'
      have hpoke := @poked_poked s c.pTo (xored key buf { c with pFrom := 0 } toCopy)
        (xorStream key (buf.drop (c.p + toCopy))) (by
          rw [← hsplit, length_xorStream, List.length_drop]
          omega)
      rw [hlen] at hpoke
      rw [EStateM.run_bind, run_xorPeriod hroom]
      dsimp only at hnext ⊢
      rw [hnext, hpoke, ← hsplit]

/-- What the loop makes of the room that was allocated is what `xorData` appends. -/
theorem emits_xorData_of_periods {data : Bytes} {stale : ℕ → UInt8} (hlen : data.length = buf.length)
    (hloop : ∀ (s : JyDataWriteStream) (hroom : s.idx_ + ((List.range buf.length).map stale).length < 2 ^ 31)
      (hdata : s.idx_ + data.length < 2 ^ 31), (xorPeriods key buf buf.length ⟨0, 0, s.idx_⟩).run
        (s.push ((List.range buf.length).map stale) hroom) = .ok () (s.push data hdata)) :
    Emits (xorData key buf stale) data (.ok ()) := by
  have hassoc : xorData key buf stale = (reserve buf.length >>= fun _ =>
      allocBufWithoutLen stale buf.length) >>= fun pTo => xorPeriods key buf buf.length ⟨0, 0, pTo⟩ := by
    rw [xorData, bind_assoc]
  refine ⟨fun s h => ?_, fun s h => ?_⟩
  · have hroom : s.idx_ + ((List.range buf.length).map stale).length < 2 ^ 31 := by
      rwa [List.length_map, List.length_range, ← hlen]
    rw [hassoc, EStateM.run_bind, run_reserve_alloc rfl hroom]
    exact hloop s hroom h
  · rw [hlen] at h
    obtain ⟨t, ht, hheap⟩ := @run_reserve_alloc_over s stale buf.length h
    exact ⟨t, by rw [hassoc, EStateM.run_bind, ht], hheap⟩

/-- **`xorData` appends the stream**, whatever stood in the room. -/
theorem emits_xorData (hkey : key ≠ []) (buf : Bytes) (stale : ℕ → UInt8) :
    Emits (xorData key buf stale) (xorStream key buf) (.ok ()) := by
  refine emits_xorData_of_periods length_xorStream fun s hroom hdata => ?_
  have hlen : (xorStream key buf).length = ((List.range buf.length).map stale).length := by
    rw [length_xorStream, List.length_map, List.length_range]
  have hloop := run_xorPeriods hkey buf.length ⟨0, 0, s.idx_⟩
    (s.push ((List.range buf.length).map stale) hroom) (Nat.zero_add _)
    (by rw [push_idx, ← hlen, length_xorStream])
  dsimp only at hloop
  rw [hloop, List.drop_zero, poked_push hlen hroom hdata]

/-- Without a key the loop ends at once, and what stood in the room is appended. -/
theorem emits_xorData_nil (buf : Bytes) (stale : ℕ → UInt8) :
    Emits (xorData [] buf stale) ((List.range buf.length).map stale) (.ok ()) := by
  refine emits_xorData_of_periods (by rw [List.length_map, List.length_range]) fun s hroom hdata => ?_
  have hdone : xorPeriods [] buf buf.length ⟨0, 0, s.idx_⟩ = pure () := by
    rw [xorPeriods]
    exact dif_pos (if_pos (Nat.zero_le _))
  rw [hdone]
  rfl

/-- **With a key or without, `xorData` appends what an endpoint's symmetric cipher does.** -/
theorem emits_xorData_xorBytes (key buf : Bytes) (stale : ℕ → UInt8) :
    Emits (xorData key buf stale) (xorBytes key buf stale) (.ok ()) := by
  by_cases hkey : key = []
  · rw [hkey, xorBytes, if_pos rfl]
    exact emits_xorData_nil buf stale
  · rw [xorBytes_eq_xorStream hkey]
    exact emits_xorData hkey buf stale

/-! ## The disabled loop -/

theorem emits_putBytes : ∀ {toCopy p i : ℕ}, p + toCopy ≤ buf.length → i + toCopy ≤ key.length →
    Emits (putBytes key buf toCopy p i) (xored key buf ⟨p, i, 0⟩ toCopy) (.ok (p + toCopy))
  | 0, p, i, _, _ => by
    rw [xored, List.take_zero, List.zipWith_nil_left]
    exact emits_pure p
  | toCopy + 1, p, i, hp, hi => by
    have hsplit : xored key buf ⟨p, i, 0⟩ (toCopy + 1)
        = xored key buf ⟨p, i, 0⟩ 1 ++ xored key buf ⟨p + 1, i + 1, 0⟩ toCopy := by
      rw [Nat.add_comm toCopy]
      exact @xored_add key buf ⟨p, i, 0⟩ 1 toCopy (by dsimp only; omega) (by dsimp only; omega)
    rw [hsplit, putBytes, loadBytes_of_le (by omega), loadBytes_of_le (by omega)]
    simp only [liftFault, pure_bind]
    refine (emits_putBufWithoutLen _).bind ?_
    rw [Nat.add_comm toCopy, ← Nat.add_assoc]
    exact emits_putBytes (by omega) (by omega)

theorem emits_putPeriods (hkey : key ≠ []) (leftBytes : ℕ) : ∀ p : ℕ, p + leftBytes = buf.length →
    Emits (putPeriods key buf leftBytes p) (xorStream key (buf.drop p)) (.ok ()) := by
  induction leftBytes using Nat.strong_induction_on with
  | h leftBytes ih =>
    intro p hp
    have hpos := List.length_pos_of_ne_nil hkey
    rw [putPeriods]
    generalize hcopy : (if key.length ≤ leftBytes then key.length else leftBytes) = toCopy
    have hcopy' : toCopy = min key.length leftBytes := by
      rw [← hcopy, min_def]
    have hle : toCopy ≤ key.length ∧ toCopy ≤ leftBytes := by omega
    split_ifs with h0
    · have hdrop : buf.drop p = [] := List.drop_eq_nil_of_le (by omega)
      rw [hdrop, xorStream, List.mapIdx_nil]
      exact emits_pure ()
    · rw [@xorStream_drop_eq key buf p 0 leftBytes toCopy hp hcopy']
      exact (emits_putBytes (by omega) (by omega)).bind (ih _ (by omega) _ (by omega))

/-- **The cipher undoes itself.** -/
theorem xorStream_xorStream (key buf : Bytes) : xorStream key (xorStream key buf) = buf := by
  rw [xorStream, xorStream, List.mapIdx_mapIdx]
  refine List.ext_getElem (by rw [List.length_mapIdx]) fun i _ _ => ?_
  rw [List.getElem_mapIdx]
  simp only [Function.comp_apply, UInt8.xor_assoc, UInt8.xor_self, UInt8.xor_zero]

/-- **The loop over words appends what the loop over bytes puts**: each byte against the repeated key's.  What
was in the stream stays, and a second time gives the payload back. -/
theorem xorData_eq (hkey : key ≠ []) (buf : Bytes) :
    (∀ stale, Emits (xorData key buf stale) (xorStream key buf) (.ok ())) ∧
      Emits (putPeriods key buf buf.length 0) (xorStream key buf) (.ok ()) ∧
      (∀ stale s s', (xorData key buf stale).run s = .ok () s' →
        s'.written = s.written ++ xorStream key buf) ∧
      ∀ stale, Emits (xorData key (xorStream key buf) stale) buf (.ok ()) := by
  refine ⟨emits_xorData hkey buf, emits_putPeriods hkey buf.length 0 (Nat.zero_add _), ?_, ?_⟩
  · exact fun stale s s' hrun => ((emits_xorData hkey buf stale).of_run hrun).1
  · intro stale
    have hback := emits_xorData hkey (xorStream key buf) stale
    rwa [xorStream_xorStream] at hback

/-- A payload of 70 bytes under a key of 33: two periods of a block and a byte, and four bytes. -/
theorem xorData_eq_seventy :
    Emits (xorData (List.replicate 33 7) (List.replicate 70 1) fun _ => 9) (List.replicate 70 6) (.ok ()) := by
  have hstream : xorStream (List.replicate 33 7) (List.replicate 70 1) = List.replicate 70 6 := by
    decide +kernel
  exact hstream ▸ (xorData_eq (by decide) (List.replicate 70 1)).1 fun _ => 9

end Loops

end EuhatExpert
