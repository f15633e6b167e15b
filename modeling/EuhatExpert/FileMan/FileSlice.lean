import EuhatExpert.FileMan.DiskFileOp
import EuhatExpert.FileMan.SubListBytes

/-!
# FileMan/FileSlice — does `fmReadFile` put the slice that was asked for

What arrives in a download request is any position and any length; `FmsDownFile::echo` only caps the
length from above.  `fmReadFile` compares the position with the size of the file, computes what is left in
64 bits and narrows it to an `int`, and never asks for the sign of either: a seek before the start fails
unnoticed, and a negative length moves the index of the stream back.  What it puts is the slice exactly
when neither is negative, but for an empty slice (`slices_iff`).
-/

namespace EuhatExpert

open Machinery JyDataWriteStream

namespace FileSlice

/-- The bytes of a file, whose size is an `int64_t`. -/
abbrev Content := { bytes : Bytes // bytes.length < 2 ^ 63 }

/-- A position and a length as they can arrive in a request. -/
structure Asked where
  pos : ℤ
  reqLen : ℤ
  pos_isInt64 : IsInt64 pos
  reqLen_isInt : -2 ^ 31 ≤ reqLen ∧ reqLen < 2 ^ 31

/-- The length `FmsDownFile::echo` asks `fmReadFile` for. -/
def Asked.len (r : Asked) : ℤ :=
  if r.reqLen > FILE_MAN_RECV_FILE_SEGMENT_MAX_LEN then FILE_MAN_RECV_FILE_SEGMENT_MAX_LEN
  else r.reqLen

theorem Asked.len_le (r : Asked) : r.len ≤ 20866662 := by
  rw [Asked.len, FILE_MAN_RECV_FILE_SEGMENT_MAX_LEN]
  split_ifs
  · exact le_rfl
  · omega

/-! ## `fmReadFile`, on the stream of the reply -/

/-- The reserved bytes once `fread` has written `data` to the front of them. -/
def filled (stale : ℕ → UInt8) (data : Bytes) (reserved : ℕ) : Bytes :=
  data ++ (List.range (reserved - data.length)).map stale

/-- `idx_` moved back to `k`. -/
def moveBack (s : JyDataWriteStream) (k : ℕ) : JyDataWriteStream where
  written := s.written.take k
  size_ := s.size_
  holder := s.holder
  fits := (List.length_take_le' _ _).trans s.fits
  isInt := (List.length_take_le' _ _).trans_lt s.isInt
  poolIsInt := s.poolIsInt

/-- `allocBufWithoutLen(toReadLen)` and the `fread` of as many bytes, of which the file has `rest`.  A
negative length is a large `size_t`.  Added to `idx_` it runs over: where the sum is an index again,
nothing is reserved, `idx_` moves back, and `fread` writes all of `rest` to where it stood; where it is
not, no doubling reaches it. -/
def allocAndRead (stale : ℕ → UInt8) (rest : Bytes) (toReadLen : ℤ) : WriteM Unit := fun s =>
  if 0 ≤ toReadLen then
    putBufWithoutLen (filled stale (rest.take toReadLen.toNat) toReadLen.toNat) s
  else if s.idx_ + toReadLen < 0 then .error .overflow s
  else if rest ≠ [] then .error .outside s
  else .ok () (moveBack s (s.idx_ + toReadLen).toNat)

/-- The result, the position, and the length `allocBuf` puts in front of its buffer. -/
def putHead (result pos toReadLen : ℤ) : WriteM Unit := do
  put 4 result
  put 8 pos
  put 4 toReadLen

/-- What `fmReadFile` puts for a position in the file. -/
def putSegment (stale : ℕ → UInt8) (rest : Bytes) (result pos toReadLen : ℤ) : WriteM Unit := do
  putHead result pos toReadLen
  allocAndRead stale rest toReadLen

/-- `trueLeft`, before it is compared with the length: the difference as an `int64_t`. -/
def trueLeft (content : Content) (pos : ℤ) : ℤ := Int.bmod (content.val.length - pos) (2 ^ 64)

/-- `toReadLen`, narrowed to an `int`. -/
def toReadLen (content : Content) (pos len : ℤ) : ℤ :=
  Int.bmod (if trueLeft content pos > len then len else trueLeft content pos) (2 ^ 32)

def resultOf (content : Content) (pos len : ℤ) : ℤ :=
  if trueLeft content pos > len then FmResultOk else FmResultFileReachEnd

/-- `fmReadFile`, on a file that can be opened or none.  A seek to a negative position fails and leaves
the handle at the start of the file. -/
def fmReadFile (file : Option Content) (stale : ℕ → UInt8) (pos len : ℤ) : WriteM Unit :=
  match file with
  | none => put 4 FmResultFileNotExist
  | some content =>
    if content.val.length < pos then put 4 FmResultFileSeekExceed
    else
      putSegment stale (content.val.drop pos.toNat) (resultOf content pos len) pos
        (toReadLen content pos len)

/-! ## What it is to put -/

/-- The bytes of a file from `pos` on. -/
def IsSlice (content : Content) (pos : ℤ) (slice : Bytes) : Prop :=
  ∀ (i : ℕ) (h : i < slice.length), 0 ≤ pos + i ∧ content.val[(pos + i).toNat]? = some slice[i]

/-- A slice in a reply. -/
def segmentBytes (result pos : ℤ) (slice : Bytes) : Bytes :=
  putInt 4 result ++ (putInt 8 pos ++ (putInt 4 slice.length ++ slice))

/-- A lone error code, or a slice of at most the length asked for, and whether it reaches the end. -/
inductive Answer (file : Option Content) (r : Asked) : Bytes → Prop
  | error (code : ℤ) (hint : 0 ≤ code ∧ code < 2 ^ 31)
      (hcode : code ≠ FmResultOk ∧ code ≠ FmResultFileReachEnd) : Answer file r (putInt 4 code)
  | slice (content : Content) (slice : Bytes) (hfile : file = some content)
      (hlen : slice.length ≤ r.len) (hslice : IsSlice content r.pos slice) :
      Answer file r (segmentBytes
        (if r.pos + slice.length = content.val.length then FmResultFileReachEnd else FmResultOk)
        r.pos slice)

/-- A reply with its header, the id and the path in front. -/
abbrev Ack := { s : JyDataWriteStream // s.idx_ < 2 ^ 16 }

/-- `fmReadFile` appends an answer to the reply. -/
def Slices (file : Option Content) (stale : ℕ → UInt8) (r : Asked) (s : Ack) : Prop :=
  ∃ bs, Answer file r bs ∧ ∃ h, (fmReadFile file stale r.pos r.len).run s.val = .ok () (s.val.push bs h)

/-! ## What it puts -/

variable {stale : ℕ → UInt8} {rest : Bytes} {result pos len : ℤ}

theorem length_filled {data : Bytes} {n : ℕ} (h : data.length ≤ n) :
    (filled stale data n).length = n := by
  rw [filled, List.length_append, List.length_map, List.length_range]
  omega

theorem filled_of_le {data : Bytes} {n : ℕ} (h : n ≤ data.length) : filled stale data n = data := by
  rw [filled, Nat.sub_eq_zero_of_le h]
  exact List.append_nil _

theorem length_segmentBytes (slice : Bytes) :
    (segmentBytes result pos slice).length = 16 + slice.length := by
  simp only [segmentBytes, List.length_append, length_putInt]
  omega

theorem emits_putHead (result pos len : ℤ) :
    Emits (putHead result pos len) (putInt 4 result ++ (putInt 8 pos ++ putInt 4 len)) (.ok ()) :=
  (emits_put 4 result).bind ((emits_put 8 pos).bind (emits_put 4 len))

/-- With a length that is no negative number, a segment is put. -/
theorem emits_putSegment (n : ℕ) : Emits (putSegment stale rest result pos n)
    (segmentBytes result pos (filled stale (rest.take n) n)) (.ok ()) := by
  have halloc : allocAndRead stale rest n = putBufWithoutLen (filled stale (rest.take n) n) := by
    funext s
    rw [allocAndRead, if_pos (Int.natCast_nonneg n), Int.toNat_natCast]
  have hfilled := emits_putBufWithoutLen (filled stale (rest.take n) n)
  rw [← halloc] at hfilled
  have h : Emits (putSegment stale rest result pos n) _ _ := (emits_putHead result pos n).bind hfilled
  rw [segmentBytes, length_filled (List.length_take_le _ _)]
  rwa [List.append_assoc, List.append_assoc] at h

/-- With a negative one, the index is back among what was put, if the call comes back at all. -/
theorem run_putSegment_of_neg {s t : JyDataWriteStream} (hneg : len < 0)
    (hroom : s.idx_ + 16 < 2 ^ 31) (hrun : (putSegment stale rest result pos len).run s = .ok () t) :
    ∃ m < s.idx_ + 16, t.written
      = (s.written ++ (putInt 4 result ++ (putInt 8 pos ++ putInt 4 len))).take m := by
  have hlen : (putInt 4 result ++ (putInt 8 pos ++ putInt 4 len)).length = 16 := by
    simp only [List.length_append, length_putInt]
  have hhead := (emits_putHead result pos len).run s (by rw [hlen]; exact hroom)
  rw [putSegment, EStateM.run_bind, hhead] at hrun
  simp only [resultOn, EStateM.run, allocAndRead, if_neg (not_le.mpr hneg)] at hrun
  split_ifs at hrun with hover hrest
  obtain rfl := (EStateM.Result.ok.inj hrun).2
  rw [push_idx, hlen] at hover
  refine ⟨_, ?_, rfl⟩
  rw [push_idx, hlen]
  omega

theorem putInt_inj {k : ℕ} {v w : ℤ} (hv : -((256 ^ k : ℕ) : ℤ) ≤ 2 * v ∧ 2 * v < (256 ^ k : ℕ))
    (hw : -((256 ^ k : ℕ) : ℤ) ≤ 2 * w ∧ 2 * w < (256 ^ k : ℕ)) (h : putInt k v = putInt k w) :
    v = w := by
  rw [← getInt_putInt_of_range hv.1 hv.2, h, getInt_putInt_of_range hw.1 hw.2]

/-- A result of `fmReadFile` in front of a segment. -/
def IsResult (result : ℤ) : Prop := result = FmResultOk ∨ result = FmResultFileReachEnd

theorem IsResult.range (h : IsResult result) :
    -((256 ^ 4 : ℕ) : ℤ) ≤ 2 * result ∧ 2 * result < (256 ^ 4 : ℕ) := by
  rcases h with rfl | rfl
  · decide
  · decide

theorem code_range {code : ℤ} (h : 0 ≤ code ∧ code < 2 ^ 31) :
    -((256 ^ 4 : ℕ) : ℤ) ≤ 2 * code ∧ 2 * code < (256 ^ 4 : ℕ) := by
  norm_num at h ⊢
  omega

variable {file : Option Content} {r : Asked}

/-- A segment that answers a request is the slice. -/
theorem Answer.of_segment {slice : Bytes} (hresult : IsResult result)
    (h : Answer file r (segmentBytes result r.pos slice)) :
    ∃ content, file = some content ∧ slice.length ≤ r.len ∧ IsSlice content r.pos slice ∧
      (result = FmResultFileReachEnd ↔ r.pos + slice.length = content.val.length) := by
  generalize hbs : segmentBytes result r.pos slice = bs at h
  cases h with
  | error code hint hcode =>
    have hlen := congrArg List.length hbs
    rw [length_segmentBytes, length_putInt] at hlen
    omega
  | slice content slice' hfile hlen hslice =>
    obtain ⟨hcode, hbs⟩ := List.append_inj hbs (by rw [length_putInt, length_putInt])
    have hbs := List.append_cancel_left hbs
    obtain ⟨-, rfl⟩ := List.append_inj hbs (by rw [length_putInt, length_putInt])
    refine ⟨content, hfile, hlen, hslice, ?_⟩
    by_cases hend : r.pos + slice.length = content.val.length
    · rw [if_pos hend] at hcode
      exact iff_of_true (putInt_inj hresult.range (IsResult.range (.inr rfl)) hcode) hend
    · rw [if_neg hend] at hcode
      have hok := putInt_inj hresult.range (IsResult.range (.inl rfl)) hcode
      exact iff_of_false (by rw [hok]; decide) hend

theorem isResult_resultOf (content : Content) (pos len : ℤ) : IsResult (resultOf content pos len) := by
  rw [resultOf]
  split_ifs
  · exact .inl rfl
  · exact .inr rfl

/-- No answer is put once the index has moved back. -/
theorem not_answer_of_neg {s : Ack} {bs : Bytes} (hresult : IsResult result) (hneg : len < 0)
    {h : s.val.idx_ + bs.length < 2 ^ 31} (hbs : Answer file r bs)
    (hrun : (putSegment stale rest result pos len).run s.val = .ok () (s.val.push bs h)) : False := by
  have hidx : s.val.written.length < 2 ^ 16 := s.property
  obtain ⟨m, hm, ht⟩ := run_putSegment_of_neg hneg (by rw [idx_]; omega) hrun
  rw [idx_] at hm
  rw [push_written] at ht
  have hlen := congrArg List.length ht
  simp only [List.length_append, List.length_take, length_putInt] at hlen
  cases hbs with
  | error code hint hcode =>
    rw [length_putInt] at hlen
    obtain rfl : m = s.val.written.length + 4 := by omega
    rw [List.take_length_add_append, List.take_left' (length_putInt 4 result)] at ht
    have hcode' := putInt_inj (code_range hint) hresult.range (List.append_cancel_left ht)
    rcases hresult with hok | hend
    · exact hcode.1 (hcode'.trans hok)
    · exact hcode.2 (hcode'.trans hend)
  | slice content slice hfile hle hslice =>
    rw [length_segmentBytes] at hlen
    omega

/-! ## When it is an answer -/

/-- Neither number is negative, or the slice is empty. -/
def Answerable (content : Content) (r : Asked) : Prop :=
  0 ≤ r.len ∧ (0 ≤ r.pos ∨ r.len = 0 ∧ content.val.length - r.pos < 2 ^ 63)

/-- What is put for a position in the file is an answer only when it is answerable. -/
theorem answerable_of_slices {content : Content} {s : Ack} (hfile : file = some content)
    (hpos : r.pos ≤ content.val.length) (h : Slices file stale r s) : Answerable content r := by
  obtain ⟨bs, hbs, hroom, hrun⟩ := h
  have hsize := content.property
  have hresult := isResult_resultOf content r.pos r.len
  subst hfile
  rw [fmReadFile] at hrun
  simp only [if_neg (not_lt.mpr hpos)] at hrun
  rcases lt_or_ge (toReadLen content r.pos r.len) 0 with hneg | hnonneg
  · exact (not_answer_of_neg hresult hneg hbs hrun).elim
  obtain ⟨n, hn⟩ := Int.eq_ofNat_of_zero_le hnonneg
  rw [hn] at hrun
  have he := @emits_putSegment stale (content.val.drop r.pos.toNat) (resultOf content r.pos r.len) r.pos n
  have hlen := @length_filled stale ((content.val.drop r.pos.toNat).take n) n (List.length_take_le _ _)
  by_cases hfits : s.val.idx_ + (segmentBytes (resultOf content r.pos r.len) r.pos
      (filled stale ((content.val.drop r.pos.toNat).take n) n)).length < 2 ^ 31
  · rw [he.run s.val hfits] at hrun
    obtain rfl := push_inj _ (EStateM.Result.ok.inj hrun).2
    obtain ⟨content', hcontent, hle, hslice, hend⟩ := hbs.of_segment hresult
    obtain rfl := Option.some.inj hcontent
    rw [hlen] at hle hend
    refine ⟨by omega, ?_⟩
    rcases le_or_gt 0 r.pos with hpos₀ | hpos₀
    · exact .inl hpos₀
    -- nothing can be a slice from a negative position on but the empty one
    obtain rfl : n = 0 := by
      by_contra hne
      have h := (hslice 0 (by rw [hlen]; omega)).1
      omega
    have hok : ¬ resultOf content r.pos r.len = FmResultFileReachEnd := by
      rw [hend]
      push_cast
      omega
    have hmore : trueLeft content r.pos > r.len := by
      by_contra hmore
      exact hok (if_neg hmore)
    have hle₁ := r.len_le
    rw [toReadLen, if_pos hmore] at hn
    have hzero : r.len = 0 := by
      rw [Int.bmod_eq_of_le (by omega) (by omega)] at hn
      exact_mod_cast hn
    refine .inr ⟨hzero, ?_⟩
    rw [hzero, trueLeft] at hmore
    by_contra hover
    have hposRange := r.pos_isInt64.1
    have hwrap : Int.bmod (content.val.length - r.pos) (2 ^ 64) = content.val.length - r.pos - 2 ^ 64 := by
      rw [Int.bmod_eq_iff (by norm_num)]
      refine ⟨by norm_num; omega, by norm_num; omega, by norm_num⟩
    rw [hwrap] at hmore
    omega
  · obtain ⟨t, ht, -⟩ := he.overrun s.val (not_lt.mp hfits)
    rw [ht] at hrun
    cases hrun

theorem isSlice_take (content : Content) (k n : ℕ) :
    IsSlice content k ((content.val.drop k).take n) := by
  intro i hi
  have hlen := hi
  rw [List.length_take, List.length_drop] at hlen
  refine ⟨by omega, ?_⟩
  rw [show ((k : ℤ) + i).toNat = k + i from Int.toNat_natCast (k + i),
    List.getElem?_eq_getElem (by omega), List.getElem_take, List.getElem_drop]

/-- An answer that is put, of the size of a reply. -/
theorem slices_of_emits {s : Ack} {bs : Bytes}
    (he : Emits (fmReadFile file stale r.pos r.len) bs (.ok ())) (hbs : Answer file r bs)
    (hlen : bs.length < 2 ^ 30) : Slices file stale r s := by
  have hidx := s.property
  have hroom : s.val.idx_ + bs.length < 2 ^ 31 := by omega
  exact ⟨bs, hbs, hroom, he.run s.val hroom⟩

section InRange

variable {content : Content} {k l : ℕ} (hk : k ≤ content.val.length)

include hk

theorem trueLeft_eq : trueLeft content k = (content.val.length - k : ℕ) := by
  have hsize := content.property
  rw [trueLeft, Int.bmod_eq_iff (by norm_num)]
  refine ⟨by omega, by omega, ?_⟩
  rw [Nat.cast_sub hk, sub_self]
  exact dvd_zero _

/-- What there is to read up to the length asked for. -/
theorem toReadLen_eq (hl : l < 2 ^ 31) :
    toReadLen content k l = (min l (content.val.length - k) : ℕ) := by
  have hmin : (if trueLeft content k > l then (l : ℤ) else trueLeft content k)
      = (min l (content.val.length - k) : ℕ) := by
    rw [trueLeft_eq hk]
    split_ifs <;> omega
  rw [toReadLen, hmin, Int.bmod_eq_iff (by norm_num)]
  exact ⟨by omega, by omega, by rw [sub_self]; exact dvd_zero _⟩

theorem resultOf_eq : resultOf content k l
    = if k + l < content.val.length then FmResultOk else FmResultFileReachEnd := by
  rw [resultOf, trueLeft_eq hk]
  by_cases hlt : k + l < content.val.length
  · rw [if_pos hlt, if_pos (by omega)]
  · rw [if_neg hlt, if_neg (by omega)]

/-- What is put from a position in the file on, for a length that is no negative number. -/
theorem emits_fmReadFile (hl : l < 2 ^ 31) : Emits (fmReadFile (some content) stale k l)
    (segmentBytes (if k + l < content.val.length then FmResultOk else FmResultFileReachEnd) k
      ((content.val.drop k).take l)) (.ok ()) := by
  have he := @emits_putSegment stale (content.val.drop k) (resultOf content k l) k
    (min l (content.val.length - k))
  have htake : (content.val.drop k).take (min l (content.val.length - k))
      = (content.val.drop k).take l := by
    rw [← List.length_drop, ← List.take_eq_take_min]
  rw [htake, filled_of_le (by rw [List.length_take, List.length_drop]), resultOf_eq hk] at he
  rw [fmReadFile]
  simp only [if_neg (show ¬ (content.val.length : ℤ) < k by omega)]
  rw [toReadLen_eq hk hl, resultOf_eq hk, Int.toNat_natCast]
  exact he

end InRange

/-- What is put for a position in the file is an answer when it is answerable. -/
theorem slices_of_answerable {content : Content} {s : Ack} (hpos : r.pos ≤ content.val.length)
    (h : Answerable content r) : Slices (some content) stale r s := by
  have hle := r.len_le
  obtain ⟨hnonneg, hcase⟩ := h
  rcases lt_or_ge r.pos 0 with hneg | hpos₀
  · obtain ⟨hzero, hleft⟩ := hcase.resolve_left (not_le.mpr hneg)
    have hmore : trueLeft content r.pos > r.len := by
      rw [hzero, trueLeft, Int.bmod_eq_of_le (by norm_num; omega) (by norm_num; omega)]
      omega
    have he := @emits_putSegment stale (content.val.drop r.pos.toNat) FmResultOk r.pos 0
    have hanswer := @Answer.slice _ r content [] rfl hnonneg nofun
    rw [if_neg (by rw [List.length_nil]; omega)] at hanswer
    refine slices_of_emits ?_ hanswer (by rw [length_segmentBytes]; norm_num)
    rw [fmReadFile]
    simp only [if_neg (not_lt.mpr hpos)]
    rw [resultOf, if_pos hmore, toReadLen, if_pos hmore, hzero]
    exact he
  · obtain ⟨k, hk⟩ := Int.eq_ofNat_of_zero_le hpos₀
    obtain ⟨l, hl⟩ := Int.eq_ofNat_of_zero_le hnonneg
    have hk' : k ≤ content.val.length := by omega
    have hlen : ((content.val.drop k).take l).length = min l (content.val.length - k) := by
      rw [List.length_take, List.length_drop]
    have hslice : IsSlice content r.pos ((content.val.drop k).take l) := by
      rw [hk]
      exact isSlice_take content k l
    have hanswer := @Answer.slice _ r content _ rfl (by rw [hlen]; omega) hslice
    have hend : (if r.pos + ((content.val.drop k).take l).length = content.val.length then
          FmResultFileReachEnd else FmResultOk)
        = if k + l < content.val.length then FmResultOk else FmResultFileReachEnd := by
      rw [hlen, hk]
      by_cases hlt : k + l < content.val.length
      · rw [if_pos hlt, if_neg (by omega)]
      · rw [if_neg hlt, if_pos (by omega)]
    rw [hend] at hanswer
    refine slices_of_emits ?_ hanswer (by rw [length_segmentBytes, hlen]; omega)
    rw [hk, hl]
    exact emits_fmReadFile hk' (by omega)

/-- **`fmReadFile` appends an answer exactly when there is no such file, or the position is behind its
end, or neither the position nor the length is negative — or the length is zero, and what is left from
the position to the end of the file can be counted in 64 bits.** -/
theorem slices_iff (file : Option Content) (stale : ℕ → UInt8) (r : Asked) (s : Ack) :
    Slices file stale r s ↔
      ∀ content, file = some content → r.pos ≤ content.val.length → Answerable content r := by
  refine ⟨fun h content hfile hpos => answerable_of_slices hfile hpos h, fun h => ?_⟩
  have hidx := s.property
  have hlone : ∀ code : ℤ, s.val.idx_ + (putInt 4 code).length < 2 ^ 31 := by
    intro code
    rw [length_putInt]
    omega
  rcases file with _ | content
  · exact ⟨_, .error FmResultFileNotExist (by decide) (by decide), hlone _,
      (emits_put 4 FmResultFileNotExist).run s.val (hlone _)⟩
  · rcases lt_or_ge (content.val.length : ℤ) r.pos with hbehind | hpos
    · refine ⟨_, .error FmResultFileSeekExceed (by decide) (by decide), hlone _, ?_⟩
      rw [fmReadFile]
      simp only [if_pos hbehind]
      exact (emits_put 4 FmResultFileSeekExceed).run s.val (hlone _)
    · exact slices_of_answerable hpos (h content rfl hpos)

/-- A request for minus one bytes from the start of a file. -/
def minusOneByte : Asked := ⟨0, -1, by rw [IsInt64]; omega, by norm_num⟩

/-- **Asked for minus one bytes of a file of one byte, `fmReadFile` reads one where it reserved none.** -/
theorem minusOneByte_not_slices :
    ¬ Slices (some ⟨[65], by norm_num⟩) (fun _ => 0) minusOneByte ⟨.new, by decide⟩ := by
  intro h
  have := (answerable_of_slices rfl (by decide) h).1
  exact absurd this (by decide)

/-! ## The handler's `fmReadFile` -/

/-- A result, and the segment behind it, in a packet. -/
def bytesOf (file : FileRead) : Bytes :=
  match file.segment with
  | some (pos, slice) => segmentBytes file.result pos slice
  | none => putInt 4 file.result

/-- **What the handlers' `fmReadFile` reads of a file on a disk is what is put in the reply.** -/
theorem emits_segmentOf {content : Content} {k l : ℕ} (hk : k ≤ content.val.length) (hl : l < 2 ^ 31) :
    Emits (fmReadFile (some content) stale k l) (bytesOf (Disk.segmentOf content.val k l)) (.ok ()) :=
  emits_fmReadFile hk hl

end FileSlice

end EuhatExpert
