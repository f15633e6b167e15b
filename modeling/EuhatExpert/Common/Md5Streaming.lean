import EuhatExpert.Common.Md5

/-!
# Common/Md5Streaming — a digest made piece by piece

The blocks that are transformed are those of the message however it is cut, as long as the loop over each
piece comes to its end (`update_of_ends`): its counter is 32 bits wide, and from nearly 2^32 bytes on it
never gets there.  The bits are counted as long as no piece of 2^29 bytes or more is taken for a carry where
there is none (`high_update`).
-/

namespace EuhatExpert

open Machinery

namespace Md5

/-! ## Pieces -/

/-- What a piece of `n` bytes must be, after `before` of them, for the loop to come to its end. -/
def LoopEnds (before n : ℕ) : Prop := n < 2 ^ 32 - 64 + (64 - before % 64) % 64

/-- What it must be for its bits to be counted: fewer than 2^32 of them, or so many that there is a carry. -/
def CountsRight (before n : ℕ) : Prop := n < 2 ^ 29 ∨ 2 ^ 32 ≤ 8 * before % 2 ^ 32 + 8 * n % 2 ^ 32

instance (before n : ℕ) : Decidable (CountsRight before n) := instDecidableOr

/-- Every piece is as `P` says, behind what was fed before it. -/
def Every (P : ℕ → ℕ → Prop) : ℕ → List Bytes → Prop
  | _, [] => True
  | before, piece :: pieces => P before piece.length ∧ Every P (before + piece.length) pieces

/-- How many pieces are not counted right. -/
def slips : ℕ → List Bytes → ℕ
  | _, [] => 0
  | before, piece :: pieces =>
    (if CountsRight before piece.length then 0 else 1) + slips (before + piece.length) pieces

theorem slips_eq_zero : ∀ (before : ℕ) (pieces : List Bytes),
    slips before pieces = 0 ↔ Every CountsRight before pieces
  | _, [] => iff_of_true rfl trivial
  | before, piece :: pieces => by
    rw [slips, Every, Nat.add_eq_zero_iff, slips_eq_zero]
    refine and_congr ?_ Iff.rfl
    split_ifs with h
    · exact iff_of_true rfl h
    · exact iff_of_false id h

/-- Every slip takes a piece of 2^29 bytes. -/
theorem slips_le : ∀ (before : ℕ) (pieces : List Bytes), 2 ^ 29 * slips before pieces ≤ pieces.flatten.length
  | _, [] => Nat.le_refl 0
  | before, piece :: pieces => by
    have := slips_le (before + piece.length) pieces
    rw [slips, List.flatten_cons, List.length_append]
    split_ifs with h
    · omega
    · have : ¬ piece.length < 2 ^ 29 := fun hlt => h (.inl hlt)
      omega

/-! ## The buffer -/

theorem exists_memcpy (buffer : Md5Buffer) {index : ℕ} {src : Bytes} (h : index + src.length ≤ 64) :
    ∃ buffer', buffer.memcpy index src = some buffer' ∧
      buffer'.val.take (index + src.length) = buffer.val.take index ++ src := by
  have hbuffer := buffer.length_val
  refine ⟨_, dif_pos h, ?_⟩
  dsimp only
  rw [← List.append_assoc]
  refine List.take_left' ?_
  rw [List.length_append, List.length_take]
  omega

theorem readPiece_eq {input : Bytes} {i n : ℕ} (h : i + n ≤ input.length) :
    readPiece input i n = some ((input.drop i).take n) := if_pos h

/-! ## The loop -/

variable {transform : Md5State → Bytes → Md5State}

theorem toNat_ofNat_length {n : ℕ} (h : n < 2 ^ 64) : (UInt64.ofNat n).toNat = n := by
  rw [UInt64.toNat_ofNat']
  exact Nat.mod_eq_of_lt h

/-- **Where the counter does not overflow, the loop absorbs the whole blocks that are left.** -/
theorem loop_of_ends {input : Bytes} (n : ℕ) : ∀ (i : UInt32) (state : Md5State),
    input.length < 2 ^ 32 - 64 + i.toNat % 64 → i.toNat + n = input.length →
    ∃ i' : UInt32, (∀ fuel, n < fuel → md5Loop transform input (.ofNat input.length) fuel i state
        = some ((absorb transform 64 state (input.drop i.toNat)).1, i')) ∧
      i'.toNat ≤ input.length ∧ input.drop i'.toNat = (absorb transform 64 state (input.drop i.toNat)).2 := by
  induction n using Nat.strong_induction_on with
  | _ n ih =>
    intro i state hends hn
    have hnext : (i + 64).toNat = i.toNat + 64 := by
      rw [UInt32.toNat_add]
      refine Nat.mod_eq_of_lt ?_
      rw [show (64 : UInt32).toNat = 64 from rfl]
      omega
    have hle : (i + 64).toUInt64 ≤ UInt64.ofNat input.length ↔ 64 ≤ n := by
      rw [UInt64.le_iff_toNat_le, UInt32.toNat_toUInt64, toNat_ofNat_length (by omega), hnext]
      omega
    have hdrop : (input.drop i.toNat).length = n := by
      rw [List.length_drop]
      omega
    by_cases h : 64 ≤ n
    · obtain ⟨i', hloop, hi', hrest⟩ := ih (n - 64) (by omega) (i + 64)
        (transform state ((input.drop i.toNat).take 64)) (by omega) (by omega)
      rw [hnext, ← List.drop_drop, ← absorb_of_le (by decide) (h.trans_eq hdrop.symm)] at hloop hrest
      refine ⟨i', fun fuel hfuel => ?_, hi', hrest⟩
      obtain ⟨fuel, rfl⟩ := Nat.exists_eq_succ_of_ne_zero (Nat.ne_of_gt (Nat.zero_lt_of_lt hfuel))
      rw [md5Loop, if_pos (hle.mpr h), readPiece_eq (by omega)]
      exact hloop fuel (by omega)
    · rw [absorb_of_lt (by omega)]
      refine ⟨i, fun fuel hfuel => ?_, by omega, rfl⟩
      obtain ⟨fuel, rfl⟩ := Nat.exists_eq_succ_of_ne_zero (Nat.ne_of_gt (Nat.zero_lt_of_lt hfuel))
      rw [md5Loop, if_neg (mt hle.mp h)]

/-- **Where the counter overflows, the loop is never over.** -/
theorem loop_never {input : Bytes} (hlen : input.length < 2 ^ 64) :
    ∀ (fuel : ℕ) (i : UInt32) (state : Md5State), 2 ^ 32 - 64 + i.toNat % 64 ≤ input.length →
      md5Loop transform input (.ofNat input.length) fuel i state = none
  | 0, _, _, _ => rfl
  | fuel + 1, i, state, hover => by
    have hnext : (i + 64).toNat = (i.toNat + 64) % 2 ^ 32 := UInt32.toNat_add _ _
    have hle : (i + 64).toUInt64 ≤ UInt64.ofNat input.length := by
      rw [UInt64.le_iff_toNat_le, UInt32.toNat_toUInt64, toNat_ofNat_length hlen, hnext]
      omega
    rw [md5Loop, if_pos hle]
    cases readPiece input i.toNat 64 with
    | none => rfl
    | some block => exact loop_never hlen fuel (i + 64) _ (by omega)

/-! ## The context -/

/-- The blocks of a message are transformed, and what is left of it is in the buffer. -/
structure Absorbed (transform : Md5State → Bytes → Md5State) (context : Md5Ctx) (message : Bytes) : Prop where
  low : context.count.1.toNat = 8 * message.length % 2 ^ 32
  rest : absorb transform 64 md5Start message
    = (context.state, context.buffer.val.take (message.length % 64))

theorem absorbed_init (buffer : Md5Buffer) : Absorbed transform (md5Init buffer) [] :=
  ⟨rfl, absorb_of_lt (by decide) _⟩

variable {context : Md5Ctx} {message piece : Bytes}

theorem Absorbed.index (h : Absorbed transform context message) :
    context.index.toNat = message.length % 64 := by
  have hmask : context.index.toNat = context.count.1.toNat / 8 % 64 := by
    rw [Md5Ctx.index, UInt32.toNat_and, UInt32.toNat_shiftRight]
    rw [show (0x3F : UInt32).toNat = 2 ^ 6 - 1 from rfl, Nat.and_two_pow_sub_one_eq_mod,
      Nat.shiftRight_eq_div_pow]
    rfl
  rw [hmask, h.low]
  omega

theorem Absorbed.partlen (h : Absorbed transform context message) :
    (64 - context.index).toNat = 64 - message.length % 64 := by
  have hle : context.index ≤ 64 := by
    rw [UInt32.le_iff_toNat_le, h.index]
    exact (Nat.mod_lt _ (by decide)).le
  rw [UInt32.toNat_sub_of_le _ _ hle, h.index]
  rfl

theorem length_take_buffer (buffer : Md5Buffer) {n : ℕ} (h : n ≤ 64) : (buffer.val.take n).length = n := by
  rw [List.length_take, buffer.length_val, Nat.min_eq_left h]

/-- The low word counts the bits, whatever the length of a piece. -/
theorem Absorbed.counted_low (h : Absorbed transform context message) (n : ℕ) :
    (context.counted (.ofNat n)).1.toNat = 8 * (message.length + n) % 2 ^ 32 := by
  have hlow := h.low
  rw [Md5Ctx.counted]
  dsimp only
  rw [UInt32.toNat_add, UInt64.toNat_toUInt32, UInt64.toNat_shiftLeft, UInt64.toNat_ofNat', Nat.shiftLeft_eq]
  rw [show ((3 : UInt64).toNat % 64) = 3 from rfl]
  omega

/-- **The high word counts the carries, and one more for a piece that is not counted right.** -/
theorem Absorbed.counted_high (h : Absorbed transform context message) {n slips : ℕ}
    (hhigh : context.count.2.toNat = (8 * message.length / 2 ^ 32 + slips) % 2 ^ 32) (hn : n < 2 ^ 61) :
    (context.counted (.ofNat n)).2.toNat = (8 * (message.length + n) / 2 ^ 32
      + (slips + if CountsRight message.length n then 0 else 1)) % 2 ^ 32 := by
  have hlow := h.low
  have hcounted := h.counted_low n
  have hbits : (UInt64.ofNat n <<< 3).toNat = 8 * n := by
    rw [UInt64.toNat_shiftLeft, UInt64.toNat_ofNat', Nat.shiftLeft_eq]
    rw [show ((3 : UInt64).toNat % 64) = 3 from rfl]
    omega
  have hblocks : (UInt64.ofNat n >>> 29).toUInt32.toNat = n / 2 ^ 29 := by
    rw [UInt64.toNat_toUInt32, UInt64.toNat_shiftRight, UInt64.toNat_ofNat', Nat.shiftRight_eq_div_pow]
    rw [show ((29 : UInt64).toNat % 64) = 29 from rfl]
    omega
  have htest : (context.counted (.ofNat n)).1.toUInt64 < UInt64.ofNat n <<< 3
      ↔ 8 * (message.length + n) % 2 ^ 32 < 8 * n := by
    rw [UInt64.lt_iff_toNat_lt, UInt32.toNat_toUInt64, hcounted, hbits]
  have hsum : (context.counted (.ofNat n)).2 = (if (context.counted (.ofNat n)).1.toUInt64
      < UInt64.ofNat n <<< 3 then context.count.2 + 1 else context.count.2)
      + (UInt64.ofNat n >>> 29).toUInt32 := rfl
  rw [hsum, UInt32.toNat_add, hblocks]
  by_cases hcarry : (context.counted (.ofNat n)).1.toUInt64 < UInt64.ofNat n <<< 3
  · rw [if_pos hcarry, UInt32.toNat_add, show (1 : UInt32).toNat = 1 from rfl]
    rw [htest] at hcarry
    split_ifs with hright
    · obtain hright | hright := hright
      · omega
      · omega
    · rw [CountsRight, not_or] at hright
      omega
  · rw [if_neg hcarry]
    rw [htest] at hcarry
    rw [if_pos (show CountsRight message.length n from .inl (by omega))]
    omega

/-! ## Updates -/

/-- The piece is compared with what the buffer has room for. -/
theorem Absorbed.partlen_le (h : Absorbed transform context message) {n : ℕ} (hn : n < 2 ^ 64) :
    UInt64.ofNat n ≥ (64 - context.index).toUInt64 ↔ 64 - message.length % 64 ≤ n := by
  rw [ge_iff_le, UInt64.le_iff_toNat_le, UInt32.toNat_toUInt64, h.partlen, toNat_ofNat_length hn]

/-- A piece is absorbed behind what is in the buffer. -/
theorem Absorbed.append (h : Absorbed transform context message) (piece : Bytes) :
    absorb transform 64 md5Start (message ++ piece)
      = absorb transform 64 context.state (context.buffer.val.take (message.length % 64) ++ piece) := by
  rw [absorb_append (by decide), h.rest]

/-- What `md5Update` leaves in a context, when it has come to this state and filled the buffer so. -/
theorem Absorbed.leaves (h : Absorbed transform context message) {buffer : Md5Buffer}
    (hbuffer : buffer.val.take ((message ++ piece).length % 64)
      = (absorb transform 64 md5Start (message ++ piece)).2) :
    Absorbed transform ⟨context.counted (.ofNat piece.length),
      (absorb transform 64 md5Start (message ++ piece)).1, buffer⟩ (message ++ piece) := by
  refine ⟨?_, ?_⟩
  · rw [List.length_append]
    exact h.counted_low piece.length
  · rw [hbuffer]

/-- What `md5Update` returns for a piece over which the loop ends. -/
def Updates (transform : Md5State → Bytes → Md5State) (context : Md5Ctx) (message piece : Bytes) : Prop :=
  ∃ context', (∀ fuel, piece.length < fuel → md5UpdateWith transform fuel context piece = some context') ∧
    context'.count = context.counted (.ofNat piece.length) ∧ Absorbed transform context' (message ++ piece)

/-- A piece that does not fill the buffer. -/
theorem updates_of_lt (h : Absorbed transform context message)
    (hshort : piece.length < 64 - message.length % 64) : Updates transform context message piece := by
  have hfront := length_take_buffer context.buffer (Nat.mod_lt message.length (by decide : 0 < 64)).le
  obtain ⟨buffer', hcopy, htake⟩ := @exists_memcpy context.buffer (message.length % 64) piece (by omega)
  have hlt : (context.buffer.val.take (message.length % 64) ++ piece).length < 64 := by
    rw [List.length_append]
    omega
  have habsorb := h.append piece
  rw [absorb_of_lt hlt] at habsorb
  have hmod : (message ++ piece).length % 64 = message.length % 64 + piece.length := by
    rw [List.length_append]
    omega
  refine ⟨_, fun fuel _ => ?_, rfl, h.leaves (by rw [hmod, htake, habsorb])⟩
  rw [md5UpdateWith]
  dsimp only
  rw [if_neg (mt (h.partlen_le (by omega)).mp (by omega)), h.index]
  simp only [bind, Option.bind, hcopy, habsorb]

/-- A piece that fills the buffer, and over which the loop ends. -/
theorem updates_of_le (h : Absorbed transform context message)
    (hfull : 64 - message.length % 64 ≤ piece.length) (hends : LoopEnds message.length piece.length) :
    Updates transform context message piece := by
  rw [LoopEnds] at hends
  have hpiece : piece.length < 2 ^ 64 := by omega
  have hindex : message.length % 64 < 64 := Nat.mod_lt _ (by decide)
  have hfront := length_take_buffer context.buffer hindex.le
  obtain ⟨block, hcopy, htake⟩ := @exists_memcpy context.buffer (message.length % 64)
    (piece.take (64 - message.length % 64)) (by rw [List.length_take]; omega)
  have hblock : block.val
      = context.buffer.val.take (message.length % 64) ++ piece.take (64 - message.length % 64) := by
    rw [← htake, List.take_of_length_le]
    rw [block.length_val, List.length_take]
    omega
  -- the block, and what the loop makes of the rest
  have habsorb : absorb transform 64 md5Start (message ++ piece)
      = absorb transform 64 (transform context.state block.val) (piece.drop (64 - message.length % 64)) := by
    have hsplit : context.buffer.val.take (message.length % 64) ++ piece
        = block.val ++ piece.drop (64 - message.length % 64) := by
      rw [hblock, List.append_assoc, List.take_append_drop]
    rw [h.append, hsplit, absorb_block (by decide) block.length_val]
  obtain ⟨i', hloop, hi', hrest⟩ := @loop_of_ends transform piece (piece.length - (64 - message.length % 64))
    (64 - context.index) (transform context.state block.val) (by rw [h.partlen]; omega)
    (by rw [h.partlen]; omega)
  rw [h.partlen, ← habsorb] at hloop hrest
  have hlength : (piece.drop i'.toNat).length = (message ++ piece).length % 64 := by
    rw [hrest, length_absorb (by decide)]
  have hlt := Nat.mod_lt (message ++ piece).length (by decide : 0 < 64)
  obtain ⟨buffer', hcopy', htake'⟩ := @exists_memcpy block 0 (piece.drop i'.toNat) (by omega)
  rw [Nat.zero_add, List.take_zero, List.nil_append, hlength, hrest] at htake'
  have hsub : (UInt64.ofNat piece.length - i'.toUInt64).toNat = piece.length - i'.toNat := by
    have hle : i'.toUInt64 ≤ UInt64.ofNat piece.length := by
      rw [UInt64.le_iff_toNat_le, UInt32.toNat_toUInt64, toNat_ofNat_length hpiece]
      exact hi'
    rw [UInt64.toNat_sub_of_le _ _ hle, UInt32.toNat_toUInt64, toNat_ofNat_length hpiece]
  have hread : readPiece piece i'.toNat (piece.length - i'.toNat) = some (piece.drop i'.toNat) := by
    rw [readPiece_eq (by omega), List.take_of_length_le (by rw [List.length_drop])]
  refine ⟨_, fun fuel hfuel => ?_, rfl, h.leaves htake'⟩
  rw [md5UpdateWith]
  dsimp only
  rw [if_pos ((h.partlen_le hpiece).mpr hfull), h.partlen, h.index, readPiece_eq (by omega), List.drop_zero]
  simp only [bind, Option.bind, hcopy, hloop fuel (by omega), hsub, hread, hcopy']

/-- **A piece over which the loop ends is absorbed behind the message.** -/
theorem updates_of_ends (h : Absorbed transform context message)
    (hends : LoopEnds message.length piece.length) : Updates transform context message piece := by
  by_cases hfull : 64 - message.length % 64 ≤ piece.length
  · exact updates_of_le h hfull hends
  · exact updates_of_lt h (by omega)

/-- **A piece over which the loop does not end is the end of the run.** -/
theorem update_never (h : Absorbed transform context message) (hpiece : piece.length < 2 ^ 64)
    (hnever : ¬ LoopEnds message.length piece.length) (fuel : ℕ) :
    md5UpdateWith transform fuel context piece = none := by
  rw [LoopEnds, Nat.not_lt] at hnever
  have hloop : ∀ state, md5Loop transform piece (.ofNat piece.length) fuel (64 - context.index) state = none :=
    fun state => loop_never hpiece fuel _ state (by rw [h.partlen]; exact hnever)
  rw [md5UpdateWith]
  dsimp only
  rw [if_pos ((h.partlen_le hpiece).mpr (by omega))]
  cases readPiece piece 0 (64 - context.index).toNat with
  | none => rfl
  | some part =>
    rw [Option.bind_eq_bind, Option.bind_some]
    cases context.buffer.memcpy context.index.toNat part with
    | none => rfl
    | some buffer =>
      rw [Option.bind_eq_bind, Option.bind_some, hloop]
      rfl

/-! ## Messages in pieces -/

/-- The high word counts the carries of a message, and the slips. -/
def Carries (context : Md5Ctx) (message : Bytes) (slips : ℕ) : Prop :=
  context.count.2.toNat = (8 * message.length / 2 ^ 32 + slips) % 2 ^ 32

/-- **A message whose loops all end is absorbed, however it is cut.** -/
theorem pieces_of_ends : ∀ (pieces : List Bytes) {context : Md5Ctx} {message : Bytes} {before : ℕ},
    Absorbed transform context message → Carries context message before →
    (message ++ pieces.flatten).length < 2 ^ 61 → Every LoopEnds message.length pieces →
    ∃ context', (∀ fuel, pieces.flatten.length < fuel →
        pieces.foldlM (md5UpdateWith transform fuel) context = some context') ∧
      Absorbed transform context' (message ++ pieces.flatten) ∧
      Carries context' (message ++ pieces.flatten) (before + slips message.length pieces)
  | [], context, message, before, h, hcarries, _, _ => by
    rw [List.flatten_nil, List.append_nil]
    exact ⟨context, fun _ _ => rfl, h, hcarries⟩
  | piece :: pieces, context, message, before, h, hcarries, hlen, hends => by
    rw [List.flatten_cons, ← List.append_assoc] at hlen
    have hpiece : piece.length < 2 ^ 61 := by
      simp only [List.length_append] at hlen
      omega
    obtain ⟨context₁, hupdate, hcount, h₁⟩ := updates_of_ends h hends.1
    have hcarries₁ := h.counted_high hcarries hpiece
    rw [← hcount, ← List.length_append] at hcarries₁
    obtain ⟨context', hrest, h', hcarries'⟩ := pieces_of_ends pieces h₁ hcarries₁ hlen
      (by rw [List.length_append]; exact hends.2)
    rw [List.flatten_cons, ← List.append_assoc]
    refine ⟨context', fun fuel hfuel => ?_, h', ?_⟩
    · rw [List.length_append] at hfuel
      rw [List.foldlM_cons, hupdate fuel (by omega), Option.bind_eq_bind, Option.bind_some]
      exact hrest fuel (by omega)
    · rw [slips, ← Nat.add_assoc, ← List.length_append]
      exact hcarries'

/-- **A loop that does not end is the end of the run.** -/
theorem pieces_never : ∀ (pieces : List Bytes) {context : Md5Ctx} {message : Bytes},
    Absorbed transform context message → (message ++ pieces.flatten).length < 2 ^ 61 →
    ¬ Every LoopEnds message.length pieces → ∀ fuel, pieces.flatten.length < fuel →
      pieces.foldlM (md5UpdateWith transform fuel) context = none
  | [], _, _, _, _, hnever, _, _ => absurd trivial hnever
  | piece :: pieces, context, message, h, hlen, hnever, fuel, hfuel => by
    rw [List.flatten_cons] at hfuel
    rw [List.flatten_cons, ← List.append_assoc] at hlen
    rw [List.foldlM_cons]
    by_cases hends : LoopEnds message.length piece.length
    · obtain ⟨context₁, hupdate, -, h₁⟩ := updates_of_ends h hends
      rw [List.length_append] at hfuel
      rw [hupdate fuel (by omega), Option.bind_eq_bind, Option.bind_some]
      refine pieces_never pieces h₁ hlen (fun hall => hnever ⟨hends, ?_⟩) fuel (by omega)
      rwa [List.length_append] at hall
    · rw [update_never h (by simp only [List.length_append] at hlen; omega) hends]
      rfl

/-! ## The padding -/

/-- A message with its padding, and these bytes at the end. -/
def paddedWith (message bits : Bytes) : Bytes :=
  message ++ (0x80 :: (List.replicate ((119 - message.length % 64) % 64) 0 ++ bits))

/-- The digest of what is padded so. -/
def digestWith (transform : Md5State → Bytes → Md5State) (message bits : Bytes) : Bytes :=
  let state := (chunks 64 (paddedWith message bits)).foldl transform md5Start
  md5Encode [state.a, state.b, state.c, state.d]

theorem length_paddedWith {bits : Bytes} (hbits : bits.length = 8) (message : Bytes) :
    (paddedWith message bits).length % 64 = 0 := by
  rw [paddedWith, List.length_append, List.length_cons, List.length_append, List.length_replicate, hbits]
  omega

theorem loopEnds_of_le {n : ℕ} (h : n ≤ 64) (before : ℕ) : LoopEnds before n := by
  rw [LoopEnds]
  omega

theorem Absorbed.padding (h : Absorbed transform context message) :
    PADDING.take (if context.index < 56 then 56 - context.index else 120 - context.index).toNat
      = 0x80 :: List.replicate ((119 - message.length % 64) % 64) 0 := by
  have hlt := Nat.mod_lt message.length (by decide : 0 < 64)
  have hsub : ∀ n : UInt32, context.index ≤ n →
      (n - context.index).toNat = n.toNat - message.length % 64 := fun n hn => by
    rw [UInt32.toNat_sub_of_le _ _ hn, h.index]
  have hpadlen : (if context.index < 56 then 56 - context.index else 120 - context.index).toNat
      = (119 - message.length % 64) % 64 + 1 := by
    split_ifs with hless
    · have hless' := UInt32.lt_iff_toNat_lt.mp hless
      rw [h.index, show (56 : UInt32).toNat = 56 from rfl] at hless'
      rw [hsub 56 (UInt32.le_of_lt hless), show (56 : UInt32).toNat = 56 from rfl]
      omega
    · have hless' := mt UInt32.lt_iff_toNat_lt.mpr hless
      rw [h.index, show (56 : UInt32).toNat = 56 from rfl] at hless'
      have hle : context.index ≤ 120 := by
        rw [UInt32.le_iff_toNat_le, h.index, show (120 : UInt32).toNat = 120 from rfl]
        omega
      rw [hsub 120 hle, show (120 : UInt32).toNat = 120 from rfl]
      omega
  rw [hpadlen, PADDING, List.take_succ_cons, List.take_replicate, Nat.min_eq_left (by omega)]

/-- **`md5Final` folds the transform over what is padded with the counter.** -/
theorem Absorbed.final (h : Absorbed transform context message) {fuel : ℕ} (hfuel : 64 < fuel) :
    md5FinalWith transform fuel context
      = some (digestWith transform message (md5Encode [context.count.1, context.count.2])) := by
  have hbits : (md5Encode [context.count.1, context.count.2]).length = 8 := rfl
  have hpad : (0x80 :: List.replicate ((119 - message.length % 64) % 64) (0 : UInt8)).length ≤ 64 := by
    rw [List.length_cons, List.length_replicate]
    omega
  obtain ⟨context₁, hupdate₁, -, h₁⟩ := updates_of_ends h (loopEnds_of_le hpad _)
  obtain ⟨context₂, hupdate₂, -, h₂⟩ := updates_of_ends h₁ (loopEnds_of_le (hbits.trans_le (by decide)) _)
  have hstate : context₂.state = (chunks 64 (paddedWith message
      (md5Encode [context.count.1, context.count.2]))).foldl transform md5Start := by
    have hrest := h₂.rest
    rw [List.append_assoc, List.cons_append, ← paddedWith,
      absorb_eq_foldl (by decide) _ (length_paddedWith hbits message)] at hrest
    exact (Prod.mk.inj hrest).1.symm
  rw [md5FinalWith, h.padding, hupdate₁ fuel (by omega), Option.bind_eq_bind, Option.bind_some, hupdate₂ fuel (by omega),
    Option.bind_some, hstate]
  rfl

/-! ## The counter -/

theorem md5EncodeWord_eq (w : UInt32) : md5EncodeWord w = leBytes 4 w.toNat := by
  have hbyte : ∀ v : UInt32, (v &&& 0xFF).toUInt8 = UInt8.ofNat v.toNat := fun v => by
    rw [← UInt8.toNat_inj, UInt8.toNat_ofNat', UInt32.toNat_toUInt8, UInt32.toNat_and,
      show (0xFF : UInt32).toNat = 2 ^ 8 - 1 from rfl, Nat.and_two_pow_sub_one_eq_mod, Nat.mod_mod]
  have hshift : ∀ n : UInt32, (w >>> n).toNat = w.toNat / 2 ^ (n.toNat % 32) := fun n => by
    rw [UInt32.toNat_shiftRight, Nat.shiftRight_eq_div_pow]
  rw [md5EncodeWord, hbyte, hbyte, hbyte, hbyte, hshift, hshift, hshift]
  simp only [leBytes, Nat.div_div_eq_div_mul]
  rfl

theorem Absorbed.bits (h : Absorbed transform context message) {slips : ℕ}
    (hcarries : Carries context message slips) :
    md5Encode [context.count.1, context.count.2] = leBytes 8 (8 * message.length + 2 ^ 32 * slips) := by
  rw [md5Encode, List.flatMap_cons, List.flatMap_singleton, md5EncodeWord_eq, md5EncodeWord_eq, h.low, hcarries, leBytes_add 4 4]
  congr 1
  · rw [show (2 : ℕ) ^ 32 = 256 ^ 4 from rfl, leBytes_mod, ← leBytes_mod 4 (8 * message.length + _),
      Nat.add_mul_mod_self_left, leBytes_mod]
  · rw [show (2 : ℕ) ^ 32 = 256 ^ 4 from rfl, leBytes_mod, Nat.add_mul_div_left _ _ (by decide)]

/-- **What the digest of a message in pieces is.** -/
theorem md5With_of_ends {pieces : List Bytes} (htotal : pieces.flatten.length < 2 ^ 61)
    (hends : Every LoopEnds 0 pieces) (buffer : Md5Buffer) {fuel : ℕ}
    (hfuel : pieces.flatten.length + 64 < fuel) :
    md5With transform fuel buffer pieces = some (digestWith transform pieces.flatten
      (leBytes 8 (8 * pieces.flatten.length + 2 ^ 32 * slips 0 pieces))) := by
  have hinit : Carries (md5Init buffer) [] 0 := by
    rw [Carries]
    rfl
  obtain ⟨context, hpieces, h, hcarries⟩ := pieces_of_ends pieces (absorbed_init buffer) hinit htotal hends
  rw [List.nil_append, Nat.zero_add] at hcarries
  rw [List.nil_append] at h
  rw [md5With, hpieces fuel (by omega), Option.bind_eq_bind, Option.bind_some, h.final (by omega),
    h.bits hcarries]
  rfl

theorem md5With_never {pieces : List Bytes} (htotal : pieces.flatten.length < 2 ^ 61)
    (hnever : ¬ Every LoopEnds 0 pieces) (buffer : Md5Buffer) {fuel : ℕ} (hfuel : pieces.flatten.length < fuel) :
    md5With transform fuel buffer pieces = none := by
  rw [md5With, pieces_never pieces (absorbed_init buffer) htotal hnever fuel hfuel]
  rfl

/-! ## Streams and one shots -/

/-- Fed in these pieces, a message has the digest of the whole. -/
def Streams (transform : Md5State → Bytes → Md5State) (pieces : List Bytes) : Prop :=
  ∀ buffer, ∃ enough, ∀ fuel, enough ≤ fuel →
    md5With transform fuel buffer pieces = some (md5Digest transform pieces.flatten)

/-- The loop over every piece ends, and its bits are counted. -/
def Fits (pieces : List Bytes) : Prop := Every LoopEnds 0 pieces ∧ Every CountsRight 0 pieces

/-- **Pieces that fit are the message.** -/
theorem Fits.streams {pieces : List Bytes} (h : Fits pieces) (htotal : pieces.flatten.length < 2 ^ 61) :
    Streams transform pieces := by
  refine fun buffer => ⟨pieces.flatten.length + 65, fun fuel hfuel => ?_⟩
  rw [md5With_of_ends htotal h.1 buffer (by omega), (slips_eq_zero 0 pieces).mpr h.2]
  rfl

theorem Streams.ends {pieces : List Bytes} (h : Streams transform pieces)
    (htotal : pieces.flatten.length < 2 ^ 61) : Every LoopEnds 0 pieces := by
  refine by_contra fun hnever => ?_
  obtain ⟨enough, hrun⟩ := h .zero
  have hsome := hrun (enough + pieces.flatten.length + 1) (by omega)
  rw [md5With_never htotal hnever _ (by omega)] at hsome
  cases hsome

/-- A transform that keeps nothing but the last four bytes of a block. -/
def lastWord (_ : Md5State) (block : Bytes) : Md5State := ⟨UInt32.ofNat (leNat (block.drop 60)), 0, 0, 0⟩

theorem digestWith_lastWord (message : Bytes) {bits : Bytes} (hbits : bits.length = 8) :
    digestWith lastWord message bits = md5Encode [UInt32.ofNat (leNat (bits.drop 4)), 0, 0, 0] := by
  have hwhole := length_paddedWith hbits message
  have hlong : 64 ≤ (paddedWith message bits).length := by
    have hpos : 0 < (paddedWith message bits).length := by
      rw [paddedWith, List.length_append, List.length_cons]
      omega
    omega
  have hlast : ((paddedWith message bits).drop ((paddedWith message bits).length - 64)).drop 60
      = bits.drop 4 := by
    obtain ⟨front, happend⟩ : ∃ front, paddedWith message bits = front ++ bits :=
      ⟨message ++ (0x80 :: List.replicate ((119 - message.length % 64) % 64) 0), by
        rw [paddedWith, List.append_assoc, List.cons_append]⟩
    rw [happend, List.length_append, hbits] at hlong
    rw [List.drop_drop, happend, List.length_append, hbits, List.drop_append,
      List.drop_of_length_le (by omega), List.nil_append]
    congr 1
    omega
  have hfold : (chunks 64 (paddedWith message bits)).foldl lastWord md5Start
      = ⟨UInt32.ofNat (leNat (bits.drop 4)), 0, 0, 0⟩ := by
    have hall := @absorb_eq_foldl _ _ lastWord 64 (by decide) md5Start _ hwhole
    rw [← List.take_append_drop ((paddedWith message bits).length - 64) (paddedWith message bits),
      absorb_append (by decide), absorb_eq_foldl (by decide) md5Start
        (by rw [List.length_take]; omega), List.nil_append,
      ← List.append_nil (List.drop _ _), absorb_block (by decide) (by rw [List.length_drop]; omega),
      absorb_of_lt (by decide), List.append_nil, List.take_append_drop, lastWord, hlast] at hall
    exact (Prod.mk.inj hall).1.symm
  rw [digestWith, hfold]

/-- **A counter that is wrong is seen by some transform.** -/
theorem countsRight_of_streams {pieces : List Bytes} (h : Streams lastWord pieces)
    (htotal : pieces.flatten.length < 2 ^ 61) : Every CountsRight 0 pieces := by
  obtain ⟨enough, hrun⟩ := h .zero
  have hdigest := hrun (enough + pieces.flatten.length + 65) (by omega)
  rw [md5With_of_ends htotal (h.ends htotal) _ (by omega)] at hdigest
  have hsame := Option.some.inj hdigest
  rw [show md5Digest lastWord pieces.flatten
      = digestWith lastWord pieces.flatten (leBytes 8 (8 * pieces.flatten.length)) from rfl,
    digestWith_lastWord _ (length_leBytes _ _), digestWith_lastWord _ (length_leBytes _ _)] at hsame
  have hword : ∀ n : ℕ, (UInt32.ofNat (leNat ((leBytes 8 n).drop 4))).toNat = n / 2 ^ 32 % 2 ^ 32 := fun n => by
    rw [leBytes_add 4 4, List.drop_left' (length_leBytes _ _), leNat_leBytes, UInt32.toNat_ofNat']
    exact Nat.mod_mod _ _
  have hfirst := List.append_inj_left hsame rfl
  rw [md5EncodeWord_eq, md5EncodeWord_eq, hword, hword] at hfirst
  have hvalue := congrArg leNat hfirst
  rw [leNat_leBytes, leNat_leBytes, show (256 : ℕ) ^ 4 = 2 ^ 32 from rfl] at hvalue
  have hslips := slips_le 0 pieces
  refine (slips_eq_zero 0 pieces).mp ?_
  omega

/-- **When streaming is the one shot.**  Pieces that fit have the digest of the message, and a digest is
only ever had of pieces whose loops end.  Whatever the transform, the blocks it is given are those of the
padded message exactly if the pieces fit. -/
theorem streams_iff {pieces : List Bytes} (htotal : pieces.flatten.length < 2 ^ 61) :
    (Fits pieces → Streams md5Transform pieces) ∧
      (Streams md5Transform pieces → Every LoopEnds 0 pieces) ∧
      ((∀ transform, Streams transform pieces) ↔ Fits pieces) := by
  refine ⟨fun h => h.streams htotal, fun h => h.ends htotal, fun h => ⟨?_, ?_⟩, fun h _ => h.streams htotal⟩
  · exact (h md5Transform).ends htotal
  · exact countsRight_of_streams (h lastWord) htotal

theorem streams_iff_here : Streams md5Transform [ofAscii "ab", [], ofAscii "c"] := by
  have hends : Every LoopEnds 0 [ofAscii "ab", [], ofAscii "c"] :=
    ⟨loopEnds_of_le (by decide) _, loopEnds_of_le (by decide) _, loopEnds_of_le (by decide) _, trivial⟩
  exact (streams_iff (by decide)).1 ⟨hends, .inl (by decide), .inl (by decide), .inl (by decide), trivial⟩

/-- **Of 2^32 bytes in one piece there is no digest.** -/
theorem not_streams : ¬ ∀ pieces : List Bytes, pieces.flatten.length < 2 ^ 61 →
    Streams md5Transform pieces := by
  intro h
  obtain ⟨piece, hlength⟩ : ∃ piece : Bytes, piece.length = 2 ^ 32 :=
    ⟨List.replicate (2 ^ 32) 0, List.length_replicate⟩
  have htotal : [piece].flatten.length < 2 ^ 61 := by
    rw [List.flatten_singleton, hlength]
    decide
  have hends := ((h [piece] htotal).ends htotal).1
  rw [LoopEnds, hlength] at hends
  exact absurd hends (by decide)

/-- `JyBuf::md5` feeds its data in one piece. -/
theorem md5With_singleton (fuel : ℕ) (buffer : Md5Buffer) (data_ : Bytes) :
    md5With md5Transform fuel buffer [data_] = JyBuf.md5 fuel buffer data_ := by
  rw [md5With, List.foldlM_cons]
  cases hupdate : md5UpdateWith md5Transform fuel (md5Init buffer) data_ with
  | none => rw [JyBuf.md5, md5Update, hupdate]; rfl
  | some context => rw [JyBuf.md5, md5Update, hupdate]; rfl

end Md5

end EuhatExpert
