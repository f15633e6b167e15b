import EuhatExpert.Common.JyTcpSelector

/-!
# Common/PacketSplit — does a packet leave the rest of what was received behind it

`hasWholePacket` is to cut what was received in two, a packet and what follows it.  It looks at how much
was received and refuses a buffer of up to six bytes, but it never asks whether the length field leaves
room for a header, or is a length at all: the cut is right exactly when the field is at least six
(`splits_iff`).
-/

namespace EuhatExpert

open Machinery

namespace JyTcpBuf

variable {U : ℕ} (buf : JyTcpBuf U)

/-- The length field at the front of a buffer. -/
def totalSize : ℤ := getInt (buf.received.take 4)

/-- What `hasWholePacket` leaves is what was received: a packet with a header and what follows it, or the
buffer as it was, with room for more. -/
structure Parts (whole : Whole U) : Prop where
  completed : whole.result = 1 → ∃ packet, whole.splitCompleted = some packet ∧
    6 ≤ packet.recvLen_ ∧ packet.recvLen_ < U ∧
    packet.received ++ (whole.recvBuf_.map received).getD [] = buf.received
  unfinished : whole.result = 0 →
    whole.splitCompleted = none ∧ whole.recvBuf_ = some buf ∧ 0 < buf.roomLeft

/-- Nothing outside what was received is read or copied, and what is left is in parts, whatever block
the pool gives. -/
def Splits : Prop := ∀ block : Block U, ∃ whole, hasWholePacket buf block = .ok whole ∧ buf.Parts whole

variable {buf}

/-- A buffer that is refused is in no parts. -/
theorem parts_refused : buf.Parts ⟨-1, none, some buf⟩ where
  completed h := absurd h (by decide : (-1 : ℤ) ≠ 1)
  unfinished h := absurd h (by decide : (-1 : ℤ) ≠ 0)

/-- Behind the first six bytes, the length field is read from what was received. -/
theorem getInt_guard_eq (h : 6 < buf.recvLen_) : getInt (buf.guard_.val.take 4) = buf.totalSize := by
  rw [totalSize, received, List.take_take, min_eq_left (by omega)]

theorem splits_of_short (h : buf.recvLen_ ≤ 6) : buf.Splits := fun block =>
  ⟨⟨-1, none, some buf⟩, by rw [hasWholePacket, if_pos h], parts_refused⟩

section Long

variable (hlong : 6 < buf.recvLen_) (block : Block U)

include hlong

/-- What is decided by the length field alone. -/
theorem hasWholePacket_of_long : hasWholePacket buf block
    = if U ≤ buf.totalSize then .ok ⟨-1, none, some buf⟩
      else if buf.recvLen_ < buf.totalSize then .ok ⟨0, none, some buf⟩
      else if buf.recvLen_ = buf.totalSize then .ok ⟨1, some buf, none⟩
      else if buf.totalSize < 0 then .error .outside
      else if h : buf.totalSize.toNat ≤ buf.recvLen_ then
        .ok ⟨1, some (buf.front buf.totalSize.toNat h), some (buf.next block buf.totalSize.toNat)⟩
      else .error .outside := by
  rw [hasWholePacket, if_neg (not_le.mpr hlong)]
  simp only [getInt_guard_eq hlong]

/-- A length field that leaves room for a header. -/
theorem splits_of_le (h6 : 6 ≤ buf.totalSize) : buf.Splits := by
  intro block
  rw [hasWholePacket_of_long hlong]
  by_cases hU : U ≤ buf.totalSize
  · exact ⟨_, if_pos hU, parts_refused⟩
  rw [if_neg hU]
  by_cases hlt : buf.recvLen_ < buf.totalSize
  · refine ⟨_, if_pos hlt, fun h => absurd h (by decide : (0 : ℤ) ≠ 1), fun _ => ⟨rfl, rfl, ?_⟩⟩
    rw [roomLeft]
    omega
  rw [if_neg hlt]
  by_cases heq : buf.recvLen_ = buf.totalSize
  · refine ⟨_, if_pos heq, fun _ => ⟨buf, rfl, ?_, ?_, List.append_nil _⟩,
      fun h => absurd h (by decide : (1 : ℤ) ≠ 0)⟩
    · omega
    · omega
  have hle : buf.totalSize.toNat ≤ buf.recvLen_ := by omega
  rw [if_neg heq, if_neg (by omega), dif_pos hle]
  refine ⟨_, rfl, fun _ => ⟨_, rfl, ?_, ?_, ?_⟩,
    fun h => absurd h (by decide : (1 : ℤ) ≠ 0)⟩
  · change 6 ≤ buf.totalSize.toNat
    omega
  · change buf.totalSize.toNat < U
    omega
  · rw [Option.map_some, Option.getD_some, received_front, received_next, List.take_append_drop]

/-- A smaller one is followed: the packet has no header, or the copy starts before the block. -/
theorem not_splits_of_lt (h6 : buf.totalSize < 6) : ¬ buf.Splits := by
  intro hs
  obtain ⟨whole, hwhole, hparts⟩ := hs ⟨List.replicate U 0, List.length_replicate⟩
  have hU := buf.recvLen_le
  rw [hasWholePacket_of_long hlong, if_neg (by omega), if_neg (by omega), if_neg (by omega)] at hwhole
  by_cases hneg : buf.totalSize < 0
  · rw [if_pos hneg] at hwhole
    cases hwhole
  have hle : buf.totalSize.toNat ≤ buf.recvLen_ := by omega
  rw [if_neg hneg, dif_pos hle] at hwhole
  obtain rfl := Except.ok.inj hwhole
  obtain ⟨packet, hpacket, hheader, -⟩ := hparts.completed rfl
  obtain rfl := Option.some.inj hpacket
  have hlen : (buf.front buf.totalSize.toNat hle).recvLen_ = buf.totalSize.toNat := rfl
  omega

end Long

/-- **What was received is cut in two exactly when it is refused for its size or its length field is at
least the six bytes of a header.** -/
theorem splits_iff (buf : JyTcpBuf U) : buf.Splits ↔ buf.recvLen_ ≤ 6 ∨ 6 ≤ buf.totalSize := by
  rcases Nat.lt_or_ge 6 buf.recvLen_ with hlong | hshort
  · refine ⟨fun h => .inr ?_, fun h => splits_of_le hlong (h.resolve_left (not_le.mpr hlong))⟩
    by_contra h6
    exact not_splits_of_lt hlong (not_le.mp h6) h
  · exact iff_of_true (splits_of_short hshort) (.inl hshort)

/-- Seven bytes in a block of forty, with a length field of minus one. -/
def minusOne : JyTcpBuf 40 where
  guard_ := ⟨putInt 4 (-1) ++ List.replicate 36 0, by decide⟩
  recvLen_ := 7
  recvLen_le := by decide

/-- **Seven bytes that `hasWholePacket` continues before the block.** -/
theorem minusOne_not_splits : ¬ minusOne.Splits :=
  not_splits_of_lt (by decide) (by decide)

end JyTcpBuf

end EuhatExpert
