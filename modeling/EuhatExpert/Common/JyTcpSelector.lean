import EuhatExpert.Common.JyDataStream

/-!
# Common/JyTcpSelector — bytes in, packets out

A packet starts with its own total length.  `onRead` collects what `recv` returns in a pool block and asks
`hasWholePacket` once; `onWrite` hands a packet to `::send` until all of it is accepted.  A block taken
from the pool holds whatever was left in it.
-/

namespace EuhatExpert

open Machinery

/-- A block of a pool of unit size `U`, with whatever is in it. -/
abbrev Block (U : ℕ) := { block : Bytes // block.length = U }

/-- `memcpy` of `data` to offset `at_` of a block. -/
def overwrite (block : Bytes) (at_ : ℕ) (data : Bytes) : Bytes :=
  block.take at_ ++ (data ++ block.drop (at_ + data.length))

theorem length_overwrite {block data : Bytes} {at_ : ℕ} (h : at_ + data.length ≤ block.length) :
    (overwrite block at_ data).length = block.length := by
  simp only [overwrite, List.length_append, List.length_take, List.length_drop]
  omega

/-- The bytes of a block up to the end of what was copied into it. -/
theorem take_overwrite {block data : Bytes} {at_ : ℕ} (h : at_ ≤ block.length) :
    (overwrite block at_ data).take (at_ + data.length) = block.take at_ ++ data := by
  have hlen : (block.take at_ ++ data).length = at_ + data.length := by
    rw [List.length_append, List.length_take, min_eq_left h]
  rw [overwrite, ← List.append_assoc, List.take_left' hlen]

/-- `JyTcpBuf`: a block of the pool and how much of it was received. -/
structure JyTcpBuf (U : ℕ) where
  guard_ : Block U
  recvLen_ : ℕ
  recvLen_le : recvLen_ ≤ U

namespace JyTcpBuf

variable {U : ℕ}

/-- The bytes received. -/
def received (buf : JyTcpBuf U) : Bytes := buf.guard_.val.take buf.recvLen_

@[simp] theorem length_received (buf : JyTcpBuf U) : buf.received.length = buf.recvLen_ := by
  rw [received, List.length_take, buf.guard_.property, min_eq_left buf.recvLen_le]

/-- `JyTcpBuf(pool)`, on the block the pool gives. -/
def ofBlock (block : Block U) : JyTcpBuf U := ⟨block, 0, Nat.zero_le _⟩

/-- What `recv` can still write. -/
def roomLeft (buf : JyTcpBuf U) : ℕ := U - buf.recvLen_

/-- `recv` of `data` behind what was received so far. -/
def recv (buf : JyTcpBuf U) (data : Bytes) (h : data.length ≤ buf.roomLeft) : JyTcpBuf U where
  guard_ := ⟨overwrite buf.guard_.val buf.recvLen_ data, by
    have := buf.recvLen_le
    rw [roomLeft] at h
    rw [length_overwrite (by rw [buf.guard_.property]; omega), buf.guard_.property]⟩
  recvLen_ := buf.recvLen_ + data.length
  recvLen_le := by
    have := buf.recvLen_le
    rw [roomLeft] at h
    omega

@[simp] theorem received_recv (buf : JyTcpBuf U) (data : Bytes) (h : data.length ≤ buf.roomLeft) :
    (buf.recv data h).received = buf.received ++ data :=
  take_overwrite (by rw [buf.guard_.property]; exact buf.recvLen_le)

@[simp] theorem received_ofBlock (block : Block U) : (ofBlock block).received = [] := rfl

/-- The rest of a block that holds more than one packet, copied to the front of another block. -/
def next (buf : JyTcpBuf U) (block : Block U) (totalSize : ℕ) : JyTcpBuf U where
  guard_ := ⟨overwrite block.val 0 (buf.received.drop totalSize), by
    rw [length_overwrite, block.property]
    have := buf.recvLen_le
    rw [List.length_drop, length_received, block.property]
    omega⟩
  recvLen_ := buf.recvLen_ - totalSize
  recvLen_le := (Nat.sub_le _ _).trans buf.recvLen_le

/-- The packet at the front of a block that holds more. -/
def front (buf : JyTcpBuf U) (totalSize : ℕ) (h : totalSize ≤ buf.recvLen_) : JyTcpBuf U :=
  ⟨buf.guard_, totalSize, h.trans buf.recvLen_le⟩

theorem received_next (buf : JyTcpBuf U) (block : Block U) (totalSize : ℕ) :
    (buf.next block totalSize).received = buf.received.drop totalSize := by
  have hlen : (buf.received.drop totalSize).length = buf.recvLen_ - totalSize := by
    rw [List.length_drop, length_received]
  have h := @take_overwrite block.val (buf.received.drop totalSize) 0 (Nat.zero_le _)
  rw [Nat.zero_add, hlen, List.take_zero, List.nil_append] at h
  exact h

theorem received_front (buf : JyTcpBuf U) (totalSize : ℕ) (h : totalSize ≤ buf.recvLen_) :
    (buf.front totalSize h).received = buf.received.take totalSize := by
  rw [received, received, List.take_take, min_eq_left h]
  rfl

end JyTcpBuf

/-! ## `JyTcpListener::hasWholePacket` -/

/-- What `hasWholePacket` leaves: its return value, the packet it split off, and `recvBuf_`. -/
structure Whole (U : ℕ) where
  result : ℤ
  splitCompleted : Option (JyTcpBuf U)
  recvBuf_ : Option (JyTcpBuf U)

/-- `hasWholePacket`, with the block the pool would give for the rest.  A negative `totalSize` is
below what was received, and `memcpy` then copies from before the block. -/
def hasWholePacket {U : ℕ} (buf : JyTcpBuf U) (block : Block U) : Except Fault (Whole U) :=
  if buf.recvLen_ ≤ 6 then .ok ⟨-1, none, some buf⟩
  else
    let totalSize := getInt (buf.guard_.val.take 4)
    if U ≤ totalSize then .ok ⟨-1, none, some buf⟩
    else if buf.recvLen_ < totalSize then .ok ⟨0, none, some buf⟩
    else if buf.recvLen_ = totalSize then .ok ⟨1, some buf, none⟩
    else if totalSize < 0 then .error .outside
    else if h : totalSize.toNat ≤ buf.recvLen_ then
      .ok ⟨1, some (buf.front totalSize.toNat h), some (buf.next block totalSize.toNat)⟩
    else .error .outside

/-! ## `JyTcpSelector::onRead` -/

/-- A message `onRead` posts for the message loop. -/
inductive SockMsg (U : ℕ)
  | read (buf : JyTcpBuf U)
  | disconnect

/-- One call of `onRead` on a connected socket: the bytes the socket has, none when `recv` fails or the
peer closed, and the blocks the pool would give. -/
structure Recv (U : ℕ) where
  data : Bytes
  recvBlock : Block U
  restBlock : Block U

/-- What `onRead` leaves: `recvBuf_`, the message it posts, and its return value. -/
structure OnRead (U : ℕ) where
  recvBuf_ : Option (JyTcpBuf U)
  msg : Option (SockMsg U)
  ret : ℤ

/-- What follows a successful `recv`: `hasWholePacket` is asked once. -/
def afterRecv {U : ℕ} (buf : JyTcpBuf U) (block : Block U) : Except Fault (OnRead U) := do
  let whole ← hasWholePacket buf block
  if whole.result = 1 then
    pure ⟨whole.recvBuf_, whole.splitCompleted.map .read, 1⟩
  else if whole.result = -1 then
    pure ⟨none, some .disconnect, 0⟩
  else pure ⟨whole.recvBuf_, none, 1⟩

/-- `onRead`: `recv` writes no more than the room it is offered. -/
def onRead {U : ℕ} (recvBuf_ : Option (JyTcpBuf U)) (r : Recv U) : Except Fault (OnRead U) :=
  let buf := recvBuf_.getD (.ofBlock r.recvBlock)
  if r.data.take buf.roomLeft = [] then .ok ⟨none, some .disconnect, 0⟩
  else afterRecv (buf.recv (r.data.take buf.roomLeft) (List.length_take_le _ _)) r.restBlock

/-- A buffer of up to six bytes is an error, whatever is in it. -/
theorem afterRecv_of_short {U : ℕ} {buf : JyTcpBuf U} (h : buf.recvLen_ ≤ 6) (block : Block U) :
    afterRecv buf block = .ok ⟨none, some .disconnect, 0⟩ := by
  rw [afterRecv, hasWholePacket, if_pos h]
  rfl

section Header

variable {U : ℕ} {buf : JyTcpBuf U} {size : ℕ} (h₇ : 7 ≤ buf.recvLen_)
  (hsize : getInt (buf.received.take 4) = size) (hU : size < U)

include h₇ hsize

theorem getInt_guard : getInt (buf.guard_.val.take 4) = size := by
  rw [← hsize, JyTcpBuf.received, List.take_take, min_eq_left (by omega)]

include hU

/-- An unfinished packet is kept. -/
theorem afterRecv_of_lt (hlt : buf.recvLen_ < size) (block : Block U) :
    afterRecv buf block = .ok ⟨some buf, none, 1⟩ := by
  rw [afterRecv, hasWholePacket, if_neg (by omega)]
  simp only [getInt_guard h₇ hsize]
  rw [if_neg (by omega), if_pos (by omega)]
  rfl

/-- **A finished packet is posted, and what is behind it is kept.** -/
theorem afterRecv_of_le (hle : size ≤ buf.recvLen_) (block : Block U) :
    ∃ (packet : JyTcpBuf U) (rest : Option (JyTcpBuf U)),
      afterRecv buf block = .ok ⟨rest, some (.read packet), 1⟩ ∧
        packet.received = buf.received.take size ∧
        (rest.map JyTcpBuf.received).getD [] = buf.received.drop size := by
  rw [afterRecv, hasWholePacket, if_neg (by omega)]
  simp only [getInt_guard h₇ hsize]
  rw [if_neg (by omega), if_neg (by omega)]
  by_cases heq : buf.recvLen_ = size
  · rw [if_pos (by rw [heq])]
    have hlen : buf.received.length = size := by rw [JyTcpBuf.length_received, heq]
    exact ⟨buf, none, rfl, (List.take_of_length_le hlen.le).symm,
      (List.drop_of_length_le hlen.le).symm⟩
  · rw [if_neg (by omega), if_neg (by omega), dif_pos (by omega)]
    exact ⟨buf.front size hle, some (buf.next block size), rfl, buf.received_front size hle,
      buf.received_next block size⟩

end Header

/-! ## `JyTcpSelector::onWrite` -/

/-- `onWrite`, given how much each `::send` accepts: the parts handed over, or nothing while the loop
still has bytes to send. -/
def onWrite : Bytes → List ℕ → Option (List Bytes)
  | _, [] => none
  | buf, len :: accepts =>
    if buf.length ≤ len then some [buf]
    else (onWrite (buf.drop len) accepts).map (buf.take len :: ·)

/-- **The parts make up the packet.** -/
theorem flatten_onWrite {accepts : List ℕ} :
    ∀ {buf : Bytes} {parts : List Bytes}, onWrite buf accepts = some parts → parts.flatten = buf := by
  induction accepts with
  | nil => intro buf parts h; cases h
  | cons len accepts ih =>
    intro buf parts h
    rw [onWrite] at h
    split_ifs at h
    · obtain rfl := Option.some.inj h
      simp
    · obtain ⟨rest, hrest, rfl⟩ := Option.map_eq_some_iff.mp h
      rw [List.flatten_cons, ih hrest, List.take_append_drop]

end EuhatExpert
