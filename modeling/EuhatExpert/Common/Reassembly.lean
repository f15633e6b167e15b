import EuhatExpert.Common.JyTcpSelector
import Mathlib.Data.List.Infix

/-!
# Common/Reassembly — which cuttings of the byte stream are put together again

`arrived fs n` are the frames that are complete within the first `n` bytes of a stream of frames.  One call
of `onRead` posts at most one of them and refuses a buffer of fewer than seven bytes, so the packets
posted are the frames arrived exactly while every `recv` brings the unfinished frame to seven bytes and
completes no second one (`CutsWell`, `reassembles_iff`).
-/

namespace EuhatExpert

open Machinery

variable {U : ℕ}

/-! ## Frames -/

/-- A frame: a header with its own total length, shorter than the receiver's pool blocks. -/
structure Frame (U : ℕ) where
  bytes : Bytes
  header : getInt (bytes.take 4) = bytes.length
  le_length : 8 ≤ bytes.length
  length_lt : bytes.length < U

namespace Frame

/-- The byte stream of a list of frames. -/
def stream (fs : List (Frame U)) : Bytes := (fs.map bytes).flatten

/-- The frames whose last byte is among the first `n` of the stream. -/
def arrived : List (Frame U) → ℕ → List Bytes
  | [], _ => []
  | f :: fs, n => if f.bytes.length ≤ n then f.bytes :: arrived fs (n - f.bytes.length) else []

/-- The frames that are not, and how many of the first `n` bytes are theirs. -/
def pending : List (Frame U) → ℕ → List (Frame U) × ℕ
  | [], n => ([], n)
  | f :: fs, n => if f.bytes.length ≤ n then pending fs (n - f.bytes.length) else (f :: fs, n)

@[simp] theorem stream_nil : stream ([] : List (Frame U)) = [] := rfl

@[simp] theorem stream_cons (f : Frame U) (fs : List (Frame U)) :
    stream (f :: fs) = f.bytes ++ stream fs := rfl

theorem arrived_of_le {f : Frame U} {fs : List (Frame U)} {n : ℕ} (h : f.bytes.length ≤ n) :
    arrived (f :: fs) n = f.bytes :: arrived fs (n - f.bytes.length) := if_pos h

theorem arrived_of_lt {f : Frame U} {fs : List (Frame U)} {n : ℕ} (h : n < f.bytes.length) :
    arrived (f :: fs) n = [] := if_neg (not_le.mpr h)

theorem pending_of_le {f : Frame U} {fs : List (Frame U)} {n : ℕ} (h : f.bytes.length ≤ n) :
    pending (f :: fs) n = pending fs (n - f.bytes.length) := if_pos h

theorem pending_of_lt {f : Frame U} {fs : List (Frame U)} {n : ℕ} (h : n < f.bytes.length) :
    pending (f :: fs) n = (f :: fs, n) := if_neg (not_le.mpr h)

/-- Nothing arrived, all is pending. -/
theorem pending_of_arrived_nil {fs : List (Frame U)} {n : ℕ} (h : arrived fs n = []) :
    pending fs n = (fs, n) := by
  cases fs with
  | nil => rfl
  | cons f fs =>
    by_cases hle : f.bytes.length ≤ n
    · rw [arrived_of_le hle] at h
      cases h
    · exact pending_of_lt (not_le.mp hle)

/-- The first pending frame is not complete. -/
theorem pending_lt {fs fs' : List (Frame U)} {f : Frame U} {n k : ℕ}
    (h : pending fs n = (f :: fs', k)) : k < f.bytes.length := by
  induction fs generalizing n with
  | nil => cases h
  | cons g fs ih =>
    by_cases hle : g.bytes.length ≤ n
    · rw [pending_of_le hle] at h
      exact ih h
    · rw [pending_of_lt (not_le.mp hle)] at h
      cases h
      exact not_le.mp hle

/-- What is pending is the stream behind what arrived. -/
theorem drop_stream (fs : List (Frame U)) (n : ℕ) :
    (stream fs).drop n = (stream (pending fs n).1).drop (pending fs n).2 := by
  induction fs generalizing n with
  | nil => rfl
  | cons f fs ih =>
    by_cases hle : f.bytes.length ≤ n
    · rw [pending_of_le hle, ← ih, stream_cons, List.drop_append, List.drop_of_length_le hle,
        List.nil_append]
    · rw [pending_of_lt (not_le.mp hle)]

theorem arrived_add (fs : List (Frame U)) (n m : ℕ) :
    arrived fs (n + m) = arrived fs n ++ arrived (pending fs n).1 ((pending fs n).2 + m) := by
  induction fs generalizing n with
  | nil => rfl
  | cons f fs ih =>
    by_cases hle : f.bytes.length ≤ n
    · rw [arrived_of_le (hle.trans (Nat.le_add_right n m)), arrived_of_le hle, pending_of_le hle,
        Nat.sub_add_comm hle, ih, List.cons_append]
    · rw [arrived_of_lt (not_le.mp hle), pending_of_lt (not_le.mp hle), List.nil_append]

theorem pending_add (fs : List (Frame U)) (n m : ℕ) :
    pending fs (n + m) = pending (pending fs n).1 ((pending fs n).2 + m) := by
  induction fs generalizing n with
  | nil => rfl
  | cons f fs ih =>
    by_cases hle : f.bytes.length ≤ n
    · rw [pending_of_le (hle.trans (Nat.le_add_right n m)), pending_of_le hle,
        Nat.sub_add_comm hle, ih]
    · rw [pending_of_lt (not_le.mp hle)]

end Frame

/-! ## The receiving side of a connection -/

/-- `recvBuf_`, the packets posted so far, and whether an error was reported. -/
structure RecvState (U : ℕ) where
  recvBuf_ : Option (JyTcpBuf U)
  posted : List Bytes
  failed : Bool

namespace RecvState

def init : RecvState U := ⟨none, [], false⟩

/-- The bytes received and not posted. -/
def buffered (s : RecvState U) : Bytes := (s.recvBuf_.map JyTcpBuf.received).getD []

/-- What `onRead` offers to `recv`. -/
def roomLeft (s : RecvState U) : ℕ := (s.recvBuf_.map JyTcpBuf.roomLeft).getD U

/-- The packet of a message. -/
def packet : SockMsg U → Option Bytes
  | .read buf => some buf.received
  | .disconnect => none

/-- One call of `onRead`. -/
def step (s : RecvState U) (r : Recv U) : RecvState U :=
  match onRead s.recvBuf_ r with
  | .ok out => ⟨out.recvBuf_, s.posted ++ (out.msg.bind packet).toList, s.failed || out.ret == 0⟩
  | .error _ => { s with failed := true }

/-- The state after a list of calls. -/
def run (rs : List (Recv U)) : RecvState U := rs.foldl step init

theorem run_concat (rs : List (Recv U)) (r : Recv U) : run (rs ++ [r]) = (run rs).step r := by
  simp [run]

/-- `onRead` goes on with the bytes buffered and the bytes received now. -/
theorem onRead_eq (s : RecvState U) {r : Recv U} (hne : r.data ≠ [])
    (hfit : r.data.length ≤ s.roomLeft) :
    ∃ buf : JyTcpBuf U, buf.received = s.buffered ++ r.data ∧
      onRead s.recvBuf_ r = afterRecv buf r.restBlock := by
  obtain ⟨recvBuf_, posted, failed⟩ := s
  have hroom : (recvBuf_.getD (.ofBlock r.recvBlock)).roomLeft
      = (recvBuf_.map JyTcpBuf.roomLeft).getD U := by
    cases recvBuf_ <;> rfl
  have hbuf : (recvBuf_.getD (.ofBlock r.recvBlock)).received
      = (recvBuf_.map JyTcpBuf.received).getD [] := by
    cases recvBuf_ <;> rfl
  have htake : r.data.take (recvBuf_.getD (.ofBlock r.recvBlock)).roomLeft = r.data := by
    rw [hroom]
    exact List.take_of_length_le hfit
  refine ⟨_, ?_, if_neg (by rwa [htake])⟩
  rw [JyTcpBuf.received_recv, htake, hbuf]
  rfl

end RecvState

/-! ## One call of `onRead` -/

/-- The packets posted are the frames arrived within the first `n` bytes, without an error. -/
def PostedArrived (fs : List (Frame U)) (n : ℕ) (s : RecvState U) : Prop :=
  s.failed = false ∧ s.posted = Frame.arrived fs n

/-- The state in which the first `n` bytes of the stream were received well: besides, what is buffered
is what is pending. -/
structure InStep (fs : List (Frame U)) (n : ℕ) (s : RecvState U) : Prop where
  posted : PostedArrived fs n s
  buffered : s.buffered = (Frame.stream (Frame.pending fs n).1).take (Frame.pending fs n).2

/-- The `recv` of `len` bytes after `n` brings what is pending to seven bytes, and completes one frame at
most. -/
def CutsWell (fs : List (Frame U)) (n len : ℕ) : Prop :=
  7 ≤ (Frame.pending fs n).2 + len ∧
    (Frame.arrived fs (n + len)).length ≤ (Frame.arrived fs n).length + 1

theorem inStep_init (fs : List (Frame U)) : InStep fs 0 RecvState.init where
  posted := by
    refine ⟨rfl, ?_⟩
    cases fs with
    | nil => rfl
    | cons f fs => exact (Frame.arrived_of_lt (by have := f.le_length; omega)).symm
  buffered := by
    cases fs with
    | nil => rfl
    | cons f fs =>
      rw [Frame.pending_of_lt (by have := f.le_length; omega)]
      rfl

variable {fs : List (Frame U)} {n : ℕ} {s : RecvState U} {r : Recv U}

/-- What is buffered after a `recv` is the front of the pending frames. -/
theorem InStep.buffered_append (h : InStep fs n s) {data : Bytes} (hne : data ≠ [])
    (hdata : data <+: (Frame.stream fs).drop n) :
    ∃ f fs' k, Frame.pending fs n = (f :: fs', k) ∧
      s.buffered ++ data = (Frame.stream (f :: fs')).take (k + data.length) ∧
      (s.buffered ++ data).length = k + data.length := by
  have hbuf := h.buffered
  rw [Frame.drop_stream] at hdata
  have hlt := @Frame.pending_lt U fs
  obtain ⟨fs', k, hp⟩ : ∃ fs' k, Frame.pending fs n = (fs', k) := ⟨_, _, rfl⟩
  rw [hp] at hbuf hdata
  cases fs' with
  | nil =>
    rw [Frame.stream_nil, List.drop_nil, List.prefix_nil] at hdata
    exact absurd hdata hne
  | cons f fs' =>
    have hk : k ≤ (Frame.stream (f :: fs')).length := by
      have := hlt hp
      rw [Frame.stream_cons, List.length_append]
      omega
    refine ⟨f, fs', k, hp, ?_, ?_⟩
    · rw [List.take_add, ← List.prefix_iff_eq_take.mp hdata, hbuf]
    · rw [List.length_append, hbuf, List.length_take, min_eq_left hk]

/-- **One call of `onRead` on the next bytes of the stream.** -/
theorem InStep.step (h : InStep fs n s) (hne : r.data ≠ []) (hfit : r.data.length ≤ s.roomLeft)
    (hdata : r.data <+: (Frame.stream fs).drop n) :
    (PostedArrived fs (n + r.data.length) (s.step r) ↔ CutsWell fs n r.data.length) ∧
      (CutsWell fs n r.data.length → InStep fs (n + r.data.length) (s.step r)) := by
  obtain ⟨buf, hrec, hstep⟩ := s.onRead_eq hne hfit
  obtain ⟨f, fs', k, hp, happ, hlen⟩ := h.buffered_append hne hdata
  obtain ⟨hfailed, hposted⟩ := h.posted
  have harr := Frame.arrived_add fs n r.data.length
  have hpend := Frame.pending_add fs n r.data.length
  rw [hp] at harr hpend
  rw [← hrec] at happ hlen
  rw [JyTcpBuf.length_received] at hlen
  rw [CutsWell, hp]
  generalize hj : k + r.data.length = j at *
  by_cases h₇ : 7 ≤ buf.recvLen_
  swap
  · -- too short for `hasWholePacket`
    have hout : s.step r = ⟨none, s.posted, true⟩ := by
      simp [RecvState.step, hstep, afterRecv_of_short (Nat.lt_succ_iff.mp (not_le.mp h₇)),
        RecvState.packet]
    refine ⟨iff_of_false ?_ fun hc => ?_, fun hc => ?_⟩
    · rintro ⟨hf, -⟩
      rw [hout] at hf
      cases hf
    · exact h₇ (hlen ▸ hc.1)
    · exact absurd (hlen ▸ hc.1) h₇
  have hsize : getInt (buf.received.take 4) = f.bytes.length := by
    rw [happ, List.take_take, min_eq_left (by omega), Frame.stream_cons, List.take_append_of_le_length,
      f.header]
    exact le_trans (by norm_num) f.le_length
  by_cases hle : f.bytes.length ≤ buf.recvLen_
  swap
  · -- the frame is not complete
    have hlt : j < f.bytes.length := by omega
    have hout : s.step r = ⟨some buf, s.posted, false⟩ := by
      simp [RecvState.step, hstep, afterRecv_of_lt h₇ hsize f.length_lt (not_le.mp hle), hfailed]
    rw [Frame.arrived_of_lt hlt, List.append_nil] at harr
    rw [Frame.pending_of_lt hlt] at hpend
    have hpost : PostedArrived fs (n + r.data.length) (s.step r) := by
      rw [hout, PostedArrived, harr]
      exact ⟨rfl, hposted⟩
    refine ⟨iff_of_true hpost ⟨by omega, by rw [harr]; omega⟩, fun _ => ⟨hpost, ?_⟩⟩
    rw [hout, hpend]
    exact happ
  -- the frame is complete, and posted
  obtain ⟨packet, rest, hafter, hpacket, hrest⟩ :=
    afterRecv_of_le h₇ hsize f.length_lt hle r.restBlock
  have hframe : packet.received = f.bytes := by
    rw [hpacket, happ, List.take_take, min_eq_left (by omega), Frame.stream_cons, List.take_left]
  have hout : s.step r = ⟨rest, s.posted ++ [f.bytes], false⟩ := by
    simp [RecvState.step, hstep, hafter, hfailed, RecvState.packet, hframe]
  rw [Frame.arrived_of_le (by omega)] at harr
  rw [Frame.pending_of_le (by omega)] at hpend
  have hposts : PostedArrived fs (n + r.data.length) (s.step r)
      ↔ Frame.arrived fs' (j - f.bytes.length) = [] := by
    rw [hout, PostedArrived, harr, hposted]
    simp only [true_and, List.append_cancel_left_eq, List.cons.injEq, @eq_comm _ []]
  have hcuts : 7 ≤ j ∧ (Frame.arrived fs (n + r.data.length)).length
      ≤ (Frame.arrived fs n).length + 1 ↔ Frame.arrived fs' (j - f.bytes.length) = [] := by
    rw [harr, List.length_append, List.length_cons, ← List.length_eq_zero_iff]
    omega
  refine ⟨hposts.trans hcuts.symm, fun hc => ⟨hposts.mpr (hcuts.mp hc), ?_⟩⟩
  rw [hout, hpend, Frame.pending_of_arrived_nil (hcuts.mp hc)]
  show (rest.map JyTcpBuf.received).getD [] = _
  rw [hrest, happ, Frame.stream_cons, List.take_append, List.take_of_length_le (by omega),
    List.drop_left]

/-! ## Whole deliveries -/

/-- The bytes of a list of calls. -/
def receivedBytes (rs : List (Recv U)) : Bytes := (rs.map Recv.data).flatten

/-- The frames are written one after another, `::send` accepting each in the parts given. -/
def Written (fs : List (Frame U)) (parts : List (List Bytes)) : Prop :=
  List.Forall₂ (fun f ps => ∃ accepts, onWrite f.bytes accepts = some ps) fs parts

/-- `recv` returns the written byte stream, as far as it goes, in nonempty pieces that fit. -/
structure Delivered (parts : List (List Bytes)) (rs : List (Recv U)) : Prop where
  stream : receivedBytes rs <+: parts.flatten.flatten
  pieces : ∀ pre r, pre ++ [r] <+: rs → r.data ≠ [] ∧ r.data.length ≤ (RecvState.run pre).roomLeft

/-- No error is reported, and after every `recv` the packets posted are the frames arrived. -/
def Reassembles (fs : List (Frame U)) (rs : List (Recv U)) : Prop :=
  ∀ pre, pre <+: rs → PostedArrived fs (receivedBytes pre).length (RecvState.run pre)

theorem Written.flatten {fs : List (Frame U)} {parts : List (List Bytes)} (h : Written fs parts) :
    parts.flatten.flatten = Frame.stream fs := by
  induction h with
  | nil => rfl
  | cons hp _ ih =>
    obtain ⟨accepts, ha⟩ := hp
    rw [List.flatten_cons, List.flatten_append, ih, flatten_onWrite ha, Frame.stream_cons]

theorem receivedBytes_concat (rs : List (Recv U)) (r : Recv U) :
    receivedBytes (rs ++ [r]) = receivedBytes rs ++ r.data := by
  simp [receivedBytes]

theorem receivedBytes_mono {pre rs : List (Recv U)} (h : pre <+: rs) :
    receivedBytes pre <+: receivedBytes rs := by
  obtain ⟨rest, rfl⟩ := h
  exact ⟨receivedBytes rest, by simp [receivedBytes]⟩

/-- The next piece is the next part of the stream. -/
theorem Delivered.next {parts : List (List Bytes)} {rs : List (Recv U)}
    (hw : Written fs parts) (hd : Delivered parts rs) {pre : List (Recv U)} (hp : pre ++ [r] <+: rs) :
    r.data <+: (Frame.stream fs).drop (receivedBytes pre).length := by
  have h := (receivedBytes_mono hp).trans hd.stream
  rw [hw.flatten, receivedBytes_concat] at h
  obtain ⟨rest, hrest⟩ := h
  exact ⟨rest, by rw [← hrest, List.append_assoc, List.drop_left]⟩

section Deliveries

variable {parts : List (List Bytes)} {rs : List (Recv U)}

/-- The next `recv` of a delivery. -/
theorem Delivered.step (hw : Written fs parts) (hd : Delivered parts rs) {pre : List (Recv U)}
    (hp : pre ++ [r] <+: rs) (h : InStep fs (receivedBytes pre).length (RecvState.run pre)) :
    (PostedArrived fs (receivedBytes (pre ++ [r])).length (RecvState.run (pre ++ [r]))
        ↔ CutsWell fs (receivedBytes pre).length r.data.length) ∧
      (CutsWell fs (receivedBytes pre).length r.data.length →
        InStep fs (receivedBytes (pre ++ [r])).length (RecvState.run (pre ++ [r]))) := by
  obtain ⟨hne, hfit⟩ := hd.pieces pre r hp
  rw [RecvState.run_concat, receivedBytes_concat, List.length_append]
  exact h.step hne hfit (hd.next hw hp)

/-- While the frames are posted as they arrive, the receiver is in step with the stream. -/
theorem Reassembles.inStep (hw : Written fs parts) (hd : Delivered parts rs)
    (h : Reassembles fs rs) :
    ∀ pre, pre <+: rs → InStep fs (receivedBytes pre).length (RecvState.run pre) := by
  intro pre
  induction pre using List.reverseRecOn with
  | nil => exact fun _ => inStep_init fs
  | append_singleton pre r ih =>
    intro hp
    obtain ⟨hpost, hnext⟩ := hd.step hw hp (ih ((List.prefix_append pre [r]).trans hp))
    exact hnext (hpost.mp (h _ hp))

/-- While every `recv` cuts well, the receiver is in step with the stream. -/
theorem inStep_of_cutsWell (hw : Written fs parts) (hd : Delivered parts rs)
    (hc : ∀ pre r, pre ++ [r] <+: rs → CutsWell fs (receivedBytes pre).length r.data.length) :
    ∀ pre, pre <+: rs → InStep fs (receivedBytes pre).length (RecvState.run pre) := by
  intro pre
  induction pre using List.reverseRecOn with
  | nil => exact fun _ => inStep_init fs
  | append_singleton pre r ih =>
    intro hp
    obtain ⟨-, hnext⟩ := hd.step hw hp (ih ((List.prefix_append pre [r]).trans hp))
    exact hnext (hc pre r hp)

/-- **When the packets posted are the frames arrived** — exactly when every `recv` of the delivery brings
the pending frame to seven bytes and completes one frame at most. -/
theorem reassembles_iff (hw : Written fs parts) (hd : Delivered parts rs) :
    Reassembles fs rs ↔
      ∀ pre r, pre ++ [r] <+: rs → CutsWell fs (receivedBytes pre).length r.data.length := by
  constructor
  · intro h pre r hp
    have hpre := h.inStep hw hd pre ((List.prefix_append pre [r]).trans hp)
    exact (hd.step hw hp hpre).1.mp (h _ hp)
  · intro hc pre hp
    exact (inStep_of_cutsWell hw hd hc pre hp).posted

end Deliveries

/-- The shortest frame there is: a length and a packet type. -/
def shortest : Frame 32 := ⟨putInt 4 8 ++ putInt 4 100, by decide, by decide, by decide⟩

/-- A block of zeros. -/
def zeroBlock : Block 32 := ⟨List.replicate 32 0, by decide⟩

/-- One `recv` of two of them. -/
def twoFrames : Recv 32 := ⟨shortest.bytes ++ shortest.bytes, zeroBlock, zeroBlock⟩

/-- Three calls that cut both, each in front of its last byte. -/
def cutFrames : List (Recv 32) :=
  [⟨shortest.bytes.take 7, zeroBlock, zeroBlock⟩,
    ⟨shortest.bytes.drop 7 ++ shortest.bytes.take 7, zeroBlock, zeroBlock⟩, ⟨shortest.bytes.drop 7, zeroBlock, zeroBlock⟩]

/-- A delivery of one call. -/
theorem delivered_single {U : ℕ} {parts : List (List Bytes)} {r : Recv U}
    (hstream : r.data <+: parts.flatten.flatten) (hne : r.data ≠ []) (hfit : r.data.length ≤ U) :
    Delivered parts [r] where
  stream := by simpa [receivedBytes] using hstream
  pieces pre r' hp := by
    obtain rfl : pre = [] := by
      have := hp.length_le
      simpa using this
    obtain rfl : r' = r := by simpa using hp
    exact ⟨hne, hfit⟩

/-- The calls of `cutFrames`, each with those before it. -/
theorem split_cutFrames {pre : List (Recv 32)} {r : Recv 32} (hp : pre ++ [r] <+: cutFrames) :
    (pre, r.data) = ([], shortest.bytes.take 7) ∨
      (pre, r.data) = (cutFrames.take 1, shortest.bytes.drop 7 ++ shortest.bytes.take 7) ∨
      (pre, r.data) = (cutFrames.take 2, shortest.bytes.drop 7) := by
  rw [cutFrames] at hp
  rcases pre with _ | ⟨a, _ | ⟨b, _ | ⟨c, pre⟩⟩⟩
  · simp [List.cons_prefix_cons] at hp
    simp [hp]
  · simp [List.cons_prefix_cons] at hp
    simp [hp, cutFrames]
  · simp [List.cons_prefix_cons] at hp
    simp [hp, cutFrames]
  · simp [List.cons_prefix_cons] at hp

theorem delivered_cutFrames : Delivered [[shortest.bytes], [shortest.bytes]] cutFrames where
  stream := by decide
  pieces pre r hp := by
    obtain h | h | h := split_cutFrames hp
    · obtain ⟨rfl, hdata⟩ := Prod.mk.inj h
      rw [hdata]
      decide
    · obtain ⟨rfl, hdata⟩ := Prod.mk.inj h
      rw [hdata]
      decide
    · obtain ⟨rfl, hdata⟩ := Prod.mk.inj h
      rw [hdata]
      decide

/-- Two frames, the second of which begins in the `recv` that completes the first. -/
theorem reassembles_cutFrames : Reassembles [shortest, shortest] cutFrames := by
  have hw : Written [shortest, shortest] [[shortest.bytes], [shortest.bytes]] :=
    List.Forall₂.cons ⟨[8], rfl⟩ (List.Forall₂.cons ⟨[8], rfl⟩ List.Forall₂.nil)
  refine (reassembles_iff hw delivered_cutFrames).mpr fun pre r hp => ?_
  obtain h | h | h := split_cutFrames hp
  · obtain ⟨rfl, hdata⟩ := Prod.mk.inj h
    rw [hdata]
    exact ⟨by decide, by decide⟩
  · obtain ⟨rfl, hdata⟩ := Prod.mk.inj h
    rw [hdata]
    exact ⟨by decide, by decide⟩
  · obtain ⟨rfl, hdata⟩ := Prod.mk.inj h
    rw [hdata]
    exact ⟨by decide, by decide⟩

/-- **Two frames in one `recv`: the second is not posted.** -/
theorem twoFrames_not_reassembles :
    Written [shortest, shortest] [[shortest.bytes], [shortest.bytes]] ∧
      Delivered [[shortest.bytes], [shortest.bytes]] [twoFrames] ∧
        ¬ Reassembles [shortest, shortest] [twoFrames] := by
  refine ⟨?_, delivered_single (by decide) (by decide) (by decide), fun h => ?_⟩
  · exact List.Forall₂.cons ⟨[8], rfl⟩ (List.Forall₂.cons ⟨[8], rfl⟩ List.Forall₂.nil)
  · have hposted := (h [twoFrames] (List.prefix_refl _)).2
    revert hposted
    decide

end EuhatExpert
