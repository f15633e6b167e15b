import EuhatExpert.Common.JyList
import EuhatExpert.Machinery.Conveyor
import Mathlib.Logic.Function.Basic

/-!
# Common/JyUdpSelector — datagrams, and the queue they are sent from

`send` puts a datagram on the queue of its socket under the mutex, and `onWrite` takes one off under the
mutex and hands it to the system without it.  Any number of threads may be in `send` at once, and the one
they take off need not be their own.  `sentOnce`: a datagram is sent once at most, and what is still to be
sent has a call that will send it; only unregistering a socket loses what is on its queue.
-/

namespace EuhatExpert

open Machinery

/-- The bytes a datagram is received in. -/
def JY_UDP_RECV_UNIT_LEN : ℕ := 1024

/-- The bytes of a text to be sent, with its end. -/
def JY_UDP_SEND_UNIT_LEN : ℕ := 1024

/-- `sin_addr`, in network order. -/
structure InAddr where
  b0 : UInt8
  b1 : UInt8
  b2 : UInt8
  b3 : UInt8
  deriving DecidableEq, Repr

/-- A `sockaddr_in`, with the port in host order. -/
@[ext] structure SockAddr where
  sin_addr : InAddr
  sin_port : UInt16
  deriving DecidableEq, Repr

/-- A datagram with the address it goes to; it leaves room in its buffer. -/
structure JyUdpSendBuf where
  sendAddr_ : SockAddr
  buf_ : Bytes
  room : buf_.length < JY_UDP_SEND_UNIT_LEN

namespace JyUdpSelector

/-- The datagram `send` makes of a text, with the NUL behind it; a long one is refused. -/
def sendBuf (sockAddr : SockAddr) (text : Bytes) : Option JyUdpSendBuf :=
  if h : (cstr text ++ [0]).length < JY_UDP_SEND_UNIT_LEN then some ⟨sockAddr, cstr text ++ [0], h⟩ else none

/-- The C string in the buffer of `onRead`: POSIX cuts a datagram that is longer, where Winsock's `recvfrom` fails and
it is dropped. -/
def recvText (datagram : Bytes) : Bytes := cstr (datagram.take (JY_UDP_RECV_UNIT_LEN - 1))

/-- A text with room for its end is sent as the C string it is. -/
theorem sendBuf_eq_some {sockAddr : SockAddr} {text : Bytes} {buf : JyUdpSendBuf}
    (h : sendBuf sockAddr text = some buf) : buf.sendAddr_ = sockAddr ∧ buf.buf_ = cstr text ++ [0] := by
  rw [sendBuf] at h
  split_ifs at h
  rw [← Option.some.inj h]
  exact ⟨rfl, rfl⟩

theorem cstr_cstr_append (text rest : Bytes) : cstr (cstr text ++ 0 :: rest) = cstr text := by
  have hmem : ∀ ch ∈ text.takeWhile fun ch => ch ≠ 0, decide (ch ≠ 0) = true := fun _ => List.mem_takeWhile_imp
  rw [cstr, cstr, List.takeWhile_append_of_pos hmem, List.takeWhile_cons_of_neg (by decide), List.append_nil]

/-- **A text that is sent is read whole.** -/
theorem recvText_sendBuf {sockAddr : SockAddr} {text : Bytes} {buf : JyUdpSendBuf}
    (h : sendBuf sockAddr text = some buf) : recvText buf.buf_ = cstr text := by
  have hlen := buf.room
  have hle : buf.buf_.length ≤ JY_UDP_RECV_UNIT_LEN - 1 := by
    rw [JY_UDP_SEND_UNIT_LEN] at hlen
    rw [JY_UDP_RECV_UNIT_LEN]
    omega
  rw [recvText, List.take_of_length_le hle, (sendBuf_eq_some h).2, cstr_cstr_append]

end JyUdpSelector

/-! ## The queues, and the threads at them -/

/-- `socks_` with its queues.  For each socket: the calls of `send` that have put their datagram and taken
none yet, and the datagrams taken and not handed to `sendto` yet.  `posted` is what listeners were sent of the
datagrams that came. -/
structure JyUdpSelector where
  socks_ : ℕ → Option (List JyUdpSendBuf)
  pushed : ℕ → ℕ
  popped : ℕ → List JyUdpSendBuf
  posted : List (ℕ × Bytes)

/-- The sections under the locks, a datagram received, and `add` and `del`. -/
inductive UdpEvent
  | add (sock : ℕ)
  | del (sock : ℕ)
  | push (sock : ℕ) (buf : JyUdpSendBuf)
  | pop (sock : ℕ)
  | sendto (sock : ℕ) (buf : JyUdpSendBuf)
  | recv (sock : ℕ) (datagram : Bytes)

namespace JyUdpSelector

open Function

def start : JyUdpSelector := ⟨fun _ => none, fun _ => 0, fun _ => [], []⟩

/-- One step of one thread.  `push`, `pop` and `recv` are what `send`, `onWrite` and `onRead` do under the mutex. -/
inductive Step : JyUdpSelector → UdpEvent → JyUdpSelector → Prop
  | add {s : JyUdpSelector} (sock : ℕ) : Step s (.add sock) { s with socks_ := update s.socks_ sock (some []) }
  | del {s : JyUdpSelector} (sock : ℕ) : Step s (.del sock) { s with socks_ := update s.socks_ sock none }
  | push {s : JyUdpSelector} {sock : ℕ} {queue : List JyUdpSendBuf} (buf : JyUdpSendBuf)
      (hfind : s.socks_ sock = some queue) :
      Step s (.push sock buf) { s with
        socks_ := update s.socks_ sock (some (queue ++ [buf]))
        pushed := update s.pushed sock (s.pushed sock + 1) }
  | popNone {s : JyUdpSelector} {sock n : ℕ} (hcall : s.pushed sock = n + 1)
      (hnone : s.socks_ sock = none ∨ s.socks_ sock = some []) :
      Step s (.pop sock) { s with pushed := update s.pushed sock n }
  | pop {s : JyUdpSelector} {sock n : ℕ} {buf : JyUdpSendBuf} {queue : List JyUdpSendBuf}
      (hcall : s.pushed sock = n + 1) (hfront : s.socks_ sock = some (buf :: queue)) :
      Step s (.pop sock) { s with
        socks_ := update s.socks_ sock (some queue)
        pushed := update s.pushed sock n
        popped := update s.popped sock (buf :: s.popped sock) }
  | sendto {s : JyUdpSelector} {sock : ℕ} {before after : List JyUdpSendBuf} {buf : JyUdpSendBuf}
      (hheld : s.popped sock = before ++ buf :: after) :
      Step s (.sendto sock buf) { s with popped := update s.popped sock (before ++ after) }
  | recv {s : JyUdpSelector} {sock : ℕ} {queue : List JyUdpSendBuf} (datagram : Bytes)
      (hfind : s.socks_ sock = some queue) :
      Step s (.recv sock datagram) { s with posted := s.posted ++ [(sock, datagram)] }
  | recvNone {s : JyUdpSelector} {sock : ℕ} (datagram : Bytes) (hnone : s.socks_ sock = none) :
      Step s (.recv sock datagram) s

/-- What was put on the queue of a socket. -/
def pushes (sock : ℕ) (es : List UdpEvent) : List JyUdpSendBuf :=
  es.filterMap fun e => match e with
    | .push sock' buf => if sock' = sock then some buf else none
    | _ => none

/-- What was sent from a socket. -/
def sends (sock : ℕ) (es : List UdpEvent) : List JyUdpSendBuf :=
  es.filterMap fun e => match e with
    | .sendto sock' buf => if sock' = sock then some buf else none
    | _ => none

/-! ## One socket is a conveyor -/

/-- The part of the selector that concerns a socket. -/
def lane (sock : ℕ) (s : JyUdpSelector) : Conveyor JyUdpSendBuf :=
  ⟨(s.socks_ sock).getD [], s.pushed sock, s.popped sock⟩

/-- What an event is to one socket's queue. -/
def laneEvent (sock : ℕ) : UdpEvent → Option (ConveyorEvent JyUdpSendBuf)
  | .push sock' buf => if sock' = sock then some (.put buf) else none
  | .pop sock' => if sock' = sock then some .take else none
  | .sendto sock' buf => if sock' = sock then some (.hand buf) else none
  | .add sock' => if sock' = sock then some .drop else none
  | .del sock' => if sock' = sock then some .drop else none
  | .recv _ _ => none

theorem puts_laneEvent (sock : ℕ) (es : List UdpEvent) :
    Conveyor.puts (es.filterMap (laneEvent sock)) = pushes sock es := by
  rw [Conveyor.puts, List.filterMap_filterMap, pushes]
  refine List.filterMap_congr fun e _ => ?_
  cases e with
  | recv => rfl
  | _ => simp only [laneEvent]; split_ifs <;> rfl

theorem hands_laneEvent (sock : ℕ) (es : List UdpEvent) :
    Conveyor.hands (es.filterMap (laneEvent sock)) = sends sock es := by
  rw [Conveyor.hands, List.filterMap_filterMap, sends]
  refine List.filterMap_congr fun e _ => ?_
  cases e with
  | recv => rfl
  | _ => simp only [laneEvent]; split_ifs <;> rfl

/-- An event of the socket is a step of its conveyor. -/
theorem lane_step {sock : ℕ} {s s' : JyUdpSelector} {e : UdpEvent} {d : ConveyorEvent JyUdpSendBuf}
    (h : Step s e s') (hd : laneEvent sock e = some d) : Conveyor.Step (lane sock s) d (lane sock s') := by
  cases h with
  | add sock' =>
    obtain ⟨rfl, hput⟩ := Option.ite_none_right_eq_some.mp hd
    obtain rfl := Option.some.inj hput
    simp only [lane, update_self, Option.getD_some]
    exact Conveyor.Step.drop
  | del sock' =>
    obtain ⟨rfl, hput⟩ := Option.ite_none_right_eq_some.mp hd
    obtain rfl := Option.some.inj hput
    simp only [lane, update_self, Option.getD_none]
    exact Conveyor.Step.drop
  | @push sock' queue buf hfind =>
    obtain ⟨rfl, hput⟩ := Option.ite_none_right_eq_some.mp hd
    obtain rfl := Option.some.inj hput
    simp only [lane, update_self, hfind, Option.getD_some]
    exact Conveyor.Step.put buf
  | @popNone sock' n hcall hnone =>
    obtain ⟨rfl, hput⟩ := Option.ite_none_right_eq_some.mp hd
    obtain rfl := Option.some.inj hput
    simp only [lane, update_self]
    refine Conveyor.Step.takeNone hcall ?_
    rcases hnone with hnone | hnone <;> simp only [hnone, Option.getD_none, Option.getD_some]
  | @pop sock' n buf queue hcall hfront =>
    obtain ⟨rfl, hput⟩ := Option.ite_none_right_eq_some.mp hd
    obtain rfl := Option.some.inj hput
    simp only [lane, update_self, hfront, Option.getD_some]
    exact Conveyor.Step.take hcall rfl
  | @sendto sock' before after buf hheld =>
    obtain ⟨rfl, hput⟩ := Option.ite_none_right_eq_some.mp hd
    obtain rfl := Option.some.inj hput
    simp only [lane, update_self]
    exact Conveyor.Step.hand hheld
  | recv => cases hd
  | recvNone => cases hd

/-- An event of another socket leaves the conveyor alone. -/
theorem lane_frame {sock : ℕ} {s s' : JyUdpSelector} {e : UdpEvent} (h : Step s e s')
    (hnone : laneEvent sock e = none) : lane sock s' = lane sock s := by
  have hne : ∀ {sock' : ℕ} {d : ConveyorEvent JyUdpSendBuf},
      (if sock' = sock then some d else none) = none → sock ≠ sock' := by
    rintro sock' d h rfl
    rw [if_pos rfl] at h
    cases h
  cases h with
  | add => simp only [lane, update_of_ne (hne hnone)]
  | del => simp only [lane, update_of_ne (hne hnone)]
  | push _ hfind => simp only [lane, update_of_ne (hne hnone)]
  | popNone => simp only [lane, update_of_ne (hne hnone)]
  | pop => simp only [lane, update_of_ne (hne hnone)]
  | sendto => simp only [lane, update_of_ne (hne hnone)]
  | recv => rfl
  | recvNone => rfl

/-- A socket's conveyor goes through what happens to the socket. -/
theorem lane_run {sock : ℕ} {s₀ s : JyUdpSelector} {es : List UdpEvent} (h : Run Step s₀ es s) :
    Run Conveyor.Step (lane sock s₀) (es.filterMap (laneEvent sock)) (lane sock s) :=
  h.project (lane sock) (laneEvent sock) (fun _ _ _ _ hr hd => lane_step hr hd)
    fun _ _ _ hr hnone => lane_frame hr hnone

theorem drop_not_mem {sock : ℕ} {es : List UdpEvent} (hadd : .add sock ∉ es) (hdel : .del sock ∉ es) :
    .drop ∉ es.filterMap (laneEvent sock) := by
  rintro hmem
  obtain ⟨e, he, heq⟩ := List.mem_filterMap.mp hmem
  cases e with
  | add sock' =>
    obtain ⟨rfl, -⟩ := Option.ite_none_right_eq_some.mp heq
    exact hadd he
  | del sock' =>
    obtain ⟨rfl, -⟩ := Option.ite_none_right_eq_some.mp heq
    exact hdel he
  | push | pop | sendto =>
    obtain ⟨-, h⟩ := Option.ite_none_right_eq_some.mp heq
    cases Option.some.inj h
  | recv => cases heq

/-- **A datagram is sent once at most.**  Of what was put on the queue of a socket some has been taken, in the
order it was put; what has been taken is sent or held by a call that will send it, each datagram once; and
what is on the queue has a call that will take it.  As long as the socket stays registered nothing else
becomes of a datagram, and all of them are sent when no call is under way. -/
theorem sentOnce {sock : ℕ} {s₀ s : JyUdpSelector} {es : List UdpEvent} (h₀ : lane sock s₀ = .empty)
    (hrun : Run Step s₀ es s) :
    (∃ taken, (taken ++ (s.socks_ sock).getD []).Sublist (pushes sock es) ∧
        (sends sock es ++ s.popped sock).Perm taken ∧ ((s.socks_ sock).getD []).length ≤ s.pushed sock) ∧
      (.add sock ∉ es → .del sock ∉ es → s.pushed sock = 0 → s.popped sock = [] →
        (sends sock es).Perm (pushes sock es)) := by
  have hlane := (lane_run hrun : Run Conveyor.Step (lane sock s₀) (es.filterMap (laneEvent sock)) (lane sock s))
  rw [h₀] at hlane
  obtain ⟨taken, hacc⟩ := Conveyor.accounts_of_run hlane
  refine ⟨⟨taken, ?_, ?_, hacc.served⟩, fun hadd hdel hcall hheld => ?_⟩
  · rw [← puts_laneEvent]
    exact hacc.order
  · rw [← hands_laneEvent]
    exact hacc.once
  · rw [← puts_laneEvent, ← hands_laneEvent]
    exact hacc.handed (drop_not_mem hadd hdel) hcall hheld

/-! ## One socket alone -/

/-- The selector with one socket, in this state. -/
def alone (sock : ℕ) (c : Conveyor JyUdpSendBuf) : JyUdpSelector :=
  ⟨update start.socks_ sock (some c.queue), update start.pushed sock c.due, update start.popped sock c.held, []⟩

theorem lane_alone (sock : ℕ) (c : Conveyor JyUdpSendBuf) : lane sock (alone sock c) = c := by
  simp [lane, alone]

def ofLane (sock : ℕ) : ConveyorEvent JyUdpSendBuf → UdpEvent
  | .put buf => .push sock buf
  | .take => .pop sock
  | .hand buf => .sendto sock buf
  | .drop => .add sock

/-- **Whatever a conveyor can do happens to a socket.** -/
theorem step_alone (sock : ℕ) {c c' : Conveyor JyUdpSendBuf} {d : ConveyorEvent JyUdpSendBuf}
    (h : Conveyor.Step c d c') : Step (alone sock c) (ofLane sock d) (alone sock c') := by
  have hq : (alone sock c).socks_ sock = some c.queue := update_self _ _ _
  have hdue : (alone sock c).pushed sock = c.due := update_self _ _ _
  have hheld : (alone sock c).popped sock = c.held := update_self _ _ _
  cases h with
  | put x => simpa [alone, ofLane] using Step.push x hq
  | takeNone hn hnil => simpa [alone, ofLane] using Step.popNone (hdue.trans hn) (.inr (hq.trans (congrArg some hnil)))
  | take hn hcons => simpa [alone, ofLane] using Step.pop (hdue.trans hn) (hq.trans (congrArg some hcons))
  | hand hmid => simpa [alone, ofLane] using Step.sendto (hheld.trans hmid)
  | drop => simpa [alone, ofLane] using Step.add (s := alone sock c) sock

theorem run_alone (sock : ℕ) {c c' : Conveyor JyUdpSendBuf} {es : List (ConveyorEvent JyUdpSendBuf)}
    (h : Run Conveyor.Step c es c') : Run Step (alone sock c) (es.map (ofLane sock)) (alone sock c') := by
  induction h with
  | nil => exact .nil
  | snoc _ hstep ih =>
    rw [List.map_append]
    exact ih.snoc (step_alone sock hstep)

theorem short_room (ch : UInt8) : [ch, 0].length < JY_UDP_SEND_UNIT_LEN := by
  simp [JY_UDP_SEND_UNIT_LEN]

/-- One character, to port 80 of this host. -/
def short (ch : UInt8) : JyUdpSendBuf := ⟨⟨⟨127, 0, 0, 1⟩, 80⟩, [ch, 0], short_room ch⟩

/-- Two threads in `send`, each of which sends the other's datagram. -/
def crossed : List UdpEvent :=
  [.push 3 (short 1), .push 3 (short 2), .pop 3, .pop 3, .sendto 3 (short 2), .sendto 3 (short 1)]

theorem sentOnce_here : ∃ s, Run Step (alone 3 .empty) crossed s ∧ (sends 3 crossed).Perm (pushes 3 crossed) ∧
    pushes 3 crossed = [short 1, short 2] := by
  have hrun : Run Step (alone 3 .empty) crossed (alone 3 .empty) :=
    run_alone 3 ((((((Run.nil.snoc (.put (short 1))).snoc (.put (short 2))).snoc (.take rfl rfl)).snoc
      (.take rfl rfl)).snoc (.hand (List.nil_append _).symm)).snoc (.hand (List.nil_append _).symm))
  exact ⟨_, hrun, (sentOnce (lane_alone 3 .empty) hrun).2 (by simp [crossed]) (by simp [crossed])
    (by simp [alone, Conveyor.empty]) (by simp [alone, Conveyor.empty]), rfl⟩

end JyUdpSelector

end EuhatExpert
