import EuhatExpert.Common.PoolEndpoint

/-!
# Common/BlockOwners — buffers by address are buffers by value

At any time each block of the pool is lent to one owner: a listener, a packet that waits, or what the
endpoint's thread is at (`lent`).  So nobody else writes to it, and **the endpoint with the addresses does what
the one with values does** (`values_of_run`): its blocks add no fault (`faults_of_run`), and none gets lost
(`ncard_of_run`).
-/

namespace EuhatExpert

open Machinery

variable {U : ℕ}

/-! ## Who has which block -/

/-- The blocks of the packets that wait. -/
def queued (l : PacketMsgs (TcpBuf U)) : List ℕ :=
  l.filterMap fun m => match m with
    | .SOCK_READ _ buf => some buf.guard_
    | .SOCK_DISCONNECT _ => none

def Phase.blocks : Phase U → Multiset ℕ
  | .receiving buf => {buf.guard_}
  | .received buf _ _ => {buf.guard_}
  | .copying buf _ _ nextBuf => {nextBuf} + {buf.guard_}

/-- The blocks of the listeners, and of the `onRead` under way. -/
def Socks.blocks : Socks U → Multiset ℕ
  | .free l => guards l
  | .locked before _ phase after => guards before + (phase.blocks + guards after)

/-- The blocks of the packet the endpoint's thread is at. -/
def Work.blocks : Work U → Multiset ℕ
  | .idle => 0
  | .taken _ _ buf => {buf.guard_}
  | .deciphering _ _ buf dsOut => {dsOut} + {buf.guard_}
  | .handling _ base => {base}

/-- The blocks that are not in the pool: of the listeners, of the packets that wait, and those the endpoint's
thread is at. -/
def PoolEndpoint.lent (s : PoolEndpoint U) : Multiset ℕ :=
  s.socks_.blocks + (queued s.list_ + (s.work.blocks + s.leaving))

/-! ## What the blocks show -/

/-- The buffer at an address, if there is a block. -/
def BlockPool.value (pool : BlockPool U) (buf : TcpBuf U) : JyTcpBuf U :=
  ⟨(pool.heap buf.guard_).getD ⟨List.replicate U 0, List.length_replicate⟩, buf.recvLen_, buf.recvLen_le⟩

/-- The listeners with what stands in their blocks. -/
def BlockPool.listeners (pool : BlockPool U) (l : Listeners (TcpBuf U)) : Listeners (JyTcpBuf U) :=
  l.map fun e => (e.1, e.2.map pool.value)

/-- The packets that wait, with what stands in their blocks. -/
def BlockPool.messages (pool : BlockPool U) (l : PacketMsgs (TcpBuf U)) : PacketMsgs (JyTcpBuf U) :=
  l.map (PacketMsg.map pool.value)

/-- `v` is `recvBuf_` with `data` received behind it, in which `hasWholePacket` finds what it found. -/
def Received (recvBuf_ : Option (JyTcpBuf U)) (v : JyTcpBuf U) (data : Bytes) (found : Split) : Prop :=
  ∃ block, (data = [] ∧ found = .refuse) ∨
    ∃ h : data.length ≤ (recvBuf_.getD (.ofBlock block)).roomLeft,
      data ≠ [] ∧ v = (recvBuf_.getD (.ofBlock block)).recv data h ∧ split v = .ok found

/-- An `onRead` under way has done nothing that can be seen: its listener still has the `recvBuf_` from
before. -/
def Phase.Shows (pool : BlockPool U) (recvBuf_ : Option (JyTcpBuf U)) : Phase U → Prop
  | .receiving buf => ∃ block, recvBuf_.getD (.ofBlock block) = pool.value buf
  | .received buf data found => Received recvBuf_ (pool.value buf) data found
  | .copying buf data totalSize _ => Received recvBuf_ (pool.value buf) data (.front totalSize)

/-- What the selector's side shows: the listeners, as they were before an `onRead` under way. -/
def Socks.Shows (pool : BlockPool U) (socks_ : Listeners (JyTcpBuf U)) : Socks U → Prop
  | .free l => socks_ = pool.listeners l
  | .locked before sock phase after => ∃ recvBuf_,
      socks_ = pool.listeners before ++ (sock, recvBuf_) :: pool.listeners after ∧ phase.Shows pool recvBuf_

/-- The message that `onSockRead` has taken and not read. -/
def Work.pending (pool : BlockPool U) : Work U → PacketMsgs (JyTcpBuf U)
  | .taken sock _ buf => [.SOCK_READ sock (pool.value buf)]
  | .deciphering sock _ buf _ => [.SOCK_READ sock (pool.value buf)]
  | _ => []

/-- What a handler has was not changed since it was read. -/
def Work.Holds (pool : BlockPool U) : Work U → Prop
  | .handling r base => (pool.heap base).map Subtype.val = some r.ds.mem
  | _ => True

/-- The endpoint with its blocks shows the one with values. -/
structure PoolEndpoint.Shows {P : JyBufPool} (s : PoolEndpoint P.unitSize_) (a : ValueEndpoint P.unitSize_) :
    Prop where
  socks : s.socks_.Shows s.pool a.socks_
  list_ : a.list_ = s.work.pending s.pool ++ s.pool.messages s.list_
  running : a.running = s.running
  holds : s.work.Holds s.pool

section Lemmas

variable {pool pool' : BlockPool U} {buf : TcpBuf U} {v : JyTcpBuf U} {block : Block U}
  {before after l : Listeners (TcpBuf U)} {sock : ℕ} {recvBuf_ : Option (JyTcpBuf U)}

@[simp] theorem guards_nil : guards ([] : Listeners (TcpBuf U)) = [] := rfl

@[simp] theorem guards_none : guards ((sock, none) :: l) = guards l := rfl

@[simp] theorem guards_some : guards ((sock, some buf) :: l) = buf.guard_ :: guards l := rfl

@[simp] theorem guards_append : guards (before ++ after) = guards before ++ guards after := List.filterMap_append

@[simp] theorem queued_nil : queued ([] : PacketMsgs (TcpBuf U)) = [] := rfl

@[simp] theorem queued_read {list_ : PacketMsgs (TcpBuf U)} :
    queued (.SOCK_READ sock buf :: list_) = buf.guard_ :: queued list_ := rfl

@[simp] theorem queued_disconnect {list_ : PacketMsgs (TcpBuf U)} :
    queued (.SOCK_DISCONNECT sock :: list_) = queued list_ := rfl

@[simp] theorem queued_append {list_ list_' : PacketMsgs (TcpBuf U)} :
    queued (list_ ++ list_') = queued list_ ++ queued list_' := List.filterMap_append

@[simp] theorem BlockPool.listeners_append :
    pool.listeners (before ++ after) = pool.listeners before ++ pool.listeners after := List.map_append

@[simp] theorem BlockPool.listeners_cons (e : ℕ × Option (TcpBuf U)) :
    pool.listeners (e :: l) = (e.1, e.2.map pool.value) :: pool.listeners l := rfl

@[simp] theorem BlockPool.messages_append {list_ list_' : PacketMsgs (TcpBuf U)} :
    pool.messages (list_ ++ list_') = pool.messages list_ ++ pool.messages list_' := List.map_append

/-- They have their sockets. -/
theorem BlockPool.keys_listeners (pool : BlockPool U) (l : Listeners (TcpBuf U)) :
    (pool.listeners l).map Prod.fst = l.map Prod.fst := by
  rw [listeners, List.map_map]
  rfl

/-- What is loaded is what is shown. -/
theorem BlockPool.value_of_load (h : pool.load buf = some v) : pool.value buf = v := by
  obtain ⟨block, hblock, rfl⟩ := Option.map_eq_some_iff.mp h
  rw [value, hblock]
  rfl

/-- What was written is shown. -/
theorem BlockPool.value_write {p : ℕ} {recvLen_ : ℕ} (hle : recvLen_ ≤ U) :
    (pool.write p block).value ⟨p, recvLen_, hle⟩ = ⟨block, recvLen_, hle⟩ := by
  rw [value, write]
  simp

/-- The packet at the front is in the block of the whole. -/
theorem BlockPool.value_front {totalSize : ℕ} (h : pool'.heap buf.guard_ = pool.heap buf.guard_)
    (hle : totalSize ≤ buf.recvLen_) :
    pool'.value ⟨buf.guard_, totalSize, hle.trans buf.recvLen_le⟩ = (pool.value buf).front totalSize hle := by
  simp only [value, JyTcpBuf.front, h]

/-! ### Only its own blocks matter to a buffer -/

/-- A buffer shows what its block does, -/
theorem BlockPool.value_congr (h : pool'.heap buf.guard_ = pool.heap buf.guard_) :
    pool'.value buf = pool.value buf := by
  rw [value, value, h]

/-- a listener what its buffer does, -/
theorem BlockPool.listeners_congr (h : SameAt pool.heap pool'.heap (guards l)) :
    pool'.listeners l = pool.listeners l := by
  refine List.map_congr_left fun e he => ?_
  obtain ⟨sock, _ | buf⟩ := e
  · rfl
  · have hmem : buf.guard_ ∈ guards l := List.mem_filterMap.mpr ⟨_, he, rfl⟩
    rw [Option.map_some, Option.map_some, value_congr (h _ hmem)]

/-- a packet what its buffer does, -/
theorem BlockPool.messages_congr {list_ : PacketMsgs (TcpBuf U)}
    (h : SameAt pool.heap pool'.heap (queued list_)) : pool'.messages list_ = pool.messages list_ := by
  refine List.map_congr_left fun m hm => ?_
  cases m with
  | SOCK_READ sock buf =>
    have hmem : buf.guard_ ∈ queued list_ := List.mem_filterMap.mpr ⟨_, hm, rfl⟩
    rw [PacketMsg.map, PacketMsg.map, value_congr (h _ hmem)]
  | SOCK_DISCONNECT sock => rfl

/-- an `onRead` under way what its blocks do, -/
theorem Phase.Shows.congr {phase : Phase U} (hshows : phase.Shows pool recvBuf_)
    (h : SameAt pool.heap pool'.heap phase.blocks) : phase.Shows pool' recvBuf_ := by
  cases phase with
  | receiving buf =>
    rw [Phase.Shows, BlockPool.value_congr (h _ (Multiset.mem_singleton_self _))]
    exact hshows
  | received buf data found =>
    rw [Phase.Shows, BlockPool.value_congr (h _ (Multiset.mem_singleton_self _))]
    exact hshows
  | copying buf data totalSize nextBuf =>
    rw [Phase.Shows, BlockPool.value_congr (h _ (Multiset.mem_add.mpr (.inr (Multiset.mem_singleton_self _))))]
    exact hshows

/-- and so the whole of the selector's side. -/
theorem Socks.Shows.congr {socks : Socks U} {socks_ : Listeners (JyTcpBuf U)}
    (hshows : socks.Shows pool socks_) (h : SameAt pool.heap pool'.heap socks.blocks) :
    socks.Shows pool' socks_ := by
  cases socks with
  | free l => exact hshows.trans (BlockPool.listeners_congr h).symm
  | locked before sock phase after =>
    obtain ⟨recvBuf_, hsocks, hphase⟩ := hshows
    refine ⟨recvBuf_, ?_, hphase.congr (h.mono ?_)⟩
    · rw [BlockPool.listeners_congr (h.mono (Multiset.le_add_right _ _)),
        BlockPool.listeners_congr (h.mono ((Multiset.le_add_left _ _).trans (Multiset.le_add_left _ _)))]
      exact hsocks
    · exact (Multiset.le_add_right _ _).trans (Multiset.le_add_left _ _)

/-- The message that is taken is that of its block. -/
theorem Work.pending_congr {work : Work U} (h : SameAt pool.heap pool'.heap work.blocks) :
    work.pending pool' = work.pending pool := by
  cases work with
  | idle => rfl
  | taken sock l buf => rw [pending, pending, BlockPool.value_congr (h _ (Multiset.mem_singleton_self _))]
  | deciphering sock l buf dsOut =>
    rw [pending, pending, BlockPool.value_congr (h _ (Multiset.mem_add.mpr (.inr (Multiset.mem_singleton_self _))))]
  | handling r base => rfl

/-- What a handler has is left as it is with its block. -/
theorem Work.Holds.congr {work : Work U} (hholds : work.Holds pool)
    (h : SameAt pool.heap pool'.heap work.blocks) : work.Holds pool' := by
  cases work with
  | handling r base =>
    rw [Holds, h _ (Multiset.mem_singleton_self _)]
    exact hholds
  | idle => trivial
  | taken => trivial
  | deciphering => trivial

/-! ### What is received -/

/-- **What the selector received is what one `onRead` of values receives**, whichever block the rest goes to.
-/
theorem Received.onRead {data : Bytes} {found : Split} (h : Received recvBuf_ v data found) (restBlock : Block U) :
    ∃ recvBlock, EuhatExpert.onRead recvBuf_ ⟨data, recvBlock, restBlock⟩ = onSplit v restBlock found := by
  obtain ⟨block, ⟨rfl, rfl⟩ | ⟨hroom, hne, rfl, hfound⟩⟩ := h
  · exact ⟨block, by rw [EuhatExpert.onRead]; simp [onSplit]⟩
  · refine ⟨block, ?_⟩
    have hall : data.take (recvBuf_.getD (.ofBlock block)).roomLeft = data := List.take_of_length_le hroom
    simp only [EuhatExpert.onRead, hall, if_neg hne, afterRecv_eq, hfound]
    rfl

end Lemmas

/-! ## Steps -/

namespace PoolEndpoint

variable {P : JyBufPool} {s s' : PoolEndpoint P.unitSize_} {a : ValueEndpoint P.unitSize_}
  {pool : BlockPool P.unitSize_} {e : Option PoolEvent}

/-- The listeners' blocks are lent, -/
theorem socks_le (s : PoolEndpoint U) : s.socks_.blocks ≤ s.lent := Multiset.le_add_right _ _

/-- those of the packets that wait, -/
theorem queued_le (s : PoolEndpoint U) : (queued s.list_ : Multiset ℕ) ≤ s.lent :=
  (Multiset.le_add_right _ _).trans (Multiset.le_add_left _ _)

/-- and those of the packet in work. -/
theorem work_le (s : PoolEndpoint U) : s.work.blocks ≤ s.lent :=
  (Multiset.le_add_right _ _).trans ((Multiset.le_add_left _ _).trans (Multiset.le_add_left _ _))

/-- What the pool does with other blocks is not seen. -/
theorem Shows.congr (h : s.Shows a) (hsame : SameAt s.pool.heap pool.heap s.lent) :
    Shows { s with pool := pool } a where
  socks := h.socks.congr (hsame.mono s.socks_le)
  list_ := by
    rw [Work.pending_congr (hsame.mono s.work_le), BlockPool.messages_congr (hsame.mono s.queued_le)]
    exact h.list_
  running := h.running
  holds := h.holds.congr (hsame.mono s.work_le)

/-- Every block has one owner, and what the endpoint shows is `a`. -/
structure Matches (s : PoolEndpoint P.unitSize_) (a : ValueEndpoint P.unitSize_) : Prop where
  lends : s.pool.Lends s.lent
  shows_ : s.Shows a

/-- A step that can be seen is one of the endpoint with values, another one is none. -/
def Follows (a : ValueEndpoint P.unitSize_) : Option PoolEvent → ValueEndpoint P.unitSize_ → Prop
  | none, a' => a' = a
  | some e, a' => ValueEndpoint.Step a e a'

/-- A listener among the others. -/
theorem guards_listener (before after : Listeners (TcpBuf U)) (sock : ℕ) (recvBuf_ : Option (TcpBuf U)) :
    (guards (before ++ (sock, recvBuf_) :: after) : Multiset ℕ) =
      guards before + (guards [(sock, recvBuf_)] + guards after) := by
  rw [guards_append, ← Multiset.coe_add, ← List.singleton_append, guards_append, ← Multiset.coe_add]

/-- The blocks besides those of one listener. -/
def besides (before after : Listeners (TcpBuf U)) (list_ : PacketMsgs (TcpBuf U)) (work : Work U)
    (leaving : List ℕ) : Multiset ℕ :=
  guards before + guards after + (queued list_ + (work.blocks + leaving))

/-- While a listener reads, its blocks are those of its `onRead`. -/
theorem lent_locked (pool : BlockPool U) (before : Listeners (TcpBuf U)) (sock : ℕ) (phase : Phase U)
    (after : Listeners (TcpBuf U)) (list_ : PacketMsgs (TcpBuf U)) (work : Work U) (leaving : List ℕ)
    (running : Bool) : lent ⟨pool, .locked before sock phase after, list_, work, leaving, running⟩ =
      phase.blocks + besides before after list_ work leaving := by
  simp only [lent, Socks.blocks, besides]
  ac_rfl

/-- Between two reads they are its own. -/
theorem lent_free (pool : BlockPool U) (before : Listeners (TcpBuf U)) (sock : ℕ)
    (recvBuf_ : Option (TcpBuf U)) (after : Listeners (TcpBuf U)) (list_ : PacketMsgs (TcpBuf U))
    (work : Work U) (leaving : List ℕ) (running : Bool) :
    lent ⟨pool, .free (before ++ (sock, recvBuf_) :: after), list_, work, leaving, running⟩ =
      guards [(sock, recvBuf_)] + besides before after list_ work leaving := by
  simp only [lent, Socks.blocks, besides, guards_listener]
  ac_rfl

/-- A packet that is queued brings its block with it. -/
theorem besides_push (before after : Listeners (TcpBuf U)) (list_ : PacketMsgs (TcpBuf U))
    (m : PacketMsg (TcpBuf U)) (work : Work U) (leaving : List ℕ) :
    besides before after (list_ ++ [m]) work leaving = queued [m] + besides before after list_ work leaving := by
  rw [besides, besides, queued_append, ← Multiset.coe_add]
  ac_rfl

/-- What is done besides a listener is not seen at the others. -/
theorem besides_congr {pool pool' : BlockPool U} {before after : Listeners (TcpBuf U)}
    {list_ : PacketMsgs (TcpBuf U)} {work : Work U} {leaving : List ℕ}
    (h : SameAt pool.heap pool'.heap (besides before after list_ work leaving)) :
    pool'.listeners before = pool.listeners before ∧ pool'.listeners after = pool.listeners after ∧
      pool'.messages list_ = pool.messages list_ ∧ SameAt pool.heap pool'.heap work.blocks := by
  refine ⟨BlockPool.listeners_congr (h.mono ?_), BlockPool.listeners_congr (h.mono ?_),
    BlockPool.messages_congr (h.mono ?_), h.mono ?_⟩
  · exact (Multiset.le_add_right _ _).trans (Multiset.le_add_right _ _)
  · exact (Multiset.le_add_left _ _).trans (Multiset.le_add_right _ _)
  · exact (Multiset.le_add_right _ _).trans (Multiset.le_add_left _ _)
  · exact (Multiset.le_add_right _ _).trans ((Multiset.le_add_left _ _).trans (Multiset.le_add_left _ _))

/-- A read that has come to its end is one of values. -/
theorem recv_step {before after : Listeners (JyTcpBuf P.unitSize_)} {sock : ℕ}
    {recvBuf_ recvBuf' : Option (JyTcpBuf P.unitSize_)} {data : Bytes} {recvBlock restBlock : Block P.unitSize_}
    {msg : Option (SockMsg P.unitSize_)} {ret : ℤ} (hs : a.socks_ = before ++ (sock, recvBuf_) :: after)
    (hread : onRead recvBuf_ ⟨data, recvBlock, restBlock⟩ = .ok ⟨recvBuf', msg, ret⟩) :
    ValueEndpoint.Step a (.recv sock data)
      ⟨before ++ (sock, recvBuf') :: after, a.list_ ++ (msg.map (PacketMsg.ofSock sock)).toList, a.running⟩ :=
  .recv hs hread

/-- **One step of `onRead`.** -/
theorem Matches.reads (h : s.Matches a) (hstep : Reads s e s') : ∃ a', s'.Matches a' ∧ Follows a e a' := by
  obtain ⟨hlends, hshows⟩ := h
  obtain ⟨pool, socks_, list_, work, leaving, running⟩ := s
  cases hstep with
  | @enter before after sock buf hsocks =>
    cases hsocks
    obtain ⟨hs, hlist, hrunning, hholds⟩ := hshows
    refine ⟨a, ⟨?_, ⟨?_, hlist, hrunning, hholds⟩⟩, rfl⟩
    · rw [lent_free] at hlends
      rw [lent_locked]
      exact hlends
    · exact ⟨some (pool.value buf), by simpa [Socks.Shows] using hs, (pool.value buf).guard_, rfl⟩
  | @enterNew before after sock p q junk pool' hsocks hp hget =>
    cases hsocks
    obtain ⟨hlent, hsame⟩ := hlends.get hp hget
    obtain ⟨hs, hlist, hrunning, hholds⟩ := hshows.congr hsame
    refine ⟨a, ⟨?_, ⟨?_, hlist, hrunning, hholds⟩⟩, rfl⟩
    · rw [lent_free] at hlent
      rw [lent_locked]
      exact hlent.of_eq (by simp [Phase.blocks, TcpBuf.ofBlock])
    · exact ⟨none, by simpa [Socks.Shows] using hs, (pool'.value (.ofBlock _ q)).guard_, rfl⟩
  | @recvNone before after sock buf hsocks =>
    cases hsocks
    obtain ⟨⟨recvBuf_, hs, block, hblock⟩, hlist, hrunning, hholds⟩ := hshows
    refine ⟨a, ⟨?_, ⟨⟨recvBuf_, hs, block, .inl ⟨rfl, rfl⟩⟩, hlist, hrunning, hholds⟩⟩, rfl⟩
    rw [lent_locked] at hlends ⊢
    exact hlends
  | @recv before after sock buf v data found hsocks hload hdata hroom hfound =>
    cases hsocks
    obtain ⟨⟨recvBuf_, hs, block, hblock⟩, hlist, hrunning, hholds⟩ := hshows
    rw [lent_locked, Phase.blocks, Multiset.singleton_add] at hlends
    obtain ⟨hlent, hsame⟩ := hlends.write (v.recv data hroom).guard_
    obtain ⟨hbefore, hafter, hmessages, hwork⟩ := besides_congr hsame
    refine ⟨a, ⟨?_, ⟨⟨recvBuf_, ?_, ?_⟩, ?_, hrunning, hholds.congr hwork⟩⟩, rfl⟩
    · rw [lent_locked, Phase.blocks, Multiset.singleton_add]
      exact hlent
    · rw [hbefore, hafter]
      exact hs
    · rw [BlockPool.value_of_load hload] at hblock
      subst hblock
      refine ⟨block, .inr ⟨hroom, hdata, ?_, ?_⟩⟩
      · exact BlockPool.value_write _
      · exact (congrArg split (BlockPool.value_write _)).trans hfound
    · rw [hmessages, Work.pending_congr hwork]
      exact hlist
  | @wait before after sock buf data hsocks =>
    cases hsocks
    obtain ⟨⟨recvBuf_, hs, hreceived⟩, hlist, hrunning, hholds⟩ := hshows
    obtain ⟨recvBlock, hread⟩ := hreceived.onRead (pool.value buf).guard_
    refine ⟨_, ?_, recv_step hs hread⟩
    refine ⟨?_, ⟨?_, ?_, hrunning, hholds⟩⟩
    · rw [lent_locked] at hlends
      rw [lent_free]
      exact hlends
    · simp [Socks.Shows]
    · exact (List.append_nil _).trans hlist
  | @whole before after sock buf data hsocks =>
    cases hsocks
    obtain ⟨⟨recvBuf_, hs, hreceived⟩, hlist, hrunning, hholds⟩ := hshows
    obtain ⟨recvBlock, hread⟩ := hreceived.onRead (pool.value buf).guard_
    refine ⟨_, ?_, recv_step hs hread⟩
    refine ⟨?_, ⟨?_, ?_, hrunning, hholds⟩⟩
    · rw [lent_locked] at hlends
      rw [lent_free, besides_push]
      exact hlends.of_eq (by simp [Phase.blocks])
    · simp [Socks.Shows]
    · rw [BlockPool.messages_append, ← List.append_assoc]
      exact congrArg (· ++ [_]) hlist
  | @refuse before after sock buf data pool' hsocks hret =>
    cases hsocks
    rw [lent_locked, Phase.blocks, Multiset.singleton_add] at hlends
    obtain ⟨pool'', hret', hlent, hsame⟩ := hlends.ret
    obtain rfl := Except.ok.inj (hret.symm.trans hret')
    obtain ⟨hbefore, hafter, hmessages, hwork⟩ := besides_congr hsame
    obtain ⟨⟨recvBuf_, hs, hreceived⟩, hlist, hrunning, hholds⟩ := hshows
    obtain ⟨recvBlock, hread⟩ := hreceived.onRead (pool.value buf).guard_
    refine ⟨_, ?_, recv_step hs hread⟩
    refine ⟨?_, ⟨?_, ?_, hrunning, hholds.congr hwork⟩⟩
    · rw [lent_free, besides_push]
      exact hlent.of_eq (by simp)
    · simp [Socks.Shows, hbefore, hafter]
    · rw [BlockPool.messages_append, hmessages, Work.pending_congr hwork, ← List.append_assoc]
      exact congrArg (· ++ [_]) hlist
  | @next before after sock p q buf data totalSize junk pool' hsocks hp hget =>
    cases hsocks
    obtain ⟨hlent, hsame⟩ := hlends.get hp hget
    obtain ⟨⟨recvBuf_, hs, hreceived⟩, hlist, hrunning, hholds⟩ := hshows.congr hsame
    refine ⟨a, ⟨?_, ⟨⟨recvBuf_, hs, hreceived⟩, hlist, hrunning, hholds⟩⟩, rfl⟩
    rw [lent_locked] at hlent ⊢
    exact hlent.of_eq (by simp [Phase.blocks])
  | @copy before after sock buf data totalSize nextBuf v block hsocks hload hblock hle =>
    cases hsocks
    rw [lent_locked, Phase.blocks, add_assoc, Multiset.singleton_add] at hlends
    obtain ⟨hlent, hsame⟩ := hlends.write (v.next block totalSize).guard_
    obtain ⟨hbefore, hafter, hmessages, hwork⟩ := besides_congr (hsame.mono (Multiset.le_add_left _ _))
    have hguard := hsame buf.guard_ (Multiset.mem_add.mpr (.inl (Multiset.mem_singleton_self _)))
    obtain ⟨⟨recvBuf_, hs, hreceived⟩, hlist, hrunning, hholds⟩ := hshows
    obtain ⟨recvBlock, hread⟩ := hreceived.onRead block
    obtain rfl := BlockPool.value_of_load hload
    rw [onSplit, dif_pos (show totalSize ≤ (pool.value buf).recvLen_ from hle)] at hread
    refine ⟨_, ?_, recv_step hs hread⟩
    refine ⟨?_, ⟨?_, ?_, hrunning, hholds.congr hwork⟩⟩
    · rw [lent_free, besides_push]
      exact hlent.of_eq (by simp only [guards_some, guards_nil, queued_read, queued_nil, Multiset.coe_singleton,
        Multiset.singleton_add])
    · simp only [Socks.Shows, BlockPool.listeners_append, BlockPool.listeners_cons, hbefore, hafter,
        Option.map_some, BlockPool.value_write]
      rfl
    · rw [BlockPool.messages_append, hmessages, Work.pending_congr hwork, ← List.append_assoc]
      exact congrArg₂ (· ++ ·) hlist (congrArg (fun v => [PacketMsg.SOCK_READ sock v])
        (BlockPool.value_front hguard hle).symm)

theorem mem_of_get {k : ℕ} {ds ds' : JyDataReadStream} {n : ℤ}
    (h : (JyDataReadStream.get k).run ds = .ok (n, ds')) : ds'.mem = ds.mem := by
  obtain ⟨⟨bs, ds₁⟩, htake, hpure⟩ := JyTcpEndpoint.exists_of_bind_eq_ok h
  rw [JyDataReadStream.take] at htake
  split_ifs at htake
  cases htake
  cases hpure
  rfl

/-- In clear, the stream is on the bytes of its packet. -/
theorem mem_of_clear {l : JyTcpListener} {v : JyTcpBuf P.unitSize_} {block : Block P.unitSize_}
    {r : JyTcpEndpoint.SockRead} (hdec : l.dec_ = .clear)
    (h : JyTcpEndpoint.onSockRead .rsa l v block = .ok (some r)) : r.ds.mem = v.guard_.val := by
  rw [JyTcpEndpoint.onSockRead, if_pos hdec] at h
  obtain ⟨⟨packetType, ds⟩, hread, hpure⟩ := JyTcpEndpoint.exists_of_bind_eq_ok h
  obtain ⟨⟨n, ds₁⟩, hfirst, hsecond⟩ := JyTcpEndpoint.exists_of_bind_eq_ok hread
  cases hpure
  exact (mem_of_get hsecond).trans (mem_of_get hfirst)

theorem lent_deciphering (pool : BlockPool U) (socks_ : Socks U) (list_ : PacketMsgs (TcpBuf U)) (sock : ℕ)
    (l : JyTcpListener) (buf : TcpBuf U) (dsOut : ℕ) (leaving : List ℕ) (running : Bool) :
    lent ⟨pool, socks_, list_, .deciphering sock l buf dsOut, leaving, running⟩ =
      dsOut ::ₘ (socks_.blocks + (queued list_ + (buf.guard_ ::ₘ leaving))) := by
  simp only [lent, Work.blocks, ← Multiset.singleton_add]
  ac_rfl

/-- **One step of `onSockRead`.** -/
theorem Matches.handles (h : s.Matches a) (hstep : Handles s e s') : ∃ a', s'.Matches a' ∧ Follows a e a' := by
  obtain ⟨hlends, hshows⟩ := h
  obtain ⟨pool, socks_, list_, work, leaving, running⟩ := s
  cases hstep with
  | @take sock buf rest l hidle hleaving hlist hrunning =>
    cases hidle
    cases hleaving
    cases hlist
    obtain ⟨hs, hlist, hrun, hholds⟩ := hshows
    refine ⟨a, ⟨hlends.of_eq ?_, ⟨hs, hlist, hrun, trivial⟩⟩, rfl⟩
    simp only [lent, queued_read, Work.blocks, ← Multiset.cons_coe, ← Multiset.singleton_add, Multiset.coe_nil]
    ac_rfl
  | @refused sock buf rest hidle hleaving hlist hrunning =>
    cases hidle
    cases hleaving
    cases hlist
    obtain ⟨hs, hlist, hrun, hholds⟩ := hshows
    refine ⟨_, ?_, .refused hlist (hrun.trans hrunning)⟩
    refine ⟨hlends.of_eq ?_, ⟨hs, rfl, hrun, trivial⟩⟩
    simp only [lent, queued_read, Work.blocks, ← Multiset.cons_coe, ← Multiset.singleton_add, Multiset.coe_nil]
    ac_rfl
  | @clear sock l buf v block r hwork hdec hload hread =>
    cases hwork
    obtain ⟨hs, hlist, hrun, -⟩ := hshows
    obtain ⟨block', hblock', rfl⟩ := Option.map_eq_some_iff.mp hload
    rw [← BlockPool.value_of_load hload] at hread
    refine ⟨_, ?_, .read hlist hread⟩
    refine ⟨hlends, ⟨hs, rfl, hrun, ?_⟩⟩
    rw [BlockPool.value_of_load hload] at hread
    exact (congrArg (Option.map Subtype.val) hblock').trans (congrArg some (mem_of_clear hdec hread).symm)
  | @borrow sock p q l buf junk pool' hwork hdec hp hget =>
    cases hwork
    obtain ⟨hlent, hsame⟩ := hlends.get hp hget
    obtain ⟨hs, hlist, hrun, -⟩ := hshows.congr hsame
    refine ⟨a, ⟨hlent.of_eq ?_, ⟨hs, hlist, hrun, trivial⟩⟩, rfl⟩
    simp only [lent, Work.blocks, ← Multiset.singleton_add]
    ac_rfl
  | @decipher sock l buf dsOut v block r hwork hdec hload hblock hread =>
    cases hwork
    obtain ⟨hs, hlist, hrun, -⟩ := hshows
    rw [lent_deciphering] at hlends
    obtain ⟨hlent, hsame⟩ := hlends.write ⟨r.ds.mem, length_of_onSockRead hdec hread⟩
    rw [← BlockPool.value_of_load hload] at hread
    refine ⟨_, ?_, .read hlist hread⟩
    refine ⟨hlent.of_eq ?_, ⟨hs.congr (hsame.mono (Multiset.le_add_right _ _)), ?_, hrun, ?_⟩⟩
    · simp only [lent, Work.blocks, ← Multiset.cons_coe, ← Multiset.singleton_add]
      ac_rfl
    · exact (BlockPool.messages_congr
        (hsame.mono ((Multiset.le_add_right _ _).trans (Multiset.le_add_left _ _)))).symm
    · simp [Work.Holds, BlockPool.write]
  | @undecrypted sock l buf dsOut v block scrap hwork hload hblock hread =>
    cases hwork
    obtain ⟨hs, hlist, hrun, -⟩ := hshows
    rw [lent_deciphering] at hlends
    obtain ⟨hlent, hsame⟩ := hlends.write scrap
    rw [← BlockPool.value_of_load hload] at hread
    refine ⟨_, ?_, .undecrypted hlist hread⟩
    refine ⟨hlent.of_eq ?_, ⟨hs.congr (hsame.mono (Multiset.le_add_right _ _)), ?_, hrun, trivial⟩⟩
    · simp only [lent, Work.blocks, queued_append, queued_disconnect, queued_nil, List.append_nil,
        ← Multiset.cons_coe, ← Multiset.singleton_add]
      ac_rfl
    · have hmessages := BlockPool.messages_congr
        (hsame.mono ((Multiset.le_add_right _ _).trans (Multiset.le_add_left _ _)))
      rw [BlockPool.messages_append, hmessages]
      rfl
  | @done r base hwork hleaving =>
    cases hwork
    cases hleaving
    obtain ⟨hs, hlist, hrun, hholds⟩ := hshows
    refine ⟨a, ⟨hlends.of_eq ?_, ⟨hs, hlist, hrun, trivial⟩⟩, rfl⟩
    simp only [lent, Work.blocks, Multiset.coe_nil, Multiset.coe_singleton]
    ac_rfl
  | @ret p rest pool' hleaving hret =>
    cases hleaving
    have heq : lent ⟨pool, socks_, list_, work, p :: rest, running⟩ =
        p ::ₘ lent ⟨pool, socks_, list_, work, rest, running⟩ := by
      simp only [lent, ← Multiset.cons_coe, ← Multiset.singleton_add]
      ac_rfl
    rw [heq] at hlends
    obtain ⟨pool'', hret', hlent, hsame⟩ := hlends.ret
    obtain rfl := Except.ok.inj (hret.symm.trans hret')
    obtain ⟨hs, hlist, hrun, hholds⟩ := hshows
    have hshows : Shows ⟨pool, socks_, list_, work, rest, running⟩ a := ⟨hs, hlist, hrun, hholds⟩
    exact ⟨a, ⟨hlent, hshows.congr hsame⟩, rfl⟩

/-- **One step at the sockets.** -/
theorem Matches.manages (h : s.Matches a) (hstep : Manages s e s') : ∃ a', s'.Matches a' ∧ Follows a e a' := by
  obtain ⟨hlends, hshows⟩ := h
  obtain ⟨pool, socks_, list_, work, leaving, running⟩ := s
  cases hstep with
  | @add l sock hidle hsocks hnew hrunning =>
    cases hsocks
    obtain ⟨hs, hlist, hrun, hholds⟩ := hshows
    have hkeys := (congrArg (List.map Prod.fst) hs).trans (BlockPool.keys_listeners pool l)
    refine ⟨_, ?_, .add (hkeys ▸ hnew) (hrun.trans hrunning)⟩
    refine ⟨hlends.of_eq ?_, ⟨?_, hlist, hrun, hholds⟩⟩
    · simp [lent, Socks.blocks]
    · simp only [Socks.Shows] at hs
      simp [Socks.Shows, hs, BlockPool.listeners]
  | @replace before after sock recvBuf_ hidle hleaving hsocks =>
    cases hidle
    cases hleaving
    cases hsocks
    obtain ⟨hs, hlist, hrun, hholds⟩ := hshows
    simp only [Socks.Shows, BlockPool.listeners_append, BlockPool.listeners_cons] at hs
    refine ⟨_, ?_, .replace hs⟩
    refine ⟨hlends.of_eq ?_, ⟨?_, hlist, hrun, hholds⟩⟩
    · rw [lent_free, lent_free]
      simp only [besides, guards_none, guards_nil, Multiset.coe_nil]
      ac_rfl
    · simp [Socks.Shows]
  | @del before after sock recvBuf_ rest hidle hleaving hlist hsocks =>
    cases hidle
    cases hleaving
    cases hsocks
    cases hlist
    obtain ⟨hs, hlist, hrun, hholds⟩ := hshows
    simp only [Socks.Shows, BlockPool.listeners_append, BlockPool.listeners_cons] at hs
    refine ⟨_, ?_, .del hlist hs⟩
    refine ⟨hlends.of_eq ?_, ⟨?_, rfl, hrun, hholds⟩⟩
    · rw [lent_free]
      simp only [lent, Socks.blocks, Work.blocks, besides, queued_disconnect, guards_append, ← Multiset.coe_add,
        Multiset.coe_nil, zero_add, add_zero]
      ac_rfl
    · simp [Socks.Shows]
  | @gone l sock rest hidle hleaving hlist hsocks hnone =>
    cases hidle
    cases hleaving
    cases hsocks
    cases hlist
    obtain ⟨hs, hlist, hrun, hholds⟩ := hshows
    have hkeys := (congrArg (List.map Prod.fst) hs).trans (BlockPool.keys_listeners pool l)
    refine ⟨_, ?_, .gone hlist (hkeys ▸ hnone)⟩
    exact ⟨hlends, ⟨hs, rfl, hrun, hholds⟩⟩
  | @fini l hidle hleaving hsocks hrunning =>
    cases hidle
    cases hleaving
    cases hsocks
    obtain ⟨hs, hlist, hrun, hholds⟩ := hshows
    refine ⟨_, ?_, .fini (hrun.trans hrunning)⟩
    refine ⟨hlends.of_eq ?_, ⟨rfl, hlist, rfl, hholds⟩⟩
    simp only [lent, Socks.blocks, Work.blocks, Multiset.coe_nil, guards_nil]
    ac_rfl

/-- **One step.** -/
theorem Matches.step (h : s.Matches a) (hstep : Step s e s') : ∃ a', s'.Matches a' ∧ Follows a e a' := by
  cases hstep with
  | reads hreads => exact h.reads hreads
  | handles hhandles => exact h.handles hhandles
  | manages hmanages => exact h.manages hmanages

/-- At the start nothing is lent and nothing is shown. -/
theorem matches_start (maxReserved_ : ℕ) : (start maxReserved_ : PoolEndpoint P.unitSize_).Matches .start where
  lends := BlockPool.lends_new _ _
  shows_ := ⟨rfl, rfl, rfl, trivial⟩

variable {maxReserved_ : ℕ} {es : List (Option PoolEvent)}

theorem matches_of_run (h : Run Step (start maxReserved_ : PoolEndpoint P.unitSize_) es s) :
    ∃ a, Run ValueEndpoint.Step .start (es.filterMap id) a ∧ s.Matches a :=
  h.invariant_hist
    (I := fun es s => ∃ a, Run ValueEndpoint.Step .start (es.filterMap id) a ∧ s.Matches a)
    ⟨.start, .nil, matches_start maxReserved_⟩ fun es s e s' ⟨a, hrun, hmatches⟩ hstep => by
      obtain ⟨a', hmatches', hfollows⟩ := hmatches.step hstep
      rw [List.filterMap_append]
      cases e with
      | none =>
        obtain rfl : a' = a := hfollows
        exact ⟨a', by simpa using hrun, hmatches'⟩
      | some e => exact ⟨a', by simpa using hrun.snoc hfollows, hmatches'⟩

/-- **What the endpoint does with its blocks, it does with values**: in every interleaving of the selector's
thread and the endpoint's, each block has one owner at any time, and what can be seen is a run of the endpoint
whose buffers are values, which ends in what the blocks show. -/
theorem values_of_run (h : Run Step (start maxReserved_ : PoolEndpoint P.unitSize_) es s) :
    ∃ a, Run ValueEndpoint.Step .start (es.filterMap id) a ∧ s.Shows a ∧ s.pool.Lends s.lent := by
  obtain ⟨a, hrun, hmatches⟩ := matches_of_run h
  exact ⟨a, hrun, hmatches.shows_, hmatches.lends⟩

/-- An endpoint with blocks of forty bytes, whose selector is about to receive from the socket 5. -/
def atRecv : PoolEndpoint fortyBytes.unitSize_ where
  pool := ⟨Function.update (fun _ => none) 0 (some ⟨List.replicate 40 0, rfl⟩), [], 10⟩
  socks_ := .locked [] 5 (.receiving (.ofBlock _ 0)) []
  list_ := []
  work := .idle
  leaving := []
  running := true

theorem run_atRecv : Run Step (start 10) [some (.add 5), none] atRecv := by
  have hadd : Step (start 10 : PoolEndpoint fortyBytes.unitSize_) (some (.add 5))
      { (start 10 : PoolEndpoint fortyBytes.unitSize_) with socks_ := .free ([] ++ [(5, none)]) } :=
    .manages (.add rfl rfl (by decide) rfl)
  have hget : (BlockPool.new 40 10).get 0 ⟨List.replicate 40 0, rfl⟩ = (0, atRecv.pool) := rfl
  exact (Run.single hadd).snoc (.reads (.enterNew rfl rfl hget))

/-- A packet of eight bytes, in the block it was received in. -/
def eightBytes : JyTcpBuf fortyBytes.unitSize_ where
  guard_ := ⟨putInt 4 8 ++ putInt 4 100 ++ List.replicate 32 0, by decide⟩
  recvLen_ := 8
  recvLen_le := by decide

/-- The endpoint when it was received, and when a handler has it. -/
def atHeader : PoolEndpoint fortyBytes.unitSize_ :=
  { atRecv with
    pool := atRecv.pool.write 0 eightBytes.guard_
    socks_ := .locked [] 5 (.received ⟨0, 8, by decide⟩ (putInt 4 8 ++ putInt 4 100) .whole) [] }

def atHandler : PoolEndpoint fortyBytes.unitSize_ :=
  { atHeader with
    socks_ := .free [(5, none)]
    work := .handling ⟨100, ⟨eightBytes.guard_.val, 8, 8⟩⟩ 0 }

/-- What that run shows. -/
def eightBytesRead (l : JyTcpListener) : List (Option PoolEvent) :=
  [some (.add 5), none, none, some (.recv 5 (putInt 4 8 ++ putInt 4 100)), none,
    some (.read 5 l ⟨100, ⟨eightBytes.guard_.val, 8, 8⟩⟩)]

theorem run_atHandler (l : JyTcpListener) (hdec : l.dec_ = .clear) :
    Run Step (start 10) (eightBytesRead l) atHandler := by
  have hread : JyTcpEndpoint.onSockRead .rsa l eightBytes eightBytes.guard_ =
      .ok (some ⟨100, ⟨eightBytes.guard_.val, 8, 8⟩⟩) := by
    rw [JyTcpEndpoint.onSockRead, if_pos hdec]
    rfl
  have hrecv : Step atRecv none atHeader :=
    .reads (@Reads.recv fortyBytes atRecv [] [] 5 _ ⟨⟨List.replicate 40 0, rfl⟩, 0, by decide⟩
      (putInt 4 8 ++ putInt 4 100) .whole rfl rfl (by decide) (by decide) rfl)
  have hwhole : Step atHeader _ _ := .reads (.whole rfl)
  have htake := (run_atRecv.snoc hrecv |>.snoc hwhole).snoc (.handles (.take l rfl rfl rfl rfl))
  exact htake.snoc (.handles (@Handles.clear _ _ 5 l ⟨0, 8, by decide⟩ _ _ _ rfl hdec rfl hread))

/-- The listener of a socket before any exchange. -/
def clearListener : JyTcpListener := .new ⟨[], [], []⟩

theorem values_of_run_here : ∃ a, Run ValueEndpoint.Step .start ((eightBytesRead clearListener).filterMap id) a ∧
    atHandler.Shows a ∧ atHandler.pool.Lends atHandler.lent :=
  values_of_run (run_atHandler clearListener rfl)

/-! ## No block is used after it was deleted -/

/-- No step moves the bound of the pool. -/
theorem maxReserved_step (hstep : Step s e s') : s'.pool.maxReserved_ = s.pool.maxReserved_ := by
  cases hstep with
  | reads h =>
    cases h with
    | enterNew _ _ hget => exact BlockPool.maxReserved_get hget
    | refuse _ hret => exact BlockPool.maxReserved_ret hret
    | next _ _ hget => exact BlockPool.maxReserved_get hget
    | _ => rfl
  | handles h =>
    cases h with
    | borrow _ _ _ hget => exact BlockPool.maxReserved_get hget
    | ret _ hret => exact BlockPool.maxReserved_ret hret
    | _ => rfl
  | manages h => cases h <;> rfl

/-- **Every block there is is accounted for**: it is one of at most `maxReserved_` in the pool, or one of a
listener, of a packet that waits, or of what the endpoint's thread is at. -/
theorem ncard_of_run (h : Run Step (start maxReserved_ : PoolEndpoint P.unitSize_) es s) :
    {p | (s.pool.heap p).isSome}.ncard = s.pool.pool_.length + (s.socks_.blocks.card +
      ((queued s.list_).length + (s.work.blocks.card + s.leaving.length))) ∧
      s.pool.pool_.length ≤ maxReserved_ := by
  obtain ⟨a, -, hmatches⟩ := matches_of_run h
  have hmax : s.pool.maxReserved_ = maxReserved_ :=
    h.invariant (I := fun s => s.pool.maxReserved_ = maxReserved_) rfl
      fun s e s' hs hstep => (maxReserved_step hstep).trans hs
  refine ⟨?_, hmatches.lends.reserved.trans_eq hmax⟩
  rw [hmatches.lends.owns.ncard, lent]
  simp only [Multiset.card_add, Multiset.coe_card]

theorem ncard_of_run_here : {p | (atHandler.pool.heap p).isSome}.ncard = atHandler.pool.pool_.length +
    (atHandler.socks_.blocks.card + ((queued atHandler.list_).length +
      (atHandler.work.blocks.card + atHandler.leaving.length))) ∧ atHandler.pool.pool_.length ≤ 10 :=
  ncard_of_run (run_atHandler clearListener rfl)

end PoolEndpoint

end EuhatExpert
