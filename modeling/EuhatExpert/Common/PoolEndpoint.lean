import EuhatExpert.Common.JyBuf
import EuhatExpert.Common.JyTcpEndpoint
import EuhatExpert.Machinery.Run

/-!
# Common/PoolEndpoint — an endpoint with the addresses of its buffers

A received packet goes from the selector's thread to the endpoint's as a pointer to a block of the pool, and
the plaintext of it likewise to its handler; elsewhere such a buffer is just its bytes (`ValueEndpoint`).
`PoolEndpoint` has the addresses: each thread borrows blocks, writes to them, hands them over and returns
them, and the other one may come between any two uses of the pool.  A listener's `onRead` holds `mutexSocks_`,
so that `socks_` is locked meanwhile.
-/

namespace EuhatExpert

open Machinery

/-- `JyTcpBuf` as it is in memory: the address in `guard_`, and how much was received. -/
structure TcpBuf (U : ℕ) where
  guard_ : ℕ
  recvLen_ : ℕ
  recvLen_le : recvLen_ ≤ U

/-- The messages that are about a socket's packets. -/
inductive PacketMsg (β : Type)
  | SOCK_READ (sock : ℕ) (buf : β)
  | SOCK_DISCONNECT (sock : ℕ)

abbrev PacketMsgs (β : Type) := List (PacketMsg β)

/-- `socks_`, with the `recvBuf_` of each listener. -/
abbrev Listeners (β : Type) := List (ℕ × Option β)

def PacketMsg.map {β γ : Type} (f : β → γ) : PacketMsg β → PacketMsg γ
  | .SOCK_READ sock buf => .SOCK_READ sock (f buf)
  | .SOCK_DISCONNECT sock => .SOCK_DISCONNECT sock

/-- What `onRead` posts, for its socket. -/
def PacketMsg.ofSock {U : ℕ} (sock : ℕ) : SockMsg U → PacketMsg (JyTcpBuf U)
  | .read buf => .SOCK_READ sock buf
  | .disconnect => .SOCK_DISCONNECT sock

/-- What can be seen of an endpoint: what `recv` brings, what the handlers are given, and the sockets that are
registered and dropped. -/
inductive PoolEvent
  | recv (sock : ℕ) (data : Bytes)
  | read (sock : ℕ) (l : JyTcpListener) (r : JyTcpEndpoint.SockRead)
  | undecrypted (sock : ℕ)
  | refused (sock : ℕ)
  | add (sock : ℕ)
  | disconnected (sock : ℕ)
  | fini

/-! ## Buffers by value -/

/-- An endpoint whose buffers are values: `socks_` with each listener's `recvBuf_`, and the queue. -/
structure ValueEndpoint (U : ℕ) where
  socks_ : Listeners (JyTcpBuf U)
  list_ : PacketMsgs (JyTcpBuf U)
  running : Bool

namespace ValueEndpoint

variable {P : JyBufPool}

def start : ValueEndpoint P.unitSize_ := ⟨[], [], true⟩

inductive Step (a : ValueEndpoint P.unitSize_) : PoolEvent → ValueEndpoint P.unitSize_ → Prop
  | recv {before after : Listeners (JyTcpBuf P.unitSize_)} {sock : ℕ}
      {recvBuf_ : Option (JyTcpBuf P.unitSize_)} {r : Recv P.unitSize_} {out : OnRead P.unitSize_}
      (hsocks : a.socks_ = before ++ (sock, recvBuf_) :: after) (hread : onRead recvBuf_ r = .ok out) :
      Step a (.recv sock r.data) { a with
        socks_ := before ++ (sock, out.recvBuf_) :: after
        list_ := a.list_ ++ (out.msg.map (PacketMsg.ofSock sock)).toList }
  | read {sock : ℕ} {buf : JyTcpBuf P.unitSize_} {rest : PacketMsgs (JyTcpBuf P.unitSize_)}
      {l : JyTcpListener} {block : Block P.unitSize_} {r : JyTcpEndpoint.SockRead}
      (hlist : a.list_ = .SOCK_READ sock buf :: rest)
      (hread : JyTcpEndpoint.onSockRead .rsa l buf block = .ok (some r)) :
      Step a (.read sock l r) { a with list_ := rest }
  | undecrypted {sock : ℕ} {buf : JyTcpBuf P.unitSize_} {rest : PacketMsgs (JyTcpBuf P.unitSize_)}
      {l : JyTcpListener} {block : Block P.unitSize_} (hlist : a.list_ = .SOCK_READ sock buf :: rest)
      (hread : JyTcpEndpoint.onSockRead .rsa l buf block = .ok none) :
      Step a (.undecrypted sock) { a with list_ := rest ++ [.SOCK_DISCONNECT sock] }
  | refused {sock : ℕ} {buf : JyTcpBuf P.unitSize_} {rest : PacketMsgs (JyTcpBuf P.unitSize_)}
      (hlist : a.list_ = .SOCK_READ sock buf :: rest) (hrunning : a.running = false) :
      Step a (.refused sock) { a with list_ := rest }
  | add {sock : ℕ} (hnew : sock ∉ a.socks_.map Prod.fst) (hrunning : a.running = true) :
      Step a (.add sock) { a with socks_ := a.socks_ ++ [(sock, none)] }
  | replace {before after : Listeners (JyTcpBuf P.unitSize_)} {sock : ℕ}
      {recvBuf_ : Option (JyTcpBuf P.unitSize_)}
      (hsocks : a.socks_ = before ++ (sock, recvBuf_) :: after) :
      Step a (.add sock) { a with socks_ := before ++ (sock, none) :: after }
  | del {before after : Listeners (JyTcpBuf P.unitSize_)} {sock : ℕ}
      {recvBuf_ : Option (JyTcpBuf P.unitSize_)} {rest : PacketMsgs (JyTcpBuf P.unitSize_)}
      (hlist : a.list_ = .SOCK_DISCONNECT sock :: rest)
      (hsocks : a.socks_ = before ++ (sock, recvBuf_) :: after) :
      Step a (.disconnected sock) { a with socks_ := before ++ after, list_ := rest }
  | gone {sock : ℕ} {rest : PacketMsgs (JyTcpBuf P.unitSize_)}
      (hlist : a.list_ = .SOCK_DISCONNECT sock :: rest) (hnone : sock ∉ a.socks_.map Prod.fst) :
      Step a (.disconnected sock) { a with list_ := rest }
  | fini (hrunning : a.running = true) :
      Step a .fini { a with socks_ := [], running := false }

end ValueEndpoint

/-! ## `hasWholePacket`, before it gets another block -/

/-- What `hasWholePacket` finds. -/
inductive Split
  | refuse
  | wait
  | whole
  | front (totalSize : ℕ)
  deriving DecidableEq, Repr

variable {U : ℕ}

def split (buf : JyTcpBuf U) : Except Fault Split :=
  if buf.recvLen_ ≤ 6 then .ok .refuse
  else
    let totalSize := getInt (buf.guard_.val.take 4)
    if U ≤ totalSize then .ok .refuse
    else if buf.recvLen_ < totalSize then .ok .wait
    else if buf.recvLen_ = totalSize then .ok .whole
    else if totalSize < 0 then .error .outside
    else .ok (.front totalSize.toNat)

/-- What `onRead` makes of it, with the block for the rest. -/
def onSplit (buf : JyTcpBuf U) (block : Block U) : Split → Except Fault (OnRead U)
  | .refuse => .ok ⟨none, some .disconnect, 0⟩
  | .wait => .ok ⟨some buf, none, 1⟩
  | .whole => .ok ⟨none, some (.read buf), 1⟩
  | .front totalSize =>
    if h : totalSize ≤ buf.recvLen_ then
      .ok ⟨some (buf.next block totalSize), some (.read (buf.front totalSize h)), 1⟩
    else .error .outside

theorem afterRecv_eq (buf : JyTcpBuf U) (block : Block U) :
    afterRecv buf block = (split buf).bind (onSplit buf block) := by
  rw [afterRecv, hasWholePacket, split]
  dsimp only
  split_ifs
  all_goals first | rfl | simp_all [onSplit, Except.bind, bind, pure, Except.pure]

/-- Where an `onRead` is, at a listener of which it holds the iterator: before `recv`, after it with the bytes
it brought and what `hasWholePacket` found, and with the block for the rest. -/
inductive Phase (U : ℕ)
  | receiving (buf : TcpBuf U)
  | received (buf : TcpBuf U) (data : Bytes) (found : Split)
  | copying (buf : TcpBuf U) (data : Bytes) (totalSize nextBuf : ℕ)

/-- `socks_`, as `mutexSocks_` has it: nobody is at it, or an `onRead` is. -/
inductive Socks (U : ℕ)
  | free (l : Listeners (TcpBuf U))
  | locked (before : Listeners (TcpBuf U)) (sock : ℕ) (phase : Phase U)
      (after : Listeners (TcpBuf U))

/-- Where the endpoint's thread is in `onSockRead`: it has its message and the listener's ciphers, a block for
the plaintext as well, or a handler has the stream with the block it points to. -/
inductive Work (U : ℕ)
  | idle
  | taken (sock : ℕ) (l : JyTcpListener) (buf : TcpBuf U)
  | deciphering (sock : ℕ) (l : JyTcpListener) (buf : TcpBuf U) (dsOut : ℕ)
  | handling (r : JyTcpEndpoint.SockRead) (base : ℕ)

/-- The endpoint with its pool; `leaving` are the blocks of the objects its thread has still to destroy. -/
structure PoolEndpoint (U : ℕ) where
  pool : BlockPool U
  socks_ : Socks U
  list_ : PacketMsgs (TcpBuf U)
  work : Work U
  leaving : List ℕ
  running : Bool

/-- The bytes at the address of a buffer. -/
def BlockPool.load (pool : BlockPool U) (buf : TcpBuf U) : Option (JyTcpBuf U) :=
  (pool.heap buf.guard_).map (⟨·, buf.recvLen_, buf.recvLen_le⟩)

/-- `JyTcpBuf(pool)`. -/
def TcpBuf.ofBlock (U p : ℕ) : TcpBuf U := ⟨p, 0, Nat.zero_le U⟩

/-- The blocks of listeners that are destroyed. -/
def guards (l : Listeners (TcpBuf U)) : List ℕ := l.filterMap fun e => e.2.map TcpBuf.guard_

/-! ### Plaintexts in their blocks -/

theorem exists_emits_decrypt (l : JyTcpListener) (stale : ℕ → UInt8) (mem : Bytes) (len : ℤ) :
    ∃ bs r, JyDataWriteStream.Emits (l.decrypt .rsa stale mem len) bs r := by
  have htrue : ∀ {w : WriteM Unit} {buf : Bytes}, JyDataWriteStream.Emits w buf (.ok ()) →
      JyDataWriteStream.Emits (w >>= fun _ => pure true) (buf ++ []) (.ok true) := fun hw =>
    hw.bind (JyDataWriteStream.emits_pure true)
  rw [JyTcpListener.decrypt]
  cases l.dec_ with
  | asymmetric =>
    by_cases h4 : 4 ≤ mem.length
    · exact ⟨_, _, @JyDataDecryptAsymmetric.emits_decrypt l.decAsym_ _ h4 len⟩
    · refine ⟨[], .error .outside, ?_⟩
      change JyDataWriteStream.Emits (JyDataDecryptAsymmetric.decrypt l.decAsym_ mem len) _ _
      rw [JyDataDecryptAsymmetric.decrypt, if_pos (not_le.mp h4)]
      exact JyDataWriteStream.emits_throw _
  | clear =>
    by_cases hlen : len < 0
    · exact ⟨_, _, by simpa only [if_pos hlen] using JyDataWriteStream.emits_throw _⟩
    · exact ⟨_, _, by simpa only [if_neg hlen] using htrue (JyDataWriteStream.emits_putBufWithoutLen _)⟩
  | symmetric =>
    by_cases hlen : len < 0
    · exact ⟨_, _, by simpa only [if_pos hlen] using JyDataWriteStream.emits_throw _⟩
    · exact ⟨_, _, by simpa only [if_neg hlen] using htrue (emits_xorData_xorBytes _ _ _)⟩

/-- A stream that still has the block of its pool has room for a block. -/
theorem size_of_holder {α : Type} {P : JyBufPool} {w : WriteM α} {bs : Bytes} {r : Except Fault α}
    (h : JyDataWriteStream.Emits w bs r)
    (hholder : (JyDataWriteStream.after (w.run (.ofPool P))).holder = .pool) :
    (JyDataWriteStream.after (w.run (.ofPool P))).size_ = P.unitSize_ := by
  have hle : bs.length ≤ P.unitSize_ := (h.holder_ofPool P).mp hholder
  have hlt : (JyDataWriteStream.ofPool P).idx_ + bs.length < 2 ^ 31 :=
    (Nat.zero_add _).trans_lt (hle.trans_lt P.isInt)
  rw [h.after_run _ hlt, JyDataWriteStream.push_size]
  exact room_of_le ((Nat.zero_add _).trans_le hle)

/-- A plaintext that stayed in its block fills it, with what was left in it. -/
theorem length_of_onSockRead {P : JyBufPool} {l : JyTcpListener} {buf : JyTcpBuf P.unitSize_}
    {block : Block P.unitSize_} {r : JyTcpEndpoint.SockRead} (hdec : l.dec_ ≠ .clear)
    (h : JyTcpEndpoint.onSockRead .rsa l buf block = .ok (some r)) : r.ds.mem.length = P.unitSize_ := by
  obtain ⟨bs, res, hemits⟩ := exists_emits_decrypt l (fun i => block.val.getD i 0) (buf.guard_.val.drop 8)
    (buf.recvLen_ - 8)
  have hsize := size_of_holder (P := P) hemits
  rw [JyTcpEndpoint.onSockRead, if_neg hdec] at h
  split_ifs at h with hshort
  dsimp only at h
  split at h
  · cases h
  · next ok dsOut hrun =>
    rw [hrun] at hsize
    dsimp only [JyDataWriteStream.after] at hsize
    cases hholder : dsOut.holder with
    | heap => simp [hholder] at h
    | pool =>
      have hfits := dsOut.fits
      have hwritten : dsOut.written.length ≤ P.unitSize_ := hfits.trans (hsize hholder).le
      have hblock := block.property
      simp only [hholder, reduceCtorEq, if_false] at h
      split_ifs at h with hok
      · simp only [Except.ok.injEq, Option.some.injEq] at h
        subst h
        simp only [List.length_append, List.length_drop, JyDataWriteStream.idx_, hblock]
        omega
      · cases h

/-- A pool of blocks of forty bytes. -/
def fortyBytes : JyBufPool := ⟨40, by decide⟩

namespace PoolEndpoint

variable {P : JyBufPool}

def start (maxReserved_ : ℕ) : PoolEndpoint P.unitSize_ :=
  ⟨.new P.unitSize_ maxReserved_, .free [], [], .idle, [], true⟩

/-- `onRead`, with one use of the pool at a time; a step that can be seen tells what. -/
inductive Reads (s : PoolEndpoint P.unitSize_) : Option PoolEvent → PoolEndpoint P.unitSize_ → Prop
  | enter {before after : Listeners (TcpBuf P.unitSize_)} {sock : ℕ} {buf : TcpBuf P.unitSize_}
      (hsocks : s.socks_ = .free (before ++ (sock, some buf) :: after)) :
      Reads s none { s with socks_ := .locked before sock (.receiving buf) after }
  | enterNew {before after : Listeners (TcpBuf P.unitSize_)} {sock p q : ℕ} {junk : Block P.unitSize_}
      {pool : BlockPool P.unitSize_} (hsocks : s.socks_ = .free (before ++ (sock, none) :: after))
      (hp : s.pool.heap p = none) (hget : s.pool.get p junk = (q, pool)) :
      Reads s none { s with pool := pool, socks_ := .locked before sock (.receiving (.ofBlock _ q)) after }
  | recvNone {before after : Listeners (TcpBuf P.unitSize_)} {sock : ℕ} {buf : TcpBuf P.unitSize_}
      (hsocks : s.socks_ = .locked before sock (.receiving buf) after) :
      Reads s none { s with socks_ := .locked before sock (.received buf [] .refuse) after }
  | recv {before after : Listeners (TcpBuf P.unitSize_)} {sock : ℕ} {buf : TcpBuf P.unitSize_}
      {v : JyTcpBuf P.unitSize_} {data : Bytes} {found : Split}
      (hsocks : s.socks_ = .locked before sock (.receiving buf) after) (hload : s.pool.load buf = some v)
      (hdata : data ≠ []) (hroom : data.length ≤ v.roomLeft)
      (hfound : split (v.recv data hroom) = .ok found) :
      Reads s none { s with
        pool := s.pool.write buf.guard_ (v.recv data hroom).guard_
        socks_ := .locked before sock
          (.received ⟨buf.guard_, (v.recv data hroom).recvLen_, (v.recv data hroom).recvLen_le⟩ data found)
          after }
  | wait {before after : Listeners (TcpBuf P.unitSize_)} {sock : ℕ} {buf : TcpBuf P.unitSize_}
      {data : Bytes} (hsocks : s.socks_ = .locked before sock (.received buf data .wait) after) :
      Reads s (some (.recv sock data)) { s with socks_ := .free (before ++ (sock, some buf) :: after) }
  | whole {before after : Listeners (TcpBuf P.unitSize_)} {sock : ℕ} {buf : TcpBuf P.unitSize_}
      {data : Bytes} (hsocks : s.socks_ = .locked before sock (.received buf data .whole) after) :
      Reads s (some (.recv sock data)) { s with
        socks_ := .free (before ++ (sock, none) :: after)
        list_ := s.list_ ++ [.SOCK_READ sock buf] }
  | refuse {before after : Listeners (TcpBuf P.unitSize_)} {sock : ℕ} {buf : TcpBuf P.unitSize_}
      {data : Bytes} {pool : BlockPool P.unitSize_}
      (hsocks : s.socks_ = .locked before sock (.received buf data .refuse) after)
      (hret : s.pool.ret buf.guard_ = .ok pool) :
      Reads s (some (.recv sock data)) { s with
        pool := pool
        socks_ := .free (before ++ (sock, none) :: after)
        list_ := s.list_ ++ [.SOCK_DISCONNECT sock] }
  | next {before after : Listeners (TcpBuf P.unitSize_)} {sock p q : ℕ} {buf : TcpBuf P.unitSize_}
      {data : Bytes} {totalSize : ℕ} {junk : Block P.unitSize_} {pool : BlockPool P.unitSize_}
      (hsocks : s.socks_ = .locked before sock (.received buf data (.front totalSize)) after)
      (hp : s.pool.heap p = none) (hget : s.pool.get p junk = (q, pool)) :
      Reads s none { s with pool := pool, socks_ := .locked before sock (.copying buf data totalSize q) after }
  | copy {before after : Listeners (TcpBuf P.unitSize_)} {sock : ℕ} {buf : TcpBuf P.unitSize_}
      {data : Bytes} {totalSize nextBuf : ℕ} {v : JyTcpBuf P.unitSize_} {block : Block P.unitSize_}
      (hsocks : s.socks_ = .locked before sock (.copying buf data totalSize nextBuf) after)
      (hload : s.pool.load buf = some v) (hblock : s.pool.heap nextBuf = some block)
      (hle : totalSize ≤ buf.recvLen_) :
      Reads s (some (.recv sock data)) { s with
        pool := s.pool.write nextBuf (v.next block totalSize).guard_
        socks_ := .free (before ++ (sock, some ⟨nextBuf, buf.recvLen_ - totalSize,
          (Nat.sub_le _ _).trans buf.recvLen_le⟩) :: after)
        list_ := s.list_ ++ [.SOCK_READ sock ⟨buf.guard_, totalSize, hle.trans buf.recvLen_le⟩] }

/-- `onSockRead`, until the packet's handler has returned and all is destroyed. -/
inductive Handles (s : PoolEndpoint P.unitSize_) : Option PoolEvent → PoolEndpoint P.unitSize_ → Prop
  | take {sock : ℕ} {buf : TcpBuf P.unitSize_} {rest : PacketMsgs (TcpBuf P.unitSize_)}
      (l : JyTcpListener) (hidle : s.work = .idle) (hleaving : s.leaving = [])
      (hlist : s.list_ = .SOCK_READ sock buf :: rest) (hrunning : s.running = true) :
      Handles s none { s with list_ := rest, work := .taken sock l buf }
  | refused {sock : ℕ} {buf : TcpBuf P.unitSize_} {rest : PacketMsgs (TcpBuf P.unitSize_)}
      (hidle : s.work = .idle) (hleaving : s.leaving = []) (hlist : s.list_ = .SOCK_READ sock buf :: rest)
      (hrunning : s.running = false) :
      Handles s (some (.refused sock)) { s with list_ := rest, leaving := [buf.guard_] }
  | clear {sock : ℕ} {l : JyTcpListener} {buf : TcpBuf P.unitSize_} {v : JyTcpBuf P.unitSize_}
      {block : Block P.unitSize_} {r : JyTcpEndpoint.SockRead} (hwork : s.work = .taken sock l buf)
      (hdec : l.dec_ = .clear) (hload : s.pool.load buf = some v)
      (hread : JyTcpEndpoint.onSockRead .rsa l v block = .ok (some r)) :
      Handles s (some (.read sock l r)) { s with work := .handling r buf.guard_ }
  | borrow {sock p q : ℕ} {l : JyTcpListener} {buf : TcpBuf P.unitSize_} {junk : Block P.unitSize_}
      {pool : BlockPool P.unitSize_} (hwork : s.work = .taken sock l buf) (hdec : l.dec_ ≠ .clear)
      (hp : s.pool.heap p = none) (hget : s.pool.get p junk = (q, pool)) :
      Handles s none { s with pool := pool, work := .deciphering sock l buf q }
  | decipher {sock : ℕ} {l : JyTcpListener} {buf : TcpBuf P.unitSize_} {dsOut : ℕ}
      {v : JyTcpBuf P.unitSize_} {block : Block P.unitSize_} {r : JyTcpEndpoint.SockRead}
      (hwork : s.work = .deciphering sock l buf dsOut) (hdec : l.dec_ ≠ .clear)
      (hload : s.pool.load buf = some v) (hblock : s.pool.heap dsOut = some block)
      (hread : JyTcpEndpoint.onSockRead .rsa l v block = .ok (some r)) :
      Handles s (some (.read sock l r)) { s with
        pool := s.pool.write dsOut ⟨r.ds.mem, length_of_onSockRead hdec hread⟩
        work := .handling r dsOut
        leaving := buf.guard_ :: s.leaving }
  | undecrypted {sock : ℕ} {l : JyTcpListener} {buf : TcpBuf P.unitSize_} {dsOut : ℕ}
      {v : JyTcpBuf P.unitSize_} {block : Block P.unitSize_} (scrap : Block P.unitSize_)
      (hwork : s.work = .deciphering sock l buf dsOut) (hload : s.pool.load buf = some v)
      (hblock : s.pool.heap dsOut = some block)
      (hread : JyTcpEndpoint.onSockRead .rsa l v block = .ok none) :
      Handles s (some (.undecrypted sock)) { s with
        pool := s.pool.write dsOut scrap
        list_ := s.list_ ++ [.SOCK_DISCONNECT sock]
        work := .idle
        leaving := dsOut :: buf.guard_ :: s.leaving }
  | done {r : JyTcpEndpoint.SockRead} {base : ℕ} (hwork : s.work = .handling r base)
      (hleaving : s.leaving = []) :
      Handles s none { s with work := .idle, leaving := [base] }
  | ret {p : ℕ} {rest : List ℕ} {pool : BlockPool P.unitSize_} (hleaving : s.leaving = p :: rest)
      (hret : s.pool.ret p = .ok pool) :
      Handles s none { s with pool := pool, leaving := rest }

/-- `add`, `del`, and the end of the selector. -/
inductive Manages (s : PoolEndpoint P.unitSize_) : Option PoolEvent → PoolEndpoint P.unitSize_ → Prop
  | add {l : Listeners (TcpBuf P.unitSize_)} {sock : ℕ} (hidle : s.work = .idle)
      (hsocks : s.socks_ = .free l) (hnew : sock ∉ l.map Prod.fst) (hrunning : s.running = true) :
      Manages s (some (.add sock)) { s with socks_ := .free (l ++ [(sock, none)]) }
  | replace {before after : Listeners (TcpBuf P.unitSize_)} {sock : ℕ}
      {recvBuf_ : Option (TcpBuf P.unitSize_)} (hidle : s.work = .idle) (hleaving : s.leaving = [])
      (hsocks : s.socks_ = .free (before ++ (sock, recvBuf_) :: after)) :
      Manages s (some (.add sock)) { s with
        socks_ := .free (before ++ (sock, none) :: after)
        leaving := guards [(sock, recvBuf_)] }
  | del {before after : Listeners (TcpBuf P.unitSize_)} {sock : ℕ}
      {recvBuf_ : Option (TcpBuf P.unitSize_)} {rest : PacketMsgs (TcpBuf P.unitSize_)}
      (hidle : s.work = .idle) (hleaving : s.leaving = [])
      (hlist : s.list_ = .SOCK_DISCONNECT sock :: rest)
      (hsocks : s.socks_ = .free (before ++ (sock, recvBuf_) :: after)) :
      Manages s (some (.disconnected sock)) { s with
        socks_ := .free (before ++ after)
        list_ := rest
        leaving := guards [(sock, recvBuf_)] }
  | gone {l : Listeners (TcpBuf P.unitSize_)} {sock : ℕ} {rest : PacketMsgs (TcpBuf P.unitSize_)}
      (hidle : s.work = .idle) (hleaving : s.leaving = [])
      (hlist : s.list_ = .SOCK_DISCONNECT sock :: rest) (hsocks : s.socks_ = .free l)
      (hnone : sock ∉ l.map Prod.fst) :
      Manages s (some (.disconnected sock)) { s with list_ := rest }
  | fini {l : Listeners (TcpBuf P.unitSize_)} (hidle : s.work = .idle) (hleaving : s.leaving = [])
      (hsocks : s.socks_ = .free l) (hrunning : s.running = true) :
      Manages s (some .fini) { s with socks_ := .free [], leaving := guards l, running := false }

/-- What the two threads do. -/
inductive Step (s : PoolEndpoint P.unitSize_) (e : Option PoolEvent) (s' : PoolEndpoint P.unitSize_) : Prop
  | reads (h : Reads s e s')
  | handles (h : Handles s e s')
  | manages (h : Manages s e s')

end PoolEndpoint

end EuhatExpert
