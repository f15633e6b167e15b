import EuhatExpert.Common.SocketLoop

/-!
# Common/SocketReuse — a socket number that is used again

Messages carry the number of a socket, and the system may give the number of a closed socket to the next
connection.  The new connection's `SOCK_ACCEPT` stands behind every message of the old one, so that these
find no listener, or that of their own connection (`sameConnection_of_run`).
-/

namespace EuhatExpert

open Machinery

namespace SocketLoop

variable {s s' : SocketLoop} {e : Event} {m : SocketMsg} {g h : Handle}

/-- The connection a packet or a disconnect was produced for. -/
def about : SocketMsg → Option Handle
  | .SOCK_READ h | .SOCK_DISCONNECT h => some h
  | _ => none

/-- A server that has still to listen. -/
def isToken : SocketMsg → Bool
  | .INIT | .SOCK_LISTEN => true
  | _ => false

/-- **The listener a message finds, taken or still in the queue, is that of its connection.** -/
def SameConnection (s : SocketLoop) : Prop :=
  ∀ m ∈ s.pending, ∀ h l, about m = some h → s.find h.sock = some l → l.conn = h.conn

/-- Behind its `SOCK_ACCEPT` only comes what a new socket's own messages are. -/
def Reuses (m m' : SocketMsg) : Prop :=
  ∃ g h, m = .SOCK_ACCEPT g ∧ (m' = .SOCK_ACCEPT h ∨ about m' = some h) ∧ g.sock = h.sock

/-- What the sockets and the messages of a server have to do with one another. -/
structure Tracked (s : SocketLoop) : Prop where
  opened : ∀ n l, s.find n = some l → s.opened n = true
  accepted : ∀ h, .SOCK_ACCEPT h ∈ s.pending → s.find h.sock = none ∧ s.opened h.sock = true
  distinct : s.pending.Pairwise fun m m' => ¬ Reuses m m'
  same : s.SameConnection
  posting : ∀ m ∈ s.posting, (∀ h, m ≠ .SOCK_ACCEPT h) ∧
    ∀ h, about m = some h → ∃ l, s.find h.sock = some l ∧ l.conn = h.conn
  one : s.waiting.countP isToken ≤ 1
  quiet : ∀ m ∈ s.waiting, isToken m = true → (∀ n, s.find n = none) ∧
    ∀ p ∈ s.waiting, about p = none ∧ ∀ h, p ≠ .SOCK_ACCEPT h
  sock : s.sock_ = none

/-! ## Steps -/

theorem mem_waiting_push {p : SocketMsg} (hp : p ∈ waiting { s with list_ := s.list_ ++ [m] }) :
    p = m ∨ p ∈ s.waiting := by
  rw [waiting, pending_push, List.append_assoc, List.mem_append, List.singleton_append, List.mem_cons] at hp
  rw [waiting, List.mem_append]
  tauto

theorem countP_push (p : SocketMsg → Bool) (s : SocketLoop) (m : SocketMsg) :
    (waiting { s with list_ := s.list_ ++ [m] }).countP p = s.waiting.countP p + [m].countP p := by
  rw [waiting, waiting, pending_push, List.countP_append, List.countP_append, List.countP_append, Nat.add_right_comm]

/-- A message is posted that is of a registered socket, or of none. -/
theorem Tracked.push (hs : s.Tracked) (htoken : isToken m = false) (haccept : ∀ h, m ≠ .SOCK_ACCEPT h)
    (habout : ∀ h, about m = some h → ∃ l, s.find h.sock = some l ∧ l.conn = h.conn) :
    Tracked { s with list_ := s.list_ ++ [m] } where
  opened := hs.opened
  accepted := fun h hmem => by
    rw [pending_push] at hmem
    obtain hmem | hmem := List.mem_append.mp hmem
    · exact hs.accepted h hmem
    · exact absurd (List.mem_singleton.mp hmem).symm (haccept h)
  distinct := by
    rw [pending_push]
    refine List.pairwise_append.mpr ⟨hs.distinct, List.pairwise_singleton _ _, ?_⟩
    rintro p hp q hq ⟨g, h, rfl, hq', hsock⟩
    obtain rfl := List.mem_singleton.mp hq
    obtain hq' | hq' := hq'
    · exact haccept h hq'
    · obtain ⟨l, hfind, -⟩ := habout h hq'
      rw [← hsock, (hs.accepted g hp).1] at hfind
      cases hfind
  same := fun p hp h l hp' hfind => by
    rw [pending_push] at hp
    obtain hp | hp := List.mem_append.mp hp
    · exact hs.same p hp h l hp' hfind
    · obtain rfl := List.mem_singleton.mp hp
      obtain ⟨l', hfind', hconn⟩ := habout h hp'
      exact Option.some.inj (hfind.symm.trans hfind') ▸ hconn
  posting := hs.posting
  one := by
    rw [countP_push, List.countP_singleton, htoken]
    exact hs.one
  quiet := fun p hp htok => by
    obtain rfl | hp := mem_waiting_push hp
    · rw [htoken] at htok
      cases htok
    · obtain ⟨hnone, hall⟩ := hs.quiet p hp htok
      refine ⟨hnone, fun q hq => ?_⟩
      obtain rfl | hq := mem_waiting_push hq
      · refine ⟨?_, haccept⟩
        cases hq : about q with
        | none => rfl
        | some h =>
          obtain ⟨l, hfind, -⟩ := habout h hq
          rw [hnone] at hfind
          cases hfind
      · exact hall q hq
  sock := hs.sock

/-- Another thread posts what is of no socket. -/
theorem Tracked.pushOther (hs : s.Tracked) (htoken : isToken m = false) (haccept : ∀ h, m ≠ .SOCK_ACCEPT h)
    (habout : about m = none) : Tracked { s with list_ := s.list_ ++ [m] } :=
  hs.push htoken haccept fun h hm => by
    rw [habout] at hm
    cases hm

theorem Tracked.socket (hs : s.Tracked) (n : ℕ) : (s.socket n).Tracked := by
  have hopened : ∀ k, s.opened k = true → (s.socket n).opened k = true := by
    intro k hk
    rw [SocketLoop.socket]
    dsimp only
    by_cases hkn : k = n
    · rw [hkn, Function.update_self]
    · rw [Function.update_of_ne hkn, hk]
  exact ⟨fun k l hk => hopened k (hs.opened k l hk), fun h hmem => ⟨(hs.accepted h hmem).1,
    hopened _ (hs.accepted h hmem).2⟩, hs.distinct, hs.same, hs.posting, hs.one, hs.quiet, hs.sock⟩

/-- **A connection that is accepted has a socket of its own.** -/
theorem Tracked.connection (hs : s.Tracked) {sock n : ℕ} {l : Registered} (hfind : s.find sock = some l)
    (hnew : s.opened n = false) :
    Tracked { s.socket n with list_ := s.list_ ++ [.SOCK_ACCEPT ⟨n, s.conns⟩] } := by
  have hsocket := hs.socket n
  have hpush : pending { s.socket n with list_ := s.list_ ++ [.SOCK_ACCEPT ⟨n, s.conns⟩] } =
      s.pending ++ [.SOCK_ACCEPT ⟨n, s.conns⟩] := pending_push s _
  have hunfound : s.find n = none := by
    cases hn : s.find n with
    | none => rfl
    | some l =>
      rw [hs.opened n l hn] at hnew
      cases hnew
  have hnotoken : ∀ m ∈ s.waiting, isToken m = false := by
    intro m hm
    refine Bool.eq_false_iff.mpr fun htok => ?_
    rw [(hs.quiet m hm htok).1] at hfind
    cases hfind
  refine ⟨hsocket.opened, fun h hmem => ?_, ?_, fun p hp h l' hp' hfind' => ?_,
    hs.posting, ?_, fun p hp htok => ?_, hs.sock⟩
  · rw [hpush] at hmem
    obtain hmem | hmem := List.mem_append.mp hmem
    · exact hsocket.accepted h hmem
    · obtain ⟨rfl⟩ := SocketMsg.SOCK_ACCEPT.inj (List.mem_singleton.mp hmem)
      exact ⟨hunfound, Function.update_self _ _ _⟩
  · rw [hpush]
    refine List.pairwise_append.mpr ⟨hs.distinct, List.pairwise_singleton _ _, ?_⟩
    rintro p hp q hq ⟨g, h, rfl, hq', hsock⟩
    obtain rfl := List.mem_singleton.mp hq
    obtain hq' | hq' := hq'
    · obtain rfl := SocketMsg.SOCK_ACCEPT.inj hq'
      have hg := (hs.accepted g hp).2
      rw [hsock, hnew] at hg
      cases hg
    · cases hq'
  · rw [hpush] at hp
    obtain hp | hp := List.mem_append.mp hp
    · exact hs.same p hp h l' hp' hfind'
    · rw [List.mem_singleton.mp hp] at hp'
      cases hp'
  · have hcount := countP_push isToken s (.SOCK_ACCEPT ⟨n, s.conns⟩)
    have hone := hs.one
    rw [List.countP_singleton] at hcount
    exact hcount.le.trans hone
  · obtain rfl | hp := mem_waiting_push hp
    · cases htok
    · rw [hnotoken p hp] at htok
      cases htok

/-- The message taken up goes to its handler. -/
theorem Tracked.pop (hs : s.Tracked) (htaken : s.taken = some m) : Tracked { s with taken := none } := by
  have hpending := pending_of_taken htaken
  have hwait : s.waiting = m :: waiting { s with taken := none } := by
    rw [waiting, hpending, waiting]
    rfl
  have hsub : waiting { s with taken := none } ⊆ s.waiting := hwait ▸ List.subset_cons_self _ _
  have hlisted : s.list_ ⊆ s.pending := hpending ▸ List.subset_cons_self _ _
  have hdistinct := hs.distinct
  rw [hpending, List.pairwise_cons] at hdistinct
  refine ⟨hs.opened, fun h hmem => hs.accepted h (hlisted hmem), hdistinct.2,
    fun p hp => hs.same p (hlisted hp), hs.posting, ?_, fun p hp htok => ?_, hs.sock⟩
  · have hone := hs.one
    rw [hwait, List.countP_cons] at hone
    exact (Nat.le_add_right _ _).trans hone
  · obtain ⟨hnone, hall⟩ := hs.quiet p (hsub hp) htok
    exact ⟨hnone, fun q hq => hall q (hsub hq)⟩

/-- What is posted at the front of a turn. -/
theorem Tracked.posts (hs : s.Tracked) {ps : List SocketMsg} (hposting : s.posting = [])
    (hps : ∀ p ∈ ps, (∀ h, p ≠ .SOCK_ACCEPT h) ∧ isToken p = false ∧
      ∀ h, about p = some h → ∃ l, s.find h.sock = some l ∧ l.conn = h.conn) : (s.posts ps).Tracked := by
  have hwait : (s.posts ps).waiting = s.waiting ++ ps := by
    rw [waiting, waiting, SocketLoop.posts, hposting, List.append_nil, List.nil_append]
    rfl
  refine ⟨hs.opened, hs.accepted, hs.distinct, hs.same, fun p hp => ?_, ?_, fun p hp htok => ?_, hs.sock⟩
  · rw [SocketLoop.posts, hposting, List.nil_append] at hp
    exact ⟨(hps p hp).1, (hps p hp).2.2⟩
  · have hzero : ps.countP isToken = 0 :=
      List.countP_eq_zero.mpr fun p hp => by rw [(hps p hp).2.1]; exact Bool.false_ne_true
    rw [hwait, List.countP_append, hzero]
    exact hs.one
  · rw [hwait, List.mem_append] at hp
    obtain hp | hp := hp
    · obtain ⟨hnone, hall⟩ := hs.quiet p hp htok
      refine ⟨hnone, fun q hq => ?_⟩
      rw [hwait, List.mem_append] at hq
      obtain hq | hq := hq
      · exact hall q hq
      · refine ⟨?_, (hps q hq).1⟩
        cases habout : about q with
        | none => rfl
        | some h =>
          obtain ⟨l, hfind, -⟩ := (hps q hq).2.2 h habout
          have hfind : s.find h.sock = some l := hfind
          have hnone : s.find h.sock = none := hnone h.sock
          rw [hnone] at hfind
          cases hfind
    · rw [(hps p hp).2.1] at htok
      cases htok

/-- A listener is put on a socket no waiting message is about. -/
theorem Tracked.add (hs : s.Tracked) (hposting : s.posting = []) (hopened : s.opened h.sock = true)
    (hne : ∀ p ∈ s.pending, ∀ g, p = .SOCK_ACCEPT g ∨ about p = some g → g.sock ≠ h.sock)
    (htoken : ∀ p ∈ s.pending, isToken p = false) (type : JyTcpSelectType) : (s.add h type).Tracked := by
  have hwait : (s.add h type).waiting = s.pending := by
    rw [waiting, SocketLoop.add]
    dsimp only
    rw [hposting, List.append_nil]
    rfl
  refine ⟨fun n l hn => ?_, fun g hmem => ⟨?_, (hs.accepted g hmem).2⟩, hs.distinct,
    fun p hp g l habout hn => ?_, fun p hp => ?_, ?_, fun p hp htok => ?_, hs.sock⟩
  · by_cases hnh : n = h.sock
    · rw [hnh]
      exact hopened
    · rw [find_add_of_ne hnh] at hn
      exact hs.opened n l hn
  · rw [find_add_of_ne (hne _ hmem g (.inl rfl))]
    exact (hs.accepted g hmem).1
  · rw [find_add_of_ne (hne p hp g (.inr habout))] at hn
    exact hs.same p hp g l habout hn
  · have hp : p ∈ s.posting := hp
    rw [hposting] at hp
    cases hp
  · rw [hwait, List.countP_eq_zero.mpr fun p hp => by rw [htoken p hp]; exact Bool.false_ne_true]
    exact Nat.zero_le 1
  · rw [htoken p (hwait ▸ hp)] at htok
    cases htok

/-- A listener is taken off, and its socket closed. -/
theorem Tracked.del (hs : s.Tracked) (hposting : s.posting = []) (sock : ℕ) : (s.del sock).Tracked := by
  by_cases hfind : (s.find sock).isSome
  · have hdel : ∀ {n l}, (s.del sock).find n = some l → n ≠ sock ∧ s.find n = some l := by
      intro n l hn
      by_cases hne : n = sock
      · rw [hne, find_del_self] at hn
        cases hn
      · exact ⟨hne, (find_del_of_ne hne).symm.trans hn⟩
    have hnone : ∀ {n}, s.find n = none → n ≠ sock ∧ (s.del sock).find n = none := by
      intro n hn
      have hne : n ≠ sock := by
        rintro rfl
        rw [hn] at hfind
        cases hfind
      exact ⟨hne, (find_del_of_ne hne).trans hn⟩
    have hopened : ∀ {n}, n ≠ sock → s.opened n = true → (s.del sock).opened n = true := by
      intro n hne hn
      rw [SocketLoop.del, if_pos hfind, whCloseSocket]
      exact (Function.update_of_ne hne _ _).trans hn
    have hlist : (s.del sock).pending = s.pending := by
      rw [SocketLoop.del, if_pos hfind, whCloseSocket]
      rfl
    have hwait : (s.del sock).waiting = s.waiting := by rw [waiting, waiting, hlist, posting_del]
    refine ⟨fun n l hn => hopened (hdel hn).1 (hs.opened n l (hdel hn).2), fun h hmem => ?_, hlist ▸ hs.distinct,
      fun p hp h l habout hn => hs.same p (hlist ▸ hp) h l habout (hdel hn).2, fun p hp => ?_, hwait ▸ hs.one,
      fun p hp htok => ?_, (sock_del s sock).trans hs.sock⟩
    · obtain ⟨hn, ho⟩ := hs.accepted h (hlist ▸ hmem)
      exact ⟨(hnone hn).2, hopened (hnone hn).1 ho⟩
    · rw [posting_del, hposting] at hp
      cases hp
    · obtain ⟨hall, hquiet⟩ := hs.quiet p (hwait ▸ hp) htok
      exact ⟨fun n => (hnone (hall n)).2, fun q hq => hquiet q (hwait ▸ hq)⟩
  · rw [SocketLoop.del, if_neg hfind]
    exact hs

/-- Before the server listens nothing is registered, and no message is about a socket. -/
theorem tracked_of_quiet (hnone : ∀ n, s.find n = none)
    (hall : ∀ p ∈ s.waiting, about p = none ∧ ∀ h, p ≠ .SOCK_ACCEPT h) (hone : s.waiting.countP isToken ≤ 1)
    (hsock : s.sock_ = none) : s.Tracked := by
  have hlisted : ∀ p ∈ s.pending, about p = none ∧ ∀ h, p ≠ .SOCK_ACCEPT h := fun p hp =>
    hall p (List.mem_append_left _ hp)
  refine ⟨fun n l hn => ?_, fun h hmem => absurd rfl ((hlisted _ hmem).2 h), ?_, fun p hp h l habout => ?_,
    fun p hp => ?_, hone, fun _ _ _ => ⟨hnone, hall⟩, hsock⟩
  · rw [hnone] at hn
    cases hn
  · refine List.pairwise_of_forall_mem_list fun p hp q _ => ?_
    rintro ⟨g, h, rfl, -, -⟩
    exact (hlisted _ hp).2 g rfl
  · rw [(hlisted p hp).1] at habout
    cases habout
  · obtain ⟨habout, haccept⟩ := hall p (List.mem_append_right _ hp)
    refine ⟨haccept, fun h hp' => ?_⟩
    rw [habout] at hp'
    cases hp'

/-- **A turn of the server** with the message it took. -/
theorem Tracked.work (hs : s.Tracked) (hposting : s.posting = []) (htaken : s.taken = some m)
    (hwork : Worked { s with taken := none } .server m s') : s'.Tracked := by
  have hpop := hs.pop htaken
  have hpending := pending_of_taken htaken
  have hdistinct := hs.distinct
  rw [hpending, List.pairwise_cons] at hdistinct
  have hwait : s.waiting = m :: s.list_ := by rw [waiting, hpending, hposting, List.append_nil]
  have hfront : m ∈ s.pending := hpending ▸ List.mem_cons_self
  have hmem : m ∈ s.waiting := hwait ▸ List.mem_cons_self
  have hin : ∀ p ∈ s.list_, p ∈ s.waiting := fun p hp => hwait ▸ List.mem_cons_of_mem _ hp
  have hnotoken : isToken m = true → ∀ p ∈ s.list_, isToken p = false := by
    intro htok p hp
    have hone := hs.one
    rw [hwait, List.countP_cons_of_pos htok] at hone
    exact Bool.eq_false_iff.mpr (List.countP_eq_zero.mp (Nat.le_zero.mp (Nat.le_of_succ_le_succ hone)) p hp)
  have hlisten : isToken m = true → ∀ {s' : SocketLoop}, s'.pending = s.list_ → s'.posting = [.SOCK_LISTEN] →
      s'.find = s.find → s'.sock_ = s.sock_ → s'.Tracked := by
    intro htok s' hlist' hposting' hfind' hsock'
    obtain ⟨hnone, hall⟩ := hs.quiet m hmem htok
    have hwait'' : s'.waiting = s.list_ ++ [.SOCK_LISTEN] := by rw [waiting, hlist', hposting']
    refine tracked_of_quiet (hfind' ▸ hnone) (fun p hp => ?_) ?_ (hsock'.trans hs.sock)
    · rw [hwait'', List.mem_append, List.mem_singleton] at hp
      obtain hp | rfl := hp
      · exact hall p (hin p hp)
      · exact ⟨rfl, nofun⟩
    · have hzero : s.list_.countP isToken = 0 :=
        List.countP_eq_zero.mpr fun p hp => by rw [hnotoken htok p hp]; exact Bool.false_ne_true
      rw [hwait'', List.countP_append, hzero]
      exact le_rfl
  cases hwork with
  | @talked _ _ ps hps =>
    refine hpop.posts hposting fun p hp => ?_
    have hsaid := hps p hp
    cases hsaid with
    | @lost g hheard hfind =>
      obtain rfl : m = .SOCK_READ g := by
        cases m with
        | SOCK_READ h => rw [List.mem_singleton.mp hheard]
        | _ => cases hheard
      obtain ⟨l, hl⟩ := Option.isSome_iff_exists.mp hfind
      refine ⟨nofun, rfl, fun h hh => ?_⟩
      obtain rfl := Option.some.inj hh
      exact ⟨l, hl, hs.same (.SOCK_READ g) hfront g l rfl hl⟩
    | leave _ hsock _ =>
      have hnone : s.sock_ = none := hs.sock
      rw [hnone] at hsock
      cases hsock
    | exchange => exact ⟨nofun, rfl, nofun⟩
    | userStart => exact ⟨nofun, rfl, nofun⟩
  | @fini _ socks_ hsel =>
    refine ⟨nofun, fun h hmem => ⟨rfl, ?_⟩, hpop.distinct, nofun, fun p hp => ?_, hpop.one,
      fun p hp htok => ⟨fun _ => rfl, (hpop.quiet p hp htok).2⟩, hs.sock⟩
    swap
    · have hp : p ∈ s.posting := hp
      rw [hposting] at hp
      cases hp
    obtain ⟨hfind, hopened⟩ := hpop.accepted h hmem
    rw [find, hsel, Option.bind_some] at hfind
    dsimp only
    rw [hopened, hfind]
    rfl
  | initServer hsel => exact hlisten rfl rfl (congrArg (· ++ [SocketMsg.SOCK_LISTEN]) hposting) rfl rfl
  | @listening n hsel hnew =>
    obtain ⟨hnone, hall⟩ := hs.quiet _ hmem rfl
    have hopened : (s.socket n).opened n = true := by
      rw [SocketLoop.socket]
      exact Function.update_self _ _ _
    refine (hpop.socket n).add (h := ⟨n, s.conns⟩) hposting hopened (fun p hp g hg => ?_) (hnotoken rfl)
      .JyTcpSelectAccept
    obtain ⟨habout, haccept⟩ := hall p (hin p hp)
    obtain hg | hg := hg
    · exact absurd hg (haccept g)
    · rw [habout] at hg
      cases hg
  | @notListening n hsel hnew => exact hlisten rfl rfl (congrArg (· ++ [SocketMsg.SOCK_LISTEN]) hposting) rfl rfl
  | @accepted g hsel =>
    refine hpop.add hposting (hs.accepted g hfront).2 (fun p hp h hh hsock => ?_) (fun p hp => ?_) _
    · exact hdistinct.1 p hp ⟨g, h, rfl, hh, hsock.symm⟩
    · refine Bool.eq_false_iff.mpr fun htok => ?_
      exact (((hs.quiet p (hin p hp) htok).2 _ hmem).2 g) rfl
  | @disconnected g => exact hpop.del hposting g.sock

theorem tracked_start : start.Tracked := by
  refine tracked_of_quiet (fun _ => rfl) (fun p hp => ?_) (by decide) rfl
  obtain rfl := List.mem_singleton.mp hp
  exact ⟨rfl, nofun⟩

theorem Tracked.step (hs : s.Tracked) (hstep : Step .server s e s') : s'.Tracked := by
  cases hstep with
  | @take m rest hf hposting htaken hlist =>
    have hpending := pending_take htaken hlist
    have hwait : waiting { s with list_ := rest, taken := some m } = s.waiting := by rw [waiting, waiting, hpending]
    exact ⟨hs.opened, hpending.symm ▸ hs.accepted, hpending.symm ▸ hs.distinct,
      fun p hp => hs.same p (hpending ▸ hp), hs.posting, hwait.symm ▸ hs.one, hwait.symm ▸ hs.quiet, hs.sock⟩
  | join hf hposting htaken hsel =>
    exact ⟨hs.opened, hs.accepted, hs.distinct, hs.same, hs.posting, hs.one, hs.quiet, hs.sock⟩
  | @work s' m t hf hposting htaken hjoined hfresh hwork =>
    exact hs.work hposting htaken (comes_of_eq hwork hfresh)
  | @fail m e t hf hposting htaken hfresh hwork =>
    have hpop := hs.pop htaken
    exact ⟨hpop.opened, hpop.accepted, hpop.distinct, hpop.same, hpop.posting, hpop.one, hpop.quiet, hpop.sock⟩
  | @post m rest hf hposting =>
    have hwait : waiting { s with posting := rest, list_ := s.list_ ++ [m] } = s.waiting := by
      rw [waiting, waiting, pending, pending, hposting, List.append_assoc, List.append_assoc, List.append_assoc,
        List.singleton_append]
    have hpush : pending { s with posting := rest, list_ := s.list_ ++ [m] } = s.pending ++ [m] := pending_push s m
    have hm : m ∈ s.posting := hposting ▸ List.mem_cons_self
    have hrest : rest ⊆ s.posting := hposting ▸ List.subset_cons_self _ _
    obtain ⟨haccept, habout⟩ := hs.posting m hm
    refine ⟨hs.opened, fun h hmem => ?_, ?_, fun p hp h l hp' hfind => ?_, fun p hp => hs.posting p (hrest hp),
      hwait ▸ hs.one, fun p hp htok => ⟨(hs.quiet p (hwait ▸ hp) htok).1, fun q hq => ?_⟩, hs.sock⟩
    · rw [hpush] at hmem
      obtain hmem | hmem := List.mem_append.mp hmem
      · exact hs.accepted h hmem
      · exact absurd (List.mem_singleton.mp hmem).symm (haccept h)
    · rw [hpush]
      refine List.pairwise_append.mpr ⟨hs.distinct, List.pairwise_singleton _ _, ?_⟩
      rintro p hp q hq ⟨g, h, rfl, hq', hsock⟩
      obtain rfl := List.mem_singleton.mp hq
      obtain hq' | hq' := hq'
      · exact haccept h hq'
      · obtain ⟨l, hfind, -⟩ := habout h hq'
        rw [← hsock, (hs.accepted g hp).1] at hfind
        cases hfind
    · rw [hpush] at hp
      obtain hp | hp := List.mem_append.mp hp
      · exact hs.same p hp h l hp' hfind
      · obtain rfl := List.mem_singleton.mp hp
        obtain ⟨l', hfind', hconn⟩ := habout h hp'
        exact Option.some.inj (hfind.symm.trans hfind') ▸ hconn
    · exact (hs.quiet p (hwait ▸ hp) htok).2 q (hwait ▸ hq)
  | select sock r hf hjoined hnew =>
    have hr := selected_onRead s sock r
    generalize s.onRead sock r = s' at hr
    cases hr with
    | nothing => exact hs
    | @connection l n hfind => exact hs.connection hfind (hnew n rfl)
    | @packet l hfind =>
      refine hs.push rfl (fun _ h => by cases h) fun h hh => ?_
      obtain rfl := Option.some.inj hh
      exact ⟨l, hfind, rfl⟩
    | @broken l hfind =>
      refine hs.push rfl (fun _ h => by cases h) fun h hh => ?_
      obtain rfl := Option.some.inj hh
      exact ⟨l, hfind, rfl⟩
  | stop hf hstopped =>
    have hpush := hs.pushOther (m := .FINI) rfl (fun _ h => by cases h) rfl
    exact ⟨hpush.opened, hpush.accepted, hpush.distinct, hpush.same, hpush.posting, hpush.one, hpush.quiet,
      hpush.sock⟩
  | userLoop hf => exact hs.pushOther rfl (fun _ h => by cases h) rfl
  | timer hf => exact hs.pushOther rfl (fun _ h => by cases h) rfl

/-- **No message of a server meets the listener of another connection.** -/
theorem sameConnection_of_run {es : List Event} (h : Run (Step .server) start es s) : s.SameConnection :=
  (h.invariant (I := Tracked) tracked_start fun _ _ _ hs hstep => hs.step hstep).same

/-- Socket 4 is closed behind a connection, and is the next connection's. -/
theorem reused_sameConnection : ∃ es s, Run (Step .server) start es s ∧
    s.taken = some (.SOCK_READ ⟨4, 2⟩) ∧ s.find 4 = some ⟨.JyTcpSelectRecv, 2⟩ ∧ s.SameConnection := by
  have hinit : Run (Step .server) start [.take] _ := Run.nil.snoc (.take rfl rfl rfl rfl)
  have hpost := hinit.snoc (.work (Turn.well 3) rfl rfl rfl nofun rfl rfl)
  have hlisten := (hpost.snoc (.post rfl rfl)).snoc (.take rfl rfl rfl rfl)
  have hlistening := hlisten.snoc (.work (Turn.well 3) rfl rfl rfl nofun rfl rfl)
  have hconnection := hlistening.snoc (.select 3 (.connection 4) rfl rfl (by rintro n ⟨⟩; rfl))
  have haccept := (hconnection.snoc (.take rfl rfl rfl rfl)).snoc (.work (Turn.well 5) rfl rfl rfl nofun rfl rfl)
  have hbroken := (haccept.snoc (.select 4 .broken rfl rfl nofun)).snoc (.take rfl rfl rfl rfl)
  have hdisconnect := hbroken.snoc (.work (Turn.well 5) rfl rfl rfl nofun rfl rfl)
  have hagain := hdisconnect.snoc (.select 3 (.connection 4) rfl rfl (by rintro n ⟨⟩; rfl))
  have haccept' := (hagain.snoc (.take rfl rfl rfl rfl)).snoc (.work (Turn.well 5) rfl rfl rfl nofun rfl rfl)
  have hpacket := (haccept'.snoc (.select 4 .packet rfl rfl nofun)).snoc (.take rfl rfl rfl rfl)
  exact ⟨_, _, hpacket, rfl, rfl, sameConnection_of_run hpacket⟩

end SocketLoop

end EuhatExpert
