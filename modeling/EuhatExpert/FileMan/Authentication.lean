import EuhatExpert.Common.JyTcpServer
import EuhatExpert.FileMan.FileManType
import EuhatExpert.Machinery.Run

/-!
# FileMan/Authentication — which connections have their file commands run

A secure `FileManServer` and any number of peers, who may send whatever they like.  The dispatcher looks
at the type of a packet, which is in clear, and at nothing else: a file command is run on a connection
that never exchanged anything, and a wrong digest lets a connection go on under the symmetric cipher.
Where neither happens, the symmetric cipher in use is the mark of a right digest (`authenticated_of_run`).
-/

namespace EuhatExpert

open Machinery

namespace Authentication

/-- What the server runs with; `hostInfo` is what it adds to its answers. -/
structure Setup where
  pool : JyBufPool
  cipher : AsymmetricCipher
  md5 : Bytes → Block 16
  visitCode_ : Bytes
  hostInfo : Bytes
  cert : Cert

/-- A connection; no two accepted sockets are the same one. -/
inductive Conn
  | unused
  | live (l : JyTcpListener)
  | closed

/-- What the server is seen to do with a packet. -/
inductive Obs
  | quiet
  | exchangedSym (digest : Bytes)
  | ran (task : FmsTask)
  deriving DecidableEq

/-- An event at the server, with what it is seen to do. -/
inductive Event (U : ℕ)
  | accept (c : ℕ)
  | packet (c : ℕ) (buf : JyTcpBuf U) (fresh : Fresh U) (obs : Obs)
  | disconnect (c : ℕ)

abbrev State := ℕ → Conn

variable (S : Setup)

/-- The digest a packet of the symmetric exchange is seen to carry. -/
def exchanged (l : JyTcpListener) (fresh : Fresh S.pool.unitSize_) (buf : JyTcpBuf S.pool.unitSize_) : Obs :=
  match JyTcpEndpoint.onSockRead S.cipher l buf fresh.block with
  | .ok (some r) =>
    if r.packetType = JyTcpCmdExchangeSymSecurity then
      match JyTcpServer.digestOf r.ds with
      | .ok digest => .exchangedSym digest
      | .error _ => .quiet
    else .quiet
  | _ => .quiet

/-- A packet at a live connection: `JyTcpServer::onSockRead`, and the handler `FileManServer::onRead` runs
for what that hands on. -/
def observe (l : JyTcpListener) (fresh : Fresh S.pool.unitSize_) (buf : JyTcpBuf S.pool.unitSize_)
    (out : Out) : Obs :=
  match out.read with
  | some r => ((FileManServer.taskOf r.packetType).map .ran).getD .quiet
  | none => exchanged S l fresh buf

/-- The connection a handler leaves. -/
def Conn.ofListener : Option JyTcpListener → Conn
  | some l => .live l
  | none => .closed

inductive Step : State → Event S.pool.unitSize_ → State → Prop
  | accept {s : State} {c : ℕ} : s c = .unused →
      Step s (.accept c) (Function.update s c (.live (.new S.cert)))
  | packet {s : State} {c : ℕ} {l : JyTcpListener} {buf fresh out} : s c = .live l →
      JyTcpServer.onSockRead S.cipher S.md5 S.visitCode_ S.hostInfo (some l) fresh buf = .ok out →
      Step s (.packet c buf fresh (observe S l fresh buf out))
        (Function.update s c (.ofListener out.l))
  | disconnect {s : State} {c : ℕ} : Step s (.disconnect c) (Function.update s c .closed)

/-- The server before anybody connected. -/
def init : State := fun _ => .unused

/-- The digest of the visit code. -/
def Setup.digest : Bytes := JyTcpServer.visitDigest S.md5 S.visitCode_

/-- The connection `c` exchanged the right digest among these events. -/
def Exchanged (es : List (Event S.pool.unitSize_)) (c : ℕ) : Prop :=
  ∃ buf fresh, .packet c buf fresh (.exchangedSym S.digest) ∈ es

/-- **A file command is run only for a connection that exchanged the right digest before.** -/
def Authenticated (es : List (Event S.pool.unitSize_)) : Prop :=
  ∀ before c buf fresh task after, es = before ++ .packet c buf fresh (.ran task) :: after →
    Exchanged S before c

/-- A packet that, as the server reads it, is no file command and carries no wrong digest. -/
def Honest (l : JyTcpListener) (buf : JyTcpBuf S.pool.unitSize_) (block : Block S.pool.unitSize_) : Prop :=
  ∀ r, JyTcpEndpoint.onSockRead S.cipher l buf block = .ok (some r) →
    FileManServer.taskOf r.packetType = none ∧
      (r.packetType = JyTcpCmdExchangeSymSecurity →
        ∀ digest, JyTcpServer.digestOf r.ds = .ok digest → digest = S.digest)

/-- Until a connection reads with the symmetric cipher, its packets are honest. -/
def Guarded (s : State) : Event S.pool.unitSize_ → Prop
  | .packet c buf fresh _ => ∀ l, s c = .live l → l.dec_ ≠ .symmetric → Honest S l buf fresh.block
  | _ => True

/-! ## The invariant -/

/-- The symmetric cipher is the mark of a right digest, and the property holds so far. -/
structure Invariant (es : List (Event S.pool.unitSize_)) (s : State) : Prop where
  exchanged : ∀ c l, s c = .live l → l.dec_ = .symmetric → Exchanged S es c
  authenticated : Authenticated S es

variable {S} {s : State} {es : List (Event S.pool.unitSize_)} {e : Event S.pool.unitSize_}

theorem Exchanged.append {c : ℕ} (h : Exchanged S es c) : Exchanged S (es ++ [e]) c := by
  obtain ⟨buf, fresh, hmem⟩ := h
  exact ⟨buf, fresh, List.mem_append_left _ hmem⟩

/-- The property is decided by the last event. -/
theorem Authenticated.append (h : Authenticated S es)
    (he : ∀ c buf fresh task, e = .packet c buf fresh (.ran task) → Exchanged S es c) :
    Authenticated S (es ++ [e]) := by
  intro before c buf fresh task after heq
  obtain ⟨rfl, hlast⟩ | ⟨after', hes⟩ := split_of_concat heq
  · exact he c buf fresh task hlast.symm
  · exact h before c buf fresh task after' hes

/-- What is known of a connection's cipher survives a change of another connection, or one that leaves
no symmetric cipher. -/
theorem exchanged_update (h : ∀ c l, s c = .live l → l.dec_ = .symmetric → Exchanged S es c) {c : ℕ}
    {conn : Conn} (hc : ∀ l, conn = .live l → l.dec_ = .symmetric → Exchanged S (es ++ [e]) c) :
    ∀ c' l, Function.update s c conn c' = .live l → l.dec_ = .symmetric →
      Exchanged S (es ++ [e]) c' := by
  intro c' l hl hdec
  by_cases hcc : c' = c
  · subst hcc
    rw [Function.update_self] at hl
    exact hc l hl hdec
  · rw [Function.update_of_ne hcc] at hl
    exact (h c' l hl hdec).append

theorem invariant_step {s' : State} (hI : Invariant S es s) (hstep : Step S s e s')
    (hg : Guarded S s e) : Invariant S (es ++ [e]) s' := by
  obtain ⟨hex, hauth⟩ := hI
  cases hstep with
  | accept hc =>
    refine ⟨exchanged_update hex fun l hl hdec => ?_, hauth.append nofun⟩
    injection hl with hl
    rw [← hl] at hdec
    cases hdec
  | disconnect => exact ⟨exchanged_update hex nofun, hauth.append nofun⟩
  | @packet c l buf fresh out hc hout =>
    have hpacket : ∀ l', .ofListener out.l = Conn.live l' → out.l = some l' := by
      intro l' hl'
      cases hl : out.l with
      | none => rw [hl] at hl'; cases hl'
      | some l'' => rw [hl] at hl'; injection hl' with hl'; rw [hl']
    cases JyTcpServer.received_of_onSockRead hout with
    | undecrypted hr hl hread =>
      have hobs : observe S l fresh buf out = .quiet := by simp only [observe, hread, exchanged, hr]
      rw [hobs]
      refine ⟨exchanged_update hex fun l' hl' hdec => ?_, hauth.append nofun⟩
      obtain rfl := Option.some.inj (hl.symm.trans (hpacket l' hl'))
      exact (hex c l hc hdec).append
    | @exchangedAsym r l₁ hr htype hl hdec₁ hread =>
      have hobs : observe S l fresh buf out = .quiet := by
        simp only [observe, hread, exchanged, hr, htype]
        rfl
      rw [hobs]
      refine ⟨exchanged_update hex fun l' hl' hdec => ?_, hauth.append nofun⟩
      obtain rfl := Option.some.inj (hl.symm.trans (hpacket l' hl'))
      rw [hdec₁] at hdec
      cases hdec
    | @exchangedSym r l₁ digest hr htype hd hl hdec₁ hread =>
      have hobs : observe S l fresh buf out = .exchangedSym digest := by
        simp only [observe, hread, exchanged, hr, htype, if_true, hd]
      rw [hobs]
      refine ⟨exchanged_update hex fun l' _ _ => ?_, hauth.append nofun⟩
      by_cases hsym : l.dec_ = .symmetric
      · exact (hex c l hc hsym).append
      · -- the step that starts the symmetric cipher: its packet was honest
        have hdigest := (hg l hc hsym r hr).2 htype digest hd
        rw [hdigest]
        exact ⟨buf, fresh, List.mem_append_right _ List.mem_cons_self⟩
    | @handedOn r hr _ _ hl hread =>
      refine ⟨exchanged_update hex fun l' hl' hdec => ?_, hauth.append ?_⟩
      · obtain rfl := Option.some.inj (hl.symm.trans (hpacket l' hl'))
        exact (hex c l hc hdec).append
      · intro c' buf' fresh' task he
        injection he with hcc _ _ hobs
        rw [← hcc]
        refine hex c l hc (by_contra fun hsym => ?_)
        rw [observe, hread] at hobs
        dsimp only at hobs
        rw [(hg l hc hsym r hr).1] at hobs
        cases hobs

theorem invariant_init : Invariant S [] init where
  exchanged _ _ h := by cases h
  authenticated before c buf fresh task after h := by
    cases before <;> cases h

/-- **Authentication before service, in every run whose packets are honest until the symmetric cipher is
in use.** -/
theorem authenticated_of_run (S : Setup) {es : List (Event S.pool.unitSize_)} {s : State}
    (h : Run (restrict (Step S) (Guarded S)) init es s) : Authenticated S es :=
  (h.invariant_hist invariant_init fun _ _ _ _ hI hstep => invariant_step hI hstep.1 hstep.2).authenticated

/-! ## Two packets in clear -/

theorem bareUnit_lt : 40 < 2 ^ 31 := by norm_num

theorem length_bareDigest : (List.replicate 16 7 : Bytes).length = 16 := List.length_replicate

theorem length_bareRnd : (List.replicate 2048 0 : Bytes).length = 2048 := List.length_replicate

/-- A server with the code's own cipher. -/
def bare : Setup where
  pool := ⟨40, bareUnit_lt⟩
  cipher := .rsa
  md5 _ := ⟨List.replicate 16 7, length_bareDigest⟩
  visitCode_ := [1, 2, 3]
  hostInfo := []
  cert := ⟨[251], [3], [3]⟩

def bareFresh : Fresh bare.pool.unitSize_ where
  block := ⟨List.replicate 40 0, List.length_replicate⟩
  stale _ := 0
  rnd := ⟨List.replicate 2048 0, length_bareRnd⟩
  rnd' := ⟨List.replicate 2048 0, length_bareRnd⟩

/-- A packet of 20 bytes in clear: an id, the path `a`, and a flag. -/
def clearPacket (packetType : ℤ) : JyTcpBuf bare.pool.unitSize_ where
  guard_ := ⟨putInt 4 20 ++ putInt 4 packetType ++ putInt 4 0 ++ putInt 2 2 ++ [97, 0] ++ putInt 4 0
    ++ List.replicate 20 0, by simp [bare]⟩
  recvLen_ := 20
  recvLen_le := by decide

/-- Its stream behind the header. -/
def clearStream (packetType : ℤ) : JyDataReadStream := ⟨(clearPacket packetType).guard_.val, 20, 8⟩

theorem accept_bare : Step bare init (.accept 0) (Function.update init 0 (.live (.new bare.cert))) :=
  .accept rfl

/-- The symmetric exchange with the digest of the visit code, and buffers of one byte. -/
def symPacket : JyTcpBuf bare.pool.unitSize_ where
  guard_ := ⟨putInt 4 38 ++ putInt 4 JyTcpCmdExchangeSymSecurity ++ putInt 4 1 ++ [1] ++ putInt 4 1 ++ [2]
    ++ putInt 4 16 ++ List.replicate 16 7 ++ [0, 0], by simp [bare]⟩
  recvLen_ := 38
  recvLen_le := by decide

/-- The key that the server reads with from then on. -/
def symKey : Bytes := xorBytes (List.replicate 16 7) [2] fun _ => 0

def symConn : JyTcpListener := { JyTcpListener.new bare.cert with
  encSym_ := xorBytes (List.replicate 16 7) [1] fun _ => 0
  decSym_ := symKey
  enc_ := .symmetric
  dec_ := .symmetric }

/-- The answer, still in clear. -/
def symAck : JyTcpEndpoint.Sent :=
  ⟨JyTcpEndpoint.frame JyTcpCmdExchangeSymSecurity (putInt 4 1), .clear, JyTcpCmdExchangeSymSecurity, putInt 4 1⟩

/-- The deletion of `clearPacket`, as it is sent under that key. -/
def symDel : JyTcpEndpoint.Sent :=
  ⟨JyTcpEndpoint.frame FmCmdFileDel (xorBytes symKey (putInt 4 0 ++ putInt 2 2 ++ [97, 0] ++ putInt 4 0) fun _ => 0),
    .symmetric, FmCmdFileDel, putInt 4 0 ++ putInt 2 2 ++ [97, 0] ++ putInt 4 0⟩

theorem length_symDel : symDel.bytes.length = 20 := by
  simp [symDel, JyTcpEndpoint.length_frame, length_xorBytes]

def symDelPacket : JyTcpBuf bare.pool.unitSize_ where
  guard_ := ⟨symDel.bytes ++ List.replicate 20 0, by rw [List.length_append, length_symDel]; rfl⟩
  recvLen_ := 20
  recvLen_le := by decide

/-- A connection that exchanges the right digest, and then has a file deleted. -/
def servedRun : List (Event bare.pool.unitSize_) :=
  [.accept 0, .packet 0 symPacket bareFresh (.exchangedSym bare.digest),
    .packet 0 symDelPacket bareFresh (.ran .delFileOp_)]

theorem onSockRead_symDelPacket : ∃ r, JyTcpEndpoint.onSockRead bare.cipher symConn symDelPacket bareFresh.block
    = .ok (some r) ∧ r.Carries symDel := by
  have hkey : symKey ≠ [] := by
    rw [← List.length_pos_iff, symKey, length_xorBytes]
    decide
  have hreceived : symDelPacket.received = symDel.bytes := List.take_left' length_symDel
  have hopens : JyTcpEndpoint.Opens bare.cipher symConn.decAsym_ symConn.decSym_ (xorBytes symKey _ fun _ => 0)
      symDel.payload .symmetric := ⟨hkey, _, rfl⟩
  refine JyTcpEndpoint.onSockRead_eq ⟨by decide, ⟨_, rfl, ?_, hopens⟩, fun h => by cases h⟩ rfl hreceived _
  rw [length_xorBytes]
  decide

/-- **A file is deleted for a connection that exchanged the right digest.** -/
theorem servedRun_authenticated :
    (∃ s, Run (restrict (Step bare) (Guarded bare)) init servedRun s) ∧ Authenticated bare servedRun := by
  have hread : JyTcpEndpoint.onSockRead bare.cipher (.new bare.cert) symPacket bareFresh.block
      = .ok (some ⟨JyTcpCmdExchangeSymSecurity, ⟨symPacket.guard_.val, 38, 8⟩⟩) := rfl
  have hout : JyTcpServer.onSockRead bare.cipher bare.md5 bare.visitCode_ bare.hostInfo
      (some (.new bare.cert)) bareFresh symPacket = .ok ⟨some symConn, some symAck, [], none⟩ := rfl
  have hsym := Step.packet (S := bare) (Function.update_self 0 _ init) hout
  have hhonest : Honest bare (.new bare.cert) symPacket bareFresh.block := by
    intro r hr
    obtain rfl := Option.some.inj (Except.ok.inj (hread.symm.trans hr))
    refine ⟨by decide, fun _ digest hdigest => ?_⟩
    exact (Except.ok.inj hdigest).symm
  have hlive : (Function.update (Function.update init 0 (.live (.new bare.cert))) 0 (.live symConn) : State) 0
      = .live symConn := Function.update_self _ _ _
  obtain ⟨r, hdel, hcarries⟩ := onSockRead_symDelPacket
  have htype : r.packetType = FmCmdFileDel := hcarries.packetType
  have hran : JyTcpServer.onSockRead bare.cipher bare.md5 bare.visitCode_ bare.hostInfo (some symConn) bareFresh
      symDelPacket = .ok ⟨some symConn, none, [], some r⟩ := by
    rw [JyTcpServer.onSockRead, hdel]
    dsimp only
    rw [htype, if_neg (by decide), if_neg (by decide)]
  have hobs : observe bare symConn bareFresh symDelPacket ⟨some symConn, none, [], some r⟩ = .ran .delFileOp_ := by
    rw [observe]
    dsimp only
    rw [htype]
    rfl
  have hserved := Step.packet (S := bare) hlive hran
  rw [hobs] at hserved
  have hsymGuarded : Guarded bare (Function.update init 0 (.live (.new bare.cert)))
      (.packet 0 symPacket bareFresh (.exchangedSym bare.digest)) := by
    intro l hl _
    rw [Function.update_self] at hl
    obtain rfl := Conn.live.inj hl
    exact hhonest
  have hguarded : Guarded bare (Function.update (Function.update init 0 (.live (.new bare.cert))) 0 (.live symConn))
      (.packet 0 symDelPacket bareFresh (.ran .delFileOp_)) := by
    intro l hl hdec
    obtain rfl := Conn.live.inj (hlive.symm.trans hl)
    exact absurd rfl hdec
  have haccept : Run (restrict (Step bare) (Guarded bare)) init [.accept 0] _ := .single ⟨accept_bare, trivial⟩
  have hexchange := haccept.snoc ⟨hsym, hsymGuarded⟩
  have hrun : Run (restrict (Step bare) (Guarded bare)) init servedRun _ := hexchange.snoc ⟨hserved, hguarded⟩
  exact ⟨⟨_, hrun⟩, authenticated_of_run bare hrun⟩

/-- The deletion of a file, right after the connection was accepted. -/
def delRun : List (Event bare.pool.unitSize_) :=
  [.accept 0, .packet 0 (clearPacket FmCmdFileDel) bareFresh (.ran .delFileOp_)]

/-- **A peer that was only accepted has a file deleted.** -/
theorem delRun_not_authenticated : (∃ s, Run (Step bare) init delRun s) ∧ ¬ Authenticated bare delRun := by
  have hout : JyTcpServer.onSockRead bare.cipher bare.md5 bare.visitCode_ bare.hostInfo
      (some (.new bare.cert)) bareFresh (clearPacket FmCmdFileDel)
      = .ok ⟨some (.new bare.cert), none, [], some ⟨FmCmdFileDel, clearStream FmCmdFileDel⟩⟩ := rfl
  refine ⟨⟨_, (Run.single accept_bare).snoc (.packet (Function.update_self 0 _ init) hout)⟩, fun h => ?_⟩
  obtain ⟨buf, fresh, hmem⟩ := h [.accept 0] 0 _ bareFresh .delFileOp_ [] rfl
  cases List.mem_singleton.mp hmem

end Authentication

end EuhatExpert
