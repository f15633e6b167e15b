import EuhatExpert.Machinery.Run
import Mathlib.Logic.Relation
import Mathlib.Logic.Function.Iterate

/-!
# Machinery/Exchange — one request at a time, over a line that breaks

    client ──asked r──▸ server ──answered a──▸ client        cut: asked r ──▸ stray r, answered ──▸ idle

The line may be cut at any time.  A request on its way is then served before the next one is sent, or
not at all, and its answer is lost.  Meanwhile others may change either side, within what the exchange
allows for.

A `Turn` is a request sent, served and answered.  When requests repeat, every state is that of a single
turn under way, from a state that turns alone lead to (`underway_of_run`).
-/

namespace EuhatExpert.Machinery

/-- The changes others may make, step by step or at once. -/
structure Drift (α : Type*) where
  Rel : α → α → Prop
  refl : ∀ a, Rel a a
  trans : ∀ {a b c}, Rel a b → Rel b c → Rel a c

namespace Drift

/-- Others change anything but `f`. -/
def keep {α β : Type*} (f : α → β) : Drift α where
  Rel a b := f b = f a
  refl _ := rfl
  trans h h' := h'.trans h

/-- A change of the second part of a pair. -/
def second (β : Type*) {α : Type*} (d : Drift α) : Drift (β × α) where
  Rel a b := b.1 = a.1 ∧ d.Rel a.2 b.2
  refl a := ⟨rfl, d.refl a.2⟩
  trans h h' := ⟨h'.1.trans h.1, d.trans h.2 h'.2⟩

end Drift

/-- A client of states `C` and a server of states `D`, and what others do to them. -/
structure Exchange (C D Req Ack : Type*) where
  send : C → Option (C × Option Req)
  serve : Req → D → Option (Ack × D)
  receive : Ack → C → Option C
  onClient : Drift C
  onServer : Drift D

namespace Exchange

/-- What is on the line.  A `stray` request may still be served, its answer reaches nobody. -/
inductive Wire (Req Ack : Type*)
  | idle
  | asked (r : Req)
  | answered (a : Ack)
  | stray (r : Req)

namespace Wire

variable {Req Ack : Type*}

/-- What a cut leaves. -/
def cut : Wire Req Ack → Wire Req Ack
  | asked r => stray r
  | answered _ => idle
  | w => w

/-- A request may be sent. -/
def Free : Wire Req Ack → Prop
  | idle | stray _ => True
  | _ => False

/-- Nothing but the request `r`, if anything. -/
def Carries (r : Req) (w : Wire Req Ack) : Prop := w = idle ∨ w = asked r ∨ w = stray r

theorem Carries.cut {r : Req} {w : Wire Req Ack} (h : w.Carries r) : w.cut.Carries r := by
  rcases h with rfl | rfl | rfl
  · exact .inl rfl
  · exact .inr (.inr rfl)
  · exact .inr (.inr rfl)

end Wire

structure State (C D Req Ack : Type*) where
  client : C
  server : D
  wire : Wire Req Ack

inductive Event (Req Ack : Type*)
  | send
  | serve (r : Req) (a : Ack)
  | receive
  | cut
  | drift

variable {C D Req Ack : Type*} (P : Exchange C D Req Ack)

inductive Step : State C D Req Ack → Event Req Ack → State C D Req Ack → Prop
  | still {c c' d w} : w.Free → P.send c = some (c', none) → Step ⟨c, d, w⟩ .send ⟨c', d, w⟩
  | send {c c' d w r} : w.Free → P.send c = some (c', some r) →
      Step ⟨c, d, w⟩ .send ⟨c', d, .asked r⟩
  | serve {c d d' r a} : P.serve r d = some (a, d') →
      Step ⟨c, d, .asked r⟩ (.serve r a) ⟨c, d', .answered a⟩
  | late {c d d' r a} : P.serve r d = some (a, d') → Step ⟨c, d, .stray r⟩ (.serve r a) ⟨c, d', .idle⟩
  | receive {c c' d a} : P.receive a c = some c' →
      Step ⟨c, d, .answered a⟩ .receive ⟨c', d, .idle⟩
  | cut {c d w} : Step ⟨c, d, w⟩ .cut ⟨c, d, w.cut⟩
  | drift {c c' d d' w} : P.onClient.Rel c c' → P.onServer.Rel d d' →
      Step ⟨c, d, w⟩ .drift ⟨c', d', w⟩

/-- The step loses the answer `a`. -/
def Loses (s : State C D Req Ack) (e : Event Req Ack) (a : Ack) : Prop :=
  match s.wire, e with
  | .answered b, .cut => b = a
  | .stray _, .serve _ b => b = a
  | _, _ => False

theorem Loses.cases {s : State C D Req Ack} {e : Event Req Ack} {a : Ack} (h : Loses s e a) :
    (s.wire = .answered a ∧ e = .cut) ∨ ∃ r q, s.wire = .stray r ∧ e = .serve q a := by
  obtain ⟨c, d, w⟩ := s
  cases w with
  | idle => exact h.elim
  | asked r => exact h.elim
  | answered b =>
    cases e with
    | cut => exact .inl ⟨congrArg _ h, rfl⟩
    | _ => exact h.elim
  | stray r =>
    cases e with
    | serve q b => exact .inr ⟨r, q, rfl, congrArg _ h⟩
    | _ => exact h.elim

/-! ## Turns -/

/-- A turn without a cut; what others do counts as one. -/
inductive Turn : C × D → C × D → Prop
  | still {c c' d} : P.send c = some (c', none) → Turn (c, d) (c', d)
  | full {c c₁ c₂ c' d d' r a} : P.send c = some (c₁, some r) → P.onClient.Rel c₁ c₂ →
      P.serve r d = some (a, d') → P.receive a c₂ = some c' → Turn (c, d) (c', d')
  | drift {c c' d d'} : P.onClient.Rel c c' → P.onServer.Rel d d' → Turn (c, d) (c', d')

abbrev Turns : C × D → C × D → Prop := Relation.ReflTransGen P.Turn

/-- What the client sends in `c`, it sends again. -/
def Resends (c : C) : Prop :=
  ∀ c₁ c₂ r, P.send c = some (c₁, some r) → P.onClient.Rel c₁ c₂ →
    ∃ c₃, P.send c₂ = some (c₃, some r) ∧ P.onClient.Rel c₂ c₃

/-- When `r` is answered with `a` in `d`, it is answered so again, with no more effect than others
have. -/
def Repeats (d : D) (r : Req) (a : Ack) : Prop :=
  ∀ d₁ d₂, P.serve r d = some (a, d₁) → P.onServer.Rel d₁ d₂ →
    ∃ d₃, P.serve r d₂ = some (a, d₃) ∧ P.onServer.Rel d₂ d₃

/-- A state in which a turn from `(c, d)` is under way: nothing sent; sent, and perhaps lost; served;
served, and its answer lost. -/
inductive Underway (c : C) (d : D) : State C D Req Ack → Prop
  | rest : Underway c d ⟨c, d, .idle⟩
  | sent {c₁ c₂ r w} : P.send c = some (c₁, some r) → P.onClient.Rel c₁ c₂ → w.Carries r →
      Underway c d ⟨c₂, d, w⟩
  | served {c₁ c₂ d₁ d₂ r a} : P.send c = some (c₁, some r) → P.onClient.Rel c₁ c₂ →
      P.serve r d = some (a, d₁) → P.onServer.Rel d₁ d₂ → Underway c d ⟨c₂, d₂, .answered a⟩
  | again {c₁ c₂ d₁ d₂ r a w} : P.send c = some (c₁, some r) → P.onClient.Rel c₁ c₂ →
      P.serve r d = some (a, d₁) → P.onServer.Rel d₁ d₂ → P.Repeats d r a → w.Carries r →
      Underway c d ⟨c₂, d₂, w⟩

variable {P} {c : C} {d : D} {s s' : State C D Req Ack} {e : Event Req Ack}

/-- **One step, from one turn under way to one under way.** -/
theorem Underway.step (h : P.Underway c d s) (hs : P.Step s e s') (hre : P.Resends c)
    (hrep : ∀ c₁ r a, P.send c = some (c₁, some r) → Loses s e a → P.Repeats d r a) :
    ∃ c' d', P.Turns (c, d) (c', d') ∧ P.Underway c' d' s' := by
  cases h with
  | rest =>
    cases hs with
    | still _ hsend => exact ⟨_, _, .single (.still hsend), .rest⟩
    | send _ hsend => exact ⟨c, d, .refl, .sent hsend (P.onClient.refl _) (.inr (.inl rfl))⟩
    | cut => exact ⟨c, d, .refl, .rest⟩
    | drift hc hd => exact ⟨_, _, .single (.drift hc hd), .rest⟩
  | @sent c₁ c₂ r w hsend hc hw =>
    cases hs with
    | still _ hstill =>
      obtain ⟨c₃, hagain, -⟩ := hre c₁ c₂ r hsend hc
      rw [hagain] at hstill
      cases hstill
    | send _ hsend' =>
      obtain ⟨c₃, hagain, hc'⟩ := hre c₁ c₂ r hsend hc
      rw [hagain] at hsend'
      cases hsend'
      exact ⟨c, d, .refl, .sent hsend (P.onClient.trans hc hc') (.inr (.inl rfl))⟩
    | serve hserve =>
      obtain h | h | h := hw
      · cases h
      · cases h
        exact ⟨c, d, .refl, .served hsend hc hserve (P.onServer.refl _)⟩
      · cases h
    | late hserve =>
      obtain h | h | h := hw
      · cases h
      · cases h
      · cases h
        exact ⟨c, d, .refl, .again hsend hc hserve (P.onServer.refl _) (hrep _ _ _ hsend rfl) (.inl rfl)⟩
    | receive _ =>
      obtain h | h | h := hw
      all_goals cases h
    | cut => exact ⟨c, d, .refl, .sent hsend hc hw.cut⟩
    | drift hc' hd =>
      exact ⟨c, _, .single (.drift (P.onClient.refl c) hd), .sent hsend (P.onClient.trans hc hc') hw⟩
  | @served c₁ c₂ d₁ d₂ r a hsend hc hserve hd =>
    cases hs with
    | still hfree _ => exact hfree.elim
    | send hfree _ => exact hfree.elim
    | receive hreceive =>
      exact ⟨_, _, .tail (.single (.full hsend hc hserve hreceive))
        (.drift (P.onClient.refl _) hd), .rest⟩
    | cut => exact ⟨c, d, .refl, .again hsend hc hserve hd (hrep _ _ _ hsend rfl) (.inl rfl)⟩
    | drift hc' hd' =>
      exact ⟨c, d, .refl, .served hsend (P.onClient.trans hc hc') hserve (P.onServer.trans hd hd')⟩
  | @again c₁ c₂ d₁ d₂ r a w hsend hc hserve hd hr hw =>
    cases hs with
    | still _ hstill =>
      obtain ⟨c₃, hagain, -⟩ := hre c₁ c₂ r hsend hc
      rw [hagain] at hstill
      cases hstill
    | send _ hsend' =>
      obtain ⟨c₃, hagain, hc'⟩ := hre c₁ c₂ r hsend hc
      rw [hagain] at hsend'
      cases hsend'
      exact ⟨c, d, .refl, .again hsend (P.onClient.trans hc hc') hserve hd hr (.inr (.inl rfl))⟩
    | serve hserve' =>
      obtain ⟨d₃, hrepeat, hd'⟩ := hr d₁ d₂ hserve hd
      obtain h | h | h := hw
      · cases h
      · cases h
        rw [hrepeat] at hserve'
        cases hserve'
        exact ⟨c, d, .refl, .served hsend hc hserve (P.onServer.trans hd hd')⟩
      · cases h
    | late hserve' =>
      obtain ⟨d₃, hrepeat, hd'⟩ := hr d₁ d₂ hserve hd
      obtain h | h | h := hw
      · cases h
      · cases h
      · cases h
        rw [hrepeat] at hserve'
        cases hserve'
        exact ⟨c, d, .refl, .again hsend hc hserve (P.onServer.trans hd hd') hr (.inl rfl)⟩
    | receive _ =>
      obtain h | h | h := hw
      all_goals cases h
    | cut => exact ⟨c, d, .refl, .again hsend hc hserve hd hr hw.cut⟩
    | drift hc' hd' =>
      exact ⟨c, d, .refl,
        .again hsend (P.onClient.trans hc hc') hserve (P.onServer.trans hd hd') hr hw⟩

/-- **Cuts change nothing but the time it takes** — in a run whose lost answers repeat, one turn is under
way, from a state that turns alone lead to. -/
theorem underway_of_run {c₀ : C} {d₀ : D} {Q : State C D Req Ack → Event Req Ack → Prop}
    {es : List (Event Req Ack)} (hre : ∀ c d, P.Turns (c₀, d₀) (c, d) → P.Resends c)
    (hrep : ∀ c d c₁ r a s e, P.Turns (c₀, d₀) (c, d) → P.send c = some (c₁, some r) → Q s e →
      Loses s e a → P.Repeats d r a)
    (h : Run (restrict P.Step Q) ⟨c₀, d₀, .idle⟩ es s) :
    ∃ c d, P.Turns (c₀, d₀) (c, d) ∧ P.Underway c d s := by
  refine h.invariant (I := fun s => ∃ c d, P.Turns (c₀, d₀) (c, d) ∧ P.Underway c d s)
    ⟨c₀, d₀, .refl, .rest⟩ ?_
  rintro s e s' ⟨c, d, hturns, hunder⟩ ⟨hstep, hQ⟩
  obtain ⟨c', d', hturns', hunder'⟩ := hunder.step hstep (hre c d hturns)
    fun c₁ r a hsend hlose => hrep c d c₁ r a s e hturns hsend hQ hlose
  exact ⟨c', d', hturns.trans hturns', hunder'⟩

/-! ## Turns with nobody else about -/

variable (P) in
/-- The next turn, where there is one. -/
def turn (x : C × D) : C × D :=
  match P.send x.1 with
  | none => x
  | some (c₁, none) => (c₁, x.2)
  | some (c₁, some r) => match P.serve r x.2 with
    | none => x
    | some (a, d') => match P.receive a c₁ with
      | none => x
      | some c' => (c', d')

theorem Turn.eq_turn (hc : ∀ c c', P.onClient.Rel c c' → c' = c)
    (hd : ∀ d d', P.onServer.Rel d d' → d' = d) {x y : C × D} (h : P.Turn x y) : y = x ∨ y = P.turn x := by
  cases h with
  | still hsend => exact .inr (by rw [turn, hsend])
  | full hsend hdrift hserve hreceive =>
    cases hc _ _ hdrift
    exact .inr (by simp only [turn, hsend, hserve, hreceive])
  | drift hdrift hdrift' =>
    cases hc _ _ hdrift
    cases hd _ _ hdrift'
    exact .inl rfl

/-- With nobody else about, turns are the turns of one sequence. -/
theorem Turns.eq_iterate (hc : ∀ c c', P.onClient.Rel c c' → c' = c)
    (hd : ∀ d d', P.onServer.Rel d d' → d' = d) {x y : C × D} (h : P.Turns x y) :
    ∃ n, y = P.turn^[n] x := by
  induction h with
  | refl => exact ⟨0, rfl⟩
  | tail _ hturn ih =>
    obtain ⟨n, rfl⟩ := ih
    obtain h | h := hturn.eq_turn hc hd
    · exact ⟨n, h⟩
    · exact ⟨n + 1, by rw [Function.iterate_succ_apply', h]⟩

/-- Where turns no longer lead on, they have led to one place. -/
theorem turn_iterate_eq {x : C × D} {m n : ℕ} (hm : P.turn (P.turn^[m] x) = P.turn^[m] x)
    (hn : P.turn (P.turn^[n] x) = P.turn^[n] x) : P.turn^[m] x = P.turn^[n] x := by
  have hm' : ∀ k, P.turn^[k] (P.turn^[m] x) = P.turn^[m] x := fun k => Function.iterate_fixed hm k
  have hn' : ∀ k, P.turn^[k] (P.turn^[n] x) = P.turn^[n] x := fun k => Function.iterate_fixed hn k
  calc P.turn^[m] x = P.turn^[n] (P.turn^[m] x) := (hm' n).symm
    _ = P.turn^[m] (P.turn^[n] x) := by
      rw [← Function.iterate_add_apply, ← Function.iterate_add_apply, Nat.add_comm]
    _ = P.turn^[n] x := hn' m

end Exchange

end EuhatExpert.Machinery
