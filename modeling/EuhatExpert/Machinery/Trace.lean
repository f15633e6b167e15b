import Mathlib.Data.List.Basic

/-!
# Machinery/Trace — calls on a state, and the log they leave

A program of type `TraceM ε σ ω α` makes calls on a state of type `σ`, may fail with an `ε`, and writes
each call to a log; several calls may act as one.  `Only P m` says that every call `m` makes meets `P`, whether `m` fails or not; it is
closed under the ways programs are put together.  `Yields m w a w'` says what `m` comes to in the state
`w`, whatever was logged before, and `Returns P m` that it comes to something everywhere.
-/

namespace EuhatExpert.Machinery

/-- A state, and the calls made on it so far. -/
structure Traced (σ ω : Type) where
  state : σ
  log : List ω

/-- A program: it may fail, and what it did is logged then as well. -/
abbrev TraceM (ε σ ω : Type) := EStateM ε (Traced σ ω)

namespace TraceM

variable {ε σ ω α β : Type}

/-- Make the calls `ops`, which together act as `f`. -/
def call (ops : List ω) (f : σ → α × σ) : TraceM ε σ ω α := fun s =>
  .ok (f s.state).1 ⟨(f s.state).2, s.log ++ ops⟩

/-- What a program leaves, with or without a result. -/
def finish : EStateM.Result ε (Traced σ ω) α → Traced σ ω
  | .ok _ s => s
  | .error _ s => s

@[simp] theorem run_call (ops : List ω) (f : σ → α × σ) (s : Traced σ ω) :
    (call ops f : TraceM ε σ ω α).run s = .ok (f s.state).1 ⟨(f s.state).2, s.log ++ ops⟩ := rfl

/-- Every call meets `P`. -/
def Only (P : ω → Prop) (m : TraceM ε σ ω α) : Prop :=
  ∀ s, ∃ ops, (finish (m.run s)).log = s.log ++ ops ∧ ∀ op ∈ ops, P op

variable {P : ω → Prop}

/-- **One program behind another** makes the calls of both. -/
theorem Only.bind {m : TraceM ε σ ω α} {f : α → TraceM ε σ ω β} (h : Only P m)
    (hf : ∀ a, Only P (f a)) : Only P (m >>= f) := by
  intro s
  obtain ⟨ops, hops, hP⟩ := h s
  rw [EStateM.run_bind]
  cases hm : m.run s with
  | error e s' =>
    rw [hm] at hops
    exact ⟨ops, hops, hP⟩
  | ok a s' =>
    rw [hm] at hops
    obtain ⟨ops', hops', hP'⟩ := hf a s'
    refine ⟨ops ++ ops', ?_, fun op hop => (List.mem_append.mp hop).elim (hP op) (hP' op)⟩
    rw [← List.append_assoc, ← hops]
    exact hops'

/-- Both branches are to meet `P`. -/
theorem Only.ite {c : Prop} [Decidable c] {m m' : TraceM ε σ ω α} (h : Only P m) (h' : Only P m') :
    Only P (if c then m else m') := by
  split_ifs
  · exact h
  · exact h'

/-- A result that may be a failure. -/
def ofExcept : Except ε α → TraceM ε σ ω α
  | .ok a => pure a
  | .error e => throw e

/-- From `w` the program ends in `w'` with the result `a`. -/
def Yields (m : TraceM ε σ ω α) (w : σ) (a : α) (w' : σ) : Prop :=
  ∀ log, ∃ log', m.run ⟨w, log⟩ = .ok a ⟨w', log'⟩

variable {m : TraceM ε σ ω α} {w w' w'' : σ} {a : α}

/-- A value leaves the state as it is. -/
theorem yields_pure (a : α) (w : σ) : Yields (pure a : TraceM ε σ ω α) w a w :=
  fun log => ⟨log, rfl⟩

/-- A call comes to what it acts as. -/
theorem yields_call (ops : List ω) (f : σ → α × σ) (w : σ) :
    Yields (call ops f : TraceM ε σ ω α) w (f w).1 (f w).2 :=
  fun log => ⟨log ++ ops, rfl⟩

/-- **One program behind another** starts where the first ended. -/
theorem Yields.bind {f : α → TraceM ε σ ω β} {b : β} (h : Yields m w a w')
    (hf : Yields (f a) w' b w'') : Yields (m >>= f) w b w'' := by
  intro log
  obtain ⟨log', h⟩ := h log
  obtain ⟨log'', hf⟩ := hf log'
  exact ⟨log'', by rw [EStateM.run_bind, h]; exact hf⟩

/-- A program on a state, with nothing logged before and the log dropped. -/
def exec (m : TraceM ε σ ω α) (w : σ) : Option (α × σ) :=
  match m.run ⟨w, []⟩ with
  | .ok a s => some (a, s.state)
  | .error _ _ => none

/-- What is made of a result changes nothing. -/
theorem exec_bind_pure (m : TraceM ε σ ω α) (f : α → β) (w : σ) :
    exec (m >>= fun a => pure (f a)) w = (exec m w).map fun x => (f x.1, x.2) := by
  rw [exec, exec, EStateM.run_bind]
  cases m.run ⟨w, []⟩ with
  | ok a s => rfl
  | error e s => rfl

theorem exec_pure (a : α) (w : σ) : exec (pure a : TraceM ε σ ω α) w = some (a, w) := rfl

/-- What a program comes to is what its execution gives. -/
theorem Yields.exec_eq (h : Yields m w a w') : exec m w = some (a, w') := by
  obtain ⟨log, h⟩ := h []
  rw [exec, h]

/-! ## Programs that come to something -/

/-- From every state the program ends without a failure, with a result that meets `P`. -/
def Returns (P : α → Prop) (m : TraceM ε σ ω α) : Prop := ∀ w, ∃ a w', Yields m w a w' ∧ P a

variable {P : α → Prop} {Q : β → Prop}

/-- A value comes to itself. -/
theorem returns_pure {a : α} (h : P a) : Returns P (pure a : TraceM ε σ ω α) :=
  fun w => ⟨a, w, yields_pure a w, h⟩

/-- A call never fails. -/
theorem returns_call {ops : List ω} {f : σ → α × σ} (h : ∀ w, P (f w).1) :
    Returns P (call ops f : TraceM ε σ ω α) :=
  fun w => ⟨_, _, yields_call ops f w, h w⟩

/-- **One program behind another** comes to something, if the second does for all that the first may give. -/
theorem Returns.bind {f : α → TraceM ε σ ω β} (h : Returns P m) (hf : ∀ a, P a → Returns Q (f a)) :
    Returns Q (m >>= f) := by
  intro w
  obtain ⟨a, w', hm, ha⟩ := h w
  obtain ⟨b, w'', hb, hQ⟩ := hf a ha w'
  exact ⟨b, w'', hm.bind hb, hQ⟩

/-- A branch may use that it was taken. -/
theorem Returns.ite {c : Prop} [Decidable c] {m' : TraceM ε σ ω α} (h : c → Returns P m)
    (h' : ¬ c → Returns P m') : Returns P (if c then m else m') := by
  split_ifs with hc
  · exact h hc
  · exact h' hc

/-- A result that meets `P` meets all that follows from it. -/
theorem Returns.mono {P' : α → Prop} (h : Returns P m) (hP : ∀ a, P a → P' a) : Returns P' m := by
  intro w
  obtain ⟨a, w', hm, ha⟩ := h w
  exact ⟨a, w', hm, hP a ha⟩

/-! ## What a program may come to -/

/-- From `w` the program may end in `w'` with the result `a`. -/
def Ends (m : TraceM ε σ ω α) (w : σ) (a : α) (w' : σ) : Prop :=
  ∃ log log', m.run ⟨w, log⟩ = .ok a ⟨w', log'⟩

/-- What an execution gives is one of the things a program may come to. -/
theorem ends_of_exec (h : exec m w = some (a, w')) : Ends m w a w' := by
  rw [exec] at h
  cases hrun : m.run ⟨w, []⟩ with
  | ok b s =>
    rw [hrun] at h
    obtain ⟨rfl, rfl⟩ := Prod.mk.inj (Option.some.inj h)
    exact ⟨[], s.log, hrun⟩
  | error e s =>
    rw [hrun] at h
    cases h

/-- A value comes to itself in the state it was met in. -/
theorem ends_pure {b : α} (h : Ends (pure b : TraceM ε σ ω α) w a w') : a = b ∧ w' = w := by
  obtain ⟨log, log', h⟩ := h
  cases h
  exact ⟨rfl, rfl⟩

/-- A failure comes to nothing. -/
theorem ends_throw {e : ε} : ¬ Ends (throw e : TraceM ε σ ω α) w a w' := by
  rintro ⟨log, log', h⟩
  cases h

/-- A call comes to what it acts as, and to nothing else. -/
theorem ends_call {ops : List ω} {f : σ → α × σ} (h : Ends (call ops f : TraceM ε σ ω α) w a w') :
    f w = (a, w') := by
  obtain ⟨log, log', h⟩ := h
  cases h
  rfl

/-- **What two programs come to goes through what the first came to.** -/
theorem Ends.bind {f : α → TraceM ε σ ω β} {b : β} (h : Ends (m >>= f) w b w'') :
    ∃ a w', Ends m w a w' ∧ Ends (f a) w' b w'' := by
  obtain ⟨log, log', h⟩ := h
  rw [EStateM.run_bind] at h
  cases hrun : m.run ⟨w, log⟩ with
  | ok a s =>
    rw [hrun] at h
    exact ⟨a, s.state, ⟨log, s.log, hrun⟩, s.log, log', h⟩
  | error e s =>
    rw [hrun] at h
    cases h

/-- A program that comes to something comes to nothing else. -/
theorem Yields.eq_of_ends {b : α} (h : Yields m w a w') (hb : Ends m w b w'') : b = a ∧ w'' = w' := by
  obtain ⟨log, log', hb⟩ := hb
  obtain ⟨log'', h⟩ := h log
  rw [h] at hb
  cases hb
  exact ⟨rfl, rfl⟩

end TraceM

end EuhatExpert.Machinery
