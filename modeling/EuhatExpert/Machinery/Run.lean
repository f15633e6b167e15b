import Mathlib.Data.List.Basic
import Mathlib.Data.List.Infix

/-!
# Machinery/Run — runs of a labelled machine

A machine is a relation `R s e s'`: in state `s` the event `e` may lead to `s'`.  A **run** is a list
of events with the state it ends in, grown at the far end, so that a property of a run is proved by
one step lemma (`Run.invariant`, `Run.invariant_hist`).

A condition on steps is a smaller machine (`restrict`): its runs are the runs all of whose steps
meet the condition.
-/

namespace EuhatExpert.Machinery

variable {σ ε : Type*}

/-- The events of a run from `s₀`, and the state it ends in. -/
inductive Run (R : σ → ε → σ → Prop) (s₀ : σ) : List ε → σ → Prop
  | nil : Run R s₀ [] s₀
  | snoc {es : List ε} {s : σ} {e : ε} {s' : σ} :
      Run R s₀ es s → R s e s' → Run R s₀ (es ++ [e]) s'

/-- The machine that takes only the steps meeting `C`. -/
def restrict (R : σ → ε → σ → Prop) (C : σ → ε → Prop) : σ → ε → σ → Prop :=
  fun s e s' => R s e s' ∧ C s e

/-- An event of a history that has grown is the new one, with all of the past before it, or was there before. -/
theorem split_of_concat {es before after : List ε} {e c : ε} (h : es ++ [c] = before ++ e :: after) :
    (before = es ∧ e = c) ∨ ∃ after', es = before ++ e :: after' := by
  rcases List.eq_nil_or_concat after with rfl | ⟨after, last, rfl⟩
  · obtain ⟨rfl, hc⟩ := List.append_inj' h rfl
    exact .inl ⟨rfl, (List.singleton_inj.mp hc).symm⟩
  · rw [List.concat_eq_append, ← List.cons_append, ← List.append_assoc] at h
    exact .inr ⟨after, (List.append_inj' h rfl).1⟩

namespace Run

variable {R R' : σ → ε → σ → Prop} {s₀ s s' : σ} {e : ε} {es es' : List ε}

theorem single (h : R s e s') : Run R s [e] s' := nil.snoc h

theorem trans (h : Run R s₀ es s) (h' : Run R s es' s') : Run R s₀ (es ++ es') s' := by
  induction h' with
  | nil => simpa using h
  | snoc _ hr ih => simpa using ih.snoc hr

theorem mono (hR : ∀ s e s', R s e s' → R' s e s') (h : Run R s₀ es s) : Run R' s₀ es s := by
  induction h with
  | nil => exact nil
  | snoc _ hr ih => exact ih.snoc (hR _ _ _ hr)

/-- A run seen through a part of the state: the events that concern the part are a run of its machine, when
the other events leave it as it is. -/
theorem project {τ δ : Type*} {P : τ → δ → τ → Prop} (p : σ → τ) (f : ε → Option δ)
    (hsome : ∀ s e s' d, R s e s' → f e = some d → P (p s) d (p s'))
    (hnone : ∀ s e s', R s e s' → f e = none → p s' = p s) (h : Run R s₀ es s) :
    Run P (p s₀) (es.filterMap f) (p s) := by
  induction h with
  | nil => exact nil
  | @snoc es s e s' _ hr ih =>
    cases hf : f e with
    | none => simpa [List.filterMap_append, hf, hnone s e s' hr hf] using ih
    | some d => simpa [List.filterMap_append, hf] using ih.snoc (hsome s e s' d hr hf)

/-- A restricted run is a run. -/
theorem of_restrict {C : σ → ε → Prop} (h : Run (restrict R C) s₀ es s) : Run R s₀ es s :=
  h.mono fun _ _ _ hr => hr.1

/-- A run takes no steps but its own. -/
theorem restrict_mem (h : Run R s₀ es s) : Run (restrict R fun _ e => e ∈ es) s₀ es s := by
  induction h with
  | nil => exact nil
  | snoc _ hr ih =>
    exact (ih.mono fun _ _ _ hstep => ⟨hstep.1, List.mem_append_left _ hstep.2⟩).snoc
      ⟨hr, List.mem_append_right _ List.mem_cons_self⟩

/-- **The invariant rule.** -/
theorem invariant {I : σ → Prop} (h₀ : I s₀) (hI : ∀ s e s', I s → R s e s' → I s')
    (h : Run R s₀ es s) : I s := by
  induction h with
  | nil => exact h₀
  | snoc _ hr ih => exact hI _ _ _ ih hr

/-- **The invariant rule with history** — the invariant may speak of the events so far. -/
theorem invariant_hist {I : List ε → σ → Prop} (h₀ : I [] s₀)
    (hI : ∀ es s e s', I es s → R s e s' → I (es ++ [e]) s') (h : Run R s₀ es s) : I es s := by
  induction h with
  | nil => exact h₀
  | snoc _ hr ih => exact hI _ _ _ _ ih hr

/-- A run splits where its events do. -/
theorem split (h : Run R s₀ (es ++ es') s') : ∃ s, Run R s₀ es s ∧ Run R s es' s' := by
  induction es' using List.reverseRecOn generalizing s' with
  | nil => exact ⟨s', by simpa using h, nil⟩
  | append_singleton es' e ih =>
    rw [← List.append_assoc] at h
    generalize hes : (es ++ es') ++ [e] = l at h
    cases h with
    | nil => simp at hes
    | @snoc es₁ s₁ e₁ _ h₁ hr =>
      obtain ⟨rfl, he⟩ := List.append_inj' hes rfl
      obtain rfl : e = e₁ := by simpa using he
      obtain ⟨s, hs, hs'⟩ := ih h₁
      exact ⟨s, hs, hs'.snoc hr⟩

theorem eq_of_nil (h : Run R s₀ [] s) : s = s₀ := by
  generalize hes : [] = l at h
  cases h with
  | nil => rfl
  | snoc => simp at hes

/-- A run of one event is a step. -/
theorem step_of_single (h : Run R s [e] s') : R s e s' := by
  generalize hes : [e] = l at h
  cases h with
  | nil => cases hes
  | snoc h₁ hr =>
    obtain ⟨rfl, he⟩ := List.append_inj' (show [] ++ [e] = _ ++ [_] from hes) rfl
    obtain rfl := List.singleton_inj.mp he
    rwa [← h₁.eq_of_nil]

/-- A machine whose runs have a bound has a run that no step goes on with. -/
theorem exists_maximal {N : ℕ} (h : ∀ es s, Run R s₀ es s → es.length ≤ N) :
    ∃ es s, Run R s₀ es s ∧ ∀ e s', ¬ R s e s' := by
  by_contra hnone
  have hlong : ∀ k, ∃ es s, Run R s₀ es s ∧ es.length = k := by
    intro k
    induction k with
    | zero => exact ⟨[], s₀, nil, rfl⟩
    | succ k ih =>
      obtain ⟨es, s, hrun, rfl⟩ := ih
      obtain ⟨e, s', hstep⟩ : ∃ e s', R s e s' := by
        by_contra hstop
        exact hnone ⟨es, s, hrun, fun e s' hstep => hstop ⟨e, s', hstep⟩⟩
      exact ⟨_, s', hrun.snoc hstep, by rw [List.length_append, List.length_singleton]⟩
  obtain ⟨es, s, hrun, hlen⟩ := hlong (N + 1)
  have := h es s hrun
  omega

end Run

end EuhatExpert.Machinery
