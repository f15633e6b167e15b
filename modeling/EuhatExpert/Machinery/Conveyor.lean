import EuhatExpert.Machinery.Run
import Mathlib.Data.List.Perm.Basic

/-!
# Machinery/Conveyor — a queue served by those who fill it

Whoever puts something on the queue takes one thing off afterwards, which need not be his own, and hands it
on.  However the calls interleave, things are taken in the order they were put (`Accounts.order`), each is
handed on once (`Accounts.once`), and nothing waits when no call is under way (`Accounts.served`); only what
is dropped with the queue is lost (`Accounts.kept`).
-/

namespace EuhatExpert.Machinery

/-- The queue, the calls that have put something and taken nothing yet, and what has been taken and not
handed on. -/
structure Conveyor (α : Type*) where
  queue : List α
  due : ℕ
  held : List α

inductive ConveyorEvent (α : Type*)
  | put (x : α)
  | take
  | hand (x : α)
  | drop

namespace Conveyor

variable {α : Type*} {x : α} {c c' : Conveyor α} {e : ConveyorEvent α} {es : List (ConveyorEvent α)}

def empty : Conveyor α := ⟨[], 0, []⟩

inductive Step : Conveyor α → ConveyorEvent α → Conveyor α → Prop
  | put {c : Conveyor α} (x : α) : Step c (.put x) { c with queue := c.queue ++ [x], due := c.due + 1 }
  | takeNone {c : Conveyor α} {n : ℕ} (hdue : c.due = n + 1) (hq : c.queue = []) :
      Step c .take { c with due := n }
  | take {c : Conveyor α} {n : ℕ} {x : α} {rest : List α} (hdue : c.due = n + 1) (hq : c.queue = x :: rest) :
      Step c .take ⟨rest, n, x :: c.held⟩
  | hand {c : Conveyor α} {before after : List α} {x : α} (hheld : c.held = before ++ x :: after) :
      Step c (.hand x) { c with held := before ++ after }
  | drop {c : Conveyor α} : Step c .drop { c with queue := [] }

/-- What a history puts on the queue. -/
def puts (es : List (ConveyorEvent α)) : List α :=
  es.filterMap fun e => match e with | .put x => some x | _ => none

/-- What a history hands on. -/
def hands (es : List (ConveyorEvent α)) : List α :=
  es.filterMap fun e => match e with | .hand x => some x | _ => none

/-- What has become of the things put on the queue, `taken` being taken so far. -/
structure Accounts (es : List (ConveyorEvent α)) (c : Conveyor α) (taken : List α) : Prop where
  order : (taken ++ c.queue).Sublist (puts es)
  once : (hands es ++ c.held).Perm taken
  served : c.queue.length ≤ c.due
  kept : .drop ∉ es → taken ++ c.queue = puts es

theorem puts_concat (es : List (ConveyorEvent α)) (e : ConveyorEvent α) :
    puts (es ++ [e]) = puts es ++ puts [e] := List.filterMap_append

theorem hands_concat (es : List (ConveyorEvent α)) (e : ConveyorEvent α) :
    hands (es ++ [e]) = hands es ++ hands [e] := List.filterMap_append

/-- **One step keeps the accounts.** -/
theorem Accounts.step {taken : List α} (h : Accounts es c taken) (hstep : Step c e c') :
    ∃ taken', Accounts (es ++ [e]) c' taken' := by
  obtain ⟨horder, honce, hserved, hkept⟩ := h
  have hpast : .drop ∉ es ++ [e] → .drop ∉ es := fun h hmem => h (List.mem_append_left _ hmem)
  cases hstep with
  | put x =>
    have hputs : puts (es ++ [.put x]) = puts es ++ [x] := puts_concat es _
    refine ⟨taken, ?_, ?_, by simpa using hserved, fun h => ?_⟩
    · rw [hputs, ← List.append_assoc]
      exact horder.append_right [x]
    · rw [hands_concat]
      simpa [hands] using honce
    · rw [hputs, ← hkept (hpast h), List.append_assoc]
  | takeNone hdue hq =>
    have hputs : puts (es ++ [.take]) = puts es := (puts_concat es _).trans (List.append_nil _)
    refine ⟨taken, ?_, ?_, by simp [hq], fun h => ?_⟩
    · rwa [hputs]
    · rw [hands_concat]
      simpa [hands] using honce
    · rw [hputs, hkept (hpast h)]
  | @take n x rest hdue hq =>
    have hputs : puts (es ++ [.take]) = puts es := (puts_concat es _).trans (List.append_nil _)
    have hmove : (taken ++ [x]) ++ rest = taken ++ c.queue := by
      rw [hq, List.append_assoc, List.singleton_append]
    refine ⟨taken ++ [x], ?_, ?_, ?_, fun h => ?_⟩
    · rwa [hputs, hmove]
    · have hmid : (hands es ++ x :: c.held).Perm (x :: (hands es ++ c.held)) := List.perm_middle
      rw [hands_concat, show hands [ConveyorEvent.take] = ([] : List α) from rfl, List.append_nil]
      exact hmid.trans ((honce.cons x).trans (List.perm_append_singleton x taken).symm)
    · rw [hq, hdue] at hserved
      exact Nat.le_of_succ_le_succ hserved
    · rw [hputs, hmove, hkept (hpast h)]
  | @hand before after x hheld =>
    have hputs : puts (es ++ [.hand x]) = puts es := (puts_concat es _).trans (List.append_nil _)
    refine ⟨taken, ?_, ?_, hserved, fun h => ?_⟩
    · rwa [hputs]
    · have hmid : (x :: (before ++ after)).Perm (before ++ x :: after) := List.perm_middle.symm
      rw [hheld] at honce
      rw [hands_concat, List.append_assoc]
      exact (hmid.append_left (hands es)).trans honce
    · rw [hputs, hkept (hpast h)]
  | drop =>
    have hputs : puts (es ++ [.drop]) = puts es := (puts_concat es _).trans (List.append_nil _)
    refine ⟨taken, ?_, ?_, Nat.zero_le _, fun h => ?_⟩
    · rw [hputs, List.append_nil]
      exact (List.sublist_append_left _ _).trans horder
    · rw [hands_concat]
      simpa [hands] using honce
    · exact absurd (List.mem_append_right es List.mem_cons_self) h

/-- **The accounts of a run.** -/
theorem accounts_of_run (h : Run Step (empty : Conveyor α) es c) : ∃ taken, Accounts es c taken :=
  h.invariant_hist (I := fun es c => ∃ taken, Accounts es c taken)
    ⟨[], .refl _, .refl _, le_rfl, fun _ => rfl⟩ fun _ _ _ _ ⟨_, hacc⟩ hstep => hacc.step hstep

/-- Where no call is under way and nothing was dropped, everything put has been handed on. -/
theorem Accounts.handed {taken : List α} (h : Accounts es c taken) (hdrop : .drop ∉ es) (hdue : c.due = 0)
    (hheld : c.held = []) : (hands es).Perm (puts es) := by
  have hserved := h.served
  have hkept := h.kept hdrop
  have honce := h.once
  rw [hdue, Nat.le_zero, List.length_eq_zero_iff] at hserved
  rw [hserved, List.append_nil] at hkept
  rwa [hheld, List.append_nil, hkept] at honce

end Conveyor

end EuhatExpert.Machinery
