import Mathlib.Data.List.Infix
import Mathlib.Data.List.Count
import Mathlib.Data.List.DropRight

/-!
# Machinery/Walk — walking up and down a tree of names

A walk starts in a folder and takes names one after another; a name may lead nowhere, up, or down to the
folder of that name.  At the root, up leads nowhere.  A walk that starts no deeper than a folder ends in or
under it exactly if it once stood there and then never went up more often than down (`prefix_walk_iff`).
-/

namespace EuhatExpert.Machinery

/-- Where a name leads. -/
inductive Move
  | stay
  | up
  | down
  deriving DecidableEq, Repr

variable {α : Type*} (move : α → Move)

/-- The folder a name leads to, as the names from the root to it. -/
def Move.apply (dir : List α) (name : α) : List α :=
  match move name with
  | .stay => dir
  | .up => dir.dropLast
  | .down => dir ++ [name]

def walk (dir names : List α) : List α := names.foldl (Move.apply move) dir

/-- How often names lead up. -/
def ups (names : List α) : ℕ := names.countP fun name => move name = .up

/-- How often names lead down. -/
def downs (names : List α) : ℕ := names.countP fun name => move name = .down

/-- Names that never lead up more often than down. -/
def Below (names : List α) : Prop := ∀ front, front <+: names → ups move front ≤ downs move front

variable {move} {start dir names names' : List α} {name : α}

theorem walk_concat : walk move dir (names ++ [name]) = Move.apply move (walk move dir names) name := by
  rw [walk, List.foldl_append]
  rfl

theorem walk_append : walk move dir (names ++ names') = walk move (walk move dir names) names' :=
  List.foldl_append

theorem walk_of_down (h : ∀ name ∈ names, move name = .down) : walk move dir names = dir ++ names := by
  induction names using List.reverseRecOn with
  | nil => exact (List.append_nil dir).symm
  | append_singleton names name ih =>
    rw [walk_concat, ih fun n hn => h n (List.mem_append_left _ hn), Move.apply,
      h name (List.mem_append_right _ List.mem_cons_self), List.append_assoc]

theorem below_nil : Below move ([] : List α) := by
  intro front hfront
  rw [List.prefix_nil.mp hfront]
  exact le_rfl

theorem ups_concat : ups move (names ++ [name]) = ups move names + if move name = .up then 1 else 0 := by
  simp [ups, List.countP_append, List.countP_singleton]

theorem downs_concat :
    downs move (names ++ [name]) = downs move names + if move name = .down then 1 else 0 := by
  simp [downs, List.countP_append, List.countP_singleton]

theorem below_concat_iff : Below move (names ++ [name]) ↔
    Below move names ∧ ups move (names ++ [name]) ≤ downs move (names ++ [name]) := by
  refine ⟨fun h => ⟨fun front hfront => h front (hfront.trans (List.prefix_append _ _)),
    h _ List.prefix_rfl⟩, fun ⟨h, hlast⟩ front hfront => ?_⟩
  rcases List.prefix_concat_iff.mp hfront with rfl | hfront
  · exact hlast
  · exact h front hfront

/-- **A walk that stays below its start goes down from it** by the difference. -/
theorem prefix_walk_of_below (h : Below move names) :
    dir <+: walk move dir names ∧ (walk move dir names).length + ups move names = dir.length + downs move names := by
  induction names using List.reverseRecOn with
  | nil => exact ⟨List.prefix_rfl, rfl⟩
  | append_singleton names name ih =>
    obtain ⟨hbelow, hlast⟩ := below_concat_iff.mp h
    obtain ⟨hpre, hlen⟩ := ih hbelow
    rw [walk_concat, Move.apply]
    rw [ups_concat, downs_concat] at hlast ⊢
    cases hmove : move name with
    | stay =>
      rw [hmove] at hlast
      exact ⟨hpre, by simpa using hlen⟩
    | down =>
      refine ⟨hpre.trans (List.prefix_append _ _), ?_⟩
      rw [List.length_append, List.length_singleton, if_neg (by decide), if_pos rfl]
      omega
    | up =>
      rw [hmove, if_pos rfl, if_neg (by decide)] at hlast
      have hlt : dir.length < (walk move dir names).length := by omega
      refine ⟨?_, ?_⟩
      · rw [List.dropLast_eq_take]
        exact List.prefix_take_iff.mpr ⟨hpre, by omega⟩
      · rw [List.length_dropLast, if_pos rfl, if_neg (by decide)]
        omega

/-- **A walk that starts no deeper than a folder ends in or under it exactly if it once stood there and then
stayed below.** -/
theorem prefix_walk_iff (hstart : start.length ≤ dir.length) : dir <+: walk move start names ↔
    ∃ front back, names = front ++ back ∧ walk move start front = dir ∧ Below move back := by
  refine ⟨fun h => ?_, ?_⟩
  · induction names using List.reverseRecOn with
    | nil => exact ⟨[], [], rfl, (h.eq_of_length_le hstart).symm, below_nil⟩
    | append_singleton names name ih =>
      rw [walk_concat] at h
      by_cases hhere : Move.apply move (walk move start names) name = dir
      · exact ⟨names ++ [name], [], (List.append_nil _).symm, walk_concat.trans hhere, below_nil⟩
      -- the walk has been in the folder before
      have hbefore : dir <+: walk move start names := by
        rw [Move.apply] at h hhere
        cases hmove : move name with
        | stay =>
          rw [hmove] at h
          exact h
        | up =>
          rw [hmove] at h
          exact h.trans (List.dropLast_prefix _)
        | down =>
          rw [hmove] at h hhere
          exact (List.prefix_concat_iff.mp h).resolve_left fun heq => hhere heq.symm
      obtain ⟨front, back, rfl, hfront, hback⟩ := ih hbefore
      refine ⟨front, back ++ [name], (List.append_assoc _ _ _), hfront, below_concat_iff.mpr ⟨hback, ?_⟩⟩
      have hlen : (walk move dir back).length + ups move back = dir.length + downs move back :=
        (prefix_walk_of_below hback).2
      have hle := h.length_le
      rw [walk_append, hfront] at h hhere hle
      rw [ups_concat, downs_concat]
      have hbelow := hback back List.prefix_rfl
      rw [Move.apply] at hle hhere
      cases hmove : move name with
      | stay => simpa using hbelow
      | down =>
        rw [if_neg (by decide), if_pos rfl]
        omega
      | up =>
        rw [hmove] at hle hhere
        rw [List.length_dropLast] at hle
        rw [if_pos rfl, if_neg (by decide)]
        have hlong : (walk move dir back).length ≠ dir.length := by
          intro heq
          have hnil : dir = [] := List.length_eq_zero_iff.mp (by omega)
          have hwalk : walk move dir back = [] := List.length_eq_zero_iff.mp (by rw [heq, hnil]; rfl)
          exact hhere (by rw [hwalk, hnil]; rfl)
        omega
  · rintro ⟨front, back, rfl, rfl, hback⟩
    rw [walk_append]
    exact (prefix_walk_of_below hback).1

end EuhatExpert.Machinery
