import EuhatExpert.FileMan.SubListBytes
import EuhatExpert.Machinery.Chase
import Mathlib.Data.Int.Interval

/-!
# FileMan/ListingEnds — when a listing comes to its end

`dispatchSubList` reads records from wherever the last one sends it, by a signed 16-bit length, until a tag
is neither a folder's nor a file's; it never looks how many bytes there are.  What is read here is the
bytes of the listing and nothing else, and a string only where it is used: a run that reads outside them,
or is still in the loop when its fuel is spent, has no result.  `dispatches_iff`: it has one exactly if the
records are a chase of complete entries to a last tag, and then there are fewer of them than bytes.
-/

namespace EuhatExpert

open Machinery JyDataReadStream

/-! ## The function, a read at a time -/

namespace JyDataReadStream

/-- `getStr`, which returns where the string is. -/
def getStrAt : ReadM ℤ := do
  let len ← get 2
  fun ds => .ok (ds.idx_, { ds with idx_ := ds.idx_ + len })

/-- The string at `p`, as its users read it. -/
def strAt (p : ℤ) : ReadM Bytes := fun ds =>
  if 0 ≤ p ∧ (0 : UInt8) ∈ ds.mem.drop p.toNat then
    .ok ((ds.mem.drop p.toNat).takeWhile (· ≠ 0), ds)
  else .error .outside

end JyDataReadStream

section Dispatch

variable (loop : FmLoop) (task : FmTaskGetSubList)

/-- One turn of the loop: what is added for an entry, or nothing where the loop is left. -/
def dispatchEntry (curDir : ℤ) : ReadM (Option (List FmTask.Body)) := do
  let type ← get 1
  if type = 0 then
    let name ← getStrAt
    let name ← strAt name
    let curDir ← strAt curDir
    pure (some ((SubEntry.folder name).bodies loop task curDir))
  else if type = 1 then
    let name ← getStrAt
    let size ← get 8
    let lastWriteTime ← get 8
    let name ← strAt name
    let curDir ← strAt curDir
    pure (some ((SubEntry.file name size lastWriteTime).bodies loop task curDir))
  else pure none

/-- The loop. -/
def dispatchEntries (curDir : ℤ) : ℕ → FmScheduler → ReadM FmScheduler
  | 0, _ => throw .outside
  | fuel + 1, s => do
    match ← dispatchEntry loop task curDir with
    | none => pure s
    | some bodies => dispatchEntries curDir fuel (bodies.foldl FmScheduler.add s)

/-- The folder itself is deleted behind the loop. -/
def FmTaskGetSubList.DelsDir : Prop := task.action_ = .ActionDel ∨ task.action_ = .ActionDownUp ∧ task.isMove_

instance : Decidable task.DelsDir := inferInstanceAs (Decidable (_ ∨ _))

/-- What is added behind the loop; the path of the folder is read only to delete it. -/
def dispatchLast (curDir : ℤ) : ReadM (List FmTask.Body) :=
  if task.DelsDir then do
    let curDir ← strAt curDir
    pure (SubList.lastBodies loop task curDir)
  else pure (SubList.lastBodies loop task [])

/-- `dispatchSubList`; the view is handed the bytes as they are. -/
def dispatchSubListIn (fuel : ℕ) (s : FmScheduler) : ReadM FmScheduler :=
  if task.action_ = .ActionInformUi then pure s
  else do
    let curDir ← getStrAt
    let s ← dispatchEntries loop task curDir fuel s
    let bodies ← dispatchLast loop task curDir
    pure (bodies.foldl FmScheduler.add s)

end Dispatch

/-! ## Records -/

namespace Listing

variable (bytes : Bytes)

/-- There are `k` bytes at `p`. -/
def Within (p : ℤ) (k : ℕ) : Prop := 0 ≤ p ∧ p + k ≤ bytes.length

/-- The integer of `k` bytes at `p`. -/
def intAt (p : ℤ) (k : ℕ) : ℤ := getInt ((bytes.drop p.toNat).take k)

/-- A string at `p` has an end. -/
def HasStr (p : ℤ) : Prop := 0 ≤ p ∧ (0 : UInt8) ∈ bytes.drop p.toNat

/-- Where the length behind the tag at `p` leads. -/
def behindName (p : ℤ) : ℤ := p + 3 + intAt bytes (p + 1) 2

/-- Where the record behind the entry at `p` is. -/
def next (p : ℤ) : ℤ := if intAt bytes p 1 = 0 then behindName bytes p else behindName bytes p + 16

/-- At `p` there is a whole entry: a folder, or a file with its size and its time. -/
def IsEntry (p : ℤ) : Prop :=
  Within bytes p 3 ∧ HasStr bytes (p + 3) ∧
    (intAt bytes p 1 = 0 ∨ intAt bytes p 1 = 1 ∧ Within bytes (behindName bytes p) 16)

/-- At `p` there is a last tag. -/
def IsLast (p : ℤ) : Prop := Within bytes p 1 ∧ intAt bytes p 1 ≠ 0 ∧ intAt bytes p 1 ≠ 1

/-- From `p` on there are `n` entries, and a last tag. -/
abbrev Listed (p : ℤ) (n : ℕ) : Prop := Chases (next bytes) (IsEntry bytes) (IsLast bytes) p n

/-- Where the first record is. -/
def start : ℤ := 2 + intAt bytes 0 2

variable {bytes} {p : ℤ} {k n : ℕ}

theorem IsEntry.not_isLast (h : IsEntry bytes p) : ¬ IsLast bytes p := by
  rintro ⟨-, hfolder, hfile⟩
  obtain heq | ⟨heq, -⟩ := h.2.2
  · exact hfolder heq
  · exact hfile heq

/-- **There are fewer entries than bytes.** -/
theorem lt_length_of_listed (h : Listed bytes p n) : n < bytes.length := by
  have hplace : ∀ a, IsEntry bytes a ∨ IsLast bytes a → a ∈ Finset.Ico (0 : ℤ) bytes.length := by
    intro a ha
    rw [Finset.mem_Ico]
    obtain ⟨⟨h0, hle⟩, -⟩ | ⟨⟨h0, hle⟩, -⟩ := ha
    · exact ⟨h0, by omega⟩
    · exact ⟨h0, by omega⟩
  have hcard := h.lt_card (fun _ => IsEntry.not_isLast) hplace
  rwa [Int.card_Ico, Int.sub_zero, Int.toNat_natCast] at hcard

/-! ## What is read of a record -/

/-- A stream on the bytes of the listing. -/
def at_ (bytes : Bytes) (p : ℤ) : JyDataReadStream := ⟨bytes, bytes.length, p⟩

/-- The string at `p`. -/
def string (bytes : Bytes) (p : ℤ) : Bytes := (bytes.drop p.toNat).takeWhile (· ≠ 0)

/-- The entry at `p`. -/
def entryAt (bytes : Bytes) (p : ℤ) : SubEntry :=
  if intAt bytes p 1 = 0 then .folder (string bytes (p + 3))
  else .file (string bytes (p + 3)) (intAt bytes (behindName bytes p) 8) (intAt bytes (behindName bytes p + 8) 8)

variable {ds : JyDataReadStream}

/-- Two reads go well if the first does, and the second behind it. -/
theorem run_bind_iff {α β : Type} {m : ReadM α} {f : α → ReadM β} {r : β × JyDataReadStream} :
    (m >>= f).run ds = .ok r ↔ ∃ a ds', m.run ds = .ok (a, ds') ∧ (f a).run ds' = .ok r := by
  rw [StateT.run_bind]
  cases hm : m.run ds with
  | error e => exact iff_of_false nofun fun ⟨_, _, h, _⟩ => nomatch h
  | ok x =>
    obtain ⟨a, ds'⟩ := x
    constructor
    · exact fun h => ⟨a, ds', rfl, h⟩
    · rintro ⟨_, _, h, hf⟩
      cases h
      exact hf

theorem run_pure_iff {α : Type} {a : α} {r : α × JyDataReadStream} :
    (pure a : ReadM α).run ds = .ok r ↔ r = (a, ds) :=
  ⟨fun h => by cases h; rfl, fun h => by rw [h]; rfl⟩

theorem run_get_iff {v : ℤ} : (get k).run (at_ bytes p) = .ok (v, ds) ↔
    Within bytes p k ∧ v = intAt bytes p k ∧ ds = at_ bytes (p + k) := by
  rw [JyDataReadStream.get, run_bind_iff]
  simp only [JyDataReadStream.take, StateT.run]
  constructor
  · rintro ⟨bs, ds', htake, hpure⟩
    obtain ⟨rfl, rfl⟩ := Prod.mk.inj (run_pure_iff.mp hpure)
    split_ifs at htake with hin
    cases htake
    exact ⟨hin, rfl, rfl⟩
  · rintro ⟨hin, rfl, rfl⟩
    exact ⟨_, _, if_pos hin, rfl⟩

theorem run_getStrAt_iff {v : ℤ} : getStrAt.run (at_ bytes p) = .ok (v, ds) ↔
    Within bytes p 2 ∧ v = p + 2 ∧ ds = at_ bytes (p + 2 + intAt bytes p 2) := by
  rw [getStrAt, run_bind_iff]
  constructor
  · rintro ⟨len, ds', hget, hskip⟩
    obtain ⟨hin, rfl, rfl⟩ := run_get_iff.mp hget
    cases hskip
    exact ⟨hin, rfl, rfl⟩
  · rintro ⟨hin, rfl, rfl⟩
    exact ⟨_, _, run_get_iff.mpr ⟨hin, rfl, rfl⟩, rfl⟩

theorem run_strAt_iff {q : ℤ} {str : Bytes} : (strAt q).run (at_ bytes p) = .ok (str, ds) ↔
    HasStr bytes q ∧ str = string bytes q ∧ ds = at_ bytes p := by
  simp only [strAt, StateT.run]
  constructor
  · intro h
    split_ifs at h with hstr
    cases h
    exact ⟨hstr, rfl, rfl⟩
  · rintro ⟨hstr, rfl, rfl⟩
    exact if_pos hstr

/-! ## A turn of the loop -/

variable {loop : FmLoop} {task : FmTaskGetSubList} {curDir : ℤ}

theorem within_three : Within bytes p 3 ↔ Within bytes p 1 ∧ Within bytes (p + 1) 2 := by
  rw [Within, Within, Within]
  omega

theorem within_sixteen : Within bytes p 16 ↔ Within bytes p 8 ∧ Within bytes (p + 8) 8 := by
  rw [Within, Within, Within]
  omega

theorem run_tag_iff {v : ℤ} : (get 1).run (at_ bytes p) = .ok (v, ds) ↔
    Within bytes p 1 ∧ v = intAt bytes p 1 ∧ ds = at_ bytes (p + 1) := run_get_iff

theorem run_number_iff {v : ℤ} : (get 8).run (at_ bytes p) = .ok (v, ds) ↔
    Within bytes p 8 ∧ v = intAt bytes p 8 ∧ ds = at_ bytes (p + 8) := run_get_iff

/-- The name behind a tag. -/
theorem run_name_iff {v : ℤ} : getStrAt.run (at_ bytes (p + 1)) = .ok (v, ds) ↔
    Within bytes (p + 1) 2 ∧ v = p + 3 ∧ ds = at_ bytes (behindName bytes p) := by
  have hname : p + 1 + 2 = p + 3 := by omega
  rw [run_getStrAt_iff, hname, behindName]

/-- **The loop is left exactly at a last tag.** -/
theorem run_dispatchEntry_none : (dispatchEntry loop task curDir).run (at_ bytes p) = .ok (none, ds) ↔
    IsLast bytes p ∧ ds = at_ bytes (p + 1) := by
  rw [dispatchEntry, run_bind_iff]
  constructor
  · rintro ⟨type, ds', hget, hrest⟩
    obtain ⟨hin, rfl, rfl⟩ := run_tag_iff.mp hget
    split_ifs at hrest with hfolder hfile
    · obtain ⟨_, _, -, hrest⟩ := run_bind_iff.mp hrest
      obtain ⟨_, _, -, hrest⟩ := run_bind_iff.mp hrest
      obtain ⟨_, _, -, hrest⟩ := run_bind_iff.mp hrest
      cases run_pure_iff.mp hrest
    · obtain ⟨_, _, -, hrest⟩ := run_bind_iff.mp hrest
      obtain ⟨_, _, -, hrest⟩ := run_bind_iff.mp hrest
      obtain ⟨_, _, -, hrest⟩ := run_bind_iff.mp hrest
      obtain ⟨_, _, -, hrest⟩ := run_bind_iff.mp hrest
      obtain ⟨_, _, -, hrest⟩ := run_bind_iff.mp hrest
      cases run_pure_iff.mp hrest
    · obtain ⟨-, rfl⟩ := Prod.mk.inj (run_pure_iff.mp hrest)
      exact ⟨⟨hin, hfolder, hfile⟩, rfl⟩
  · rintro ⟨⟨hin, hfolder, hfile⟩, rfl⟩
    refine ⟨_, _, run_tag_iff.mpr ⟨hin, rfl, rfl⟩, ?_⟩
    rw [if_neg hfolder, if_neg hfile]
    rfl

/-- **It goes on exactly behind a whole entry**, with the tasks of it. -/
theorem run_dispatchEntry_some {bodies : List FmTask.Body} :
    (dispatchEntry loop task curDir).run (at_ bytes p) = .ok (some bodies, ds) ↔
      IsEntry bytes p ∧ HasStr bytes curDir ∧
        bodies = (entryAt bytes p).bodies loop task (string bytes curDir) ∧ ds = at_ bytes (next bytes p) := by
  have hnumbers : behindName bytes p + 8 + 8 = behindName bytes p + 16 := by omega
  rw [dispatchEntry, run_bind_iff]
  constructor
  · rintro ⟨type, ds', hget, hrest⟩
    obtain ⟨hin, rfl, rfl⟩ := run_tag_iff.mp hget
    split_ifs at hrest with hfolder hfile
    · obtain ⟨_, _, hread, hrest⟩ := run_bind_iff.mp hrest
      obtain ⟨hlen, rfl, rfl⟩ := run_name_iff.mp hread
      obtain ⟨_, _, hread, hrest⟩ := run_bind_iff.mp hrest
      obtain ⟨hstr, rfl, rfl⟩ := run_strAt_iff.mp hread
      obtain ⟨_, _, hread, hrest⟩ := run_bind_iff.mp hrest
      obtain ⟨hdir, rfl, rfl⟩ := run_strAt_iff.mp hread
      obtain ⟨hbodies, rfl⟩ := Prod.mk.inj (run_pure_iff.mp hrest)
      rw [entryAt, next, if_pos hfolder, if_pos hfolder]
      exact ⟨⟨within_three.mpr ⟨hin, hlen⟩, hstr, .inl hfolder⟩, hdir, Option.some.inj hbodies, rfl⟩
    · obtain ⟨_, _, hread, hrest⟩ := run_bind_iff.mp hrest
      obtain ⟨hlen, rfl, rfl⟩ := run_name_iff.mp hread
      obtain ⟨_, _, hread, hrest⟩ := run_bind_iff.mp hrest
      obtain ⟨hsize, rfl, rfl⟩ := run_number_iff.mp hread
      obtain ⟨_, _, hread, hrest⟩ := run_bind_iff.mp hrest
      obtain ⟨htime, rfl, rfl⟩ := run_number_iff.mp hread
      obtain ⟨_, _, hread, hrest⟩ := run_bind_iff.mp hrest
      obtain ⟨hstr, rfl, rfl⟩ := run_strAt_iff.mp hread
      obtain ⟨_, _, hread, hrest⟩ := run_bind_iff.mp hrest
      obtain ⟨hdir, rfl, rfl⟩ := run_strAt_iff.mp hread
      obtain ⟨hbodies, rfl⟩ := Prod.mk.inj (run_pure_iff.mp hrest)
      rw [entryAt, next, if_neg hfolder, if_neg hfolder, ← hnumbers]
      exact ⟨⟨within_three.mpr ⟨hin, hlen⟩, hstr, .inr ⟨hfile, within_sixteen.mpr ⟨hsize, htime⟩⟩⟩, hdir,
        Option.some.inj hbodies, rfl⟩
    · cases run_pure_iff.mp hrest
  · rintro ⟨⟨hthree, hstr, hkind⟩, hdir, rfl, rfl⟩
    obtain ⟨hin, hlen⟩ := within_three.mp hthree
    refine ⟨_, _, run_tag_iff.mpr ⟨hin, rfl, rfl⟩, ?_⟩
    obtain hfolder | ⟨hfile, hsixteen⟩ := hkind
    · rw [if_pos hfolder, next, if_pos hfolder, entryAt, if_pos hfolder]
      refine run_bind_iff.mpr ⟨_, _, run_name_iff.mpr ⟨hlen, rfl, rfl⟩, ?_⟩
      refine run_bind_iff.mpr ⟨_, _, run_strAt_iff.mpr ⟨hstr, rfl, rfl⟩, ?_⟩
      exact run_bind_iff.mpr ⟨_, _, run_strAt_iff.mpr ⟨hdir, rfl, rfl⟩, rfl⟩
    · have hfolder : intAt bytes p 1 ≠ 0 := by
        rw [hfile]
        decide
      obtain ⟨hsize, htime⟩ := within_sixteen.mp hsixteen
      rw [if_neg hfolder, if_pos hfile, next, if_neg hfolder, entryAt, if_neg hfolder, ← hnumbers]
      refine run_bind_iff.mpr ⟨_, _, run_name_iff.mpr ⟨hlen, rfl, rfl⟩, ?_⟩
      refine run_bind_iff.mpr ⟨_, _, run_number_iff.mpr ⟨hsize, rfl, rfl⟩, ?_⟩
      refine run_bind_iff.mpr ⟨_, _, run_number_iff.mpr ⟨htime, rfl, rfl⟩, ?_⟩
      refine run_bind_iff.mpr ⟨_, _, run_strAt_iff.mpr ⟨hstr, rfl, rfl⟩, ?_⟩
      exact run_bind_iff.mpr ⟨_, _, run_strAt_iff.mpr ⟨hdir, rfl, rfl⟩, rfl⟩

/-! ## The tasks that are added -/

theorem length_add (s : FmScheduler) (body : FmTask.Body) : (s.add body).tasks_.length = s.tasks_.length + 1 := by
  rw [FmScheduler.tasks_add, (insertStable_perm _ _).length_eq, List.length_cons]

theorem length_foldl_add : ∀ (bodies : List FmTask.Body) (s : FmScheduler),
    (bodies.foldl FmScheduler.add s).tasks_.length = s.tasks_.length + bodies.length
  | [], _ => rfl
  | body :: bodies, s => by
    rw [List.foldl_cons, length_foldl_add bodies, length_add, List.length_cons]
    omega

/-- An entry is two tasks at most. -/
theorem length_bodies_le (loop : FmLoop) (task : FmTaskGetSubList) (curDir : Bytes) (e : SubEntry) :
    (e.bodies loop task curDir).length ≤ 2 := by
  cases e with
  | folder name =>
    rw [SubEntry.bodies]
    cases task.action_
    all_goals simp
  | file name size lastWriteTime =>
    rw [SubEntry.bodies]
    cases task.action_
    case ActionDownUp =>
      dsimp only
      split_ifs
      · simp
      · simp
    all_goals simp

theorem length_lastBodies_le (loop : FmLoop) (task : FmTaskGetSubList) (curDir : Bytes) :
    (SubList.lastBodies loop task curDir).length ≤ 2 := by
  rw [SubList.lastBodies, List.length_append]
  split_ifs
  all_goals simp

/-! ## The loop -/

/-- **A loop that is left was on a chase of whole entries.** -/
theorem listed_of_run : ∀ (fuel : ℕ) {p : ℤ} {s s' : FmScheduler},
    (dispatchEntries loop task curDir fuel s).run (at_ bytes p) = .ok (s', ds) →
    ∃ n, Listed bytes p n ∧ (n = 0 ∨ HasStr bytes curDir) ∧ ∃ q, ds = at_ bytes q
  | 0, _, _, _, h => nomatch h
  | fuel + 1, p, s, s', h => by
    rw [dispatchEntries] at h
    obtain ⟨bodies, ds', hturn, hrest⟩ := run_bind_iff.mp h
    cases bodies with
    | none =>
      obtain ⟨hlast, rfl⟩ := run_dispatchEntry_none.mp hturn
      obtain ⟨-, rfl⟩ := Prod.mk.inj (run_pure_iff.mp hrest)
      exact ⟨0, chases_zero.mpr hlast, .inl rfl, _, rfl⟩
    | some bodies =>
      obtain ⟨hentry, hdir, -, rfl⟩ := run_dispatchEntry_some.mp hturn
      obtain ⟨n, hlisted, -, hq⟩ := listed_of_run fuel hrest
      exact ⟨n + 1, chases_succ.mpr ⟨hentry, hlisted⟩, .inr hdir, hq⟩

/-- **On a chase of whole entries the loop is left**, with two tasks an entry at most. -/
theorem run_of_listed : ∀ (n : ℕ) {p : ℤ} (s : FmScheduler), Listed bytes p n →
    (n = 0 ∨ HasStr bytes curDir) → ∃ s' q, (∀ fuel, n < fuel →
      (dispatchEntries loop task curDir fuel s).run (at_ bytes p) = .ok (s', at_ bytes q)) ∧
      s'.tasks_.length ≤ s.tasks_.length + 2 * n
  | 0, p, s, h, _ => by
    refine ⟨s, p + 1, fun fuel hfuel => ?_, Nat.le_refl _⟩
    obtain ⟨fuel, rfl⟩ := Nat.exists_eq_succ_of_ne_zero (Nat.ne_of_gt hfuel)
    rw [dispatchEntries]
    exact run_bind_iff.mpr ⟨none, _, run_dispatchEntry_none.mpr ⟨chases_zero.mp h, rfl⟩, rfl⟩
  | n + 1, p, s, h, hdir => by
    have hdir' := hdir.resolve_left (Nat.succ_ne_zero n)
    obtain ⟨hentry, hlisted⟩ := chases_succ.mp h
    obtain ⟨s', q, hrun, hlength⟩ := run_of_listed n
      (((entryAt bytes p).bodies loop task (string bytes curDir)).foldl FmScheduler.add s) hlisted (.inr hdir')
    refine ⟨s', q, fun fuel hfuel => ?_, ?_⟩
    · obtain ⟨fuel, rfl⟩ := Nat.exists_eq_succ_of_ne_zero (Nat.ne_of_gt (Nat.zero_lt_of_lt hfuel))
      rw [dispatchEntries]
      exact run_bind_iff.mpr ⟨some _, _, run_dispatchEntry_some.mpr ⟨hentry, hdir', rfl, rfl⟩,
        hrun fuel (by omega)⟩
    · have := length_bodies_le loop task (string bytes curDir) (entryAt bytes p)
      rw [length_foldl_add] at hlength
      omega

theorem run_dispatchLast_iff {bodies : List FmTask.Body} :
    (∃ ds, (dispatchLast loop task curDir).run (at_ bytes p) = .ok (bodies, ds)) ↔
      (task.DelsDir → HasStr bytes curDir) ∧
        bodies = SubList.lastBodies loop task (if task.DelsDir then string bytes curDir else []) := by
  rw [dispatchLast]
  split_ifs with hdels
  · constructor
    · rintro ⟨ds, h⟩
      obtain ⟨_, _, hread, hrest⟩ := run_bind_iff.mp h
      obtain ⟨hdir, rfl, rfl⟩ := run_strAt_iff.mp hread
      exact ⟨fun _ => hdir, (Prod.mk.inj (run_pure_iff.mp hrest)).1⟩
    · rintro ⟨hdir, rfl⟩
      exact ⟨_, run_bind_iff.mpr ⟨_, _, run_strAt_iff.mpr ⟨hdir hdels, rfl, rfl⟩, rfl⟩⟩
  · constructor
    · rintro ⟨ds, h⟩
      exact ⟨fun h => absurd h hdels, (Prod.mk.inj (run_pure_iff.mp h)).1⟩
    · rintro ⟨-, rfl⟩
      exact ⟨_, rfl⟩

/-! ## The listing -/

/-- Handed these bytes, the function returns, without a read outside them, and with no more than two tasks
added for each. -/
def Dispatches (loop : FmLoop) (task : FmTaskGetSubList) (bytes : Bytes) : Prop :=
  ∀ s : FmScheduler, ∃ s' enough, (∀ fuel, enough ≤ fuel → ∃ ds,
      (dispatchSubListIn loop task fuel s).run (at_ bytes 0) = .ok (s', ds)) ∧
    s'.tasks_.length ≤ s.tasks_.length + 2 * bytes.length

/-- The records are whole entries and a last tag, and the path of the folder has an end where it is used. -/
def Complete (task : FmTaskGetSubList) (bytes : Bytes) : Prop :=
  Within bytes 0 2 ∧ ∃ n, Listed bytes (start bytes) n ∧ (n ≠ 0 ∨ task.DelsDir → HasStr bytes 2)

theorem complete_of_dispatches (h : Dispatches loop task bytes) (haction : task.action_ ≠ .ActionInformUi) :
    Complete task bytes := by
  obtain ⟨s', enough, hrun, -⟩ := h .new
  obtain ⟨ds, hrun⟩ := hrun enough (Nat.le_refl _)
  rw [dispatchSubListIn, if_neg haction] at hrun
  obtain ⟨_, _, hread, hrun⟩ := run_bind_iff.mp hrun
  obtain ⟨hin, rfl, rfl⟩ := run_getStrAt_iff.mp hread
  obtain ⟨_, _, hloop, hrun⟩ := run_bind_iff.mp hrun
  obtain ⟨n, hlisted, hdir, q, rfl⟩ := listed_of_run enough hloop
  obtain ⟨_, _, hlast, -⟩ := run_bind_iff.mp hrun
  refine ⟨hin, n, hlisted, ?_⟩
  rintro (hn | hdels)
  · exact hdir.resolve_left hn
  · exact (run_dispatchLast_iff.mp ⟨_, hlast⟩).1 hdels

theorem dispatches_of_complete (h : Complete task bytes) (haction : task.action_ ≠ .ActionInformUi) :
    Dispatches loop task bytes := by
  intro s
  obtain ⟨hin, n, hlisted, hdir⟩ := h
  obtain ⟨s', q, hloop, hlength⟩ := @run_of_listed bytes loop task 2 n _ s hlisted
    (or_iff_not_imp_left.mpr fun hn => hdir (.inl hn))
  obtain ⟨ds, hlast⟩ := (@run_dispatchLast_iff bytes q loop task 2 _).mpr ⟨fun hdels => hdir (.inr hdels), rfl⟩
  refine ⟨(SubList.lastBodies loop task (if task.DelsDir then string bytes 2 else [])).foldl FmScheduler.add s',
    n + 1, fun fuel hfuel => ⟨ds, ?_⟩, ?_⟩
  · rw [dispatchSubListIn, if_neg haction]
    refine run_bind_iff.mpr ⟨_, _, run_getStrAt_iff.mpr ⟨hin, rfl, rfl⟩, ?_⟩
    refine run_bind_iff.mpr ⟨_, _, hloop fuel hfuel, ?_⟩
    exact run_bind_iff.mpr ⟨_, _, hlast, rfl⟩
  · have hn := lt_length_of_listed hlisted
    have := length_lastBodies_le loop task (if task.DelsDir then string bytes 2 else [])
    rw [length_foldl_add]
    omega

/-- **Exactly a complete listing is dispatched, where it is not for the view.** -/
theorem dispatches_iff (loop : FmLoop) (task : FmTaskGetSubList) (bytes : Bytes) :
    Dispatches loop task bytes ↔ task.action_ = .ActionInformUi ∨ Complete task bytes := by
  by_cases haction : task.action_ = .ActionInformUi
  · refine iff_of_true (fun s => ⟨s, 0, fun fuel _ => ⟨at_ bytes 0, ?_⟩, Nat.le_add_right _ _⟩) (.inl haction)
    rw [dispatchSubListIn, if_pos haction]
    rfl
  · rw [or_iff_right haction]
    exact ⟨fun h => complete_of_dispatches h haction, fun h => dispatches_of_complete h haction⟩

/-! ## A listing that is read at once -/

theorem of_run_getStr {str : Bytes} (h : getStr.run (at_ bytes p) = .ok (str, ds)) :
    Within bytes p 2 ∧ HasStr bytes (p + 2) ∧ str = string bytes (p + 2) ∧
      ds = at_ bytes (p + 2 + intAt bytes p 2) := by
  obtain ⟨len, ds', hget, h⟩ := run_bind_iff.mp h
  obtain ⟨hin, rfl, rfl⟩ := run_get_iff.mp hget
  simp only [StateT.run] at h
  split_ifs at h with hstr
  cases h
  exact ⟨hin, hstr, rfl, rfl⟩

theorem of_run_read {e : Option SubEntry} (h : SubEntry.read.run (at_ bytes p) = .ok (e, ds)) :
    (e = none ∧ IsLast bytes p) ∨
      (e = some (entryAt bytes p) ∧ IsEntry bytes p ∧ ds = at_ bytes (next bytes p)) := by
  have hname : p + 1 + 2 = p + 3 := by omega
  have hnumbers : behindName bytes p + 8 + 8 = behindName bytes p + 16 := by omega
  obtain ⟨type, ds', hget, h⟩ := run_bind_iff.mp h
  obtain ⟨hin, rfl, rfl⟩ := run_tag_iff.mp hget
  split_ifs at h with hfolder hfile
  · obtain ⟨_, _, hread, h⟩ := run_bind_iff.mp h
    obtain ⟨hlen, hstr, rfl, rfl⟩ := of_run_getStr hread
    obtain ⟨rfl, rfl⟩ := Prod.mk.inj (run_pure_iff.mp h)
    rw [hname] at hstr
    rw [entryAt, next, if_pos hfolder, if_pos hfolder, behindName, hname]
    exact .inr ⟨rfl, ⟨within_three.mpr ⟨hin, hlen⟩, hstr, .inl hfolder⟩, rfl⟩
  · obtain ⟨_, _, hread, h⟩ := run_bind_iff.mp h
    obtain ⟨hlen, hstr, rfl, rfl⟩ := of_run_getStr hread
    rw [hname] at h hstr
    obtain ⟨_, _, hread, h⟩ := run_bind_iff.mp h
    obtain ⟨hsize, rfl, rfl⟩ := run_number_iff.mp hread
    obtain ⟨_, _, hread, h⟩ := run_bind_iff.mp h
    obtain ⟨htime, rfl, rfl⟩ := run_number_iff.mp hread
    obtain ⟨rfl, rfl⟩ := Prod.mk.inj (run_pure_iff.mp h)
    rw [entryAt, next, if_neg hfolder, if_neg hfolder, ← hnumbers]
    exact .inr ⟨rfl, ⟨within_three.mpr ⟨hin, hlen⟩, hstr, .inr ⟨hfile, within_sixteen.mpr ⟨hsize, htime⟩⟩⟩, rfl⟩
  · obtain ⟨rfl, -⟩ := Prod.mk.inj (run_pure_iff.mp h)
    exact .inl ⟨rfl, hin, hfolder, hfile⟩

/-- Entries that are read at once are dispatched one after another. -/
theorem run_of_readEntries (hdir : HasStr bytes curDir) : ∀ (n : ℕ) {p : ℤ} {es : List SubEntry}
    {ds : JyDataReadStream} (s : FmScheduler), (SubList.readEntries n).run (at_ bytes p) = .ok (es, ds) →
    ∃ q, ∀ fuel, es.length < fuel → (dispatchEntries loop task curDir fuel s).run (at_ bytes p)
      = .ok ((es.flatMap fun e => e.bodies loop task (string bytes curDir)).foldl FmScheduler.add s, at_ bytes q)
  | 0, _, _, _, _, h => nomatch h
  | n + 1, p, es, ds, s, h => by
    rw [SubList.readEntries] at h
    obtain ⟨e, ds', hread, hrest⟩ := run_bind_iff.mp h
    obtain ⟨rfl, hlast⟩ | ⟨rfl, hentry, rfl⟩ := of_run_read hread
    · obtain ⟨rfl, -⟩ := Prod.mk.inj (run_pure_iff.mp hrest)
      refine ⟨p + 1, fun fuel hfuel => ?_⟩
      obtain ⟨fuel, rfl⟩ := Nat.exists_eq_succ_of_ne_zero (Nat.ne_of_gt hfuel)
      rw [dispatchEntries]
      exact run_bind_iff.mpr ⟨none, _, run_dispatchEntry_none.mpr ⟨hlast, rfl⟩, rfl⟩
    · obtain ⟨es', ds'', hes, hpure⟩ := run_bind_iff.mp hrest
      obtain ⟨rfl, -⟩ := Prod.mk.inj (run_pure_iff.mp hpure)
      obtain ⟨q, hrun⟩ := run_of_readEntries hdir n
        (((entryAt bytes p).bodies loop task (string bytes curDir)).foldl FmScheduler.add s) hes
      refine ⟨q, fun fuel hfuel => ?_⟩
      obtain ⟨fuel, rfl⟩ := Nat.exists_eq_succ_of_ne_zero (Nat.ne_of_gt (Nat.zero_lt_of_lt hfuel))
      rw [dispatchEntries, List.flatMap_cons, List.foldl_append]
      exact run_bind_iff.mpr ⟨some _, _, run_dispatchEntry_some.mpr ⟨hentry, hdir, rfl, rfl⟩,
        hrun fuel (Nat.lt_of_succ_lt_succ hfuel)⟩

/-- Where the folder is not deleted, its path is not used. -/
theorem lastBodies_read (loop : FmLoop) (task : FmTaskGetSubList) (curDir : Bytes) :
    SubList.lastBodies loop task (if task.DelsDir then curDir else []) = SubList.lastBodies loop task curDir := by
  split_ifs with hdels
  · rfl
  · have hdels' : ¬ (task.action_ = .ActionDel ∨ task.action_ = .ActionDownUp ∧ task.isMove_) := hdels
    rw [SubList.lastBodies, SubList.lastBodies, if_neg hdels', if_neg hdels']

/-- **A listing that can be read at once is dispatched as it was read.** -/
theorem run_of_read {l : SubList} (h : SubList.read bytes = .ok l) (s : FmScheduler) :
    ∃ enough, ∀ fuel, enough ≤ fuel → ∃ ds,
      (dispatchSubListIn loop task fuel s).run (at_ bytes 0) = .ok (dispatchSubList loop task l s, ds) := by
  rw [dispatchSubList]
  by_cases haction : task.action_ = .ActionInformUi
  · refine ⟨0, fun fuel _ => ⟨at_ bytes 0, ?_⟩⟩
    rw [dispatchSubListIn, if_pos haction, if_pos haction]
    rfl
  · rw [SubList.read] at h
    cases hread : getStr.run (at_ bytes 0) with
    | error e =>
      rw [at_] at hread
      rw [hread] at h
      cases h
    | ok x =>
      obtain ⟨curDir, ds⟩ := x
      obtain ⟨hin, hdir, rfl, rfl⟩ := of_run_getStr hread
      rw [at_] at hread
      rw [hread] at h
      dsimp only [bind, Except.bind] at h
      split at h
      · cases h
      · rename_i r hes
        obtain ⟨es, ds'⟩ := r
        cases h
        obtain ⟨q, hloop⟩ := @run_of_readEntries bytes loop task (0 + 2) hdir _ _ _ _ s hes
        obtain ⟨ds, hlast⟩ := (@run_dispatchLast_iff bytes q loop task (0 + 2) _).mpr ⟨fun _ => hdir, rfl⟩
        refine ⟨es.length + 1, fun fuel hfuel => ⟨ds, ?_⟩⟩
        rw [dispatchSubListIn, if_neg haction, if_neg haction]
        refine run_bind_iff.mpr ⟨_, _, run_getStrAt_iff.mpr ⟨hin, rfl, rfl⟩, ?_⟩
        refine run_bind_iff.mpr ⟨_, _, hloop fuel hfuel, ?_⟩
        refine run_bind_iff.mpr ⟨_, _, hlast, ?_⟩
        rw [lastBodies_read, SubList.bodies, List.foldl_append]
        rfl

/-- A folder whose name has the length -3: the entry behind it is itself. -/
def backward : Bytes := [1, 0, 0, 0, 253, 255, 0]

/-- **A listing may send the loop back for ever.** -/
theorem not_dispatches : ¬ ∀ (loop : FmLoop) (task : FmTaskGetSubList) (bytes : Bytes),
    Dispatches loop task bytes := by
  intro h
  obtain ⟨-, n, hlisted, -⟩ := complete_of_dispatches
    (h ⟨true, true⟩ ⟨[slash], .ActionDel, [], false⟩ backward) nofun
  have hstart : start backward = 3 := by decide
  rw [hstart] at hlisted
  have hentry : IsEntry backward 3 :=
    ⟨⟨by decide, by decide⟩, ⟨by decide, by decide⟩, .inl (by decide)⟩
  have hloop : next backward 3 = 3 := by decide
  have hnever : ∀ m, ¬ Listed backward 3 m :=
    not_chases_of_loop (fun _ => IsEntry.not_isLast) hentry hloop
  exact hnever n hlisted

end Listing

end EuhatExpert
