import EuhatExpert.FileMan.DispatchSubList
import EuhatExpert.FileMan.FileManServer

/-!
# FileMan/SubListBytes — a listing as bytes

`whGetSubFiles` writes the folder's path, a tag and a name for every entry, with a size and a time for a
file, and a last tag.  `dispatchSubList` reads them back (`read_write`).
-/

namespace EuhatExpert

open Machinery JyDataReadStream

/-! ## Writing -/

/-- `putStr` of a C string. -/
def putStr (str : Bytes) : Bytes := putInt 2 (str.length + 1) ++ str ++ [0]

def SubEntry.write : SubEntry → Bytes
  | folder name => putInt 1 0 ++ putStr name
  | file name size lastWriteTime => putInt 1 1 ++ putStr name ++ putInt 8 size ++ putInt 8 lastWriteTime

def SubList.write (l : SubList) : Bytes :=
  putStr l.curDir ++ l.entries.flatMap SubEntry.write ++ putInt 1 2

/-! ## Reading -/

/-- An entry, or the last tag. -/
def SubEntry.read : ReadM (Option SubEntry) := do
  let type ← get 1
  if type = 0 then
    let name ← getStr
    pure (some (.folder name))
  else if type = 1 then
    let name ← getStr
    let size ← get 8
    let lastWriteTime ← get 8
    pure (some (.file name size lastWriteTime))
  else pure none

/-- At most `n` entries and the last tag. -/
def SubList.readEntries : ℕ → ReadM (List SubEntry)
  | 0 => throw .outside
  | n + 1 => do
    let e ← SubEntry.read
    match e with
    | none => pure []
    | some e => do
      let es ← readEntries n
      pure (e :: es)

/-- A position that is read twice is read for ever, so a listing ends after as many entries as there are
positions or not at all. -/
def SubList.read (bytes : Bytes) : Except Fault SubList := do
  let (curDir, ds) ← getStr.run ⟨bytes, bytes.length, 0⟩
  let (entries, _) ← (SubList.readEntries (bytes.length + 1)).run ds
  pure ⟨curDir, entries⟩

/-- `dispatchSubList` of an answer's bytes. -/
def dispatchSubListBytes (loop : FmLoop) (task : FmTask) (bytes : Bytes) (s : FmScheduler) :
    FmScheduler :=
  match task.asGetSubList, SubList.read bytes with
  | some t, .ok l => dispatchSubList loop t l s
  | _, _ => s

/-- Does `dispatchSubList` come to its `notifyEngine`?  Not with a listing for the view. -/
def notifiesEngine (task : FmTask) (bytes : Bytes) : Bool :=
  match task.asGetSubList, SubList.read bytes with
  | some t, .ok _ => t.action_ ≠ .ActionInformUi
  | _, _ => false

/-! ## What is written is read -/

/-- A C string that `putStr` can put a length on. -/
structure IsCStr (str : Bytes) : Prop where
  noNul : (0 : UInt8) ∉ str
  short : str.length + 1 < 2 ^ 15

/-- A 64-bit integer. -/
def IsInt64 (v : ℤ) : Prop := -2 ^ 63 ≤ v ∧ v < 2 ^ 63

/-- An entry a system can list. -/
def SubEntry.Listable : SubEntry → Prop
  | folder name => IsCStr name
  | file name size lastWriteTime => IsCStr name ∧ IsInt64 size ∧ IsInt64 lastWriteTime

theorem length_putStr (str : Bytes) : (putStr str).length = str.length + 3 := by
  rw [putStr, List.length_append, List.length_append, length_putInt, List.length_singleton]
  omega

/-- **A string is read back as it was put.** -/
theorem run_getStr {ds : JyDataReadStream} {str more : Bytes} (h : ds.Ahead (putStr str ++ more))
    (hstr : IsCStr str) : getStr.run ds = .ok (str, ds.skip (putStr str).length) := by
  rw [putStr, List.append_assoc, List.append_assoc] at h
  have hget := h.get (by have := hstr.short; norm_num; omega) (by have := hstr.short; norm_num; omega)
  have hrest := h.skip
  rw [length_putInt] at hrest
  rw [getStr, StateT.run_bind, hget]
  dsimp only [bind, Except.bind, StateT.run]
  have hmem : (0 : UInt8) ∈ (ds.skip 2).mem.drop (ds.skip 2).idx_.toNat := by
    rw [hrest.drop]
    simp
  rw [if_pos ⟨hrest.nonneg, hmem⟩, hrest.drop]
  have htake : (str ++ ([0] ++ more)).takeWhile (· ≠ 0) = str := by
    have hne : ∀ b ∈ str, decide (b ≠ 0) = true := by
      intro b hb
      refine decide_eq_true ?_
      rintro rfl
      exact hstr.noNul hb
    rw [List.takeWhile_append_of_pos hne]
    simp
  rw [htake, length_putStr]
  simp only [JyDataReadStream.skip]
  congr 3
  push_cast
  ring

/-- A read that went well, and what follows it. -/
theorem run_bind_ok {α β : Type} {m : ReadM α} {f : α → ReadM β} {ds ds' : JyDataReadStream} {a : α}
    (h : m.run ds = .ok (a, ds')) : (m >>= f).run ds = (f a).run ds' := by
  rw [StateT.run_bind, h]
  rfl

theorem JyDataReadStream.Ahead.skip_of_length {ds : JyDataReadStream} {bs more : Bytes} (h : ds.Ahead (bs ++ more)) {k : ℕ}
    (hk : k = bs.length) : (ds.skip k).Ahead more := hk ▸ h.skip

/-- **An entry is read back as it was written.** -/
theorem SubEntry.run_read {ds : JyDataReadStream} {e : SubEntry} {more : Bytes}
    (h : ds.Ahead (e.write ++ more)) (he : e.Listable) :
    ∃ ds', SubEntry.read.run ds = .ok (some e, ds') ∧ ds'.Ahead more := by
  cases e with
  | folder name =>
    rw [SubEntry.write, List.append_assoc] at h
    refine ⟨(ds.skip 1).skip (putStr name).length, ?_, (h.skip_of_length (length_putInt 1 0).symm).skip⟩
    rw [SubEntry.read, run_bind_ok (h.get (by norm_num) (by norm_num)), if_pos rfl]
    exact run_bind_ok (run_getStr (h.skip_of_length (length_putInt 1 0).symm) he)
  | file name size lastWriteTime =>
    obtain ⟨hname, hsize, htime⟩ := he
    rw [SubEntry.write, List.append_assoc, List.append_assoc, List.append_assoc] at h
    have h₁ := h.skip_of_length (length_putInt 1 1).symm
    have h₂ := h₁.skip
    have h₃ := h₂.skip_of_length (length_putInt 8 size).symm
    refine ⟨(((ds.skip 1).skip (putStr name).length).skip 8).skip 8, ?_,
      h₃.skip_of_length (length_putInt 8 lastWriteTime).symm⟩
    have hget : ∀ {v : ℤ} {ds : JyDataReadStream} {more : Bytes}, IsInt64 v →
        ds.Ahead (putInt 8 v ++ more) → (get 8).run ds = .ok (v, ds.skip 8) := by
      intro v ds more hv h
      refine h.get ?_ ?_
      · have := hv.1
        norm_num at this ⊢
        omega
      · have := hv.2
        norm_num at this ⊢
        omega
    rw [SubEntry.read, run_bind_ok (h.get (by norm_num) (by norm_num)), if_neg (by decide), if_pos rfl,
      run_bind_ok (run_getStr h₁ hname), run_bind_ok (hget hsize h₂)]
    exact run_bind_ok (hget htime h₃)

theorem SubList.run_readEntries {more : Bytes} :
    ∀ {es : List SubEntry} {ds : JyDataReadStream} {n : ℕ}, es.length < n →
      ds.Ahead (es.flatMap SubEntry.write ++ (putInt 1 2 ++ more)) → (∀ e ∈ es, e.Listable) →
      ∃ ds', (SubList.readEntries n).run ds = .ok (es, ds')
  | _, _, 0, hn, _, _ => absurd hn (Nat.not_lt_zero _)
  | [], ds, n + 1, _, h, _ => by
    refine ⟨ds.skip 1, ?_⟩
    rw [List.flatMap_nil, List.nil_append] at h
    have hlast : SubEntry.read.run ds = .ok (none, ds.skip 1) := by
      rw [SubEntry.read, run_bind_ok (h.get (by norm_num) (by norm_num))]
      rfl
    exact run_bind_ok hlast
  | e :: es, ds, n + 1, hn, h, hes => by
    rw [List.flatMap_cons, List.append_assoc] at h
    obtain ⟨ds₁, hread, h₁⟩ := SubEntry.run_read h (hes e List.mem_cons_self)
    obtain ⟨ds₂, hrest⟩ := SubList.run_readEntries (Nat.lt_of_succ_lt_succ hn) h₁
      fun e he => hes e (List.mem_cons_of_mem _ he)
    refine ⟨ds₂, ?_⟩
    rw [SubList.readEntries, run_bind_ok hread]
    exact run_bind_ok hrest

theorem SubEntry.write_length_pos (e : SubEntry) : 1 ≤ e.write.length := by
  cases e with
  | folder name => rw [SubEntry.write, List.length_append, length_putInt]; omega
  | file name size lastWriteTime =>
    rw [SubEntry.write, List.length_append, List.length_append, List.length_append, length_putInt]
    omega

theorem SubList.length_le_flatMap_write (es : List SubEntry) :
    es.length ≤ (es.flatMap SubEntry.write).length := by
  induction es with
  | nil => exact le_rfl
  | cons e es ih =>
    have := e.write_length_pos
    rw [List.flatMap_cons, List.length_append, List.length_cons]
    omega

/-- **A listing is read back as it was written.** -/
theorem SubList.read_write (l : SubList) (hdir : IsCStr l.curDir) (hes : ∀ e ∈ l.entries, e.Listable) :
    SubList.read l.write = .ok l := by
  have h : (JyDataReadStream.mk l.write l.write.length 0).Ahead
      (putStr l.curDir ++ (l.entries.flatMap SubEntry.write ++ (putInt 1 2 ++ []))) := by
    refine ⟨le_rfl, Int.natCast_nonneg _, ?_⟩
    rw [List.append_nil, ← List.append_assoc]
    rfl
  have hlen : l.entries.length < l.write.length + 1 := by
    have := SubList.length_le_flatMap_write l.entries
    rw [SubList.write, List.length_append, List.length_append]
    omega
  obtain ⟨ds', hread⟩ := SubList.run_readEntries hlen h.skip hes
  rw [SubList.read, run_getStr h hdir]
  dsimp only [bind, Except.bind]
  rw [hread]
  rfl

end EuhatExpert
