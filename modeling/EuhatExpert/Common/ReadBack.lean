import EuhatExpert.Common.JyTcpSelector

/-!
# Common/ReadBack — a writer and the reader of its bytes

A packet is written by one side and read by the other, field after field.  `Reads m bs a` is the half of a
field that reads; with the half that writes, `Emits`, the fields compose, and `ReadBack` says of two whole
sides that the one finds what the other put, and looks at nothing behind it.
-/

namespace EuhatExpert

open Machinery

/-! ## Reading -/

namespace JyDataReadStream

variable {α β : Type}

/-- In front of `bs`, the reader finds `a` and goes on behind it. -/
def Reads (m : ReadM α) (bs : Bytes) (a : α) : Prop :=
  ∀ ds more, Ahead ds (bs ++ more) → m.run ds = .ok (a, ds.skip bs.length)

/-- In front of the last bytes `bs`, the reader finds `a`. -/
def ReadsLast (m : ReadM α) (bs : Bytes) (a : α) : Prop :=
  ∀ ds, Ahead ds bs → ∃ ds', m.run ds = .ok (a, ds')

variable {m : ReadM α} {f : α → ReadM β} {bs bs' : Bytes} {a : α} {b : β}

theorem Reads.last (h : Reads m bs a) : ReadsLast m bs a :=
  fun ds hds => ⟨_, h ds [] (by rwa [List.append_nil])⟩

theorem reads_get {k : ℕ} {v : ℤ} (h₁ : -((256 ^ k : ℕ) : ℤ) ≤ 2 * v) (h₂ : 2 * v < (256 ^ k : ℕ)) :
    Reads (get k) (putInt k v) v := by
  intro ds more hds
  rw [hds.get h₁ h₂, length_putInt]

/-- One field after another. -/
theorem Reads.bind (h : Reads m bs a) (h' : Reads (f a) bs' b) : Reads (m >>= f) (bs ++ bs') b := by
  intro ds more hds
  rw [List.append_assoc] at hds
  rw [StateT.run_bind, h ds _ hds]
  refine (h' _ _ hds.skip).trans ?_
  simp only [JyDataReadStream.skip, List.length_append, Nat.cast_add, Int.add_assoc]

theorem Reads.bind_last (h : Reads m bs a) (h' : ReadsLast (f a) bs' b) :
    ReadsLast (m >>= f) (bs ++ bs') b := by
  intro ds hds
  obtain ⟨ds', hrun⟩ := h' _ hds.skip
  exact ⟨ds', by rw [StateT.run_bind, h ds _ hds]; exact hrun⟩

/-- What is made of a field. -/
theorem Reads.map (h : Reads m bs a) (g : α → β) : Reads (m >>= fun a => pure (g a)) bs (g a) := by
  intro ds more hds
  rw [StateT.run_bind, h ds _ hds]
  rfl

end JyDataReadStream

/-! ## Writing over what was written -/

namespace JyDataWriteStream

/-- `getIdx`. -/
def getIdx : WriteM ℕ := fun s => .ok s.idx_ s

/-- The stream with bytes of its own written over. -/
def patch (s : JyDataWriteStream) (at_ : ℕ) (data : Bytes) (h : at_ + data.length ≤ s.idx_) :
    JyDataWriteStream where
  written := overwrite s.written at_ data
  size_ := s.size_
  holder := s.holder
  fits := (length_overwrite h).trans_le s.fits
  isInt := (length_overwrite h).trans_lt s.isInt
  poolIsInt := s.poolIsInt

/-- `put<T>` at an index. -/
def putAt (k : ℕ) (v : ℤ) (at_ : ℕ) : WriteM Unit := fun s =>
  if h : at_ + (putInt k v).length ≤ s.idx_ then .ok () (s.patch at_ (putInt k v) h)
  else .error .outside s

/-- **What is written over a placeholder might have been appended in its place.** -/
theorem run_putAt_push (s : JyDataWriteStream) {a b c : Bytes} {k : ℕ} {v : ℤ} (hb : b.length = k)
    (h : s.idx_ + (a ++ (b ++ c)).length < 2 ^ 31)
    (h' : s.idx_ + (a ++ (putInt k v ++ c)).length < 2 ^ 31) :
    (putAt k v (s.idx_ + a.length)).run (s.push (a ++ (b ++ c)) h)
      = .ok () (s.push (a ++ (putInt k v ++ c)) h') := by
  have hlen : (a ++ (b ++ c)).length = (a ++ (putInt k v ++ c)).length := by
    simp only [List.length_append, length_putInt, hb]
  have hroom : s.idx_ + a.length + (putInt k v).length ≤ (s.push (a ++ (b ++ c)) h).idx_ := by
    rw [push_idx, hlen]
    simp only [List.length_append]
    omega
  refine (dif_pos hroom).trans (congrArg (EStateM.Result.ok ()) (JyDataWriteStream.ext ?_ ?_ ?_))
  · change overwrite (s.written ++ (a ++ (b ++ c))) (s.written.length + a.length) (putInt k v) = _
    rw [push_written, overwrite, ← List.append_assoc s.written a, ← List.length_append,
      List.take_left, ← List.drop_drop, List.drop_left, length_putInt, List.drop_left' hb,
      List.append_assoc]
  · change (s.push _ h).size_ = _
    rw [push_size, push_size, hlen]
  · change (s.push _ h).holder = _
    rw [push_holder, push_holder, hlen]

/-- A call that succeeds had room for what it appended. -/
theorem Emits.of_run {α : Type} {w : WriteM α} {bs : Bytes} {a b : α} (h : Emits w bs (.ok a))
    {s s' : JyDataWriteStream} (hrun : w.run s = .ok b s') :
    s'.written = s.written ++ bs ∧ bs.length < 2 ^ 31 := by
  by_cases hlt : s.idx_ + bs.length < 2 ^ 31
  · rw [h.run s hlt] at hrun
    injection hrun with _ hpush
    exact ⟨hpush ▸ rfl, by omega⟩
  · obtain ⟨t, ht, -⟩ := h.overrun s (not_lt.mp hlt)
    rw [ht] at hrun
    cases hrun

end JyDataWriteStream

/-! ## Both sides -/

open JyDataReadStream JyDataWriteStream

/-- Whatever the writer appends to a stream, in a packet that ends behind it the reader finds `a`. -/
def ReadBack {α : Type} (write : WriteM Unit) (read : ReadM α) (a : α) : Prop :=
  ∀ s s', write.run s = .ok () s' →
    ∃ payload, s'.written = s.written ++ payload ∧ ReadsLast read payload a

theorem ReadBack.of_emits {α : Type} {write : WriteM Unit} {read : ReadM α} {a : α} {bs : Bytes}
    (hw : Emits write bs (.ok ())) (hr : bs.length < 2 ^ 31 → ReadsLast read bs a) :
    ReadBack write read a := by
  intro s s' hrun
  obtain ⟨hwritten, hlt⟩ := hw.of_run hrun
  exact ⟨bs, hwritten, hr hlt⟩

end EuhatExpert
