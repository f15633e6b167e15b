import EuhatExpert.FileMan.DiskFileOp
import EuhatExpert.Machinery.Run

/-!
# FileMan/WriteTruth — does a file hold what `fmWriteFile` says was written

A segment that does not start at the end of the file but ends there is taken for one written before, by its
length alone.  A call tells the truth exactly if such a segment is what the file has there, and a segment at
the end has no negative length (`tells_iff`).
-/

namespace EuhatExpert

open Machinery TraceM

namespace Disk

/-- A call of `fmWriteFile`, with the position, the length and the block a packet has for it. -/
structure WriteCall where
  path : Bytes
  pos : ℤ
  len : ℤ
  block : Bytes
  length_block : block.length = len.toNat

/-- What `getBuf` finds: of a negative length `fwrite` makes a size beyond all room. -/
def WriteCall.segment (call : WriteCall) : Segment :=
  ⟨call.pos, call.len, if call.len < 0 then .error .outside else .ok call.block⟩

variable (isUnix : Bool) (free : Bytes → ℤ)

/-- What a call returns, and the disk it leaves. -/
def WriteCall.exec (call : WriteCall) (d : Disk) : Option (ℤ × Disk) :=
  TraceM.exec (fmWriteFile (os isUnix free) (.ok call.segment) call.path) d

/-- A call returned, and left the disk as it is. -/
def Returned (d : Disk) (call : WriteCall) (d' : Disk) : Prop :=
  ∃ ret, call.exec isUnix free d = some (ret, d')

/-- A content has a block at a position where it ends, and before it what another has. -/
structure HasBlock (pos len : ℤ) (block old new : Bytes) : Prop where
  nonneg : 0 ≤ pos
  length : new.length = pos + len
  block : new.drop pos.toNat = block
  earlier : new.take pos.toNat = old.take pos.toNat

/-- **A call tells the truth**: it returns, not below zero only where the block is in the file, and with `-1`
only where nothing changed. -/
def Tells (d : Disk) (call : WriteCall) : Prop :=
  ∃ ret d', call.exec isUnix free d = some (ret, d') ∧
    (0 ≤ ret → HasBlock call.pos call.len call.block (contentOf (d.get call.path))
      (contentOf (d'.get call.path))) ∧
    (ret = -1 → contentOf (d'.get call.path) = contentOf (d.get call.path))

/-- A segment at the end of the file has no negative length, and one that ends there is what the file has. -/
structure Honest (call : WriteCall) (content : Bytes) : Prop where
  atEnd : call.pos = content.length → 0 ≤ call.len
  again : call.pos ≠ content.length → call.pos + call.len = content.length → 0 ≤ call.len →
    0 ≤ call.pos ∧ content.drop call.pos.toNat = call.block

variable {isUnix free} {d : Disk} {call : WriteCall}

/-- What is returned where the file opens. -/
theorem exec_of_opens {content : Bytes} (h : opens call.path (d.get call.path) = some content) :
    ∃ d₁ : Disk, d₁.get call.path = some (.file content) ∧ call.exec isUnix free d =
      if call.pos ≠ content.length then
        some (if call.pos + call.len = content.length then call.len else -1, d₁)
      else if call.len < 0 then none else some (call.len, fwrite call.path call.block d₁) := by
  obtain ⟨d₁, hopen, hget⟩ := fopenAppend_of_some h
  have hfile : (d₁.file call.path).getD [] = content := by rw [file_of_get hget]; rfl
  refine ⟨d₁, hget, ?_⟩
  rw [WriteCall.exec, TraceM.exec, fmWriteFile, EStateM.run_bind, Os.openAppend, run_call]
  dsimp only [os]
  rw [hopen]
  dsimp only [WriteCall.segment]
  rw [if_pos rfl, TraceM.ofExcept, EStateM.run_bind, EStateM.run_pure]
  dsimp only
  rw [EStateM.run_bind]
  unfold Os.onHandle
  dsimp only [EStateM.run]
  rw [hfile]
  split_ifs with hpos hlen hneg
  · rfl
  · rfl
  · rfl
  · rfl

theorem contentOf_fwrite {content : Bytes} {d₁ : Disk} (path block : Bytes)
    (hget : d₁.get path = some (.file content)) :
    contentOf ((fwrite path block d₁).get path) = content ++ block := by
  rw [fwrite, file_of_get hget]
  dsimp only
  rw [get_set_self, contentOf]

/-- Where the file does not open, `-1` is the truth. -/
theorem tells_of_none (h : opens call.path (d.get call.path) = none) : Tells isUnix free d call :=
  ⟨-1, d, (fmWriteFile_yields_of_none h _).exec_eq, fun h => absurd h (by decide), fun _ => rfl⟩

/-- A block that is appended is there. -/
theorem hasBlock_append (block content : Bytes) :
    HasBlock content.length block.length block content (content ++ block) where
  nonneg := Int.natCast_nonneg _
  length := by rw [List.length_append, Nat.cast_add]
  block := by rw [Int.toNat_natCast, List.drop_left]
  earlier := by rw [Int.toNat_natCast, List.take_left, List.take_length]

/-- A file that is left alone has a block where it ends, if the block is what it has there. -/
theorem hasBlock_self_iff {pos len : ℤ} {block content : Bytes} (h : pos + len = content.length) :
    HasBlock pos len block content content ↔ 0 ≤ pos ∧ content.drop pos.toNat = block :=
  ⟨fun hblock => ⟨hblock.nonneg, hblock.block⟩, fun ⟨hpos, hdrop⟩ => ⟨hpos, h.symm, hdrop, rfl⟩⟩

/-- **A call tells the truth exactly if it is honest about the content it finds.** -/
theorem tells_iff : Tells isUnix free d call ↔
    ∀ content, opens call.path (d.get call.path) = some content → Honest call content := by
  cases hopens : opens call.path (d.get call.path) with
  | none => exact ⟨fun _ => nofun, fun _ => tells_of_none hopens⟩
  | some content =>
    obtain ⟨d₁, hget, hexec⟩ := @exec_of_opens isUnix free d call content hopens
    have hold : contentOf (d.get call.path) = content := (opens_eq hopens).symm
    have hnew : contentOf (d₁.get call.path) = content := by rw [hget, contentOf]
    simp only [Option.some.injEq, forall_eq']
    rw [Tells, hexec, hold]
    split_ifs with hpos hlen hneg
    · -- taken for a repetition
      simp only [Option.some.injEq, Prod.mk.injEq, ↓existsAndEq, hnew, true_and]
      rw [hasBlock_self_iff hlen]
      exact ⟨fun h => ⟨fun hend => absurd hend hpos, fun _ _ => h.1⟩,
        fun h => ⟨h.again hpos hlen, fun _ => trivial⟩⟩
    · -- refused
      refine ⟨fun _ => ⟨fun hend => absurd hend hpos, fun _ h => absurd h hlen⟩, fun _ => ?_⟩
      exact ⟨-1, d₁, rfl, fun h => absurd h (by decide), fun _ => hnew⟩
    · rw [not_not] at hpos
      exact ⟨fun ⟨_, _, h, _⟩ => (nomatch h), fun h => absurd (h.atEnd hpos) (not_le.mpr hneg)⟩
    · -- appended
      rw [not_not] at hpos
      rw [not_lt] at hneg
      have hlen : call.len = call.block.length := by rw [call.length_block, Int.toNat_of_nonneg hneg]
      refine ⟨fun _ => ⟨fun _ => hneg, fun hne => absurd hpos hne⟩, fun _ => ⟨_, _, rfl, fun _ => ?_, ?_⟩⟩
      · rw [contentOf_fwrite _ _ hget, hpos, hlen]
        exact hasBlock_append _ _
      · omega

variable (isUnix free) in
/-- **A run of calls, of any clients on any files, tells the truth all along exactly if its calls are honest
about what they find.** -/
theorem run_tells_iff (d d' : Disk) (calls : List WriteCall) :
    Run (restrict (Returned isUnix free) (Tells isUnix free)) d calls d' ↔
      Run (restrict (Returned isUnix free) fun d call => ∀ content,
        opens call.path (d.get call.path) = some content → Honest call content) d calls d' :=
  ⟨fun h => h.mono fun _ _ _ hr => ⟨hr.1, tells_iff.mp hr.2⟩,
    fun h => h.mono fun _ _ _ hr => ⟨hr.1, tells_iff.mpr hr.2⟩⟩

/-- A stale block `x` for the file `ab`, from the position 1 on. -/
def staleCall : WriteCall := ⟨[97], 1, 1, [120], rfl⟩

/-- **It is acknowledged, and the file still ends with `b`.** -/
theorem not_tells_staleCall : ¬ Tells true (fun _ => 0) [([97], .file [97, 98])] staleCall := by
  intro h
  exact absurd ((tells_iff.mp h _ rfl).again (by decide) (by decide) (by decide)).2 (by decide)

end Disk

end EuhatExpert
