import EuhatExpert.FileMan.CopyParts

/-!
# FileMan/CopyRun — a copy under way

The tree that is copied stays as it is, so that a listing makes the same tasks whenever it is taken.  The tasks that
are over and those that come of the ones in the queue are the copy's tasks, each once (`Books`), and a file is at the
other side as far as the offset of its task (`Copying`).  Whatever happens next, less is left to do (`Copying.step`).
-/

namespace EuhatExpert

open Machinery TraceM

variable {X : Type}

/-- The offset of a transfer. -/
def FmTask.Body.offset_ : FmTask.Body → ℤ
  | .download t | .upload t => t.offset_
  | _ => 0

namespace Errand

/-- The tasks of a copy; a transfer may be at any offset. -/
inductive Carries (E : Errand) : Item → FmTask.Body → Prop
  | plain {i : Item} : E.Belongs i → (∀ n, i ≠ .file n) → Carries E i (E.body i)
  | file {n : Node} (offset_ : ℤ) : E.Belongs (.file n) → Carries E (.file n) (E.sending n offset_)

/-- The turns a task still takes, at most: a transfer goes on with every one. -/
def turns (content : Node → Bytes) : Item → ℤ → ℕ
  | .file n, offset_ =>
    if offset_ < 0 then (content n).length + 2 else (content n).length + 1 - offset_.toNat
  | .list _, _ | .new _, _ | .del _, _ => 1

variable {E : Errand} {content : Node → Bytes} {i : Item} {n : Node} {b : FmTask.Body}

theorem offset_sending (n : Node) (offset_ : ℤ) : (E.sending n offset_).offset_ = offset_ := by
  rw [sending]
  split_ifs
  · rfl
  · rfl

theorem item_sending (hn : n ∈ E.tree.nodes) (offset_ : ℤ) : E.item (E.sending n offset_) = .file n := by
  have hnode := congrArg Item.file (Place.node_path (P := E.src) (E.tree.isPart n hn))
  rw [sending]
  split_ifs
  · exact hnode
  · exact hnode

theorem isLocal_sending {t : FmTask} {offset_ : ℤ} (h : t.body = E.sending n offset_) : t.isLocal = false := by
  rw [FmTask.isLocal, h, sending]
  split_ifs
  · rfl
  · rfl

theorem Carries.belongs (h : E.Carries i b) : E.Belongs i := by
  cases h with
  | plain hi _ => exact hi
  | file offset_ hn => exact hn

theorem Carries.body_eq (h : E.Carries i b) (hfile : ∀ n, i ≠ .file n) : b = E.body i := by
  cases h with
  | plain hi _ => rfl
  | file offset_ hn => exact absurd rfl (hfile _)

theorem Carries.ne_copy (h : E.Carries i b) (remote : Bool) (d : FmTaskCopy) : b ≠ .copy remote d := by
  cases h with
  | plain _ hfile =>
    cases i with
    | file n => exact absurd rfl (hfile n)
    | _ => exact fun h => FmTask.Body.noConfusion h
  | file offset_ _ =>
    rw [sending]
    split_ifs
    · exact fun h => FmTask.Body.noConfusion h
    · exact fun h => FmTask.Body.noConfusion h

/-- Every file comes once of the listing of the root. -/
theorem count_file_le (c : Node) : (E.whole (.list [])).count (.file c) ≤ 1 := by
  have hclosing : ∀ m, (E.closing m : Multiset Item).count (.file c) = 0 := by
    intro m
    rw [closing, Multiset.coe_count]
    cases E.fells <;> cases E.copies <;> simp
  have hown : ∀ m ∈ E.tree.below [], (E.own m).count (.file c) = if c = m then if E.tree.isFolder c then 0 else 1 else 0 := by
    intro m _
    rw [own, Multiset.count_add, inside, Multiset.coe_count]
    by_cases hcm : c = m
    · subst hcm
      cases E.tree.isFolder c
      · simp
      · cases E.copies <;> simp [hclosing]
    · cases E.tree.isFolder m <;> cases E.copies <;> simp [hclosing, hcm, Ne.symm hcm]
  rw [whole, Multiset.count_cons_of_ne (show Item.file c ≠ .list [] by simp), Multiset.count_add, hclosing,
    Multiset.count_sum',
    Finset.sum_congr rfl hown, Finset.sum_ite_eq]
  split_ifs <;> simp

end Errand

/-! ## The books of a copy -/

open Workers

/-- The tasks of a copy, over or in the queue, each once. -/
structure Books (E : Errand) (ended : List FmTask) (q : FmScheduler) : Prop where
  ok : ∀ t ∈ q.tasks_, t.result_ = FmResultOk
  tasks : ∀ t ∈ q.tasks_, E.Carries (E.item t.body) t.body
  past : ∀ t ∈ ended, E.Carries (E.item t.body) t.body
  account : items E ended + coming E q = E.whole (.list [])

/-- The turns of all that comes of a task. -/
def turnsOf (E : Errand) (content : Node → Bytes) (i : Item) : ℕ :=
  ((E.whole i).map fun j => Errand.turns content j (-1)).sum

/-- The turns of a task in the queue, and of what will come of it. -/
def turnsLeft (E : Errand) (content : Node → Bytes) (b : FmTask.Body) : ℕ :=
  Errand.turns content (E.item b) b.offset_ + ((E.spawn (E.item b)).map (turnsOf E content)).sum

/-- The turns that are left. -/
def toDo (E : Errand) (content : Node → Bytes) (q : FmScheduler) : ℕ :=
  ((q.tasks_ : Multiset FmTask).map fun t => turnsLeft E content t.body).sum

namespace Books

variable {E : Errand} {content : Node → Bytes} {ended : List FmTask} {q q' : FmScheduler} {t u : FmTask} {n m : Node}

variable (h : Books E ended q)

include h

theorem count_file_le (c : Node) : (items E ended + coming E q).count (.file c) ≤ 1 := by
  rw [h.account]
  exact Errand.count_file_le c

/-- The file of a task in the queue is not over. -/
theorem notMem_ended (ht : t ∈ q.tasks_) (hn : E.item t.body = .file n) : .file n ∉ items E ended := by
  intro hended
  have hle := h.count_file_le n
  rw [Multiset.count_add] at hle
  have h₁ := Multiset.one_le_count_iff_mem.mpr hended
  have h₂ : 1 ≤ (coming E q).count (.file n) := Multiset.one_le_count_iff_mem.mpr
    (Multiset.mem_bind.mpr ⟨t, Multiset.mem_coe.mpr ht, hn ▸ Errand.spawns.self_mem _⟩)
  omega

/-- No other task is for the file. -/
theorem eq_of_item_eq (ht : t ∈ q.tasks_) (hu : u ∈ q.tasks_) (htn : E.item t.body = .file n)
    (hun : E.item u.body = .file n) : t = u := by
  have hle := h.count_file_le n
  rw [Multiset.count_add] at hle
  exact eq_of_count_bind_le_one (f := fun t : FmTask => E.whole (E.item t.body)) (Nat.le_of_add_left_le hle)
    ht hu (htn ▸ Errand.spawns.self_mem _) (hun ▸ Errand.spawns.self_mem _)

/-- **A task is over.** -/
theorem pass (hfile : ∀ n, E.fileBody n = E.sending n (-1)) (ht : t ∈ q.tasks_) {is : List Item}
    (his : (is : Multiset Item) = E.spawn (E.item t.body))
    (hreplaces : q.Replaces t (FmScheduler.drawFrom q.idxBase_ (is.map E.body)) q') :
    Books E (ended ++ [t]) q' ∧
      toDo E content q' + Errand.turns content (E.item t.body) t.body.offset_ = toDo E content q := by
  have hcarries := h.tasks t ht
  have hbelongs : ∀ i ∈ is, E.Belongs i := fun i hi =>
    Errand.belongs_of_mem_spawn hcarries.belongs (his ▸ Multiset.mem_coe.mpr hi)
  have hfresh : ∀ i, E.Belongs i → E.Carries i (E.body i) ∧
      Errand.turns content i (E.body i).offset_ = Errand.turns content i (-1) := by
    intro i hi
    cases i with
    | file n =>
      rw [show E.body (.file n) = E.sending n (-1) from hfile n, Errand.offset_sending]
      exact ⟨.file _ hi, rfl⟩
    | _ => exact ⟨.plain hi nofun, rfl⟩
  refine ⟨⟨fun u hu => ?_, fun u hu => ?_, fun u hu => ?_, ?_⟩, ?_⟩
  · rcases hreplaces.mem_iff.mp hu with hu | ⟨hu, -⟩
    · exact ((FmScheduler.pairwise_drawFrom _ _).2 u hu).2
    · exact h.ok u hu
  · rcases hreplaces.mem_iff.mp hu with hu | ⟨hu, -⟩
    · obtain ⟨i, hi, hbody, hitem⟩ := Tracks.exists_item_of_drawFrom hbelongs hu
      rw [hitem, hbody]
      exact (hfresh i (hbelongs i hi)).1
    · exact h.tasks u hu
  · rcases List.mem_append.mp hu with hu | hu
    · exact h.past u hu
    · rw [List.mem_singleton.mp hu]
      exact hcarries
  · rw [items_append, items_singleton, add_assoc, Tracks.coming_of_replaces hbelongs his hreplaces, h.account]
  · have hsum := hreplaces.sum_eq fun t => turnsLeft E content t.body
    have hmade : (((FmScheduler.drawFrom q.idxBase_ (is.map E.body) : List FmTask) : Multiset FmTask).map
        fun t => turnsLeft E content t.body).sum = ((E.spawn (E.item t.body)).map (turnsOf E content)).sum := by
      have hmap : (FmScheduler.drawFrom q.idxBase_ (is.map E.body)).map (fun t => turnsLeft E content t.body)
          = (is.map E.body).map (turnsLeft E content) := by
        rw [← FmScheduler.map_body_drawFrom q.idxBase_ (is.map E.body), List.map_map,
          FmScheduler.map_body_drawFrom q.idxBase_ (is.map E.body)]
        rfl
      rw [← his, Multiset.map_coe, Multiset.map_coe, Multiset.sum_coe, Multiset.sum_coe, hmap, List.map_map]
      refine congrArg List.sum (List.map_congr_left fun i hi => ?_)
      rw [Function.comp_apply, turnsLeft, Errand.item_body (hbelongs i hi), (hfresh i (hbelongs i hi)).2, turnsOf,
        Errand.spawns.sum_whole]
      rfl
    rw [hmade, turnsLeft] at hsum
    rw [toDo, toDo]
    omega

/-- **A transfer goes on.** -/
theorem further {id k l : ℤ} (hn : E.Belongs (.file n))
    (hreplaces : q.Replaces ⟨id, FmResultOk, E.sending n k⟩ [⟨id, FmResultOk, E.sending n l⟩] q') :
    Books E ended q' ∧ toDo E content q' + Errand.turns content (.file n) k
      = toDo E content q + Errand.turns content (.file n) l := by
  have hitem := fun k => @Errand.item_sending E n hn.1 k
  refine ⟨⟨fun u hu => ?_, fun u hu => ?_, h.past, ?_⟩, ?_⟩
  · rcases hreplaces.mem_iff.mp hu with hu | ⟨hu, -⟩
    · rw [List.mem_singleton.mp hu]
    · exact h.ok u hu
  · rcases hreplaces.mem_iff.mp hu with hu | ⟨hu, -⟩
    · rw [List.mem_singleton.mp hu, hitem]
      exact .file _ hn
    · exact h.tasks u hu
  · have hbind := hreplaces.bind_eq fun t => E.whole (E.item t.body)
    rw [Multiset.coe_singleton, Multiset.singleton_bind, hitem, hitem, add_comm] at hbind
    rw [show coming E q' = coming E q from add_left_cancel hbind, h.account]
  · have hsum := hreplaces.sum_eq fun t => turnsLeft E content t.body
    rw [Multiset.coe_singleton, Multiset.map_singleton, Multiset.sum_singleton, turnsLeft, turnsLeft, hitem, hitem,
      Errand.offset_sending, Errand.offset_sending] at hsum
    rw [toDo, toDo]
    omega

end Books

/-! ## What is on the line -/

/-- What a task other than a transfer comes to while the source stays as it is. -/
theorem Errand.CopiesOn.deed_plain {E : Errand} {dst : Place} {S : Sides.Setup X} {content : Node → Bytes}
    {holds : X → (Node → Bytes) → Prop} {x₀ : X} (h : E.CopiesOn dst S content holds x₀) {i : Item} (hi : E.Belongs i)
    (hfile : ∀ n, i ≠ .file n) {disks : Bool → X} {f : Node → Bytes} (hsource : disks E.src.remote = x₀)
    (htarget : holds (disks !E.src.remote) f) : ∃ (is : List Item) (x : X),
      deed (S.os (E.side i)) (S.loop (E.side i)) (disks (E.side i)) (E.body i) = (some (is.map E.body), x) ∧
      (is : Multiset Item) = E.spawn i ∧ Function.update disks (E.side i) x E.src.remote = x₀ ∧
      holds (Function.update disks (E.side i) x !E.src.remote) f := by
  have hne : E.src.remote ≠ !E.src.remote := (Bool.not_ne_self _).symm
  cases i with
  | list n =>
    obtain ⟨bytes, cs, hbytes, hread, hnodup, hcs⟩ := h.reads.listed n hi.1 hi.2
    rw [← hsource] at hbytes
    refine ⟨cs.flatMap E.inside ++ E.closing n, _, deed_of_listed h.fits hbytes hread fun c => (hcs c).mp,
      Errand.coe_spawn hnodup hcs, ?_, ?_⟩
    · exact (Function.update_self _ _ _).trans hsource
    · rwa [side, Function.update_of_ne hne.symm]
  | file n => exact absurd rfl (hfile n)
  | new n =>
    obtain ⟨hmade, hheld⟩ := h.takes.made _ f n htarget hi.1 hi.2.1
    have hcreated : FmLocal.created (S.os !E.src.remote) ⟨dst.path n, 1, false⟩ (disks !E.src.remote)
        = (S.os !E.src.remote).opMkDir (dst.path n) ((S.os !E.src.remote).whPrepareFolder (dst.path n)
          (disks !E.src.remote)) := if_pos one_ne_zero
    refine ⟨[], ((S.os !E.src.remote).opMkDir (dst.path n) ((S.os !E.src.remote).whPrepareFolder (dst.path n)
      (disks !E.src.remote))).2, ?_, rfl, ?_, ?_⟩
    · rw [body, deed, side, h.peerPath_eq, hcreated, hmade, Bool.true_or, if_pos rfl]
      rfl
    · rwa [side, Function.update_of_ne hne]
    · rw [side, Function.update_self]
      exact hheld
  | del n =>
    obtain ⟨-, -, hfells⟩ := hi
    rw [h.fells_eq] at hfells
    cases hfells

open Errand Errand.CopiesOn Sides

/-- What the client asked for, or was answered.  While the answer to an upload is under way, its task is `busy`: it
is behind the server. -/
inductive Copying.OnLine (E : Errand) (S : Sides.Setup X) (content f : Node → Bytes) (ts : List FmTask) :
    Option FmTask → Bool → List FmReq → List FmAck → Prop
  | idle : OnLine E S content f ts none true [] []
  | asked {t : FmTask} {r : FmReq} : t ∈ ts → t.isLocal = false → (∀ n, E.item t.body ≠ .file n) → Asks S t r →
      OnLine E S content f ts none false [r] []
  | answered {t : FmTask} {is : List Item} {a : FmAck} : t ∈ ts → t.isLocal = false →
      (∀ n, E.item t.body ≠ .file n) → (is : Multiset Item) = E.spawn (E.item t.body) →
      Answers S t (some (is.map E.body)) a → OnLine E S content f ts none false [] [a]
  | askedDown {id : ℤ} {n : Node} {k : ℕ} : E.src.remote = true → E.Belongs (.file n) →
      ⟨id, FmResultOk, E.sending n k⟩ ∈ ts → k ≤ (content n).length → f n = (content n).take k → OnLine E S content f ts none false
        [.down ⟨id, E.src.path n, k, FILE_MAN_RECV_FILE_SEGMENT_MAX_LEN⟩] []
  | answeredDown {id : ℤ} {n : Node} {k : ℕ} : E.src.remote = true → E.Belongs (.file n) →
      ⟨id, FmResultOk, E.sending n k⟩ ∈ ts → k ≤ (content n).length → f n = (content n).take k → OnLine E S content f ts none false []
        [.down ⟨id, E.src.path n, Disk.segmentOf (content n) k segmentLen⟩]
  | askedUp {id offset : ℤ} {n : Node} : E.src.remote = false → E.Belongs (.file n) →
      ⟨id, FmResultOk, E.sending n offset⟩ ∈ ts →
      OnLine E S content f ts none false [.up (upRequest E content n id offset)] []
  | answeredUp {id offset : ℤ} {n : Node} {p : ℤ × ℤ} : E.src.remote = false → E.Belongs (.file n) →
      ⟨id, FmResultOk, E.sending n offset⟩ ∈ ts → Passes (content n) offset p (f n) →
      OnLine E S content f ts (some ⟨id, FmResultOk, E.sending n offset⟩) false []
        [.up ⟨id, E.peerPath_ n, p.1, p.2⟩]

/-- Files are over as far as the offsets of their tasks. -/
def Copying.Reaches (E : Errand) (content f : Node → Bytes) (busy : Option FmTask) (ts : List FmTask) : Prop :=
  ∀ t ∈ ts, some t ≠ busy → ∀ n, E.item t.body = .file n → Reached (content n) t.body.offset_ (f n)

/-- A copy under way, with what the files at the other side have in them. -/
structure Copying (E : Errand) (S : Sides.Setup X) (content : Node → Bytes) (holds : X → (Node → Bytes) → Prop) (x₀ : X)
    (ended : List FmTask) (f : Node → Bytes) (s : Sides X) : Prop where
  source : s.disks E.src.remote = x₀
  target : holds (s.disks !E.src.remote) f
  books : Books E ended s.scheduler_
  copied : ∀ n, .file n ∈ items E ended → f n = content n
  line : ∃ busy, Copying.OnLine E S content f s.tasks_ busy s.client.canSend_ s.requests s.acks ∧
    Copying.Reaches E content f busy s.tasks_

namespace Copying

variable {E : Errand} {dst : Place} {S : Sides.Setup X} {content f f' : Node → Bytes}
  {holds : X → (Node → Bytes) → Prop} {x₀ : X} {ended : List FmTask} {s s' : Sides X} {t : FmTask} {n : Node}
  {q q' : FmScheduler} {busy : Option FmTask} {ts ts' : List FmTask}

/-- What is on the line stands as long as the client's tasks are in the queue. -/
theorem OnLine.mono {can : Bool} {requests : List FmReq} {acks : List FmAck}
    (h : OnLine E S content f ts busy can requests acks) (hts : ∀ t ∈ ts, t.isLocal = false → t ∈ ts') :
    OnLine E S content f ts' busy can requests acks := by
  cases h with
  | idle => exact .idle
  | asked ht hlocal hfile hasks => exact .asked (hts _ ht hlocal) hlocal hfile hasks
  | answered ht hlocal hfile his hanswers => exact .answered (hts _ ht hlocal) hlocal hfile his hanswers
  | askedDown hremote hn ht hk hf => exact .askedDown hremote hn (hts _ ht (isLocal_sending rfl)) hk hf
  | answeredDown hremote hn ht hk hf => exact .answeredDown hremote hn (hts _ ht (isLocal_sending rfl)) hk hf
  | askedUp hremote hn ht => exact .askedUp hremote hn (hts _ ht (isLocal_sending rfl))
  | answeredUp hremote hn ht hpasses => exact .answeredUp hremote hn (hts _ ht (isLocal_sending rfl)) hpasses

/-- **A task that is over leaves the others as far as they are**, and those it made are not begun. -/
theorem Reaches.pass (hfile : ∀ n, E.fileBody n = E.sending n (-1)) (hbooks : Books E ended q) (ht : t ∈ q.tasks_)
    (h : ∀ u ∈ q.tasks_, u ≠ t → some u ≠ busy → ∀ n, E.item u.body = .file n → Reached (content n) u.body.offset_ (f n))
    (hf : ∀ n, E.item t.body ≠ .file n → f' n = f n) {is : List Item}
    (his : (is : Multiset Item) = E.spawn (E.item t.body))
    (hreplaces : q.Replaces t (FmScheduler.drawFrom q.idxBase_ (is.map E.body)) q') :
    Reaches E content f' busy q'.tasks_ := by
  intro u hu hbusy n hn
  rcases hreplaces.mem_iff.mp hu with hu | ⟨hu, hne⟩
  · obtain ⟨i, hi, hbody, hitem⟩ := Tracks.exists_item_of_drawFrom (fun i hi =>
      belongs_of_mem_spawn (hbooks.tasks t ht).belongs (his ▸ Multiset.mem_coe.mpr hi)) hu
    obtain rfl : i = .file n := hitem.symm.trans hn
    rw [hbody, show E.body (.file n) = E.sending n (-1) from hfile n, offset_sending]
    exact .inl (by decide)
  · rw [hf n fun htn => hne (hbooks.eq_of_item_eq hu ht hn htn)]
    exact h u hu hne hbusy n hn

/-- **A transfer that goes on leaves the others as far as they are.** -/
theorem Reaches.further {id offset : ℤ} {k : ℕ} (hbooks : Books E ended q) (hn : n ∈ E.tree.nodes)
    (ht : ⟨id, FmResultOk, E.sending n offset⟩ ∈ q.tasks_)
    (h : ∀ u ∈ q.tasks_, u ≠ ⟨id, FmResultOk, E.sending n offset⟩ → ∀ n, E.item u.body = .file n →
      Reached (content n) u.body.offset_ (f n))
    (hf : ∀ m, m ≠ n → f' m = f m) (hk : k ≤ (content n).length) (hfn : f' n = (content n).take k)
    (hreplaces : q.Replaces ⟨id, FmResultOk, E.sending n offset⟩ [⟨id, FmResultOk, E.sending n k⟩] q') :
    Reaches E content f' none q'.tasks_ := by
  intro u hu _ m hm
  rcases hreplaces.mem_iff.mp hu with hu | ⟨hu, hne⟩
  · rw [List.mem_singleton.mp hu] at hm ⊢
    obtain rfl : n = m := Item.file.inj ((item_sending hn _).symm.trans hm)
    rw [offset_sending]
    exact .inr ⟨k, rfl, hk, hfn⟩
  · have hmn : m ≠ n := by
      rintro rfl
      exact hne (hbooks.eq_of_item_eq hu ht hm (item_sending hn offset))
    rw [hf m hmn]
    exact h u hu hne m hm

/-! ## Steps -/

/-- What is copied without the messages is copied with them. -/
theorem of_quiet (h : Copying E S content holds x₀ ended f s.quiet) : Copying E S content holds x₀ ended f s :=
  ⟨h.source, h.target, h.books, h.copied, h.line⟩

/-- What is done on the disk of the other side leaves the source. -/
theorem update_other {side : Bool} (hside : side = !E.src.remote) {disks : Bool → X} {x : X}
    (hsource : disks E.src.remote = x₀) (hx : holds x f') :
    Function.update disks side x E.src.remote = x₀ ∧ holds (Function.update disks side x !E.src.remote) f' := by
  subst hside
  rw [Function.update_self, Function.update_of_ne (Bool.not_ne_self _).symm]
  exact ⟨hsource, hx⟩

theorem turns_lt {k : ℕ} {offset : ℤ} (hlt : offset < k) (hk : k ≤ (content n).length) :
    turns content (.file n) k < turns content (.file n) offset := by
  rw [turns, turns]
  split_ifs
  · omega
  · omega
  · omega
  · omega

/-- The steps before the client can send again. -/
def phase (s : Sides X) : ℕ := if s.client.canSend_ then 2 else s.requests.length

/-- The steps that are left at most: three for a turn. -/
def stepsLeft (E : Errand) (content : Node → Bytes) (s : Sides X) : ℕ := 3 * toDo E content s.scheduler_ + phase s

/-- The copy goes on, with less left to do. -/
def Next (E : Errand) (S : Setup X) (content : Node → Bytes) (holds : X → (Node → Bytes) → Prop) (x₀ : X)
    (ended : List FmTask) (s s' : Sides X) : Prop :=
  ∃ f', Copying E S content holds x₀ (ended ++ s.scheduler_.gone s'.scheduler_) f' s' ∧
    stepsLeft E content s' < stepsLeft E content s

variable (hC : E.CopiesOn dst S content holds x₀) (h : Copying E S content holds x₀ ended f s)

include hC h

omit hC in
/-- What the files have in them that are over stays as it is. -/
theorem copied_of_ne (ht : t ∈ s.tasks_) (hf : ∀ m, E.item t.body ≠ .file m → f' m = f m) {m : Node}
    (hm : .file m ∈ items E ended) : f' m = content m := by
  rw [hf m fun hitem => h.books.notMem_ended ht hitem hm]
  exact h.copied m hm

/-- **A task that is no transfer is over.** -/
theorem settled (ht : t ∈ s.tasks_) (hfile : ∀ n, E.item t.body ≠ .file n) {is : List Item}
    (his : (is : Multiset Item) = E.spawn (E.item t.body))
    (hreplaces : s.scheduler_.Replaces t (FmScheduler.drawFrom s.scheduler_.idxBase_ (is.map E.body)) s'.scheduler_)
    (hsource : s'.disks E.src.remote = x₀) (htarget : holds (s'.disks !E.src.remote) f)
    (hline : OnLine E S content f s'.tasks_ busy s'.client.canSend_ s'.requests s'.acks)
    (hreaches : Reaches E content f busy s.tasks_) (hphase : phase s' ≤ phase s + 2) :
    Next E S content holds x₀ ended s s' := by
  obtain ⟨hbooks, htoDo⟩ := @Books.pass E content _ _ _ _ h.books hC.fileBody_eq ht is his hreplaces
  have hgone : s.scheduler_.gone s'.scheduler_ = [t] := hreplaces.gone_eq fun u hu =>
    ((s.scheduler_.id_lt ht).trans_le ((FmScheduler.pairwise_drawFrom _ _).2 u hu).1).ne'
  have hone : turns content (E.item t.body) t.body.offset_ = 1 := by
    cases hitem : E.item t.body with
    | file n => exact absurd hitem (hfile n)
    | _ => rfl
  refine ⟨f, ⟨hsource, htarget, hgone ▸ hbooks, fun n hn => ?_, busy, hline, ?_⟩, ?_⟩
  · rw [hgone, items_append, Multiset.mem_add] at hn
    refine hn.elim (h.copied n) fun hn => ?_
    exact absurd (Multiset.mem_singleton.mp hn).symm (hfile n)
  · exact Reaches.pass hC.fileBody_eq h.books ht (fun u hu _ => hreaches u hu) (fun _ _ => rfl) his hreplaces
  · rw [stepsLeft, stepsLeft]
    omega

omit hC in
/-- **A transfer goes on.** -/
theorem goes_on {id offset : ℤ} {k : ℕ} (hn : E.Belongs (.file n))
    (ht : ⟨id, FmResultOk, E.sending n offset⟩ ∈ s.tasks_)
    (hreaches : Reaches E content f (some ⟨id, FmResultOk, E.sending n offset⟩) s.tasks_)
    (hk : k ≤ (content n).length)
    (hreplaces : s.scheduler_.Replaces ⟨id, FmResultOk, E.sending n offset⟩ [⟨id, FmResultOk, E.sending n k⟩]
      s'.scheduler_)
    (hsource : s'.disks E.src.remote = x₀)
    (htarget : holds (s'.disks !E.src.remote) (Function.update f n ((content n).take k)))
    (hline : OnLine E S content (Function.update f n ((content n).take k)) s'.tasks_ none s'.client.canSend_
      s'.requests s'.acks)
    (hless : 3 * turns content (.file n) k + phase s' < 3 * turns content (.file n) offset + phase s) :
    Next E S content holds x₀ ended s s' := by
  have hitem := item_sending hn.1 offset
  obtain ⟨hbooks, htoDo⟩ := @Books.further E content _ _ _ n h.books id offset k hn hreplaces
  have hgone : s.scheduler_.gone s'.scheduler_ = [] := hreplaces.gone_eq_nil ⟨_, List.mem_cons_self, rfl⟩
  refine ⟨_, ⟨hsource, htarget, ?_, fun m hm => ?_, none, hline, ?_⟩, ?_⟩
  · rwa [hgone, List.append_nil]
  · rw [hgone, List.append_nil] at hm
    exact copied_of_ne h ht (fun m hm => Function.update_of_ne (fun hmn : m = n => hm (hmn ▸ hitem)) _ _) hm
  · exact Reaches.further h.books hn.1 ht (fun u hu hne => hreaches u hu fun heq => hne (Option.some.inj heq))
      (fun m hm => Function.update_of_ne hm _ _) hk (Function.update_self _ _ _) hreplaces
  · rw [stepsLeft, stepsLeft]
    omega

/-- **The answer to a transfer was taken.** -/
theorem turned {id offset : ℤ} {there : Bytes} (hn : E.Belongs (.file n))
    (ht : ⟨id, FmResultOk, E.sending n offset⟩ ∈ s.tasks_)
    (hreaches : Reaches E content f (some ⟨id, FmResultOk, E.sending n offset⟩) s.tasks_)
    (hturns : E.Turns n (content n) id offset s.scheduler_ s'.scheduler_ there)
    (hsource : s'.disks E.src.remote = x₀) (htarget : holds (s'.disks !E.src.remote) (Function.update f n there))
    (hcan : s'.client.canSend_ = true) (hrequests : s'.requests = []) (hacks : s'.acks = []) :
    Next E S content holds x₀ ended s s' := by
  have hitem := item_sending hn.1 offset
  have hphase : phase s' = 2 := by rw [phase, if_pos hcan]
  have hother : ∀ u ∈ s.tasks_, u ≠ ⟨id, FmResultOk, E.sending n offset⟩ → ∀ m, E.item u.body = .file m →
      Reached (content m) u.body.offset_ (f m) := fun u hu hne => hreaches u hu fun heq => hne (Option.some.inj heq)
  have hline : ∀ f', OnLine E S content f' s'.tasks_ none s'.client.canSend_ s'.requests s'.acks := fun f' => by
    rw [hcan, hrequests, hacks]
    exact .idle
  have hf : ∀ m, E.item (E.sending n offset) ≠ .file m → Function.update f n there m = f m := fun m hm =>
    Function.update_of_ne (fun hmn : m = n => hm (hmn ▸ hitem)) _ _
  cases hturns with
  | @more k hlt hk hreplaces =>
    refine goes_on h hn ht hreaches hk hreplaces hsource htarget (hline _) ?_
    have hlt' := turns_lt hlt hk
    omega
  | @last k hoffset hk hreplaces =>
    have hnil : (([] : List Item) : Multiset Item) = E.spawn (E.item (E.sending n offset)) := by rw [hitem]; rfl
    obtain ⟨hbooks, htoDo⟩ := @Books.pass E content _ _ _ _ h.books hC.fileBody_eq ht [] hnil hreplaces
    have hgone : s.scheduler_.gone s'.scheduler_ = [⟨id, FmResultOk, E.sending n offset⟩] := hreplaces.gone_eq nofun
    refine ⟨_, ⟨hsource, htarget, hgone ▸ hbooks, fun m hm => ?_, none, hline _, ?_⟩, ?_⟩
    · rw [hgone, items_append, Multiset.mem_add] at hm
      rcases hm with hm | hm
      · exact copied_of_ne h ht hf hm
      · obtain rfl := Item.file.inj ((Multiset.mem_singleton.mp hm).trans hitem)
        exact Function.update_self _ _ _
    · exact Reaches.pass hC.fileBody_eq h.books ht (fun u hu hne _ => hother u hu hne) hf hnil hreplaces
    · have hpos : 1 ≤ turns content (.file n) offset := by
        rw [turns, hoffset, if_neg (not_lt.mpr (Int.natCast_nonneg k)), Int.toNat_natCast]
        omega
      rw [hitem, offset_sending] at htoDo
      rw [stepsLeft, stepsLeft, hphase]
      omega

omit hC in
/-- The client has asked, and all else is as it was. -/
theorem asks_next {r : FmReq} (hcan : s.client.canSend_ = true) (hrequests : s.requests = [])
    (hreaches : Reaches E content f none s.tasks_) (hasked : OnLine E S content f s.tasks_ none false [r] s.acks) :
    Next E S content holds x₀ ended s { s with
      client := { s.client with canSend_ := false }
      disks := Function.update s.disks false (s.disks false)
      requests := s.requests ++ [r] } := by
  have hgone : ended ++ s.scheduler_.gone s.scheduler_ = ended :=
    (congrArg (ended ++ ·) (FmScheduler.gone_self _)).trans (List.append_nil _)
  rw [Function.update_eq_self, hrequests, List.nil_append]
  refine ⟨f, ⟨h.source, h.target, hgone.symm ▸ h.books, hgone.symm ▸ h.copied, none, hasked, hreaches⟩, ?_⟩
  rw [stepsLeft, stepsLeft, phase, phase, if_pos hcan]
  exact Nat.add_lt_add_left (Nat.lt_succ_self 1) _

/-- **The client asks.** -/
theorem userLoop (hcan : s.client.canSend_ = true) (hfirst : s.scheduler_.getFirst true = some t) :
    ∃ q r x, exec (FileManClient.reqFirst (S.os false) s.scheduler_) (s.disks false) = some ((q, r), x) ∧
      Next E S content holds x₀ ended s { s with
        client := { s.client with scheduler_ := q, canSend_ := false }
        disks := Function.update s.disks false x
        requests := s.requests ++ r.toList } := by
  obtain ⟨busy, hline, hreaches⟩ := h.line
  obtain ⟨⟨can, q, userLoops⟩, disks, requests, acks, localLoops⟩ := s
  obtain rfl : can = true := hcan
  cases hline
  have hlocal : t.isLocal = false := by simpa using FmScheduler.isLocal_of_getFirst hfirst
  have hmem : t ∈ q.tasks_ := FmScheduler.mem_of_getFirst hfirst
  have hok := h.books.ok t hmem
  have hcarries := h.books.tasks t hmem
  obtain ⟨id, result, body⟩ := t
  obtain rfl : result = FmResultOk := hok
  dsimp only at hcarries
  generalize hitem : E.item body = i at hcarries
  cases hcarries with
  | plain hi hfile =>
    obtain ⟨r, hreq, hasks⟩ := asks (plain_of_ne_file hC.fits hi hfile) hlocal
    refine ⟨_, _, _, (reqFirst_yields hfirst (hreq (disks false))).exec_eq,
      asks_next h rfl rfl hreaches ?_⟩
    exact .asked hmem hlocal (fun n hn => hfile n (hitem.symm.trans hn)) hasks
  | @file n offset hn =>
    have hreached := hreaches _ hmem nofun n hitem
    rw [offset_sending] at hreached
    cases hremote : E.src.remote with
    | false =>
      have hsource : disks false = x₀ := hremote ▸ h.source
      have hreq := hC.up_req hremote hn.1 hn.2 (hreached.imp_right fun ⟨k, hk, hle, _⟩ => ⟨k, hk, hle⟩) id
      rw [← hsource] at hreq
      exact ⟨_, _, _, (reqFirst_yields hfirst hreq).exec_eq,
        asks_next h rfl rfl hreaches (.askedUp hremote hn hmem)⟩
    | true =>
      have hsource : disks true = x₀ := hremote ▸ h.source
      have htarget : holds (disks false) f := by
        have htarget := h.target
        rwa [hremote] at htarget
      obtain ⟨k, x, hreq, hoffset, hk, hheld⟩ := hC.down_req hremote hn.1 hn.2 htarget hreached id
      have hreplaces : q.Replaces ⟨id, FmResultOk, E.sending n offset⟩ [⟨id, FmResultOk, E.sending n k⟩]
          (q.write ⟨id, FmResultOk, E.sending n k⟩) :=
        FmScheduler.replaces_write hmem rfl (getPriority_sending _ _ _)
      refine ⟨_, _, _, (reqFirst_yields_write hfirst hreq).exec_eq,
        goes_on h hn hmem (fun u hu _ => hreaches u hu nofun) hk hreplaces ?_ ?_
          (.askedDown hremote hn (hreplaces.mem_iff.mpr (.inl List.mem_cons_self)) hk (Function.update_self _ _ _)) ?_⟩
      · exact (update_other (congrArg not hremote).symm h.source hheld).1
      · exact (update_other (congrArg not hremote).symm h.source hheld).2
      · have hle : turns content (.file n) k ≤ turns content (.file n) offset := by
          rcases hoffset with hneg | rfl
          · exact (turns_lt (hneg.trans_le (Int.natCast_nonneg k)) hk).le
          · exact le_rfl
        rw [phase, phase]
        change 3 * turns content (.file n) k + 1 < 3 * turns content (.file n) offset + 2
        omega

/-- **The server answers.** -/
theorem serve {r : FmReq} {rest : List FmReq} (hreq : s.requests = r :: rest) :
    ∃ a x, exec (FileManServer.echo (S.os true) S.baseDir_ r) (s.disks true) = some (a, x) ∧
      Next E S content holds x₀ ended s { s with
        disks := Function.update s.disks true x
        requests := rest
        acks := s.acks ++ [a] } := by
  obtain ⟨busy, hline, hreaches⟩ := h.line
  obtain ⟨⟨can, q, userLoops⟩, disks, requests, acks, localLoops⟩ := s
  obtain rfl : requests = r :: rest := hreq
  have hgone : ended ++ q.gone q = ended :=
    (congrArg (ended ++ ·) (FmScheduler.gone_self _)).trans (List.append_nil _)
  have hless : 3 * toDo E content q + 0 < 3 * toDo E content q + 1 := Nat.lt_succ_self _
  cases hline with
  | @asked t _ ht hlocal hfile hasks =>
    obtain ⟨a, hyields, hanswers⟩ := hasks (disks true)
    have hcarries := h.books.tasks t ht
    have hbody := hcarries.body_eq hfile
    have hside : E.side (E.item t.body) = true := by simpa [hlocal] using isLocal_of_ne_file hfile hbody
    obtain ⟨is, x, hdeed, his, hsource, htarget⟩ := hC.deed_plain hcarries.belongs hfile h.source h.target
    rw [hside] at hdeed hsource htarget
    rw [hbody, hdeed] at hyields hanswers
    exact ⟨a, x, hyields.exec_eq, f, ⟨hsource, htarget, hgone.symm ▸ h.books, hgone.symm ▸ h.copied, none,
      .answered ht hlocal hfile his hanswers, hreaches⟩, hless⟩
  | @askedDown id n k hremote hn ht hk hf =>
    have hsource : disks true = x₀ := hremote ▸ h.source
    have hecho := hC.down_echo hremote hn.1 hn.2 hk id
    rw [← hsource] at hecho
    refine ⟨_, _, hecho.exec_eq, f, ⟨?_, ?_, hgone.symm ▸ h.books, hgone.symm ▸ h.copied, none,
      .answeredDown hremote hn ht hk hf, hreaches⟩, hless⟩
    · exact (congrFun (Function.update_eq_self _ _) _).trans h.source
    · dsimp only
      rw [Function.update_eq_self]
      exact h.target
  | @askedUp id offset n hremote hn ht =>
    have hitem := item_sending hn.1 offset
    have hsource : disks false = x₀ := hremote ▸ h.source
    have htarget : holds (disks true) f := by
      have htarget := h.target
      rwa [hremote] at htarget
    have hreached := hreaches _ ht nofun n hitem
    rw [offset_sending] at hreached
    obtain ⟨p, there, x, hecho, hpasses, hheld⟩ := hC.up_echo hremote hn.1 hn.2 htarget hreached id
    have hf : ∀ m, E.item (E.sending n offset) ≠ .file m → Function.update f n there m = f m := fun m hm =>
      Function.update_of_ne (fun hmn : m = n => hm (hmn ▸ hitem)) _ _
    refine ⟨_, _, hecho.exec_eq, Function.update f n there, ⟨?_, ?_, hgone.symm ▸ h.books, ?_, _,
      .answeredUp (p := p) hremote hn ht (by rwa [Function.update_self]), fun u hu hne m hm => ?_⟩, hless⟩
    · exact (update_other (congrArg not hremote).symm h.source hheld).1
    · exact (update_other (congrArg not hremote).symm h.source hheld).2
    · intro m hm
      exact copied_of_ne h ht hf (hgone ▸ hm)
    · rw [hf m fun htm => hne (congrArg some (h.books.eq_of_item_eq hu ht hm htm))]
      exact hreaches u hu nofun m hm

/-- **The client takes the answer.** -/
theorem read {a : FmAck} {rest : List FmAck} (hacks : s.acks = a :: rest) :
    ∃ q x, exec (FileManClient.ack (S.os false) (dispatchSubListBytes (S.loop true)) a s.scheduler_) (s.disks false)
        = some (q, x) ∧
      Next E S content holds x₀ ended s { s with
        client := { s.client with scheduler_ := q, canSend_ := true }
        disks := Function.update s.disks false x
        acks := rest } := by
  obtain ⟨busy, hline, hreaches⟩ := h.line
  obtain ⟨⟨can, q, userLoops⟩, disks, requests, acks, localLoops⟩ := s
  obtain rfl : acks = a :: rest := hacks
  have hdisks : Function.update disks false (disks false) = disks := Function.update_eq_self _ _
  cases hline with
  | @answered t is _ ht hlocal hfile his hanswers =>
    obtain ⟨q', hack, hreplaces⟩ := hanswers q (disks false) ht
    refine ⟨_, _, hack.exec_eq, settled hC h ht hfile his hreplaces ?_ ?_ .idle hreaches ?_⟩
    · exact (congrFun hdisks _).trans h.source
    · exact hdisks.symm ▸ h.target
    · exact le_rfl
  | @answeredDown id n k hremote hn ht hk hf =>
    have hsource : disks true = x₀ := hremote ▸ h.source
    have htarget : holds (disks false) f := by
      have htarget := h.target
      rwa [hremote] at htarget
    obtain ⟨q', x, there, hack, hturns, hheld⟩ := hC.down_ack hremote hn.1 hn.2 hk htarget hf ht
      (dispatchSubListBytes (S.loop true)) (E.src.path n)
    refine ⟨_, _, hack.exec_eq, turned hC h hn ht (fun u hu _ => hreaches u hu nofun) hturns ?_ ?_
      rfl rfl rfl⟩
    · exact (update_other (congrArg not hremote).symm h.source hheld).1
    · exact (update_other (congrArg not hremote).symm h.source hheld).2
  | @answeredUp id offset n p hremote hn ht hpasses =>
    obtain ⟨q', hack, hturns⟩ := up_ack (S := S) hremote hpasses ht (dispatchSubListBytes (S.loop true))
      (E.peerPath_ n) (disks false)
    refine ⟨_, _, hack.exec_eq, turned hC h hn ht hreaches hturns ?_ ?_ rfl rfl rfl⟩
    · exact (congrFun hdisks _).trans h.source
    · change holds (Function.update disks false (disks false) _) (Function.update f n (f n))
      rw [hdisks, Function.update_eq_self]
      exact h.target

/-- **The local engine does a task.** -/
theorem localLoop (hfirst : s.scheduler_.getFirst false = some t) :
    ∃ q x, exec (FmLocal.onUserLoop (S.os false) (dispatchSubListBytes (S.loop false)) s.scheduler_) (s.disks false)
        = some (q, x) ∧
      Next E S content holds x₀ ended s { s with
        client := { s.client with scheduler_ := q }
        disks := Function.update s.disks false x } := by
  obtain ⟨busy, hline, hreaches⟩ := h.line
  have hlocal : t.isLocal = true := by simpa using FmScheduler.isLocal_of_getFirst hfirst
  have hmem : t ∈ s.tasks_ := FmScheduler.mem_of_getFirst hfirst
  have hcarries := h.books.tasks t hmem
  have hfile : ∀ n, E.item t.body ≠ .file n := by
    intro n hitem
    generalize hbody : t.body = b at hcarries hitem
    rw [hitem] at hcarries
    cases hcarries with
    | plain _ hfile => exact hfile n rfl
    | file offset hn => exact absurd (hlocal.symm.trans (isLocal_sending hbody)) nofun
  have hbody := hcarries.body_eq hfile
  have hside : E.side (E.item t.body) = false := by simpa [hlocal] using isLocal_of_ne_file hfile hbody
  obtain ⟨is, x, hdeed, his, hsource, htarget⟩ := hC.deed_plain hcarries.belongs hfile h.source h.target
  rw [hside] at hdeed hsource htarget
  rw [← hbody] at hdeed
  have hplain : Plain S t.body := by
    rw [hbody]
    exact plain_of_ne_file hC.fits hcarries.belongs hfile
  obtain ⟨q, hyields, hreplaces⟩ := onUserLoop_yields hplain hfirst (s.disks false)
  rw [hdeed] at hyields hreplaces
  refine ⟨q, x, hyields.exec_eq, settled hC h hmem hfile his hreplaces hsource htarget
    (hline.mono fun u hu hulocal => ?_) hreaches (Nat.le_add_right _ _)⟩
  refine (FmScheduler.Replaces.mem_iff hreplaces).mpr (.inr ⟨hu, ?_⟩)
  rintro rfl
  cases hlocal.symm.trans hulocal

/-- **Whatever is worked, less is left to do.** -/
theorem step (hworks : Works S s s') : Next E S content holds x₀ ended s s' := by
  cases hworks with
  | userLoop hcan hfirst hexec =>
    obtain ⟨q, r, x, hexec', hnext⟩ := userLoop hC h hcan hfirst
    cases hexec.symm.trans hexec'
    exact hnext
  | serve hreq hexec =>
    obtain ⟨a, x, hexec', hnext⟩ := serve hC h hreq
    cases hexec.symm.trans hexec'
    exact hnext
  | read hacks hexec =>
    obtain ⟨q, x, hexec', hnext⟩ := read hC h hacks
    cases hexec.symm.trans hexec'
    exact hnext
  | localLoop hfirst hexec =>
    obtain ⟨q, x, hexec', hnext⟩ := localLoop hC h hfirst
    cases hexec.symm.trans hexec'
    exact hnext

/-- **Something is done until the queue is empty.** -/
theorem exists_works (hne : s.tasks_ ≠ []) : ∃ s', Works S s s' := by
  obtain ⟨busy, hline, -⟩ := h.line
  generalize hcan : s.client.canSend_ = can at hline
  generalize hrequests : s.requests = requests at hline
  generalize hacks : s.acks = acks at hline
  cases hline with
  | idle =>
    obtain ⟨isRemoteTask, t, ht⟩ := FmScheduler.exists_getFirst h.books.ok hne
    cases isRemoteTask with
    | false =>
      obtain ⟨q, x, hexec, -⟩ := localLoop hC h ht
      exact ⟨_, .localLoop ht hexec⟩
    | true =>
      obtain ⟨q, r, x, hexec, -⟩ := userLoop hC h hcan ht
      exact ⟨_, .userLoop hcan ht hexec⟩
  | asked | askedDown | askedUp =>
    obtain ⟨a, x, hexec, -⟩ := serve hC h hrequests
    exact ⟨_, .serve hrequests hexec⟩
  | answered | answeredDown | answeredUp =>
    obtain ⟨q, x, hexec, -⟩ := read hC h hacks
    exact ⟨_, .read hacks hexec⟩

end Copying

end EuhatExpert
