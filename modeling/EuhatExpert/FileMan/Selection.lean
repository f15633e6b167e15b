import EuhatExpert.FileMan.CopyTree

/-!
# FileMan/Selection — copying some of what is in a folder

The tasks are those that the listing of the folder would have made of some of its entries, but nobody lists
the folder.  So its listing might as well show these entries only (`works_showing`), and what holds of a whole
tree that is copied holds of the selection (`selects`).
-/

namespace EuhatExpert

open Machinery TraceM

variable {X : Type}

/-- The folder, with what is under some of the names in it. -/
def FolderTree.only (T : FolderTree) (keep : Bytes → Bool) : FolderTree where
  toNameTree := T.toNameTree.only keep
  isPart n hn := T.isPart n (NameTree.mem_only.mp hn).1
  size := T.size
  lastWriteTime := T.lastWriteTime

def Errand.only (E : Errand) (keep : Bytes → Bool) : Errand := { E with tree := E.tree.only keep }

/-! ## A folder that shows something else -/

/-- The system, but for what it lists of one path. -/
def Os.showing (os : Os X) (path bytes : Bytes) : Os X :=
  { os with whGetSubFiles := fun p x => if p = path then some bytes else os.whGetSubFiles p x }

namespace Sides

def Setup.showing (S : Setup X) (path bytes : Bytes) : Setup X :=
  ⟨fun remote => (S.os remote).showing path bytes, S.baseDir_⟩

/-- No task is to list the path, and the server is not asked to. -/
structure Unlisted (S : Setup X) (path : Bytes) (s : Sides X) : Prop where
  tasks : ∀ t ∈ s.tasks_, ∀ isPeer l, t.body = .getSubList isPeer l → l.path_ ≠ path
  requests : ∀ r, .list r ∈ s.requests → whCorrectFilePath S.isUnix_ r.path ≠ path

variable {S : Setup X} {path bytes : Bytes} {s s' : Sides X}

theorem echo_showing (os : Os X) (baseDir_ : Bytes) {r : FmReq}
    (h : ∀ l, r = .list l → whCorrectFilePath os.isUnix_ l.path ≠ path) :
    FileManServer.echo (os.showing path bytes) baseDir_ r = FileManServer.echo os baseDir_ r := by
  cases r with
  | list l =>
    have hlist : (os.showing path bytes).getSubFiles (whCorrectFilePath os.isUnix_ l.path)
        = os.getSubFiles (whCorrectFilePath os.isUnix_ l.path) :=
      congrArg (TraceM.call _) (funext fun x => congrArg (·, x) (if_neg (h l rfl)))
    have hecho : FmsPeerFileList.echo (os.showing path bytes) baseDir_ l = FmsPeerFileList.echo os baseDir_ l := by
      unfold FmsPeerFileList.echo
      dsimp only
      rw [show (os.showing path bytes).isUnix_ = os.isUnix_ from rfl, hlist]
    rw [FileManServer.echo, FileManServer.echo, hecho]
  | _ => rfl

theorem localLoop_showing (os : Os X) (dispatchSubList : FmTask → Bytes → FmScheduler → FmScheduler) {q : FmScheduler}
    (h : ∀ t ∈ q.tasks_, ∀ isPeer l, t.body = .getSubList isPeer l → l.path_ ≠ path) :
    FmLocal.onUserLoop (os.showing path bytes) dispatchSubList q = FmLocal.onUserLoop os dispatchSubList q := by
  unfold FmLocal.onUserLoop
  cases hfirst : q.getFirst false with
  | none => rfl
  | some t =>
    have hpath := h t (FmScheduler.mem_of_getFirst hfirst)
    obtain ⟨id, result, body⟩ := t
    cases body with
    | getSubList isPeer l =>
      cases isPeer with
      | true => rfl
      | false =>
        have hlist : (os.showing path bytes).getSubFiles l.path_ = os.getSubFiles l.path_ :=
          congrArg (TraceM.call _) (funext fun x => congrArg (·, x) (if_neg (hpath false l rfl)))
        dsimp only
        rw [FmLocal.onGetSubList, FmLocal.onGetSubList, hlist]
    | del isPeer d => cases isPeer <;> rfl
    | new isPeer d => cases isPeer <;> rfl
    | copy isPeer d => cases isPeer <;> rfl
    | _ => rfl

/-- **What nobody lists may show anything.** -/
theorem works_showing (h : Unlisted S path s) : Works (S.showing path bytes) s s' ↔ Works S s s' := by
  have hecho : ∀ {r rest}, s.requests = r :: rest →
      FileManServer.echo ((S.showing path bytes).os true) S.baseDir_ r
        = FileManServer.echo (S.os true) S.baseDir_ r := fun {r rest} hreq =>
    echo_showing (S.os true) S.baseDir_ fun l hl => h.requests l (by rw [hreq, hl]; exact List.mem_cons_self)
  have hlocal : ∀ dispatchSubList, FmLocal.onUserLoop ((S.showing path bytes).os false) dispatchSubList s.scheduler_
      = FmLocal.onUserLoop (S.os false) dispatchSubList s.scheduler_ := fun dispatchSubList =>
    localLoop_showing (S.os false) dispatchSubList h.tasks
  constructor
  · rintro (⟨hcan, hfirst, hexec⟩ | ⟨hreq, hexec⟩ | ⟨hacks, hexec⟩ | ⟨hfirst, hexec⟩)
    · exact .userLoop hcan hfirst hexec
    · exact .serve hreq ((hecho hreq) ▸ hexec)
    · exact .read hacks hexec
    · exact .localLoop hfirst ((hlocal _) ▸ hexec)
  · rintro (⟨hcan, hfirst, hexec⟩ | ⟨hreq, hexec⟩ | ⟨hacks, hexec⟩ | ⟨hfirst, hexec⟩)
    · exact .userLoop hcan hfirst hexec
    · exact .serve hreq ((hecho hreq).symm ▸ hexec)
    · exact .read hacks hexec
    · exact .localLoop hfirst ((hlocal _).symm ▸ hexec)

/-- What the client asks to list is what a task is to list. -/
theorem list_of_reqFirst {os : Os X} {q q' : FmScheduler} {x x' : X} {r : ListReq}
    (h : exec (FileManClient.reqFirst os q) x = some ((q', some (.list r)), x')) :
    ∃ t ∈ q.tasks_, ∃ l, t.body = .getSubList true l ∧ r.path = l.path_ := by
  have hends := ends_of_exec h
  rw [FileManClient.reqFirst] at hends
  cases hfirst : q.getFirst true with
  | none =>
    rw [hfirst] at hends
    cases (Prod.mk.inj (ends_pure hends).1).2
  | some t =>
    rw [hfirst] at hends
    obtain ⟨⟨u, r'⟩, x₂, hreq, hpure⟩ := hends.bind
    obtain rfl : some (.list r) = r' := (Prod.mk.inj (ends_pure hpure).1).2
    refine ⟨t, FmScheduler.mem_of_getFirst hfirst, ?_⟩
    obtain ⟨id, result, body⟩ := t
    have hmade : ∀ {t' : FmTask}, Ends (pure (t', none) : FsM X (FmTask × Option FmReq)) x (u, some (.list r)) x₂ →
        False := fun hpure => by cases (Prod.mk.inj (ends_pure hpure).1).2
    cases body with
    | getSubList isPeer l =>
      cases isPeer with
      | false => exact (hmade hreq).elim
      | true =>
        obtain rfl := FmReq.list.inj (Option.some.inj (Prod.mk.inj (ends_pure hreq).1).2)
        exact ⟨l, rfl, rfl⟩
    | download d =>
      obtain ⟨⟨t', down⟩, x₃, -, hpure⟩ := hreq.bind
      cases down <;> cases (Prod.mk.inj (ends_pure hpure).1).2
    | upload d =>
      obtain ⟨up, x₃, -, hpure⟩ := hreq.bind
      cases (Prod.mk.inj (ends_pure hpure).1).2
    | connect => exact (hmade hreq).elim
    | copy isPeer d => cases isPeer <;> exact (hmade hreq).elim
    | del isPeer d =>
      cases isPeer with
      | false => exact (hmade hreq).elim
      | true => cases (Prod.mk.inj (ends_pure hreq).1).2
    | new isPeer d =>
      cases isPeer with
      | false => exact (hmade hreq).elim
      | true => cases (Prod.mk.inj (ends_pure hreq).1).2

/-- What is not listed without the messages is not listed with them. -/
theorem Unlisted.of_quiet (h : Unlisted S path s.quiet) : Unlisted S path s := ⟨h.tasks, h.requests⟩

end Sides

/-! ## What is begun already -/

namespace Errand

open Workers

variable (E : Errand)

/-- What would be over by now had the root been listed: its listing, its creation, and that of the folders in it. -/
def begun (cs : List Node) : List Item := .list [] :: (E.closing [] ++ (cs.filter E.tree.isFolder).map .new)

variable {E} {n m c : Node} {cs : List Node} {i : Item}

theorem mem_begun (hfells : E.fells = false) (hi : i ∈ E.begun cs) :
    i = .list [] ∨ ∃ n, i = .new n ∧ (n = [] ∨ n ∈ cs ∧ E.tree.isFolder n = true) := by
  rw [begun, closing, hfells, if_neg Bool.false_ne_true, List.nil_append, List.mem_cons, List.mem_append] at hi
  rcases hi with hi | hi | hi
  · exact .inl hi
  · split_ifs at hi
    · exact .inr ⟨[], List.mem_singleton.mp hi, .inl rfl⟩
    · cases hi
  · obtain ⟨n, hn, rfl⟩ := List.mem_map.mp hi
    exact .inr ⟨n, rfl, .inr (List.mem_filter.mp hn)⟩

/-- In the listing of a folder, each entry's own task stands behind the creation of a folder. -/
theorem coe_flatMap_inside (hcopies : E.copies = true) (cs : List Node) :
    ((cs.flatMap E.inside : List Item) : Multiset Item)
      = ((cs.filter E.tree.isFolder).map .new : List Item) + (cs.map E.enter : List Item) := by
  induction cs with
  | nil => rfl
  | cons c cs ih =>
    rw [List.flatMap_cons, ← Multiset.coe_add, ih, List.map_cons, inside, enter, hcopies, if_pos rfl, List.filter_cons]
    split_ifs
    · rw [List.map_cons, ← Multiset.cons_coe, ← Multiset.cons_coe, ← Multiset.coe_add, ← Multiset.singleton_add,
        ← Multiset.singleton_add, Multiset.coe_singleton, Multiset.coe_singleton]
      exact add_add_add_comm _ _ _ _
    · rw [Multiset.coe_singleton, ← Multiset.cons_coe, ← Multiset.singleton_add]
      exact add_left_comm _ _ _

/-- **What is begun and what comes of the entries' tasks are all that comes of the root.** -/
theorem begun_add (hcopies : E.copies = true) (hnodup : cs.Nodup) (hcs : ∀ c, c ∈ cs ↔ c ∈ E.tree.children []) :
    (E.begun cs : Multiset Item) + (cs.map E.enter : Multiset Item).bind E.whole = E.whole (.list []) := by
  have hnew : (((cs.filter E.tree.isFolder).map .new : List Item) : Multiset Item).bind E.whole
      = ((cs.filter E.tree.isFolder).map .new : List Item) := by
    refine (Multiset.bind_congr fun i hi => ?_).trans ((Multiset.bind_singleton _ id).trans (Multiset.map_id _))
    obtain ⟨n, -, rfl⟩ := List.mem_map.mp (Multiset.mem_coe.mp hi)
    rfl
  rw [spawns.whole_eq, ← coe_spawn hnodup hcs, ← Multiset.coe_add, Multiset.add_bind, bind_whole_closing,
    coe_flatMap_inside hcopies, Multiset.add_bind, hnew, begun, ← Multiset.cons_coe, ← Multiset.coe_add,
    Multiset.cons_add]
  exact congrArg _ ((add_assoc _ _ _).trans (add_comm _ _))

/-- The root is listed once. -/
theorem count_list_root : (E.whole (.list [])).count (.list []) = 1 := by
  rw [whole, Multiset.count_cons_self, Multiset.count_eq_zero.mpr fun hmem => ?_]
  rcases Multiset.mem_add.mp hmem with hmem | hmem
  · rcases mem_closing (Multiset.mem_coe.mp hmem) with h | h <;> cases h
  · obtain ⟨m, hm, hmem⟩ := Multiset.mem_sum.mp hmem
    rw [own, Multiset.mem_add] at hmem
    rcases hmem with hmem | hmem
    · rcases mem_inside (Multiset.mem_coe.mp hmem) with h | h
      · cases h
      · rw [enter] at h
        split_ifs at h
        exact (NameTree.mem_below_root.mp hm).2 (Item.list.inj h).symm
    · split_ifs at hmem
      · rcases mem_closing (Multiset.mem_coe.mp hmem) with h | h <;> cases h
      · exact absurd hmem (Multiset.notMem_zero _)

/-- What comes of an entry's task is for nodes under the root. -/
theorem ne_root_of_mem_whole (hc : c ≠ []) (hi : i ∈ E.whole (E.enter c)) : i ≠ .list [] ∧ i ≠ .new [] := by
  have hclosing : ∀ {m}, m ≠ [] → i ∈ E.closing m → i ≠ .list [] ∧ i ≠ .new [] := by
    intro m hm hi
    rcases mem_closing hi with rfl | rfl
    · exact ⟨by simp, by simp⟩
    · exact ⟨by simp, fun h => hm (Item.new.inj h)⟩
  have henter : ∀ {m}, m ≠ [] → i = E.enter m → i ≠ .list [] ∧ i ≠ .new [] := by
    intro m hm hi
    rw [hi, enter]
    split_ifs
    · exact ⟨fun h => hm (Item.list.inj h), by simp⟩
    · exact ⟨by simp, by simp⟩
  rw [enter] at hi
  split_ifs at hi with hfolder
  · rw [whole, Multiset.mem_cons, Multiset.mem_add, Multiset.mem_sum] at hi
    rcases hi with rfl | hi | ⟨m, hm, hi⟩
    · exact ⟨fun h => hc (Item.list.inj h), by simp⟩
    · exact hclosing hc (Multiset.mem_coe.mp hi)
    · have hne : m ≠ [] := by
        rintro rfl
        exact hc (List.suffix_nil.mp (NameTree.mem_below.mp hm).2.1)
      rcases Multiset.mem_add.mp hi with hi | hi
      · rcases mem_inside (Multiset.mem_coe.mp hi) with rfl | hi
        · exact ⟨by simp, fun h => hne (Item.new.inj h)⟩
        · exact henter hne hi
      · split_ifs at hi
        · exact hclosing hne (Multiset.mem_coe.mp hi)
        · exact absurd hi (Multiset.notMem_zero _)
  · rw [Multiset.mem_singleton.mp hi]
    exact ⟨by simp, by simp⟩

/-- The tasks of a node come of that of the entry it is under. -/
theorem mem_whole_enter (h : n = c ∨ n ∈ E.tree.below c)
    (hi : i = E.enter n ∨ E.tree.isFolder n = true ∧ i ∈ E.closing n) : i ∈ E.whole (E.enter c) := by
  rcases h with rfl | h
  · rcases hi with rfl | ⟨hfolder, hi⟩
    · exact spawns.self_mem _
    · rw [enter, if_pos hfolder, whole]
      exact Multiset.mem_cons_of_mem (Multiset.mem_add.mpr (.inl hi))
  · rw [enter, if_pos (NameTree.isFolder_of_below h), whole]
    refine Multiset.mem_cons_of_mem (Multiset.mem_add.mpr (.inr (Multiset.mem_sum.mpr ⟨n, h, Multiset.mem_add.mpr ?_⟩)))
    rcases hi with rfl | ⟨hfolder, hi⟩
    · refine .inl (Multiset.mem_coe.mpr ?_)
      rw [inside, enter]
      split_ifs
      · exact List.mem_append_right _ List.mem_cons_self
      · exact List.mem_append_right _ List.mem_cons_self
      · exact List.mem_cons_self
    · refine .inr ?_
      rwa [if_pos hfolder]

/-- A selection of a folder on two disks: what it is copied from shows the folder, and what it is copied to takes the
selection. -/
structure SelectsOn (E : Errand) (keep : Bytes → Bool) (dst : Place) (S : Sides.Setup X) (content : Node → Bytes)
    (holds : X → (Node → Bytes) → Prop) (x₀ : X) : Prop where
  purpose : E.purpose = .downUp dst false
  fits : E.Fits S
  base : dst.remote = true → strIsStartWith (dst.path []) S.baseDir_ = true
  reads : ReadsTree (S.os E.src.remote) E.tree E.src content x₀
  takes : TakesTree (S.os !E.src.remote) (E.tree.only keep) dst holds
  isCStr : IsCStr (E.src.path [])
  listable : ∀ c ∈ (E.tree.only keep).children [], (E.tree.entry c).Listable

/-- In every run, no task fails and the queue ends empty.  Every file of the selection is then transferred by one task,
to where it goes to, and is there as it was; a task was run to create each folder of it, and nothing else was done
but to list them. -/
structure Selects (E : Errand) (keep : Bytes → Bool) (dst : Place) (S : Sides.Setup X) (content : Node → Bytes)
    (holds : X → (Node → Bytes) → Prop) (q : FmScheduler) (disks : Bool → X) : Prop where
  noFail : ∀ es s, Run (Sides.Step S) (Sides.ready q disks) es s → ∀ t ∈ s.tasks_, t.result_ = FmResultOk
  ends : ∃ N, ∀ es s, Run (Sides.Step S) (Sides.ready q disks) es s → es.length ≤ N
  drains : ∀ es s, Run (Sides.Step S) (Sides.ready q disks) es s → (∀ s', ¬ Sides.Acts S s s') → s.tasks_ = []
  transfers : ∀ es s, Run (Sides.Step S) (Sides.ready q disks) es s → s.tasks_ = [] → ∃ order : List Node,
    order.Nodup ∧ (∀ n, n ∈ order ↔ n ∈ (E.tree.only keep).nodes ∧ E.tree.isFolder n = false) ∧
      es.flatten.filterMap FmTask.transfer = order.map fun n => (E.src.remote, E.src.path n, dst.path n)
  creations : ∀ es s, Run (Sides.Step S) (Sides.ready q disks) es s → s.tasks_ = [] → ∀ b : FmTask.Body,
    (∃ t ∈ es.flatten, t.asNew.isSome = true ∧ t.body = b) ↔
      ∃ n ∈ (E.tree.only keep).nodes, n ≠ [] ∧ E.tree.isFolder n = true ∧ b = .new dst.remote ⟨dst.path n, 1, false⟩
  only : ∀ es s, Run (Sides.Step S) (Sides.ready q disks) es s → ∀ t ∈ es.flatten,
    t.transfer.isSome = true ∨ t.asNew.isSome = true ∨
      ∃ n ∈ (E.tree.only keep).nodes, n ≠ [] ∧ E.tree.isFolder n = true ∧ t.body = E.body (.list n)
  copied : ∀ es s, Run (Sides.Step S) (Sides.ready q disks) es s → s.tasks_ = [] →
    ∃ f, holds (s.disks dst.remote) f ∧ ∀ n ∈ (E.tree.only keep).nodes, E.tree.isFolder n = false → f n = content n

/-! ## Runs -/

section Runs

open Sides

variable {keep : Bytes → Bool} {dst : Place} {S : Sides.Setup X} {content f₀ : Node → Bytes}
  {holds : X → (Node → Bytes) → Prop} {q : FmScheduler} {disks : Bool → X} {es : List (List FmTask)} {s : Sides X}
  {x₀ : X} {bytes : Bytes} {f : Node → Bytes} {ended : List FmTask}

theorem path_ne (hn : n ∈ E.tree.nodes) (hne : n ≠ []) : E.src.path n ≠ E.src.path [] := fun heq => hne
  ((Place.node_path (E.tree.isPart n hn)).symm.trans ((congrArg E.src.node heq).trans (Place.node_path nofun)))

/-- The listing of the folder as it might be. -/
def shown (E : Errand) (cs : List Node) : Bytes := SubList.write ⟨E.src.path [], cs.map E.tree.entry⟩

/-- **With the selection for its listing, the folder is one that is copied whole.** -/
theorem SelectsOn.copiesOn (h : E.SelectsOn keep dst S content holds x₀) (hnodup : cs.Nodup)
    (hcs : ∀ c, c ∈ cs ↔ c ∈ (E.only keep).tree.children []) :
    (E.only keep).CopiesOn dst (S.showing (E.src.path []) (E.shown cs)) content holds x₀ := by
  have hnodes : ∀ n ∈ (E.only keep).tree.nodes, n ∈ E.tree.nodes := fun n hn => (NameTree.mem_only.mp hn).1
  have hlisted : ∀ n, n ∈ (E.only keep).tree.nodes → E.tree.isFolder n = true → ∃ (bytes : Bytes) (cs' : List Node),
      ((S.showing (E.src.path []) (E.shown cs)).os E.src.remote).whGetSubFiles (E.src.path n) x₀ = some bytes ∧
        SubList.read bytes = .ok ⟨E.src.path n, cs'.map E.tree.entry⟩ ∧
          cs'.Nodup ∧ ∀ c, c ∈ cs' ↔ c ∈ (E.only keep).tree.children n := by
    intro n hn hfolder
    by_cases hroot : n = []
    · subst hroot
      refine ⟨_, cs, if_pos rfl, SubList.read_write ⟨_, cs.map E.tree.entry⟩ h.isCStr fun e he => ?_, hnodup, hcs⟩
      obtain ⟨c, hc, rfl⟩ := List.mem_map.mp he
      exact h.listable c ((hcs c).mp hc)
    · obtain ⟨bytes, cs', hbytes, hread, hnodup', hcs'⟩ := h.reads.listed n (hnodes n hn) hfolder
      refine ⟨bytes, cs', (if_neg (path_ne (hnodes n hn) hroot)).trans hbytes, hread, hnodup', fun c =>
        (hcs' c).trans ?_⟩
      exact (iff_of_eq (congrArg (c ∈ ·) (NameTree.children_only hn hroot))).symm
  refine ⟨h.purpose, ⟨h.fits.isUnix_src, h.fits.base⟩, h.base, ⟨hlisted, ?_, ?_, ?_⟩, ?_⟩
  · exact fun n hn => h.reads.opened n (hnodes n hn)
  · exact fun n hn => h.reads.size n (hnodes n hn)
  · exact fun n hn => h.reads.read n (hnodes n hn)
  · exact ⟨h.takes.made, h.takes.room, h.takes.begun, h.takes.opened, h.takes.written, h.takes.stamped⟩

/-- The tasks of what is begun. -/
def past (E : Errand) (cs : List Node) : List FmTask := (E.begun cs).map fun i => ⟨0, FmResultOk, E.body i⟩

theorem belongs_begun (hcopies : E.copies = true) (hfells : E.fells = false)
    (hcs : ∀ c ∈ cs, c ∈ E.tree.children []) (hi : i ∈ E.begun cs) : E.Belongs i := by
  rcases mem_begun hfells hi with rfl | ⟨n, rfl, rfl | ⟨hn, hfolder⟩⟩
  · exact ⟨E.tree.root_mem, E.tree.root_isFolder⟩
  · exact ⟨E.tree.root_mem, E.tree.root_isFolder, hcopies⟩
  · exact ⟨(NameTree.mem_children.mp (hcs n hn)).1, hfolder, hcopies⟩

theorem belongs_enter (hc : c ∈ E.tree.nodes) : E.Belongs (E.enter c) := by
  rw [enter]
  split_ifs with hfolder
  · exact ⟨hc, hfolder⟩
  · exact ⟨hc, Bool.eq_false_iff.mpr hfolder⟩

theorem items_past (h : ∀ i ∈ E.begun cs, E.Belongs i) : items E (E.past cs) = (E.begun cs : Multiset Item) := by
  rw [items, past, Multiset.map_coe, List.map_map]
  exact congrArg _ ((List.map_congr_left fun i hi => item_body (h i hi)).trans (List.map_id _))

/-- A task that is made carries its item. -/
theorem carries_body (hC : E.CopiesOn dst S content holds x₀) (hi : E.Belongs i) : E.Carries i (E.body i) := by
  cases i with
  | file n =>
    rw [show E.body (.file n) = E.sending n (-1) from hC.fileBody_eq n]
    exact .file _ hi
  | _ => exact .plain hi nofun

/-- **The tasks of the entries are a copy under way.** -/
theorem copying_entries (hC : E.CopiesOn dst S content holds (disks E.src.remote)) (hnodup : cs.Nodup)
    (hcs : ∀ c, c ∈ cs ↔ c ∈ E.tree.children []) {id : ℤ}
    (hq : q.tasks_.Perm (FmScheduler.drawFrom id ((cs.map E.enter).map E.body)))
    (hf₀ : holds (disks !E.src.remote) f₀) :
    Copying E S content holds (disks E.src.remote) (E.past cs) f₀ (ready q disks).quiet := by
  have hbegun : ∀ i ∈ E.begun cs, E.Belongs i := fun i =>
    belongs_begun hC.copies_eq hC.fells_eq fun c => (hcs c).mp
  have henter : ∀ i ∈ cs.map E.enter, E.Belongs i := by
    intro i hi
    obtain ⟨c, hc, rfl⟩ := List.mem_map.mp hi
    exact belongs_enter (NameTree.mem_children.mp ((hcs c).mp hc)).1
  have htask : ∀ t ∈ (ready q disks).quiet.tasks_, t.result_ = FmResultOk ∧ E.Belongs (E.item t.body) ∧
      t.body = E.body (E.item t.body) := by
    intro t ht
    have ht' := hq.mem_iff.mp ht
    obtain ⟨i, hi, hbody, hitem⟩ := Tracks.exists_item_of_drawFrom henter ht'
    exact ⟨((FmScheduler.pairwise_drawFrom _ _).2 t ht').2, hitem ▸ henter i hi, hitem ▸ hbody⟩
  refine ⟨rfl, hf₀, ⟨fun t ht => (htask t ht).1, fun t ht => ?_, fun t ht => ?_, ?_⟩, fun n hn => ?_, none, .idle,
    fun t ht _ n hn => .inl ?_⟩
  · obtain ⟨-, hi, hbody⟩ := htask t ht
    have hcarries := carries_body hC hi
    rwa [← hbody] at hcarries
  · obtain ⟨i, hi, rfl⟩ := List.mem_map.mp ht
    rw [item_body (hbegun i hi)]
    exact carries_body hC (hbegun i hi)
  · rw [items_past hbegun, coming, show ((ready q disks).quiet.scheduler_.tasks_ : Multiset FmTask) = _ from
      Multiset.coe_eq_coe.mpr hq, Tracks.bind_drawFrom henter]
    exact begun_add hC.copies_eq hnodup hcs
  · rw [items_past hbegun] at hn
    rcases mem_begun hC.fells_eq (Multiset.mem_coe.mp hn) with h | ⟨m, h, -⟩ <;> cases h
  · rw [(htask t ht).2.2, hn, show E.body (.file n) = E.sending n (-1) from hC.fileBody_eq n, offset_sending]
    decide

/-- The root is not listed any more. -/
theorem path_ne_root (hbooks : Books E ended q) (hroot : .list [] ∈ items E ended) {t : FmTask} (ht : t ∈ q.tasks_)
    {isPeer : Bool} {l : FmTaskGetSubList} (hbody : t.body = .getSubList isPeer l) :
    isPeer = E.src.remote ∧ ∃ n ∈ E.tree.nodes, n ≠ [] ∧ l.path_ = E.src.path n := by
  have hcarries := hbooks.tasks t ht
  have hitem : E.item t.body = .list (E.src.node l.path_) := by rw [hbody, item]
  have heq := hcarries.body_eq fun n => by simp [hitem]
  have hbelongs := hcarries.belongs
  rw [hitem, hbody] at heq
  rw [hitem] at hbelongs
  obtain ⟨hpeer, hl⟩ := FmTask.Body.getSubList.inj heq
  refine ⟨hpeer, _, hbelongs.1, fun hnil => ?_, congrArg FmTaskGetSubList.path_ hl⟩
  have hcount := congrArg (Multiset.count (.list [])) hbooks.account
  rw [Multiset.count_add, count_list_root] at hcount
  have h₁ := Multiset.one_le_count_iff_mem.mpr hroot
  have h₂ : 1 ≤ (coming E q).count (.list []) := Multiset.one_le_count_iff_mem.mpr
    (Multiset.mem_bind.mpr ⟨t, Multiset.mem_coe.mpr ht, hitem ▸ hnil ▸ spawns.self_mem _⟩)
  omega

/-- The server is not asked for the root. -/
theorem requests_ne_root {s' : Sides X} (hfits : E.Fits S) (hbooks : Books E ended s.scheduler_)
    (hroot : .list [] ∈ items E ended) (hworks : Works S s s')
    (h : ∀ r, .list r ∈ s.requests → whCorrectFilePath S.isUnix_ r.path ≠ E.src.path []) :
    ∀ r, .list r ∈ s'.requests → whCorrectFilePath S.isUnix_ r.path ≠ E.src.path [] := by
  intro r hr
  cases hworks with
  | userLoop hcan hfirst hexec =>
    rcases List.mem_append.mp hr with hr | hr
    · exact h r hr
    · obtain rfl := Option.mem_toList.mp hr
      obtain ⟨t, ht, l, hbody, hl⟩ := list_of_reqFirst hexec
      obtain ⟨hremote, n, hn, hne, hpath⟩ := path_ne_root hbooks hroot ht hbody
      rw [hl, hpath, whCorrectFilePath_path hfits hn hremote.symm]
      exact path_ne hn hne
  | serve hreq hexec => exact h r (hreq ▸ List.mem_cons_of_mem _ hr)
  | read hacks hexec => exact h r hr
  | localLoop hfirst hexec => exact h r hr

section Selected

variable (hsel : E.SelectsOn keep dst S content holds (disks E.src.remote)) (hnodup : cs.Nodup)
  (hcs : ∀ c, c ∈ cs ↔ c ∈ (E.only keep).tree.children []) {id : ℤ}
  (hq : q.tasks_.Perm (FmScheduler.drawFrom id ((cs.map E.enter).map E.body))) (hf₀ : holds (disks !E.src.remote) f₀)

include hsel hnodup hcs hq hf₀

/-- A selection goes on as a folder that is copied whole, and is not listed itself. -/
theorem selection_of_work (hrun : Run (Sides.WorkStep S) (ready q disks).quiet es s) : ∃ f,
    Copying (E.only keep) (S.showing (E.src.path []) (E.shown cs)) content holds (disks E.src.remote)
        ((E.only keep).past cs ++ es.flatten) f s ∧ Unlisted S (E.src.path []) s ∧
      es.length + Copying.stepsLeft (E.only keep) content s
        ≤ Copying.stepsLeft (E.only keep) content (ready q disks) := by
  have hC := hsel.copiesOn hnodup hcs
  have hfits : (E.only keep).Fits S := ⟨hsel.fits.isUnix_src, hsel.fits.base⟩
  have hroot : ∀ es : List (List FmTask), .list [] ∈ items (E.only keep) ((E.only keep).past cs ++ es.flatten) := by
    intro es
    rw [items_append, items_past fun i => belongs_begun hC.copies_eq hC.fells_eq fun c => (hcs c).mp]
    exact Multiset.mem_add.mpr (.inl List.mem_cons_self)
  have hunlisted : ∀ {es f s}, Copying (E.only keep) (S.showing (E.src.path []) (E.shown cs)) content holds
      (disks E.src.remote) ((E.only keep).past cs ++ es) f s →
        .list [] ∈ items (E.only keep) ((E.only keep).past cs ++ es) →
          ∀ t ∈ s.tasks_, ∀ isPeer l, t.body = .getSubList isPeer l → l.path_ ≠ E.src.path [] := by
    intro es f s h hroot t ht isPeer l hbody
    obtain ⟨-, n, hn, hne, hpath⟩ := path_ne_root h.books hroot ht hbody
    rw [hpath]
    exact path_ne (E := E.only keep) hn hne
  induction hrun with
  | nil =>
    have h := copying_entries hC hnodup hcs hq hf₀
    rw [← List.append_nil ((E.only keep).past cs)] at h
    exact ⟨f₀, h, ⟨hunlisted h (hroot []), nofun⟩, (Nat.zero_add _).le⟩
  | @snoc es s e s' _ hstep ih =>
    obtain ⟨f, h, hun, hle⟩ := ih
    obtain ⟨hworks, rfl⟩ := hstep
    obtain ⟨f', h', hlt⟩ := Copying.step hC h ((works_showing hun).mpr hworks)
    have hflat : (E.only keep).past cs ++ (es ++ [s.scheduler_.gone s'.scheduler_]).flatten
        = (E.only keep).past cs ++ es.flatten ++ s.scheduler_.gone s'.scheduler_ := by
      rw [List.flatten_append, List.flatten_singleton, List.append_assoc]
    rw [← hflat] at h'
    refine ⟨f', h', ⟨hunlisted h' (hroot _), ?_⟩, ?_⟩
    · exact requests_ne_root (E := E.only keep) hfits h.books (hroot es) hworks hun.requests
    · rw [List.length_append, List.length_singleton]
      omega

/-- **A selection that is copied goes on as a folder that is copied whole**, and is not listed itself. -/
theorem selection_of_run (hrun : Run (Sides.Step S) (ready q disks) es s) : ∃ f,
    Copying (E.only keep) (S.showing (E.src.path []) (E.shown cs)) content holds (disks E.src.remote)
        ((E.only keep).past cs ++ es.flatten) f s ∧ Unlisted S (E.src.path []) s ∧
      es.length ≤ 4 * Copying.stepsLeft (E.only keep) content (ready q disks) + 3 := by
  obtain ⟨es', hrun', hflatten, hlen⟩ := works_of_run hrun
  obtain ⟨f, h, hun, hle⟩ := selection_of_work hsel hnodup hcs hq hf₀ hrun'
  rw [hflatten] at h
  rw [loops_ready] at hlen
  exact ⟨f, h.of_quiet, hun.of_quiet, by omega⟩

/-- A selection is served until it is copied. -/
theorem served_selection (hrun : Run (Sides.Step S) (ready q disks) es s) : s.Served := by
  obtain ⟨f, h, -⟩ := selection_of_run hsel hnodup hcs hq hf₀ hrun
  exact fun t ht => ⟨h.books.ok t ht, (h.books.tasks t ht).ne_copy false⟩

/-- What is over and what will come are what comes of the entries. -/
theorem account_selection (hrun : Run (Sides.Step S) (ready q disks) es s) :
    items (E.only keep) es.flatten + coming (E.only keep) s.scheduler_
      = (cs.map E.enter : Multiset Item).bind (E.only keep).whole := by
  have hC := hsel.copiesOn hnodup hcs
  obtain ⟨f, h, -⟩ := selection_of_run hsel hnodup hcs hq hf₀ hrun
  have haccount := h.books.account
  rw [items_append, items_past fun i => belongs_begun hC.copies_eq hC.fells_eq fun c => (hcs c).mp, add_assoc,
    ← begun_add hC.copies_eq hnodup hcs] at haccount
  exact add_left_cancel haccount

omit hsel hnodup hq hf₀ in
theorem mem_selection {i : Item} : i ∈ (cs.map E.enter : Multiset Item).bind (E.only keep).whole ↔
    ∃ c ∈ (E.only keep).tree.children [], i ∈ (E.only keep).whole ((E.only keep).enter c) := by
  rw [Multiset.mem_bind]
  constructor
  · rintro ⟨j, hj, hi⟩
    obtain ⟨c, hc, rfl⟩ := List.mem_map.mp (Multiset.mem_coe.mp hj)
    exact ⟨c, (hcs c).mp hc, hi⟩
  · rintro ⟨c, hc, hi⟩
    exact ⟨_, Multiset.mem_coe.mpr (List.mem_map_of_mem ((hcs c).mpr hc)), hi⟩

/-- No task is for the folder itself. -/
theorem ne_root_of_run {t : FmTask} (hrun : Run (Sides.Step S) (ready q disks) es s) (ht : t ∈ es.flatten) :
    (E.only keep).item t.body ≠ .list [] ∧ (E.only keep).item t.body ≠ .new [] := by
  have hmem : (E.only keep).item t.body ∈ items (E.only keep) es.flatten :=
    Multiset.mem_map_of_mem _ (Multiset.mem_coe.mpr ht)
  obtain ⟨c, hc, hmem⟩ := (mem_selection hcs).mp
    (account_selection hsel hnodup hcs hq hf₀ hrun ▸ Multiset.mem_add.mpr (.inl hmem))
  refine ne_root_of_mem_whole ?_ hmem
  obtain ⟨-, a, rfl⟩ := NameTree.mem_children.mp hc
  exact List.cons_ne_nil _ _

/-- With the queue empty, a task is over for all that is to be copied. -/
theorem mem_items_of_run {i : Item} (hrun : Run (Sides.Step S) (ready q disks) es s) (hnil : s.tasks_ = [])
    (hn : n ∈ (E.only keep).tree.nodes) (hne : n ≠ [])
    (hi : i = (E.only keep).enter n ∨ E.tree.isFolder n = true ∧ i ∈ (E.only keep).closing n) :
    i ∈ items (E.only keep) es.flatten := by
  have haccount := account_selection hsel hnodup hcs hq hf₀ hrun
  rw [coming, show s.scheduler_.tasks_ = [] from hnil, Multiset.coe_nil, Multiset.zero_bind, add_zero] at haccount
  rw [haccount, mem_selection hcs]
  obtain ⟨c, hc, hnc⟩ := NameTree.exists_child_of_mem hn hne
  exact ⟨c, hc, mem_whole_enter hnc hi⟩

theorem file_mem_items_of_run (hrun : Run (Sides.Step S) (ready q disks) es s) (hnil : s.tasks_ = [])
    (hn : n ∈ (E.only keep).tree.nodes) (hfile : E.tree.isFolder n = false) :
    .file n ∈ items (E.only keep) es.flatten := by
  refine mem_items_of_run hsel hnodup hcs hq hf₀ hrun hnil hn ?_ (.inl (if_neg (Bool.eq_false_iff.mp hfile)).symm)
  rintro rfl
  exact Bool.false_ne_true (hfile.symm.trans E.tree.root_isFolder)

theorem carries_of_run {t : FmTask} (hrun : Run (Sides.Step S) (ready q disks) es s) (ht : t ∈ es.flatten) :
    (E.only keep).Carries ((E.only keep).item t.body) t.body := by
  obtain ⟨f, h, -⟩ := selection_of_run hsel hnodup hcs hq hf₀ hrun
  exact h.books.past _ (List.mem_append_right _ ht)

/-- Each file of the selection was then transferred once. -/
theorem sentFiles_selection (hrun : Run (Sides.Step S) (ready q disks) es s) (hnil : s.tasks_ = []) :
    ((E.only keep).sentFiles es.flatten).Nodup ∧ ∀ n, n ∈ (E.only keep).sentFiles es.flatten ↔
      n ∈ (E.only keep).tree.nodes ∧ E.tree.isFolder n = false := by
  have hC := hsel.copiesOn hnodup hcs
  refine ⟨List.nodup_iff_count_le_one.mpr fun n => ?_, fun n => ⟨fun hn => ?_, fun ⟨hn, hfile⟩ => ?_⟩⟩
  · rw [count_sentFiles]
    refine le_trans (Multiset.count_le_of_le _ ?_) ((E.only keep).count_file_le n)
    rw [← begun_add hC.copies_eq hnodup hcs]
    exact ((Multiset.le_add_right _ _).trans (account_selection hsel hnodup hcs hq hf₀ hrun).le).trans
      (Multiset.le_add_left _ _)
  · obtain ⟨t, ht, hitem⟩ := List.mem_filterMap.mp hn
    have hbelongs := (carries_of_run hsel hnodup hcs hq hf₀ hrun ht).belongs
    rwa [sentFile_eq_some.mp hitem] at hbelongs
  · rw [← List.count_pos_iff, count_sentFiles, Multiset.count_pos]
    exact file_mem_items_of_run hsel hnodup hcs hq hf₀ hrun hnil hn hfile

/-- The folders of the selection were created, and no others. -/
theorem creations_selection (hrun : Run (Sides.Step S) (ready q disks) es s) (hnil : s.tasks_ = []) (b : FmTask.Body) :
    (∃ t ∈ es.flatten, t.asNew.isSome = true ∧ t.body = b) ↔ ∃ n ∈ (E.only keep).tree.nodes,
      n ≠ [] ∧ E.tree.isFolder n = true ∧ b = .new dst.remote ⟨dst.path n, 1, false⟩ := by
  have hC := hsel.copiesOn hnodup hcs
  have hcarries := fun {t} => carries_of_run (t := t) hsel hnodup hcs hq hf₀ hrun
  constructor
  · rintro ⟨t, ht, hnew, rfl⟩
    obtain ⟨n, hitem⟩ := (asNew_isSome (hcarries ht)).mp hnew
    have hbody := (hcarries ht).body_eq fun m => by simp [hitem]
    have hbelongs := (hcarries ht).belongs
    rw [hitem] at hbelongs hbody
    refine ⟨n, hbelongs.1, ?_, hbelongs.2.1, hbody.trans (body_new hC n)⟩
    rintro rfl
    exact (ne_root_of_run hsel hnodup hcs hq hf₀ hrun ht).2 hitem
  · rintro ⟨n, hn, hne, hfolder, rfl⟩
    have hclosing : .new n ∈ (E.only keep).closing n := by
      rw [closing, hC.copies_eq, if_pos rfl]
      exact List.mem_append_right _ List.mem_cons_self
    obtain ⟨t, ht, hitem⟩ := Multiset.mem_map.mp
      (mem_items_of_run hsel hnodup hcs hq hf₀ hrun hnil hn hne (.inr ⟨hfolder, hclosing⟩))
    rw [Multiset.mem_coe] at ht
    have hbody := (hcarries ht).body_eq fun m => by simp [hitem]
    rw [hitem, body_new hC] at hbody
    exact ⟨t, ht, (asNew_isSome (hcarries ht)).mpr ⟨n, hitem⟩, hbody⟩

/-- **However the engines take turns, a selection of a folder is copied, and nothing else.** -/
theorem selects : E.Selects keep dst S content holds q disks := by
  have hC := hsel.copiesOn hnodup hcs
  have hselection := fun {es s} =>
    @selection_of_run X E cs keep dst S content f₀ holds q disks es s hsel hnodup hcs id hq hf₀
  refine ⟨fun es s hrun => ?_, ⟨4 * Copying.stepsLeft (E.only keep) content (ready q disks) + 3,
      fun es s hrun => ?_⟩, fun es s hrun hstop => ?_, fun es s hrun hnil => ?_,
    fun es s hrun hnil b => creations_selection hsel hnodup hcs hq hf₀ hrun hnil b, fun es s hrun t ht => ?_,
    fun es s hrun hnil => ?_⟩
  · obtain ⟨f, h, -⟩ := hselection hrun
    exact h.books.ok
  · obtain ⟨f, -, -, hle⟩ := hselection hrun
    exact hle
  · obtain ⟨f, h, hun, -⟩ := hselection hrun
    by_contra hne
    obtain ⟨s', hworks⟩ := Copying.exists_works hC h hne
    have hserved := fun es s => @served_selection X E cs keep dst S content f₀ holds q disks es s hsel hnodup hcs id hq hf₀
    exact not_works_of_run hserved hrun hstop ((works_showing hun).mp hworks)
  · obtain ⟨hsent, hmem⟩ := sentFiles_selection hsel hnodup hcs hq hf₀ hrun hnil
    refine ⟨_, hsent, hmem, ?_⟩
    rw [sentFiles, List.map_filterMap]
    exact List.filterMap_congr fun t ht =>
      transfer_eq (E := E.only keep) hC (carries_of_run hsel hnodup hcs hq hf₀ hrun ht)
  · have hcarries := carries_of_run hsel hnodup hcs hq hf₀ hrun ht
    have hbelongs := hcarries.belongs
    cases hitem : (E.only keep).item t.body with
    | file n =>
      refine .inl ?_
      rw [transfer_eq hC hcarries, hitem]
      rfl
    | new n => exact .inr (.inl ((asNew_isSome hcarries).mpr ⟨n, hitem⟩))
    | list n =>
      have hbody := hcarries.body_eq fun m => by simp [hitem]
      rw [hitem] at hbelongs hbody
      refine .inr (.inr ⟨n, hbelongs.1, ?_, hbelongs.2, hbody⟩)
      rintro rfl
      exact (ne_root_of_run hsel hnodup hcs hq hf₀ hrun ht).1 hitem
    | del n =>
      rw [hitem] at hbelongs
      exact absurd (hbelongs.2.2.symm.trans hC.fells_eq) (by decide)
  · obtain ⟨f, h, -⟩ := hselection hrun
    refine ⟨f, hC.remote_dst ▸ h.target, fun n hn hfile => h.copied n ?_⟩
    rw [items_append]
    exact Multiset.mem_add.mpr (.inr (file_mem_items_of_run hsel hnodup hcs hq hf₀ hrun hnil hn hfile))

end Selected

end Runs

end Errand

end EuhatExpert
