import EuhatExpert.FileMan.TreeRun

/-!
# FileMan/BottomUp — are folders deleted behind what is in them

The order is in the priorities: 70 for a listing, 100 for a file, 1000 less the parts of the path for a
folder.  So a folder comes behind the listings of its folders as long as its path has at most 930 parts, and
behind its files as long as it has at most 900.
-/

namespace EuhatExpert

open Machinery

variable {X : Type}

namespace Errand

/-- Folders of folders are at most 930 parts deep, and folders of files at most 900. -/
def Shallow (E : Errand) : Prop :=
  ∀ n c, c ∈ E.tree.children n → E.src.root.path_.length + n.length ≤ if E.tree.isFolder c then 930 else 900

/-- Folders can be created at the other side. -/
def Creates (E : Errand) (S : Sides.Setup X) (x : X) : Prop :=
  ∀ n, E.Belongs (.new n) → (Workers.deed (S.os !E.src.remote) ⟨!E.src.remote, S.isUnix_⟩ x
    (E.body (.new n))).1.isSome = true

variable {E : Errand} {i j : Item} {n m c : Node}

/-! ## Priorities -/

theorem getPriority_list (n : Node) : (E.body (.list n)).getPriority = 70 := by
  refine if_neg ?_
  rw [listing, action_]
  cases E.purpose with
  | del => simp
  | downUp dst isMove_ => simp

theorem getPriority_file (hpurpose : E.purpose = .del) (n : Node) : (E.body (.file n)).getPriority = 100 := by
  rw [body, fileBody, hpurpose]
  rfl

theorem getPriority_del (hn : n ∈ E.tree.nodes) :
    (E.body (.del n)).getPriority = 1000 - (E.src.root.path_.length + n.length : ℕ) := by
  rw [← Place.length_path (E.tree.isPart n hn)]
  rfl

/-! ## What of a listing takes a node away -/

theorem notMem_below_of_length (h : c.length ≤ m.length) : c ∉ E.tree.below m := by
  intro hc
  obtain ⟨l, a, rfl⟩ := NameTree.exists_of_mem_below hc
  simp at h
  omega

theorem length_of_mem_children (hc : c ∈ E.tree.children n) : c.length = n.length + 1 := by
  obtain ⟨-, a, rfl⟩ := NameTree.mem_children.mp hc
  rfl

/-- The task made for a child. -/
def enter (E : Errand) (c : Node) : Item := if E.tree.isFolder c then .list c else .file c

theorem mem_inside (hj : j ∈ E.inside c) : j = .new c ∨ j = E.enter c := by
  rw [inside] at hj
  rw [enter]
  split_ifs at hj ⊢ with hfolder hcopies
  · rcases List.mem_cons.mp hj with rfl | hj
    · exact .inl rfl
    · exact .inr (List.mem_singleton.mp hj)
  · exact .inr (List.mem_singleton.mp hj)
  · exact .inr (List.mem_singleton.mp hj)

theorem mem_closing (hj : j ∈ E.closing n) : j = .del n ∨ j = .new n := by
  rw [closing, List.mem_append] at hj
  rcases hj with hj | hj
  · split_ifs at hj
    · exact .inl (List.mem_singleton.mp hj)
    · cases hj
  · split_ifs at hj
    · exact .inr (List.mem_singleton.mp hj)
    · cases hj

theorem mem_spawn_list : j ∈ E.spawn (.list n) ↔
    (∃ c ∈ E.tree.children n, j ∈ E.inside c) ∨ j ∈ E.closing n := by
  rw [spawn, Multiset.mem_add, Multiset.mem_sum]
  rfl

/-- What the task made for a child takes away. -/
theorem fell_mem_enter (hfells : E.fells = true) :
    E.fell c ∈ E.whole (E.enter m) ↔ c = m ∨ c ∈ E.tree.below m := by
  rw [enter]
  cases hfolder : E.tree.isFolder m
  · rw [if_neg Bool.false_ne_true, ← fell_of_file hfolder, NameTree.below_eq_empty hfolder]
    refine (fell_mem fun _ => fell_ne_list).trans (fell_inj.trans ?_)
    exact (or_iff_left (Finset.notMem_empty c)).symm
  · exact fell_mem_list hfells hfolder

/-- **Of the tasks made for what is in a folder, one takes a child away.** -/
theorem eq_enter (hfells : E.fells = true) (hc : c ∈ E.tree.children n) (hj : j ∈ E.spawn (.list n))
    (h : E.fell c ∈ E.whole j) : j = E.enter c := by
  have hlen := length_of_mem_children hc
  rcases mem_spawn_list.mp hj with ⟨m, hm, hj⟩ | hj
  · rcases mem_inside hj with rfl | rfl
    · exact absurd (Multiset.mem_singleton.mp h) fell_ne_new
    · have hle : c.length ≤ m.length := by rw [hlen, length_of_mem_children hm]
      rw [((fell_mem_enter hfells).mp h).resolve_right (notMem_below_of_length hle)]
  · rcases mem_closing hj with rfl | rfl
    · obtain ⟨hmem, a, rfl⟩ := NameTree.mem_children.mp hc
      have hfolder : E.tree.isFolder n = true := E.tree.parent_isFolder hmem
      rw [fell_mem (i := .del n) (fun _ => nofun), ← fell_of_folder hfolder, fell_inj] at h
      exact absurd (congrArg List.length h) (by simp)
    · exact absurd (Multiset.mem_singleton.mp h) fell_ne_new

/-- And one takes the folder away. -/
theorem eq_del (hfells : E.fells = true) (hj : j ∈ E.spawn (.list n))
    (h : E.fell n ∈ E.whole j) : j = .del n := by
  rcases mem_spawn_list.mp hj with ⟨m, hm, hj⟩ | hj
  · rcases mem_inside hj with rfl | rfl
    · exact absurd (Multiset.mem_singleton.mp h) fell_ne_new
    · have hlen := length_of_mem_children hm
      rcases (fell_mem_enter hfells).mp h with rfl | hbelow
      · omega
      · exact absurd hbelow (notMem_below_of_length (by omega))
  · rcases mem_closing hj with rfl | rfl
    · rfl
    · exact absurd (Multiset.mem_singleton.mp h) fell_ne_new

theorem eq_of_del_mem_spawn (h : .del n ∈ E.spawn (.list m)) : n = m := by
  rcases mem_spawn_list.mp h with ⟨c, -, h⟩ | h
  · rcases mem_inside h with h | h
    · cases h
    · rw [enter] at h
      split_ifs at h
  · rcases mem_closing h with h | h
    · exact Item.del.inj h
    · cases h

/-- A folder of a node under another is under that one, too, or it is the folder of that one. -/
theorem eq_or_below (hc : c ∈ E.tree.children n) (h : c = m ∨ c ∈ E.tree.below m) :
    c = m ∨ n = m ∨ n ∈ E.tree.below m := by
  refine h.imp_right fun h => ?_
  obtain ⟨hmem, a, rfl⟩ := NameTree.mem_children.mp hc
  obtain ⟨-, hsuffix, hne⟩ := NameTree.mem_below.mp h
  by_cases hnm : n = m
  · exact .inl hnm
  · exact .inr (NameTree.mem_below.mpr
      ⟨E.tree.parent_mem hmem, (List.suffix_cons_iff.mp hsuffix).resolve_left (Ne.symm hne), hnm⟩)

/-- **Whether a child is taken away before its folder is in the priorities.** -/
theorem getPriority_enter_le (huntransferred : E.Untransferred) (hc : c ∈ E.tree.children n) :
    (E.body (E.enter c)).getPriority ≤ (E.body (.del n)).getPriority ↔
      E.src.root.path_.length + n.length ≤ if E.tree.isFolder c then 930 else 900 := by
  obtain ⟨hmem, a, rfl⟩ := NameTree.mem_children.mp hc
  rw [getPriority_del (E.tree.parent_mem hmem), enter]
  cases hfolder : E.tree.isFolder (a :: n)
  · have hpurpose : E.purpose = .del := by
      refine huntransferred.resolve_right fun hfolders => ?_
      exact absurd (hfolder.symm.trans (hfolders _ hmem)) Bool.false_ne_true
    rw [if_neg Bool.false_ne_true, if_neg Bool.false_ne_true, getPriority_file hpurpose]
    omega
  · rw [if_pos rfl, if_pos rfl, getPriority_list]
    omega

end Errand

/-! ## In order -/

namespace Workers

variable {E : Errand} {S : Sides.Setup X} {has : X → Node → Prop} {w w' : Workers X} {t u v : FmTask} {n c : Node}
  {i j : Item}

/-- `x` is taken before `y` by an engine that may take both. -/
abbrev Earlier : FmTask → FmTask → Prop := Before FmTask.getPriority fun t u => t.id_ < u.id_

theorem earlier_of_le (h : t.getPriority ≤ u.getPriority) (hid : t.id_ < u.id_) : Earlier t u :=
  h.lt_or_eq.imp_right fun h => ⟨h, hid⟩

theorem not_earlier_of_earlier (h : Earlier t u) : ¬ Earlier u t := by
  rintro (h' | ⟨h', hid'⟩) <;> rcases h with h | ⟨h, hid⟩ <;> omega

namespace Makes

variable {bodies : List FmTask.Body} {idxBase_ : ℤ} (h : Makes E t bodies) (hi : E.Belongs (E.item t.body))

include h hi

/-- Only a listing makes tasks, and they are those of the folder. -/
theorem mem_spawn (hu : u ∈ FmScheduler.drawFrom idxBase_ bodies) :
    ∃ n, E.item t.body = .list n ∧ E.item u.body ∈ E.spawn (.list n) ∧ u.body = E.body (E.item u.body) := by
  cases hitem : E.item t.body with
  | list n =>
    obtain ⟨cs, hnodup, hcs, rfl⟩ := h.1 n hitem
    have hspawn := Errand.coe_spawn hnodup hcs
    rw [hitem] at hi
    obtain ⟨i, hmem, hbody, rfl⟩ := Tracks.exists_item_of_drawFrom (fun i hmem =>
      Errand.belongs_of_mem_spawn hi (hspawn ▸ Multiset.mem_coe.mpr hmem)) hu
    exact ⟨n, rfl, hspawn ▸ Multiset.mem_coe.mpr hmem, hbody⟩
  | _ =>
    rw [h.2 fun n hn => by rw [hitem] at hn; cases hn] at hu
    cases hu

/-- And it makes all of them. -/
theorem exists_of_mem_spawn (hitem : E.item t.body = .list n) (hj : j ∈ E.spawn (.list n)) :
    ∃ u ∈ FmScheduler.drawFrom idxBase_ bodies, u.body = E.body j ∧ E.item u.body = j := by
  obtain ⟨cs, hnodup, hcs, rfl⟩ := h.1 n hitem
  rw [hitem] at hi
  have hbelongs := Errand.belongs_of_mem_spawn hi hj
  rw [← Errand.coe_spawn hnodup hcs, Multiset.mem_coe] at hj
  have hmem := List.mem_map_of_mem (f := E.body) hj
  rw [← FmScheduler.map_body_drawFrom idxBase_ (List.map E.body _)] at hmem
  obtain ⟨u, hu, hbody⟩ := List.mem_map.mp hmem
  exact ⟨u, hu, hbody, by rw [hbody, Errand.item_body hbelongs]⟩

/-- The folder's task is made behind those for what is in it. -/
theorem id_lt (hitem : E.item t.body = .list n) (hu : u ∈ FmScheduler.drawFrom idxBase_ bodies)
    (hv : v ∈ FmScheduler.drawFrom idxBase_ bodies) (huc : E.item u.body = E.enter c)
    (hvn : E.item v.body = .del n) : u.id_ < v.id_ := by
  obtain ⟨cs, hnodup, hcs, rfl⟩ := h.1 n hitem
  rw [hitem] at hi
  have hspawn := Errand.coe_spawn hnodup hcs
  have hbelongs : ∀ i ∈ cs.flatMap E.inside ++ E.closing n, E.Belongs i := fun i hmem =>
    Errand.belongs_of_mem_spawn hi (hspawn ▸ Multiset.mem_coe.mpr hmem)
  rw [List.map_append, FmScheduler.drawFrom_append, List.mem_append] at hu hv
  refine FmScheduler.id_lt_of_drawFrom (hu.resolve_right fun hu => ?_) (hv.resolve_left fun hv => ?_)
  · obtain ⟨i, hmem, -, rfl⟩ := Tracks.exists_item_of_drawFrom (fun i hmem =>
      hbelongs i (List.mem_append_right _ hmem)) hu
    rw [huc, Errand.enter] at hmem
    rcases Errand.mem_closing hmem with heq | heq <;> split_ifs at heq
  · obtain ⟨i, hmem, -, rfl⟩ := Tracks.exists_item_of_drawFrom (fun i hmem =>
      hbelongs i (List.mem_append_left _ hmem)) hv
    obtain ⟨d, -, hmem⟩ := List.mem_flatMap.mp hmem
    rw [hvn] at hmem
    rcases Errand.mem_inside hmem with heq | heq
    · cases heq
    · rw [Errand.enter] at heq
      split_ifs at heq

end Makes

/-- No task fails, and a folder's task stands behind those that take away what is in it. -/
structure Smooth (E : Errand) (w : Workers X) : Prop where
  ok : ∀ t ∈ w.scheduler_.tasks_, t.result_ = FmResultOk
  order : ∀ t ∈ w.scheduler_.tasks_, ∀ u ∈ w.scheduler_.tasks_, ∀ n, E.item t.body = .del n →
    ∀ c ∈ E.tree.children n, E.fell c ∈ E.whole (E.item u.body) → Earlier u t
  ready : ∀ t n, w.hand E.src.remote = .taken t → E.item t.body = .del n →
    ∀ c ∈ E.tree.children n, E.fell c ∈ items E w.ended
  noFail : ∀ remote t, w.hand remote ≠ .done t none

namespace Smooth

variable (h : Smooth E w)

include h

theorem take (htracks : Tracks E has w) (hfells : E.fells = true) (huntransferred : E.Untransferred) {remote : Bool}
    (hfirst : w.scheduler_.getFirst remote = some t) :
    Smooth E { w with hand := Function.update w.hand remote (.taken t) } := by
  refine ⟨h.ok, h.order, fun u n htaken hitem c hc => ?_, fun r u hdone => ?_⟩
  · dsimp only at htaken
    by_cases hr : E.src.remote = remote
    · subst hr
      rw [Function.update_self] at htaken
      obtain rfl := Hand.taken.inj htaken
      obtain ⟨-, -, -, -, hfind⟩ := FmScheduler.getFirst_some hfirst
      -- what is in the folder would have been taken before it
      by_contra hover
      obtain ⟨u, hu, hcu⟩ := htracks.exists_owner hfells (NameTree.mem_children.mp hc).1 hover
      obtain ⟨hi, hbody⟩ := htracks.item_body hu
      have hside : (u.isLocal != E.src.remote) = true := by
        rw [Errand.isLocal_eq huntransferred hi hbody, Errand.side_of_fell_mem hcu]
        cases E.src.remote <;> rfl
      have hearlier := h.order t (FmScheduler.mem_of_getFirst hfirst) u hu n hitem c hc hcu
      rcases htracks.sorted.find?_before hfind u hu hside with rfl | hbefore
      · exact not_earlier_of_earlier hearlier hearlier
      · exact not_earlier_of_earlier hearlier hbefore
    · rw [Function.update_of_ne hr] at htaken
      exact h.ready u n htaken hitem c hc
  · exact h.noFail r u (Hand.eq_of_update (by simp) hdone).2

/-- **What is done with a task in hand succeeds.** -/
theorem deed_isSome (htracks : Tracks E has w) (hheld : w.Held) (hfells : E.fells = true)
    (huntransferred : E.Untransferred) (hos : HoldsTree (S.os E.src.remote) E.tree E.src has) (hfits : E.Fits S)
    (hcreates : E.Creates S (w.disks !E.src.remote)) {remote : Bool} (htaken : w.hand remote = .taken t) :
    (deed (S.os remote) ⟨remote, S.isUnix_⟩ (w.disks remote) t.body).1.isSome = true := by
  obtain ⟨hmem, hside⟩ := hheld remote t (.inl htaken)
  obtain ⟨hi, hbody⟩ := htracks.item_body hmem
  have hremote := Errand.eq_side huntransferred hi hbody hside
  have hthere : ∀ c ∈ E.tree.nodes, remote = E.src.remote → E.fell c ∈ E.whole (E.item t.body) →
      has (w.disks E.src.remote) c := fun c hc hr => htracks.there hfells hmem (hr ▸ htaken) hc
  have hready := h.ready t
  generalize E.item t.body = i at hi hbody hremote hthere hready
  rw [hbody]
  cases i with
  | list n =>
    obtain rfl : remote = E.src.remote := hremote
    have hmem_list := fun c => @Errand.fell_mem_list E n c hfells hi.2
    have hall : ∀ c ∈ E.tree.children n, has (w.disks E.src.remote) c := by
      intro c hc
      have hbelow := NameTree.mem_below_of_mem_children hc
      exact hthere c (NameTree.mem_children.mp hc).1 rfl ((hmem_list c).mpr (.inr hbelow))
    have hself := hthere n hi.1 rfl ((hmem_list n).mpr (.inl rfl))
    obtain ⟨cs, -, -, hdeed⟩ := deed_list hos hfits hi hself hall
    rw [hdeed, Option.isSome_some]
  | file n =>
    obtain rfl : remote = E.src.remote := hremote
    have hpurpose : E.purpose = .del := by
      refine huntransferred.resolve_right fun hfolders => ?_
      exact absurd (hi.2.symm.trans (hfolders n hi.1)) Bool.false_ne_true
    have hself := hthere n hi.1 rfl (by
      rw [Errand.fell_of_file hi.2]
      exact Multiset.mem_singleton_self _)
    rw [(deed_file hos hpurpose hi hself ⟨E.src.remote, S.isUnix_⟩).1, Option.isSome_some]
  | new n =>
    obtain rfl : remote = !E.src.remote := hremote
    exact hcreates n hi
  | del n =>
    obtain rfl : remote = E.src.remote := hremote
    have hself := hthere n hi.1 rfl (by
      rw [Errand.fell_of_folder hi.2.1]
      exact Multiset.mem_singleton_self _)
    rcases deed_del hos hi hself ⟨E.src.remote, S.isUnix_⟩ with ⟨⟨c, hc, hchild⟩, -⟩ | ⟨-, hout, -⟩
    · exact absurd (hready n htaken rfl c hc) ((htracks.has_iff c).mp hchild).2.1
    · rw [hout, Option.isSome_some]

theorem act {remote : Bool} {out : Outcome} {x : X} (hsome : out.isSome = true) :
    Smooth E { w with
      hand := Function.update w.hand remote (.done t out)
      disks := Function.update w.disks remote x } := by
  have hnone : out ≠ none := Option.isSome_iff_ne_none.mp hsome
  refine ⟨h.ok, h.order, fun u n htaken => ?_, fun r u hdone => ?_⟩
  · exact h.ready u n (Hand.eq_of_update (by simp) htaken).2
  · exact h.noFail r u (Hand.eq_of_update (by simp [hnone]) hdone).2

/-- **A listing gives way to tasks that keep the order.** -/
theorem settle (htracks : Tracks E has w) (hfells : E.fells = true) (huntransferred : E.Untransferred)
    (hshallow : E.Shallow) (hmem : t ∈ w.scheduler_.tasks_) {remote : Bool} {bodies : List FmTask.Body} {s : FmScheduler}
    (hdone : w.hand remote = .done t (some bodies))
    (hreplaces : w.scheduler_.Replaces t (FmScheduler.drawFrom w.scheduler_.idxBase_ bodies) s) :
    Smooth E { w with
      scheduler_ := s
      hand := Function.update w.hand remote .idle
      ended := w.ended ++ [t] } := by
  have hmakes := htracks.makes remote t bodies hdone
  obtain ⟨hi, -⟩ := htracks.item_body hmem
  refine ⟨fun u hu => ?_, fun v hv u hu n hdel c hc hcu => ?_, fun u n htaken hitem c hc => ?_, fun r u hr => ?_⟩
  · rcases hreplaces.mem_iff.mp hu with hu | ⟨hu, -⟩
    · exact ((FmScheduler.pairwise_drawFrom _ _).2 u hu).2
    · exact h.ok u hu
  · rcases hreplaces.mem_iff.mp hv with hv | ⟨hv, hvt⟩ <;> rcases hreplaces.mem_iff.mp hu with hu | ⟨hu, hut⟩
    · obtain ⟨m, hm, hvm, hvbody⟩ := hmakes.mem_spawn hi hv
      obtain ⟨m', hm', hum, hubody⟩ := hmakes.mem_spawn hi hu
      obtain rfl : m' = m := Item.list.inj (hm'.symm.trans hm)
      rw [hdel] at hvm hvbody
      obtain rfl := Errand.eq_of_del_mem_spawn hvm
      have hux := Errand.eq_enter hfells hc hum hcu
      rw [hux] at hubody
      refine earlier_of_le ?_ (hmakes.id_lt hi hm hu hv hux hdel)
      rw [FmTask.getPriority, FmTask.getPriority, hubody, hvbody]
      exact (Errand.getPriority_enter_le huntransferred hc).mpr (hshallow n c hc)
    · obtain ⟨m, hm, hvm, -⟩ := hmakes.mem_spawn hi hv
      rw [hdel] at hvm
      obtain rfl := Errand.eq_of_del_mem_spawn hvm
      refine absurd (htracks.owner_unique hfells hu hmem hcu ?_) hut
      rw [hm] at hi ⊢
      exact (Errand.fell_mem_list hfells hi.2).mpr (.inr (NameTree.mem_below_of_mem_children hc))
    · obtain ⟨m, hm, hum, hubody⟩ := hmakes.mem_spawn hi hu
      obtain ⟨hn, hvbody⟩ := htracks.item_body hv
      rw [hdel] at hn hvbody
      rw [hm] at hi
      have hlist := fun d => @Errand.fell_mem_list E m d hfells hi.2
      rcases Errand.eq_or_below hc ((hlist c).mp (Errand.spawns.mem_whole.mpr (.inr ⟨_, hum, hcu⟩)))
        with rfl | hnm
      · have hdelu := Errand.eq_del hfells hum hcu
        have hlen := Errand.length_of_mem_children hc
        rw [hdelu] at hubody
        refine .inl ?_
        rw [FmTask.getPriority, FmTask.getPriority, hubody, hvbody, Errand.getPriority_del hi.1,
          Errand.getPriority_del hn.1, hlen]
        omega
      · refine absurd (htracks.owner_unique (c := n) hfells hv hmem ?_ ?_) hvt
        · rw [hdel, ← Errand.fell_of_folder hn.2.1]
          exact (Errand.fell_mem fun _ => Errand.fell_ne_list).mpr rfl
        · rw [hm]
          exact (hlist n).mpr hnm
    · exact h.order v hv u hu n hdel c hc hcu
  · obtain ⟨-, hbefore⟩ := Hand.eq_of_update (by simp) htaken
    rw [items_append]
    exact Multiset.mem_add.mpr (.inl (h.ready u n hbefore hitem c hc))
  · exact h.noFail r u (Hand.eq_of_update (by simp) hr).2

/-- **Every small step keeps the order.** -/
theorem step (htracks : Tracks E has w) (hheld : w.Held) (hfells : E.fells = true)
    (huntransferred : E.Untransferred) (hos : HoldsTree (S.os E.src.remote) E.tree E.src has) (hfits : E.Fits S)
    (hcreates : E.Creates S (w.disks !E.src.remote)) (hshallow : E.Shallow) (hstep : Step S.os S.isUnix_ w w') : Smooth E w' := by
  cases hstep with
  | take _ hfirst => exact h.take htracks hfells huntransferred hfirst
  | act htaken =>
    exact h.act (h.deed_isSome htracks hheld hfells huntransferred hos hfits hcreates htaken)
  | @settle remote t out s hdone hsettles =>
    cases out with
    | none => exact absurd hdone (h.noFail remote t)
    | some bodies =>
      obtain ⟨hmem, -⟩ := hheld remote t (.inr ⟨_, hdone⟩)
      exact h.settle htracks hfells huntransferred hshallow hmem hdone hsettles

end Smooth

theorem smooth_start {q : FmScheduler} {id : ℤ} (hq : q.tasks_ = [⟨id, FmResultOk, E.body (.list [])⟩])
    (disks : Bool → X) : Smooth E ⟨q, fun _ => .idle, disks, []⟩ := by
  have hroot : E.Belongs (.list []) := ⟨E.tree.root_mem, E.tree.root_isFolder⟩
  refine ⟨fun t ht => ?_, fun t ht u _ n hdel => ?_, fun _ _ htaken => (nomatch htaken), fun _ _ => nofun⟩
  · rw [hq, List.mem_singleton] at ht
    rw [ht]
  · rw [hq, List.mem_singleton] at ht
    rw [ht, Errand.item_body hroot] at hdel
    cases hdel

/-! ## Out of order -/

/-- The way down to a folder goes on, or the folder's task stands in front of a task that takes away what is in
it and that no engine has in hand. -/
def Stuck (E : Errand) (n c : Node) (w : Workers X) : Prop :=
  (∃ u ∈ w.scheduler_.tasks_, ∃ m, E.item u.body = .list m ∧ m <:+ n) ∨
    ∃ t ∈ w.scheduler_.tasks_, ∃ u ∈ w.scheduler_.tasks_, E.item t.body = .del n ∧
      E.fell c ∈ E.whole (E.item u.body) ∧ t.getPriority < u.getPriority ∧
      w.hand E.src.remote ≠ .taken u ∧ ∀ out, w.hand E.src.remote ≠ .done u out

namespace Stuck

theorem ne_nil (h : Stuck E n c w) : w.scheduler_.tasks_ ≠ [] := by
  rcases h with ⟨u, hu, -⟩ | ⟨u, hu, -⟩
  · exact List.ne_nil_of_mem hu
  · exact List.ne_nil_of_mem hu

/-- The listing of a folder on the way makes the next listing, or the tasks in the wrong order. -/
theorem of_listing (htracks : Tracks E has w) (hfells : E.fells = true) (huntransferred : E.Untransferred)
    (hc : c ∈ E.tree.children n)
    (hdeep : ¬ E.src.root.path_.length + n.length ≤ if E.tree.isFolder c then 930 else 900) {m : Node}
    (hmem : t ∈ w.scheduler_.tasks_) (hm : E.item t.body = .list m) (hmn : m <:+ n) {bodies : List FmTask.Body}
    {remote : Bool} (hdone : w.hand remote = .done t (some bodies)) {s : FmScheduler} {hand : Bool → Hand}
    (hidle : hand E.src.remote = .idle)
    (hreplaces : w.scheduler_.Replaces t (FmScheduler.drawFrom w.scheduler_.idxBase_ bodies) s) {ended : List FmTask} :
    Stuck E n c ⟨s, hand, w.disks, ended⟩ := by
  have hmakes := htracks.makes remote t bodies hdone
  obtain ⟨hi, -⟩ := htracks.item_body hmem
  have hnode : n ∈ E.tree.nodes := by
    obtain ⟨hmem, a, rfl⟩ := NameTree.mem_children.mp hc
    exact E.tree.parent_mem hmem
  have hfolder : E.tree.isFolder n = true := NameTree.isFolder_of_below (NameTree.mem_below_of_mem_children hc)
  have hmakes_of := fun j => @Makes.exists_of_mem_spawn E t m j bodies w.scheduler_.idxBase_ hmakes hi hm
  by_cases heq : n = m
  · subst heq
    have hdel : .del n ∈ E.spawn (.list n) := by
      refine Errand.mem_spawn_list.mpr (.inr ?_)
      rw [Errand.closing, if_pos hfells]
      exact List.mem_append_left _ List.mem_cons_self
    have henter : E.enter c ∈ E.spawn (.list n) := by
      refine Errand.mem_spawn_list.mpr (.inl ⟨c, hc, ?_⟩)
      rw [Errand.inside, Errand.enter]
      split_ifs <;> simp
    obtain ⟨v, hv, hvbody, hvitem⟩ := hmakes_of _ hdel
    obtain ⟨u, hu, hubody, huitem⟩ := hmakes_of _ henter
    refine .inr ⟨v, hreplaces.mem_iff.mpr (.inl hv), u, hreplaces.mem_iff.mpr (.inl hu), hvitem, ?_, ?_, ?_⟩
    · rw [huitem]
      exact (Errand.fell_mem_enter hfells).mpr (.inl rfl)
    · rw [FmTask.getPriority, FmTask.getPriority, hvbody, hubody]
      exact lt_of_not_ge fun hle => hdeep ((Errand.getPriority_enter_le huntransferred hc).mp hle)
    · exact ⟨fun htaken => Hand.noConfusion (hidle.symm.trans htaken),
        fun _ hdone => Hand.noConfusion (hidle.symm.trans hdone)⟩
  · have hbelow : n ∈ E.tree.below m := NameTree.mem_below.mpr ⟨hnode, hmn, heq⟩
    have htowards := NameTree.towards_mem hbelow
    have hsuffix : NameTree.towards m n <:+ n := List.drop_suffix _ _
    have hnext : E.tree.isFolder (NameTree.towards m n) = true := by
      by_cases hself : n = NameTree.towards m n
      · exact hself ▸ hfolder
      · exact NameTree.isFolder_of_below (NameTree.mem_below.mpr ⟨hnode, hsuffix, hself⟩)
    have hspawn : .list (NameTree.towards m n) ∈ E.spawn (.list m) := by
      refine Errand.mem_spawn_list.mpr (.inl ⟨_, htowards, ?_⟩)
      rw [Errand.inside, if_pos hnext]
      exact List.mem_append_right _ List.mem_cons_self
    obtain ⟨u, hu, -, huitem⟩ := hmakes_of _ hspawn
    exact .inl ⟨u, hreplaces.mem_iff.mpr (.inl hu), _, huitem, hsuffix⟩

/-- **Every small step leaves the errand stuck.** -/
theorem step (h : Stuck E n c w) (htracks : Tracks E has w) (hheld : w.Held) (hfells : E.fells = true)
    (huntransferred : E.Untransferred) (hc : c ∈ E.tree.children n)
    (hdeep : ¬ E.src.root.path_.length + n.length ≤ if E.tree.isFolder c then 930 else 900)
    (hstep : Step S.os S.isUnix_ w w') : Stuck E n c w' := by
  cases hstep with
  | @take remote t hidle hfirst =>
    refine h.imp_right fun ⟨v, hv, u, hu, hdel, hcu, hlt, htaken, hdone⟩ => ⟨v, hv, u, hu, hdel, hcu, hlt, ?_⟩
    dsimp only
    by_cases hr : E.src.remote = remote
    · subst hr
      rw [Function.update_self]
      refine ⟨fun heq => ?_, fun _ heq => (by cases heq)⟩
      obtain rfl := Hand.taken.inj heq
      obtain ⟨-, -, -, -, hfind⟩ := FmScheduler.getFirst_some hfirst
      obtain ⟨hi, hbody⟩ := htracks.item_body hv
      have hside : (v.isLocal != E.src.remote) = true := by
        rw [Errand.isLocal_eq huntransferred hi hbody, hdel, Errand.side]
        cases E.src.remote <;> rfl
      exact absurd (htracks.sorted.find?_le hfind v hv hside) (not_le_of_gt hlt)
    · rw [Function.update_of_ne hr]
      exact ⟨htaken, hdone⟩
  | @act remote t hin =>
    refine h.imp_right fun ⟨v, hv, u, hu, hdel, hcu, hlt, htaken, hdone⟩ => ⟨v, hv, u, hu, hdel, hcu, hlt, ?_⟩
    dsimp only
    by_cases hr : E.src.remote = remote
    · subst hr
      rw [Function.update_self]
      refine ⟨fun heq => (by cases heq), fun out heq => htaken (hin.trans ?_)⟩
      rw [(Hand.done.inj heq).1]
    · rw [Function.update_of_ne hr]
      exact ⟨htaken, hdone⟩
  | @settle remote t out s hin hsettles =>
    obtain ⟨hmem, hside⟩ := hheld remote t (.inr ⟨out, hin⟩)
    obtain ⟨hi, hbody⟩ := htracks.item_body hmem
    have hremote := Errand.eq_side huntransferred hi hbody hside
    have hstays : ∀ u ∈ w.scheduler_.tasks_, u ≠ t → u ∈ s.tasks_ := by
      intro u hu hne
      cases out with
      | none => exact (FmScheduler.Replaces.mem_iff hsettles).mpr (.inr ⟨hu, hne⟩)
      | some bodies => exact (FmScheduler.Replaces.mem_iff hsettles).mpr (.inr ⟨hu, hne⟩)
    rcases h with ⟨u, hu, m, hm, hmn⟩ | ⟨v, hv, u, hu, hdel, hcu, hlt, htaken, hdone⟩
    · by_cases hut : u = t
      · subst hut
        cases out with
        | none => exact .inl ⟨_, (FmScheduler.Replaces.mem_iff hsettles).mpr (.inl List.mem_cons_self), m, hm, hmn⟩
        | some bodies =>
          rw [hm] at hremote
          obtain rfl : remote = E.src.remote := hremote
          exact of_listing htracks hfells huntransferred hc hdeep hmem hm hmn hin (Function.update_self _ _ _) hsettles
      · exact .inl ⟨u, hstays u hu hut, m, hm, hmn⟩
    · have hut : u ≠ t := by
        rintro rfl
        rw [Errand.side_of_fell_mem hcu] at hremote
        exact hdone out (hremote ▸ hin)
      have hidle : ∀ {f : Hand}, f ≠ .idle → w.hand E.src.remote ≠ f →
          Function.update w.hand remote .idle E.src.remote ≠ f := by
        intro f hf hne
        by_cases hr : E.src.remote = remote
        · rw [hr, Function.update_self]
          exact hf.symm
        · rwa [Function.update_of_ne hr]
      have hhand : Function.update w.hand remote .idle E.src.remote ≠ .taken u ∧
          ∀ out, Function.update w.hand remote .idle E.src.remote ≠ .done u out :=
        ⟨hidle (by simp) htaken, fun out => hidle (by simp) (hdone out)⟩
      by_cases hvt : v = t
      · subst hvt
        rw [hdel] at hremote
        obtain rfl : remote = E.src.remote := hremote
        cases out with
        | none =>
          exact .inr ⟨_, (FmScheduler.Replaces.mem_iff hsettles).mpr (.inl List.mem_cons_self), u, hstays u hu hut,
            hdel, hcu, hlt, hhand⟩
        | some bodies => exact absurd (htracks.felled v bodies n hin hdel c hc) (htracks.notMem_over hfells hu hcu)
      · exact .inr ⟨v, hstays v hv hvt, u, hstays u hu hut, hdel, hcu, hlt, hhand⟩

end Stuck

theorem stuck_start {q : FmScheduler} {id : ℤ} (hq : q.tasks_ = [⟨id, FmResultOk, E.body (.list [])⟩])
    (disks : Bool → X) : Stuck E n c ⟨q, fun _ => .idle, disks, []⟩ := by
  refine .inl ⟨_, by rw [hq]; exact List.mem_cons_self, [], ?_, List.nil_suffix⟩
  exact Errand.item_body (i := .list []) ⟨E.tree.root_mem, E.tree.root_isFolder⟩

/-! ## What is over -/

/-- What takes nodes away is over once for a node, and behind what takes away what is in it. -/
structure Upward (E : Errand) (w : Workers X) : Prop where
  tasks : ∀ t ∈ w.ended, E.Belongs (E.item t.body) ∧ t.body = E.body (E.item t.body)
  children : ∀ n, E.fell n ∈ items E w.ended → ∀ c ∈ E.tree.children n, E.fell c ∈ items E w.ended
  order : w.ended.Pairwise fun t u => ∀ n c, E.item t.body = E.fell n → E.item u.body = E.fell c →
    n ≠ c ∧ c ∉ E.tree.children n

theorem Upward.step (h : Upward E w) (htracks : Tracks E has w) (hheld : w.Held) (hfells : E.fells = true)
    (huntransferred : E.Untransferred) (hstep : Step S.os S.isUnix_ w w') : Upward E w' := by
  cases hstep with
  | take => exact ⟨h.tasks, h.children, h.order⟩
  | act => exact ⟨h.tasks, h.children, h.order⟩
  | @settle remote t out s hin hsettles =>
    cases out with
    | none =>
      have hover : w.ended ++ (if (none : Outcome).isSome then [t] else []) = w.ended := List.append_nil _
      refine ⟨?_, ?_, ?_⟩
      all_goals
        dsimp only
        rw [hover]
      exacts [h.tasks, h.children, h.order]
    | some bodies =>
      obtain ⟨hmem, hside⟩ := hheld remote t (.inr ⟨_, hin⟩)
      obtain ⟨hi, hbody⟩ := htracks.item_body hmem
      have hremote := Errand.eq_side huntransferred hi hbody hside
      have hown : ∀ {c}, E.item t.body = E.fell c → E.fell c ∉ items E w.ended := fun hc =>
        htracks.notMem_over hfells hmem (hc ▸ Errand.spawns.self_mem _)
      refine ⟨fun u hu => ?_, fun n hn c hc => ?_, ?_⟩
      · rcases List.mem_append.mp hu with hu | hu
        · exact h.tasks u hu
        · rw [List.mem_singleton.mp hu]
          exact ⟨hi, hbody⟩
      · rw [items_append, Multiset.mem_add] at hn ⊢
        refine .inl (hn.elim (fun hn => h.children n hn c hc) fun hn => ?_)
        have hitem : E.item t.body = E.fell n := (Multiset.mem_singleton.mp hn).symm
        have hfolder := NameTree.isFolder_of_below (NameTree.mem_below_of_mem_children hc)
        rw [hitem, Errand.side_fell] at hremote
        obtain rfl := hremote
        exact htracks.felled t bodies n hin (hitem.trans (Errand.fell_of_folder hfolder)) c hc
      · refine List.pairwise_append.mpr ⟨h.order, List.pairwise_singleton _ _, fun u hu v hv n c hn hc => ?_⟩
        obtain rfl := List.mem_singleton.mp hv
        have hover : E.fell n ∈ items E w.ended := by
          rw [← hn]
          exact Multiset.mem_map_of_mem _ (Multiset.mem_coe.mpr hu)
        refine ⟨?_, fun hchild => hown hc (h.children n hover c hchild)⟩
        rintro rfl
        exact hown hc hover

/-! ## Runs -/

section Runs

open Sides

variable {q : FmScheduler} {id : ℤ} {disks : Bool → X} {es : List (List FmTask)} {s : Sides X}
  (hfells : E.fells = true) (huntransferred : E.Untransferred) (hfits : E.Fits S)
  (hos : HoldsTree (S.os E.src.remote) E.tree E.src has)
  (hq : q.tasks_ = [⟨id, FmResultOk, E.body (.list [])⟩]) (hhas : ∀ n, has (disks E.src.remote) n ↔ n ∈ E.tree.nodes)

include hfells huntransferred hfits hos hq hhas

/-- **In a shallow tree an errand runs smoothly**, with what else holds of the small steps. -/
theorem smooth_of_run {J : Workers X → Prop} (hJ₀ : J ⟨q, fun _ => .idle, disks, []⟩)
    (hJ : ∀ w w', w.Held → Tracks E has w → J w → Step S.os S.isUnix_ w w' → J w')
    (hcreates : ∀ w, J w → E.Creates S (w.disks !E.src.remote)) (hshallow : E.Shallow)
    (hrun : Run (Sides.Step S) (ready q disks) es s) :
    ∃ w, Shows S s w ∧ (Tracks E has w ∧ Smooth E w ∧ Upward E w ∧ J w) ∧ w.ended = es.flatten ∧
      es.length ≤ 4 * w.progress + 3 := by
  have h₀ : Upward E (⟨q, fun _ => .idle, disks, []⟩ : Workers X) :=
    ⟨nofun, fun n hn => absurd hn (Multiset.notMem_zero _), List.Pairwise.nil⟩
  obtain ⟨w, hshows, hw, hover, hlen⟩ := shows_of_run (I := fun w => Tracks E has w ∧ Smooth E w ∧ Upward E w ∧ J w)
    ⟨tracks_start hq hhas, smooth_start hq disks, h₀, hJ₀⟩
    (fun w w' hheld ⟨htracks, hsmooth, hupward, h⟩ hstep =>
      ⟨htracks.step hheld hfells huntransferred hos hfits hstep,
        hsmooth.step htracks hheld hfells huntransferred hos hfits (hcreates w h) hshallow hstep,
        hupward.step htracks hheld hfells huntransferred hstep, hJ w w' hheld htracks h hstep⟩)
    (fun w ⟨htracks, _⟩ t ht => by
      obtain ⟨hi, hbody⟩ := htracks.item_body ht
      exact hbody ▸ Errand.plain_body hfits huntransferred hi) hrun
  exact ⟨w, hshows, hw, hover, hlen fun w hw => hw.2.1.noFail⟩

/-- **With an order that fails, the queue never ends empty.** -/
theorem stuck_of_run (hc : c ∈ E.tree.children n)
    (hdeep : ¬ E.src.root.path_.length + n.length ≤ if E.tree.isFolder c then 930 else 900)
    (hrun : Run (Sides.Step S) (ready q disks) es s) : s.tasks_ ≠ [] := by
  obtain ⟨w, hshows, ⟨-, hstuck⟩, -⟩ := shows_of_run (I := fun w => Tracks E has w ∧ Stuck E n c w)
    ⟨tracks_start hq hhas, stuck_start hq disks⟩
    (fun w w' hheld ⟨htracks, hstuck⟩ hstep => ⟨htracks.step hheld hfells huntransferred hos hfits hstep,
      hstuck.step htracks hheld hfells huntransferred hc hdeep hstep⟩)
    (fun w ⟨htracks, _⟩ t ht => by
      obtain ⟨hi, hbody⟩ := htracks.item_body ht
      exact hbody ▸ Errand.plain_body hfits huntransferred hi) hrun
  rw [tasks_, hshows.scheduler]
  exact hstuck.ne_nil

end Runs

end Workers

end EuhatExpert
