import EuhatExpert.FileMan.Selection

/-!
# Expert/FileManSubDlg — what is selected is what is copied

The dialog shows a folder of either side, a row for each entry of it.  A click has the selected rows of one
side copied to the folder the other side shows: every row becomes a task, and the folder that is copied to is
listed again once there is no other task (`copied_of_transfer`).
-/

namespace EuhatExpert

open Machinery Sides

variable {X : Type}

/-! ## The rows -/

/-- A string of wide characters, without its terminator. -/
abbrev WStr := List UInt16

/-- What the system makes of a string. -/
structure WideChars where
  utf8ToWstr : Bytes → WStr
  wstrToUtf8 : WStr → Bytes

/-- The letters from A to Z are taken for small ones. -/
def smallLetter (c : UInt16) : UInt16 := if 65 ≤ c ∧ c ≤ 90 then c ||| 0x20 else c

def opStrCmpNoCase : WStr → WStr → ℤ
  | [], [] => 0
  | [], _ :: _ => -1
  | l :: _, [] => (smallLetter l).toNat
  | l :: ls, r :: rs =>
    if smallLetter l ≠ smallLetter r then (smallLetter l).toNat - (smallLetter r).toNat else opStrCmpNoCase ls rs

/-- A row: the name in its first cell and, for a file, the size in the second and the time in the fourth. -/
structure Row where
  name : WStr
  file : Option (ℤ × ℤ)
  isSelected_ : Bool

/-- The folder a side shows. -/
structure FmFileDlg where
  curDir_ : EuhatPath
  rows_ : List Row

section Display

variable (wide : WideChars)

def SubEntry.row : SubEntry → Row
  | folder name => ⟨wide.utf8ToWstr name, none, false⟩
  | file name size lastWriteTime => ⟨wide.utf8ToWstr name, some (size, lastWriteTime), false⟩

/-- `displayFiles`: the rows of a listing, sorted by their names. -/
def FmFileDlg.displayFiles (d : FmFileDlg) (bytes : Bytes) : Except Fault FmFileDlg := do
  let l ← SubList.read bytes
  pure
    { curDir_ := { EuhatPath.inStr l.curDir with isUnix_ := d.curDir_.isUnix_ }
      rows_ := (l.entries.map (SubEntry.row wide)).mergeSort fun l r => ¬ opStrCmpNoCase r.name l.name < 0 }

end Display

def FmFileDlg.selected (d : FmFileDlg) : List Row := d.rows_.filter Row.isSelected_

/-! ## The clicks -/

def EuhatPath.goUp (p : EuhatPath) : EuhatPath := { p with path_ := p.path_.dropLast }

@[simp] theorem EuhatPath.goUp_goSub (p : EuhatPath) (fileName : Bytes) : (p.goSub fileName).goUp = p := by
  obtain ⟨path, isUnix, isAbsPath⟩ := p
  exact congrArg (EuhatPath.mk · isUnix isAbsPath) List.dropLast_concat

/-- The queue, how often the engines were told of it, and what either side shows. -/
structure FileManSubDlg where
  scheduler_ : FmScheduler
  notified : ℕ
  dlgLocal_ : FmFileDlg
  dlgRemote_ : FmFileDlg

/-- A text of the source. -/
def wideText (text : String) : WStr := text.toList.map fun c => UInt16.ofNat c.toNat

/-- The question before files are overwritten; five of them are named. -/
def overwriteText (rowsAnd : List Row) : WStr :=
  wideText "Below files will be overwritten, Are you sure?\n" ++
    (rowsAnd.take 5).flatMap (fun r => wideText "\n\t" ++ r.name) ++
      if 5 < rowsAnd.length then wideText "\n\t..." else []

namespace FileManSubDlg

variable (d : FileManSubDlg) (wide : WideChars) (messageBox : WStr → Bool)

/-- The side of an engine: `remote` is `loop == remote_`. -/
def dlg (remote : Bool) : FmFileDlg := if remote then d.dlgRemote_ else d.dlgLocal_

/-- The selected rows with the name of a row of the other side, once for each such row. -/
def rowsAnd (isDownload : Bool) : List Row :=
  (d.dlg !isDownload).rows_.flatMap fun rowTo =>
    (d.dlg isDownload).selected.filter fun rowFrom => opStrCmpNoCase rowFrom.name rowTo.name = 0

/-- The task of a row. -/
def transferBody (isDownload isMove : Bool) (localPath peerPath : Bytes) (row : Row) : FmTask.Body :=
  match row.file with
  | none =>
    if isDownload then .getSubList true ⟨peerPath, .ActionDownUp, localPath, isMove⟩
    else .getSubList false ⟨localPath, .ActionDownUp, peerPath, isMove⟩
  | some (size, lastWriteTime) =>
    if isDownload then .download ⟨localPath, peerPath, -1, size, lastWriteTime, isMove⟩
    else .upload ⟨localPath, peerPath, -1, size, lastWriteTime, isMove⟩

/-- One turn of the loop over the rows, which goes down to the row in either path and up again. -/
def transferRow (isDownload isMove : Bool) : FmScheduler × EuhatPath × EuhatPath → Row →
    FmScheduler × EuhatPath × EuhatPath
  | (scheduler, euLocal, euPeer), row =>
    let fileName := wide.wstrToUtf8 row.name
    let euLocal := euLocal.goSub fileName
    let euPeer := euPeer.goSub fileName
    (scheduler.add (transferBody isDownload isMove euLocal.toStr euPeer.toStr row), euLocal.goUp, euPeer.goUp)

/-- `transfer`; `messageBox` tells whether the user answers a question with OK. -/
def transfer (isDownload isMove : Bool) : FileManSubDlg :=
  let d := { d with scheduler_ := d.scheduler_.cleanError }
  let euLocal := d.dlgLocal_.curDir_
  let euPeer := d.dlgRemote_.curDir_
  if !euLocal.isUnix_ && euLocal.path_.isEmpty then d
  else if !euPeer.isUnix_ && euPeer.path_.isEmpty then d
  else
    let rowsAnd := d.rowsAnd isDownload
    if !rowsAnd.isEmpty && !messageBox (overwriteText rowsAnd) then d
    else
      let (scheduler, euLocal, euPeer) :=
        (d.dlg isDownload).selected.foldl (transferRow wide isDownload isMove) (d.scheduler_, euLocal, euPeer)
      let path := if isDownload then euLocal.toStr else euPeer.toStr
      let scheduler := scheduler.addRefreshTask (!isDownload) ⟨path, .ActionInformUi, [], false⟩
      { d with scheduler_ := scheduler.fmscOnRefresh, notified := d.notified + 1 }

end FileManSubDlg

/-! ## What a side shows -/

/-- The entry of a row, by its name. -/
def Row.node (wide : WideChars) (row : Row) : Node := [wide.wstrToUtf8 row.name]

def Row.unselected (row : Row) : Row := { row with isSelected_ := false }

/-- A side shows a folder: what the system lists of it was displayed, and since then rows were selected and sorted. -/
structure FmFileDlg.Shows (wide : WideChars) (os : Os X) (x : X) (P : Place) (d : FmFileDlg) : Prop where
  displayed : ∃ (bytes : Bytes) (before shown : FmFileDlg), os.whGetSubFiles (P.path []) x = some bytes ∧
    before.curDir_.isUnix_ = (P.remote && P.isUnix_) ∧ before.displayFiles wide bytes = .ok shown ∧
      d.curDir_ = shown.curDir_ ∧ (d.rows_.map Row.unselected).Perm shown.rows_

/-- Whether the row of a name is selected. -/
def FmFileDlg.isSelected (wide : WideChars) (d : FmFileDlg) (name : Bytes) : Bool :=
  d.selected.any fun row => wide.wstrToUtf8 row.name = name

namespace FmFileDlg

variable {wide : WideChars} {os : Os X} {x : X} {T : FolderTree} {P : Place} {content : Node → Bytes} {d : FmFileDlg}
  {c : Node} {name : Bytes}

/-- The names of what is in the folder are texts. -/
def Wide (wide : WideChars) (T : FolderTree) : Prop :=
  ∀ name, [name] ∈ T.nodes → wide.wstrToUtf8 (wide.utf8ToWstr name) = name

theorem node_row (hwide : Wide wide T) (hc : c ∈ T.children []) : ((T.entry c).row wide).node wide = c := by
  obtain ⟨hmem, name, rfl⟩ := NameTree.mem_children.mp hc
  rw [FolderTree.entry]
  split_ifs
  · exact congrArg (fun name => [name]) (hwide name hmem)
  · exact congrArg (fun name => [name]) (hwide name hmem)

variable (hshows : d.Shows wide os x P) (hreads : ReadsTree os T P content x)

include hshows hreads

/-- What was displayed is the listing of the folder. -/
theorem Shows.listing : ∃ cs : List Node, cs.Nodup ∧ (∀ c, c ∈ cs ↔ c ∈ T.children []) ∧
    d.curDir_ = { EuhatPath.inStr (P.path []) with isUnix_ := P.remote && P.isUnix_ } ∧
      (d.rows_.map Row.unselected).Perm (cs.map fun c => (T.entry c).row wide) := by
  obtain ⟨bytes, before, shown, hbytes, hunix, hdisplay, hdir, hperm⟩ := hshows.displayed
  obtain ⟨bytes', cs, hbytes', hread, hnodup, hcs⟩ := hreads.listed [] T.root_mem T.root_isFolder
  obtain rfl := Option.some.inj (hbytes.symm.trans hbytes')
  rw [displayFiles, hread] at hdisplay
  obtain rfl := Except.ok.inj hdisplay
  refine ⟨cs, hnodup, hcs, by rw [hdir, ← hunix], hperm.trans ((List.mergeSort_perm _ _).trans ?_)⟩
  rw [List.map_map]
  rfl

/-- The paths of the entries are as the side prints them. -/
theorem Shows.toStr_goSub (name : Bytes) : (d.curDir_.goSub name).toStr = P.path [name] := by
  obtain ⟨-, -, -, hdir, -⟩ := hshows.listing hreads
  rw [hdir]
  exact Place.combinePath_path (n := []) nofun name

theorem Shows.isEmpty_path : d.curDir_.path_.isEmpty = false := by
  obtain ⟨-, -, -, hdir, -⟩ := hshows.listing hreads
  rw [hdir]
  change (EuhatPath.inStr (P.path [])).path_.isEmpty = false
  rw [Place.path_inStr_path (n := []) nofun]
  exact List.isEmpty_eq_false_iff.mpr (List.append_ne_nil_of_left_ne_nil P.ne_nil _)

variable (hwide : Wide wide T)

include hwide

theorem Shows.perm_nodes : ∃ cs : List Node, cs.Nodup ∧ (∀ c, c ∈ cs ↔ c ∈ T.children []) ∧
    (d.rows_.map (Row.node wide)).Perm cs := by
  obtain ⟨cs, hnodup, hcs, -, hperm⟩ := hshows.listing hreads
  refine ⟨cs, hnodup, hcs, ?_⟩
  have hnodes := hperm.map (Row.node wide)
  rw [List.map_map, List.map_map] at hnodes
  refine hnodes.trans (List.Perm.of_eq ?_)
  exact (List.map_congr_left fun c hc => node_row hwide ((hcs c).mp hc)).trans (List.map_id _)

/-- A row is that of its entry. -/
theorem Shows.row_eq {row : Row} (hrow : row ∈ d.rows_) :
    row.node wide ∈ T.children [] ∧ row.unselected = (T.entry (row.node wide)).row wide := by
  obtain ⟨cs, -, hcs, -, hperm⟩ := hshows.listing hreads
  obtain ⟨c, hc, heq⟩ := List.mem_map.mp (hperm.mem_iff.mp (List.mem_map_of_mem hrow))
  have hnode : row.node wide = c := by
    rw [← node_row hwide ((hcs c).mp hc), heq]
    rfl
  exact ⟨hnode ▸ (hcs c).mp hc, by rw [hnode, heq]⟩

theorem Shows.nodup_selected : (d.selected.map (Row.node wide)).Nodup := by
  obtain ⟨cs, hnodup, -, hperm⟩ := hshows.perm_nodes hreads hwide
  exact (hperm.nodup_iff.mpr hnodup).sublist (List.filter_sublist.map _)

/-- **What is selected is what is in the folder under the selected names.** -/
theorem Shows.mem_selected : c ∈ d.selected.map (Row.node wide) ↔ c ∈ (T.only (d.isSelected wide)).children [] := by
  rw [List.mem_map, NameTree.mem_children]
  constructor
  · rintro ⟨row, hrow, rfl⟩
    have hmem := (NameTree.mem_children.mp (hshows.row_eq hreads hwide (List.mem_of_mem_filter hrow)).1).1
    refine ⟨NameTree.mem_only.mpr ⟨hmem, ?_⟩, _, rfl⟩
    exact List.any_eq_true.mpr ⟨row, hrow, decide_eq_true rfl⟩
  · rintro ⟨hc, name, rfl⟩
    obtain ⟨row, hrow, hname⟩ := List.any_eq_true.mp (NameTree.mem_only.mp hc).2
    exact ⟨row, hrow, congrArg (fun name => [name]) (of_decide_eq_true hname)⟩

end FmFileDlg

/-! ## The refresh task -/

theorem FmScheduler.fmscOnRefresh_addRefreshTask {s : FmScheduler} (h : s.tasks_ ≠ []) (isPeer : Bool)
    (t : FmTaskGetSubList) : (s.addRefreshTask isPeer t).fmscOnRefresh = s.addRefreshTask isPeer t := dif_neg h

theorem FmScheduler.tasks_fmscOnRefresh {s : FmScheduler} (h : s.tasks_ = []) :
    s.fmscOnRefresh.tasks_ = s.refreshSubListTask_.toList := by
  rw [fmscOnRefresh, dif_pos h]

namespace Sides

open TraceM FmScheduler

variable {S : Setup X} {s s' : Sides X} {q q' : FmScheduler} {x x' : X}

theorem refresh_addAll (bodies : List FmTask.Body) :
    (bodies.foldl FmScheduler.add q).refreshSubListTask_ = q.refreshSubListTask_ := by
  induction bodies generalizing q with
  | nil => rfl
  | cons body bodies ih => exact ih

theorem refresh_dispatch (loop : FmLoop) (task : FmTask) (bytes : Bytes) (q : FmScheduler) :
    (dispatchSubListBytes loop task bytes q).refreshSubListTask_ = q.refreshSubListTask_ := by
  rw [dispatchSubListBytes]
  split
  · rw [dispatchSubList]
    split_ifs
    · rfl
    · exact refresh_addAll _
  · rfl

theorem refresh_settle {α : Type} (cast : FmTask → Option α) (a : NodeAck) :
    (q.settle cast a).refreshSubListTask_ = q.refreshSubListTask_ := by
  rw [settle]
  split
  · rfl
  · split_ifs
    · rfl
    · rfl

/-- An answer leaves the refresh task aside. -/
theorem refresh_ack {os : Os X} {loop : FmLoop} {a : FmAck}
    (hends : Ends (FileManClient.ack os (dispatchSubListBytes loop) a q) x q' x') :
    q'.refreshSubListTask_ = q.refreshSubListTask_ := by
  cases a with
  | down a =>
    change Ends (FmcDownFile.ack os a q) x q' x' at hends
    rw [FmcDownFile.ack] at hends
    split at hends
    · obtain ⟨rfl, -⟩ := ends_pure hends
      rfl
    · obtain ⟨⟨offset, result⟩, x₁, -, hends⟩ := hends.bind
      dsimp only at hends
      split_ifs at hends
      · obtain ⟨_, _, _, hends⟩ := hends.bind
        obtain ⟨rfl, -⟩ := ends_pure hends
        rfl
      · obtain ⟨rfl, -⟩ := ends_pure hends
        rfl
      · obtain ⟨rfl, -⟩ := ends_pure hends
        rfl
  | up a =>
    obtain ⟨rfl, -⟩ := ends_pure hends
    rw [FmcUpFile.ack]
    split
    · rfl
    · dsimp only
      split_ifs
      all_goals rfl
  | list a =>
    obtain ⟨rfl, -⟩ := ends_pure hends
    rw [FmcPeerFileList.ack]
    split
    · rfl
    · split_ifs
      · exact refresh_dispatch _ _ _ _
      · rfl
  | del a =>
    obtain ⟨rfl, -⟩ := ends_pure hends
    exact refresh_settle _ a
  | new a =>
    obtain ⟨rfl, -⟩ := ends_pure hends
    exact refresh_settle _ a

theorem refresh_local {os : Os X} {loop : FmLoop}
    (hends : Ends (FmLocal.onUserLoop os (dispatchSubListBytes loop) q) x q' x') :
    q'.refreshSubListTask_ = q.refreshSubListTask_ := by
  rw [FmLocal.onUserLoop] at hends
  split at hends
  · obtain ⟨rfl, -⟩ := ends_pure hends
    rfl
  · split at hends
    · rename_i t hbody
      obtain ⟨rfl, -⟩ := (FmLocal.onGetSubList_yields t).eq_of_ends hends
      split
      · rfl
      · exact refresh_dispatch _ _ _ _
    · rename_i t hbody
      obtain ⟨rfl, -⟩ := (FmLocal.onDelFile_yields t).eq_of_ends hends
      split_ifs
      · rfl
      · rfl
    · rename_i t hbody
      obtain ⟨rfl, -⟩ := (FmLocal.onNewFile_yields t).eq_of_ends hends
      split_ifs
      · rfl
      · rfl
    · obtain ⟨rfl, -⟩ := ends_pure hends
      rfl

/-- **No engine touches the refresh task.** -/
theorem refresh_of_works (hworks : Works S s s') :
    s'.scheduler_.refreshSubListTask_ = s.scheduler_.refreshSubListTask_ := by
  cases hworks with
  | userLoop hcan hfirst hexec =>
    have hreq := ends_of_exec hexec
    rw [FileManClient.reqFirst] at hreq
    split at hreq
    · obtain ⟨rfl, -⟩ := Prod.mk.inj (ends_pure hreq).1
      rfl
    · obtain ⟨⟨task', r''⟩, x₂, -, hends⟩ := hreq.bind
      obtain ⟨rfl, -⟩ := Prod.mk.inj (ends_pure hends).1
      rfl
  | serve hreq hexec => rfl
  | read hacks hexec => exact refresh_ack (ends_of_exec hexec)
  | localLoop hfirst hexec => exact refresh_local (ends_of_exec hexec)

theorem refresh_of_run {s₀ : Sides X} {es : List (List FmTask)} (hrun : Run (Sides.Step S) s₀ es s) :
    s.scheduler_.refreshSubListTask_ = s₀.scheduler_.refreshSubListTask_ := by
  obtain ⟨es', hrun', -, -⟩ := works_of_run hrun
  refine hrun'.invariant (I := fun s => s.scheduler_.refreshSubListTask_ = s₀.scheduler_.refreshSubListTask_) rfl ?_
  exact fun s e s' hs hstep => (refresh_of_works hstep.1).trans hs

end Sides

/-! ## The transfer -/

namespace FileManSubDlg

variable {wide : WideChars} {messageBox : WStr → Bool} {d : FileManSubDlg} {E : Errand} {dst : Place}
  {S : Sides.Setup X} {content f₀ : Node → Bytes} {holds : X → (Node → Bytes) → Prop} {disks : Bool → X}
  {scheduler : FmScheduler} {euLocal euPeer : EuhatPath} {isDownload isMove : Bool}

/-- The loop adds a task for every row, and leaves the paths as they were. -/
theorem foldl_transferRow (rows : List Row) :
    rows.foldl (transferRow wide isDownload isMove) (scheduler, euLocal, euPeer)
      = ((rows.map fun row => transferBody isDownload isMove (euLocal.goSub (wide.wstrToUtf8 row.name)).toStr
          (euPeer.goSub (wide.wstrToUtf8 row.name)).toStr row).foldl FmScheduler.add scheduler, euLocal, euPeer) := by
  induction rows generalizing scheduler with
  | nil => rfl
  | cons row rows ih =>
    rw [List.foldl_cons, transferRow, EuhatPath.goUp_goSub, EuhatPath.goUp_goSub, ih]
    rfl

/-- **The task of a row is what the listing of the folder would have made of its entry.** -/
theorem transferBody_eq (hpurpose : E.purpose = .downUp dst isMove) {row : Row} {name : Bytes}
    (hrow : row.unselected = (E.tree.entry [name]).row wide) {localPath peerPath : Bytes}
    (hsrc : (if E.src.remote then peerPath else localPath) = E.src.path [name])
    (hdst : (if E.src.remote then localPath else peerPath) = dst.path [name]) :
    transferBody E.src.remote isMove localPath peerPath row = E.body (E.enter [name]) := by
  have hfile : row.file = ((E.tree.entry [name]).row wide).file := by
    rw [← hrow]
    rfl
  rw [transferBody, hfile, FolderTree.entry, Errand.enter]
  cases hfolder : E.tree.isFolder [name] with
  | true =>
    cases hremote : E.src.remote with
    | true =>
      rw [hremote, if_pos rfl] at hsrc hdst
      simp [SubEntry.row, Errand.body, Errand.listing, Errand.action_, Errand.peerPath_, Errand.isMove_, hpurpose,
        hremote, hsrc, hdst]
    | false =>
      rw [hremote, if_neg Bool.false_ne_true] at hsrc hdst
      simp [SubEntry.row, Errand.body, Errand.listing, Errand.action_, Errand.peerPath_, Errand.isMove_, hpurpose,
        hremote, hsrc, hdst]
  | false =>
    cases hremote : E.src.remote with
    | true =>
      rw [hremote, if_pos rfl] at hsrc hdst
      simp [SubEntry.row, Errand.body, Errand.fileBody, hpurpose, hremote, hsrc, hdst]
    | false =>
      rw [hremote, if_neg Bool.false_ne_true] at hsrc hdst
      simp [SubEntry.row, Errand.body, Errand.fileBody, hpurpose, hremote, hsrc, hdst]

/-- The tasks of the selected rows, as either side prints the paths. -/
def bodies (wide : WideChars) (d : FileManSubDlg) (isDownload isMove : Bool) : List FmTask.Body :=
  (d.dlg isDownload).selected.map fun row =>
    transferBody isDownload isMove (d.dlgLocal_.curDir_.goSub (wide.wstrToUtf8 row.name)).toStr
      (d.dlgRemote_.curDir_.goSub (wide.wstrToUtf8 row.name)).toStr row

/-- What a transfer leaves that nothing stands in the way of. -/
theorem transfer_eq (hlocal : d.dlgLocal_.curDir_.path_.isEmpty = false)
    (hpeer : d.dlgRemote_.curDir_.path_.isEmpty = false)
    (hanswer : d.rowsAnd isDownload = [] ∨ messageBox (overwriteText (d.rowsAnd isDownload)) = true) :
    d.transfer wide messageBox isDownload isMove = { d with
      scheduler_ := (((d.bodies wide isDownload isMove).foldl FmScheduler.add d.scheduler_.cleanError).addRefreshTask
        (!isDownload) ⟨(d.dlg !isDownload).curDir_.toStr, .ActionInformUi, [], false⟩).fmscOnRefresh
      notified := d.notified + 1 } := by
  have hasked : (!(d.rowsAnd isDownload).isEmpty && !messageBox (overwriteText (d.rowsAnd isDownload))) = false := by
    rcases hanswer with hnil | hok
    · rw [hnil]
      rfl
    · rw [hok, Bool.not_true, Bool.and_false]
  rw [transfer]
  dsimp only
  rw [hlocal, hpeer, Bool.and_false, Bool.and_false, if_neg Bool.false_ne_true, if_neg Bool.false_ne_true]
  change (if (!(d.rowsAnd isDownload).isEmpty && !messageBox (overwriteText (d.rowsAnd isDownload))) = true then _
    else _ : FileManSubDlg) = _
  rw [hasked, if_neg Bool.false_ne_true, foldl_transferRow]
  cases isDownload with
  | true => rfl
  | false => rfl

section Transfer

variable (hsel : E.SelectsOn ((d.dlg E.src.remote).isSelected wide) dst S content holds (disks E.src.remote))
  (hwide : FmFileDlg.Wide wide E.tree)
  (hshows : (d.dlg E.src.remote).Shows wide (S.os E.src.remote) (disks E.src.remote) E.src)
  (hdst : (d.dlg !E.src.remote).curDir_ = dst.root)

include hsel hwide hshows hdst

/-- **The selected rows become the tasks of their entries.** -/
theorem bodies_eq : d.bodies wide E.src.remote false
    = (((d.dlg E.src.remote).selected.map (Row.node wide)).map E.enter).map E.body := by
  rw [bodies, List.map_map, List.map_map]
  refine List.map_congr_left fun row hrow => ?_
  have hsrc := hshows.toStr_goSub hsel.reads (wide.wstrToUtf8 row.name)
  have htarget : ((d.dlg !E.src.remote).curDir_.goSub (wide.wstrToUtf8 row.name)).toStr
      = dst.path [wide.wstrToUtf8 row.name] := by
    rw [hdst]
    rfl
  refine transferBody_eq hsel.purpose (hshows.row_eq hsel.reads hwide (List.mem_of_mem_filter hrow)).2 ?_ ?_
  · rw [← hsrc, dlg]
    cases E.src.remote with
    | true => rfl
    | false => rfl
  · rw [← htarget, dlg]
    cases E.src.remote with
    | true => rfl
    | false => rfl

variable (hsome : (d.dlg E.src.remote).selected ≠ []) (hidle : d.scheduler_.cleanError.tasks_ = [])
  (hanswer : d.rowsAnd E.src.remote = [] ∨ messageBox (overwriteText (d.rowsAnd E.src.remote)) = true)

include hsome hidle hanswer

/-- The queue then holds the tasks of the entries, the refresh task waits, and the engines were told. -/
theorem tasks_transfer :
    (d.transfer wide messageBox E.src.remote false).scheduler_.tasks_.Perm
        (FmScheduler.drawFrom d.scheduler_.cleanError.idxBase_
          ((((d.dlg E.src.remote).selected.map (Row.node wide)).map E.enter).map E.body)) ∧
      (d.transfer wide messageBox E.src.remote false).scheduler_.refreshSubListTask_.map FmTask.body
        = some (.getSubList (!E.src.remote) ⟨dst.path [], .ActionInformUi, [], false⟩) ∧
      (d.transfer wide messageBox E.src.remote false).notified = d.notified + 1 := by
  have hsrc := hshows.isEmpty_path hsel.reads
  have htarget : (d.dlg !E.src.remote).curDir_.path_.isEmpty = false := by
    rw [hdst]
    exact List.isEmpty_eq_false_iff.mpr dst.ne_nil
  have hdirs : d.dlgLocal_.curDir_.path_.isEmpty = false ∧ d.dlgRemote_.curDir_.path_.isEmpty = false := by
    rw [dlg] at hsrc htarget
    cases hremote : E.src.remote with
    | true =>
      rw [hremote] at hsrc htarget
      exact ⟨htarget, hsrc⟩
    | false =>
      rw [hremote] at hsrc htarget
      exact ⟨hsrc, htarget⟩
  have hroot : dst.root.toStr = dst.path [] := by
    rw [Place.path, Place.goSubs, List.reverse_nil, List.append_nil]
  have hperm := FmScheduler.foldl_add_perm d.scheduler_.cleanError (d.bodies wide E.src.remote false)
  rw [hidle, List.append_nil, bodies_eq hsel hwide hshows hdst] at hperm
  have hne : ((d.bodies wide E.src.remote false).foldl FmScheduler.add d.scheduler_.cleanError).tasks_ ≠ [] := by
    rw [bodies_eq hsel hwide hshows hdst]
    intro hnil
    rw [hnil] at hperm
    have hlen := congrArg List.length (FmScheduler.map_body_drawFrom d.scheduler_.cleanError.idxBase_
      ((((d.dlg E.src.remote).selected.map (Row.node wide)).map E.enter).map E.body))
    rw [List.nil_perm.mp hperm] at hlen
    simp only [List.length_map, List.map_nil, List.length_nil] at hlen
    exact hsome (List.length_eq_zero_iff.mp hlen.symm)
  rw [transfer_eq hdirs.1 hdirs.2 hanswer, FmScheduler.fmscOnRefresh_addRefreshTask hne, hdst, hroot]
  refine ⟨?_, rfl, rfl⟩
  rw [bodies_eq hsel hwide hshows hdst]
  exact hperm

/-- **What is selected is copied to the folder that the other side shows**, whatever the order of the rows and however
the engines take turns once they are told; nothing else is copied, and in the end the dialog lists that folder again. -/
theorem copied_of_transfer (hf₀ : holds (disks !E.src.remote) f₀) :
    (d.transfer wide messageBox E.src.remote false).notified = d.notified + 1 ∧
    E.Selects ((d.dlg E.src.remote).isSelected wide) dst S content holds
        (d.transfer wide messageBox E.src.remote false).scheduler_ disks ∧
      ∀ es s, Run (Sides.Step S) (ready (d.transfer wide messageBox E.src.remote false).scheduler_ disks) es s →
        s.tasks_ = [] → s.scheduler_.fmscOnRefresh.tasks_.map FmTask.body
          = [.getSubList (!E.src.remote) ⟨dst.path [], .ActionInformUi, [], false⟩] := by
  obtain ⟨hperm, hrefresh, htold⟩ := tasks_transfer hsel hwide hshows hdst hsome hidle hanswer
  refine ⟨htold, Errand.selects hsel (hshows.nodup_selected hsel.reads hwide)
    (fun c => hshows.mem_selected hsel.reads hwide) hperm hf₀, fun es s hrun hnil => ?_⟩
  rw [FmScheduler.tasks_fmscOnRefresh hnil, refresh_of_run hrun]
  change (d.transfer wide messageBox E.src.remote false).scheduler_.refreshSubListTask_.toList.map FmTask.body = _
  rw [← Option.toList_map, hrefresh]
  rfl

end Transfer

/-! ## A file that is selected -/

open Errand

/-- What the system makes of names in ASCII. -/
def ascii : WideChars := ⟨fun str => str.map UInt8.toUInt16, fun str => str.map UInt16.toUInt8⟩

/-- The server's folder with its file selected, and a local folder that is empty. -/
def oneSelected : FileManSubDlg := ⟨.new, 0, ⟨localFolder.root, []⟩, ⟨(folderDown 0).root, [⟨[102], some (1, 0), true⟩]⟩⟩

theorem selectsOn_downloading (keep : Bytes → Bool) : downloading.SelectsOn keep localFolder downloadingSetup
    (fun n => Disk.contentOf (oneFileDisk n)) (TreeDisk.Holds Errand.oneFile) (downloadingDisks true) := by
  have hC := copiesOn_downloading
  have honly : ∀ n ∈ (Errand.oneFile.only keep).nodes, n ∈ Errand.oneFile.nodes := fun n hn =>
    (NameTree.mem_only.mp hn).1
  have hroot := isCStr_path_oneFile (Nat.zero_le 1000) Errand.oneFile.root_mem
  refine ⟨rfl, hC.fits, nofun, hC.reads, ⟨?_, ?_, ?_, ?_, ?_, ?_⟩, hroot, fun c hc =>
    listable_oneFile (honly c (NameTree.mem_children.mp hc).1)⟩
  · exact fun x f n hx hn => hC.takes.made x f n hx (honly n hn)
  · exact fun x f n hx hn => hC.takes.room x f n hx (honly n hn)
  · exact fun x f n hx hn => hC.takes.begun x f n hx (honly n hn)
  · exact fun x f n hx hn => hC.takes.opened x f n hx (honly n hn)
  · exact fun x f n hx hn => hC.takes.written x f n hx (honly n hn)
  · exact fun x f n hx hn => hC.takes.stamped x f n hx (honly n hn)

theorem shows_oneSelected : oneSelected.dlgRemote_.Shows ascii (downloadingSetup.os true) (downloadingDisks true)
    (folderDown 0) := by
  obtain ⟨bytes, cs, hbytes, hread, hnodup, hcs⟩ :=
    copiesOn_downloading.reads.listed [] Errand.oneFile.root_mem Errand.oneFile.root_isFolder
  have hchild : ∀ c, c ∈ cs ↔ c = [[102]] := by
    intro c
    rw [hcs]
    change c ∈ Errand.oneFile.children [] ↔ _
    rw [NameTree.mem_children, mem_oneFile]
    exact ⟨fun ⟨h, a, ha⟩ => h.resolve_left (ha ▸ List.cons_ne_nil _ _), fun h => ⟨.inr h, _, h⟩⟩
  have hone : cs = [[[102]]] := by
    refine List.perm_singleton.mp ((List.perm_ext_iff_of_nodup hnodup (List.nodup_singleton _)).mpr fun c => ?_)
    rw [hchild, List.mem_singleton]
  subst hone
  refine ⟨bytes, oneSelected.dlgRemote_, ⟨(folderDown 0).root, [⟨[102], some (1, 0), false⟩]⟩, hbytes, rfl, ?_, rfl,
    List.Perm.refl _⟩
  rw [FmFileDlg.displayFiles, hread]
  exact congrArg (fun rows => Except.ok (FmFileDlg.mk (folderDown 0).root rows)) (List.mergeSort_singleton _)

/-- **The file of the server is downloaded.** -/
theorem copied_of_transfer_here :
    (oneSelected.transfer ascii (fun _ => false) true false).notified = 1 ∧
    downloading.Selects (oneSelected.dlgRemote_.isSelected ascii) localFolder downloadingSetup
        (fun n => Disk.contentOf (oneFileDisk n)) (TreeDisk.Holds Errand.oneFile)
        (oneSelected.transfer ascii (fun _ => false) true false).scheduler_ downloadingDisks ∧
      ∀ es s, Run (Sides.Step downloadingSetup)
          (ready (oneSelected.transfer ascii (fun _ => false) true false).scheduler_ downloadingDisks) es s →
        s.tasks_ = [] → s.scheduler_.fmscOnRefresh.tasks_.map FmTask.body
          = [.getSubList false ⟨localFolder.path [], .ActionInformUi, [], false⟩] := by
  have hempty : TreeDisk.Holds Errand.oneFile (downloadingDisks false) fun _ => [] := fun _ _ _ => ⟨nofun, rfl⟩
  have hwide : FmFileDlg.Wide ascii Errand.oneFile := by
    intro name hname
    obtain h | h := mem_oneFile.mp hname
    · cases h
    · obtain rfl := (List.cons.inj h).1
      decide
  exact copied_of_transfer (E := downloading) (d := oneSelected) (selectsOn_downloading _) hwide shows_oneSelected rfl
    (by decide) rfl (.inl rfl) hempty

end FileManSubDlg

end EuhatExpert
