import EuhatExpert.FileMan.PathParts
import EuhatExpert.Machinery.Walk

/-!
# FileMan/ShareGuard — is a path that starts with the shared directory in it

The handlers compare bytes: the corrected path of a request is to start with `baseDir_`.  Of its names that
says no more than that all of the directory's but the last are there, and how the next one begins
(`passes_iff`).  Where it goes on with other letters the path is in a neighbour of the directory, and `..`
behind it may lead out again; `guardsShare_iff` tells when neither does any harm.
-/

namespace EuhatExpert

open Machinery

/-- Where a part of a path leads. -/
def moveOf (part : Bytes) : Move :=
  if part = [46] then .stay else if part = [46, 46] then .up else .down

/-- The parts of an absolute path without `.` and `..`, which are followed. -/
def resolved (path : Bytes) : List Bytes := walk moveOf [] (unixParts path)

/-- A shared directory, by its parts from the root. -/
structure Share where
  parts : List Bytes
  isName : ∀ part ∈ parts, part ≠ [] ∧ slash ∉ part
  leadsDown : ∀ part ∈ parts, moveOf part = .down

def Share.baseDir_ (share : Share) : Bytes := slash :: [slash].intercalate share.parts

/-- A path that passes the test of the handlers is in the shared directory. -/
def GuardsShare (share : Share) (path : Bytes) : Prop :=
  strIsStartWith (whCorrectFilePath true path) share.baseDir_ = true →
    share.parts <+: resolved (whCorrectFilePath true path)

/-- The names of a request, between slashes and backslashes. -/
def namesOf (path : Bytes) : List Bytes := unixParts (strReplaceChar path backslash slash)

/-- The request is absolute and follows `above`, and its next name begins with `last`. -/
structure Reaches (path : Bytes) (above : List Bytes) (last name : Bytes) (rest : List Bytes) : Prop where
  absolute : (EuhatPath.inStr path).isAbsPath_ = true
  names : namesOf path = above ++ name :: rest
  begins : last <+: name

/-- Names that lead from a folder beside the one `last` names back to that, and then not out of it. -/
def LeadsBack (above : List Bytes) (last name : Bytes) (rest : List Bytes) : Prop :=
  ∃ front back, rest = front ++ back ∧ walk moveOf (above ++ [name]) front = above ++ [last] ∧ Below moveOf back

variable {share : Share} {path last name : Bytes} {above rest : List Bytes}

theorem isPart_namesOf {part : Bytes} (h : part ∈ namesOf path) : IsPart part :=
  EuhatPath.isPart_of_mem_inStr h

/-- A name that goes on from one that is no dots is none. -/
theorem moveOf_of_prefix (hne : last ≠ []) (hdown : moveOf last = .down) (h : last <+: name) :
    moveOf name = .down := by
  have hdots : ∀ dots : Bytes, (∀ front ∈ dots.inits, front = [] ∨ moveOf front ≠ .down) → name ≠ dots := by
    rintro dots hfronts rfl
    exact (hfronts last ((List.mem_inits _ _).mpr h)).elim hne fun hlast => hlast hdown
  rw [moveOf, if_neg (hdots [46] (by decide)), if_neg (hdots [46, 46] (by decide))]

/-- **What the test of the handlers says of the names.** -/
theorem passes_iff (hshare : share.parts = above ++ [last]) :
    strIsStartWith (whCorrectFilePath true path) share.baseDir_ = true ↔
      ∃ name rest, Reaches path above last name rest := by
  have hname : ∀ part ∈ above ++ [last], part ≠ [] ∧ slash ∉ part := hshare ▸ share.isName
  obtain ⟨hne, hlast⟩ := hname last (List.mem_append_right _ List.mem_cons_self)
  have hfront := intercalate_concat_prefix_iff (fun part hpart => (hname part (List.mem_append_left _ hpart)).2) hlast
    hne fun part (hpart : part ∈ namesOf path) => (isPart_namesOf hpart).noSlash
  rw [strIsStartWith, List.isPrefixOf_iff_prefix, Share.baseDir_, hshare, whCorrectFilePath_eq]
  split_ifs with habs
  · rw [List.singleton_append, List.cons_prefix_cons]
    refine (and_iff_right rfl).trans (hfront.trans ?_)
    exact ⟨fun ⟨name, rest, hnames, hbegins⟩ => ⟨name, rest, habs, hnames, hbegins⟩,
      fun ⟨name, rest, _, hnames, hbegins⟩ => ⟨name, rest, hnames, hbegins⟩⟩
  · refine iff_of_false (fun h => ?_) fun ⟨_, _, h⟩ => habs h.absolute
    rw [List.nil_append] at h
    have hhead : ([slash].intercalate (EuhatPath.inStr path).path_).head? = some slash := by
      obtain ⟨t, ht⟩ := h
      rw [← ht]
      rfl
    exact EuhatPath.head_intercalate (p := EuhatPath.inStr path) (fun part => EuhatPath.isPart_of_mem_inStr) hhead

/-- Names that follow the folders above lead into the directory as `LeadsBack` says. -/
theorem prefix_walk_names_iff (hshare : share.parts = above ++ [last]) (h : Reaches path above last name rest) :
    share.parts <+: walk moveOf [] (namesOf path) ↔ LeadsBack above last name rest := by
  have hlast : last ∈ share.parts := hshare ▸ List.mem_append_right _ List.mem_cons_self
  have hlen : (above ++ [name]).length ≤ share.parts.length := by
    rw [hshare, List.length_append, List.length_append]
    rfl
  have hdown : ∀ n ∈ above ++ [name], moveOf n = .down := by
    intro n hn
    rcases List.mem_append.mp hn with hn | hn
    · exact share.leadsDown n (hshare ▸ List.mem_append_left _ hn)
    · obtain rfl := List.mem_singleton.mp hn
      exact moveOf_of_prefix (share.isName last hlast).1 (share.leadsDown last hlast) h.begins
  have hnames : namesOf path = (above ++ [name]) ++ rest := by
    rw [h.names, List.append_assoc, List.singleton_append]
  rw [hnames, walk_append, walk_of_down hdown, List.nil_append, prefix_walk_iff hlen, hshare, LeadsBack]

/-- **The test is sound for a path exactly if its names lead back from the neighbour they name** — where they
have no dots, if they name the directory itself. -/
theorem guardsShare_iff (share : Share) (path : Bytes) :
    (GuardsShare share path ↔ ∀ above last name rest, share.parts = above ++ [last] →
      Reaches path above last name rest → LeadsBack above last name rest) ∧
    ((∀ part ∈ namesOf path, moveOf part = .down) →
      (GuardsShare share path ↔ ∀ above last name rest, share.parts = above ++ [last] →
        Reaches path above last name rest → name = last)) := by
  have hguards : GuardsShare share path ↔ ∀ above last name rest, share.parts = above ++ [last] →
      Reaches path above last name rest → LeadsBack above last name rest := by
    rw [GuardsShare, resolved, unixParts_whCorrectFilePath, ← namesOf]
    refine ⟨fun h above last name rest hshare hreaches => ?_, fun h hpasses => ?_⟩
    · exact (prefix_walk_names_iff hshare hreaches).mp (h ((passes_iff hshare).mpr ⟨name, rest, hreaches⟩))
    · rcases List.eq_nil_or_concat share.parts with hroot | ⟨above, last, hshare⟩
      · rw [hroot]
        exact List.nil_prefix
      · rw [List.concat_eq_append] at hshare
        obtain ⟨name, rest, hreaches⟩ := (passes_iff hshare).mp hpasses
        exact (prefix_walk_names_iff hshare hreaches).mpr (h above last name rest hshare hreaches)
  refine ⟨hguards, fun hdown => hguards.trans ?_⟩
  refine forall₄_congr fun above last name rest => forall₂_congr fun hshare hreaches => ?_
  rw [← prefix_walk_names_iff hshare hreaches, walk_of_down hdown, List.nil_append, hshare, hreaches.names,
    List.prefix_append_right_inj, List.cons_prefix_cons, and_iff_left List.nil_prefix, eq_comm]

/-- The shared directory `/a`. -/
def shareA : Share := ⟨[[97]], by decide, by decide⟩

/-- **The neighbour `/ab` and `/a/../b` pass for something in `/a`.** -/
theorem not_guardsShare_shareA :
    ¬ GuardsShare shareA [47, 97, 98] ∧ ¬ GuardsShare shareA [47, 97, 47, 46, 46, 47, 98] := by
  refine ⟨fun h => ?_, fun h => ?_⟩
  · exact absurd (h (by decide +kernel)) (by decide +kernel)
  · exact absurd (h (by decide +kernel)) (by decide +kernel)

end EuhatExpert
