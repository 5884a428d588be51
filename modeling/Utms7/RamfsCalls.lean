import Mathlib.Data.List.Pairwise
import Mathlib.Data.List.TakeWhile
import Utms7.RamfsTree
import Utms7.Runs

/-!
# ramfs is a tree

What each call of `Ramfs` can do, in terms of the small changes of `RamfsTree`, and
what follows for runs of calls.

The links are never harmed, but the names are.  A path that ends in a slash has an
empty last component, and the node that is made for it has an empty name; and the name
of a file that `vfs_open` makes may be too long for the buffer it is copied to.
-/

namespace Utms7.Vfs

open Function List

variable {N : Type*} {name link path : Text} {c : N}

/-! ## Paths and their last components -/

theorem slash_not_mem_lastComponent : slash ∉ lastComponent path := by
  intro h
  have hall := mem_takeWhile_imp (mem_reverse.mp h)
  exact of_decide_eq_true hall rfl

theorem fit_fit (size : Nat) (s : Text) : fit size (fit size s) = fit size s := by
  rw [fit, fit, take_take, min_self]

theorem fit_makeAbsolutePath (p : Process) (path : Text) :
    fit 1024 (makeAbsolutePath p 1024 path) = makeAbsolutePath p 1024 path := by
  rw [makeAbsolutePath_eq, fit_fit]

theorem strrchr_some {dir : Text} (h : strrchr path = some (dir, name)) :
    name = lastComponent path := by
  unfold strrchr at h
  split at h
  · exact (congrArg Prod.snd (Option.some.inj h)).symm
  · cases h

theorem splitPath_some {dir : Text} (h : splitPath path = some (dir, name)) :
    name = lastComponent (fit 1024 path) ∧ name.length < maxName := by
  unfold splitPath at h
  split at h
  · cases h
  next _ comp hsplit =>
  split at h
  · cases h
  · next hlen =>
    obtain rfl : comp = name := congrArg Prod.snd (Option.some.inj h)
    exact ⟨strrchr_some hsplit, not_le.mp hlen⟩

theorem fit_maxName (h : name.length < maxName) : fit maxName name = name :=
  take_of_length_le (Nat.le_sub_one_of_lt h)

namespace Store

variable {s t : Store N}

theorem Linked.fresh_of_findChild (h : s.Linked) {dir : N}
    (hfind : s.ramfsFindChild dir name = none) (hc : c ∈ s.children dir) :
    s.name c ≠ name := by
  have hkind : s.kind dir = .dir := by
    by_contra hkind
    rw [h.leaf hkind] at hc
    cases hc
  rw [Fs.ramfsFindChild, if_pos hkind] at hfind
  have hnot := find?_eq_none.mp hfind c hc
  exact fun heq => hnot (decide_eq_true heq)

/-- All that the calls keep. -/
structure Sane (s : Store N) : Prop where
  linked : s.Linked
  named : s.Named

/-- Counts and sizes are none of the links. -/
theorem Linked.congr (h : s.Linked) (hfs : t.toFs = s.toFs)
    (hlive : t.live = s.live) : t.Linked := by
  obtain ⟨fs, live, refcount, size, data⟩ := s
  obtain ⟨fs', live', refcount', size', data'⟩ := t
  obtain rfl : fs' = fs := hfs
  obtain rfl : live' = live := hlive
  obtain ⟨hsound, hroot, hlive, hdead, hleaf, hnodup⟩ := h
  exact ⟨hsound, hroot, hlive, hdead, hleaf, hnodup⟩

theorem Sane.congr (h : s.Sane) (hfs : t.toFs = s.toFs) (hlive : t.live = s.live) : t.Sane := by
  refine ⟨h.linked.congr hfs hlive, ?_⟩
  have hnamed := h.named
  obtain ⟨fs, live, refcount, size, data⟩ := s
  obtain ⟨fs', live', refcount', size', data'⟩ := t
  obtain rfl : fs' = fs := hfs
  exact ⟨hnamed.differ, hnamed.proper⟩

section

variable [DecidableEq N] {u : Store N} {child n newDir oldDir : N} {newName : Text}

/-! ## What the calls can do -/

/-- The node that a call finds at a path. -/
def entryAt (s : Store N) (p : Process) (path : Text) : Option N :=
  match splitPath (makeAbsolutePath p 1024 path) with
  | none => none
  | some (dirPath, name) => (s.resolve p dirPath).1.bind fun dir => s.ramfsFindChild dir name

/-- A walk changes nothing and ends at a node of the tree. -/
theorem Linked.resolve_eq (h : s.Linked) (p : Process) (path : Text) :
    ∃ found, s.resolve p path = (found, s) ∧ ∀ n, found = some n → s.live n = true := by
  refine ⟨(s.resolve p path).1, Prod.ext rfl (h.resolve_snd p path), fun n hn => ?_⟩
  obtain ⟨i, m, hi, hreach⟩ := h.resolve_fst hn
  exact h.reached hi hreach

/-- A call on a directory fails early, or is made at a directory of the tree. -/
theorem Linked.inDirectory (h : s.Linked) (p : Process) (path : Text)
    (call : Store N → N → Text → Int × Store N) : s.inDirectory p path call = (-1, s) ∨
      ∃ dir, s.live dir = true ∧ s.kind dir = .dir ∧
        (lastComponent (makeAbsolutePath p 1024 path)).length < maxName ∧ s.entryAt p path =
          s.ramfsFindChild dir (lastComponent (makeAbsolutePath p 1024 path)) ∧
        s.inDirectory p path call = call s dir (lastComponent (makeAbsolutePath p 1024 path)) := by
  unfold Store.inDirectory entryAt
  cases hsplit : splitPath (makeAbsolutePath p 1024 path) with
  | none => exact .inl rfl
  | some parts =>
    obtain ⟨dirPath, name⟩ := parts
    obtain ⟨hname, hlen⟩ := splitPath_some hsplit
    rw [fit_makeAbsolutePath] at hname
    obtain ⟨found, hfound, hlive⟩ := h.resolve_eq p dirPath
    dsimp only
    rw [hfound]
    cases found with
    | none => exact .inl rfl
    | some dir =>
      dsimp only
      split
      · exact .inl rfl
      · next hkind =>
        rw [hname] at hlen ⊢
        exact .inr ⟨dir, hlive dir rfl, not_not.mp hkind, hlen, rfl, rfl⟩

theorem ramfsMake_cases {dir : N} {kind : Kind} (link : Text) (node : Option N) :
    s.ramfsMake dir name kind link node = (-1, s) ∨
      ∃ n, node = some n ∧ s.kind dir = .dir ∧ s.ramfsFindChild dir name = none ∧
        s.ramfsMake dir name kind link node =
          (0, (s.newNode n name kind link).ramfsAddChild dir n) := by
  unfold ramfsMake
  split
  · exact .inl rfl
  next hkind =>
  split
  · exact .inl rfl
  next hfind =>
  cases node with
  | none => exact .inl rfl
  | some n =>
    exact .inr ⟨n, rfl, not_not.mp hkind, Option.not_isSome_iff_eq_none.mp hfind, rfl⟩

/-- The store after a node that has no children was taken out and freed. -/
structure Dropped (s : Store N) (dir child : N) (u : Store N) : Prop where
  empty : s.children child = []
  removed : ∃ t, s.Removed dir child t ∧ u = t.kfree child

theorem Linked.ramfsUnlink_cases [Fintype N] (h : s.Linked) (dir : N) (name : Text) :
    s.ramfsUnlink dir name = (-1, s) ∨
      ∃ child u, s.ramfsFindChild dir name = some child ∧ s.Dropped dir child u ∧
        s.ramfsUnlink dir name = (0, u) := by
  unfold ramfsUnlink
  cases hfind : s.ramfsFindChild dir name with
  | none => exact .inl rfl
  | some child =>
    dsimp only
    split
    · exact .inl rfl
    next hfull =>
    have hempty := h.children_of_not_full (Bool.not_eq_true _ |>.mp hfull)
    cases hremove : s.ramfsRemoveChild dir child with
    | none => exact .inl rfl
    | some t =>
      have hr := h.removeChild hremove
      have htempty : t.children child = [] := sublist_nil.mp (hempty ▸ hr.sublist child)
      refine .inr ⟨child, t.kfree child, rfl, ⟨hempty, t, hr, rfl⟩, ?_⟩
      exact congrArg (Prod.mk 0) (ramfsFreeNode_leaf htempty)

/-- What a rename does first: nothing, or it drops the node that has the new name. -/
inductive Cleared (s : Store N) (dir : N) (name : Text) : Store N → Prop
  | free (hfind : s.ramfsFindChild dir name = none) : Cleared s dir name s
  | dropped {existing : N} {u : Store N} (hfind : s.ramfsFindChild dir name = some existing)
      (hdrop : s.Dropped dir existing u) : Cleared s dir name u

theorem Linked.dropExisting_dropped [Fintype N] (h : s.Linked) {dir : N}
    (hmem : child ∈ s.children dir) (hempty : s.children child = []) :
    s.Dropped dir child (s.dropExisting dir child) := by
  unfold dropExisting
  cases hremove : s.ramfsRemoveChild dir child with
  | none =>
    rw [ramfsRemoveChild, if_pos hmem] at hremove
    cases hremove
  | some t =>
    have hr := h.removeChild hremove
    have htempty : t.children child = [] := sublist_nil.mp (hempty ▸ hr.sublist child)
    exact ⟨hempty, t, hr, ramfsFreeNode_leaf htempty⟩

/-- The store after a node got a new name and place. -/
def moved (t : Store N) (child newDir : N) (newName : Text) : Store N :=
  (t.setName child (fit maxName newName)).ramfsAddChild newDir child

theorem moveChild_cases (oldDir child newDir : N) (newName : Text) :
    s.moveChild oldDir child newDir newName = (-1, s) ∨
      ∃ t, s.ramfsRemoveChild oldDir child = some t ∧
        s.moveChild oldDir child newDir newName = (0, t.moved child newDir newName) := by
  unfold moveChild
  cases s.ramfsRemoveChild oldDir child with
  | none => exact .inl rfl
  | some t => exact .inr ⟨t, rfl, rfl⟩

theorem Linked.ramfsRename_cases [Fintype N] (h : s.Linked) (oldDir : N) (oldName : Text)
    (newDir : N) (newName : Text) : s.ramfsRename oldDir oldName newDir newName = (-1, s) ∨
      ∃ child u, s.ramfsFindChild oldDir oldName = some child ∧ s.Cleared newDir newName u ∧
        s.ramfsRename oldDir oldName newDir newName = u.moveChild oldDir child newDir newName := by
  unfold ramfsRename
  cases s.ramfsFindChild oldDir oldName with
  | none => exact .inl rfl
  | some child =>
    cases hfind : s.ramfsFindChild newDir newName with
    | none => exact .inr ⟨child, s, rfl, .free hfind, rfl⟩
    | some existing =>
      dsimp only
      split
      · exact .inl rfl
      next hfull =>
      have hempty := h.children_of_not_full (Bool.not_eq_true _ |>.mp hfull)
      have hdrop := h.dropExisting_dropped (Fs.ramfsFindChild_some hfind).1 hempty
      exact .inr ⟨child, _, rfl, .dropped hfind hdrop, rfl⟩

/-! ## What they keep of the links -/

theorem newNode_live {n : N} {kind : Kind} :
    (s.newNode n name kind link).live n = true := update_self ..

theorem Linked.newNode_loose (h : s.Linked) (hdead : s.live n = false)
    {kind : Kind} : (s.newNode n name kind link).Loose n where
  apart d := by
    rw [(h.newNode_same hdead name kind link).children]
    exact (h.loose_of_dead hdead).apart d
  noRoot := (h.loose_of_dead hdead).noRoot

theorem Linked.made (h : s.Linked) {dir : N} (hdir : s.live dir = true)
    (hkind : s.kind dir = .dir) (hdead : s.live n = false) (name : Text) (kind : Kind)
    (link : Text) : ((s.newNode n name kind link).ramfsAddChild dir n).Linked := by
  have hne : dir ≠ n := by
    rintro rfl
    cases hdir.symm.trans hdead
  obtain ⟨hkind', -, -, hlive'⟩ := (h.newNode_same hdead name kind link).other dir hne
  exact (h.newNode hdead name kind link).addChild (h.newNode_loose hdead)
    (newNode_live) (hlive'.trans hdir) (hkind'.trans hkind)

theorem Dropped.linked {dir : N} (hd : s.Dropped dir child u) : u.Linked := by
  obtain ⟨hempty, t, hr, rfl⟩ := hd
  exact hr.linked.kfree hr.loose (sublist_nil.mp (hempty ▸ hr.sublist child))

theorem Dropped.named {dir : N} (hd : s.Dropped dir child u) (h : s.Named) : u.Named := by
  obtain ⟨hempty, t, hr, rfl⟩ := hd
  exact (hr.named h).change hr.loose
    (kfree_same (sublist_nil.mp (hempty ▸ hr.sublist child)))

theorem Dropped.kind {dir : N} (hd : s.Dropped dir child u) : u.kind = s.kind := by
  obtain ⟨-, t, hr, rfl⟩ := hd
  exact hr.kind

/-- Nothing else is freed. -/
theorem Dropped.live {dir : N} (hd : s.Dropped dir child u)
    (hn : n ≠ child) : u.live n = s.live n := by
  obtain ⟨-, t, hr, rfl⟩ := hd
  exact (update_of_ne hn ..).trans (congrFun hr.live n)

theorem Dropped.ne {dir : N} (hd : s.Dropped dir child u) : dir ≠ child := by
  obtain ⟨hempty, t, hr, -⟩ := hd
  rintro rfl
  have hmem := hr.mem
  rw [hempty] at hmem
  cases hmem

theorem Cleared.linked {dir : N} (hc : s.Cleared dir name u) (h : s.Linked) : u.Linked := by
  cases hc with
  | free _ => exact h
  | dropped _ hdrop => exact hdrop.linked

theorem Cleared.named {dir : N} (hc : s.Cleared dir name u) (h : s.Named) : u.Named := by
  cases hc with
  | free _ => exact h
  | dropped _ hdrop => exact hdrop.named h

/-- The directory itself is still there. -/
theorem Cleared.dir {dir : N} (hc : s.Cleared dir name u) :
    u.live dir = s.live dir ∧ u.kind = s.kind := by
  cases hc with
  | free _ => exact ⟨rfl, rfl⟩
  | dropped _ hdrop => exact ⟨hdrop.live hdrop.ne, hdrop.kind⟩

theorem Linked.moved (h : s.Linked)
    (ht : s.ramfsRemoveChild oldDir child = some t) (hlive : s.live newDir = true)
    (hkind : s.kind newDir = .dir) (newName : Text) : (t.moved child newDir newName).Linked := by
  have hr := h.removeChild ht
  have hchild : t.live child = true := by
    rw [hr.live]
    exact h.live hr.mem
  refine (hr.linked.setName hr.loose _).addChild ⟨hr.loose.apart, hr.loose.noRoot⟩ hchild ?_ ?_
  · exact (congrFun hr.live newDir).trans hlive
  · exact (congrFun hr.kind newDir).trans hkind

/-! ## What they keep of the names -/

theorem Linked.made_named (h : s.Linked) (hnamed : s.Named) {dir : N}
    (hdead : s.live n = false) (hfind : s.ramfsFindChild dir name = none) (hne : name ≠ [])
    (hslash : slash ∉ name) (hlen : name.length < maxName) {kind : Kind} :
    ((s.newNode n name kind link).ramfsAddChild dir n).Named := by
  have hsame := h.newNode_same hdead name kind link
  have hname : (s.newNode n name kind link).name n = name :=
    (update_self ..).trans (fit_maxName hlen)
  have hloose := h.loose_of_dead hdead
  refine (hnamed.change hloose hsame).addChild ?_
  rw [hname]
  refine ⟨hne, hslash, ?_⟩
  intro c hc
  rw [hsame.children] at hc
  rw [(hsame.other c (hloose.ne hc)).2.1]
  exact h.fresh_of_findChild hfind hc

/-- The new name is free in the directory. -/
theorem Cleared.fresh {dir : N} (hc : s.Cleared dir name u)
    (h : s.Linked) (hnamed : s.Named) (hmem : c ∈ u.children dir) : u.name c ≠ name := by
  cases hc with
  | free hfind => exact h.fresh_of_findChild hfind hmem
  | @dropped existing _ hfind hdrop =>
    obtain ⟨hexisting, hname⟩ := Fs.ramfsFindChild_some hfind
    have hdir := hdrop.ne
    obtain ⟨-, t, hr, rfl⟩ := hdrop
    have hmem' : c ∈ t.children dir := by
      have hsame : (t.kfree existing).children dir = t.children dir :=
        update_of_ne hdir ..
      exact hsame ▸ hmem
    change t.name c ≠ name
    rw [hr.name, ← hname]
    have hsymm : Std.Symm fun a b => s.name a ≠ s.name b := ⟨fun _ _ hab => hab.symm⟩
    refine (hnamed.differ dir).forall ?_ hexisting ?_
    · exact (hr.sublist dir).subset hmem'
    · exact hr.loose.ne hmem'

theorem Linked.moved_named (h : s.Linked) (hnamed : s.Named)
    (ht : s.ramfsRemoveChild oldDir child = some t)
    (hfresh : ∀ c ∈ s.children newDir, s.name c ≠ newName) (hne : newName ≠ [])
    (hslash : slash ∉ newName) (hlen : newName.length < maxName) :
    (t.moved child newDir newName).Named := by
  have hr := h.removeChild ht
  have hname : (t.setName child (fit maxName newName)).name child = newName :=
    (update_self ..).trans (fit_maxName hlen)
  refine ((hr.named hnamed).change hr.loose (setName_same _)).addChild ?_
  rw [hname]
  refine ⟨hne, hslash, ?_⟩
  intro c hc
  have hother : (t.setName child (fit maxName newName)).name c = t.name c :=
    update_of_ne (hr.loose.ne hc) ..
  rw [hother, hr.name]
  exact hfresh c ((hr.sublist newDir).subset hc)

/-! ## The calls -/

/-- The text behind the last slash can be the name of a new node. -/
def Proper (p : Process) (path : Text) : Prop :=
  lastComponent (makeAbsolutePath p 1024 path) ≠ []

instance (p : Process) (path : Text) : Decidable (Proper p path) :=
  inferInstanceAs (Decidable (_ ≠ _))

variable {p : Process} {path : Text} {node : Option N}

section

variable (h : s.Sane)
include h

theorem Sane.inDirectory {call : Store N → N → Text → Int × Store N}
    (hcall : ∀ dir name, s.live dir = true → s.kind dir = .dir →
      name = lastComponent (makeAbsolutePath p 1024 path) → name.length < maxName →
      (call s dir name).2.Sane) : (s.inDirectory p path call).2.Sane := by
  rcases h.linked.inDirectory p path call with hfail | ⟨dir, hlive, hkind, hlen, -, heq⟩
  · rw [hfail]
    exact h
  · rw [heq]
    exact hcall dir _ hlive hkind rfl hlen

theorem Sane.ramfsMake (hnode : ∀ n ∈ node, s.live n = false) {dir : N}
    (hdir : s.live dir = true) (hne : name ≠ []) (hslash : slash ∉ name)
    (hlen : name.length < maxName) (kind : Kind) (link : Text) :
    (s.ramfsMake dir name kind link node).2.Sane := by
  rcases ramfsMake_cases link node with hfail | ⟨n, hn, hkind, hfind, heq⟩
  · rw [hfail]
    exact h
  · rw [heq]
    have hdead := hnode n hn
    exact ⟨h.linked.made hdir hkind hdead name kind link,
      h.linked.made_named h.named hdead hfind hne hslash hlen⟩

theorem Sane.makeIn (hproper : Proper p path) (hnode : ∀ n ∈ node, s.live n = false) {kind : Kind} :
    (s.inDirectory p path fun s dir name => s.ramfsMake dir name kind link node).2.Sane := by
  refine h.inDirectory ?_
  rintro dir name hlive - rfl hlen
  exact h.ramfsMake hnode hlive hproper (slash_not_mem_lastComponent) hlen kind link

theorem Sane.vfsUnlink [Fintype N] : (s.vfsUnlink p path).2.Sane := by
  refine h.inDirectory ?_
  intro dir name _ _ _ _
  rcases h.linked.ramfsUnlink_cases dir name with hfail | ⟨child, u, -, hdrop, heq⟩
  · rw [hfail]
    exact h
  · rw [heq]
    exact ⟨hdrop.linked, hdrop.named h.named⟩

theorem Sane.vfsRmdir [Fintype N] : (s.vfsRmdir p path).2.Sane := by
  unfold Store.vfsRmdir
  dsimp only
  obtain ⟨found, hfound, -⟩ := h.linked.resolve_eq p (makeAbsolutePath p 1024 path)
  rw [hfound]
  cases found with
  | none => exact h
  | some n =>
    dsimp only
    split
    · exact h
    · exact h.vfsUnlink

theorem Sane.ramfsRename [Fintype N] (hlive : s.live newDir = true)
    (hkind : s.kind newDir = .dir) (hne : newName ≠ []) (hslash : slash ∉ newName)
    (hlen : newName.length < maxName) (oldDir : N) (oldName : Text) :
    (s.ramfsRename oldDir oldName newDir newName).2.Sane := by
  rcases h.linked.ramfsRename_cases oldDir oldName newDir newName with
    hfail | ⟨child, u, -, hclear, heq⟩
  · rw [hfail]
    exact h
  rw [heq]
  have hlinked := hclear.linked h.linked
  have hnamed := hclear.named h.named
  obtain ⟨hdir, hkinds⟩ := hclear.dir
  rcases moveChild_cases oldDir child newDir newName with hfail | ⟨t, ht, hmove⟩
  · rw [hfail]
    exact ⟨hlinked, hnamed⟩
  · rw [hmove]
    refine ⟨hlinked.moved ht (hdir.trans hlive) ((congrFun hkinds newDir).trans hkind) newName, ?_⟩
    exact hlinked.moved_named hnamed ht (fun c hc => hclear.fresh h.linked h.named hc) hne hslash
      hlen

end

/-- A rename fails early, or is made between two directories of the tree. -/
theorem Linked.vfsRename_cases [Fintype N] (h : s.Linked) (p : Process) (old new : Text) :
    s.vfsRename p old new = (-1, s) ∨ ∃ oldDir newDir, s.live newDir = true ∧ s.kind newDir = .dir ∧
        (lastComponent (makeAbsolutePath p 1024 new)).length < maxName ∧ s.entryAt p new =
          s.ramfsFindChild newDir (lastComponent (makeAbsolutePath p 1024 new)) ∧
        s.vfsRename p old new = s.ramfsRename oldDir (lastComponent (makeAbsolutePath p 1024 old))
          newDir (lastComponent (makeAbsolutePath p 1024 new)) := by
  unfold Store.vfsRename entryAt
  cases hold : splitPath (makeAbsolutePath p 1024 old) with
  | none => exact .inl rfl
  | some oldParts =>
  cases hnew : splitPath (makeAbsolutePath p 1024 new) with
  | none => exact .inl rfl
  | some newParts =>
  obtain ⟨oldDirPath, oldName⟩ := oldParts
  obtain ⟨newDirPath, newName⟩ := newParts
  obtain ⟨holdName, -⟩ := splitPath_some hold
  obtain ⟨hnewName, hlen⟩ := splitPath_some hnew
  rw [fit_makeAbsolutePath] at holdName hnewName
  obtain ⟨oldFound, holdFound, -⟩ := h.resolve_eq p oldDirPath
  obtain ⟨newFound, hnewFound, hlive⟩ := h.resolve_eq p newDirPath
  dsimp only
  rw [holdFound]
  dsimp only
  rw [hnewFound]
  cases oldFound with
  | none => exact .inl rfl
  | some oldDir =>
    cases newFound with
    | none => exact .inl rfl
    | some newDir =>
      dsimp only
      split
      · exact .inl rfl
      · next hkinds =>
        rw [hnewName] at hlen ⊢
        rw [holdName]
        have hkind := not_not.mp fun hkind => hkinds (.inr hkind)
        exact .inr ⟨oldDir, newDir, hlive newDir rfl, hkind, hlen, rfl, rfl⟩

theorem Sane.vfsRename [Fintype N] (h : s.Sane) {old new : Text} (hproper : Proper p new) :
    (s.vfsRename p old new).2.Sane := by
  rcases h.linked.vfsRename_cases p old new with hfail |
    ⟨oldDir, newDir, hlive, hkind, hlen, -, heq⟩
  · rw [hfail]
    exact h
  · rw [heq]
    exact h.ramfsRename hlive hkind hproper (slash_not_mem_lastComponent) hlen _ _

/-- What `vfs_open` can do: fail, open a node of the tree, or make one and open it. -/
inductive Opened (s : Store N) (p : Process) (path : Text) (flags : BitVec 32)
    (node : Option N) : Option (Option N × Store N) → Prop
  | failed : Opened s p path flags node (some (none, s))
  | found {n : N} (hn : s.live n = true) : Opened s p path flags node
      (some (some n, s.openNode n flags))
  | overrun (hcreat : hasFlags flags oCreat = true)
      (hlen : maxName ≤ (lastComponent (makeAbsolutePath p 1024 path)).length) :
      Opened s p path flags node none
  | made {dir n : N} (hcreat : hasFlags flags oCreat = true) (hn : node = some n)
      (hlen : (lastComponent (makeAbsolutePath p 1024 path)).length < maxName)
      (hdir : s.live dir = true) (hkind : s.kind dir = .dir)
      (hfind : s.ramfsFindChild dir (lastComponent (makeAbsolutePath p 1024 path)) = none)
      {t : Store N}
      (ht : t = (s.newNode n (lastComponent (makeAbsolutePath p 1024 path)) .file []).ramfsAddChild
        dir n) :
      Opened s p path flags node
        (some (some n, { t with refcount := update t.refcount n (t.refcount n + 1) }))

theorem lookup_made {dir : N} (hkind : s.kind dir = .dir) (hne : dir ≠ n)
    (hlen : name.length < maxName) (ht : t = (s.newNode n name .file []).ramfsAddChild dir n) :
    t.ramfsLookup dir name = some (n, t.toFs) := by
  have htkind : t.kind dir = .dir := by
    rw [ht]
    exact (update_of_ne hne ..).trans hkind
  have htname : t.name n = name := by
    rw [ht]
    exact (update_self ..).trans (fit_maxName hlen)
  have htchildren : t.children dir = n :: (s.newNode n name .file []).children dir := by
    rw [ht]
    exact addChild_dir
  have htparent : t.parent n = some dir := by
    rw [ht]
    exact update_self ..
  have hfind : t.ramfsFindChild dir name = some n := by
    rw [Fs.ramfsFindChild, if_pos htkind, htchildren]
    exact find?_cons_of_pos (decide_eq_true htname)
  rw [Fs.ramfsLookup, hfind, Option.map_some, Fs.setParent_self htparent]

theorem Linked.vfsOpen_opened (h : s.Linked) (hnode : ∀ n ∈ node, s.live n = false) (p : Process)
    (path : Text) (flags : BitVec 32) :
    s.Opened p path flags node (s.vfsOpen p path flags node) := by
  obtain ⟨found, hfound, hlive⟩ := h.resolve_eq p (makeAbsolutePath p 1024 path)
  unfold vfsOpen
  dsimp only
  rw [hfound, fit_makeAbsolutePath]
  cases found with
  | some n => exact .found (hlive n rfl)
  | none =>
  dsimp only
  split
  · exact .failed
  next hcreat =>
  have hcreat : hasFlags flags oCreat = true := by simpa using hcreat
  cases hsplit : strrchr (makeAbsolutePath p 1024 path) with
  | none => exact .failed
  | some parts =>
  obtain ⟨dirPath, name⟩ := parts
  obtain rfl := strrchr_some hsplit
  dsimp only
  split
  · next hlen => exact .overrun hcreat hlen
  next hlen =>
  obtain ⟨dirFound, hdirFound, hdirLive⟩ :=
    h.resolve_eq p (if dirPath = [] then [slash] else dirPath)
  unfold openNew
  rw [hdirFound]
  cases dirFound with
  | none => exact .failed
  | some dir =>
  dsimp only
  split
  · exact .failed
  next hkind =>
  have hkind := not_not.mp hkind
  unfold ramfsCreate
  rcases ramfsMake_cases [] node with
    hfail | ⟨n, hn, -, hfind, hmade⟩
  · rw [hfail]
    exact .failed
  · have hne : dir ≠ n := by
      rintro rfl
      cases (hdirLive dir rfl).symm.trans (hnode dir hn)
    rw [hmade]
    simp only
    rw [lookup_made hkind hne (not_le.mp hlen) rfl]
    exact .made hcreat hn (not_le.mp hlen) (hdirLive dir rfl) hkind hfind rfl

theorem openNode_toFs (n : N) (flags : BitVec 32) : (s.openNode n flags).toFs = s.toFs := by
  unfold openNode
  split <;> rfl

theorem openNode_live (n : N) (flags : BitVec 32) : (s.openNode n flags).live = s.live := by
  unfold openNode
  split <;> rfl

theorem Sane.vfsOpen (h : s.Sane) (hnode : ∀ n ∈ node, s.live n = false) {flags : BitVec 32}
    (hproper : hasFlags flags oCreat = true → Proper p path ∧
      (lastComponent (makeAbsolutePath p 1024 path)).length < maxName) :
    ∃ r, s.vfsOpen p path flags node = some r ∧ r.2.Sane := by
  have hopened := h.linked.vfsOpen_opened hnode p path flags
  generalize s.vfsOpen p path flags node = result at hopened
  cases hopened with
  | failed => exact ⟨_, rfl, h⟩
  | found _ => exact ⟨_, rfl, h.congr (openNode_toFs _ _) (openNode_live _ _)⟩
  | overrun hcreat hlen => exact absurd (hproper hcreat).2 (not_lt.mpr hlen)
  | @made dir n hcreat hn hlen hdir hkind hfind t ht =>
    have hdead := hnode n hn
    have hsane : t.Sane := by
      rw [ht]
      exact ⟨h.linked.made hdir hkind hdead _ _ _, h.linked.made_named h.named hdead hfind
        (hproper hcreat).1 (slash_not_mem_lastComponent) hlen⟩
    exact ⟨_, rfl, hsane.congr rfl rfl⟩

end

end Store

/-! ## Runs -/

/-- A call, with the memory that `kmalloc` has for the node it makes. -/
inductive TreeCall (N : Type*)
  | open (p : Process) (path : Text) (flags : BitVec 32) (node : Option N)
  | mkdir (p : Process) (path : Text) (node : Option N)
  | symlink (p : Process) (target path : Text) (node : Option N)
  | unlink (p : Process) (path : Text)
  | rmdir (p : Process) (path : Text)
  | rename (p : Process) (old new : Text)

namespace TreeCall

def node : TreeCall N → Option N
  | .open _ _ _ node | mkdir _ _ node | symlink _ _ _ node => node
  | unlink .. | rmdir .. | rename .. => none

/-- The paths of nodes that may be made do not end in a slash, and the last component
fits into the buffer of `vfs_open`. -/
def Good : TreeCall N → Prop
  | .open p path flags _ => hasFlags flags oCreat = true → Store.Proper p path ∧
      (lastComponent (makeAbsolutePath p 1024 path)).length < maxName
  | mkdir p path _ => Store.Proper p path
  | symlink p _ path _ => Store.Proper p path
  | unlink .. => True
  | rmdir .. => True
  | rename p _ new => Store.Proper p new

instance : ∀ call : TreeCall N, Decidable call.Good
  | .open .. => inferInstanceAs (Decidable (_ → _))
  | mkdir .. | symlink .. | rename .. => inferInstanceAs (Decidable (Store.Proper _ _))
  | unlink .. | rmdir .. => inferInstanceAs (Decidable True)

end TreeCall

/-- One call; after undefined behaviour there is no state. -/
def treeStep [DecidableEq N] [Fintype N] (s : Option (Store N)) (call : TreeCall N) :
    Option (Store N) :=
  s.bind fun s =>
    match call with
    | .open p path flags node => (s.vfsOpen p path flags node).map (·.2)
    | .mkdir p path node => some (s.vfsMkdir p path node).2
    | .symlink p target path node => some (s.vfsSymlink p target path node).2
    | .unlink p path => some (s.vfsUnlink p path).2
    | .rmdir p path => some (s.vfsRmdir p path).2
    | .rename p old new => some (s.vfsRename p old new).2

/-- `kmalloc` gives memory that is not in use. -/
def Supplied (s : Option (Store N)) (call : TreeCall N) : Prop :=
  ∀ t ∈ s, ∀ n ∈ call.node, t.live n = false

/-- A state, and the tree in it. -/
def HoldsTree [DecidableEq N] (s : Option (Store N)) : Prop := ∃ t, s = some t ∧ t.IsTree

theorem treeStep_sane [DecidableEq N] [Fintype N] {s : Option (Store N)} {call : TreeCall N}
    (h : ∃ t, s = some t ∧ t.Sane) (hnode : Supplied s call) (hgood : call.Good) :
    ∃ t, treeStep s call = some t ∧ t.Sane := by
  obtain ⟨t, rfl, hsane⟩ := h
  have hdead := hnode t rfl
  cases call with
  | «open» p path flags node =>
    obtain ⟨r, hr, hsane'⟩ := hsane.vfsOpen hdead hgood
    refine ⟨r.2, ?_, hsane'⟩
    exact congrArg (Option.map (·.2)) hr
  | mkdir p path node | symlink p target path node => exact ⟨_, rfl, hsane.makeIn hgood hdead⟩
  | unlink p path => exact ⟨_, rfl, hsane.vfsUnlink⟩
  | rmdir p path => exact ⟨_, rfl, hsane.vfsRmdir⟩
  | rename p old new => exact ⟨_, rfl, hsane.vfsRename hgood⟩

/-- **ramfs is a tree** after every run of calls in which new names come from paths that
do not end in a slash and, for new files, fit into the buffer. -/
theorem ramfs_is_tree [DecidableEq N] [Fintype N] {s : Store N} (hsane : s.Sane)
    {calls : List (TreeCall N)}
    (hcalls : Runs.Guarded treeStep (fun s c => Supplied s c ∧ c.Good) (some s) calls) :
    HoldsTree (Runs.run treeStep (some s) calls) := by
  have hrun : ∃ t, Runs.run treeStep (some s) calls = some t ∧ t.Sane := by
    refine hcalls.invariant (I := fun s => ∃ t, s = some t ∧ t.Sane) ?_ ⟨s, rfl, hsane⟩
    intro s c hs hc
    exact treeStep_sane hs hc.1 hc.2
  obtain ⟨t, ht, hsane'⟩ := hrun
  exact ⟨t, ht, hsane'.linked.isTree hsane'.named⟩

/-! ## A ramfs as it is mounted -/

/-- `vfs_init` with no more than a ramfs: one directory without a name. -/
def mountedRamfs [DecidableEq N] (root : N) : Store N where
  kind n := if n = root then .dir else .file
  name _ := []
  link _ := []
  parent _ := none
  children _ := []
  mounts i := if i.val = 0 then some { path := [slash], root := root } else none
  rootNode := some root
  ready := true
  live n := n = root
  refcount _ := 1
  size _ := 0
  data _ := []

theorem mountedRamfs_mount [DecidableEq N] {root : N} {i : Fin 16} {m : Mount N}
    (h : (mountedRamfs root).mounts i = some m) : i.val = 0 ∧ m.root = root := by
  change (if i.val = 0 then some { path := [slash], root := root } else none) = some m at h
  split at h
  · next hi => exact ⟨hi, by rw [← Option.some.inj h]⟩
  · cases h

theorem mountedRamfs_sane [DecidableEq N] (root : N) : (mountedRamfs root).Sane where
  linked := {
    sound := {
      parent := nofun
      rootDir := fun hm => by
        rw [(mountedRamfs_mount hm).2]
        exact if_pos rfl
      rootParent := fun _ => rfl
      roots := fun hi hj _ =>
        Fin.ext ((mountedRamfs_mount hi).1.trans (mountedRamfs_mount hj).1.symm) }
    root := fun hm => by
      rw [(mountedRamfs_mount hm).2]
      exact decide_eq_true rfl
    live := nofun
    dead := fun _ => rfl
    leaf := fun _ => rfl
    nodup := fun _ => nodup_nil }
  named := {
    differ := fun _ => List.Pairwise.nil
    proper := nofun }

/-- A process at the root. -/
def rootProcess : Process where
  chrootPath := []
  currentDir := [slash]

/-- `mkdir /a`, `mkdir /a/b`, and then `/a` is moved to `/a/b/c`. -/
theorem ramfs_is_tree_cycle : HoldsTree (Runs.run treeStep (some (mountedRamfs (0 : Fin 3)))
      [.mkdir rootProcess [slash, 97] (some 1), .mkdir rootProcess [slash, 97, slash, 98] (some 2),
        .rename rootProcess [slash, 97] [slash, 97, slash, 98, slash, 99]]) := by
  refine ramfs_is_tree (mountedRamfs_sane 0) ⟨⟨?_, by decide⟩, ⟨?_, by decide⟩, ⟨?_, by decide⟩, ?_⟩
  · rintro t ⟨⟩ n ⟨⟩
    decide
  · rintro t ⟨⟩ n ⟨⟩
    decide
  · rintro t ⟨⟩ n ⟨⟩
  · trivial

/-- `mkdir /` makes a directory without a name in the root. -/
theorem mkdir_root_not_tree : Runs.Guarded treeStep Supplied (some (mountedRamfs (0 : Fin 2)))
        [.mkdir rootProcess [slash] (some 1)] ∧
      ¬HoldsTree (Runs.run treeStep (some (mountedRamfs (0 : Fin 2)))
        [.mkdir rootProcess [slash] (some 1)]) := by
  constructor
  · refine ⟨?_, trivial⟩
    rintro t ⟨⟩ n ⟨⟩
    decide
  · rintro ⟨t, ⟨⟩, htree⟩
    have hnamed := htree.named (i := 0) (d := 0) (c := 1) rfl .refl (by decide)
    exact hnamed.1 (by decide)

end Utms7.Vfs
