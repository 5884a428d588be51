import Utms7.Ramfs
import Utms7.VfsChroot

/-!
# The links between the nodes of ramfs

The nodes stay a forest under the mounts, whatever the calls: a node is in the list of
its parent and in no other, and the ones that are freed are in none.  A directory that
is moved below itself leaves the forest, but nothing that is still reached from a root
does.

Here are the small changes that the calls are made of, and what each of them keeps:
of the links (`Linked`), which no call can harm, and of the names (`Named`), which
need a good name for the node that is added.
-/

namespace Utms7.Vfs

open NamedTree Function

variable {N : Type*}

namespace Store

/-- The links between nodes, as a tree in which a child is found by itself. -/
def links [DecidableEq N] (s : Store N) : Tree N N where
  child d c := if c ∈ s.children d then some c else none
  parent := s.parent

/-- A node is reached from another by child links. -/
def Reaches (s : Store N) (d n : N) : Prop :=
  Relation.ReflTransGen (fun d c => c ∈ s.children d) d n

/-- What is reached from the roots is a tree of allocated nodes. -/
structure IsTree [DecidableEq N] (s : Store N) : Prop where
  allocated : ∀ {i m n}, s.mounts i = some m → s.Reaches m.root n → s.live n = true
  oneChain : ∀ {i m n}, s.mounts i = some m → s.Reaches m.root n →
    ∃! chain, s.links.nodeAt m.root chain = some n
  onceEach : ∀ {i m d}, s.mounts i = some m → s.Reaches m.root d → (s.children d).Nodup
  parent : ∀ {i m d c}, s.mounts i = some m → s.Reaches m.root d → c ∈ s.children d →
    s.parent c = some d
  differ : ∀ {i m d}, s.mounts i = some m → s.Reaches m.root d →
    (s.children d).Pairwise fun a b => s.name a ≠ s.name b
  named : ∀ {i m d c}, s.mounts i = some m → s.Reaches m.root d → c ∈ s.children d →
    s.name c ≠ [] ∧ slash ∉ s.name c

/-- What the calls keep of the links, at all nodes. -/
structure Linked (s : Store N) : Prop where
  sound : s.toFs.Sound
  root : ∀ {i m}, s.mounts i = some m → s.live m.root = true
  live : ∀ {d c}, c ∈ s.children d → s.live c = true
  dead : ∀ {d}, s.live d = false → s.children d = []
  leaf : ∀ {d}, s.kind d ≠ .dir → s.children d = []
  nodup : ∀ d, (s.children d).Nodup

/-- The children of a directory have names, and different ones. -/
structure Named (s : Store N) : Prop where
  differ : ∀ d, (s.children d).Pairwise fun a b => s.name a ≠ s.name b
  proper : ∀ {d c}, c ∈ s.children d → s.name c ≠ [] ∧ slash ∉ s.name c

variable {s : Store N} {n d c r : N} {t : Store N} {m : Mount N} {path : Text} {i : Fin 16}

/-! ## A tree -/

theorem Linked.reached (h : s.Linked) (hm : s.mounts i = some m)
    (hn : s.Reaches m.root n) : s.live n = true := by
  cases hn with
  | refl => exact h.root hm
  | tail _ hstep => exact h.live hstep

section Links

variable [DecidableEq N]

theorem links_child {a : N} : s.links.child d a = some c ↔ a = c ∧ c ∈ s.children d := by
  change (if a ∈ s.children d then some a else none) = some c ↔ _
  by_cases ha : a ∈ s.children d
  · rw [if_pos ha, Option.some.injEq]
    exact ⟨fun h => ⟨h, h ▸ ha⟩, fun h => h.1⟩
  · rw [if_neg ha]
    exact ⟨nofun, fun h => absurd (h.1 ▸ h.2) ha⟩

theorem Linked.links_sound (h : s.Linked) (hm : s.mounts i = some m) :
    s.links.Sound m.root where
  parent hc := h.sound.parent (links_child.mp hc).2
  label ha hb := (links_child.mp ha).1.trans (links_child.mp hb).1.symm
  root := h.sound.rootParent hm

theorem exists_chain (h : s.Reaches r n) : ∃ chain, s.links.nodeAt r chain = some n := by
  induction h with
  | refl => exact ⟨[], rfl⟩
  | @tail d c _ hstep ih =>
    obtain ⟨chain, hchain⟩ := ih
    refine ⟨chain ++ [c], ?_⟩
    rw [nodeAt_snoc, hchain]
    exact links_child.mpr ⟨rfl, hstep⟩

theorem Linked.isTree (h : s.Linked) (hnamed : s.Named) : s.IsTree where
  allocated := h.reached
  oneChain hm hn := by
    obtain ⟨chain, hchain⟩ := exists_chain hn
    exact ⟨chain, hchain, fun chain' hchain' => nodeAt_inj (h.links_sound hm) hchain' hchain⟩
  onceEach _ _ := h.nodup _
  parent _ _ hc := h.sound.parent hc
  differ _ _ := hnamed.differ _
  named _ _ hc := hnamed.proper hc

end Links

/-! ## What is resolved -/

theorem reaches_nodeAt {place : List Text} (h : s.tree.nodeAt r place = some n) :
    s.Reaches r n := by
  induction place using List.reverseRecOn generalizing n with
  | nil =>
    rw [← Option.some.inj h]
    exact .refl
  | append_singleton place a ih =>
    obtain ⟨d, hd, hchild⟩ := nodeAt_snoc_some h
    exact (ih hd).tail (Fs.ramfsFindChild_some hchild).1

/-- A path leads to a node of the forest, and looking for it changes nothing. -/
theorem Linked.resolvePathInternal [DecidableEq N] (h : s.Linked) (calls : Nat) (hne : path ≠ []) :
    (s.resolvePathInternal calls path).2 = s.toFs ∧
      ∀ n, (s.resolvePathInternal calls path).1 = some n →
        ∃ i m, s.mounts i = some m ∧ s.Reaches m.root n := by
  cases calls with
  | zero => exact ⟨rfl, fun n hn => by cases hn⟩
  | succ calls =>
    rw [Fs.resolvePathInternal]
    split
    · exact ⟨rfl, fun n hn => by cases hn⟩
    split
    · exact ⟨rfl, fun n hn => by cases hn⟩
    cases hmount : s.findMount path with
    | none => exact ⟨rfl, fun n hn => by cases hn⟩
    | some m =>
      obtain ⟨⟨i, hi⟩, -⟩ := Fs.findMount_some hmount
      have hlink : ¬(s.kind m.root = .symlink ∧
          (s.ramfsReadlink m.root maxName).head? = some slash) := by
        rw [h.sound.rootDir hi]
        exact fun hand => by cases hand.1
      dsimp only
      rw [if_neg hlink]
      split
      · refine ⟨rfl, ?_⟩
        intro n hn
        rw [← Option.some.inj hn]
        exact ⟨i, m, hi, .refl⟩
      · rw [Fs.walk_eq h.sound]
        refine ⟨rfl, ?_⟩
        intro n hn
        exact ⟨i, m, hi, reaches_nodeAt (Fs.nodeAt_normal h.sound hi hn)⟩

theorem Linked.resolve_snd [DecidableEq N] (h : s.Linked) (p : Process) (path : Text) :
    (s.resolve p path).2 = s := by
  have hfs := (h.resolvePathInternal resolveCalls (finalPath_ne_nil p path)).1
  unfold resolve Fs.vfsResolvePath
  dsimp only
  rw [hfs]

theorem Linked.resolve_fst [DecidableEq N] (h : s.Linked) {p : Process}
    (hn : (s.resolve p path).1 = some n) : ∃ i m, s.mounts i = some m ∧ s.Reaches m.root n :=
  (h.resolvePathInternal resolveCalls (finalPath_ne_nil p path)).2 n hn

/-! ## Small changes -/

/-- A node that is in no directory and is not a root. -/
structure Loose (s : Store N) (n : N) : Prop where
  apart : ∀ d, n ∉ s.children d
  noRoot : ∀ {i m}, s.mounts i = some m → m.root ≠ n

/-- Memory that is not in use is no node of the tree. -/
theorem Linked.loose_of_dead (h : s.Linked) (hdead : s.live n = false) : s.Loose n where
  apart d hd := by
    rw [h.live hd] at hdead
    cases hdead
  noRoot {i m} hm heq := by
    rw [← heq, h.root hm] at hdead
    cases hdead

theorem Loose.ne (h : s.Loose n) (hc : c ∈ s.children d) : c ≠ n := by
  rintro rfl
  exact h.apart d hc

/-- The two stores have the same tables and lists, and the same nodes but one. -/
structure SameBut (s : Store N) (n : N) (t : Store N) : Prop where
  mounts : t.mounts = s.mounts
  children : t.children = s.children
  other : ∀ c, c ≠ n → t.kind c = s.kind c ∧ t.name c = s.name c ∧ t.parent c = s.parent c ∧
    t.live c = s.live c

/-- No link depends on a loose node but those to its own children. -/
theorem Linked.change (h : s.Linked) (hloose : s.Loose n) (hsame : s.SameBut n t)
    (hself : t.live n = false ∨ t.kind n ≠ .dir → s.children n = []) : t.Linked := by
  have hroot : ∀ {i m}, t.mounts i = some m → s.mounts i = some m ∧ m.root ≠ n := by
    intro i m hm
    rw [hsame.mounts] at hm
    exact ⟨hm, hloose.noRoot hm⟩
  refine ⟨⟨?_, ?_, ?_, ?_⟩, ?_, ?_, ?_, ?_, ?_⟩
  · intro c d hc
    rw [hsame.children] at hc
    rw [(hsame.other c (hloose.ne hc)).2.2.1]
    exact h.sound.parent hc
  · intro i m hm
    obtain ⟨hm, hroot⟩ := hroot hm
    rw [(hsame.other _ hroot).1]
    exact h.sound.rootDir hm
  · intro i m hm
    obtain ⟨hm, hroot⟩ := hroot hm
    rw [(hsame.other _ hroot).2.2.1]
    exact h.sound.rootParent hm
  · rw [hsame.mounts]
    exact h.sound.roots
  · intro i m hm
    obtain ⟨hm, hroot⟩ := hroot hm
    rw [(hsame.other _ hroot).2.2.2]
    exact h.root hm
  · intro d c hc
    rw [hsame.children] at hc
    rw [(hsame.other c (hloose.ne hc)).2.2.2]
    exact h.live hc
  · intro d hd
    rw [hsame.children]
    by_cases hdn : d = n
    · rw [hdn] at hd ⊢
      exact hself (.inl hd)
    · exact h.dead ((hsame.other d hdn).2.2.2.symm.trans hd)
  · intro d hd
    rw [hsame.children]
    by_cases hdn : d = n
    · rw [hdn] at hd ⊢
      exact hself (.inr hd)
    · exact h.leaf ((hsame.other d hdn).1 ▸ hd)
  · rw [hsame.children]
    exact h.nodup

theorem Named.change (h : s.Named) (hloose : s.Loose n) (hsame : s.SameBut n t) : t.Named := by
  constructor
  · intro d
    rw [hsame.children]
    refine (h.differ d).imp_of_mem fun ha hb hab => ?_
    rwa [(hsame.other _ (hloose.ne ha)).2.1, (hsame.other _ (hloose.ne hb)).2.1]
  · intro d c hc
    rw [hsame.children] at hc
    rw [(hsame.other c (hloose.ne hc)).2.1]
    exact h.proper hc

section Changes

variable [DecidableEq N] {dir child node : N}

theorem update_children (hempty : s.children node = []) :
    update s.children node [] = s.children := by
  rw [← hempty]
  exact update_eq_self node s.children

/-- The node that `ramfs_create` and its like hang into the directory. -/
def newNode (s : Store N) (node : N) (name : Text) (kind : Kind) (link : Text) : Store N :=
  { s.vfsCreateNode node name kind with
    link := update (s.vfsCreateNode node name kind).link node link }

section

variable (h : s.Linked) (hdead : s.live node = false) (name : Text) (kind : Kind) (link : Text)
include h hdead

theorem Linked.newNode_same : s.SameBut node (s.newNode node name kind link) where
  mounts := rfl
  children := update_children (h.dead hdead)
  other _ hc := ⟨update_of_ne hc .., update_of_ne hc .., update_of_ne hc .., update_of_ne hc ..⟩

theorem Linked.newNode : (s.newNode node name kind link).Linked :=
  h.change (h.loose_of_dead hdead) (h.newNode_same hdead name kind link) fun _ => h.dead hdead

end

theorem kfree_same (hempty : s.children node = []) : s.SameBut node (s.kfree node) where
  mounts := rfl
  children := update_children hempty
  other _ hc := ⟨rfl, rfl, rfl, update_of_ne hc ..⟩

theorem Linked.kfree (h : s.Linked) (hloose : s.Loose node) (hempty : s.children node = []) :
    (s.kfree node).Linked :=
  h.change hloose (kfree_same hempty) fun _ => hempty

/-- The copy of the new name in `ramfs_rename`. -/
def setName (s : Store N) (node : N) (name : Text) : Store N :=
  { s with name := update s.name node name }

theorem setName_same (name : Text) : s.SameBut node (s.setName node name) where
  mounts := rfl
  children := rfl
  other _ hc := ⟨rfl, update_of_ne hc .., rfl, rfl⟩

theorem Linked.setName (h : s.Linked) (hloose : s.Loose node) (name : Text) :
    (s.setName node name).Linked := by
  refine h.change hloose (setName_same name) ?_
  rintro (hdead | hkind)
  · exact h.dead hdead
  · exact h.leaf hkind

theorem mem_addChild (h : c ∈ (s.ramfsAddChild dir child).children d) :
    (d = dir ∧ c = child) ∨ c ∈ s.children d := by
  change c ∈ update s.children dir (child :: s.children dir) d at h
  by_cases hd : d = dir
  · subst hd
    rw [update_self] at h
    exact (List.mem_cons.mp h).imp_left fun hc => ⟨rfl, hc⟩
  · rw [update_of_ne hd] at h
    exact .inr h

theorem addChild_dir :
    (s.ramfsAddChild dir child).children dir = child :: s.children dir := update_self ..

theorem addChild_of_ne (hd : d ≠ dir) :
    (s.ramfsAddChild dir child).children d = s.children d := update_of_ne hd ..

theorem Linked.addChild (h : s.Linked) (hloose : s.Loose child) (hchild : s.live child = true)
    (hdir : s.live dir = true) (hkind : s.kind dir = .dir) :
    (s.ramfsAddChild dir child).Linked := by
  have hparent : ∀ c, c ≠ child → (s.ramfsAddChild dir child).parent c = s.parent c :=
    fun c hc => update_of_ne hc ..
  refine ⟨⟨?_, h.sound.rootDir, ?_, h.sound.roots⟩, h.root, ?_, ?_, ?_, ?_⟩
  · intro c d hc
    rcases mem_addChild hc with ⟨rfl, rfl⟩ | hc
    · exact update_self ..
    · rw [hparent c (hloose.ne hc)]
      exact h.sound.parent hc
  · intro i m hm
    rw [hparent _ (hloose.noRoot hm)]
    exact h.sound.rootParent hm
  · intro d c hc
    rcases mem_addChild hc with ⟨-, rfl⟩ | hc
    · exact hchild
    · exact h.live hc
  · intro d hd
    rw [addChild_of_ne]
    · exact h.dead hd
    · rintro rfl
      cases hdir.symm.trans hd
  · intro d hd
    rw [addChild_of_ne]
    · exact h.leaf hd
    · rintro rfl
      exact hd hkind
  · intro d
    by_cases hd : d = dir
    · rw [hd, addChild_dir]
      exact List.nodup_cons.mpr ⟨hloose.apart dir, h.nodup dir⟩
    · rw [addChild_of_ne hd]
      exact h.nodup d

/-- A name that a directory may get. -/
structure Fits (s : Store N) (dir : N) (name : Text) : Prop where
  ne_nil : name ≠ []
  noSlash : slash ∉ name
  fresh : ∀ c ∈ s.children dir, s.name c ≠ name

theorem Named.addChild (h : s.Named) (hfits : s.Fits dir (s.name child)) :
    (s.ramfsAddChild dir child).Named := by
  constructor
  · intro d
    by_cases hd : d = dir
    · rw [hd, addChild_dir]
      exact List.pairwise_cons.mpr ⟨fun c hc => (hfits.fresh c hc).symm, h.differ dir⟩
    · rw [addChild_of_ne hd]
      exact h.differ d
  · intro d c hc
    rcases mem_addChild hc with ⟨-, rfl⟩ | hc
    · exact ⟨hfits.ne_nil, hfits.noSlash⟩
    · exact h.proper hc

/-- What `ramfs_remove_child` does. -/
structure Removed (s : Store N) (dir child : N) (t : Store N) : Prop where
  linked : t.Linked
  mem : child ∈ s.children dir
  loose : t.Loose child
  sublist : ∀ d, (t.children d).Sublist (s.children d)
  other : ∀ {d}, d ≠ dir → t.children d = s.children d
  mounts : t.mounts = s.mounts
  kind : t.kind = s.kind
  live : t.live = s.live
  name : t.name = s.name
  refcount : t.refcount = s.refcount

theorem Linked.removeChild (h : s.Linked)
    (ht : s.ramfsRemoveChild dir child = some t) : s.Removed dir child t := by
  unfold ramfsRemoveChild at ht
  split at ht
  swap
  · cases ht
  next hmem =>
  obtain rfl := Option.some.inj ht
  set t : Store N := { s with
    parent := update s.parent child none
    children := update s.children dir ((s.children dir).erase child) } with htdef
  have hother : ∀ {d}, d ≠ dir → t.children d = s.children d := fun hd =>
    update_of_ne hd ..
  have hdir : t.children dir = (s.children dir).erase child := update_self ..
  have hsub : ∀ d, (t.children d).Sublist (s.children d) := by
    intro d
    by_cases hd : d = dir
    · rw [hd, hdir]
      exact List.erase_sublist
    · rw [hother hd]
  -- The child was in one list only, and only once.
  have hapart : ∀ d, child ∉ t.children d := by
    intro d hc
    by_cases hd : d = dir
    · rw [hd, hdir] at hc
      exact (h.nodup dir).not_mem_erase hc
    · have hparent := (h.sound.parent ((hsub d).subset hc)).symm.trans (h.sound.parent hmem)
      exact hd (Option.some.inj hparent)
  have hparent : ∀ {c}, c ≠ child → t.parent c = s.parent c := fun hc =>
    update_of_ne hc ..
  have hroot : ∀ {i m}, s.mounts i = some m → m.root ≠ child := by
    rintro i m hm rfl
    have hnone := (h.sound.parent hmem).symm.trans (h.sound.rootParent hm)
    cases hnone
  refine ⟨?_, hmem, ⟨hapart, hroot⟩, hsub, hother, rfl, rfl, rfl, rfl, rfl⟩
  refine ⟨⟨?_, h.sound.rootDir, ?_, h.sound.roots⟩, h.root, ?_, ?_, ?_, ?_⟩
  · intro c d hc
    rw [hparent fun heq => hapart d (heq ▸ hc)]
    exact h.sound.parent ((hsub d).subset hc)
  · intro i m hm
    rw [hparent (hroot hm)]
    exact h.sound.rootParent hm
  · exact fun hc => h.live ((hsub _).subset hc)
  · intro d hd
    exact List.sublist_nil.mp (h.dead hd ▸ hsub d)
  · intro d hd
    exact List.sublist_nil.mp (h.leaf hd ▸ hsub d)
  · exact fun d => (h.nodup d).sublist (hsub d)

theorem ramfsFreeNode_leaf [Fintype N] (hempty : s.children node = []) :
    s.ramfsFreeNode node = s.kfree node := by
  have hcard : Fintype.card N = Fintype.card N - 1 + 1 :=
    (Nat.sub_add_cancel (Fintype.card_pos_iff.mpr ⟨node⟩)).symm
  rw [ramfsFreeNode, hcard, freeBelow, hempty]
  rfl

end Changes

theorem Removed.named {dir child : N} (hr : s.Removed dir child t) (h : s.Named) : t.Named where
  differ d := by
    rw [hr.name]
    exact (h.differ d).sublist (hr.sublist d)
  proper {d c} hc := by
    rw [hr.name]
    exact h.proper ((hr.sublist d).subset hc)

/-- A node that may be removed or replaced has no children. -/
theorem Linked.children_of_not_full (h : s.Linked) {node : N} (hfull : s.full node = false) :
    s.children node = [] := by
  by_cases hkind : s.kind node = .dir
  · have hempty : (s.children node).isEmpty = true := by
      simpa [full, hkind] using hfull
    exact List.isEmpty_iff.mp hempty
  · exact h.leaf hkind

end Store

end Utms7.Vfs
