import Utms7.Vfs

/-!
# The walk is a walk in a tree

Where the nodes form trees, the look-ups on the way change nothing, and the loop over
the components is a walk in the sense of `NamedTree`: it ends at the place that can be
read off from the components alone.  Which mount a path belongs to depends on which
mounts cover it, and the chosen one is the longest.
-/

namespace Utms7.Vfs

open NamedTree List Option

variable {N : Type*} {path : Text} {es : List (Option (Mount N))} {best : Option (Mount N)}
  {i : Fin 16} {fs : Fs N} {m : Mount N}

/-- The step that a component asks for. -/
def moveOf (comp : Text) : Move Text :=
  if comp = [dot] then .stay
  else if comp = [dot, dot] then .up
  else .down comp

/-- The place that components lead to, from the root. -/
def normal (comps : List Text) : List Text := places [] (comps.map moveOf)

namespace Fs

/-- Each node is the child of its parent only, and the mounts have roots of their own. -/
structure Sound (fs : Fs N) : Prop where
  parent : ∀ {c d}, c ∈ fs.children d → fs.parent c = some d
  rootDir : ∀ {i m}, fs.mounts i = some m → fs.kind m.root = .dir
  rootParent : ∀ {i m}, fs.mounts i = some m → fs.parent m.root = none
  roots : ∀ {i j m m'}, fs.mounts i = some m → fs.mounts j = some m' → m.root = m'.root → i = j

/-- The nodes as a tree. -/
def tree (fs : Fs N) : Tree N Text where
  child := fs.ramfsFindChild
  parent := fs.parent

variable {dir child : N}

/-! ## Look-ups -/

theorem ramfsFindChild_some {name : Text} (h : fs.ramfsFindChild dir name = some child) :
    child ∈ fs.children dir ∧ fs.name child = name := by
  unfold ramfsFindChild at h
  split at h
  · have hname := find?_some h
    exact ⟨mem_of_find?_eq_some h, of_decide_eq_true hname⟩
  · cases h

theorem tree_sound (hsound : fs.Sound) (hm : fs.mounts i = some m) :
    fs.tree.Sound m.root where
  parent h := hsound.parent (ramfsFindChild_some h).1
  label h h' := (ramfsFindChild_some h).2.symm.trans (ramfsFindChild_some h').2
  root := hsound.rootParent hm

theorem setParent_self [DecidableEq N] (h : fs.parent child = some dir) :
    fs.setParent child dir = fs := by
  have hparent : (fun n => if n = child then some dir else fs.parent n) = fs.parent := by
    funext n
    split
    · next hn => rw [hn, h]
    · rfl
  unfold setParent
  rw [hparent]

/-- In a tree a look-up finds the child and writes the parent it has. -/
theorem ramfsLookup_eq [DecidableEq N] (hsound : fs.Sound) (dir : N) (name : Text) :
    fs.ramfsLookup dir name = (fs.ramfsFindChild dir name).map fun child => (child, fs) := by
  unfold ramfsLookup
  cases h : fs.ramfsFindChild dir name with
  | none => rfl
  | some child =>
    rw [map_some, map_some, setParent_self (hsound.parent (ramfsFindChild_some h).1)]

/-- **The loop over the components** is a walk in the tree. -/
theorem walk_eq [DecidableEq N] (hsound : fs.Sound) (node : N) (comps : List Text) :
    fs.walk node comps = (fs.tree.roam node (comps.map moveOf), fs) := by
  induction comps generalizing node with
  | nil => rfl
  | cons comp comps ih =>
    rw [walk, map_cons, Tree.roam, moveOf]
    split
    · exact ih node
    split
    · exact ih _
    have hchild : fs.tree.move node (.down comp) = fs.ramfsFindChild node comp := rfl
    rw [hchild, ramfsLookup_eq hsound]
    split
    · next hkind =>
      rw [ramfsFindChild, if_neg hkind]
      rfl
    · cases fs.ramfsFindChild node comp with
      | none => rfl
      | some next => exact ih next

end Fs

/-! ## Mounts -/

/-- What the loop keeps: the best mount so far covers the path, and none of those seen
is longer. -/
theorem foldl_betterMount_spec (h : es.foldl (betterMount path) best = some m) :
    (best = some m ∨ (some m ∈ es ∧ m.covers path = true)) ∧ bestLen best ≤ m.path.length ∧
      ∀ m', some m' ∈ es → m'.covers path = true → m'.path.length ≤ m.path.length := by
  induction es generalizing best with
  | nil =>
    subst h
    exact ⟨.inl rfl, le_refl _, fun m' hm' => absurd hm' not_mem_nil⟩
  | cons e es ih =>
    obtain ⟨hfrom, hlen, hrest⟩ := ih h
    have hstep : bestLen best ≤ bestLen (betterMount path best e) ∧
        (∀ m', e = some m' → m'.covers path = true →
          m'.path.length ≤ bestLen (betterMount path best e)) ∧
        (betterMount path best e = best ∨
          ∃ m', e = some m' ∧ m'.covers path = true ∧ betterMount path best e = some m') := by
      cases e with
      | none => exact ⟨le_refl _, nofun, .inl rfl⟩
      | some x =>
        rw [betterMount]
        split
        · next hx =>
          refine ⟨hx.2.le, ?_, .inr ⟨x, rfl, hx.1, rfl⟩⟩
          intro m' hm' _
          rw [← some.inj hm']
          exact le_refl _
        · next hx =>
          refine ⟨le_refl _, ?_, .inl rfl⟩
          intro m' hm' hcovers
          rw [← some.inj hm'] at hcovers ⊢
          exact not_lt.mp fun hlt => hx ⟨hcovers, hlt⟩
    obtain ⟨hbest, hhead, hchoice⟩ := hstep
    refine ⟨?_, hbest.trans hlen, ?_⟩
    · rcases hfrom with hfrom | ⟨hmem, hcovers⟩
      · rcases hchoice with hsame | ⟨m', he, hcovers, hnew⟩
        · exact .inl (hsame ▸ hfrom)
        · obtain rfl := some.inj (hnew.symm.trans hfrom)
          exact .inr ⟨he ▸ mem_cons_self, hcovers⟩
      · exact .inr ⟨mem_cons_of_mem e hmem, hcovers⟩
    · intro m' hm' hcovers
      rcases mem_cons.mp hm' with he | hmem
      · exact (hhead m' he.symm hcovers).trans hlen
      · exact hrest m' hmem hcovers

namespace Fs

variable {m : Mount N} {n : N} {calls : Nat}

theorem mem_mounts : some m ∈ List.ofFn fs.mounts ↔ ∃ i, fs.mounts i = some m := by
  rw [mem_ofFn]

theorem findMount_some (h : fs.findMount path = some m) :
    (∃ i, fs.mounts i = some m) ∧ m.covers path = true := by
  rcases (foldl_betterMount_spec h).1 with hnone | ⟨hmem, hcovers⟩
  · cases hnone
  · exact ⟨mem_mounts.mp hmem, hcovers⟩

/-- **The chosen mount is the longest.** -/
theorem findMount_longest {m' : Mount N} (h : fs.findMount path = some m)
    (hm' : fs.mounts i = some m') (hcovers : m'.covers path = true) :
    m'.path.length ≤ m.path.length :=
  (foldl_betterMount_spec h).2.2 m' (mem_mounts.mpr ⟨i, hm'⟩) hcovers

/-! ## Resolving -/

theorem components_relative (m : Mount N) (path : Text) :
    components (relative m path) = components (path.drop m.path.length) :=
  Slashes.words_dropWhile _

theorem fit_relative {m : Mount N} (hlen : path.length < 1024) :
    fit 1024 (relative m path) = relative m path := by
  refine take_of_length_le ?_
  have hdropWhile := (dropWhile_suffix (l := path.drop m.path.length) (· = slash)).length_le
  have hdrop := length_drop (i := m.path.length) (l := path)
  change (relative m path).length ≤ _ at hdropWhile
  omega

theorem resolvePathInternal_eq [DecidableEq N] (hsound : fs.Sound) (hready : fs.ready = true)
    (hslash : path.head? = some slash) (hlen : path.length < 1024) (calls : Nat) :
    (fs.resolvePathInternal (calls + 1) path).1 = (fs.findMount path).bind fun m =>
      fs.tree.roam m.root ((components (path.drop m.path.length)).map moveOf) := by
  have hne : path ≠ [] := by
    rintro rfl
    cases hslash
  rw [resolvePathInternal, hready, if_neg (by decide), if_neg hne, if_neg (not_not.mpr hslash)]
  cases hmount : fs.findMount path with
  | none => rfl
  | some m =>
    obtain ⟨⟨i, hi⟩, -⟩ := findMount_some hmount
    have hdir := hsound.rootDir hi
    have hlink : ¬(fs.kind m.root = .symlink ∧
        (fs.ramfsReadlink m.root maxName).head? = some slash) := by
      rw [hdir]
      exact fun h => nomatch h.1
    rw [bind_some, ← components_relative]
    dsimp only
    rw [if_neg hlink]
    split
    · next hrel =>
      rw [hrel]
      rfl
    · rw [fit_relative hlen, walk_eq hsound]

theorem resolvePathInternal_some [DecidableEq N] (hsound : fs.Sound)
    (hslash : path.head? = some slash) (hlen : path.length < 1024)
    (h : (fs.resolvePathInternal (calls + 1) path).1 = some n) :
    fs.ready = true ∧ ∃ m, fs.findMount path = some m ∧
      fs.tree.roam m.root ((components (path.drop m.path.length)).map moveOf) = some n := by
  have hready : fs.ready = true := by
    by_contra hnot
    rw [resolvePathInternal, Bool.not_eq_true _ |>.mp hnot] at h
    cases h
  rw [resolvePathInternal_eq hsound hready hslash hlen] at h
  exact ⟨hready, bind_eq_some_iff.mp h⟩

/-- Only the empty path and those from the root resolve. -/
theorem head_of_resolves [DecidableEq N] (hne : path ≠ [])
    (h : (fs.resolvePathInternal (calls + 1) path).1 = some n) : path.head? = some slash := by
  by_contra hslash
  rw [resolvePathInternal, if_neg hne, if_pos hslash, ite_self] at h
  cases h

theorem nodeAt_normal (hsound : fs.Sound) (hi : fs.mounts i = some m)
    {comps : List Text} (h : fs.tree.roam m.root (comps.map moveOf) = some n) :
    fs.tree.nodeAt m.root (normal comps) = some n :=
  nodeAt_roam (tree_sound hsound hi) nodeAt_nil h

end Fs

end Utms7.Vfs
