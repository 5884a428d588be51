import Mathlib.Data.List.FinRange
import Mathlib.Data.List.TakeWhile
import Utms7.Runs
import Utms7.VfsWalk

/-!
# The mount table

`vfs_mount_fs` and `vfs_unmount` of `kernel/core/vfs.c`, as far as they change the
table: what the file systems do to their nodes meanwhile is left out, and whether a
file system can be mounted, and with which root, is decided from outside.

A run of these calls keeps the mount points apart, so that `find_mount` has one
longest entry to choose, and for paths in normal form the entries it chooses from are
those that name a directory on the way.
-/

namespace Utms7.Vfs

open Function List Option Fs

variable {N : Type*} {path : Text} {m : Mount N}

/-! ## Normal forms -/

/-- The path with the given components. -/
def pathOf (comps : List Text) : Text := if comps = [] then [slash] else Slashes.join slash comps

/-- A path without empty components, `.` and `..`, and without a slash at its end. -/
structure NormalForm (path : Text) : Prop where
  eq : path = pathOf (components path)
  plain : ∀ c ∈ components path, c ≠ [dot] ∧ c ≠ [dot, dot]

instance (path : Text) : Decidable (NormalForm path) :=
  decidable_of_iff (path = pathOf (components path) ∧
      ∀ c ∈ components path, c ≠ [dot] ∧ c ≠ [dot, dot])
    ⟨fun h => ⟨h.1, h.2⟩, fun h => ⟨h.eq, h.plain⟩⟩

/-- A path names a directory on the way to another, or the same one. -/
def OnTheWay (dir path : Text) : Prop := components dir <+: components path

namespace Fs

variable (fs : Fs N)

/-- The last entry in use for a path. -/
def slotOf (path : Text) : Option (Fin 16) :=
  (List.finRange 16).reverse.find? fun i => (fs.mounts i).any fun m => m.path = path

/-- The first entry that is not in use. -/
def freeSlot : Option (Fin 16) := (List.finRange 16).find? fun i => (fs.mounts i).isNone

/-- `vfs_mount_fs`; `root` is what the file system's own `mount` gives. -/
def vfsMountFs (root : Option N) (mountpoint : Text) : Int × Fs N :=
  match root with
  | none => (-1, fs)
  | some root =>
    match (fs.slotOf mountpoint).or fs.freeSlot with
    | none => (-1, fs)
    | some i =>
      (0, { fs with
        mounts := update fs.mounts i (some { path := fit maxName mountpoint, root := root })
        rootNode := if mountpoint = [slash] then some root else fs.rootNode })

/-- The root of the first entry for `/`. -/
def firstRoot : Option N :=
  (List.finRange 16).findSome? fun i =>
    (fs.mounts i).bind fun m => if m.path = [slash] then some m.root else none

/-- `vfs_unmount`. -/
def vfsUnmount (mountpoint : Text) : Int × Fs N :=
  match fs.slotOf mountpoint with
  | none => (-1, fs)
  | some i =>
    let fs := { fs with mounts := update fs.mounts i none }
    (0, if mountpoint = [slash] then { fs with rootNode := fs.firstRoot } else fs)

/-- The mounts of `vfs_init`: a ramfs at `/`, and devfs and procfs if there are such
file systems. -/
def vfsInit (ramfs devfs procfs : Option N) : Int × Fs N :=
  let fs := { fs with
    mounts := fun _ => none
    rootNode := none
    ready := false }
  match fs.vfsMountFs ramfs [slash] with
  | (0, fs) =>
    let fs := { fs with ready := true }
    let fs := (fs.vfsMountFs devfs [slash, 100, 101, 118]).2
    (0, (fs.vfsMountFs procfs [slash, 112, 114, 111, 99]).2)
  | (_, fs) => (-1, fs)

end Fs

/-- A call that changes the table. -/
inductive MountCall (N : Type*)
  | mount (root : Option N) (mountpoint : Text)
  | unmount (mountpoint : Text)

def MountCall.mountpoint : MountCall N → Text
  | mount _ mountpoint => mountpoint
  | unmount mountpoint => mountpoint

def Fs.mountStep (fs : Fs N) : MountCall N → Fs N
  | .mount root mountpoint => (fs.vfsMountFs root mountpoint).2
  | .unmount mountpoint => (fs.vfsUnmount mountpoint).2

/-! ## The entries -/

namespace Fs

variable {fs : Fs N} {i : Fin 16}

theorem slotOf_some (h : fs.slotOf path = some i) : ∃ m, fs.mounts i = some m ∧ m.path = path := by
  have hany : (fs.mounts i).any (fun m => m.path = path) = true := by
    have hfound := find?_some h
    exact hfound
  cases hm : fs.mounts i with
  | none =>
    rw [hm] at hany
    cases hany
  | some m =>
    rw [hm] at hany
    exact ⟨m, rfl, of_decide_eq_true hany⟩

theorem slotOf_none (h : fs.slotOf path = none) (hm : fs.mounts i = some m) : m.path ≠ path := by
  intro hpath
  have hany := find?_eq_none.mp h i (mem_reverse.mpr (mem_finRange i))
  rw [hm] at hany
  exact hany (decide_eq_true hpath)

theorem freeSlot_some (h : fs.freeSlot = some i) : fs.mounts i = none := by
  have hfound := find?_some h
  exact isNone_iff_eq_none.mp hfound

/-- What holds of the table after any calls with mount points in normal form. -/
structure Table (fs : Fs N) : Prop where
  normal : ∀ {i m}, fs.mounts i = some m → NormalForm m.path ∧ m.path.length < maxName
  apart : ∀ {i j m m'}, fs.mounts i = some m → fs.mounts j = some m' → m.path = m'.path → i = j
  root : ∀ {i m}, fs.mounts i = some m → m.path = [slash] → fs.rootNode = some m.root
  noRoot : (∀ i m, fs.mounts i = some m → m.path ≠ [slash]) → fs.rootNode = none

theorem vfsMountFs_cases {root : Option N} {mountpoint : Text} :
    (fs.vfsMountFs root mountpoint).2 = fs ∨
      ∃ r i, ((∃ m, fs.mounts i = some m ∧ m.path = mountpoint) ∨
          fs.mounts i = none ∧ ∀ j m, fs.mounts j = some m → m.path ≠ mountpoint) ∧
        (fs.vfsMountFs root mountpoint).2 = { fs with
          mounts := update fs.mounts i (some { path := fit maxName mountpoint, root := r })
          rootNode := if mountpoint = [slash] then some r else fs.rootNode } := by
  unfold vfsMountFs
  cases root with
  | none => exact .inl rfl
  | some r =>
    cases hold : fs.slotOf mountpoint with
    | some i => exact .inr ⟨r, i, .inl (slotOf_some hold), rfl⟩
    | none =>
      cases hfree : fs.freeSlot with
      | none => exact .inl rfl
      | some i =>
        exact .inr ⟨r, i, .inr ⟨freeSlot_some hfree, fun j m hm => slotOf_none hold hm⟩, rfl⟩

/-- An entry after one of them was written. -/
theorem update_some {e : Option (Mount N)} {j : Fin 16} (h : update fs.mounts i e j = some m) :
    (j = i ∧ e = some m) ∨ (j ≠ i ∧ fs.mounts j = some m) := by
  by_cases hj : j = i
  · subst hj
    rw [update_self] at h
    exact .inl ⟨rfl, h⟩
  · rw [update_of_ne hj] at h
    exact .inr ⟨hj, h⟩

/-- A mount keeps the table: a second mount at one place takes the entry of the first. -/
theorem Table.mount (h : fs.Table) (root : Option N) {mountpoint : Text}
    (hnormal : NormalForm mountpoint) (hlen : mountpoint.length < maxName) :
    (fs.vfsMountFs root mountpoint).2.Table := by
  rcases vfsMountFs_cases with heq | ⟨r, i, hslot, heq⟩
  · rw [heq]
    exact h
  have hfit : fit maxName mountpoint = mountpoint := by
    refine take_of_length_le ?_
    omega
  -- No other entry has the mount point.
  have halone : ∀ j m, j ≠ i → fs.mounts j = some m → m.path ≠ mountpoint := by
    intro j m hj hm hpath
    rcases hslot with ⟨m', hm', hpath'⟩ | ⟨-, hnone⟩
    · exact hj (h.apart hm hm' (hpath.trans hpath'.symm))
    · exact hnone j m hm hpath
  rw [heq, hfit]
  constructor
  · intro j m hm
    rcases update_some hm with ⟨-, he⟩ | ⟨-, hold⟩
    · rw [← some.inj he]
      exact ⟨hnormal, hlen⟩
    · exact h.normal hold
  · intro j k m m' hm hm' hpath
    rcases update_some hm with ⟨rfl, he⟩ | ⟨hj, hold⟩
    · rcases update_some hm' with ⟨rfl, -⟩ | ⟨hk, hold'⟩
      · rfl
      · rw [← some.inj he] at hpath
        exact absurd hpath.symm (halone k m' hk hold')
    · rcases update_some hm' with ⟨rfl, he'⟩ | ⟨hk, hold'⟩
      · rw [← some.inj he'] at hpath
        exact absurd hpath (halone j m hj hold)
      · exact h.apart hold hold' hpath
  · intro j m hm hpath
    rcases update_some hm with ⟨rfl, he⟩ | ⟨hj, hold⟩
    · rw [← some.inj he] at hpath ⊢
      exact if_pos hpath
    · have hne : mountpoint ≠ [slash] := fun heq => halone j m hj hold (hpath.trans heq.symm)
      exact (if_neg hne).trans (h.root hold hpath)
  · intro hnone
    have hself : update fs.mounts i (some { path := mountpoint, root := r }) i =
        some { path := mountpoint, root := r } := update_self ..
    have hne : mountpoint ≠ [slash] := hnone i _ hself
    refine (if_neg hne).trans (h.noRoot fun j m hm hpath => ?_)
    have hj : j ≠ i := by
      rintro rfl
      rcases hslot with ⟨m', hm', hpath'⟩ | ⟨hfree, -⟩
      · rw [hm, some.injEq] at hm'
        rw [← hm', hpath] at hpath'
        exact hne hpath'.symm
      · cases hfree.symm.trans hm
    exact hnone j m ((update_of_ne hj ..).trans hm) hpath

theorem firstRoot_none (h : ∀ i m, fs.mounts i = some m → m.path ≠ [slash]) :
    fs.firstRoot = none := by
  refine findSome?_eq_none_iff.mpr fun i _ => ?_
  cases hm : fs.mounts i with
  | none => rfl
  | some m => exact if_neg (h i m hm)

theorem Table.unmount (h : fs.Table) (mountpoint : Text) : (fs.vfsUnmount mountpoint).2.Table := by
  unfold vfsUnmount
  cases hslot : fs.slotOf mountpoint with
  | none => exact h
  | some i =>
    obtain ⟨m0, hm0, hpath0⟩ := slotOf_some hslot
    have hold : ∀ {j m}, update fs.mounts i none j = some m →
        j ≠ i ∧ fs.mounts j = some m := by
      intro j m hm
      rcases update_some hm with ⟨-, he⟩ | hold
      · cases he
      · exact hold
    have hother : ∀ j m, update fs.mounts i none j = some m → m.path ≠ mountpoint := by
      intro j m hm hpath
      exact (hold hm).1 (h.apart (hold hm).2 hm0 (hpath.trans hpath0.symm))
    dsimp only
    split
    · next hroot =>
      rw [hroot] at hother
      constructor
      · exact fun hm => h.normal (hold hm).2
      · exact fun hm hm' => h.apart (hold hm).2 (hold hm').2
      · exact fun hm hpath => absurd hpath (hother _ _ hm)
      · exact fun hnone => firstRoot_none hnone
    · next hroot =>
      constructor
      · exact fun hm => h.normal (hold hm).2
      · exact fun hm hm' => h.apart (hold hm).2 (hold hm').2
      · exact fun hm => h.root (hold hm).2
      · intro hnone
        refine h.noRoot fun j m hm hpath => ?_
        have hj : j ≠ i := by
          rintro rfl
          obtain rfl := some.inj (hm0.symm.trans hm)
          exact hroot (hpath0.symm.trans hpath)
        exact hnone j m ((update_of_ne hj ..).trans hm) hpath

theorem Table.step (h : fs.Table) (c : MountCall N) (hnormal : NormalForm c.mountpoint)
    (hlen : c.mountpoint.length < maxName) : (fs.mountStep c).Table := by
  cases c with
  | mount root mountpoint => exact h.mount root hnormal hlen
  | unmount mountpoint => exact h.unmount mountpoint

theorem table_vfsInit {fs : Fs N} {ramfs devfs procfs : Option N} :
    (fs.vfsInit ramfs devfs procfs).2.Table := by
  have hempty : ({ fs with mounts := fun _ => none, rootNode := none, ready := false } :
      Fs N).Table :=
    ⟨nofun, nofun, nofun, fun _ => rfl⟩
  have hslash : NormalForm [slash] := by decide
  have hroot := hempty.mount ramfs hslash (by decide)
  have hready : ∀ {fs : Fs N}, fs.Table → ({ fs with ready := true } : Fs N).Table :=
    fun h => ⟨h.normal, h.apart, h.root, h.noRoot⟩
  unfold vfsInit
  dsimp only
  generalize ({ fs with mounts := fun _ => none, rootNode := none, ready := false } :
    Fs N).vfsMountFs
    ramfs [slash] = r at hroot ⊢
  obtain ⟨c, fs1⟩ := r
  split
  · next heq =>
    obtain rfl : fs1 = _ := (Prod.mk.inj heq).2
    exact ((hready hroot).mount devfs (by decide) (by decide)).mount procfs (by decide) (by decide)
  · next heq =>
    obtain rfl : fs1 = _ := (Prod.mk.inj heq).2
    exact hroot

end Fs

/-! ## The selection -/

theorem NormalForm.head (h : NormalForm path) : ∃ rest, path = slash :: rest := by
  rw [h.eq]
  unfold pathOf
  split
  · exact ⟨[], rfl⟩
  · next hne =>
    cases hcomps : components path with
    | nil => exact absurd hcomps hne
    | cons c comps => exact ⟨_, Slashes.join_cons c comps⟩

/-- **Which mounts cover a path**: those of the directories on the way. -/
theorem covers_iff (hm : NormalForm m.path) (hpath : NormalForm path) :
    m.covers path = true ↔ OnTheWay m.path path := by
  unfold Mount.covers OnTheWay
  rw [Bool.and_eq_true, isPrefixOf_iff_prefix, Bool.or_eq_true, Bool.or_eq_true, beq_iff_eq,
    beq_iff_eq, beq_iff_eq]
  constructor
  · rintro ⟨⟨rest, rfl⟩, hend⟩
    -- The rest is empty or goes on with a slash, or the mount is the root.
    have hcomps : rest = [] ∨ (∃ r, rest = slash :: r) ∨ m.path = [slash] := by
      rcases hend with (hlen | hslash) | hone
      · rw [length_append] at hlen
        exact .inl (eq_nil_of_length_eq_zero (by omega))
      · rw [getElem?_append_right (le_refl _), Nat.sub_self] at hslash
        cases rest with
        | nil => cases hslash
        | cons c r => exact .inr (.inl ⟨r, by rw [some.inj hslash]⟩)
      · obtain ⟨tail, htail⟩ := hm.head
        rw [htail, length_cons] at hone
        rw [htail, eq_nil_of_length_eq_zero (l := tail) (by omega)]
        exact .inr (.inr rfl)
    rcases hcomps with rfl | ⟨r, rfl⟩ | hroot
    · rw [append_nil]
    · exact ⟨components r, (Slashes.words_append_sep m.path r).symm⟩
    · rw [hroot]
      exact nil_prefix
  · rintro ⟨rest, hrest⟩
    by_cases hroot : components m.path = []
    · have hslash : m.path = [slash] := by rw [hm.eq, hroot]; rfl
      obtain ⟨tail, htail⟩ := hpath.head
      rw [hslash, htail]
      exact ⟨⟨tail, rfl⟩, .inr rfl⟩
    · have hne : components path ≠ [] := by
        rw [← hrest]
        exact append_ne_nil_of_left_ne_nil hroot rest
      have hpathEq : path = m.path ++ Slashes.join slash rest := by
        rw [hpath.eq, hm.eq, pathOf, pathOf, if_neg hroot, if_neg hne, ← hrest, Slashes.join,
          flatMap_append]
        rfl
      rw [hpathEq]
      refine ⟨prefix_append _ _, .inl ?_⟩
      cases rest with
      | nil => exact .inl (congrArg List.length (append_nil _))
      | cons c rest =>
        right
        rw [getElem?_append_right (le_refl _), Nat.sub_self]
        rfl

theorem foldl_betterMount_none {es : List (Option (Mount N))} {best : Option (Mount N)}
    (h : es.foldl (betterMount path) best = none) :
    best = none ∧ ∀ m, some m ∈ es → m.covers path = true → m.path = [] := by
  induction es generalizing best with
  | nil => exact ⟨h, fun m hm => absurd hm not_mem_nil⟩
  | cons e es ih =>
    obtain ⟨hnone, hrest⟩ := ih h
    have hhead : best = none ∧ ∀ m, e = some m → m.covers path = true → m.path = [] := by
      cases e with
      | none => exact ⟨hnone, nofun⟩
      | some x =>
        rw [betterMount] at hnone
        split at hnone
        · cases hnone
        next hx =>
        subst hnone
        refine ⟨rfl, fun m hm hcovers => ?_⟩
        rw [← some.inj hm] at hcovers ⊢
        refine eq_nil_of_length_eq_zero (Nat.eq_zero_of_not_pos fun hpos => ?_)
        exact hx ⟨hcovers, hpos⟩
    refine ⟨hhead.1, fun m hm hcovers => ?_⟩
    rcases mem_cons.mp hm with he | hmem
    · exact hhead.2 m he.symm hcovers
    · exact hrest m hmem hcovers

theorem relative_spec (hcovers : m.covers path = true) :
    ∃ lead, (∀ c ∈ lead, c = slash) ∧ path = m.path ++ lead ++ relative m path ∧
      (relative m path).head? ≠ some slash := by
  obtain ⟨rest, hrest⟩ := isPrefixOf_iff_prefix.mp (Bool.and_eq_true_iff.mp hcovers).1
  have hrelative : relative m path = rest.dropWhile (· = slash) := by
    rw [relative, ← hrest, drop_left]
  refine ⟨rest.takeWhile (· = slash), ?_, ?_, ?_⟩
  · intro c hc
    have hslash := mem_takeWhile_imp hc
    exact of_decide_eq_true hslash
  · rw [hrelative, append_assoc, takeWhile_append_dropWhile, hrest]
  · intro hhead
    rw [hrelative] at hhead
    have hnot := head?_dropWhile_not (· = slash) rest
    rw [hhead] at hnot
    exact absurd hnot (by decide)

/-- `find_mount` is right about a path. -/
structure Selects (fs : Fs N) (path : Text) : Prop where
  used : ∀ {m}, fs.findMount path = some m → ∃ i, fs.mounts i = some m
  way : ∀ {m}, fs.findMount path = some m → OnTheWay m.path path
  longest : ∀ {m}, fs.findMount path = some m → ∀ {i m'}, fs.mounts i = some m' →
    OnTheWay m'.path path → m'.path.length ≤ m.path.length
  rest : ∀ {m}, fs.findMount path = some m → ∃ lead, (∀ c ∈ lead, c = slash) ∧
    path = m.path ++ lead ++ Fs.relative m path ∧ (Fs.relative m path).head? ≠ some slash
  none : fs.findMount path = none ↔ ∀ i m, fs.mounts i = some m → ¬OnTheWay m.path path

theorem Fs.Table.selects {fs : Fs N} (h : fs.Table) (hpath : NormalForm path) :
    Selects fs path where
  used hm := (findMount_some hm).1
  way hm := by
    obtain ⟨⟨i, hi⟩, hcovers⟩ := findMount_some hm
    exact (covers_iff (h.normal hi).1 hpath).mp hcovers
  longest hm i m' hi hway :=
    findMount_longest hm hi ((covers_iff (h.normal hi).1 hpath).mpr hway)
  rest hm := relative_spec (findMount_some hm).2
  none := by
    constructor
    · intro hnone i m hi hway
      have hempty := (foldl_betterMount_none hnone).2 m (mem_mounts.mpr ⟨i, hi⟩)
        ((covers_iff (h.normal hi).1 hpath).mpr hway)
      obtain ⟨rest, hrest⟩ := (h.normal hi).1.head
      cases hempty.symm.trans hrest
    · intro hnone
      cases hm : fs.findMount path with
      | none => rfl
      | some m =>
        obtain ⟨⟨i, hi⟩, hcovers⟩ := findMount_some hm
        exact absurd ((covers_iff (h.normal hi).1 hpath).mp hcovers) (hnone i m hi)

/-- **The mount table.**  After `vfs_init` and any calls with mount points in normal
form, no two entries in use have one path, `root_node` is the root of the entry for
`/`, and for every path in normal form `find_mount` selects the longest entry on the
way. -/
theorem mount_selection (fs : Fs N) (ramfs devfs procfs : Option N) {calls : List (MountCall N)}
    (hcalls : ∀ c ∈ calls, NormalForm c.mountpoint ∧ c.mountpoint.length < maxName) :
    let s := Runs.run Fs.mountStep (fs.vfsInit ramfs devfs procfs).2 calls
    (∀ {i j m m'}, s.mounts i = some m → s.mounts j = some m' → m.path = m'.path → i = j) ∧
      (∀ {i m}, s.mounts i = some m → m.path = [slash] → s.rootNode = some m.root) ∧
      ((∀ i m, s.mounts i = some m → m.path ≠ [slash]) → s.rootNode = none) ∧
      ∀ path, NormalForm path → Selects s path := by
  intro s
  have hguard : Runs.Guarded mountStep
      (fun _ c => NormalForm c.mountpoint ∧ c.mountpoint.length < maxName)
      (fs.vfsInit ramfs devfs procfs).2 calls := Runs.guarded_of_forall hcalls _
  have htable : s.Table := hguard.invariant (fun t c ht hc => ht.step c hc.1 hc.2)
    (table_vfsInit)
  exact ⟨htable.apart, htable.root, htable.noRoot, fun path hpath => htable.selects hpath⟩

/-- No nodes, no mounts. -/
def blankFs : Fs Nat where
  kind _ := .dir
  name _ := []
  link _ := []
  parent _ := none
  children _ := []
  mounts _ := none
  rootNode := none
  ready := false

/-- A file system at `/mnt` that is mounted a second time. -/
def mntCalls : List (MountCall Nat) :=
  [.mount (some 3) [slash, 109, 110, 116], .mount (some 4) [slash, 109, 110, 116]]

theorem mount_selection_mnt :
    (∀ c ∈ mntCalls, NormalForm c.mountpoint ∧ c.mountpoint.length < maxName) ∧
      Selects (Runs.run Fs.mountStep (blankFs.vfsInit (some 0) (some 1) (some 2)).2 mntCalls)
        [slash, 109, 110, 116, slash, 97] := by
  have hcalls : ∀ c ∈ mntCalls, NormalForm c.mountpoint ∧ c.mountpoint.length < maxName := by decide
  exact ⟨hcalls, (mount_selection blankFs (some 0) (some 1) (some 2) hcalls).2.2.2 _ (by decide)⟩

end Utms7.Vfs
