import Utms7.VfsWalk

/-!
# Confinement

`sys_chroot` stores the path of a directory, and `vfs_resolve_path` puts that path in
front of every path of the process.  The components behind it may climb: `..` at the
directory itself is a step to its parent.  A path stays inside exactly if the place it
leads to still has the place of the directory in front, or if it runs into a file
system that is mounted below the directory.
-/

namespace Utms7.Vfs

open NamedTree List Slashes Fs

variable {N : Type*} {comp w path rest dir : Text} {comps parts : List Text} {p : Process}
  {m : Mount N} {fs : Fs N}

/-! ## Normal forms -/

theorem normal_snoc (comps : List Text) (comp : Text) :
    normal (comps ++ [comp]) = place (normal comps) (moveOf comp) := by
  rw [normal, map_append, places_append]
  rfl

theorem mem_place {p : List Text} (hw : w ∈ place p (moveOf comp)) : w ∈ p ∨ w = comp := by
  unfold moveOf at hw
  split at hw
  · exact .inl hw
  · split at hw
    · exact .inl (mem_of_mem_dropLast hw)
    · rcases mem_append.mp hw with h | h
      · exact .inl h
      · exact .inr (mem_singleton.mp h)

/-- A normal form has only names of the path in it. -/
theorem mem_normal (hw : w ∈ normal comps) : w ∈ comps := by
  induction comps using List.reverseRecOn with
  | nil => exact hw
  | append_singleton comps comp ih =>
    rw [normal_snoc] at hw
    rcases mem_place hw with h | rfl
    · exact mem_append_left _ (ih h)
    · exact mem_append_right _ (mem_singleton_self w)

theorem length_join_append (ws ws' : List Text) : (join slash (ws ++ ws')).length =
      (join slash ws).length + (join slash ws').length := by
  rw [join, flatMap_append, length_append]
  rfl

theorem length_join_place (p : List Text) (comp : Text) :
    (join slash (place p (moveOf comp))).length ≤
      (join slash p).length + (join slash [comp]).length := by
  unfold moveOf
  split
  · exact Nat.le_add_right _ _
  split
  · cases p using List.reverseRecOn with
    | nil => exact Nat.zero_le _
    | append_singleton p a =>
      rw [place, dropLast_concat, length_join_append]
      omega
  · exact (length_join_append p [comp]).le

theorem length_join_normal (comps : List Text) :
    (join slash (normal comps)).length ≤ (join slash comps).length := by
  induction comps using List.reverseRecOn with
  | nil => exact le_refl _
  | append_singleton comps comp ih =>
    have hplace := length_join_place (normal comps) comp
    rw [normal_snoc, length_join_append]
    omega

/-- The path of a place. -/
def absolute (place : List Text) : Text := Slashes.join slash place

/-- The names on the stack of `normalize_path` are never too many. -/
def Shallow (comps : List Text) : Prop := ∀ pre, pre <+: comps → (normal pre).length ≤ 64

theorem length_place (p : List Text) (m : Move Text) : (place p m).length ≤ p.length + 1 := by
  cases m with
  | stay => exact Nat.le_succ _
  | up => exact (dropLast_sublist p).length_le.trans (Nat.le_succ _)
  | down a => exact length_append.le

theorem length_normal_le (comps : List Text) : (normal comps).length ≤ comps.length := by
  induction comps using List.reverseRecOn with
  | nil => exact le_refl _
  | append_singleton comps comp ih =>
    have hplace := length_place (normal comps) (moveOf comp)
    rw [normal_snoc, length_append, length_singleton]
    omega

/-- A path of few components is never too deep. -/
theorem shallow_of_length (h : comps.length ≤ 64) : Shallow comps :=
  fun pre hpre => (length_normal_le pre).trans (hpre.length_le.trans h)

theorem pushPart_eq (hlen : comp.length < 256) (hroom : (place parts (moveOf comp)).length ≤ 64) :
    pushPart parts comp = place parts (moveOf comp) := by
  unfold pushPart
  split
  · next hup =>
    subst hup
    rfl
  next hup =>
  split
  · next hdot =>
    subst hdot
    rfl
  · next hdot =>
    have hmove : moveOf comp = .down comp := by rw [moveOf, if_neg hdot, if_neg hup]
    rw [hmove, place, length_append, length_singleton] at hroom
    rw [if_pos (by omega), hmove, fit, take_of_length_le (by omega)]
    rfl

/-- **The stack of `normalize_path`** holds the normal form. -/
theorem foldl_pushPart (hlen : ∀ c ∈ comps, c.length < 256) (hshallow : Shallow comps) :
    comps.foldl pushPart [] = normal comps := by
  induction comps using List.reverseRecOn with
  | nil => rfl
  | append_singleton comps comp ih =>
    have hinit := ih (fun c hc => hlen c (mem_append_left _ hc))
      fun pre hpre => hshallow pre (hpre.trans (prefix_append _ _))
    have hroom := hshallow _ (prefix_refl _)
    rw [normal_snoc] at hroom
    rw [foldl_append, hinit, normal_snoc]
    exact pushPart_eq (hlen comp (mem_append_right _ (mem_singleton_self comp))) hroom

theorem joinParts_eq {size pos : Nat} (hlen : pos + (join slash parts).length < size - 1) :
    joinParts size pos parts = absolute parts := by
  induction parts generalizing pos with
  | nil => rfl
  | cons part parts ih =>
    rw [join_cons, length_cons, length_append] at hlen
    rw [joinParts, if_neg (by omega), ih (by omega), absolute, absolute, join_cons,
      cons_append]

/-- The text of a place: the root is a single slash. -/
def text (ps : List Text) : Text := if ps = [] then [slash] else absolute ps

theorem length_component (hc : comp ∈ components path) : comp.length ≤ path.length := by
  have hword : comp.length + 1 ≤ _ := length_le_join slash hc
  have hwords := length_join_words slash path
  rw [components] at hword
  omega

/-- **`normalize_path`** writes the normal form of a path that is never too deep, if there
is room for it. -/
theorem normalizePath_text (hlen : path.length < 256) (hshallow : Shallow (components path))
    (hroom : (absolute (normal (components path))).length < 255) :
    normalizePath true 256 path = text (normal (components path)) := by
  have hfit : fit 1024 path = path := take_of_length_le (by omega)
  have hshort : ∀ c ∈ components path, c.length < 256 := fun c hc =>
    (length_component hc).trans_lt hlen
  unfold normalizePath text
  rw [if_neg (by decide), hfit, foldl_pushPart hshort hshallow]
  dsimp only
  split
  · rfl
  · exact joinParts_eq (by rwa [Nat.zero_add])

/-! ## The directory -/

/-- A path as it is meant, whatever its length. -/
def absolutePath (p : Process) (path : Text) : Text :=
  if path.head? = some slash then path
  else if p.currentDir = [] ∨ p.currentDir = [slash] then slash :: path
  else p.currentDir ++ slash :: path

/-- The path of the directory that `sys_chroot` is asked for, whatever its length. -/
def fullPath (p : Process) (path : Text) : Text :=
  if p.chrootPath ≠ [] ∧ p.chrootPath ≠ [slash] ∧ (absolutePath p path).head? = some slash then
    if absolutePath p path = [slash] then p.chrootPath else p.chrootPath ++ absolutePath p path
  else absolutePath p path

/-- The directory that `sys_chroot` is asked for. -/
def directory (p : Process) (path : Text) : Text :=
  absolute (normal (components (fullPath p path)))

theorem makeAbsolutePath_eq (p : Process) (size : Nat) (path : Text) :
    makeAbsolutePath p size path = fit size (absolutePath p path) := by
  unfold makeAbsolutePath absolutePath
  by_cases hslash : path.head? = some slash
  · rw [if_pos hslash, if_pos hslash]
  rw [if_neg hslash, if_neg hslash]
  by_cases hempty : p.currentDir = []
  · have hor : p.currentDir = [] ∨ p.currentDir = [slash] := .inl hempty
    rw [if_pos hor, if_pos hempty]
    exact if_pos rfl
  rw [if_neg hempty]
  by_cases hroot : p.currentDir = [slash]
  · have hor : p.currentDir = [] ∨ p.currentDir = [slash] := .inr hroot
    rw [if_pos hor]
    exact if_pos hroot
  · rw [if_neg (not_or.mpr ⟨hempty, hroot⟩)]
    exact if_neg hroot

theorem length_le_absolutePath (p : Process) (path : Text) :
    path.length ≤ (absolutePath p path).length := by
  unfold absolutePath
  split
  · exact le_refl _
  · split
    · exact Nat.le_succ _
    · rw [length_append, length_cons]
      omega

theorem absolutePath_le_fullPath (p : Process) (path : Text) :
    (absolutePath p path).length ≤ (fullPath p path).length := by
  unfold fullPath
  split
  · next h =>
    split
    · next hroot =>
      rw [hroot]
      exact length_pos_of_ne_nil h.1
    · rw [length_append]
      omega
  · exact le_refl _

/-- A short path is used as it is meant. -/
theorem realPath_eq (hlen : (fullPath p path).length < 255) :
    realPath p path = fullPath p path := by
  have hpath := length_le_absolutePath p path
  have habs := absolutePath_le_fullPath p path
  have hcopy : fit 255 path = path := take_of_length_le (by omega)
  have hmake : makeAbsolutePath p 256 (fit 255 path) = absolutePath p path := by
    rw [hcopy, makeAbsolutePath_eq]
    exact take_of_length_le (by omega)
  have hfull : fit 512 (fullPath p path) = fullPath p path := take_of_length_le (by omega)
  rw [← hfull]
  unfold realPath fullPath
  rw [hmake]
  dsimp only
  split
  · split
    · rfl
    · rfl
  · rfl

/-- **What `sys_chroot` stores**, if the path of the directory fits into its buffers. -/
theorem sysChroot_some [DecidableEq N] {p' : Process} (hlen : (fullPath p path).length < 255)
    (hroom : (directory p path).length < 255) (hshallow : Shallow (components (fullPath p path)))
    (hne : normal (components (fullPath p path)) ≠ [])
    (h : (fs.sysChroot true p path).1 = some p') : p'.chrootPath = directory p path := by
  have hnormal : normalizePath true 256 (fullPath p path) = directory p path :=
    (normalizePath_text (by omega) hshallow hroom).trans (if_neg hne)
  unfold sysChroot at h
  rw [realPath_eq hlen, hnormal] at h
  dsimp only at h
  split at h
  · cases h
  · rw [← Option.some.inj h]
    exact take_of_length_le (by omega)

theorem directory_head (hne : normal (components (fullPath p path)) ≠ []) :
    ∃ c rest, directory p path = slash :: c :: rest := by
  have hmem : ∀ w ∈ normal (components (fullPath p path)), w ≠ [] :=
    fun w hw => (mem_words (mem_normal hw)).1
  unfold directory
  cases hnormal : normal (components (fullPath p path)) with
  | nil => exact absurd hnormal hne
  | cons w ws =>
    rw [hnormal] at hmem
    cases w with
    | nil => exact absurd rfl (hmem [] mem_cons_self)
    | cons c w => exact ⟨c, w ++ join slash ws, join_cons _ _⟩

/-! ## Staying inside -/

/-- A node is the directory at a path or below it, also through a mount. -/
def Fs.Inside [DecidableEq N] (fs : Fs N) (dir : Text) (n : N) : Prop :=
  (∃ top, (fs.resolvePathInternal resolveCalls dir).1 = some top ∧ fs.tree.Descends top n) ∨
    ∃ i m, fs.mounts i = some m ∧ dir ++ [slash] <+: m.path ∧ fs.tree.Descends m.root n

/-- A path stays in a directory: it belongs to a mount below the directory, or to the
mount of the directory, which is there, and the place it leads to is below the place of the
directory. -/
def Fs.Stays [DecidableEq N] (fs : Fs N) (dir path : Text) : Prop :=
  ∀ m, fs.findMount path = some m → dir ++ [slash] <+: m.path ∨
    fs.findMount dir = some m ∧ (fs.resolvePathInternal resolveCalls dir).1.isSome ∧
      normal (components (dir.drop m.path.length)) <+:
        normal (components (path.drop m.path.length))

/-- What is put behind the path of a directory begins with a slash. -/
def Continues (rest : Text) : Prop := rest = [] ∨ ∃ r, rest = slash :: r

theorem components_append (hrest : Continues rest) (path : Text) :
    components (path ++ rest) = components path ++ components rest := by
  rcases hrest with rfl | ⟨r, rfl⟩
  · rw [append_nil]
    exact (append_nil _).symm
  · exact (words_append_sep path r).trans
      (congrArg (components path ++ ·) words_sep_cons.symm)

theorem absolutePath_ne_nil {p : Process} {path : Text} : absolutePath p path ≠ [] := by
  unfold absolutePath
  split
  · next h =>
    rintro rfl
    cases h
  · split
    · exact cons_ne_nil _ _
    · exact append_ne_nil_of_right_ne_nil _ (cons_ne_nil _ _)

theorem schedGetChroot_ne_nil (p : Process) : schedGetChroot p ≠ [] := by
  unfold schedGetChroot
  split
  · exact cons_ne_nil _ _
  · assumption

theorem finalPath_ne_nil (p : Process) (path : Text) : finalPath p path ≠ [] := by
  have hfit : ∀ s : Text, s ≠ [] → fit 1024 s ≠ [] := by
    intro s hs hnil
    rw [fit, take_eq_nil_iff] at hnil
    exact hnil.elim (by decide) hs
  unfold finalPath
  dsimp only
  split
  · split
    · exact hfit _ (schedGetChroot_ne_nil p)
    · exact hfit _ (append_ne_nil_of_left_ne_nil (schedGetChroot_ne_nil p) _)
  · rw [makeAbsolutePath_eq]
    exact hfit _ (absolutePath_ne_nil)

theorem length_finalPath (p : Process) (path : Text) : (finalPath p path).length < 1024 := by
  have hfit : ∀ s : Text, (fit 1024 s).length < 1024 := by
    intro s
    rw [fit, length_take]
    omega
  unfold finalPath
  dsimp only
  split
  · split
    · exact hfit _
    · exact hfit _
  · rw [makeAbsolutePath_eq]
    exact hfit _

theorem prefix_of_covers (h : m.covers path = true) : m.path <+: path :=
  isPrefixOf_iff_prefix.mp (Bool.and_eq_true_iff.mp h).1

theorem head_append (hdir : dir.head? = some slash) (rest : Text) :
    (dir ++ rest).head? = some slash := by
  cases dir with
  | nil => cases hdir
  | cons c dir => exact hdir

/-- A node belongs to one mount only. -/
theorem mount_unique {n : N} {m m' : Mount N} {i j : Fin 16} (hsound : fs.Sound)
    (hi : fs.mounts i = some m) (hj : fs.mounts j = some m') (h : fs.tree.Descends m.root n)
    (h' : fs.tree.Descends m'.root n) : m = m' := by
  have hroots := descends_top_unique (hsound.rootParent hi) (hsound.rootParent hj) h h'
  obtain rfl := hsound.roots hi hj hroots
  exact Option.some.inj (hi.symm.trans hj)

section Confinement

variable [DecidableEq N] {fs : Fs N} {n : N}

/-- **Where a path leads**: to a place in the mount it belongs to. -/
theorem resolves_place (hsound : fs.Sound) (hslash : path.head? = some slash)
    (hlen : path.length < 1024) (hn : (fs.resolvePathInternal resolveCalls path).1 = some n) :
    ∃ i m, fs.findMount path = some m ∧ fs.mounts i = some m ∧
      fs.tree.nodeAt m.root (normal (components (path.drop m.path.length))) = some n ∧
      fs.tree.Descends m.root n := by
  obtain ⟨-, m, hm, hroam⟩ := resolvePathInternal_some hsound hslash hlen hn
  obtain ⟨⟨i, hi⟩, -⟩ := findMount_some hm
  have hplace := nodeAt_normal hsound hi hroam
  exact ⟨i, m, hm, hi, hplace,
    (descends_iff_places (tree_sound hsound hi) nodeAt_nil hplace).mpr nil_prefix⟩

/-- A node is inside of a directory exactly if the path to it stays there. -/
theorem inside_iff_stays (hsound : fs.Sound) (hdir : dir.head? = some slash)
    (hdirLen : dir.length < 1024) (hslash : path.head? = some slash) (hlen : path.length < 1024)
    (hn : (fs.resolvePathInternal resolveCalls path).1 = some n) :
    fs.Inside dir n ↔ fs.Stays dir path := by
  obtain ⟨i, m, hm, hi, hplace, habove⟩ := resolves_place hsound hslash hlen hn
  have htree := tree_sound hsound hi
  constructor
  · rintro hinside m₁ hm₁
    obtain rfl : m = m₁ := Option.some.inj (hm.symm.trans hm₁)
    rcases hinside with ⟨top, htop, hdesc⟩ | ⟨j, m', hj, hbelow, hdesc⟩
    · obtain ⟨j, m', hm', hj, hplace', habove'⟩ := resolves_place hsound hdir hdirLen htop
      obtain rfl := mount_unique hsound hi hj habove (hdesc.trans habove')
      refine .inr ⟨hm', by rw [htop]; rfl, ?_⟩
      exact (descends_iff_places htree hplace' hplace).mp hdesc
    · obtain rfl := mount_unique hsound hi hj habove hdesc
      exact .inl hbelow
  · intro hstays
    rcases hstays m hm with hbelow | ⟨hm', htop, hprefix⟩
    · exact .inr ⟨i, m, hi, hbelow, habove⟩
    obtain ⟨top, htop⟩ := Option.isSome_iff_exists.mp htop
    obtain ⟨j, m₁, hm₁, -, hplace', -⟩ := resolves_place hsound hdir hdirLen htop
    obtain rfl : m = m₁ := Option.some.inj (hm'.symm.trans hm₁)
    exact .inl ⟨top, htop, (descends_iff_places htree hplace' hplace).mpr hprefix⟩

/-- **Confinement.**  After `sys_chroot` for a directory other than the root, a path of the
process leads to a node inside of the directory exactly if it stays there, whatever path the
call has stored: where `..` climbs above the directory and the path does not come back, the
process is outside.  What is stored is the path of the directory if that fits into the
buffers of the call and is never too deep. -/
theorem chroot_confines {fs₀ : Fs N} {memory : Bool} {p₀ p : Process} {dirPath : Text}
    (hchroot : (fs₀.sysChroot memory p₀ dirPath).1 = some p)
    (hroot : normal (components (fullPath p₀ dirPath)) ≠ [])
    (hlength : (directory p₀ dirPath).length < 1024) :
    (memory = true → (fullPath p₀ dirPath).length < 255 → (directory p₀ dirPath).length < 255 →
      Shallow (components (fullPath p₀ dirPath)) → p.chrootPath = directory p₀ dirPath) ∧
    ∀ (fs : Fs N) (cwd path : Text) (n : N), fs.Sound →
      (fs.vfsResolvePath { p with currentDir := cwd } path).1 = some n →
        (fs.Inside (directory p₀ dirPath) n ↔
          fs.Stays (directory p₀ dirPath) (finalPath { p with currentDir := cwd } path)) := by
  obtain ⟨c, tail, hdir⟩ := directory_head hroot
  refine ⟨?_, fun fs cwd path n hsound hn => ?_⟩
  · rintro rfl hlen hroom hshallow
    exact sysChroot_some hlen hroom hshallow hroot hchroot
  · have hslash := head_of_resolves (finalPath_ne_nil { p with currentDir := cwd } path) hn
    exact inside_iff_stays hsound (by rw [hdir]; rfl) hlength hslash (length_finalPath _ _) hn

end Confinement

/-- The nodes `/`, `/jail`, `/jail/a` and `/etc`. -/
inductive JailNode
  | root
  | jail
  | a
  | etc
deriving DecidableEq

def JailNode.name : JailNode → Text
  | root => []
  | jail => [106, 97, 105, 108]
  | a => [97]
  | etc => [101, 116, 99]

def JailNode.parent : JailNode → Option JailNode
  | root => none
  | jail => some root
  | a => some jail
  | etc => some root

def JailNode.children : JailNode → List JailNode
  | root => [jail, etc]
  | jail => [a]
  | a => []
  | etc => []

def rootMount : Mount JailNode := { path := [slash], root := .root }

/-- A small system, all of it in the file system at the root. -/
def jailFs : Fs JailNode where
  kind _ := .dir
  name := JailNode.name
  link _ := []
  parent := JailNode.parent
  children := JailNode.children
  mounts i := if i.val = 0 then some rootMount else none
  rootNode := some .root
  ready := true

theorem jailFs_mounts {i : Fin 16} {m : Mount JailNode} (h : jailFs.mounts i = some m) :
    i.val = 0 ∧ m = rootMount := by
  by_cases hi : i.val = 0
  · have hroot : jailFs.mounts i = some rootMount := if_pos hi
    exact ⟨hi, Option.some.inj (h.symm.trans hroot)⟩
  · have hnone : jailFs.mounts i = none := if_neg hi
    cases hnone.symm.trans h

theorem jailFs_sound : jailFs.Sound where
  parent {c d} h := by
    cases d <;> cases c <;> revert h <;> decide
  rootDir _ := rfl
  rootParent h := by
    rw [(jailFs_mounts h).2]
    rfl
  roots h h' _ := Fin.ext ((jailFs_mounts h).1.trans (jailFs_mounts h').1.symm)

def unconfined : Process := { chrootPath := [], currentDir := [slash] }

def jailPath : Text := [slash, 106, 97, 105, 108]

def jailed : Process := { chrootPath := jailPath, currentDir := [slash] }

/-- `/jail` is stored, and `/a/..` leads back to it. -/
theorem chroot_confines_back : jailed.chrootPath = directory unconfined jailPath ∧
    (jailFs.vfsResolvePath jailed [slash, 97, slash, dot, dot]).1 = some .jail ∧
      jailFs.Inside (directory unconfined jailPath) .jail := by
  have hchroot : (jailFs.sysChroot true unconfined jailPath).1 = some jailed := by decide
  have hn : (jailFs.vfsResolvePath jailed [slash, 97, slash, dot, dot]).1 = some .jail := by decide
  have hconfines := chroot_confines hchroot (by decide) (by decide)
  refine ⟨hconfines.1 rfl (by decide) (by decide) (shallow_of_length (by decide)), hn,
    (hconfines.2 jailFs [slash] _ .jail jailFs_sound hn).mpr ?_⟩
  intro m hm
  obtain ⟨⟨i, hi⟩, -⟩ := findMount_some hm
  rw [(jailFs_mounts hi).2]
  exact .inr ⟨rfl, by decide, by decide⟩

/-- `/../etc` leads to `/etc`, outside of `/jail`. -/
theorem climbs_out : jailFs.Sound ∧ (jailFs.sysChroot true unconfined jailPath).1 = some jailed ∧
      (jailFs.vfsResolvePath jailed [slash, dot, dot, slash, 101, 116, 99]).1 = some .etc ∧
      ¬jailFs.Inside (directory unconfined jailPath) .etc := by
  have hn : (jailFs.vfsResolvePath jailed [slash, dot, dot, slash, 101, 116, 99]).1 =
      some .etc := by
    decide
  refine ⟨jailFs_sound, by decide, hn, fun hinside => ?_⟩
  have hstays := (inside_iff_stays jailFs_sound (by decide) (by decide) (by decide) (by decide)
    hn).mp hinside
  rcases hstays rootMount rfl with hbelow | ⟨-, -, hprefix⟩
  · exact absurd hbelow (by decide)
  · exact absurd hprefix (by decide)

end Utms7.Vfs
