import Utms7.VfsChroot
import Utms7.VfsMounts

/-!
# Resolving a path and its normal form

`sys_chdir` and `sys_chroot` store the normal form of a path, and the path itself is
what the caller means.  The two are resolved alike exactly if they belong to the same
mount and lead to the same place behind it: the mount is selected by the characters of
the path, before `..` and repeated slashes are understood, and `..` does not leave the
mount that was selected.
-/

namespace Utms7.Vfs

open NamedTree List Slashes

variable {N : Type*} {comp path rest : Text} {comps : List Text} {p : Process}

/-- A component that is a name. -/
def Plain (comp : Text) : Prop := comp ≠ [dot] ∧ comp ≠ [dot, dot]

theorem moveOf_plain (h : Plain comp) : moveOf comp = .down comp := by
  rw [moveOf, if_neg h.1, if_neg h.2]

theorem map_moveOf (h : ∀ c ∈ comps, Plain c) : comps.map moveOf = comps.map Move.down :=
  map_congr_left fun c hc => moveOf_plain (h c hc)

/-- Names are in normal form. -/
theorem normal_of_plain (h : ∀ c ∈ comps, Plain c) : normal comps = comps := by
  rw [normal, map_moveOf h, places_down, nil_append]

/-! ## What `normalize_path` writes -/

/-- The stack holds words that are names. -/
def Stack (parts : List Text) : Prop := ∀ c ∈ parts, (c ≠ [] ∧ slash ∉ c) ∧ Plain c

theorem plain_fit (h : Plain comp) : Plain (fit 256 comp) := by
  have hshort : ∀ s : Text, s.length ≤ 2 → fit 256 comp = s → comp = s := by
    intro s hs heq
    have hlen : (comp.take 255).length ≤ 2 := by
      rw [show comp.take 255 = s from heq]
      exact hs
    rw [length_take] at hlen
    rw [← heq]
    exact (take_of_length_le (by omega)).symm
  exact ⟨fun heq => h.1 (hshort _ (by decide) heq), fun heq => h.2 (hshort _ (by decide) heq)⟩

theorem Stack.push {parts : List Text} (h : Stack parts) (hword : comp ≠ [] ∧ slash ∉ comp) :
    Stack (pushPart parts comp) := by
  unfold pushPart
  split
  · exact fun c hc => h c (mem_of_mem_dropLast hc)
  next hup =>
  split
  · exact h
  next hdot =>
  split
  · intro c hc
    rcases mem_append.mp hc with hold | hnew
    · exact h c hold
    · rw [mem_singleton.mp hnew]
      refine ⟨⟨?_, fun hmem => hword.2 (mem_of_mem_take hmem)⟩, plain_fit ⟨hdot, hup⟩⟩
      intro hnil
      rw [fit, take_eq_nil_iff] at hnil
      exact hnil.elim (by decide) hword.1
  · exact h

theorem stack_foldl (hwords : ∀ c ∈ comps, c ≠ [] ∧ slash ∉ c) :
    Stack (comps.foldl pushPart []) := by
  induction comps using List.reverseRecOn with
  | nil => exact fun c hc => absurd hc not_mem_nil
  | append_singleton comps comp ih =>
    rw [foldl_append]
    exact (ih fun c hc => hwords c (mem_append_left _ hc)).push
      (hwords comp (mem_append_right _ (mem_singleton_self comp)))

theorem length_join_pushPart (parts : List Text) (comp : Text) :
    (join slash (pushPart parts comp)).length ≤
      (join slash parts).length + (join slash [comp]).length := by
  unfold pushPart
  split
  · cases parts using List.reverseRecOn with
    | nil => exact Nat.zero_le _
    | append_singleton parts a =>
      rw [dropLast_concat, length_join_append]
      omega
  · split
    · exact Nat.le_add_right _ _
    split
    · have hcut : (join slash [fit 256 comp]).length ≤ (join slash [comp]).length := by
        rw [join_cons, join_cons, length_cons, length_cons,
          length_append, length_append, fit, length_take]
        exact Nat.succ_le_succ (Nat.add_le_add_right (Nat.min_le_right _ _) _)
      rw [length_join_append]
      omega
    · exact Nat.le_add_right _ _

theorem length_join_foldl (comps : List Text) :
    (join slash (comps.foldl pushPart [])).length ≤ (join slash comps).length := by
  induction comps using List.reverseRecOn with
  | nil => exact le_refl _
  | append_singleton comps comp ih =>
    have hpush := length_join_pushPart (comps.foldl pushPart []) comp
    rw [foldl_append, length_join_append]
    exact hpush.trans (Nat.add_le_add_right ih _)

/-- The parts that `normalize_path` writes are the first ones. -/
theorem joinParts_first (size pos : Nat) (parts : List Text) :
    ∃ ps, ps <+: parts ∧ joinParts size pos parts = absolute ps ∧
      (ps = [] ∨ pos + (absolute ps).length < size - 1) := by
  induction parts generalizing pos with
  | nil => exact ⟨[], nil_prefix, rfl, .inl rfl⟩
  | cons part parts ih =>
    rw [joinParts]
    split
    · exact ⟨[], nil_prefix, rfl, .inl rfl⟩
    next hroom =>
    obtain ⟨ps, hps, hjoin, hlen⟩ := ih (pos + 1 + part.length)
    have hcons : absolute (part :: ps) = slash :: part ++ absolute ps := join_cons part ps
    refine ⟨part :: ps, cons_prefix_cons.mpr ⟨rfl, hps⟩, by rw [hjoin, hcons], .inr ?_⟩
    rw [hcons, cons_append, length_cons, length_append]
    rcases hlen with rfl | hlen
    · change pos + (part.length + 0 + 1) < size - 1
      omega
    · omega

/-- What `normalize_path` writes are the first names on its stack. -/
theorem normalizePath_first (memory : Bool) (path : Text) :
    ∃ ps, ps <+: (components (fit 1024 path)).foldl pushPart [] ∧ Stack ps ∧
      components (normalizePath memory 256 path) = ps ∧ (absolute ps).length < 255 ∧
      (normalizePath memory 256 path).length < 256 := by
  have hroot : components [slash] = [] := rfl
  unfold normalizePath
  split
  · exact ⟨[], nil_prefix, by simp [Stack], hroot, by decide, by decide⟩
  dsimp only
  split
  · exact ⟨[], nil_prefix, by simp [Stack], hroot, by decide, by decide⟩
  obtain ⟨ps, hps, hjoin, hlen⟩ := joinParts_first 256 0
    ((components (fit 1024 path)).foldl pushPart [])
  have hstack : Stack ps := fun c hc =>
    stack_foldl (fun c hc => mem_words hc) c (hps.subset hc)
  have hshort : (absolute ps).length < 255 := by
    obtain rfl | hlen := hlen
    · decide
    · omega
  rw [hjoin]
  exact ⟨ps, hps, hstack, words_join fun c hc => (hstack c hc).1, hshort, by omega⟩

/-- What `normalize_path` writes is made of names. -/
theorem normalizePath_plain (memory : Bool) (path : Text) :
    ∀ c ∈ components (fit 256 (normalizePath memory 256 path)), Plain c := by
  obtain ⟨ps, -, hstack, hwords, -, hlen⟩ := normalizePath_first memory path
  rw [fit, take_of_length_le (by omega), hwords]
  exact fun c hc => (hstack c hc).2

theorem normalizePath_head {memory : Bool} (hlen : path.length ≤ 250) :
    ∃ rest, normalizePath memory 256 path = slash :: rest ∧ rest.length ≤ 250 := by
  unfold normalizePath
  split
  · exact ⟨[], rfl, Nat.zero_le _⟩
  dsimp only
  split
  · exact ⟨[], rfl, Nat.zero_le _⟩
  next hne =>
  have hfit : fit 1024 path = path := take_of_length_le (by omega)
  have hbound := (length_join_foldl (components path)).trans (length_join_words slash path)
  rw [hfit] at hne ⊢
  rw [joinParts_eq (by omega)]
  cases hparts : (components path).foldl pushPart [] with
  | nil => exact absurd hparts hne
  | cons part parts =>
    rw [hparts, join_cons, length_cons] at hbound
    exact ⟨_, join_cons part parts, by omega⟩

/-- Every name takes two characters at least. -/
theorem two_mul_length_le (h : ∀ c ∈ comps, c ≠ []) :
    2 * comps.length ≤ (absolute comps).length := by
  induction comps with
  | nil => exact Nat.zero_le _
  | cons c comps ih =>
    have hc : 0 < c.length := length_pos_iff.mpr (h c mem_cons_self)
    have hrest := ih fun c' hc' => h c' (mem_cons_of_mem c hc')
    rw [absolute, join_cons, length_cons, length_cons, length_append]
    rw [absolute] at hrest
    omega

/-- One component on the stack of `normalize_path` and in the meaning of a path. -/
theorem pushPart_moveOf (parts : List Text) {comp : Text} :
    (comp = [dot, dot] ∧ pushPart parts comp = parts.dropLast ∧ moveOf comp = .up) ∨
      (pushPart parts comp = parts ∧ moveOf comp = .stay) ∨
      ((pushPart parts comp).length = parts.length + (if parts.length < 64 then 1 else 0) ∧
        moveOf comp = .down comp) := by
  unfold pushPart moveOf
  by_cases hup : comp = [dot, dot]
  · subst hup
    exact .inl ⟨rfl, rfl, rfl⟩
  · by_cases hdot : comp = [dot]
    · subst hdot
      exact .inr (.inl ⟨rfl, rfl⟩)
    · rw [if_neg hup, if_neg hdot, if_neg hdot, if_neg hup]
      refine .inr (.inr ⟨?_, rfl⟩)
      split
      · exact length_append
      · rfl

/-- A component that finds no room on the stack is missing to the end: too few characters
are left to get back to the root. -/
theorem length_pushPart_lt (hwords : ∀ c ∈ comps, c ≠ []) (hlen : (absolute comps).length ≤ 255)
    (hdeep : ¬ Shallow comps) : (comps.foldl pushPart []).length < (normal comps).length ∧
      325 ≤ (absolute comps).length + 3 * (normal comps).length := by
  induction comps using List.reverseRecOn with
  | nil => exact absurd (shallow_of_length (Nat.zero_le _)) hdeep
  | append_singleton comps comp ih =>
    have hsum : (absolute (comps ++ [comp])).length =
        (absolute comps).length + (comp.length + 1) := by
      simp [absolute, join]
    rw [foldl_append, foldl_cons, foldl_nil]
    by_cases hbefore : Shallow comps
    · -- the new component is the first that is lost
      have hshort : ∀ c ∈ comps, c.length < 256 := fun c hc => by
        have hword : c.length + 1 ≤ (absolute comps).length := length_le_join slash hc
        omega
      have hmax := hbefore comps (prefix_refl comps)
      have hover : 64 < (normal (comps ++ [comp])).length := by
        by_contra hroom
        refine hdeep fun pre hpre => ?_
        rcases prefix_concat_iff.mp hpre with rfl | hpre
        · exact Nat.not_lt.mp hroom
        · exact hbefore pre hpre
      have htwo := two_mul_length_le fun c hc => hwords c (mem_normal hc)
      have hle : (absolute (normal (comps ++ [comp]))).length ≤
          (absolute (comps ++ [comp])).length :=
        length_join_normal _
      rw [foldl_pushPart hshort hbefore]
      rw [normal_snoc] at *
      have hplace := length_place (normal comps) (moveOf comp)
      obtain ⟨-, hpush, hmove⟩ | ⟨hpush, hmove⟩ | ⟨hpush, hmove⟩ :=
        pushPart_moveOf (normal comps)
      · rw [hmove, place, length_dropLast] at hover
        omega
      · rw [hmove, place] at hover
        omega
      · rw [if_neg (by omega)] at hpush
        omega
    · obtain ⟨hlost, hfar⟩ := ih (fun c hc => hwords c (mem_append_left _ hc)) (by omega) hbefore
      rw [normal_snoc]
      obtain ⟨hup, hpush, hmove⟩ | ⟨hpush, hmove⟩ | ⟨hpush, hmove⟩ :=
        pushPart_moveOf (comps.foldl pushPart [])
      · rw [hpush, hmove, place, length_dropLast, length_dropLast, hsum, hup]
        simp only [length_cons]
        omega
      · rw [hpush, hmove, place]
        omega
      · rw [hpush, hmove, place, length_append, length_singleton]
        split <;> omega

theorem components_text (h : ∀ c ∈ comps, c ≠ [] ∧ slash ∉ c) :
    components (text comps) = comps := by
  unfold text
  split
  · next hnil => exact hnil.symm
  · exact words_join h

/-- What `normalize_path` is to write for `path`: the place that the path means, as names
with a slash in front of each, and a text that stays as it is. -/
structure Normalizes (path out : Text) : Prop where
  meaning : out = text (normal (components path))
  names : ∃ ps, out = text ps ∧ Stack ps
  short : out.length < 256
  stays : normalizePath true 256 out = out

/-- **`normalize_path` is right exactly if** no part of the path has more than 64 names and
the text has less than 255 characters. -/
theorem normalizePath_right_iff (hlen : rest.length < 255) :
    Normalizes (slash :: rest) (normalizePath true 256 (slash :: rest)) ↔
      Shallow (components (slash :: rest)) ∧
        (absolute (normal (components (slash :: rest)))).length < 255 := by
  have hlen' : (slash :: rest).length < 256 := by
    rw [length_cons]
    omega
  have hwords : ∀ c ∈ components (slash :: rest), c ≠ [] ∧ slash ∉ c := fun c hc => mem_words hc
  have hplace := components_text fun c hc => hwords c (mem_normal hc)
  constructor
  · rintro ⟨hmeaning, -, -, -⟩
    obtain ⟨ps, hps, -, hout, hroom, -⟩ := normalizePath_first true (slash :: rest)
    rw [hmeaning, hplace] at hout
    rw [fit, take_of_length_le (by omega)] at hps
    subst hout
    refine ⟨?_, hroom⟩
    by_contra hdeep
    have hjoin : (absolute (components (slash :: rest))).length ≤ rest.length + 1 := by
      rw [components]
      exact length_join_words slash rest
    have hlt := (length_pushPart_lt (fun c hc => (hwords c hc).1) (by omega) hdeep).1
    exact absurd hps.length_le (Nat.not_le.mpr hlt)
  · rintro ⟨hshallow, hroom⟩
    have hout := normalizePath_text hlen' hshallow hroom
    obtain ⟨ps, -, hnames, hps, -, hshort⟩ := normalizePath_first true (slash :: rest)
    rw [hout] at hps hshort ⊢
    obtain rfl := hplace.symm.trans hps
    have hagain : normal (normal (components (slash :: rest))) =
        normal (components (slash :: rest)) :=
      normal_of_plain fun c hc => (hnames c hc).2
    refine ⟨rfl, ⟨_, rfl, hnames⟩, hshort, ?_⟩
    rw [normalizePath_text hshort, hplace, hagain] <;> rw [hplace]
    · exact shallow_of_length (hshallow _ (prefix_refl _))
    · rwa [hagain]

theorem normalizePath_right_dots :
    Normalizes [slash, 97, slash, dot, dot] (normalizePath true 256 [slash, 97, slash, dot, dot]) :=
  (normalizePath_right_iff (by decide)).mpr ⟨shallow_of_length (by decide), by decide⟩

/-- A name of 254 characters is lost. -/
theorem normalizePath_empty :
    ¬ Normalizes (slash :: replicate 254 97)
      (normalizePath true 256 (slash :: replicate 254 97)) := by
  intro h
  have hempty : normalizePath true 256 (slash :: replicate 254 97) = [] := by decide +kernel
  have hstays := h.stays
  rw [hempty] at hstays
  cases hstays

/-! ## The same place -/

/-- What `sys_chroot` can have stored. -/
def Process.Stored (p : Process) : Prop :=
  p.chrootPath = [] ∨ ∃ memory path, p.chrootPath = fit 256 (normalizePath memory 256 path)

theorem Process.Stored.plain (h : p.Stored) : ∀ c ∈ components (schedGetChroot p), Plain c := by
  unfold schedGetChroot
  split
  · exact fun c hc => absurd hc not_mem_nil
  · next hne =>
    obtain ⟨memory, path, heq⟩ := h.resolve_left hne
    rw [heq]
    exact normalizePath_plain memory path

/-- Two paths belong to one mount and lead to the same place behind it. -/
def Fs.SamePlace (fs : Fs N) (path path' : Text) : Prop :=
  ∃ m, fs.findMount path = some m ∧ fs.findMount path' = some m ∧
    normal (components (path.drop m.path.length)) = normal (components (path'.drop m.path.length))

/-- The path of a process is its own path, or begins with its directory. -/
theorem finalPath_cases {p : Process} (hlen : rest.length + 1 < 1024) :
    (schedGetChroot p = [slash] ∧ finalPath p (slash :: rest) = slash :: rest) ∨
      (schedGetChroot p ≠ [slash] ∧ ∃ tail, Continues tail ∧
        finalPath p (slash :: rest) = fit 1024 (schedGetChroot p ++ tail) ∧
        (tail = [] ∨ tail = slash :: rest)) := by
  have hmake : makeAbsolutePath p 1024 (slash :: rest) = slash :: rest := by
    refine (if_pos rfl).trans ?_
    exact take_of_length_le (by rw [length_cons]; omega)
  have hne := schedGetChroot_ne_nil p
  unfold finalPath
  rw [hmake]
  by_cases hroot : schedGetChroot p = [slash]
  · left
    refine ⟨hroot, if_neg ?_⟩
    exact fun h => h.2.1 hroot
  right
  refine ⟨hroot, ?_⟩
  rw [if_pos ⟨hne, hroot, rfl⟩]
  split
  · exact ⟨[], .inl rfl, by rw [append_nil], .inl rfl⟩
  · exact ⟨slash :: rest, .inr ⟨rest, rfl⟩, rfl, .inr rfl⟩

theorem components_drop {m : Mount N} (hcovers : m.covers path = true)
    (hslash : path.head? = some slash) {c : Text} (hc : c ∈ components (path.drop m.path.length)) :
    c ∈ components path := by
  obtain ⟨rest, rfl⟩ := prefix_of_covers hcovers
  rw [drop_left] at hc
  have hend := (Bool.and_eq_true_iff.mp hcovers).2
  rw [Bool.or_eq_true, Bool.or_eq_true, beq_iff_eq, beq_iff_eq, beq_iff_eq] at hend
  rcases hend with (hlen | hnext) | hone
  · rw [length_append] at hlen
    rw [eq_nil_of_length_eq_zero (l := rest) (by omega)] at hc
    exact absurd hc not_mem_nil
  · rw [getElem?_append_right (le_refl _), Nat.sub_self] at hnext
    cases rest with
    | nil => cases hnext
    | cons x r =>
      rw [getElem?_cons_zero, Option.some.injEq] at hnext
      subst hnext
      rw [components, words_append_sep]
      exact mem_append_right _ (by rwa [components] at hc)
  · obtain ⟨x, hx⟩ := length_eq_one_iff.mp hone
    rw [hx, singleton_append, head?_cons, Option.some.injEq] at hslash
    rw [hx, hslash, singleton_append, components]
    exact hc

theorem Process.Stored.length (h : p.Stored) : (schedGetChroot p).length < 256 := by
  unfold schedGetChroot
  split
  · exact (by decide : 1 < 256)
  · next hne =>
    obtain ⟨memory, path, heq⟩ := h.resolve_left hne
    rw [heq, fit, length_take]
    omega

/-- If one path of a process is a path from the root, so is another, and it is made of
names if its own part is. -/
theorem finalPath_plain (hstored : p.Stored) {rest' : Text} (hlen : rest.length ≤ 250)
    (hslash : (finalPath p (slash :: rest)).head? = some slash) (hlen' : rest'.length ≤ 250)
    (hplain : ∀ c ∈ components (slash :: rest'), Plain c) :
    (finalPath p (slash :: rest')).head? = some slash ∧
      ∀ c ∈ components (finalPath p (slash :: rest')), Plain c := by
  have hroom : ∀ {r : Text}, r.length ≤ 250 → r.length + 1 < 1024 := by omega
  rcases finalPath_cases (hroom hlen') with
    ⟨-, heq'⟩ | ⟨hroot, tail', htail', heq', hform'⟩
  · rw [heq']
    exact ⟨rfl, hplain⟩
  · rcases finalPath_cases (hroom hlen) with
      ⟨hroot', -⟩ | ⟨-, tail, -, heq, -⟩
    · exact absurd hroot' hroot
    have hshort := hstored.length
    have htailLen : tail'.length ≤ 251 := by
      rcases hform' with rfl | rfl
      · exact Nat.zero_le _
      · rw [length_cons]
        omega
    have hfit : fit 1024 (schedGetChroot p ++ tail') = schedGetChroot p ++ tail' :=
      take_of_length_le (by rw [length_append]; omega)
    have hchroot : (schedGetChroot p).head? = some slash := by
      rw [heq] at hslash
      cases hget : schedGetChroot p with
      | nil => exact absurd hget (schedGetChroot_ne_nil p)
      | cons c r =>
        rw [hget] at hslash
        exact hslash
    rw [heq', hfit]
    refine ⟨head_append hchroot tail', fun c hc => ?_⟩
    rw [components_append htail'] at hc
    rcases mem_append.mp hc with h | h
    · exact hstored.plain c h
    · rcases hform' with rfl | rfl
      · exact absurd h not_mem_nil
      · exact hplain c h

section Resolving

variable [DecidableEq N] {fs : Fs N} {path' : Text} {n : N}

theorem head_of_final (hn : (fs.vfsResolvePath p path).1 = some n) :
    (finalPath p path).head? = some slash :=
  Fs.head_of_resolves (finalPath_ne_nil p path) hn

/-- A path of names resolves to a node exactly if a path that does leads to its place. -/
theorem resolves_iff_samePlace (hsound : fs.Sound) (hslash : path.head? = some slash)
    (hlen : path.length < 1024) (hslash' : path'.head? = some slash) (hlen' : path'.length < 1024)
    (hplain : ∀ c ∈ components path', Plain c)
    (hn : (fs.resolvePathInternal resolveCalls path).1 = some n) :
    (fs.resolvePathInternal resolveCalls path').1 = some n ↔ fs.SamePlace path path' := by
  obtain ⟨hready, m, hm, hroam⟩ := Fs.resolvePathInternal_some hsound hslash hlen hn
  obtain ⟨⟨i, hi⟩, -⟩ := Fs.findMount_some hm
  have htree := Fs.tree_sound hsound hi
  have hplace := Fs.nodeAt_normal hsound hi hroam
  constructor
  · intro hn'
    obtain ⟨-, m', hm', hroam'⟩ := Fs.resolvePathInternal_some hsound hslash' hlen' hn'
    obtain ⟨⟨j, hj⟩, -⟩ := Fs.findMount_some hm'
    have htree' := Fs.tree_sound hsound hj
    have hplace' := Fs.nodeAt_normal hsound hj hroam'
    -- Both roots are above the node.
    have hroots : m.root = m'.root :=
      descends_top_unique (hsound.rootParent hi) (hsound.rootParent hj)
        ((descends_iff_places htree nodeAt_nil hplace).mpr nil_prefix)
        ((descends_iff_places htree' nodeAt_nil hplace').mpr nil_prefix)
    have hij := hsound.roots hi hj hroots
    subst hij
    obtain rfl : m = m' := Option.some.inj (hi.symm.trans hj)
    exact ⟨m, hm, hm', nodeAt_inj htree hplace hplace'⟩
  · rintro ⟨m', hm0, hm', heq⟩
    obtain rfl : m = m' := Option.some.inj (hm.symm.trans hm0)
    have hnames : ∀ c ∈ components (path'.drop m.path.length), Plain c := fun c hc =>
      hplain c (components_drop (Fs.findMount_some hm').2 hslash' hc)
    rw [resolveCalls, Fs.resolvePathInternal_eq hsound hready hslash' hlen', hm', Option.bind_some,
      map_moveOf hnames]
    rw [heq, normal_of_plain hnames] at hplace
    exact hplace

/-- **A path and its normal form.**  For a path that resolves, the normal form resolves
to the same node exactly if the two belong to one mount and lead to the same place
behind it. -/
theorem normal_form_resolves_iff (hsound : fs.Sound) {p : Process} (hstored : p.Stored)
    (hslash : path.head? = some slash) (hlength : path.length ≤ 250) (memory : Bool)
    (hn : (fs.vfsResolvePath p path).1 = some n) :
    (fs.vfsResolvePath p (normalizePath memory 256 path)).1 = some n ↔
      fs.SamePlace (finalPath p path) (finalPath p (normalizePath memory 256 path)) := by
  obtain ⟨rest', hnorm, hlen'⟩ := normalizePath_head hlength
  have hplain' : ∀ c ∈ components (slash :: rest'), Plain c := by
    have hfit : fit 256 (slash :: rest') = slash :: rest' :=
      take_of_length_le (by rw [length_cons]; omega)
    have hparts := normalizePath_plain memory path
    rwa [hnorm, hfit] at hparts
  cases path with
  | nil => cases hslash
  | cons c rest =>
    rw [head?_cons, Option.some.injEq] at hslash
    subst hslash
    rw [length_cons] at hlength
    rw [hnorm]
    have hslash := head_of_final hn
    obtain ⟨hslash', hplain⟩ := finalPath_plain hstored (by omega) hslash hlen' hplain'
    exact resolves_iff_samePlace hsound hslash (length_finalPath p _) hslash'
      (length_finalPath p _) hplain hn

end Resolving

/-! ## After `vfs_init` -/

/-- The roots of the three file systems that `vfs_init` mounts, and the directories it
makes. -/
inductive BootNode
  | root
  | tmp
  | devDir
  | dev
  | proc
deriving DecidableEq

def BootNode.name : BootNode → Text
  | root | dev | proc => []
  | tmp => [116, 109, 112]
  | devDir => [100, 101, 118]

def BootNode.parent : BootNode → Option BootNode
  | root | dev | proc => none
  | tmp | devDir => some root

def BootNode.children : BootNode → List BootNode
  | root => [devDir, tmp]
  | tmp | devDir | dev | proc => []

/-- The nodes before the mounts. -/
def bootNodes : Fs BootNode where
  kind _ := .dir
  name := BootNode.name
  link _ := []
  parent := BootNode.parent
  children := BootNode.children
  mounts _ := none
  rootNode := none
  ready := false

def bootFs : Fs BootNode := (bootNodes.vfsInit (some .root) (some .dev) (some .proc)).2

theorem bootFs_mounts {i : Fin 16} {m : Mount BootNode} (h : bootFs.mounts i = some m) :
    bootFs.parent m.root = none ∧ m.root = [BootNode.root, .dev, .proc][i.val]?.getD .tmp := by
  have hall : ∀ i : Fin 16, (bootFs.mounts i).all fun m =>
      bootFs.parent m.root = none ∧ m.root = [BootNode.root, .dev, .proc][i.val]?.getD .tmp := by
    decide
  have hi := hall i
  rw [h] at hi
  exact of_decide_eq_true hi

theorem bootFs_sound : bootFs.Sound where
  parent {c d} h := by
    cases d <;> cases c <;> revert h <;> decide
  rootDir _ := rfl
  rootParent h := (bootFs_mounts h).1
  roots {i j m m'} h h' hroot := by
    have hboth : ∀ i j : Fin 16, (bootFs.mounts i).isSome = true → (bootFs.mounts j).isSome = true →
        [BootNode.root, .dev, .proc][i.val]?.getD .tmp =
          [BootNode.root, .dev, .proc][j.val]?.getD .tmp → i = j := by decide
    refine hboth i j (by rw [h]; rfl) (by rw [h']; rfl) ?_
    rw [← (bootFs_mounts h).2, ← (bootFs_mounts h').2, hroot]

/-- A process that is not confined, in the root directory. -/
def bootProcess : Process := { chrootPath := [], currentDir := [slash] }

/-- `/dev/.` and its normal form `/dev`. -/
theorem normal_form_resolves_iff_dev :
    (bootFs.vfsResolvePath bootProcess [slash, 100, 101, 118, slash, dot]).1 = some .dev ∧
      (bootFs.vfsResolvePath bootProcess
        (normalizePath true 256 [slash, 100, 101, 118, slash, dot])).1 = some .dev := by
  have hn : (bootFs.vfsResolvePath bootProcess [slash, 100, 101, 118, slash, dot]).1 =
      some .dev := by
    decide
  exact ⟨hn, (normal_form_resolves_iff bootFs_sound (.inl rfl) rfl (by decide) true hn).mpr
    ⟨_, rfl, rfl, by decide⟩⟩

/-- `/dev/..` stays in devfs, its normal form `/` does not. -/
theorem dotdot_stays_in_mount : bootFs.Sound ∧
    (∀ path ∈ [[slash], [slash, 100, 101, 118], [slash, 100, 101, 118, slash, dot, dot]],
      (bootFs.vfsIsdir bootProcess path).1 = true) ∧
    (bootFs.vfsResolvePath bootProcess [slash, 100, 101, 118, slash, dot, dot]).1 = some .dev ∧
    (bootFs.vfsResolvePath bootProcess
      (normalizePath true 256 [slash, 100, 101, 118, slash, dot, dot])).1 = some .root :=
  ⟨bootFs_sound, by decide, by decide, by decide⟩

end Utms7.Vfs
