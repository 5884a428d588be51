import Utms7.Descriptors

/-!
# Open files stay valid, and when they do not

Nothing but `sys_open` and `sys_close` counts.  `sys_dup` and `sched_fork` copy
descriptors of nodes that do not learn of it, `sys_dup2` also forgets the node that the
new number referred to, and what `vfs_unlink`, `vfs_rename` and `vfs_unmount` free may
be open.  Runs without such steps keep every open file valid.
-/

namespace Utms7.Vfs

open Function Option Store

variable {N : Type*} {freed : N → Prop} {n : N}

namespace Store

variable {s t u : Store N} {F : N → Prop} {dir child : N}

/-! ## What is freed -/

/-- The nodes of `F` are gone, and nothing else has changed. -/
structure Pruned (s : Store N) (F : N → Prop) (t : Store N) : Prop where
  gone : ∀ m, F m → t.live m = false ∧ t.children m = []
  kept : ∀ m, ¬F m → t.live m = s.live m ∧ t.children m = s.children m
  kind : t.kind = s.kind
  parent : t.parent = s.parent
  mounts : t.mounts = s.mounts
  refcount : t.refcount = s.refcount

theorem Pruned.refl (s : Store N) : s.Pruned (fun _ => False) s :=
  ⟨fun _ h => h.elim, fun _ _ => ⟨rfl, rfl⟩, rfl, rfl, rfl, rfl⟩

theorem Pruned.trans {G : N → Prop} (hst : s.Pruned F t) (htu : t.Pruned G u) :
    s.Pruned (fun m => F m ∨ G m) u where
  gone m hm := by
    by_cases hG : G m
    · exact htu.gone m hG
    · obtain ⟨hlive, hchildren⟩ := htu.kept m hG
      rw [hlive, hchildren]
      exact hst.gone m (hm.resolve_right hG)
  kept m hm := by
    obtain ⟨hlive, hchildren⟩ := htu.kept m fun hG => hm (.inr hG)
    rw [hlive, hchildren]
    exact hst.kept m fun hF => hm (.inl hF)
  kind := htu.kind.trans hst.kind
  parent := htu.parent.trans hst.parent
  mounts := htu.mounts.trans hst.mounts
  refcount := htu.refcount.trans hst.refcount

theorem Pruned.subset (h : s.Pruned F t) {d c : N} (hc : c ∈ t.children d) :
    ¬F d ∧ c ∈ s.children d := by
  have hd : ¬F d := by
    intro hF
    rw [(h.gone d hF).2] at hc
    cases hc
  exact ⟨hd, (h.kept d hd).2 ▸ hc⟩

theorem Pruned.reaches (h : s.Pruned F t) {m : N} (hm : t.Reaches n m) :
    s.Reaches n m := Relation.ReflTransGen.mono (fun _ _ hc => (h.subset hc).2) _ _ hm

/-- A set of nodes from `top` down: a node is in it with its parent only. -/
structure FromTop (s : Store N) (top : N → Prop) (F : N → Prop) : Prop where
  below : ∀ m, F m → ∃ n, top n ∧ s.Reaches n m
  closed : ∀ m, F m → top m ∨ ∃ d, F d ∧ m ∈ s.children d

/-- What a depth of `ramfs_free_node` frees. -/
theorem freeBelow_pruned [DecidableEq N] {depth : Nat} (s : Store N) (n : N) :
    ∃ F, s.Pruned F (freeBelow depth s n) ∧ s.FromTop (· = n) F := by
  induction depth generalizing s n with
  | zero => exact ⟨_, .refl s, fun _ h => h.elim, fun _ h => h.elim⟩
  | succ depth ih =>
    -- The loop over the children, with the nodes that are gone already.
    have hloop : ∀ (l : List N) (t : Store N) (F : N → Prop), s.Pruned F t →
        s.FromTop (· ∈ s.children n) F → (∀ c ∈ l, c ∈ s.children n) →
        ∃ G, s.Pruned G (l.foldl (freeBelow depth) t) ∧ s.FromTop (· ∈ s.children n) G := by
      intro l
      induction l with
      | nil => exact fun t F ht hF _ => ⟨F, ht, hF⟩
      | cons c l ihl =>
        intro t F ht hF hl
        obtain ⟨G, hG, htop⟩ := ih t c
        have hc : c ∈ s.children n := hl c List.mem_cons_self
        refine ihl _ _ (ht.trans hG) ⟨?_, ?_⟩ fun c' hc' => hl c' (List.mem_cons_of_mem c hc')
        · rintro m (hm | hm)
          · exact hF.below m hm
          · obtain ⟨n', rfl, hreach⟩ := htop.below m hm
            exact ⟨n', hc, ht.reaches hreach⟩
        · rintro m (hm | hm)
          · refine (hF.closed m hm).imp_right ?_
            rintro ⟨d, hd, hmem⟩
            exact ⟨d, .inl hd, hmem⟩
          · rcases htop.closed m hm with rfl | ⟨d, hd, hmem⟩
            · exact .inl hc
            · exact .inr ⟨d, .inr hd, (ht.subset hmem).2⟩
    obtain ⟨G, hG, htop⟩ := hloop (s.children n) s _ (.refl s)
      ⟨fun _ h => h.elim, fun _ h => h.elim⟩ fun _ hc => hc
    have hlast : (Store.Pruned ((s.children n).foldl (freeBelow depth) s) (· = n)
        (freeBelow (depth + 1) s n)) := by
      refine ⟨?_, ?_, rfl, rfl, rfl, rfl⟩
      · rintro m rfl
        exact ⟨update_self .., update_self ..⟩
      · intro m hm
        exact ⟨update_of_ne hm .., update_of_ne hm ..⟩
    refine ⟨_, hG.trans hlast, ?_, ?_⟩
    · rintro m (hm | rfl)
      · obtain ⟨c, hc, hreach⟩ := htop.below m hm
        exact ⟨n, rfl, .head hc hreach⟩
      · exact ⟨m, rfl, .refl⟩
    · rintro m (hm | rfl)
      · rcases htop.closed m hm with hc | ⟨d, hd, hmem⟩
        · exact .inr ⟨n, .inr rfl, hc⟩
        · exact .inr ⟨d, .inl hd, hmem⟩
      · exact .inl rfl

/-- The links between what is left, where a root and all below it are gone. -/
theorem Pruned.linked (h : s.Linked) {i : Fin 16} {m : Mount N} (hi : s.mounts i = some m)
    (ht : s.Pruned F t) (htop : s.FromTop (· = m.root) F)
    (hu : u.children = t.children ∧ u.live = t.live ∧ u.kind = t.kind ∧ u.parent = t.parent)
    (hmounts : ∀ {j m'}, u.mounts j = some m' → j ≠ i ∧ s.mounts j = some m') : u.Linked := by
  obtain ⟨hchildren, hlive, hkind, hparent⟩ := hu
  have hroot : ∀ {j m'}, u.mounts j = some m' → ¬F m'.root := by
    intro j m' hm' hF
    obtain ⟨hne, hj⟩ := hmounts hm'
    rcases htop.closed _ hF with heq | ⟨d, -, hmem⟩
    · exact hne (h.sound.roots hj hi heq)
    · have hnone := (h.sound.parent hmem).symm.trans (h.sound.rootParent hj)
      cases hnone
  refine ⟨⟨?_, ?_, ?_, ?_⟩, ?_, ?_, ?_, ?_, ?_⟩
  · intro c d hc
    rw [hchildren] at hc
    rw [hparent, ht.parent]
    exact h.sound.parent (ht.subset hc).2
  · intro j m' hm'
    rw [hkind, ht.kind]
    exact h.sound.rootDir (hmounts hm').2
  · intro j m' hm'
    rw [hparent, ht.parent]
    exact h.sound.rootParent (hmounts hm').2
  · intro j k m' m'' hm' hm'' heq
    exact h.sound.roots (hmounts hm').2 (hmounts hm'').2 heq
  · intro j m' hm'
    rw [hlive, (ht.kept _ (hroot hm')).1]
    exact h.root (hmounts hm').2
  · intro d c hc
    rw [hchildren] at hc
    obtain ⟨hd, hmem⟩ := ht.subset hc
    have hF : ¬F c := by
      intro hF
      rcases htop.closed c hF with rfl | ⟨d', hd', hmem'⟩
      · have hnone := (h.sound.parent hmem).symm.trans (h.sound.rootParent hi)
        cases hnone
      · have heq := (h.sound.parent hmem).symm.trans (h.sound.parent hmem')
        exact hd (some.inj heq ▸ hd')
    rw [hlive, (ht.kept c hF).1]
    exact h.live hmem
  · intro d hd
    rw [hlive] at hd
    rw [hchildren]
    by_cases hF : F d
    · exact (ht.gone d hF).2
    · rw [(ht.kept d hF).1] at hd
      rw [(ht.kept d hF).2]
      exact h.dead hd
  · intro d hd
    rw [hkind, ht.kind] at hd
    rw [hchildren]
    by_cases hF : F d
    · exact (ht.gone d hF).2
    · rw [(ht.kept d hF).2]
      exact h.leaf hd
  · intro d
    rw [hchildren]
    by_cases hF : F d
    · rw [(ht.gone d hF).2]
      exact List.nodup_nil
    · rw [(ht.kept d hF).2]
      exact h.nodup d

theorem Linked.vfsUnmount_cases [DecidableEq N] [Fintype N] (h : s.Linked) {mountpoint : Text} :
    s.vfsUnmount mountpoint = (-1, s) ∨ ∃ m, (s.slotOf mountpoint).bind s.mounts = some m ∧
        (s.vfsUnmount mountpoint).2.Linked ∧ (s.vfsUnmount mountpoint).2.refcount = s.refcount ∧
        ∀ n, (s.vfsUnmount mountpoint).2.live n = s.live n ∨
          ((s.vfsUnmount mountpoint).2.live n = false ∧ s.Reaches m.root n) := by
  unfold vfsUnmount
  cases hslot : s.slotOf mountpoint with
  | none => exact .inl rfl
  | some i =>
  obtain ⟨m, hm, -⟩ := Fs.slotOf_some hslot
  rw [bind_some, hm]
  obtain ⟨F, ht, htop⟩ := freeBelow_pruned s m.root
  dsimp only [ramfsFreeNode]
  generalize freeBelow (Fintype.card N) s m.root = t at ht
  have hslot' : t.slotOf mountpoint = some i := by
    rw [← hslot, Fs.slotOf, Fs.slotOf, ht.mounts]
  have htable : ∃ fs', t.toFs.vfsUnmount mountpoint = (0, fs') ∧
      (fs'.children = t.children ∧ fs'.kind = t.kind ∧ fs'.parent = t.parent) ∧
      fs'.mounts = update t.mounts i none := by
    unfold Fs.vfsUnmount
    rw [hslot']
    dsimp only
    split <;> exact ⟨_, rfl, ⟨rfl, rfl, rfl⟩, rfl⟩
  obtain ⟨fs', hfs', ⟨hchildren, hkind, hparent⟩, hmounts⟩ := htable
  refine .inr ⟨m, rfl, ?_, ht.refcount, ?_⟩
  · rw [hfs']
    refine ht.linked h hm htop ⟨hchildren, rfl, hkind, hparent⟩ ?_
    intro j m' hm'
    change fs'.mounts j = some m' at hm'
    rw [hmounts] at hm'
    have hne : j ≠ i := by
      rintro rfl
      rw [update_self] at hm'
      cases hm'
    rw [update_of_ne hne, ht.mounts] at hm'
    exact ⟨hne, hm'⟩
  · intro n
    by_cases hF : F n
    · obtain ⟨_, rfl, hreach⟩ := htop.below n hF
      exact .inr ⟨(ht.gone n hF).1, hreach⟩
    · exact .inl (ht.kept n hF).1

/-! ## What the calls do to the nodes -/

/-- Some nodes may be gone, and the rest counts as before. -/
structure Shrinks (s : Store N) (freed : N → Prop) (t : Store N) : Prop where
  linked : t.Linked
  refcount : t.refcount = s.refcount
  live : ∀ n, t.live n = s.live n ∨ (t.live n = false ∧ freed n)

theorem Linked.shrinks_refl (h : s.Linked) {freed : N → Prop} : s.Shrinks freed s :=
  ⟨h, rfl, fun _ => .inl rfl⟩

theorem Dropped.shrinks [DecidableEq N] (hd : s.Dropped dir child u)
    (hchild : freed child) : s.Shrinks freed u where
  linked := hd.linked
  refcount := by
    obtain ⟨-, t, hr, rfl⟩ := hd
    exact hr.refcount
  live n := by
    by_cases hn : n = child
    · obtain ⟨-, t, hr, rfl⟩ := hd
      refine .inr ⟨?_, hn ▸ hchild⟩
      rw [hn]
      exact update_self ..
    · exact .inl (hd.live hn)

/-- The node at a path, if it can be removed. -/
def Removable [DecidableEq N] (s : Store N) (p : Process) (path : Text) (n : N) : Prop :=
  s.entryAt p path = some n ∧ s.full n = false

theorem Dropped.not_full [DecidableEq N] (hd : s.Dropped dir child u) : s.full child = false := by
  rw [full, hd.empty]
  exact Bool.and_false _

theorem Linked.vfsUnlink_shrinks [DecidableEq N] [Fintype N] (h : s.Linked) {p : Process}
    {path : Text} : s.Shrinks (s.Removable p path) (s.vfsUnlink p path).2 := by
  unfold vfsUnlink
  rcases h.inDirectory p path fun s dir name => s.ramfsUnlink dir name with
    hfail | ⟨dir, -, -, -, hentry, heq⟩
  · rw [hfail]
    exact h.shrinks_refl
  rw [heq]
  rcases h.ramfsUnlink_cases dir (lastComponent (makeAbsolutePath p 1024 path)) with
    hfail | ⟨child, u, hfind, hdrop, hunlink⟩
  · rw [hfail]
    exact h.shrinks_refl
  · rw [hunlink]
    exact hdrop.shrinks ⟨hentry.trans hfind, hdrop.not_full⟩

theorem Linked.moveChild_shrinks [DecidableEq N] (h : s.Linked) {newDir : N}
    (hlive : s.live newDir = true) (hkind : s.kind newDir = .dir) (oldDir child : N)
    (newName : Text) (freed : N → Prop) :
    s.Shrinks freed (s.moveChild oldDir child newDir newName).2 := by
  rcases moveChild_cases oldDir child newDir newName with hfail | ⟨t, ht, hmove⟩
  · rw [hfail]
    exact h.shrinks_refl
  · rw [hmove]
    have hr := h.removeChild ht
    refine ⟨h.moved ht hlive hkind newName, hr.refcount, ?_⟩
    exact fun n => .inl (congrFun hr.live n)

theorem Shrinks.trans (hst : s.Shrinks freed t) (htu : t.Shrinks freed u) :
    s.Shrinks freed u where
  linked := htu.linked
  refcount := htu.refcount.trans hst.refcount
  live n := by
    rcases htu.live n with heq | hgone
    · rw [heq]
      exact hst.live n
    · exact .inr hgone

theorem Linked.vfsRename_shrinks [DecidableEq N] [Fintype N] (h : s.Linked) {p : Process}
    {old new : Text} : s.Shrinks (s.Removable p new) (s.vfsRename p old new).2 := by
  rcases h.vfsRename_cases p old new with hfail | ⟨oldDir, newDir, hlive, hkind, -, hentry, heq⟩
  · rw [hfail]
    exact h.shrinks_refl
  rw [heq]
  rcases h.ramfsRename_cases oldDir (lastComponent (makeAbsolutePath p 1024 old)) newDir
      (lastComponent (makeAbsolutePath p 1024 new)) with hfail | ⟨child, u, -, hclear, hrename⟩
  · rw [hfail]
    exact h.shrinks_refl
  rw [hrename]
  obtain ⟨hdir, hkinds⟩ := hclear.dir
  have hmove := (hclear.linked h).moveChild_shrinks (hdir.trans hlive)
    ((congrFun hkinds newDir).trans hkind) oldDir child
    (lastComponent (makeAbsolutePath p 1024 new)) (s.Removable p new)
  cases hclear with
  | free _ => exact hmove
  | dropped hfind hdrop =>
    exact (hdrop.shrinks ⟨hentry.trans hfind, hdrop.not_full⟩).trans hmove

end Store

/-! ## Steps -/

namespace Files

theorem freeFd_unused {first : Nat} {fds : FdTable N} {j : Fin 32} (h : freeFd first fds = some j) :
    (fds j).node = none := by
  have hfound := List.find?_some h
  have hunused := (of_decide_eq_true hfound).2
  rw [Fd.node, hunused]
  exact if_neg fun hand => nomatch hand.1

variable [DecidableEq N] {s : Files N} {fds : FdTable N} {j : Fin 32} {i : Fin 64} {t : Store N}
  {e : Fd N}

theorem valid_of (hlive : ∀ n, s.refs n ≠ 0 → s.store.live n = true)
    (hcount : ∀ n, s.store.live n = true → s.store.refcount n = 1 + s.refs n) : s.Valid where
  allocated hi hj := hlive _ (refs_ne_zero.mpr ⟨_, _, _, hi, hj⟩)
  counted := hcount

theorem Valid.live (h : s.Valid) (hn : s.refs n ≠ 0) : s.store.live n = true := by
  obtain ⟨i, fds, j, hi, hj⟩ := refs_ne_zero.mp hn
  exact h.allocated hi hj

/-- All that the steps keep. -/
structure Inv (s : Files N) : Prop where
  linked : s.store.Linked
  valid : s.Valid

/-- A step that changes no reference. -/
theorem Inv.shrink (h : s.Inv) (ht : s.store.Shrinks freed t)
    (hfreed : ∀ n, freed n → s.refs n = 0) : Inv { s with store := t } := by
  refine ⟨ht.linked, valid_of ?_ ?_⟩
  · intro n hn
    rcases ht.live n with heq | ⟨-, hgone⟩
    · exact heq.trans (h.valid.live hn)
    · exact absurd (hfreed n hgone) hn
  · intro n hn
    rcases ht.live n with heq | ⟨hdead, -⟩
    · exact (congrFun ht.refcount n).trans (h.valid.counted n (heq.symm.trans hn))
    · cases hdead.symm.trans hn

theorem refs_setEntry (hi : s.procs i = some fds) (j : Fin 32) (e : Fd N) (n : N) :
    (s.setTable i (update fds j e)).refs n + (fds j).refs n = s.refs n + e.refs n := by
  have htable := refs_setTable s i (update fds j e) n
  rw [hi, elim_some] at htable
  have hentry := FdTable.refs_update fds j e n
  omega

theorem Inv.setEntry (h : s.Inv) (hi : s.procs i = some fds) (hnode : e.node = (fds j).node) :
    (s.setTable i (update fds j e)).Inv := by
  have hrefs : ∀ n, (s.setTable i (update fds j e)).refs n = s.refs n := by
    intro n
    have hset := refs_setEntry hi j e n
    have hsame : e.refs n = (fds j).refs n := by rw [Fd.refs, Fd.refs, hnode]
    omega
  refine ⟨h.linked, valid_of ?_ ?_⟩
  · intro n hn
    rw [hrefs] at hn
    exact h.valid.live hn
  · intro n hn
    rw [hrefs]
    exact h.valid.counted n hn

/-- A node is opened: it is counted once more, and one more descriptor refers to it. -/
theorem Inv.opened (h : s.Inv) (hi : s.procs i = some fds) (hfree : (fds j).node = none)
    (he : e.node = some n) (hlinked : t.Linked) (hn : t.live n = true)
    (hcount : t.refcount n = 2 + s.refs n)
    (hother : ∀ m, m ≠ n → t.live m = s.store.live m ∧ t.refcount m = s.store.refcount m) :
    (Files.setTable { s with store := t } i (update fds j e)).Inv := by
  have hrefs : ∀ m, (Files.setTable { s with store := t } i (update fds j e)).refs m =
      s.refs m + e.refs m := by
    intro m
    have hset : _ = s.refs m + e.refs m := refs_setEntry (s := { s with store := t }) hi j e m
    have hzero : (fds j).refs m = 0 := by
      rw [Fd.refs, hfree]
      rfl
    omega
  have hself : e.refs n = 1 := by
    rw [Fd.refs, he, if_pos rfl]
  have hzero : ∀ m, m ≠ n → e.refs m = 0 := by
    intro m hm
    rw [Fd.refs, he, if_neg]
    exact fun heq => hm (some.inj heq).symm
  refine ⟨hlinked, valid_of ?_ ?_⟩
  · intro m hm
    by_cases hmn : m = n
    · rw [hmn]
      exact hn
    · rw [hrefs, hzero m hmn, Nat.add_zero] at hm
      exact (hother m hmn).1.trans (h.valid.live hm)
  · intro m hm
    by_cases hmn : m = n
    · rw [hrefs, hmn]
      refine hcount.trans ?_
      omega
    · rw [hrefs, hzero m hmn, Nat.add_zero]
      refine (hother m hmn).2.trans (h.valid.counted m ?_)
      exact (hother m hmn).1.symm.trans hm

theorem openNode_refcount (t : Store N) (n : N) (flags : BitVec 32) :
    (t.openNode n flags).refcount = update t.refcount n (t.refcount n + 1) := by
  unfold openNode
  split <;> rfl

theorem Inv.sysOpen (h : s.Inv) {node : Option N} (hnode : ∀ n ∈ node, s.store.live n = false)
    {p : Process} {path : Text} {flags : BitVec 32} (hlen : hasFlags flags oCreat = true →
      (lastComponent (makeAbsolutePath p 1024 path)).length < maxName) (i : Fin 64) :
    ∃ r, s.sysOpen i p path flags node = some r ∧ r.2.Inv := by
  unfold Files.sysOpen
  cases hi : s.procs i with
  | none => exact ⟨_, rfl, h⟩
  | some fds =>
  dsimp only
  cases hfree : freeFd 3 fds with
  | none => exact ⟨_, rfl, h⟩
  | some fd =>
  have hunused := freeFd_unused hfree
  dsimp only
  split
  · refine ⟨_, rfl, h.setEntry hi ?_⟩
    rw [hunused]
    exact if_neg fun hand => nomatch hand.2
  have hopened := h.linked.vfsOpen_opened hnode p path flags
  generalize s.store.vfsOpen p path flags node = result at hopened
  cases hopened with
  | failed => exact ⟨_, rfl, h⟩
  | overrun hcreat hlong => exact absurd (hlen hcreat) (not_lt.mpr hlong)
  | @found n hn =>
    refine ⟨_, rfl, h.opened hi hunused (n := n) rfl ?_ ?_ ?_ ?_⟩
    · exact h.linked.congr (openNode_toFs n flags) (openNode_live n flags)
    · rw [openNode_live]
      exact hn
    · rw [openNode_refcount, update_self, h.valid.counted n hn]
      omega
    · intro m hm
      rw [openNode_live, openNode_refcount, update_of_ne hm]
      exact ⟨rfl, rfl⟩
  | @made dir n hcreat hn hlen hdir hkind hfind t ht =>
    have hdead := hnode n hn
    have hlinked : t.Linked := by
      rw [ht]
      exact h.linked.made hdir hkind hdead _ _ _
    refine ⟨_, rfl, h.opened hi hunused (n := n) rfl (hlinked.congr rfl rfl) ?_ ?_ ?_⟩
    · rw [ht]
      exact update_self ..
    · -- The node was not in use, so no descriptor refers to it yet.
      have hrefs : s.refs n = 0 := by
        by_contra hne
        cases hdead.symm.trans (h.valid.live hne)
      have hone : t.refcount n = 1 := by
        rw [ht]
        exact update_self ..
      rw [hrefs]
      dsimp only
      rw [update_self, hone]
    · intro m hm
      constructor
      · rw [ht]
        exact update_of_ne hm ..
      · refine (update_of_ne hm ..).trans ?_
        rw [ht]
        exact update_of_ne hm ..

theorem closeFd_eq {t : Store N} {e : Fd N} (hused : e.used = true) :
    t.closeFd e = e.node.elim t t.vfsClose := by
  rw [Fd.node, hused, closeFd]
  cases htype : e.type <;> cases e.vnode <;> rfl

theorem Inv.sysClose (h : s.Inv) (i : Fin 64) (fd : Int) : (s.sysClose i fd).2.Inv := by
  unfold Files.sysClose
  cases hi : s.procs i with
  | none => exact h
  | some fds =>
  cases fdIndex fd with
  | none => exact h
  | some j =>
  dsimp only
  split
  swap
  · exact h
  next hused =>
  rw [closeFd_eq hused]
  cases hnode : (fds j).node with
  | none => exact h.setEntry hi hnode.symm
  | some n =>
    have hrefs : ∀ m, (Files.setTable { s with store := s.store.vfsClose n } i
        (update fds j .empty)).refs m + (fds j).refs m = s.refs m := by
      intro m
      have hset : _ = s.refs m + Fd.empty.refs m :=
        refs_setEntry (s := { s with store := s.store.vfsClose n }) hi j .empty m
      have hempty : (Fd.empty : Fd N).refs m = 0 := rfl
      rw [hset, hempty, Nat.add_zero]
    have hself : (fds j).refs n = 1 := by
      rw [Fd.refs, hnode, if_pos rfl]
    dsimp only [elim_some]
    refine ⟨h.linked.congr rfl rfl, valid_of ?_ ?_⟩
    · intro m hm
      have hm' := hrefs m
      exact h.valid.live (by omega)
    · intro m hm
      have hcount := h.valid.counted m hm
      have hm' := hrefs m
      have hclose : (s.store.vfsClose n).refcount m =
          update s.store.refcount n (s.store.refcount n - 1) m := rfl
      refine hclose.trans ?_
      by_cases hmn : m = n
      · subst hmn
        rw [update_self]
        omega
      · have hzero : (fds j).refs m = 0 := by
          rw [Fd.refs, hnode, if_neg]
          exact fun heq => hmn (some.inj heq).symm
        rw [update_of_ne hmn]
        omega

theorem Inv.sysDup (h : s.Inv) {oldfd : Int}
    (hquiet : ∀ fds j, s.procs i = some fds → fdIndex oldfd = some j → (fds j).node = none) :
    (s.sysDup i oldfd).2.Inv := by
  unfold Files.sysDup
  cases hi : s.procs i with
  | none => exact h
  | some fds =>
  cases hj : fdIndex oldfd with
  | none => exact h
  | some j =>
  dsimp only
  split
  swap
  · exact h
  cases hfree : freeFd 0 fds with
  | none => exact h
  | some k => exact h.setEntry hi ((hquiet fds j hi hj).trans (freeFd_unused hfree).symm)

theorem Inv.sysDup2 (h : s.Inv) {oldfd newfd : Int}
    (hquiet : ∀ fds j k, s.procs i = some fds → fdIndex oldfd = some j → fdIndex newfd = some k →
      (fds j).used = true → (fds j).node = (fds k).node) : (s.sysDup2 i oldfd newfd).2.Inv := by
  unfold Files.sysDup2
  cases hi : s.procs i with
  | none => exact h
  | some fds =>
  cases hj : fdIndex oldfd with
  | none => exact h
  | some j =>
  cases hk : fdIndex newfd with
  | none => exact h
  | some k =>
  dsimp only
  split
  swap
  · exact h
  next hused =>
  split
  · exact h
  · refine h.setEntry hi ?_
    rw [← hquiet fds j k hi hj hk hused, Fd.node, Fd.node, hused]

theorem Inv.schedFork (h : s.Inv)
    (hquiet : ∀ fds j, s.procs i = some fds → (fds j).node = none) (pid : Nat) (memory : Bool) :
    (s.schedFork i pid memory).2.Inv := by
  unfold Files.schedFork
  cases hi : s.procs i with
  | none => exact h
  | some fds =>
  cases hk : (List.finRange 64).find? fun k => (s.procs k).isNone with
  | none => exact h
  | some k =>
  dsimp only
  split
  swap
  · exact h
  have hnone : s.procs k = none := by
    have hfound := List.find?_some hk
    exact isNone_iff_eq_none.mp hfound
  have hzero : ∀ n, fds.refs n = 0 := by
    intro n
    by_contra hne
    obtain ⟨j, hj⟩ := FdTable.refs_ne_zero.mp hne
    cases hj.symm.trans (hquiet fds j hi)
  have hrefs : ∀ n, (s.setTable k fds).refs n = s.refs n := by
    intro n
    have hset := refs_setTable s k fds n
    rw [hnone, hzero, elim_none, Nat.add_zero, Nat.add_zero] at hset
    exact hset
  refine ⟨h.linked, valid_of ?_ ?_⟩
  · intro n hn
    rw [hrefs] at hn
    exact h.valid.live hn
  · intro n hn
    rw [hrefs]
    exact h.valid.counted n hn

end Files

/-! ## Runs -/

variable [DecidableEq N]

/-- A call whose new node, if it makes one, is in memory that is not in use. -/
def FileCall.Supplied (s : Files N) : FileCall N → Prop
  | .open _ _ _ _ node => ∀ n ∈ node, s.store.live n = false
  | _ => True

/-- A call that leaves no descriptor uncounted and frees no open node. -/
def FileCall.Quiet [Fintype N] (s : Files N) : FileCall N → Prop
  | .open _ p path flags _ => hasFlags flags oCreat = true →
      (lastComponent (makeAbsolutePath p 1024 path)).length < maxName
  | close .. => True
  | dup i oldfd => ∀ fds j, s.procs i = some fds → fdIndex oldfd = some j → (fds j).node = none
  | dup2 i oldfd newfd => ∀ fds j k, s.procs i = some fds → fdIndex oldfd = some j →
      fdIndex newfd = some k → (fds j).used = true → (fds j).node = (fds k).node
  | fork i _ _ => ∀ fds j, s.procs i = some fds → (fds j).node = none
  | unlink p path => ∀ n, s.store.Removable p path n → s.refs n = 0
  | rename p _ new => ∀ n, s.store.Removable p new n → s.refs n = 0
  | unmount mountpoint => ∀ m, (s.store.slotOf mountpoint).bind s.store.mounts = some m →
      ∀ n, s.store.Reaches m.root n → s.refs n = 0

theorem fileStep_inv [Fintype N] {s : Files N} (h : s.Inv) {call : FileCall N}
    (hnode : call.Supplied s) (hquiet : call.Quiet s) :
    ∃ t, fileStep (some s) call = some t ∧ t.Inv := by
  cases call with
  | «open» i p path flags node =>
    obtain ⟨r, hr, hinv⟩ := h.sysOpen hnode hquiet i
    exact ⟨r.2, congrArg (Option.map Prod.snd) hr, hinv⟩
  | close i fd => exact ⟨_, rfl, h.sysClose i fd⟩
  | dup i oldfd => exact ⟨_, rfl, h.sysDup hquiet⟩
  | dup2 i oldfd newfd => exact ⟨_, rfl, h.sysDup2 hquiet⟩
  | fork i pid memory => exact ⟨_, rfl, h.schedFork hquiet pid memory⟩
  | unlink p path => exact ⟨_, rfl, h.shrink (h.linked.vfsUnlink_shrinks) hquiet⟩
  | rename p old new => exact ⟨_, rfl, h.shrink (h.linked.vfsRename_shrinks) hquiet⟩
  | unmount mountpoint =>
    refine ⟨_, rfl, ?_⟩
    rcases h.linked.vfsUnmount_cases with hfail | ⟨m, hm, hlinked, hcount, hlive⟩
    · rw [hfail]
      exact h
    · exact h.shrink ⟨hlinked, hcount, hlive⟩ (hquiet m hm)

/-- A state in which open files are valid. -/
def HoldsValid (s : Option (Files N)) : Prop := ∃ t, s = some t ∧ t.Valid

/-- **Open files stay valid** in every run that copies no descriptor of a node, replaces
none, frees no open node, and has names that fit into the buffer for new files. -/
theorem open_files_valid [Fintype N] {s : Files N} (hinv : s.Inv) {calls : List (FileCall N)}
    (hcalls : Runs.Guarded fileStep
      (fun s call => ∀ t ∈ s, call.Supplied t ∧ call.Quiet t) (some s) calls) :
    HoldsValid (Runs.run fileStep (some s) calls) := by
  have hrun : ∃ t, Runs.run fileStep (some s) calls = some t ∧ t.Inv := by
    refine hcalls.invariant (I := fun s => ∃ t, s = some t ∧ t.Inv) ?_ ⟨s, rfl, hinv⟩
    rintro _ call ⟨t, rfl, ht⟩ hcall
    exact fileStep_inv ht (hcall t rfl).1 (hcall t rfl).2
  obtain ⟨t, ht, hinv'⟩ := hrun
  exact ⟨t, ht, hinv'.valid⟩

/-! ## One process -/

/-- The descriptors a process starts with: 0, 1 and 2 are used and refer to no node. -/
def firstFds : FdTable N := fun j => { Fd.empty with used := j.val < 3 }

/-- A ramfs and one process. -/
def oneProcess (root : N) : Files N where
  store := mountedRamfs root
  procs i := if i.val = 0 then some firstFds else none

theorem oneProcess_node {root : N} {i : Fin 64} {fds : FdTable N} {j : Fin 32}
    (h : (oneProcess root).procs i = some fds) : (fds j).node = none := by
  change (if i.val = 0 then some firstFds else none) = some fds at h
  split at h
  · rw [← some.inj h]
    exact ite_self none
  · cases h

theorem oneProcess_inv {root : N} : (oneProcess root).Inv := by
  have hrefs : ∀ n, (oneProcess root).refs n = 0 := by
    intro n
    by_contra hne
    obtain ⟨i, fds, j, hi, hj⟩ := Files.refs_ne_zero.mp hne
    cases hj.symm.trans (oneProcess_node hi)
  refine ⟨(mountedRamfs_sane root).linked, Files.valid_of ?_ ?_⟩
  · exact fun n hn => absurd (hrefs n) hn
  · intro n _
    rw [hrefs]
    rfl

/-- `/f`. -/
def fPath : Text := [slash, 102]

/-- A process opens a new file, copies its standard input and closes the file. -/
theorem open_files_valid_f : HoldsValid (Runs.run fileStep (some (oneProcess (0 : Fin 2)))
      [.open 0 rootProcess fPath oCreat (some 1), .dup 0 0, .close 0 3]) := by
  refine open_files_valid (oneProcess_inv) ⟨?_, ?_, ?_, trivial⟩
  · rintro t ⟨⟩
    refine ⟨?_, fun _ => by decide⟩
    rintro n ⟨⟩
    decide
  · rintro t ⟨⟩
    refine ⟨trivial, ?_⟩
    rintro fds j ⟨⟩ ⟨⟩
    decide
  · exact fun t _ => ⟨trivial, trivial⟩

/-- A process opens a new file and removes it: its descriptor refers to freed memory. -/
theorem unlink_open_file :
    Runs.Guarded fileStep (fun s call => ∀ t ∈ s, call.Supplied t) (some (oneProcess (0 : Fin 2)))
        [.open 0 rootProcess fPath oCreat (some 1), .unlink rootProcess fPath] ∧
      ¬HoldsValid (Runs.run fileStep (some (oneProcess (0 : Fin 2)))
        [.open 0 rootProcess fPath oCreat (some 1), .unlink rootProcess fPath]) := by
  constructor
  · refine ⟨?_, fun t _ => trivial, trivial⟩
    rintro t ⟨⟩ n ⟨⟩
    decide
  · rintro ⟨t, ⟨⟩, hvalid⟩
    have hlive := hvalid.allocated (i := 0) (j := 3) (n := 1) rfl (by decide)
    revert hlive
    decide

end Utms7.Vfs
