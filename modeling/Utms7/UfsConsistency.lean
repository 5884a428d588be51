import Utms7.UfsAccounts
import Utms7.UfsTidy

/-!
# A consistent volume

What the operations should keep between them: every entry that can be reached
from the root names an inode in use, no block has two places, the bitmap marks
exactly the blocks in use, and both counters count what is free.

`ufs_vfs_unlink` breaks the first: it gives up whatever its name leads to, also
the directory itself (`.`), its parent (`..`), or a directory that an entry
elsewhere still names.  `ufs_vfs_write` breaks the third: it only stores the
inode when the file has grown, and a file can be longer than its blocks.
`Orderly` excludes these and calls on what is not in use.
-/

namespace Utms7

open ByteMemory List DirSlot

namespace Volume

variable {v v' : Volume} {d n : Nat} {s : DirSlot} {name : CStr} {ticks mode : BitVec 32}

/-- Inode numbers in entries of directories that the root leads to. -/
inductive Reaches (v : Volume) : Nat → Prop where
  | root : Reaches v 1
  | entry {d : Nat} {s : DirSlot} (hd : Reaches v d) (hdir : v.LiveDir d)
      (hs : s ∈ v.slotsOf d) (hused : s.used = true) : Reaches v s.inode.toNat

/-- The volume is consistent. -/
structure Consistent (v : Volume) : Prop where
  reachable : ∀ n, v.Reaches n → v.Live n
  nodup : ∀ n, v.Live n → (v.blocksOf n).Nodup
  apart : ∀ n k b, v.Live n → v.Live k → b ∈ v.blocksOf n → b ∈ v.blocksOf k → n = k
  bitmap : ∀ b, v.dataStart ≤ b → b < v.totalBlocks →
    (v.bit b = true ↔ ∃ n, v.Live n ∧ b ∈ v.blocksOf n)
  freeBlocks : v.freeBlocks.toNat =
    ((Finset.Ico v.dataStart v.totalBlocks).filter fun b => v.bit b = false).card
  freeInodes : v.freeInodes.toNat =
    ((Finset.Icc 1 v.inodeCount).filter fun n => (v.inode n).mode = 0#16).card

/-- The entries of live directories name inodes in use. -/
structure Linked (v : Volume) : Prop where
  root : v.LiveDir 1
  names : ∀ {d s}, v.LiveDir d → s ∈ v.slotsOf d → s.used = true → v.Live s.inode.toNat

theorem Linked.reachable (h : v.Linked) (hn : v.Reaches n) : v.Live n := by
  cases hn with
  | root => exact h.root.live
  | entry _ hdir hs hused => exact h.names hdir hs hused

/-- Intact volumes with right books and live entries are consistent. -/
theorem Linked.consistent (h : v.Linked) (hi : v.Intact) (hb : v.Booked) : v.Consistent where
  reachable _ hn := h.reachable hn
  nodup n _ := hi.owned.nodup n
  apart _ _ _ _ _ hbn hbk := hi.owned.apart hbn hbk
  bitmap b hlo hhi := by
    constructor
    · intro hbit
      obtain ⟨n, hn⟩ := hb.blocks.covered b (Finset.mem_Ico.mpr ⟨hlo, hhi⟩) hbit
      refine ⟨n, ⟨?_, ?_⟩, hn⟩
      · by_contra hout
        rw [blocksOf, if_neg hout] at hn
        cases hn
      · intro hdead
        rw [hb.empty n hdead] at hn
        cases hn
    · rintro ⟨n, -, hn⟩
      exact hi.owned.marked hn
  freeBlocks := hb.blocks.count
  freeInodes := by
    rw [hb.inodes, Allocation.unmarked]
    congr 1
    refine Finset.filter_congr fun n _ => ?_
    simp [inUse]

/-! ## Entries -/

theorem live_iff_of_mode (hs : v.SameShape v') (hmode : (v'.inode n).mode = (v.inode n).mode) :
    v'.Live n ↔ v.Live n := by
  unfold Live
  rw [hs.hasInode_iff, hmode]

theorem addEntry_slots (h : v.Intact) (hd : v.HasInode d) (hn : v.HasInode n)
    {type : BitVec 8} (hs : s ∈ (v.addEntry d n name type).2.slotsOf d) (hused : s.used = true) :
    s ∈ v.slotsOf d ∨ s.inode.toNat = n := by
  have hhi : n < 2 ^ 32 := by
    have hcount := h.sized.count
    have := hn.2
    omega
  refine addEntry_cases h hd n name type ?_ ?_ ?_ ?_ hs
  · intro p t v' _ _ _ hc hs
    rw [hc.slots] at hs
    rcases mem_or_eq_of_mem_set hs with hs | rfl
    · exact .inl hs
    · exact .inr (named_inode hhi name)
  · exact fun _ _ hs => .inl hs
  · intro nb v' _ _ _ hu hs
    rw [hu.slotsOf_eq h d] at hs
    exact .inl hs
  · intro nb v' _ _ _ hc hs
    obtain ⟨i, -, hslots⟩ := hc.slots
    rw [hslots] at hs
    rcases (extended_insert (named_used hn.1 hhi name) _).sub s hs with rfl | hs | hfree
    · exact .inr (named_inode hhi name)
    · exact .inl hs
    · rw [hused] at hfree
      cases hfree

theorem removeEntry_slots (h : v.Intact) {k : Nat} (hf : v.FormedDir d)
    (hs : s ∈ (v.removeEntry d name).2.slotsOf k) (hused : s.used = true) : s ∈ v.slotsOf k := by
  by_cases hk : k = d
  · subst hk
    by_cases hd : v.HasInode k
    · refine removeEntry_cases h hd hf name
        (fun _ hs => hs) ?_ hs
      intro p t v' _ _ _ _ hc hs
      rw [hc.slots] at hs
      rcases mem_or_eq_of_mem_set hs with hs | rfl
      · exact hs
      · cases hused
    · rwa [removeEntry, if_neg hd] at hs
  · rwa [((Touches.refl v).removeEntry (I := (· = d)) h.placed h.sized rfl name).slotsOf_eq
      h.owned hk] at hs

/-- What lookup finds is in use. -/
theorem Linked.find_live (h : v.Linked) (hi : v.Intact) (hd : v.LiveDir d) (hf : v.FormedDir d)
    (hfind : v.find d name = some n) : v.Live n := by
  rw [find_eq_lookup hi hd.1 hf] at hfind
  obtain ⟨s, hs, hname, rfl⟩ := exists_of_lookup hfind
  exact h.names hd (mem_visible hs) (hasName_iff.mp hname).1

namespace Linked

theorem addEntry (h : v.Linked) (hi : v.Intact) (hd : v.LiveDir d) (hn : v.Live n) (name : CStr)
    (type : BitVec 8) : (v.addEntry d n name type).2.Linked := by
  have hs := (v.addEntry_follows d n name type).shape
  have hmode := v.addEntry_mode d n name type
  refine ⟨(hs.liveDir_iff (hmode 1)).mpr h.root, fun {k s} hk hslot hused => ?_⟩
  rw [live_iff_of_mode hs (hmode _)]
  have hk' := (hs.liveDir_iff (hmode k)).mp hk
  by_cases hkd : k = d
  · subst hkd
    rcases addEntry_slots hi hd.1 hn.1 hslot hused with hold | hnew
    · exact h.names hk' hold hused
    · rw [hnew]
      exact hn
  · rw [((Touches.refl v).addEntry (I := (· = d)) hi.placed hi.sized rfl n name type).slotsOf_eq
      hi.owned hkd] at hslot
    exact h.names hk' hslot hused

theorem removeEntry (h : v.Linked) (hi : v.Intact) (hf : v.FormedDir d) (name : CStr) :
    (v.removeEntry d name).2.Linked := by
  have hs := (v.removeEntry_follows d name).shape
  have hmode := v.removeEntry_mode d name
  refine ⟨(hs.liveDir_iff (hmode 1)).mpr h.root, fun {k s} hk hslot hused => ?_⟩
  rw [live_iff_of_mode hs (hmode _)]
  exact h.names ((hs.liveDir_iff (hmode k)).mp hk) (removeEntry_slots hi hf hslot hused) hused

end Linked

/-! ## Objects -/

/-- A new directory names itself and `d` only. -/
def NamesOnly (node : NewNode) (d : Nat) : Prop :=
  node.inode.isDir = true → ∀ contents, node.firstBlock = some contents →
    ∀ n < 2 ^ 32, ∀ s ∈ blockSlots (contents n), s.used = true →
      s.inode.toNat = n ∨ s.inode.toNat = d

theorem namesOnly_fileNode :
    NamesOnly (fileNode mode ticks) d := by
  intro _ contents hfirst
  cases hfirst

theorem namesOnly_linkNode {target : CStr} :
    NamesOnly (linkNode target ticks) d := by
  intro hdir
  have hlink : (linkNode target ticks).inode.isDir = false := by
    change decide ((ufsInodeSymlink ||| 0x1FF#16) &&& ufsInodeDir ≠ 0#16) = false
    decide
  rw [hlink] at hdir
  cases hdir

theorem namesOnly_dirNode (hd : d < 2 ^ 32) :
    NamesOnly (dirNode d mode ticks) d := by
  rintro _ _ ⟨⟩ n hn s hs hused
  rw [blockSlots_dots] at hs
  simp only [mem_cons, mem_replicate] at hs
  rcases hs with rfl | rfl | ⟨-, rfl⟩
  · exact .inl (by simpa [dots] using hn)
  · exact .inr (by simpa [dots] using hd)
  · cases hused

namespace Linked

section

variable (h : v.Linked) (hi : v.Intact) {node : NewNode}
include h hi

/-- A new object is in use, and names what is in use. -/
theorem prepared (hd : v.LiveDir d) (hn : v.nextInode = some n)
    (hnode : NamesOnly node d) {w : Volume} (hw : Prepared v n node w) : w.Linked := by
  obtain ⟨hin, -⟩ := nextInode_spec hn
  have hs := hw.follows.shape
  have hself : w.Live n := ⟨(hs.hasInode_iff n).mpr hin, hw.live⟩
  have hkept : ∀ {k}, v.Live k → k ≠ n ∧ w.Live k := by
    intro k hk
    have hkn : k ≠ n := by
      rintro rfl
      exact hk.2 (nextInode_spec hn).2
    exact ⟨hkn, (live_iff_of_mode hs (by rw [(hw.dir_eq hi hkn).1])).mpr hk⟩
  have hroot := (hkept h.root.live).1
  refine ⟨(hs.liveDir_iff (by rw [(hw.dir_eq hi hroot).1])).mpr h.root,
    fun {k s} hk hslot hused => ?_⟩
  by_cases hkn : k = n
  · subst hkn
    have hdir := hk.2
    rw [hw.isDir_self] at hdir
    rw [hw.slotsOf_self hi hin] at hslot
    cases hfirst : node.firstBlock with
    | none => simp [hfirst] at hslot
    | some contents =>
      have hcount := hi.sized.count
      have hlt : k < 2 ^ 32 := by have := hin.2; omega
      rw [hfirst] at hslot
      rcases hnode hdir contents hfirst k hlt s hslot hused with heq | heq
      · rw [heq]
        exact hself
      · rw [heq]
        exact (hkept hd.live).2
  · obtain ⟨hinode, hslots⟩ := hw.dir_eq hi hkn
    rw [hslots] at hslot
    exact (hkept (h.names ((hs.liveDir_iff (by rw [hinode])).mp hk) hslot hused)).2

theorem make (hd : v.LiveDir d) (name : CStr) (hnode : NamesOnly node d) :
    (v.make d name node).2.Linked := by
  refine make_cases v d name node (fun _ => h) ?_ ?_
  · intro n _ hn _ _
    obtain ⟨hin, hdead⟩ := nextInode_spec hn
    have ht := ((Touches.refl v).takeInode (I := (· = n)) rfl).freeInode rfl
    have hinode := freeInode_inode (((v.takeInode_sameShape n).hasInode_iff n).mpr hin)
    have hmode : ∀ k, (((v.takeInode n).freeInode n).inode k).mode = (v.inode k).mode := by
      intro k
      by_cases hk : k = n
      · rw [hk, hinode, Function.update_self, hdead]
        rfl
      · rw [ht.inode k hk]
    refine ⟨(ht.shape.liveDir_iff (hmode 1)).mpr h.root, fun {k s} hk hslot hused => ?_⟩
    have hk' := (ht.shape.liveDir_iff (hmode k)).mp hk
    rw [live_iff_of_mode ht.shape (hmode _)]
    rw [ht.slotsOf_eq hi.owned (hk'.ne_nextInode hn)] at hslot
    exact h.names hk' hslot hused
  · intro n w _ hn hw
    have hne := hd.ne_nextInode hn
    have hinode := (hw.dir_eq hi hne).1
    obtain ⟨hin, -⟩ := nextInode_spec hn
    exact (h.prepared hi hd hn hnode hw).addEntry (hi.prepared hin hw)
      ((hw.follows.shape.liveDir_iff (by rw [hinode])).mpr hd)
      ⟨(hw.follows.shape.hasInode_iff n).mpr hin, hw.live⟩ name node.type

theorem rename (hf : v.FormedDirs) {d1 d2 : Nat} (hd1 : v.LiveDir d1) (hd2 : v.LiveDir d2)
    (a b : CStr) : (v.rename d1 a d2 b).2.Linked := by
  have hs1 := (v.removeEntry_follows d2 b).shape
  have hmode1 := v.removeEntry_mode d2 b
  have hi1 := hi.removeEntry d2 b
  have h1 := h.removeEntry hi (hf d2 hd2) b
  have hf1 := hf.removeEntry hi d2 b
  have hs2 := (removeEntry_follows (v.removeEntry d2 b).2 d1 a).shape
  have hmode2 := removeEntry_mode (v.removeEntry d2 b).2 d1 a
  have h2 := h1.removeEntry hi1 (hf1 d1 ((hs1.liveDir_iff (hmode1 d1)).mpr hd1)) a
  unfold Volume.rename
  split
  · exact h
  rename_i n hfind
  split
  · exact h
  simp only
  split
  · have hn := h.find_live hi hd1 (hf d1 hd1) hfind
    refine h2.addEntry (hi1.removeEntry d1 a) ?_ ?_ _ _
    · exact (hs2.liveDir_iff (hmode2 d2)).mpr ((hs1.liveDir_iff (hmode1 d2)).mpr hd2)
    · exact (live_iff_of_mode hs2 (hmode2 n)).mpr ((live_iff_of_mode hs1 (hmode1 n)).mpr hn)
  · exact h2

theorem write (hn : v.HasInode n) (hfile : (v.inode n).isDir = false) (buf : Bytes)
    (size offset : Nat) (ticks : BitVec 32) : (v.write n buf size offset ticks).2.Linked := by
  have ht := Touches.write (I := (· = n)) hi.placed hi.sized rfl hn buf size offset ticks
  have hmode : ∀ k, ((v.write n buf size offset ticks).2.inode k).mode = (v.inode k).mode := by
    intro k
    by_cases hk : k = n
    · rw [hk]
      exact write_mode v n buf size offset ticks
    · rw [ht.inode k hk]
  refine ⟨(ht.shape.liveDir_iff (hmode 1)).mpr h.root, fun {k s} hk hslot hused => ?_⟩
  have hk' := (ht.shape.liveDir_iff (hmode k)).mp hk
  have hkn : k ≠ n := by
    rintro rfl
    rw [hk'.2] at hfile
    cases hfile
  rw [live_iff_of_mode ht.shape (hmode _)]
  rw [ht.slotsOf_eq hi.owned hkn] at hslot
  exact h.names hk' hslot hused

end

end Linked

theorem FormedDirs.write (hf : v.FormedDirs) (hi : v.Intact) (hn : v.HasInode n)
    (hfile : (v.inode n).isDir = false) (buf : Bytes) (size offset : Nat) (ticks : BitVec 32) :
    (v.write n buf size offset ticks).2.FormedDirs := by
  refine hf.of_touches hi.owned
    (Touches.write (I := (· = n)) hi.placed hi.sized rfl hn buf size offset ticks) ?_
  rintro k rfl hk
  have hdir := hk.2
  rw [UfsInode.isDir, write_mode] at hdir
  exact absurd (hdir.symm.trans hfile) (by simp)

/-! ## Unlinking -/

/-- How many entries of directory `d` name inode `n`. -/
def entriesTo (v : Volume) (d n : Nat) : Nat :=
  (v.slotsOf d).countP fun s => s.used && decide (s.inode.toNat = n)

/-- No live directory other than `n` itself names `n`, except once `d`. -/
def SoleEntry (v : Volume) (d n : Nat) : Prop :=
  ∀ k, v.LiveDir k → k ≠ n → v.entriesTo k n ≤ if k = d then 1 else 0

theorem entriesTo_pos (hs : s ∈ v.slotsOf d) (hused : s.used = true) :
    0 < v.entriesTo d s.inode.toNat :=
  countP_pos_iff.mpr ⟨s, hs, by simp [hused]⟩

/-- Removing the sole entry leaves none. -/
theorem SlotChange.entriesTo_cleared {p : Nat} {t : DirSlot} {size : BitVec 32}
    (hc : SlotChange v v' d p t.cleared size) (ht : (v.slotsOf d)[p]? = some t)
    (hused : t.used = true) (hsole : v.entriesTo d t.inode.toNat ≤ 1) :
    v'.entriesTo d t.inode.toNat = 0 := by
  obtain ⟨hp, hget⟩ := List.getElem?_eq_some_iff.mp ht
  unfold entriesTo at hsole ⊢
  rw [hc.slots, countP_set hp, hget]
  simp only [hused, t.cleared_unused, Bool.true_and, Bool.false_and, decide_true, if_true]
  simp only [Bool.false_eq_true, if_false]
  omega

/-- When a file is given up and its sole entry goes, no entry names it. -/
theorem removeEntry_sole (hi : v.Intact) (hd : v.LiveDir d) (hf : v.FormedDirs) (hn : v.Live n)
    (hdn : d ≠ n) (hfind : v.find d name = some n) (hsole : v.entriesTo d n ≤ 1) :
    (((v.freeInodeBlocks n).freeInode n).removeEntry d name).2.entriesTo d n = 0 := by
  have hw := hi.freeFile n
  have hdw := ((v.freeFile_sameShape n).hasInode_iff d).mpr hd.1
  have ht := ((Touches.refl v).freeInodeBlocks (I := (· = n)) hi.placed hi.sized rfl).freeInode rfl
  have hfindw := (ht.find_eq hi hdn name).trans hfind
  refine removeEntry_cases hw hdw (FormedDir.freeFile hi (hf d hd) hn.1) name ?_ ?_
  · intro habsent
    rw [hfindw] at habsent
    cases habsent
  · intro p t v' _ hslot hname hfound hc
    rw [hfindw, Option.some.injEq] at hfound
    rw [hfound]
    refine hc.entriesTo_cleared hslot (hasName_iff.mp hname).1 ?_
    rw [entriesTo, ht.slotsOf_eq hi.owned hdn, ← hfound]
    exact hsole

theorem Linked.unlink (h : v.Linked) (hi : v.Intact) (hf : v.FormedDirs) (hd : v.LiveDir d)
    (name : CStr) (hsole : ∀ n, v.find d name = some n → n ≠ 1 ∧ v.SoleEntry d n) :
    (v.unlink d name).2.Linked := by
  unfold Volume.unlink
  split
  · exact h
  rename_i n hfind
  split
  · exact h
  obtain ⟨hn1, hsole⟩ := hsole n hfind
  have hn := h.find_live hi hd (hf d hd) hfind
  have hw := hi.freeFile n
  have hfw := FormedDir.freeFile hi (hf d hd) hn.1
  have hs := (v.freeFile_sameShape n).trans
    (removeEntry_follows ((v.freeInodeBlocks n).freeInode n) d name).shape
  have hmode : ∀ k, k ≠ n → ((((v.freeInodeBlocks n).freeInode n).removeEntry d
      name).2.inode k).mode = (v.inode k).mode := by
    intro k hk
    rw [removeEntry_mode, freeFile_inode hn.1, Function.update_of_ne hk]
  refine ⟨(hs.liveDir_iff (hmode 1 (Ne.symm hn1))).mpr h.root, fun {k s} hk hslot hused => ?_⟩
  have hkn : k ≠ n := by
    rintro rfl
    refine hk.live.2 ?_
    rw [removeEntry_mode, freeFile_inode hn.1, Function.update_self]
    rfl
  have hk' := (hs.liveDir_iff (hmode k hkn)).mp hk
  have hold := removeEntry_slots hw hfw hslot hused
  rw [freeFile_slotsOf hi hn.1, if_neg hkn] at hold
  have hne : s.inode.toNat ≠ n := by
    intro heq
    have hle := hsole k hk' hkn
    by_cases hkd : k = d
    · -- The only entry for `n` was this one, and it has been removed.
      subst hkd
      rw [if_pos rfl] at hle
      have hpos := entriesTo_pos hslot hused
      have hzero := removeEntry_sole hi hd hf hn hkn hfind hle
      rw [heq] at hpos
      omega
    · have hpos := entriesTo_pos hold hused
      rw [heq] at hpos
      rw [if_neg hkd] at hle
      omega
  exact (live_iff_of_mode hs (hmode _ hne)).mpr (h.names hk' hold hused)

end Volume

/-! ## Histories -/

/-- A call on what is in use that does not run into the two defects. -/
def UfsCall.Orderly (v : Volume) : UfsCall → Prop
  | create dir _ _ _ | mkdir dir _ _ _ | symlink dir _ _ _ => v.LiveDir dir.fsData.toNat
  | write node _ size offset _ => node.type = .file → v.HasInode node.fsData.toNat →
      v.Live node.fsData.toNat ∧ (v.inode node.fsData.toNat).isDir = false ∧
        v.WritesBack node.fsData.toNat size offset
  | unlink dir name => v.LiveDir dir.fsData.toNat ∧
      ∀ n, v.find dir.fsData.toNat name = some n → n ≠ 1 ∧ v.SoleEntry dir.fsData.toNat n
  | rename oldDir _ newDir _ => v.LiveDir oldDir.fsData.toNat ∧ v.LiveDir newDir.fsData.toNat

/-- What orderly calls keep. -/
structure Volume.Kept (v : Volume) : Prop where
  intact : v.Intact
  formed : v.FormedDirs
  booked : v.Booked
  linked : v.Linked

theorem Volume.Kept.call {v : Volume} (h : v.Kept) {c : UfsCall} (hc : c.Orderly v) :
    (c.apply v).Kept := by
  have hmake : ∀ {dir : VfsNode} (name : CStr) {node : NewNode}, v.LiveDir dir.fsData.toNat →
      node.Formed → Volume.NamesOnly node dir.fsData.toNat →
      (v.make dir.fsData.toNat name node).2.Kept := fun name node hd hformed hnames =>
    ⟨h.intact.make _ _ _, h.formed.make h.intact _ _ hformed, h.booked.make h.intact hd.live _ _,
      h.linked.make h.intact hd _ hnames⟩
  cases c with
  | create dir name mode ticks =>
    exact hmake name hc (formed_fileNode _ _) (Volume.namesOnly_fileNode)
  | mkdir dir name mode ticks =>
    exact hmake name hc (formed_dirNode _ _ _)
      (Volume.namesOnly_dirNode dir.fsData.isLt)
  | symlink dir name target ticks =>
    exact hmake name hc (formed_linkNode _ _) (Volume.namesOnly_linkNode)
  | write node buf size offset ticks =>
    simp only [UfsCall.apply]
    split
    · rename_i hn
      obtain ⟨hlive, hfile, hback⟩ := hc hn.1 hn.2
      exact ⟨h.intact.write hn.2 _ _ _ _, h.formed.write h.intact hn.2 hfile _ _ _ _,
        h.booked.write h.intact hlive buf hback ticks,
        h.linked.write h.intact hn.2 hfile buf size offset ticks⟩
    · exact h
  | unlink dir name =>
    obtain ⟨hd, hsole⟩ := hc
    exact ⟨h.intact.unlink _ _, h.formed.unlink h.intact _ _,
      h.booked.unlink h.intact name (h.formed _ hd)
        (fun n hfind => h.linked.find_live h.intact hd (h.formed _ hd) hfind),
      h.linked.unlink h.intact h.formed hd name hsole⟩
  | rename oldDir oldName newDir newName =>
    obtain ⟨hd1, hd2⟩ := hc
    exact ⟨h.intact.rename _ _ _ _, h.formed.rename h.intact _ _ _ _,
      h.booked.rename h.intact h.formed hd1 hd2 _ _,
      h.linked.rename h.intact h.formed hd1 hd2 _ _⟩

/-! ## A fresh volume -/

section Fresh

variable {total : Nat} (hsmall : total + 32767 < 2 ^ 32) (ticks : BitVec 32) (old : Bytes)

include hsmall

theorem freshVolume_booked (hroom : formatDataStart total < total) :
    (freshVolume total ticks old).Booked := by
  have hblocks := freshVolume_blocksOf hsmall ticks old
  refine ⟨fun n hn => ?_, ⟨fun b hb hbit => ?_, ?_⟩, ?_⟩
  · rw [hblocks]
    split
    · rename_i h1
      rw [h1] at hn
      exact absurd hn (mode_ne_of_isDir (isDir_rootInode _ _))
    · rfl
  · refine ⟨1, ?_⟩
    have hlo : formatDataStart total ≤ b := (Finset.mem_Ico.mp hb).1
    have hle : b ≤ formatDataStart total := by simpa [freshVolume] using hbit
    rw [hblocks, Nat.le_antisymm hle hlo]
    exact mem_singleton.mpr rfl
  · have hset : (Finset.Ico (formatDataStart total) total).filter
        (fun b => decide (b ≤ formatDataStart total) = false) =
        Finset.Ico (formatDataStart total + 1) total := by
      ext b
      simp only [Finset.mem_filter, Finset.mem_Ico, decide_eq_false_iff_not]
      omega
    change (BitVec.ofNat 32 (total - formatDataStart total - 1)).toNat =
      ((Finset.Ico (formatDataStart total) total).filter
        (fun b => decide (b ≤ formatDataStart total) = false)).card
    rw [hset, Nat.card_Ico, BitVec.toNat_ofNat]
    omega
  · have hset : (Finset.Icc 1 1024).filter
        (fun n => (freshVolume total ticks old).inUse n = false) = Finset.Icc 2 1024 := by
      ext n
      simp only [Finset.mem_filter, Finset.mem_Icc]
      by_cases h1 : n = 1
      · subst h1
        have hroot := mode_ne_of_isDir (isDir_rootInode ticks (formatDataStart total))
        simp [Volume.inUse, freshVolume_root, hroot]
      · have hzero : (freshVolume total ticks old).inUse n = false := by
          rw [Volume.inUse, freshVolume_other _ _ _ h1]
          rfl
        simp only [hzero, and_true]
        omega
    change 1023 = ((Finset.Icc 1 1024).filter
      (fun n => (freshVolume total ticks old).inUse n = false)).card
    rw [hset, Nat.card_Icc]

theorem freshVolume_linked : (freshVolume total ticks old).Linked := by
  have hroot : (freshVolume total ticks old).LiveDir 1 :=
    ⟨⟨Nat.le_refl 1, show 1 ≤ 1024 by omega⟩, by rw [freshVolume_root]; exact isDir_rootInode _ _⟩
  refine ⟨hroot, fun {d s} hd hs hused => ?_⟩
  by_cases h1 : d = 1
  · rw [h1, freshVolume_slotsOf hsmall, blockSlots_dots] at hs
    simp only [mem_cons, mem_replicate] at hs
    rcases hs with rfl | rfl | ⟨-, rfl⟩
    · exact hroot.live
    · exact hroot.live
    · cases hused
  · have hdir := hd.2
    rw [freshVolume_other _ _ _ h1] at hdir
    simp [UfsInode.isDir, UfsInode.zero] at hdir

end Fresh

/-- **Orderly histories keep a volume consistent.** -/
theorem orderly_history_consistent {dev : BlockDevice} {ticks : BitVec 32} {m : UfsMount}
    (h : FreshMount dev ticks m) (cs : List UfsCall)
    (hcs : Runs.Guarded UfsCall.run (fun m c => c.Orderly m.volume) m cs) :
    (Runs.run UfsCall.run m cs).volume.Consistent := by
  have hlast := hcs.invariant (I := fun m => Mounted m ∧ m.volume.Kept)
    (fun m c hm hc => by
      obtain ⟨hm, hkept⟩ := hm
      obtain ⟨hvol, hmounted⟩ := hm.call c
      exact ⟨hmounted, by rw [hvol]; exact hkept.call hc⟩)
    ⟨h.isMounted, h.intact, ?_, ?_, ?_⟩
  · exact hlast.2.linked.consistent hlast.2.intact hlast.2.booked
  · rw [h.volume_eq]
    exact freshVolume_formedDirs h.small _ _
  · rw [h.volume_eq]
    exact freshVolume_booked h.small _ _ h.room
  · rw [h.volume_eq]
    exact freshVolume_linked h.small _ _

/-- A history that makes a directory. -/
theorem orderly_history_consistent_dir : ∃ m, FreshMount fortyBlocks 0#32 m ∧
    (Runs.run UfsCall.run m
      [.mkdir rootNode (shortName 100#8 (by decide)) 0#32 0#32]).volume.Consistent := by
  obtain ⟨m, hm, hv⟩ := fortyBlocks_mount
  refine ⟨m, hm, orderly_history_consistent hm _ ⟨?_, trivial⟩⟩
  change m.volume.LiveDir 1
  rw [hv]
  decide +kernel

/-- Unlinking `.` in a new directory: its entry in the root names a free inode. -/
theorem unlink_dot_not_consistent : ∃ m, FreshMount fortyBlocks 0#32 m ∧
    ¬ (Runs.run UfsCall.run m [.mkdir rootNode (shortName 100#8 (by decide)) 0#32 0#32,
        .unlink { type := .dir, mode := 0#32, size := 0, fsData := 2#32 }
          (shortName 46#8 (by decide))]).volume.Consistent := by
  obtain ⟨m, hm, hv⟩ := fortyBlocks_mount
  refine ⟨m, hm, fun hcons => ?_⟩
  rw [(hm.isMounted.run _).1, hv] at hcons
  have hlive := hcons.reachable _ (.entry (s := named 2 (shortName 100#8 (by decide)))
    .root (by decide +kernel) (by decide +kernel) (by decide +kernel))
  exact absurd hlive (by decide +kernel)

end Utms7
