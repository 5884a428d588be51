import Utms7.UfsCreate
import Utms7.UfsTidy

/-!
# A directory as a finite map

A history of creations and deletions in one directory should leave it as the
map that the history describes: each name leads to the inode of its last
creation, unless it was deleted since.

Two things stand in the way.  An entry keeps 55 bytes of its name, so a longer
name is never found again.  And the size of a directory counts its entries
while the entries stay where they are, so blocks can drop out of sight: a
deletion can hide the entries of the last block, and a new block can be
inserted behind blocks that the size does not reach.  Where neither happens
the directory is the map.
-/

namespace Utms7

open ByteMemory Volume Function

/-- A call that changes one directory. -/
inductive DirCall where
  | create (k : Creation) (name : CStr) (ticks : BitVec 32)
  | unlink (name : CStr)

namespace DirCall

/-- The call, on directory `dir`. -/
def run (dir : VfsNode) (m : UfsMount) : DirCall → Int × UfsMount
  | create k name ticks => k.run m dir name ticks
  | unlink name => ufsVfsUnlink m dir name

/-- What the call makes of the map from names to inodes: a creation enters the
inode that `ufs_alloc_inode` hands out. -/
def record (m : UfsMount) (names : CStr → Option Nat) : DirCall → CStr → Option Nat
  | create _ name _ => update names name (some (ufsAllocInode m).1)
  | unlink name => update names name none

/-- One step of a history, on the device and on the map. -/
def step (dir : VfsNode) (s : UfsMount × (CStr → Option Nat)) (c : DirCall) :
    UfsMount × (CStr → Option Nat) :=
  ((c.run dir s.1).2, c.record s.1 s.2)

/-- Where the call leaves the entries of directory `d` in sight: a created name
fits into a record, and its entry goes into a slot or a block that the size
covers; a deleted entry does not name the directory itself, and the size that
is left covers the other entries. -/
def KeepsSight (v : Volume) (d : Nat) : DirCall → Prop
  | create k name ticks =>
    name.chars.length ≤ 55 ∧ (v.inode d).size.toNat + 64 + 4095 < 2 ^ 32 ∧
      ∀ nb, v.scan (v.inode d) direntFree = none → v.entryBlock (k.node d ticks) = some nb →
        v.JoinsWithin d nb (ufsDirBlocks (v.inode d))
  | unlink name => v.find d name ≠ some d ∧ v.CoversRest d name

end DirCall

section

variable {v w : Volume} {d n : Nat} {name : CStr} {node : NewNode}

theorem Volume.TidyDir.congr (ht : v.TidyDir d) (hinode : w.inode d = v.inode d)
    (hslots : w.slotsOf d = v.slotsOf d) : w.TidyDir d := by
  refine ⟨?_, ?_⟩
  · unfold FormedDir
    rw [hslots]
    exact ht.formed
  · rw [hinode, hslots]
    exact ht.tidy

/-- **A successful creation in a tidy directory.** -/
theorem Volume.TidyDir.make (ht : v.TidyDir d) (h : v.Intact) (hd : v.LiveDir d)
    (hshort : name.chars.length ≤ 55) (hwrap : (v.inode d).size.toNat + 64 + 4095 < 2 ^ 32)
    (hroom : ∀ nb, v.scan (v.inode d) direntFree = none → v.entryBlock node = some nb →
      v.JoinsWithin d nb (ufsDirBlocks (v.inode d))) (hok : (v.make d name node).1 = true) :
    (v.make d name node).2.TidyDir d ∧ ∃ n, v.nextInode = some n ∧
      ∀ x, (v.make d name node).2.find d x = if x = name then some n else v.find d x := by
  refine make_cases v d name node ?_ ?_ ?_ hok
  · intro _ hok
    cases hok
  · intro n _ _ _ _ hok
    cases hok
  · intro n w hfind hn hw hok
    have hi := (nextInode_spec hn).1
    have hwv := h.prepared hi hw
    have hdw := (hw.follows.shape.hasInode_iff d).mpr hd.1
    obtain ⟨hinode, hslots⟩ := hw.dir_eq h (LiveDir.ne_nextInode hd hn)
    have htw := ht.congr hinode hslots
    have hsame : ∀ x, w.find d x = v.find d x := fun x => by
      rw [htw.find_eq hwv hdw, ht.find_eq h hd.1, hslots]
    obtain ⟨htidy, hmap⟩ := htw.addEntry hwv hdw ((hw.follows.shape.hasInode_iff n).mpr hi)
      hshort (by rwa [hinode]) (fun nb hfull hnext => by
        have hvis : w.visible d = v.visible d := by
          unfold visible
          rw [hinode, hslots]
        rw [hvis, ← scan_free_eq_none_iff h hd.1] at hfull
        rw [hw.nextBlock_eq] at hnext
        unfold JoinsWithin
        rw [hinode]
        exact hroom nb hfull hnext) hok (by rw [hsame, hfind])
    exact ⟨htidy, n, hn, fun x => by rw [hmap, hsame]⟩

/-- **A successful deletion in a tidy directory.** -/
theorem Volume.TidyDir.unlink (ht : v.TidyDir d) (h : v.Intact) (hd : v.HasInode d)
    (hself : v.find d name ≠ some d) (hrest : v.CoversRest d name)
    (hok : (v.unlink d name).1 = true) : (v.unlink d name).2.TidyDir d ∧
      ∀ x, (v.unlink d name).2.find d x = if x = name then none else v.find d x := by
  unfold Volume.unlink at hok ⊢
  cases hfind : v.find d name with
  | none =>
    rw [hfind] at hok
    cases hok
  | some t =>
    rw [hfind] at hok
    dsimp only at hok ⊢
    split at hok
    · cases hok
    rename_i hgo
    rw [if_neg hgo]
    have hne : d ≠ t := by
      rintro rfl
      exact hself hfind
    have htouch := ((Touches.refl v).freeInodeBlocks (I := (· = t)) h.placed h.sized rfl).freeInode
      rfl
    have hslots := htouch.slotsOf_eq h.owned hne
    have hinode := htouch.inode d hne
    have htw := ht.congr hinode hslots
    have hdw := (htouch.shape.hasInode_iff d).mpr hd
    have hsame : ∀ x, ((v.freeInodeBlocks t).freeInode t).find d x = v.find d x := fun x => by
      rw [htw.find_eq (h.freeFile t) hdw, ht.find_eq h hd, hslots]
    obtain ⟨-, htidy, hmap⟩ := htw.removeEntry (h.freeFile t) hdw
      (by rw [hsame, hfind]; simp) (by
        unfold CoversRest
        rw [hinode, hslots]
        exact hrest)
    exact ⟨htidy, fun x => by rw [hmap, hsame]⟩

theorem LiveDir.make (hd : v.LiveDir d) (name : CStr) (node : NewNode) :
    (v.make d name node).2.LiveDir d := by
  refine make_cases v d name node (fun _ => hd) ?_ ?_
  · intro n _ hn _ _
    have hne := LiveDir.ne_nextInode hd hn
    have hs := (v.takeInode_sameShape n).trans (freeInode_sameShape _ n)
    refine (hs.liveDir_iff ?_).mpr hd
    rw [freeInode_inode (((v.takeInode_sameShape n).hasInode_iff n).mpr (nextInode_spec hn).1)]
    simp [hne, takeInode, setInode]
  · intro n w _ hn hw
    have hne := LiveDir.ne_nextInode hd hn
    have hmode : (w.inode d).mode = (v.inode d).mode := by
      cases hw <;> simp [setInode, hne, takeInode, takeBlock, setData, setBit]
    refine ((hw.follows.shape.trans (addEntry_follows w d n name node.type).shape).liveDir_iff
      ?_).mpr hd
    rw [addEntry_mode, hmode]

theorem LiveDir.unlink (hd : v.LiveDir d) (hself : v.find d name ≠ some d) :
    (v.unlink d name).2.LiveDir d := by
  refine ((v.unlink_follows d name).shape.liveDir_iff ?_).mpr hd
  unfold Volume.unlink
  split
  · rfl
  rename_i t hfind
  have hne : d ≠ t := by
    rintro rfl
    exact hself hfind
  split
  · rfl
  rename_i hgo
  have hi : v.HasInode t := by
    by_contra hi
    exact hgo (.inl hi)
  rw [removeEntry_mode, freeFile_inode hi]
  simp [hne]

end

/-! ## Histories -/

/-- The device holds the map. -/
structure HoldsMap (dir : VfsNode) (s : UfsMount × (CStr → Option Nat)) : Prop where
  mounted : Mounted s.1
  intact : s.1.volume.Intact
  live : s.1.volume.LiveDir dir.fsData.toNat
  tidy : s.1.volume.TidyDir dir.fsData.toNat
  agrees : ∀ x, ufsFindInDir s.1 dir.fsData.toNat x = s.2 x

/-- The calls of a history succeed, and keep the entries in sight. -/
def DirCall.Allowed (dir : VfsNode) (s : UfsMount × (CStr → Option Nat)) (c : DirCall) : Prop :=
  (c.run dir s.1).1 = 0 ∧ c.KeepsSight s.1.volume dir.fsData.toNat

theorem HoldsMap.step {dir : VfsNode} {s : UfsMount × (CStr → Option Nat)} {c : DirCall}
    (h : HoldsMap dir s) (hc : c.Allowed dir s) : HoldsMap dir (c.step dir s) := by
  have hfind := fun x => (h.mounted.holds.find_eq h.mounted.placed dir.fsData.toNat x).symm.trans
    (h.agrees x)
  obtain ⟨hok, hsight⟩ := hc
  cases c with
  | create k name ticks =>
    obtain ⟨hshort, hwrap, hroom⟩ := hsight
    have hsim := h.mounted.holds.creation h.mounted.placed dir name ticks k
    have hm := hsim.holds.mounted_of_placed (h.intact.make _ _ _).placed
    have hvol := hsim.holds.rep.volume_eq
    obtain ⟨htidy, n, hn, hmap⟩ := h.tidy.make h.intact h.live hshort hwrap hroom
      (hsim.code.mp hok)
    refine ⟨hm, ?_, ?_, ?_, fun x => ?_⟩
    · change (k.run s.1 dir name ticks).2.volume.Intact
      rw [hvol]
      exact h.intact.make _ _ _
    · change (k.run s.1 dir name ticks).2.volume.LiveDir _
      rw [hvol]
      exact LiveDir.make h.live _ _
    · change (k.run s.1 dir name ticks).2.volume.TidyDir _
      rw [hvol]
      exact htidy
    · change ufsFindInDir (k.run s.1 dir name ticks).2 _ x =
        update s.2 name (some (ufsAllocInode s.1).1) x
      rw [hm.holds.find_eq hm.placed, hvol, hmap, (h.mounted.holds.allocInode_some hn).1,
        update_apply, hfind]
  | unlink name =>
    obtain ⟨hself, hrest⟩ := hsight
    have hsim := h.mounted.holds.unlink h.mounted.placed dir name
    have hm := hsim.holds.mounted_of_placed (h.intact.unlink _ _).placed
    have hvol := hsim.holds.rep.volume_eq
    obtain ⟨htidy, hmap⟩ := h.tidy.unlink h.intact h.live.1 hself hrest (hsim.code.mp hok)
    refine ⟨hm, ?_, ?_, ?_, fun x => ?_⟩
    · change (ufsVfsUnlink s.1 dir name).2.volume.Intact
      rw [hvol]
      exact h.intact.unlink _ _
    · change (ufsVfsUnlink s.1 dir name).2.volume.LiveDir _
      rw [hvol]
      exact LiveDir.unlink h.live hself
    · change (ufsVfsUnlink s.1 dir name).2.volume.TidyDir _
      rw [hvol]
      exact htidy
    · change ufsFindInDir (ufsVfsUnlink s.1 dir name).2 _ x = update s.2 name none x
      rw [hm.holds.find_eq hm.placed, hvol, hmap, update_apply, hfind]

theorem Mounted.creation_refused {m : UfsMount} (hm : Mounted m) {dir : VfsNode} {name : CStr}
    (hfind : (ufsFindInDir m dir.fsData.toNat name).isSome) (k : Creation) (ticks : BitVec 32) :
    (k.run m dir name ticks).1 ≠ 0 := by
  have hsim := hm.holds.creation hm.placed dir name ticks k
  rw [hm.holds.find_eq hm.placed] at hfind
  rw [ne_eq, hsim.code, Volume.make, if_pos hfind]
  simp

/-- **A directory is the map of its history**, as long as each call leaves its
entries in sight. -/
theorem directory_history_map {m : UfsMount} (hm : Mounted m) (hv : m.volume.Intact)
    (dir : VfsNode) (hd : m.volume.LiveDir dir.fsData.toNat)
    (ht : m.volume.TidyDir dir.fsData.toNat) (cs : List DirCall)
    (hcs : Runs.Guarded (DirCall.step dir) (DirCall.Allowed dir)
      (m, ufsFindInDir m dir.fsData.toNat) cs) :
    let s := Runs.run (DirCall.step dir) (m, ufsFindInDir m dir.fsData.toNat) cs
    (∀ x, ufsFindInDir s.1 dir.fsData.toNat x = s.2 x) ∧
      ∀ x, (s.2 x).isSome → ∀ k ticks, (Creation.run s.1 dir x ticks k).1 ≠ 0 := by
  have h := hcs.invariant (I := HoldsMap dir) (fun s c => HoldsMap.step)
    ⟨hm, hv, hd, ht, fun _ => rfl⟩
  refine ⟨h.agrees, fun x hx k ticks => h.mounted.creation_refused ?_ k ticks⟩
  rw [h.agrees]
  exact hx

/-! ## New directories -/

theorem tidy_direntDots {self parent : Nat} (hself : 1 ≤ self ∧ self < 2 ^ 32)
    (hparent : 1 ≤ parent ∧ parent < 2 ^ 32) :
    Tidy (blockSlots (direntDots self parent)) 128#32 := by
  have hused : ∀ {n : Nat} (name : List (BitVec 8)), 1 ≤ n ∧ n < 2 ^ 32 →
      (DirSlot.dots n name).used = true := by
    intro n name hn
    have hne : BitVec.ofNat 32 n ≠ 0#32 := by
      intro h0
      have := congrArg BitVec.toNat h0
      simp at this
      omega
    simpa [DirSlot.dots, DirSlot.used] using hne
  have hzero : usedNames (List.replicate 62 DirSlot.zero) = [] := by
    simp [usedNames, DirSlot.zero_unused]
  have hnames : usedNames (blockSlots (direntDots self parent)) = [[46#8], [46#8, 46#8]] := by
    rw [blockSlots_dots, usedNames_cons, usedNames_cons, hused _ hself, hused _ hparent]
    rfl
  refine ⟨⟨by decide, by rw [hnames]; decide, by rw [hnames]; decide⟩, fun s hs => ?_⟩
  have hcov : 64 * coveredBlocks 128#32 = 64 := by decide
  cases hs

theorem freshVolume_tidyDir {total : Nat} (hsmall : total + 32767 < 2 ^ 32) (ticks : BitVec 32)
    (old : Bytes) : (freshVolume total ticks old).TidyDir 1 := by
  refine ⟨fun s hs => ?_, ?_⟩
  · rw [freshVolume_slotsOf hsmall] at hs
    exact formed_direntDots 1 1 hs
  · rw [freshVolume_slotsOf hsmall]
    exact tidy_direntDots (by decide) (by decide)

/-- The root of a fresh volume, and a file in it. -/
theorem directory_history_map_root : ∃ m, FreshMount fortyBlocks 0#32 m ∧
    ∀ x, ufsFindInDir (ufsVfsCreate m rootNode (shortName 97#8 (by decide)) 0#32 0#32).2 1 x =
      update (ufsFindInDir m 1) (shortName 97#8 (by decide))
        (some (ufsAllocInode m).1) x := by
  obtain ⟨m, hm, hv⟩ := fortyBlocks_mount
  have hsim := hm.isMounted.holds.create hm.isMounted.placed rootNode
    (shortName 97#8 (by decide)) 0#32 0#32
  refine ⟨m, hm, ?_⟩
  have hmap := (directory_history_map hm.isMounted hm.intact rootNode ?_ ?_
    [.create (.file 0#32) (shortName 97#8 (by decide)) 0#32] ⟨⟨?_, ?_, ?_, ?_⟩, trivial⟩).1
  · exact hmap
  · rw [hv]
    decide +kernel
  · rw [hv]
    exact freshVolume_tidyDir (by decide) _ _
  · refine hsim.code.mpr ?_
    rw [hv]
    decide +kernel
  · decide
  · rw [hv]
    decide +kernel
  · intro nb hscan
    rw [hv] at hscan
    exact absurd hscan (by decide +kernel)

/-- A name of 60 characters. -/
def longName : CStr := ⟨List.replicate 60 97#8, by decide⟩

/-- A file with a long name is created, and lookup does not find it. -/
theorem longName_not_found : ∃ m, FreshMount fortyBlocks 0#32 m ∧
    m.volume.LiveDir rootNode.fsData.toNat ∧
    ((DirCall.create (.file 0#32) longName 0#32).run rootNode m).1 = 0 ∧
    ufsFindInDir (Runs.run (DirCall.step rootNode) (m, ufsFindInDir m rootNode.fsData.toNat)
        [.create (.file 0#32) longName 0#32]).1 rootNode.fsData.toNat longName ≠
      (Runs.run (DirCall.step rootNode) (m, ufsFindInDir m rootNode.fsData.toNat)
        [.create (.file 0#32) longName 0#32]).2 longName := by
  obtain ⟨m, hm, hv⟩ := fortyBlocks_mount
  have hsim := hm.isMounted.holds.create hm.isMounted.placed rootNode longName 0#32 0#32
  have hm' := hsim.holds.mounted_of_placed (hm.intact.make _ _ _).placed
  refine ⟨m, hm, ?_, hsim.code.mpr ?_, ?_⟩
  · rw [hv]
    decide +kernel
  · rw [hv]
    decide +kernel
  · change ufsFindInDir (ufsVfsCreate m rootNode longName 0#32 0#32).2 _ longName ≠
      update (ufsFindInDir m rootNode.fsData.toNat) longName
        (some (ufsAllocInode m).1) longName
    rw [hm'.holds.find_eq hm'.placed, hsim.holds.rep.volume_eq, hv]
    have hnone : ((freshVolume 40 0#32 zeros).make rootNode.fsData.toNat longName
        (fileNode 0#32 0#32)).2.find rootNode.fsData.toNat longName = none := by decide +kernel
    rw [hnone]
    simp

end Utms7
