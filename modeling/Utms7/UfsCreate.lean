import Utms7.UfsListing

/-!
# Creations that fail

`ufs_vfs_create`, `ufs_vfs_mkdir` and `ufs_vfs_symlink` take an inode, fill it,
give it a block if it needs one, and put it into the directory last.  They undo
the first two steps when a block is missing, but none of them looks at what
they have done when the directory has no room: the inode, and the block with
it, stays in use and nothing names it.

So a failed creation leaves a trace exactly when it gets as far as the entry.
-/

namespace Utms7

open ByteMemory Volume

/-- What can be created. -/
inductive Creation where
  | file (mode : BitVec 32)
  | dir (mode : BitVec 32)
  | link (target : CStr)

namespace Creation

/-- The call that creates it. -/
def run (m : UfsMount) (dir : VfsNode) (name : CStr) (ticks : BitVec 32) :
    Creation → Int × UfsMount
  | file mode => ufsVfsCreate m dir name mode ticks
  | .dir mode => ufsVfsMkdir m dir name mode ticks
  | link target => ufsVfsSymlink m dir name target ticks

/-- The object that is created in directory `d`. -/
def node (d : Nat) (ticks : BitVec 32) : Creation → NewNode
  | file mode => fileNode mode ticks
  | dir mode => dirNode d mode ticks
  | link target => linkNode target ticks

end Creation

theorem Holds.creation {m : UfsMount} {v : Volume} (h : Holds m v) (hp : v.Placed)
    (dir : VfsNode) (name : CStr) (ticks : BitVec 32) (k : Creation) :
    Simulates (k.run m dir name ticks)
      (v.make dir.fsData.toNat name (k.node dir.fsData.toNat ticks)) := by
  cases k with
  | file mode => exact h.create hp dir name mode ticks
  | dir mode => exact h.mkdir hp dir name mode ticks
  | link target => exact h.symlink hp dir name target ticks

/-- Bitmap, inodes in use, counters and directories are as before. -/
structure Volume.Untouched (v v' : Volume) : Prop where
  bitmap : v'.bit = v.bit
  live : ∀ n, v.HasInode n → ((v'.inode n).mode ≠ 0#16 ↔ (v.inode n).mode ≠ 0#16)
  freeBlocks : v'.freeBlocks = v.freeBlocks
  freeInodes : v'.freeInodes = v.freeInodes
  entries : ∀ n, v.LiveDir n → v'.entries n = v.entries n

/-- The block that is left for the directory when the new object has its own. -/
def Volume.entryBlock (v : Volume) (node : NewNode) : Option Nat :=
  if node.firstBlock.isSome then v.nextBlock.bind fun b => (v.takeBlock b).nextBlock
  else v.nextBlock

/-- The creation does not get to the entry, or the directory has room for it. -/
def Volume.CreationClean (v : Volume) (d : Nat) (name : CStr) (node : NewNode) : Prop :=
  (v.find d name).isSome ∨ v.nextInode = none ∨
    (node.firstBlock.isSome ∧ v.nextBlock = none) ∨
    (v.scan (v.inode d) direntFree).isSome ∨
    ∃ nb, v.entryBlock node = some nb ∧ appendFits (v.inode d).extents nb = true

section

variable {v w : Volume} {d n : Nat} {name : CStr} {node : NewNode}

theorem Volume.Prepared.nextBlock_eq (h : Prepared v n node w) :
    w.nextBlock = v.entryBlock node := by
  cases h with
  | plain h =>
    rw [entryBlock, h]
    rfl
  | @block contents b h hb =>
    rw [entryBlock, h, hb]
    rfl

theorem Volume.Untouched.refl (v : Volume) : v.Untouched v :=
  ⟨rfl, fun _ _ => Iff.rfl, rfl, rfl, fun _ _ => rfl⟩

/-- An inode that was taken for want of a block is given back. -/
theorem untouched_freeInode (hv : v.Intact) (hn : v.nextInode = some n) :
    v.Untouched ((v.takeInode n).freeInode n) := by
  obtain ⟨hi, hmode⟩ := nextInode_spec hn
  have hi' := ((v.takeInode_sameShape n).hasInode_iff n).mpr hi
  have ht := ((Touches.refl v).takeInode (I := (· = n)) rfl).freeInode rfl
  have hinode := freeInode_inode hi'
  refine ⟨?_, fun k _ => ?_, ?_, ?_, fun k hk => ?_⟩
  · rw [freeInode, if_pos hi']
    rfl
  · rw [hinode]
    by_cases hkn : k = n
    · simp [hkn, hmode, UfsInode.zero]
    · simp [hkn, takeInode, setInode]
  · rw [freeInode, if_pos hi']
    rfl
  · rw [freeInode, if_pos hi']
    exact BitVec.sub_add_cancel _ _
  · have hkn := LiveDir.ne_nextInode hk hn
    rw [entries_eq hk.1, entries_eq ((ht.shape.hasInode_iff k).mpr hk.1),
      ht.slotsOf_eq hv.owned hkn]

/-- A creation that gets to the entry and fails there leaves its inode in use. -/
theorem not_untouched_of_live {v' : Volume} (hn : v.nextInode = some n)
    (hlive : (v'.inode n).mode ≠ 0#16) : ¬ v.Untouched v' := by
  intro h
  obtain ⟨hi, hmode⟩ := nextInode_spec hn
  exact (h.live n hi).mp hlive hmode

/-- **When a failed creation leaves no trace**, on a volume. -/
theorem make_untouched_iff (hv : v.Intact) (hd : v.LiveDir d) :
    ((v.make d name node).1 = false → v.Untouched (v.make d name node).2) ↔
      v.CreationClean d name node := by
  refine make_cases v d name node ?_ ?_ ?_
  · rintro (hfound | hnone)
    · exact ⟨fun _ => .inl hfound, fun _ _ => .refl v⟩
    · exact ⟨fun _ => .inr (.inl hnone), fun _ _ => .refl v⟩
  · intro n _ hn hfirst hblock
    exact ⟨fun _ => .inr (.inr (.inl ⟨hfirst, hblock⟩)), fun _ _ => untouched_freeInode hv hn⟩
  · intro n w hfind hn hw
    have hne := LiveDir.ne_nextInode hd hn
    have hwv := hv.prepared (nextInode_spec hn).1 hw
    have hdw := (hw.follows.shape.hasInode_iff d).mpr hd.1
    obtain ⟨hinode, hslots⟩ := hw.dir_eq hv hne
    have hvis : w.visible d = v.visible d := by
      unfold visible
      rw [hinode, hslots]
    -- A failure at the entry falls under none of the cases.
    have hfail : (∀ s ∈ w.visible d, s.used = true) →
        (∀ nb, w.nextBlock = some nb → appendFits (w.inode d).extents nb = false) →
        ¬ v.CreationClean d name node := by
      intro hfull hfits
      rintro (hfound | hnone | ⟨hfirst, hblock⟩ | hslot | ⟨nb, hnb, hnbfits⟩)
      · rw [hfind] at hfound
        cases hfound
      · rw [hn] at hnone
        cases hnone
      · cases hw with
        | plain h =>
          rw [h] at hfirst
          cases hfirst
        | block h hb =>
          rw [hb] at hblock
          cases hblock
      · rw [hvis, ← scan_free_eq_none_iff hv hd.1] at hfull
        rw [hfull] at hslot
        cases hslot
      · have := hfits nb (hw.nextBlock_eq.trans hnb)
        rw [hinode, hnbfits] at this
        cases this
    refine addEntry_cases hwv hdw n name node.type ?_ ?_ ?_ ?_
    · intro p s v' hp hs hunused _
      refine ⟨fun _ => .inr (.inr (.inr (.inl ?_))), fun _ h => by cases h⟩
      rw [Option.isSome_iff_ne_none, ne_eq, scan_free_eq_none_iff hv hd.1]
      intro hfull
      have hmem : s ∈ v.visible d := by
        rw [← hvis]
        exact List.mem_of_getElem? (by rw [visible, List.getElem?_take_of_lt hp, hs])
      rw [hfull s hmem] at hunused
      cases hunused
    · intro hfull hnext
      refine ⟨fun h => absurd (h rfl) (not_untouched_of_live hn hw.live), fun h => ?_⟩
      exact absurd h (hfail hfull fun nb hnb => by rw [hnext] at hnb; cases hnb)
    · intro nb v' hfull hnext hfits hu
      have hlive : (v'.inode n).mode ≠ 0#16 := by
        rw [hu.rest]
        exact hw.live
      refine ⟨fun h => absurd (h rfl) (not_untouched_of_live hn hlive), fun h => ?_⟩
      refine absurd h (hfail hfull fun nb' hnb => ?_)
      rw [hnext, Option.some.injEq] at hnb
      rw [← hnb]
      exact hfits
    · intro nb v' _ hnext hfits _
      refine ⟨fun _ => .inr (.inr (.inr (.inr ⟨nb, ?_, ?_⟩))), fun _ h => by cases h⟩
      · rw [← hw.nextBlock_eq, hnext]
      · rw [← hinode]
        exact hfits

end

/-- **When a failed creation leaves no trace.**  On an intact volume the three
creating calls leave bitmap, inodes, counters and entries alone when they fail,
if and only if they find the name taken, or no inode, or no block for the new
object, or the directory has room for one more entry. -/
theorem failed_creation_untouched_iff {m : UfsMount} (hm : Mounted m) (hv : m.volume.Intact)
    (dir : VfsNode) (hd : m.volume.LiveDir dir.fsData.toNat) (name : CStr) (ticks : BitVec 32)
    (k : Creation) :
    ((k.run m dir name ticks).1 ≠ 0 → m.volume.Untouched (k.run m dir name ticks).2.volume) ↔
      m.volume.CreationClean dir.fsData.toNat name (k.node dir.fsData.toNat ticks) := by
  have hsim := hm.holds.creation hm.placed dir name ticks k
  rw [← make_untouched_iff hv hd, hsim.holds.rep.volume_eq, ne_eq, hsim.code, Bool.not_eq_true]

/-- A device of 38 blocks, of which format leaves none free. -/
def thirtyEightBlocks : BlockDevice := { size := 38 * 4096, disk := zeros }

theorem thirtyEightBlocks_mount : ∃ m, FreshMount thirtyEightBlocks 0#32 m ∧
    m.volume = freshVolume 38 0#32 zeros := by
  obtain ⟨m, hm⟩ := FreshMount.exists_of_room thirtyEightBlocks 0#32 (by decide) (by decide)
  exact ⟨m, hm, hm.volume_eq⟩

/-- There is no block for a directory in the root of a fresh volume. -/
theorem failed_creation_untouched_iff_mkdir : ∃ m, FreshMount thirtyEightBlocks 0#32 m ∧
    ((Creation.dir 0#32).run m rootNode (shortName 97#8 (by decide)) 0#32).1 ≠ 0 ∧
    m.volume.Untouched
      ((Creation.dir 0#32).run m rootNode (shortName 97#8 (by decide)) 0#32).2.volume := by
  obtain ⟨m, hm, hv⟩ := thirtyEightBlocks_mount
  have hsim := hm.isMounted.holds.creation hm.isMounted.placed rootNode
    (shortName 97#8 (by decide)) 0#32 (.dir 0#32)
  have hfails : ((Creation.dir 0#32).run m rootNode (shortName 97#8 (by decide)) 0#32).1 ≠ 0 := by
    rw [ne_eq, hsim.code, hv]
    decide +kernel
  refine ⟨m, hm, hfails,
    (failed_creation_untouched_iff hm.isMounted hm.intact rootNode ?_ _ _ _).mpr ?_ hfails⟩
  · rw [hv]
    decide +kernel
  · rw [hv]
    exact .inr (.inr (.inl (by decide +kernel)))

/-- Both entries of the root are renamed to themselves, which deletes them; the
directory has size 0 then. -/
def emptyTheRoot : List UfsCall :=
  [.rename rootNode (shortName 46#8 dot_ne_nul) rootNode (shortName 46#8 dot_ne_nul),
    .rename rootNode ⟨[46#8, 46#8], dots_noNul⟩ rootNode ⟨[46#8, 46#8], dots_noNul⟩]

theorem failed_creation_leaves_inode : ∃ m, FreshMount thirtyEightBlocks 0#32 m ∧
    (Runs.run UfsCall.run m emptyTheRoot).volume.LiveDir rootNode.fsData.toNat ∧
    ((Creation.file 0#32).run (Runs.run UfsCall.run m emptyTheRoot) rootNode
      (shortName 97#8 (by decide)) 0#32).1 ≠ 0 ∧
    ¬ (Runs.run UfsCall.run m emptyTheRoot).volume.Untouched
      ((Creation.file 0#32).run (Runs.run UfsCall.run m emptyTheRoot) rootNode
        (shortName 97#8 (by decide)) 0#32).2.volume := by
  obtain ⟨m, hm, hv⟩ := thirtyEightBlocks_mount
  obtain ⟨hrun, hmounted⟩ := hm.isMounted.run emptyTheRoot
  rw [hv] at hrun
  have hsim := hmounted.holds.creation hmounted.placed rootNode (shortName 97#8 (by decide)) 0#32
    (.file 0#32)
  refine ⟨m, hm, ?_, ?_, fun h => ?_⟩
  · rw [hrun]
    decide +kernel
  · rw [ne_eq, hsim.code, hrun]
    decide +kernel
  · have hlive := h.freeInodes
    rw [hsim.holds.rep.volume_eq, hrun] at hlive
    exact absurd hlive (by decide +kernel)

end Utms7
