import Mathlib.Order.Interval.Finset.Nat
import Utms7.UfsWriting

/-!
# The books of the allocators

`sb.free_blocks` and `sb.free_inodes` should say how many blocks of the data
area and how many inodes are free, and the bitmap should mark no block that
nobody has.  `Booked` is that, with dead inodes owning nothing; together with
`Intact` it makes the bitmap exact.  Each change that the operations make has
one rule here: a block joins an inode in use, an inode is taken, a file is
given up, or nothing that is booked changes.
-/

namespace Utms7

open ByteMemory Function List Allocation

namespace Volume

variable {v v' : Volume} {n : Nat} {x : BitVec 32} {bs : List Nat}

/-- Whether inode `n` is in use. -/
def inUse (v : Volume) (n : Nat) : Bool := decide ((v.inode n).mode ≠ 0#16)

/-- The books are right. -/
structure Booked (v : Volume) : Prop where
  empty : ∀ n, (v.inode n).mode = 0#16 → v.blocksOf n = []
  blocks : Allocation.Accounted (Finset.Ico v.dataStart v.totalBlocks) v.blocksOf v.bit
    v.freeBlocks.toNat
  inodes : v.freeInodes.toNat = Allocation.unmarked (Finset.Icc 1 v.inodeCount) v.inUse

theorem toNat_sub_one (h : 0 < x.toNat) : (x - 1#32).toNat = x.toNat - 1 := by
  rw [BitVec.toNat_sub]
  simp only [BitVec.toNat_ofNat]
  omega

namespace Booked

/-- Nothing that is booked changes. -/
theorem congr (h : v.Booked) (hs : v.SameShape v')
    (hmode : ∀ k, (v'.inode k).mode = (v.inode k).mode)
    (hheld : ∀ k, v'.blocksOf k = v.blocksOf k) (hbit : v'.bit = v.bit)
    (hblocks : v'.freeBlocks = v.freeBlocks) (hinodes : v'.freeInodes = v.freeInodes) :
    v'.Booked := by
  have hheld : v'.blocksOf = v.blocksOf := funext hheld
  have huse : v'.inUse = v.inUse := funext fun k => by rw [inUse, inUse, hmode]
  refine ⟨fun k hk => ?_, ?_, ?_⟩
  · rw [hheld]
    exact h.empty k (by rwa [hmode] at hk)
  · rw [hs.dataStart, hs.totalBlocks, hheld, hbit, hblocks]
    exact h.blocks
  · rw [hs.inodeCount, hinodes, huse]
    exact h.inodes

/-- The block that the allocator takes next joins inode `n`, which is in use. -/
theorem append (h : v.Booked) (hi : v.Intact) {b : Nat} (hn : v.Live n) (hj : Joins v v' n b)
    (hmode : ∀ k, (v'.inode k).mode = (v.inode k).mode)
    (hblocks : v'.freeBlocks = v.freeBlocks - 1#32) (hinodes : v'.freeInodes = v.freeInodes) :
    v'.Booked := by
  obtain ⟨hlo, hhi, hfree⟩ := nextBlock_spec hj.next
  have huse : v'.inUse = v.inUse := funext fun k => by rw [inUse, inUse, hmode]
  obtain ⟨hpos, hbooks⟩ := h.blocks.grow (Finset.mem_Ico.mpr ⟨hlo, hhi⟩) hfree
    (hj.perm hi.sized hn.1 (hi.placed n hn.1)) hj.blocksOf_other hj.bit_self fun _ => hj.bit_other
  refine ⟨fun k hk => ?_, ?_, ?_⟩
  · rw [hmode] at hk
    have hkn : k ≠ n := by
      rintro rfl
      exact hn.2 hk
    rw [hj.blocksOf_other k hkn]
    exact h.empty k hk
  · rw [hj.shape.dataStart, hj.shape.totalBlocks, hblocks, toNat_sub_one hpos]
    exact hbooks
  · rw [hj.shape.inodeCount, hinodes, huse]
    exact h.inodes

/-- An inode comes into use without blocks. -/
theorem takeInode (h : v.Booked) (hn : v.HasInode n) (hdead : (v.inode n).mode = 0#16)
    (hs : v.SameShape v') (hmode : (v'.inode n).mode ≠ 0#16) (hempty : v'.blocksOf n = [])
    (hother : ∀ k, k ≠ n → v'.inode k = v.inode k) (hbit : v'.bit = v.bit)
    (hblocks : v'.freeBlocks = v.freeBlocks) (hinodes : v'.freeInodes = v.freeInodes - 1#32) :
    v'.Booked := by
  have hheld : v'.blocksOf = v.blocksOf := funext fun k => by
    by_cases hk : k = n
    · rw [hk, hempty, h.empty n hdead]
    · exact hs.blocksOf_eq (by rw [hother k hk])
  have hbefore : v.inUse n = false := by simpa [inUse] using hdead
  have hafter : v'.inUse n = true := by simpa [inUse] using hmode
  have hcount := unmarked_mark (Finset.mem_Icc.mpr hn) hbefore hafter
    (fun k hk => by rw [inUse, inUse, hother k hk])
  have hfree := h.inodes
  refine ⟨fun k hk => ?_, ?_, ?_⟩
  · rw [hheld]
    have hkn : k ≠ n := by
      rintro rfl
      exact hmode hk
    exact h.empty k (by rwa [hother k hkn] at hk)
  · rw [hs.dataStart, hs.totalBlocks, hheld, hbit, hblocks]
    exact h.blocks
  · rw [hs.inodeCount, hinodes, toNat_sub_one (by omega)]
    omega

end Booked

/-! ## Giving up a file -/

theorem freeBlocks_bit_mem {c : Nat} (hbs : ∀ b ∈ bs, 0 < b ∧ b < v.totalBlocks)
    (hc : c ∈ bs) : (bs.foldl freeBlock v).bit c = false := by
  induction bs generalizing v with
  | nil => cases hc
  | cons b bs ih =>
    have hb := hbs b mem_cons_self
    have hrest : ∀ b' ∈ bs, 0 < b' ∧ b' < (v.freeBlock b).totalBlocks := by
      rw [(v.freeBlock_sameShape b).totalBlocks]
      exact fun b' hb' => hbs b' (mem_cons_of_mem _ hb')
    rw [foldl_cons]
    by_cases hcs : c ∈ bs
    · exact ih hrest hcs
    · obtain rfl : c = b := (mem_cons.mp hc).resolve_right hcs
      rw [freeBlocks_bit_other hcs, freeBlock, if_neg (by omega)]
      simp [setBit]

/-- Each block that is freed is counted. -/
theorem freeBlocks_counters (hbs : ∀ b ∈ bs, 0 < b ∧ b < v.totalBlocks) :
    (bs.foldl freeBlock v).freeBlocks = v.freeBlocks + BitVec.ofNat 32 bs.length ∧
      (bs.foldl freeBlock v).freeInodes = v.freeInodes := by
  induction bs generalizing v with
  | nil => simp
  | cons b bs ih =>
    have hb := hbs b mem_cons_self
    obtain ⟨hblocks, hinodes⟩ := ih (v := v.freeBlock b) (by
      rw [(v.freeBlock_sameShape b).totalBlocks]
      exact fun b' hb' => hbs b' (mem_cons_of_mem _ hb'))
    have hone : (v.freeBlock b).freeBlocks = v.freeBlocks + 1#32 := by
      rw [freeBlock, if_neg (by omega)]
    have hsame : (v.freeBlock b).freeInodes = v.freeInodes := by
      unfold freeBlock
      split <;> rfl
    refine ⟨?_, by rw [foldl_cons, hinodes, hsame]⟩
    rw [foldl_cons, hblocks, hone, length_cons, BitVec.add_assoc, Nat.add_comm, BitVec.ofNat_add]

theorem freeInode_counters (hn : v.HasInode n) :
    (v.freeInode n).bit = v.bit ∧ (v.freeInode n).freeBlocks = v.freeBlocks ∧
      (v.freeInode n).freeInodes = v.freeInodes + 1#32 := by
  rw [freeInode, if_pos hn]
  exact ⟨rfl, rfl, rfl⟩

namespace Booked

section

variable (h : v.Booked) {d : Nat}
include h

/-- A file in use is given up. -/
theorem freeFile (hi : v.Intact) (hn : v.Live n) : ((v.freeInodeBlocks n).freeInode n).Booked := by
  have hsmall := hi.sized.small
  have hstart := hi.sized.start
  have hs := v.freeFile_sameShape n
  have hs1 := v.freeInodeBlocks_sameShape n
  have hin := hi.placed n hn.1
  have hbounds : ∀ b ∈ v.blocksOf n, v.dataStart ≤ b ∧ b < v.totalBlocks := by
    rw [blocksOf_of_hasInode hn.1]
    exact fun b hb => hin.mem_bounds hb
  have hfree : v.freeInodeBlocks n = (v.blocksOf n).foldl freeBlock v := by
    rw [freeInodeBlocks, if_pos hn.1, hin.extentBlocks_eq (by omega), blocksOf_of_hasInode hn.1]
  have hpos : ∀ b ∈ v.blocksOf n, 0 < b ∧ b < v.totalBlocks := fun b hb => by
    have := hbounds b hb
    omega
  obtain ⟨hblocks, hinodes⟩ := freeBlocks_counters hpos
  obtain ⟨hbit, hblocks', hinodes'⟩ := freeInode_counters ((hs1.hasInode_iff n).mpr hn.1)
  rw [← hfree] at hblocks hinodes
  have hinode := freeFile_inode hn.1
  have hother : ∀ k, k ≠ n →
      ((v.freeInodeBlocks n).freeInode n).blocksOf k = v.blocksOf k := fun k hk =>
    hs.blocksOf_eq (by rw [hinode, update_of_ne hk])
  have hgone : ((v.freeInodeBlocks n).freeInode n).blocksOf n = [] := by
    rw [blocksOf_of_hasInode ((hs.hasInode_iff n).mpr hn.1), hinode]
    simp [UfsInode.zero]
  have hcleared : ∀ c ∈ v.blocksOf n, ((v.freeInodeBlocks n).freeInode n).bit c = false := by
    intro c hc
    rw [hbit, hfree]
    exact freeBlocks_bit_mem hpos hc
  have hbooks := h.blocks.release hi.owned
    (fun b hb => Finset.mem_Ico.mpr (hbounds b hb)) hother hcleared
    (fun c hc => by rw [hbit, hfree]; exact freeBlocks_bit_other hc)
  have hbefore : v.inUse n = true := by simpa [inUse] using hn.2
  have hafter : ((v.freeInodeBlocks n).freeInode n).inUse n = false := by
    rw [inUse, hinode]
    simp [UfsInode.zero]
  have hcount := unmarked_clear (Finset.mem_Icc.mpr hn.1) hbefore hafter
    (fun k hk => by rw [inUse, inUse, hinode, update_of_ne hk])
  have hleft := h.inodes
  have harea := unmarked_le (Finset.Ico v.dataStart v.totalBlocks)
    ((v.freeInodeBlocks n).freeInode n).bit
  have hinodeArea := unmarked_le (Finset.Icc 1 v.inodeCount)
    ((v.freeInodeBlocks n).freeInode n).inUse
  rw [Nat.card_Ico] at harea
  rw [Nat.card_Icc] at hinodeArea
  have hinodeCount := hi.sized.count
  refine ⟨fun k hk => ?_, ?_, ?_⟩
  · by_cases hkn : k = n
    · rw [hkn, hgone]
    · rw [hother k hkn]
      exact h.empty k (by rwa [hinode, update_of_ne hkn] at hk)
  · have htotal := hbooks.count
    rw [hs.dataStart, hs.totalBlocks, hblocks', hblocks, toNat_add_ofNat (by omega)]
    exact hbooks
  · rw [hs.inodeCount, hinodes', hinodes, toNat_add_ofNat (by omega)]
    omega

/-! ## Directory entries -/

theorem slotChange {p : Nat} {s : DirSlot} {size : BitVec 32} (hs : v.SameShape v')
    (hc : SlotChange v v' d p s size) : v'.Booked := by
  have hinode : ∀ k, (v'.inode k).mode = (v.inode k).mode ∧
      (v'.inode k).extents = (v.inode k).extents := by
    intro k
    rw [hc.rest]
    by_cases hk : k = d
    · simp [hk]
    · simp [hk]
  exact h.congr hs (fun k => (hinode k).1) (fun k => hs.blocksOf_eq (hinode k).2)
    (by rw [hc.rest]) (by rw [hc.rest]) (by rw [hc.rest])

theorem removeEntry (hi : v.Intact) (hf : v.FormedDir d) (name : CStr) :
    (v.removeEntry d name).2.Booked := by
  by_cases hd : v.HasInode d
  · have hs := (v.removeEntry_follows d name).shape
    refine removeEntry_cases hi hd hf name
      (fun _ _ => h) ?_ hs
    intro p s v' _ _ _ _ hc hs
    exact h.slotChange hs hc
  · rw [Volume.removeEntry, if_neg hd]
    exact h

/-- A directory that grows takes a block from the count. -/
theorem addEntry (hi : v.Intact) (hd : v.Live d) (n : Nat) (name : CStr) (type : BitVec 8) :
    (v.addEntry d n name type).2.Booked := by
  have hs := (v.addEntry_follows d n name type).shape
  have hmode := v.addEntry_mode d n name type
  refine addEntry_cases hi hd.1 n name type ?_ ?_ ?_ ?_ hs hmode
  · exact fun p s v' _ _ _ hc hs _ => h.slotChange hs hc
  · exact fun _ _ _ _ => h
  · intro nb v' _ _ _ hu hs hmode
    exact h.congr hs hmode (fun k => hs.blocksOf_eq (by rw [hu.rest])) (by rw [hu.rest])
      (by rw [hu.rest]) (by rw [hu.rest])
  · intro nb v' _ hnext hfits hc hs hmode
    refine h.append hi hd ⟨hnext, hfits, hs, ?_, fun k hk => ?_, ?_⟩ hmode ?_ ?_
    · rw [hc.rest]
      simp
    · rw [hc.rest]
      simp [hk]
    · rw [hc.rest]
    · rw [hc.rest]
    · rw [hc.rest]

/-! ## Objects -/

theorem newInode (hn : v.nextInode = some n) (node : NewNode) :
    ((v.takeInode n).setInode n node.inode).Booked := by
  obtain ⟨hi, hdead⟩ := nextInode_spec hn
  have hs := (v.takeInode_sameShape n).trans (setInode_sameShape _ n node.inode)
  refine h.takeInode hi hdead hs ?_ ?_ (fun k hk => ?_) rfl rfl rfl
  · simpa [setInode] using node.live
  · rw [blocksOf_of_hasInode ((hs.hasInode_iff n).mpr hi)]
    simp [setInode, node.blockList_eq]
  · simp [setInode, hk, Volume.takeInode]

theorem prepared (hi : v.Intact) (hn : v.nextInode = some n) {node : NewNode} {w : Volume}
    (hw : Prepared v n node w) : w.Booked := by
  cases hw with
  | plain => exact h.newInode hn node
  | @block contents b _ hb =>
    obtain ⟨hin, -⟩ := nextInode_spec hn
    -- The inode without its block is a new inode of its own.
    have hplain : Prepared v n { node with firstBlock := none }
        ((v.takeInode n).setInode n node.inode) := .plain rfl
    have hlive : ((v.takeInode n).setInode n node.inode).Live n :=
      ⟨(hplain.follows.shape.hasInode_iff n).mpr hin, by simpa [setInode] using node.live⟩
    exact (h.newInode hn node).append (hi.prepared hin hplain) hlive (.first hb _)
      (setInode_field (·.mode) rfl rfl) rfl rfl

/-- A creation counts its inode and its blocks, or gives them back. -/
theorem make (hi : v.Intact) (hd : v.Live d) (name : CStr) (node : NewNode) :
    (v.make d name node).2.Booked := by
  refine make_cases v d name node (fun _ => h) ?_ ?_
  · intro n _ hn _ _
    obtain ⟨hin, hdead⟩ := nextInode_spec hn
    have hin' := ((v.takeInode_sameShape n).hasInode_iff n).mpr hin
    have hs := (v.takeInode_sameShape n).trans (freeInode_sameShape _ n)
    have hinode := freeInode_inode hin'
    obtain ⟨hbit, hblocks, hinodes⟩ := freeInode_counters hin'
    have hother : ∀ k, k ≠ n → ((v.takeInode n).freeInode n).inode k = v.inode k := by
      intro k hk
      rw [hinode]
      simp [Volume.takeInode, setInode, hk]
    refine h.congr hs (fun k => ?_) (fun k => ?_) hbit hblocks ?_
    · by_cases hk : k = n
      · rw [hk, hinode, update_self, hdead]
        rfl
      · rw [hother k hk]
    · by_cases hk : k = n
      · rw [hk, h.empty n hdead, blocksOf_of_hasInode ((hs.hasInode_iff n).mpr hin), hinode]
        simp [UfsInode.zero]
      · exact hs.blocksOf_eq (by rw [hother k hk])
    · rw [hinodes]
      exact BitVec.sub_add_cancel _ _
  · intro n w _ hn hw
    have hne : d ≠ n := by
      rintro rfl
      exact hd.2 (nextInode_spec hn).2
    refine (h.prepared hi hn hw).addEntry (hi.prepared (nextInode_spec hn).1 hw)
      ⟨(hw.follows.shape.hasInode_iff d).mpr hd.1, ?_⟩ _ _ _
    rw [(hw.dir_eq hi hne).1]
    exact hd.2

/-- A removal counts what it frees. -/
theorem unlink (hi : v.Intact) (name : CStr) (hf : v.FormedDir d)
    (hlive : ∀ n, v.find d name = some n → v.Live n) : (v.unlink d name).2.Booked := by
  unfold Volume.unlink
  split
  · exact h
  · rename_i n hfind
    split
    · exact h
    · have hn := hlive n hfind
      exact (h.freeFile hi hn).removeEntry (hi.freeFile n) (FormedDir.freeFile hi hf hn.1) name

theorem rename (hi : v.Intact) (hf : v.FormedDirs) {d1 d2 : Nat} (hd1 : v.LiveDir d1)
    (hd2 : v.LiveDir d2) (a b : CStr) : (v.rename d1 a d2 b).2.Booked := by
  have hi1 := hi.removeEntry d2 b
  have hf1 := hf.removeEntry hi d2 b
  have hs1 := (v.removeEntry_follows d2 b).shape
  have h1 := h.removeEntry hi (hf d2 hd2) b
  have hd1' := (hs1.liveDir_iff (removeEntry_mode v d2 b d1)).mpr hd1
  have h2 := h1.removeEntry hi1 (hf1 d1 hd1') a
  unfold Volume.rename
  split
  · exact h
  split
  · exact h
  simp only
  split
  · refine h2.addEntry (hi1.removeEntry d1 a) ⟨?_, ?_⟩ _ _ _
    · exact ((hs1.trans (removeEntry_follows _ d1 a).shape).hasInode_iff d2).mpr hd2.1
    · rw [removeEntry_mode, removeEntry_mode]
      exact hd2.live.2
  · exact h2

end

end Booked

/-! ## Writing -/

/-- A write that takes blocks also makes the file longer, so that they get into
the inode table: it stays within the blocks of the file, or starts writing new
ones where the file ends or later. -/
def WritesBack (v : Volume) (n size offset : Nat) : Prop :=
  size = 0 ∨ offset + size ≤ 4096 * (v.blocksOf n).length ∨
    (v.inode n).size.toNat ≤ max offset (4096 * (v.blocksOf n).length) ∧ offset + size < 2 ^ 64

namespace Booked

/-- A round of the write loop counts the block that it takes. -/
theorem blockForWrite {inode : UfsInode} (h : InCore v n inode)
    (hbooked : (v.setInode n inode).Booked) (hmode : inode.mode ≠ 0#16) (idx : Nat) :
    ((v.blockForWrite inode idx).2.1.setInode n (v.blockForWrite inode idx).2.2).Booked := by
  have hlive : (v.setInode n inode).Live n := ⟨h.has, by simpa [setInode] using hmode⟩
  refine blockForWrite_cases h idx
    (fun _ _ => hbooked) (fun _ _ => hbooked) ?_ ?_
  · intro nb _ hnext hfits
    exact hbooked.append h.core hlive (.core hnext hfits) (setInode_field (·.mode) rfl rfl) rfl rfl
  · intro nb _ hnext hfits
    have hs := ((v.takeBlock_sameShape nb).trans (freeBlock_sameShape _ nb)).setInode n n inode
      (inode.append nb)
    obtain ⟨-, hhi, hfree⟩ := nextBlock_spec hnext
    have hstart := h.intact.sized.start
    have hlo := (nextBlock_spec hnext).1
    have hin : ¬ (nb = 0 ∨ nb ≥ (v.takeBlock nb).totalBlocks) := by
      change ¬ (nb = 0 ∨ nb ≥ v.totalBlocks)
      omega
    have hsame : ((v.takeBlock nb).freeBlock nb).inode = v.inode := freeBlock_inode _ nb
    refine hbooked.congr hs (setInode_field (·.mode) hsame rfl)
      (fun k => hs.blocksOf_eq ?_) ?_ ?_ ?_
    · exact setInode_field (·.extents) hsame (appendExtent_of_not_fits hfits) k
    · change ((v.takeBlock nb).freeBlock nb).bit = v.bit
      rw [freeBlock, if_neg hin]
      change update (update v.bit nb true) nb false = v.bit
      rw [update_idem, ← hfree, update_eq_self]
    · change ((v.takeBlock nb).freeBlock nb).freeBlocks = v.freeBlocks
      rw [freeBlock, if_neg hin]
      exact BitVec.sub_add_cancel _ _
    · change ((v.takeBlock nb).freeBlock nb).freeInodes = v.freeInodes
      rw [freeBlock, if_neg hin]
      rfl

end Booked

/-- What the write loop keeps: the books with the inode in core, and that blocks
were appended only if the file has grown. -/
structure Writing (v : Volume) (n len offset : Nat) (w : Volume) (i : UfsInode) (written : Nat) :
    Prop where
  core : InCore w n i
  booked : (w.setInode n i).Booked
  table : w.inode = v.inode
  mode : i.mode = (v.inode n).mode
  size : i.size = (v.inode n).size
  within : written ≤ len
  back : i.extents = (v.inode n).extents ∨
    (v.inode n).size.toNat < offset + written ∧ offset + len < 2 ^ 64

namespace Writing

variable {w : Volume} {i : UfsInode} {offset size written : Nat}

theorem blockForWrite (h : Writing v n size offset w i written) (hn : v.Live n)
    (hback : v.WritesBack n size offset) (hlt : written < size) :
    let r := w.blockForWrite i ((offset + written) / 4096 % 2 ^ 32)
    Writing v n size offset r.2.1 r.2.2 (if r.1.isSome then written + chunkAt offset size written
      else written) := by
  obtain ⟨htable, hsize, hmode⟩ := w.blockForWrite_kept i ((offset + written) / 4096 % 2 ^ 32)
  refine ⟨h.core.blockForWrite _,
    Booked.blockForWrite h.core h.booked (by rw [h.mode]; exact hn.2) _,
    htable.trans h.table, hmode.trans h.mode, hsize.trans h.size, ?_, ?_⟩
  · unfold chunkAt
    split <;> omega
  have hchunk : 0 < chunkAt offset size written := by
    unfold chunkAt
    omega
  have hlater : ∀ {k : Nat}, written ≤ k → i.extents = (v.inode n).extents ∨
      (v.inode n).size.toNat < offset + k ∧ offset + size < 2 ^ 64 :=
    fun hk => h.back.imp_right fun hb => by omega
  refine blockForWrite_cases h.core _ ?_ ?_ ?_ ?_
  · exact fun _ _ => hlater (by simp)
  · exact fun _ _ => hlater (by simp)
  · intro nb hlen _ _
    refine .inr ?_
    simp only [Option.isSome_some, if_true]
    rcases h.back with hsame | hgrown
    · -- The first block that is appended lies behind those of the file.
      rw [hsame, ← blocksOf_of_hasInode hn.1] at hlen
      rcases hback with hzero | hin | hend
      · omega
      · omega
      · omega
    · omega
  · intro nb _ _ hfits
    refine (hlater (Nat.le_refl _)).imp_left fun hsame => ?_
    rw [UfsInode.append_extents, appendExtent_of_not_fits hfits, hsame]

theorem setData (h : Writing v n size offset w i written) (b : Nat) (buf : Bytes) :
    Writing v n size offset (w.setData b buf) i written :=
  { h with
    core := h.core.setData b buf
    booked := h.booked.congr ⟨rfl, rfl, rfl⟩ (fun _ => rfl)
      (fun _ => SameShape.blocksOf_eq ⟨rfl, rfl, rfl⟩ rfl) rfl rfl rfl }

end Writing

/-- A write to a file in use keeps the books. -/
theorem Booked.write (h : v.Booked) (hi : v.Intact) (hn : v.Live n) (buf : Bytes)
    {size offset : Nat} (hback : v.WritesBack n size offset) (ticks : BitVec 32) :
    (v.write n buf size offset ticks).2.Booked := by
  have hloop := @write_induction v (v.inode n) buf size offset (Writing v n size offset)
    (Writing v n size offset)
    (fun _ _ _ hw _ => hw)
    (fun w i written w' i' hw hlt hblock => by
      have hnext := hw.blockForWrite hn hback hlt
      rw [hblock] at hnext
      exact hnext)
    (fun w i written b w' i' hw _ hblock hge => by
      have hspec := blockForWrite_spec hw.core.intact.sized hw.core.extentsIn
        ((offset + written) / 4096 % 2 ^ 32)
      rw [hblock] at hspec
      have htotal : w'.totalBlocks = w.totalBlocks := hspec.shape.totalBlocks
      have hlt := (hspec.block b rfl).2
      omega)
    (fun w i written b w' i' hw hlt hblock _ => by
      have hnext := hw.blockForWrite hn hback hlt
      rw [hblock] at hnext
      exact hnext.setData b _)
    ⟨hi.inCore hn.1, by rwa [setInode_self], rfl, rfl, rfl, size.zero_le, .inl rfl⟩
  unfold Volume.write
  simp only
  generalize writeLoop buf size size v (v.inode n) (offset / 4096 % 2 ^ 32) (offset % 4096) 0 = r
    at hloop
  obtain ⟨w, i, written⟩ := r
  dsimp only at hloop ⊢
  split
  · -- The inode goes to the table.
    have hs := (SameShape.refl w).setInode n n i (grownInode i (offset + written) ticks)
    exact hloop.booked.congr hs (setInode_field (·.mode) rfl rfl)
      (fun k => hs.blocksOf_eq (setInode_field (·.extents) rfl (by rfl) k)) rfl rfl rfl
  · rename_i hsame
    have hext : i.extents = (w.inode n).extents := by
      have hwithin := hloop.within
      rw [hloop.size] at hsame
      rw [hloop.table]
      exact hloop.back.resolve_right fun hgrown => hsame (by omega)
    have hs : (w.setInode n i).SameShape w := ⟨rfl, rfl, rfl⟩
    have hmode : i.mode = (w.inode n).mode := by rw [hloop.table, hloop.mode]
    exact hloop.booked.congr hs (fun k => (setInode_field_self (·.mode) hmode k).symm)
      (fun k => hs.blocksOf_eq (setInode_field_self (·.extents) hext k).symm) rfl rfl rfl

end Volume

end Utms7
