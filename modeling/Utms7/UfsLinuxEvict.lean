import Utms7.UfsLinuxVolume

/-!
# Deletion in the Linux driver

`ufs_evict_inode` gives back the blocks of a deleted file and then calls
`ufs_free_block` once more, with the inode number for a block number.  It clears
the bit of that block, whatever the block is used for, and counts one block too
many; the slot of the inode keeps its mode, so `ufs_new_inode` never takes it
again.
-/

namespace Utms7

namespace Linux

variable {s : UfsSbInfo}

/-- What deleting inode `n` should do: the bits of its blocks are cleared and no
others, they are counted as free, and the slot can be taken again. -/
structure FreesExactly (s : UfsSbInfo) (n : Nat) (s' : UfsSbInfo) : Prop where
  bits : ∀ b, b < s.sb.totalBlocks.toNat → bitmapBit s' b =
    (bitmapBit s b && !decide (b ∈ extentBlocks (deref s n).diskInode.extents))
  count : s'.sb.freeBlocks = s.sb.freeBlocks +
    BitVec.ofNat 32 (extentBlocks (deref s n).diskInode.extents).length
  slot : slotIsFree s' (deref s n).ino = true

theorem ufsFreeBlock_count (s : UfsSbInfo) (b : Nat) :
    (ufsFreeBlock s b).sb.freeBlocks = s.sb.freeBlocks + 1#32 := rfl

theorem freeBlocks_count (s : UfsSbInfo) (bs : List Nat) :
    (bs.foldl ufsFreeBlock s).sb.freeBlocks = s.sb.freeBlocks + BitVec.ofNat 32 bs.length := by
  induction bs generalizing s with
  | nil => simp
  | cons b bs ih =>
    rw [List.foldl_cons, ih, ufsFreeBlock_count, List.length_cons, BitVec.add_assoc,
      BitVec.ofNat_add, BitVec.add_comm 1#32]

/-- **Deleting a file always frees one block too many.** -/
theorem evict_never_exact (s : UfsSbInfo) (n : Nat) (h : (deref s n).iNlink = 0#32) :
    ¬ FreesExactly s n (ufsEvictInode s n) := by
  intro hexact
  have hcount := hexact.count
  rw [ufsEvictInode, if_pos h, ufsFreeBlock_count, freeBlocks_count] at hcount
  exact absurd (BitVec.add_right_eq_self.mp hcount) (by decide)

/-- A volume of 40 blocks, all in use, with a file of one block that was just
unlinked: inode 2, block 38. -/
def unlinkedFile : UfsSbInfo where
  sb := { UfsSuperblock.zero with
    totalBlocks := 40#32, inodeCount := 1024#32, bitmapStart := 1#32, inodeTableStart := 2#32,
    dataStart := 37#32, rootInode := 1#32 }
  disk a := if 4096 ≤ a ∧ a < 4101 then 255#8 else 0#8
  inodes n :=
    if n = 2 then
      some
        { diskInode := { UfsInode.zero with
            mode := 0x81A4#16
            extents := ⟨38#32, 1#32⟩ :: List.replicate 7 ⟨0, 0⟩
            extents_length := by simp }
          ino := 2, iMode := 0x81A4#16, iUid := 0, iGid := 0, iNlink := 0, iSize := 1,
          iAtime := 0, iMtime := 0, iCtime := 0 }
    else none

theorem evict_never_exact_unlinkedFile : (deref unlinkedFile 2).iNlink = 0#32 ∧
    ¬ FreesExactly unlinkedFile 2 (ufsEvictInode unlinkedFile 2) :=
  ⟨by decide, evict_never_exact unlinkedFile 2 (by decide)⟩

/-- Block 2, which holds inodes, is marked free. -/
theorem evict_clears_metadata : (deref unlinkedFile 2).iNlink = 0#32 ∧
    bitmapBit unlinkedFile 2 = true ∧ bitmapBit (ufsEvictInode unlinkedFile 2) 2 = false ∧
    ¬ FreesExactly unlinkedFile 2 (ufsEvictInode unlinkedFile 2) := by
  refine ⟨by decide, by decide, by decide +kernel, fun hexact => ?_⟩
  have hbit := hexact.bits 2 (by decide)
  exact absurd hbit (by decide +kernel)

end Linux

end Utms7
