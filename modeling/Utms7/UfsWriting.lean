import Utms7.UfsListing

/-!
# The loop of `ufs_vfs_write`

While it runs, the loop works on a copy of the inode: blocks that it appends
are marked in the bitmap but not yet in the table.  `InCore` says that both
views of the volume, with the inode on disk and with the one in core, are
intact.  `blockForWrite_cases` lists what a round can do to find its block, and
`write_induction` is the rule for the whole loop in terms of the position in
the file.
-/

namespace Utms7

open ByteMemory

namespace Volume

variable {v : Volume} {n : Nat} {inode : UfsInode} {buf : Bytes}

/-- The volume is intact with inode `n` as it is on disk and as it is in core. -/
structure InCore (v : Volume) (n : Nat) (inode : UfsInode) : Prop where
  intact : v.Intact
  has : v.HasInode n
  core : (v.setInode n inode).Intact

theorem Intact.inCore (h : v.Intact) (hn : v.HasInode n) : InCore v n (v.inode n) :=
  ⟨h, hn, by rwa [setInode_self]⟩

namespace InCore

section

variable (h : InCore v n inode)
include h

theorem extentsIn : ExtentsIn v.dataStart v.totalBlocks inode.extents := by
  have := h.core.placed n h.has
  simpa [setInode] using this

theorem blocksOf_core : (v.setInode n inode).blocksOf n = blockList inode.extents := by
  rw [blocksOf_of_hasInode (v := v.setInode n inode) h.has]
  simp [setInode]

theorem blockForWrite (idx : Nat) :
    InCore (v.blockForWrite inode idx).2.1 n (v.blockForWrite inode idx).2.2 := by
  obtain ⟨hs, hinode, hext, -⟩ := blockForWrite_spec h.intact.sized h.extentsIn idx
  obtain ⟨howned, hcore⟩ := h.intact.owned.blockForWrite h.intact.sized h.has h.core.owned
    h.extentsIn idx
  have hp := h.intact.placed.of_inode_eq hs hinode
  have hsized := hs.sized h.intact.sized
  refine ⟨⟨hsized, hp, howned⟩, (hs.hasInode_iff n).mpr h.has, hsized, hp.setInode ?_, hcore⟩
  rw [hs.dataStart, hs.totalBlocks]
  exact hext

theorem setData (b : Nat) (buf : Bytes) : InCore (v.setData b buf) n inode where
  intact := ⟨h.intact.sized, h.intact.placed.of_inode_eq (v.setData_sameShape b buf) rfl,
    h.intact.owned.setData b buf⟩
  has := h.has
  core := ⟨h.core.sized, h.core.placed.of_inode_eq
    (setData_sameShape (v.setInode n inode) b buf) rfl, h.core.owned.setData b buf⟩

end

end InCore

/-- The ways in which a round finds its block. -/
@[elab_as_elim]
theorem blockForWrite_cases (h : InCore v n inode) (idx : Nat)
    {P : Option Nat × Volume × UfsInode → Prop}
    (hthere : ∀ b, (blockList inode.extents)[idx]? = some b → P (some b, v, inode))
    (hnone : (blockList inode.extents).length ≤ idx → v.nextBlock = none → P (none, v, inode))
    (hnew : ∀ nb, (blockList inode.extents).length ≤ idx → v.nextBlock = some nb →
      appendFits inode.extents nb = true → P (some nb, v.takeBlock nb, inode.append nb))
    (hundone : ∀ nb, (blockList inode.extents).length ≤ idx → v.nextBlock = some nb →
      appendFits inode.extents nb = false →
      P (none, (v.takeBlock nb).freeBlock nb, inode.append nb)) :
    P (v.blockForWrite inode idx) := by
  have hsmall := h.intact.sized.small
  have hstart := h.intact.sized.start
  have hzero := h.extentsIn.getBlock_eq_zero_iff (by omega) (by omega) idx
  unfold Volume.blockForWrite
  simp only
  split
  · rename_i hne
    rw [ne_eq, hzero, Nat.not_le] at hne
    have hget := List.getElem?_eq_getElem hne
    rw [h.extentsIn.getBlock_of_getElem (by omega) hget]
    exact hthere _ hget
  · rename_i hne
    rw [not_not, hzero] at hne
    split
    · rename_i hnext
      exact hnone hne hnext
    rename_i nb hnext
    split
    · rename_i hfits
      exact hnew nb hne hnext hfits
    · rename_i hfits
      exact hundone nb hne hnext (by simpa using hfits)

/-- How many bytes the round at a position writes. -/
def chunkAt (offset size written : Nat) : Nat :=
  min (4096 - (offset + written) % 4096) (size - written)

/-- A loop with nothing left to write does nothing. -/
theorem writeLoop_done {size rounds startBlock startOff written : Nat} (h : size ≤ written) :
    writeLoop buf size rounds v inode startBlock startOff written = (v, inode, written) := by
  cases rounds with
  | zero => rfl
  | succ rounds => rw [writeLoop, if_neg (Nat.not_lt.mpr h)]

/-- The rule for the loop of `ufs_vfs_write`: `I` holds before the round that
is to write byte `written` of the caller's buffer, and `P` where the loop ends,
which it does after the last byte or for want of a block. -/
theorem write_induction {size offset : Nat} {I P : Volume → UfsInode → Nat → Prop}
    (hend : ∀ w i written, I w i written → size ≤ written → P w i written)
    (hbreak : ∀ w i written w' i', I w i written → written < size →
      w.blockForWrite i ((offset + written) / 4096 % 2 ^ 32) = (none, w', i') → P w' i' written)
    (hrange : ∀ w i written b w' i', I w i written → written < size →
      w.blockForWrite i ((offset + written) / 4096 % 2 ^ 32) = (some b, w', i') →
      b ≥ w'.totalBlocks → P w' i' written)
    (hround : ∀ w i written b w' i', I w i written → written < size →
      w.blockForWrite i ((offset + written) / 4096 % 2 ^ 32) = (some b, w', i') →
      b < w'.totalBlocks →
      I (w'.setData b (blit (w'.data b) ((offset + written) % 4096) (fun j => buf (written + j))
        (chunkAt offset size written))) i' (written + chunkAt offset size written))
    (h : I v inode 0) :
    let r := writeLoop buf size size v inode (offset / 4096 % 2 ^ 32) (offset % 4096) 0
    P r.1 r.2.1 r.2.2 := by
  -- From any byte on, with enough rounds left for the others.
  suffices hfrom : ∀ rounds written w i, size ≤ written + rounds → I w i written →
      let r := writeLoop buf size rounds w i ((offset + written) / 4096 % 2 ^ 32)
        ((offset + written) % 4096) written
      P r.1 r.2.1 r.2.2 from hfrom size 0 v inode (by omega) h
  intro rounds
  induction rounds with
  | zero => exact fun written w i hle hI => hend w i written hI (by omega)
  | succ rounds ih =>
    intro written w i hle hI
    unfold writeLoop
    split
    · rename_i hlt
      split
      · rename_i w' i' hblock
        exact hbreak w i written w' i' hI hlt hblock
      rename_i b w' i' hblock
      split
      · rename_i hge
        exact hrange w i written b w' i' hI hlt hblock hge
      rename_i hge
      have hI' := hround w i written b w' i' hI hlt hblock (Nat.not_le.mp hge)
      by_cases hmore : written + chunkAt offset size written < size
      · -- Only a round that fills its block is followed by another one.
        have hpos : offset + (written + chunkAt offset size written) =
            4096 * ((offset + written) / 4096 + 1) := by
          unfold chunkAt at hmore ⊢
          omega
        have hlast := ih _ _ _ (by unfold chunkAt; omega) hI'
        rw [hpos] at hlast
        have hoff : 4096 * ((offset + written) / 4096 + 1) % 4096 = 0 := by omega
        have hblk : 4096 * ((offset + written) / 4096 + 1) / 4096 % 2 ^ 32 =
            ((offset + written) / 4096 % 2 ^ 32 + 1) % 2 ^ 32 := by omega
        rw [hoff, hblk] at hlast
        exact hlast
      · have hlast := hend _ _ _ hI' (Nat.not_lt.mp hmore)
        intro r
        have hr : r = _ := writeLoop_done (Nat.not_lt.mp hmore)
        rw [hr]
        exact hlast
    · rename_i hge
      exact hend w i written hI (Nat.not_lt.mp hge)

end Volume

end Utms7
