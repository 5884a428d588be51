import Utms7.UfsRefinement

/-!
# The driver's operations simulate those of the volume

`UfsRefinement` follows the block and inode functions; here the directory and
VFS operations follow.  `Simulates r s` says that the result `r` of a driver
call and the result `s` of the operation on the volume agree: both succeed or
both fail, and the device left by the one holds the volume left by the other.

The operations only read and write blocks that some inode maps.  Those lie in
the data area as long as the volume is `Placed`, and every operation keeps it
so.
-/

namespace Utms7

variable {n b : Nat} {dir inode : UfsInode} {v : Volume}

open ByteMemory List Volume UfsInode

/-- The empty file that `ufs_vfs_create` makes. -/
def fileNode (mode ticks : BitVec 32) : NewNode where
  inode := { UfsInode.zero with
    mode := ufsInodeFile ||| (mode &&& 0x1FF#32).setWidth 16
    nlink := 1#16
    atime := ticks
    mtime := ticks
    ctime := ticks }
  firstBlock := none
  type := 1#8
  live := by simp [ufsInodeFile]
  empty := rfl

/-- The directory that `ufs_vfs_mkdir` makes in directory `parent`. -/
def dirNode (parent : Nat) (mode ticks : BitVec 32) : NewNode where
  inode := { UfsInode.zero with
    mode := ufsInodeDir ||| (mode &&& 0x1FF#32).setWidth 16
    nlink := 2#16
    size := 128#32
    blocks := (128#32 + 511#32) / 512#32
    atime := ticks
    mtime := ticks
    ctime := ticks }
  firstBlock := some fun n => direntDots n parent
  type := 2#8
  live := by simp [ufsInodeDir]
  empty := rfl

/-- The link that `ufs_vfs_symlink` makes. -/
def linkNode (target : CStr) (ticks : BitVec 32) : NewNode where
  inode := { UfsInode.zero with
    mode := ufsInodeSymlink ||| 0x1FF#16
    nlink := 1#16
    size := BitVec.ofNat 32 target.chars.length
    blocks := (BitVec.ofNat 32 target.chars.length + 511#32) / 512#32
    atime := ticks
    mtime := ticks
    ctime := ticks }
  firstBlock := some fun _ => strncpy zeros 0 target.chars 4095
  type := 3#8
  live := by simp [ufsInodeSymlink]
  empty := rfl

@[simp] theorem UfsInode.append_extents (inode : UfsInode) (b : Nat) :
    (inode.append b).extents = appendExtent inode.extents b := rfl

/-- A new inode has no blocks yet. -/
theorem NewNode.extentsIn (node : NewNode) (lo hi : Nat) : ExtentsIn lo hi node.inode.extents := by
  rw [node.empty]
  exact ExtentsIn.unused 8

namespace Volume

variable {v' : Volume} {test : Bytes → Nat → Bool} {ents : Bytes} {j : Nat}

/-- Operations never change the shape of the volume. -/
structure SameShape (v v' : Volume) : Prop where
  totalBlocks : v'.totalBlocks = v.totalBlocks
  dataStart : v'.dataStart = v.dataStart
  inodeCount : v'.inodeCount = v.inodeCount

theorem SameShape.refl (v : Volume) : v.SameShape v := ⟨rfl, rfl, rfl⟩

theorem SameShape.trans {v1 v2 v3 : Volume} (h : v1.SameShape v2) (h' : v2.SameShape v3) :
    v1.SameShape v3 :=
  ⟨h'.totalBlocks.trans h.totalBlocks, h'.dataStart.trans h.dataStart,
    h'.inodeCount.trans h.inodeCount⟩

/-- The inode numbers are the same. -/
theorem SameShape.hasInode_iff (h : v.SameShape v') (n : Nat) : v'.HasInode n ↔ v.HasInode n := by
  unfold HasInode
  rw [h.inodeCount]

theorem SameShape.sized (h : v.SameShape v') (hs : v.Sized) : v'.Sized := by
  unfold Sized
  rw [h.totalBlocks, h.dataStart, h.inodeCount]
  exact hs

section

variable (v : Volume)

theorem setInode_sameShape (n : Nat) (inode : UfsInode) :
    v.SameShape (v.setInode n inode) := ⟨rfl, rfl, rfl⟩

theorem setData_sameShape (b : Nat) (buf : Bytes) : v.SameShape (v.setData b buf) := ⟨rfl, rfl, rfl⟩

theorem takeBlock_sameShape (b : Nat) : v.SameShape (v.takeBlock b) :=
  ⟨rfl, rfl, rfl⟩

theorem takeInode_sameShape (n : Nat) : v.SameShape (v.takeInode n) :=
  ⟨rfl, rfl, rfl⟩

theorem freeBlock_sameShape (b : Nat) : v.SameShape (v.freeBlock b) := by
  unfold freeBlock
  split <;> exact ⟨rfl, rfl, rfl⟩

@[simp] theorem freeBlock_inode (b : Nat) : (v.freeBlock b).inode = v.inode := by
  unfold freeBlock
  split <;> rfl

@[simp] theorem freeBlock_data (b : Nat) : (v.freeBlock b).data = v.data := by
  unfold freeBlock
  split <;> rfl

end

section

variable (bs : List Nat) (v : Volume)

theorem freeBlocks_sameShape : v.SameShape (bs.foldl freeBlock v) := by
  induction bs generalizing v with
  | nil => exact .refl v
  | cons b bs ih => exact (v.freeBlock_sameShape b).trans (ih _)

/-- Freeing blocks leaves the inodes alone. -/
theorem freeBlocks_inode : (bs.foldl freeBlock v).inode = v.inode := by
  induction bs generalizing v with
  | nil => rfl
  | cons b bs ih => rw [foldl_cons, ih, freeBlock_inode]

/-- Freed blocks keep their contents. -/
theorem freeBlocks_data : (bs.foldl freeBlock v).data = v.data := by
  induction bs generalizing v with
  | nil => rfl
  | cons b bs ih => rw [foldl_cons, ih, freeBlock_data]

end

section

variable (v : Volume) (n : Nat)

theorem freeInodeBlocks_sameShape : v.SameShape (v.freeInodeBlocks n) := by
  unfold freeInodeBlocks
  split
  · exact freeBlocks_sameShape _ v
  · exact .refl v

@[simp] theorem freeInodeBlocks_inode : (v.freeInodeBlocks n).inode = v.inode := by
  unfold freeInodeBlocks
  split
  · exact freeBlocks_inode _ v
  · rfl

@[simp] theorem freeInodeBlocks_data : (v.freeInodeBlocks n).data = v.data := by
  unfold freeInodeBlocks
  split
  · exact freeBlocks_data _ v
  · rfl

theorem freeInode_sameShape : v.SameShape (v.freeInode n) := by
  unfold freeInode
  split <;> exact ⟨rfl, rfl, rfl⟩

end

theorem writeBlock_sameShape (v : Volume) (b : Nat) (buf : Bytes) :
    v.SameShape (v.writeBlock b buf) := by
  unfold writeBlock
  split <;> exact ⟨rfl, rfl, rfl⟩

@[simp] theorem writeBlock_inode (v : Volume) (b : Nat) (buf : Bytes) :
    (v.writeBlock b buf).inode = v.inode := by
  unfold writeBlock
  split <;> rfl

theorem writeInode_sameShape (v : Volume) (n : Nat) (inode : UfsInode) :
    v.SameShape (v.writeInode n inode) := by
  unfold writeInode
  split <;> exact ⟨rfl, rfl, rfl⟩

/-! ## Blocks stay in the data area -/

section

variable (h : v.Placed)
include h

/-- Only the inodes decide where the blocks lie. -/
theorem Placed.of_inode_eq (hs : v.SameShape v') (hi : v'.inode = v.inode) : v'.Placed := by
  intro n hn
  rw [hs.dataStart, hs.totalBlocks, hi]
  exact h n ((hs.hasInode_iff n).mp hn)

/-- An inode may be stored whose blocks lie in the data area. -/
theorem Placed.setInode (hi : ExtentsIn v.dataStart v.totalBlocks inode.extents) :
    (v.setInode n inode).Placed := by
  intro n' hn'
  by_cases hnn : n' = n
  · subst hnn
    simpa [Volume.setInode] using hi
  · simpa [Volume.setInode, hnn] using h n' hn'

theorem Placed.writeInode (hi : ExtentsIn v.dataStart v.totalBlocks inode.extents) :
    (v.writeInode n inode).Placed := by
  unfold Volume.writeInode
  split
  · exact h.setInode hi
  · exact h

theorem Placed.writeBlock (b : Nat) (buf : Bytes) : (v.writeBlock b buf).Placed :=
  h.of_inode_eq (v.writeBlock_sameShape b buf) (v.writeBlock_inode b buf)

theorem Placed.freeBlock (b : Nat) : (v.freeBlock b).Placed :=
  h.of_inode_eq (v.freeBlock_sameShape b) (freeBlock_inode v b)

end

/-- A cleared inode has no blocks. -/
theorem zero_extentsIn (lo hi : Nat) : ExtentsIn lo hi zero.extents :=
  ExtentsIn.unused 8

section

variable (h : v.Placed)
include h

theorem Placed.freeInode (n : Nat) : (v.freeInode n).Placed := by
  unfold Volume.freeInode
  split
  · exact (h.setInode (n := n) (zero_extentsIn _ _) :)
  · exact h

theorem Placed.freeInodeBlocks (n : Nat) : (v.freeInodeBlocks n).Placed :=
  h.of_inode_eq (v.freeInodeBlocks_sameShape n) (freeInodeBlocks_inode v n)

theorem Placed.setData (b : Nat) (buf : Bytes) : (v.setData b buf).Placed :=
  h.of_inode_eq (v.setData_sameShape b buf) rfl

theorem Placed.takeBlock (b : Nat) : (v.takeBlock b).Placed :=
  h.of_inode_eq (v.takeBlock_sameShape b) rfl

theorem Placed.takeInode (n : Nat) : (v.takeInode n).Placed :=
  (h.setInode (n := n) (zero_extentsIn _ _) :)

end

/-- What a walk over a directory has found. -/
theorem scan_spec (h : v.scan dir test = some (b, ents, j)) :
    ∃ i, i < ufsDirBlocks dir ∧ ufsGetBlock dir.extents i = b ∧ b ≠ 0 ∧ b < v.totalBlocks ∧
      v.data b = ents ∧ j < 64 ∧ test ents j = true := by
  obtain ⟨i, hi, hr⟩ := exists_of_findSome?_eq_some h
  refine ⟨i, mem_range.mp hi, ?_⟩
  by_cases h0 : ufsGetBlock dir.extents i = 0
  · simp [h0] at hr
  · by_cases hb : ufsGetBlock dir.extents i ≥ v.totalBlocks
    · simp [readBlock, hb] at hr
    · simp only [h0, readBlock, hb, if_false, Option.map_eq_some_iff] at hr
      obtain ⟨j', hj', rfl, rfl, rfl⟩ := hr
      exact ⟨rfl, h0, by omega, rfl, mem_range.mp (mem_of_find?_eq_some hj'), find?_some hj'⟩

/-- The blocks a walk over a directory finds are its own. -/
theorem scan_block_mem (hv : v.Sized) (hdir : ExtentsIn v.dataStart v.totalBlocks dir.extents)
    (h : v.scan dir test = some (b, ents, j)) : b ∈ blockList dir.extents := by
  obtain ⟨i, -, hb, h0, -⟩ := scan_spec h
  have hsmall := hv.small
  rw [hdir.getBlock_eq (by omega)] at hb
  cases hget : (blockList dir.extents)[i]? with
  | none => exact absurd (by simpa [hget] using hb.symm) h0
  | some b' =>
    obtain rfl : b' = b := by simpa [hget] using hb
    exact mem_of_getElem? hget

/-- What an operation keeps: the shape of the volume, and its inodes' blocks in the data area. -/
structure Follows (v v' : Volume) : Prop where
  shape : v.SameShape v'
  placed : v.Sized → v.Placed → v'.Placed

theorem Follows.refl (v : Volume) : v.Follows v := ⟨.refl v, fun _ hp => hp⟩

theorem Follows.trans {v1 v2 v3 : Volume} (h : v1.Follows v2) (h' : v2.Follows v3) :
    v1.Follows v3 :=
  ⟨h.shape.trans h'.shape, fun hv hp => h'.placed (h.shape.sized hv) (h.placed hv hp)⟩

/-- A block of a directory and its inode are written; the extents stay. -/
theorem putSlot_follows (hd : v.HasInode n)
    (hext : inode.extents = (v.inode n).extents) (b : Nat) (buf : Bytes) :
    v.Follows ((v.writeBlock b buf).writeInode n inode) := by
  have hs := v.writeBlock_sameShape b buf
  refine ⟨hs.trans (writeInode_sameShape _ _ _), fun hv hp => (hp.writeBlock b buf).writeInode ?_⟩
  rw [hs.dataStart, hs.totalBlocks, hext]
  exact hp n hd

/-- The entry goes into a free slot, into a new block, or nowhere. -/
theorem addEntry_follows (v : Volume) (d n : Nat) (name : CStr) (type : BitVec 8) :
    v.Follows (v.addEntry d n name type).2 := by
  unfold addEntry
  split
  · rename_i hd
    simp only
    split
    · exact putSlot_follows hd (by rfl) _ _
    split
    · exact .refl v
    rename_i nb hnb
    obtain ⟨hlo, hhi, -⟩ := nextBlock_spec hnb
    have hs := (v.takeBlock_sameShape nb).trans
      (setData_sameShape _ nb (direntPut zeros 0 n name type))
    split
    · refine ⟨hs.trans (writeInode_sameShape _ _ _), fun hv hp => ?_⟩
      have hsmall := hv.small
      exact ((hp.takeBlock nb).setData nb _).writeInode ((hp d hd).append (by omega) hlo hhi)
    · exact ⟨hs.trans (freeBlock_sameShape _ _),
        fun _ hp => ((hp.takeBlock nb).setData nb _).freeBlock nb⟩
  · exact .refl v

theorem removeEntry_follows (v : Volume) (d : Nat) (name : CStr) :
    v.Follows (v.removeEntry d name).2 := by
  unfold removeEntry
  split
  · rename_i hd
    simp only
    split
    · exact .refl v
    · exact putSlot_follows hd (by rfl) _ _
  · exact .refl v

/-! ## The stages of `make` -/

/-- The volume `make` has prepared when it comes to the entry for inode `n`:
the inode is in use and has its first block, if it is to have one. -/
inductive Prepared (v : Volume) (n : Nat) (node : NewNode) : Volume → Prop where
  | plain (h : node.firstBlock = none) :
      Prepared v n node ((v.takeInode n).setInode n node.inode)
  | block {contents : Nat → Bytes} {b : Nat} (h : node.firstBlock = some contents)
      (hb : v.nextBlock = some b) :
      Prepared v n node ((((v.takeInode n).takeBlock b).setData b (contents n)).setInode n
        (node.inode.append b))

/-- `make` is refused, gives its inode back for want of a block, or prepares an inode and adds its
entry. -/
@[elab_as_elim]
theorem make_cases (v : Volume) (d : Nat) (name : CStr) (node : NewNode) {P : Bool × Volume → Prop}
    (hrefused : (v.find d name).isSome ∨ v.nextInode = none → P (false, v))
    (hundone : ∀ n, v.find d name = none → v.nextInode = some n → node.firstBlock.isSome →
      v.nextBlock = none → P (false, (v.takeInode n).freeInode n))
    (hadded : ∀ n w, v.find d name = none → v.nextInode = some n → Prepared v n node w →
      P (w.addEntry d n name node.type)) : P (v.make d name node) := by
  unfold make
  cases hfind : v.find d name with
  | some ino => exact hrefused (.inl (by rw [hfind]; rfl))
  | none =>
    cases hnext : v.nextInode with
    | none => exact hrefused (.inr hnext)
    | some n =>
      cases hfirst : node.firstBlock with
      | none => exact hadded n _ hfind hnext (.plain hfirst)
      | some contents =>
        have hsame : (v.takeInode n).nextBlock = v.nextBlock := rfl
        simp only [Option.isSome_none, Bool.false_eq_true, hsame]
        cases hb : v.nextBlock with
        | none => exact hundone n hfind hnext (by rw [hfirst]; rfl) hb
        | some b => exact hadded n _ hfind hnext (.block hfirst hb)

/-- A new inode has its first block in the data area. -/
theorem Prepared.follows {node : NewNode} {w : Volume} (h : Prepared v n node w) : v.Follows w := by
  have hext := node.extentsIn v.dataStart v.totalBlocks
  have hn := v.takeInode_sameShape n
  cases h with
  | plain =>
    exact ⟨hn.trans (setInode_sameShape _ _ _), fun _ hp => (hp.takeInode n).setInode hext⟩
  | @block contents b h hb =>
    obtain ⟨hlo, hhi, -⟩ := nextBlock_spec hb
    have hs := (hn.trans (takeBlock_sameShape _ b)).trans (setData_sameShape _ b (contents n))
    refine ⟨hs.trans (setInode_sameShape _ _ _), fun hv hp => ?_⟩
    have hsmall := hv.small
    exact (((hp.takeInode n).takeBlock b).setData b (contents n)).setInode
      (hext.append (by omega) hlo hhi)

theorem make_follows (v : Volume) (d : Nat) (name : CStr) (node : NewNode) :
    v.Follows (v.make d name node).2 := by
  refine make_cases v d name node (fun _ => .refl v) ?_ ?_
  · intro n _ _ _ _
    exact ⟨(v.takeInode_sameShape n).trans (freeInode_sameShape _ _),
      fun _ hp => (hp.takeInode n).freeInode n⟩
  · intro n w _ _ hw
    exact hw.follows.trans (addEntry_follows _ _ _ _ _)

/-- `unlink` gives up the file's blocks before its entry goes. -/
theorem unlink_follows (v : Volume) (d : Nat) (name : CStr) : v.Follows (v.unlink d name).2 := by
  unfold unlink
  split
  · exact .refl v
  · split
    · exact .refl v
    · exact .trans ⟨(v.freeInodeBlocks_sameShape _).trans (freeInode_sameShape _ _),
        fun _ hp => (hp.freeInodeBlocks _).freeInode _⟩ (removeEntry_follows _ _ _)

/-- `rename` removes two entries and adds one. -/
theorem rename_follows (v : Volume) (d1 : Nat) (a : CStr) (d2 : Nat) (b : CStr) :
    v.Follows (v.rename d1 a d2 b).2 := by
  have h := (v.removeEntry_follows d2 b).trans (removeEntry_follows _ d1 a)
  unfold rename
  split
  · exact .refl v
  split
  · exact .refl v
  · simp only
    split
    · exact h.trans (addEntry_follows _ _ _ _ _)
    · exact h

/-- What a round of the write loop gets: a block of the file, from then on at
least, in the data area. -/
structure BlockForWriteSpec (v : Volume) (inode : UfsInode) (r : Option Nat × Volume × UfsInode) :
    Prop where
  shape : v.SameShape r.2.1
  inode_eq : r.2.1.inode = v.inode
  placed : ExtentsIn v.dataStart v.totalBlocks r.2.2.extents
  block : ∀ b, r.1 = some b → v.dataStart ≤ b ∧ b < v.totalBlocks

/-- What a round gets is fit for the next round. -/
theorem BlockForWriteSpec.kept {r : Option Nat × Volume × UfsInode}
    (h : BlockForWriteSpec v inode r) (hv : v.Sized) :
    r.2.1.Sized ∧ ExtentsIn r.2.1.dataStart r.2.1.totalBlocks r.2.2.extents := by
  rw [h.shape.dataStart, h.shape.totalBlocks]
  exact ⟨h.shape.sized hv, h.placed⟩

/-- The block is one the file has, or the next free one. -/
theorem blockForWrite_spec (hv : v.Sized)
    (hi : ExtentsIn v.dataStart v.totalBlocks inode.extents) (idx : Nat) :
    BlockForWriteSpec v inode (v.blockForWrite inode idx) := by
  have hsmall := hv.small
  unfold blockForWrite
  simp only
  split
  · rename_i h0
    refine ⟨.refl v, rfl, hi, ?_⟩
    rintro b ⟨⟩
    cases hget : (blockList inode.extents)[idx]? with
    | none =>
      exact absurd (by rw [hi.getBlock_eq (by omega), hget]; rfl) h0
    | some b =>
      rw [hi.getBlock_of_getElem (by omega) hget]
      exact hi.mem_bounds (mem_of_getElem? hget)
  · split
    · exact ⟨.refl v, rfl, hi, by simp⟩
    rename_i nb hnb
    obtain ⟨hlo, hhi, -⟩ := nextBlock_spec hnb
    have hi' := hi.append (by omega) hlo hhi
    split
    · refine ⟨⟨rfl, rfl, rfl⟩, rfl, hi', ?_⟩
      rintro b ⟨⟩
      exact ⟨hlo, hhi⟩
    · exact ⟨(v.takeBlock_sameShape nb).trans (freeBlock_sameShape _ _),
        by rw [freeBlock_inode]; rfl, hi', by simp⟩

/-- The rule for the write loop: `I` holds before every round, and `P` where the
loop ends. -/
theorem writeLoop_induction {buf : Bytes} {size : Nat}
    {I : Volume → UfsInode → Nat → Nat → Nat → Prop} {P : Volume → UfsInode → Nat → Prop}
    (hend : ∀ v inode startBlock startOff written,
      I v inode startBlock startOff written → P v inode written)
    (hbreak : ∀ v inode startBlock startOff written v' inode',
      I v inode startBlock startOff written → written < size →
      v.blockForWrite inode startBlock = (none, v', inode') → P v' inode' written)
    (hrange : ∀ v inode startBlock startOff written b v' inode',
      I v inode startBlock startOff written → written < size →
      v.blockForWrite inode startBlock = (some b, v', inode') → b ≥ v'.totalBlocks →
      P v' inode' written)
    (hround : ∀ v inode startBlock startOff written b v' inode',
      I v inode startBlock startOff written → written < size →
      v.blockForWrite inode startBlock = (some b, v', inode') → b < v'.totalBlocks →
      I (v'.setData b (blit (v'.data b) startOff (fun i => buf (written + i))
          (min (4096 - startOff) (size - written)))) inode' ((startBlock + 1) % 2 ^ 32) 0
        (written + min (4096 - startOff) (size - written)))
    (rounds : Nat) {v : Volume} {inode : UfsInode} {startBlock startOff written : Nat}
    (h : I v inode startBlock startOff written) :
    let r := writeLoop buf size rounds v inode startBlock startOff written
    P r.1 r.2.1 r.2.2 := by
  induction rounds generalizing v inode startBlock startOff written with
  | zero => exact hend _ _ _ _ _ h
  | succ rounds ih =>
    unfold writeLoop
    split
    · rename_i hlt
      split
      · rename_i hblock
        exact hbreak _ _ _ _ _ _ _ h hlt hblock
      rename_i hblock
      split
      · rename_i hge
        exact hrange _ _ _ _ _ _ _ _ h hlt hblock hge
      · rename_i hge
        exact ih (hround _ _ _ _ _ _ _ _ h hlt hblock (Nat.not_le.mp hge))
    · exact hend _ _ _ _ _ h

/-- What every round keeps, of the volume and the inode, the loop keeps. -/
theorem writeLoop_keeps {Q : Volume → UfsInode → Prop} (buf : Bytes) (size rounds : Nat)
    (startBlock startOff written : Nat)
    (hround : ∀ {w inode} idx, Q w inode → let r := w.blockForWrite inode idx
      Q r.2.1 r.2.2 ∧ ∀ b data, r.1 = some b → Q (r.2.1.setData b data) r.2.2) (h : Q v inode) :
    let r := writeLoop buf size rounds v inode startBlock startOff written
    Q r.1 r.2.1 := by
  have hblock : ∀ {w inode idx r}, Q w inode → w.blockForWrite inode idx = r →
      Q r.2.1 r.2.2 ∧ ∀ b data, r.1 = some b → Q (r.2.1.setData b data) r.2.2 := by
    rintro w inode idx r h rfl
    exact hround idx h
  exact writeLoop_induction (I := fun w inode _ _ _ => Q w inode) (P := fun w inode _ => Q w inode)
    (fun _ _ _ _ _ h => h) (fun _ _ _ _ _ _ _ h _ hb => (hblock h hb).1)
    (fun _ _ _ _ _ _ _ _ h _ hb _ => (hblock h hb).1)
    (fun _ _ _ _ _ b _ _ h _ hb _ => (hblock h hb).2 b _ rfl) rounds h

/-- The write loop stores no inode, and the blocks it adds lie in the data area. -/
theorem writeLoop_spec {buf : Bytes} {size rounds : Nat}
    {startBlock startOff written : Nat} (hv : v.Sized)
    (hi : ExtentsIn v.dataStart v.totalBlocks inode.extents) :
    let r := writeLoop buf size rounds v inode startBlock startOff written
    v.SameShape r.1 ∧ r.1.inode = v.inode ∧
      ExtentsIn v.dataStart v.totalBlocks r.2.1.extents := by
  refine writeLoop_keeps (Q := fun w inode => v.SameShape w ∧ w.inode = v.inode ∧
    ExtentsIn v.dataStart v.totalBlocks inode.extents) buf size rounds startBlock startOff
      written ?_
    ⟨.refl v, rfl, hi⟩
  rintro w inode idx ⟨hs, hw, hin⟩
  rw [← hs.dataStart, ← hs.totalBlocks] at hin ⊢
  obtain ⟨hshape, hinode, hplaced, -⟩ := blockForWrite_spec (hs.sized hv) hin idx
  have hs' := hs.trans hshape
  have hw' := hinode.trans hw
  exact ⟨⟨hs', hw', hplaced⟩, fun b _ _ => ⟨hs'.trans (setData_sameShape _ b _), hw', hplaced⟩⟩

/-- A round changes no inode on disk, and neither size nor mode in core. -/
theorem blockForWrite_kept (v : Volume) (inode : UfsInode) (idx : Nat) :
    (v.blockForWrite inode idx).2.1.inode = v.inode ∧
      (v.blockForWrite inode idx).2.2.size = inode.size ∧
      (v.blockForWrite inode idx).2.2.mode = inode.mode := by
  unfold blockForWrite
  simp only
  split
  · exact ⟨rfl, rfl, rfl⟩
  · split
    · exact ⟨rfl, rfl, rfl⟩
    · split
      · exact ⟨rfl, rfl, rfl⟩
      · exact ⟨by rw [freeBlock_inode]; rfl, rfl, rfl⟩

/-- The write loop leaves the inode table and the size to its caller, and
writes at most what it is given. -/
theorem writeLoop_bounds (buf : Bytes) (size rounds : Nat) (v : Volume) (inode : UfsInode)
    (startBlock startOff : Nat) :
    let r := writeLoop buf size rounds v inode startBlock startOff 0
    r.1.inode = v.inode ∧ r.2.1.size = inode.size ∧ r.2.1.mode = inode.mode ∧
      r.2.2 ≤ size := by
  have hblock : ∀ {w : Volume} {i : UfsInode} {idx : Nat} {r},
      w.inode = v.inode ∧ i.size = inode.size ∧ i.mode = inode.mode →
      w.blockForWrite i idx = r →
      r.2.1.inode = v.inode ∧ r.2.2.size = inode.size ∧ r.2.2.mode = inode.mode := by
    rintro w i idx r ⟨hw, hsize, hmode⟩ rfl
    obtain ⟨hw', hsize', hmode'⟩ := w.blockForWrite_kept i idx
    exact ⟨hw'.trans hw, hsize'.trans hsize, hmode'.trans hmode⟩
  have hall := @writeLoop_induction buf size
    (fun w i _ _ written =>
      (w.inode = v.inode ∧ i.size = inode.size ∧ i.mode = inode.mode) ∧ written ≤ size)
    (fun w i written =>
      (w.inode = v.inode ∧ i.size = inode.size ∧ i.mode = inode.mode) ∧ written ≤ size)
    (fun _ _ _ _ _ h => h) (fun _ _ _ _ _ _ _ h _ hb => ⟨hblock h.1 hb, h.2⟩)
    (fun _ _ _ _ _ _ _ _ h _ hb _ => ⟨hblock h.1 hb, h.2⟩)
    (fun _ _ _ _ _ _ _ _ h _ hb _ => ⟨hblock h.1 hb, by omega⟩) rounds v inode startBlock startOff _
    ⟨⟨rfl, rfl, rfl⟩, Nat.zero_le _⟩
  exact ⟨hall.1.1, hall.1.2.1, hall.1.2.2, hall.2⟩

/-- Writing changes no mode. -/
theorem write_mode (v : Volume) (n : Nat) (buf : Bytes) (size offset : Nat) (ticks : BitVec 32) :
    ((v.write n buf size offset ticks).2.inode n).mode = (v.inode n).mode := by
  obtain ⟨htable, -, hmode, -⟩ := writeLoop_bounds buf size size v (v.inode n)
    (offset / 4096 % 2 ^ 32) (offset % 4096)
  unfold write
  simp only
  split
  · simpa [setInode, grownInode] using hmode
  · rw [htable]

section

variable (h : v.Placed) (hv : v.Sized) (hn : v.HasInode n) (buf : Bytes) (size offset : Nat)
  (ticks : BitVec 32)
include h hv hn

/-- A write stores the inode only when it has written something. -/
theorem write_follows : v.Follows (v.write n buf size offset ticks).2 := by
  obtain ⟨hs, hinode, hext⟩ := writeLoop_spec hv (h n hn)
  have hp := h.of_inode_eq hs hinode
  unfold write
  simp only
  split
  · refine ⟨hs.trans (setInode_sameShape _ _ _), fun _ _ => hp.setInode ?_⟩
    rw [hs.dataStart, hs.totalBlocks]
    exact hext
  · exact ⟨hs, fun _ _ => hp⟩

end

end Volume

/-! ## The simulation -/

/-- A driver call and an operation on the volume end alike. -/
structure Simulates (r : Int × UfsMount) (s : Bool × Volume) : Prop where
  code : r.1 = 0 ↔ s.1 = true
  holds : Holds r.2 s.2

namespace Holds

variable {m : UfsMount} {node : VfsNode}

section

variable (h : Holds m v)
include h

theorem writeBlock_code (hb : b < v.totalBlocks) (buf : Bytes) :
    (ufsWriteBlock m b buf).1 = 0 := h.rep.writeBlock_code hb

/-- A block of the data area is written in place. -/
theorem setData (hlo : v.dataStart ≤ b) (hhi : b < v.totalBlocks) (buf : Bytes) :
    Holds (ufsWriteBlock m b buf).2 (v.setData b buf) := by
  have := h.writeBlock hlo buf
  rwa [Volume.writeBlock, if_neg (by omega)] at this

/-- An inode of the volume is written in place. -/
theorem setInode (hn : v.HasInode n) (inode : UfsInode) :
    Holds (ufsWriteInode m n inode).2 (v.setInode n inode) := by
  have := h.writeInode n inode
  rwa [Volume.writeInode, if_pos hn] at this

/-- The driver's walk over a directory and the volume's find the same slot. -/
theorem scan_eq (hdir : ExtentsIn v.dataStart v.totalBlocks dir.extents)
    (test : Bytes → Nat → Bool) : ufsDirScan m dir test = v.scan dir test := by
  have hsmall := h.rep.sized.small
  unfold ufsDirScan scan
  congr 1
  funext i
  simp only
  cases hget : (blockList dir.extents)[i]? with
  | none =>
    have h0 : ufsGetBlock dir.extents i = 0 := by
      rw [hdir.getBlock_eq (by omega), hget]
      rfl
    simp [h0]
  | some b =>
    have hblock := hdir.getBlock_of_getElem (by omega) hget
    have hread := h.rep.readBlock_eq (hdir.mem_bounds (mem_of_getElem? hget)).1
    cases hv : v.readBlock b <;> simp only [hblock, hread, hv]

/-- The driver finds in a directory what the volume holds there. -/
theorem find_eq (hp : v.Placed) (d : Nat) (name : CStr) :
    ufsFindInDir m d name = v.find d name := by
  unfold ufsFindInDir find
  rw [h.rep.readInode_eq, readInode]
  by_cases hd : v.HasInode d
  · rw [if_pos hd, if_pos hd]
    simp only
    rw [h.scan_eq (hp d hd)]
  · rw [if_neg hd, if_neg hd]

/-- `ufs_remove_from_dir` removes the entry that the volume loses. -/
theorem removeFromDir (hp : v.Placed) (d : Nat) (name : CStr) :
    Simulates (ufsRemoveFromDir m d name) (v.removeEntry d name) := by
  unfold ufsRemoveFromDir removeEntry
  rw [h.rep.readInode_eq, readInode]
  by_cases hd : v.HasInode d
  · rw [if_pos hd, if_pos hd]
    simp only
    rw [h.scan_eq (hp d hd)]
    cases hscan : v.scan (v.inode d) (direntMatches name) with
    | none => exact ⟨by simp, h⟩
    | some r =>
      have hb := (hp d hd).mem_bounds (scan_block_mem h.rep.sized (hp d hd) hscan)
      exact ⟨by simp, (h.writeBlock hb.1 _).writeInode _ _⟩
  · rw [if_neg hd, if_neg hd]
    exact ⟨by simp, h⟩

/-- `ufs_add_to_dir` puts the entry into the slot or the new block the volume chooses. -/
theorem addToDir (hp : v.Placed) (d n : Nat) (name : CStr) (type : BitVec 8) :
    Simulates (ufsAddToDir m d n name type) (v.addEntry d n name type) := by
  unfold ufsAddToDir addEntry
  rw [h.rep.readInode_eq, readInode]
  by_cases hd : v.HasInode d
  · rw [if_pos hd, if_pos hd]
    simp only
    rw [h.scan_eq (hp d hd)]
    cases hscan : v.scan (v.inode d) direntFree with
    | some r =>
      have hb := (hp d hd).mem_bounds (scan_block_mem h.rep.sized (hp d hd) hscan)
      exact ⟨by simp, (h.writeBlock hb.1 _).writeInode _ _⟩
    | none =>
      simp only
      cases hnext : v.nextBlock with
      | none =>
        rw [h.allocBlock_none hnext]
        exact ⟨by simp, h⟩
      | some nb =>
        obtain ⟨hcode, hnb⟩ := h.allocBlock_some hnext
        obtain ⟨hlo, hhi, -⟩ := nextBlock_spec hnext
        have hds := h.dataStart_pos
        rw [hcode, if_neg (by omega)]
        have hw := hnb.setData hlo hhi (direntPut zeros 0 n name type)
        have hwcode := hnb.writeBlock_code hhi (direntPut zeros 0 n name type)
        simp only [hwcode, ufsAppendBlock]
        cases hfits : appendFits (v.inode d).extents nb with
        | false => exact ⟨by simp, hw.freeBlock nb⟩
        | true => exact ⟨by simp, hw.writeInode _ _⟩
  · rw [if_neg hd, if_neg hd]
    exact ⟨by simp, h⟩

theorem mounted : m.mounted = true := h.header.mounted

section

variable (hp : v.Placed)
include hp

/-- `ufs_vfs_create` makes a file. -/
theorem create (dir : VfsNode) (name : CStr) (mode ticks : BitVec 32) :
    Simulates (ufsVfsCreate m dir name mode ticks)
      (v.make dir.fsData.toNat name (fileNode mode ticks)) := by
  unfold ufsVfsCreate make
  rw [h.find_eq hp]
  simp only [h.mounted, Bool.not_true, Bool.false_eq_true, if_false]
  split
  · exact ⟨by simp [eexist], h⟩
  cases hnext : v.nextInode with
  | none =>
    rw [h.allocInode_none hnext]
    exact ⟨by simp [enospc], h⟩
  | some n =>
    obtain ⟨hcode, hn⟩ := h.allocInode_some hnext
    obtain ⟨hhas, -⟩ := nextInode_spec hnext
    have hhas' := ((v.takeInode_sameShape n).hasInode_iff n).mpr hhas
    have hpos : ¬ n = 0 := by have := hhas.1; omega
    rw [hcode, if_neg hpos]
    have hw := hn.setInode hhas' (fileNode mode ticks).inode
    have hwcode := hn.rep.writeInode_code hhas' (fileNode mode ticks).inode
    unfold fileNode at hw hwcode
    simp only [hwcode]
    have hpn : ((v.takeInode n).setInode n (fileNode mode ticks).inode).Placed :=
      (hp.takeInode n).setInode (zero_extentsIn _ _)
    exact hw.addToDir hpn _ _ _ _

/-- The common course of `ufs_vfs_mkdir` and `ufs_vfs_symlink`: the inode, its first
block and the entry. -/
theorem makeWithBlock (d : Nat) (name : CStr) (node : NewNode) {contents : Nat → Bytes}
    (hfirst : node.firstBlock = some contents) : Simulates
      (if (ufsFindInDir m d name).isSome then (-1, m)
      else if (ufsAllocInode m).1 = 0 then (-1, (ufsAllocInode m).2)
      else
        let n := (ufsAllocInode m).1
        let a := ufsAllocBlock (ufsAllocInode m).2
        if a.1 = 0 then (-1, ufsFreeInode a.2 n)
        else ufsAddToDir (ufsWriteInode (ufsWriteBlock a.2 a.1 (contents n)).2 n
          (node.inode.append a.1)).2 d n name node.type)
      (v.make d name node) := by
  unfold make
  rw [h.find_eq hp]
  split
  · exact ⟨by simp, h⟩
  cases hnext : v.nextInode with
  | none =>
    rw [h.allocInode_none hnext]
    exact ⟨by simp, h⟩
  | some n =>
    obtain ⟨hcode, hn⟩ := h.allocInode_some hnext
    obtain ⟨hhas, -⟩ := nextInode_spec hnext
    have hpos : ¬ n = 0 := by have := hhas.1; omega
    simp only [hcode, if_neg hpos, hfirst]
    cases hblock : (v.takeInode n).nextBlock with
    | none =>
      rw [hn.allocBlock_none hblock]
      exact ⟨by simp, hn.freeInode n⟩
    | some b =>
      obtain ⟨hbcode, hb⟩ := hn.allocBlock_some hblock
      obtain ⟨hlo, hhi, -⟩ := nextBlock_spec hblock
      have hsmall := h.rep.sized.small
      have hds := hn.dataStart_pos
      have hs := ((v.takeInode_sameShape n).trans (takeBlock_sameShape _ b)).trans
        (setData_sameShape _ b (contents n))
      have hw := (hb.setData hlo hhi (contents n)).setInode ((hs.hasInode_iff n).mpr hhas)
        (node.inode.append b)
      rw [hbcode, if_neg (by omega)]
      refine hw.addToDir ((((hp.takeInode n).takeBlock b).setData b (contents n)).setInode ?_) _ _
        _ _
      rw [hs.totalBlocks, append_extents, node.empty]
      exact (zero_extentsIn _ _).append (by omega) hlo hhi

/-- `ufs_vfs_mkdir` makes a directory with its two entries. -/
theorem mkdir (dir : VfsNode) (name : CStr) (mode ticks : BitVec 32) :
    Simulates (ufsVfsMkdir m dir name mode ticks)
      (v.make dir.fsData.toNat name (dirNode dir.fsData.toNat mode ticks)) := by
  unfold ufsVfsMkdir
  simp only [h.mounted, Bool.not_true, Bool.false_eq_true]
  have hsim := h.makeWithBlock hp dir.fsData.toNat name (dirNode dir.fsData.toNat mode ticks) rfl
  exact hsim

/-- `ufs_vfs_symlink` makes a link with the target in its first block. -/
theorem symlink (dir : VfsNode) (name target : CStr) (ticks : BitVec 32) :
    Simulates (ufsVfsSymlink m dir name target ticks)
      (v.make dir.fsData.toNat name (linkNode target ticks)) := by
  unfold ufsVfsSymlink
  simp only [h.mounted, Bool.not_true, Bool.false_eq_true]
  have hsim := h.makeWithBlock hp dir.fsData.toNat name (linkNode target ticks) rfl
  exact hsim

/-- `ufs_vfs_unlink` refuses what the volume refuses, and otherwise frees the same file. -/
theorem unlink (dir : VfsNode) (name : CStr) :
    Simulates (ufsVfsUnlink m dir name) (v.unlink dir.fsData.toNat name) := by
  unfold ufsVfsUnlink Volume.unlink
  rw [h.find_eq hp]
  simp only [h.mounted, Bool.not_true, Bool.false_eq_true, if_false]
  cases hfind : v.find dir.fsData.toNat name with
  | none => exact ⟨by simp, h⟩
  | some n =>
    simp only
    rw [h.rep.readInode_eq, Volume.readInode]
    by_cases hn : v.HasInode n
    · rw [if_pos hn]
      simp only [hn, not_true_eq_false, false_or]
      rw [h.scan_eq (hp n hn)]
      by_cases hfull : v.refusesUnlink (v.inode n) = true
      · rw [if_pos hfull, if_pos (by simpa [Volume.refusesUnlink, isDir, and_assoc]
          using hfull)]
        exact ⟨by simp [enotempty], h⟩
      · rw [if_neg hfull, if_neg (by simpa [Volume.refusesUnlink, isDir]
          using hfull)]
        exact ((h.freeInodeBlocks n).freeInode n).removeFromDir
          ((hp.freeInodeBlocks n).freeInode n) _ _
    · rw [if_neg hn, if_pos (Or.inl hn)]
      exact ⟨by simp, h⟩

/-- `ufs_vfs_rename` removes and adds the entries that the volume's `rename` does. -/
theorem rename (oldDir : VfsNode) (oldName : CStr) (newDir : VfsNode) (newName : CStr) :
    Simulates (ufsVfsRename m oldDir oldName newDir newName)
      (v.rename oldDir.fsData.toNat oldName newDir.fsData.toNat newName) := by
  unfold ufsVfsRename Volume.rename
  rw [h.find_eq hp]
  simp only [h.mounted, Bool.not_true, Bool.false_eq_true]
  cases hfind : v.find oldDir.fsData.toNat oldName with
  | none => exact ⟨by simp, h⟩
  | some n =>
    simp only
    rw [h.rep.readInode_eq, Volume.readInode]
    by_cases hn : v.HasInode n
    · rw [if_pos hn]
      simp only [hn, if_false]
      have h1 := h.removeFromDir hp newDir.fsData.toNat newName
      have hp1 := (v.removeEntry_follows newDir.fsData.toNat newName).placed h.rep.sized hp
      have h2 := h1.holds.removeFromDir hp1 oldDir.fsData.toNat oldName
      by_cases hok : ((v.removeEntry newDir.fsData.toNat newName).2.removeEntry
          oldDir.fsData.toNat oldName).1 = true
      · rw [if_neg (by simpa using h2.code.mpr hok), if_pos hok]
        have h3 := h2.holds.addToDir
          ((removeEntry_follows _ oldDir.fsData.toNat oldName).placed h1.holds.rep.sized hp1)
          newDir.fsData.toNat n newName (if (v.inode n).isDir then 2#8 else 1#8)
        simpa [isDir] using h3
      · have hcode := (not_congr h2.code).mpr hok
        rw [if_pos hcode, if_neg hok]
        exact ⟨by simp, h2.holds⟩
    · simp only [hn, not_false_eq_true]
      exact ⟨by simp, h⟩

end

/-- A round of the driver's write loop gets the same block. -/
theorem blockForWrite (inode : UfsInode) (idx : Nat) : let r := ufsBlockForWrite m inode idx
    let s := v.blockForWrite inode idx
    r.1 = s.1 ∧ Holds r.2.1 s.2.1 ∧ r.2.2 = s.2.2 := by
  unfold ufsBlockForWrite Volume.blockForWrite
  simp only
  split
  · exact ⟨rfl, h, rfl⟩
  cases hnext : v.nextBlock with
  | none =>
    rw [h.allocBlock_none hnext]
    exact ⟨rfl, h, rfl⟩
  | some nb =>
    obtain ⟨hcode, hnb⟩ := h.allocBlock_some hnext
    obtain ⟨hlo, -, -⟩ := Volume.nextBlock_spec hnext
    have hds := h.dataStart_pos
    rw [hcode, if_neg (by omega)]
    cases hfits : appendFits inode.extents nb with
    | false => simpa [ufsAppendBlock, hfits, append] using hnb.freeBlock nb
    | true => simpa [ufsAppendBlock, hfits, append] using hnb

end

/-- The two write loops run side by side. -/
theorem writeLoop (buf : Bytes) (size rounds : Nat) :
    ∀ {m : UfsMount} {v : Volume} {inode : UfsInode} (startBlock startOff written : Nat),
      Holds m v → ExtentsIn v.dataStart v.totalBlocks inode.extents →
      let r := ufsWriteLoop buf size rounds m inode startBlock startOff written
      let s := Volume.writeLoop buf size rounds v inode startBlock startOff written
      Holds r.1 s.1 ∧ r.2 = s.2 := by
  induction rounds with
  | zero => exact fun _ _ _ h _ => ⟨h, rfl⟩
  | succ rounds ih =>
    intro m v inode startBlock startOff written h hi
    have hsim := h.blockForWrite inode startBlock
    have hspec := Volume.blockForWrite_spec h.rep.sized hi startBlock
    unfold ufsWriteLoop Volume.writeLoop
    split
    · generalize ufsBlockForWrite m inode startBlock = r at hsim
      generalize v.blockForWrite inode startBlock = s at hsim hspec
      obtain ⟨ob, m', inode'⟩ := r
      obtain ⟨ob', v', inode''⟩ := s
      obtain ⟨rfl, h', rfl⟩ : ob = ob' ∧ Holds m' v' ∧ inode' = inode'' := hsim
      cases ob with
      | none => exact ⟨h', rfl⟩
      | some b =>
        obtain ⟨hlo, hhi⟩ := hspec.block b rfl
        rw [← hspec.shape.dataStart] at hlo
        rw [← hspec.shape.totalBlocks] at hhi
        dsimp only at hlo hhi ⊢
        rw [h'.rep.readBlock_eq hlo, Volume.readBlock, if_neg (by omega), if_neg (by omega)]
        simp only [h'.writeBlock_code hhi, ne_eq, not_true_eq_false]
        refine ih _ _ _ (h'.setData hlo hhi _) ?_
        have := hspec.placed
        rwa [← hspec.shape.dataStart, ← hspec.shape.totalBlocks] at this
    · exact ⟨h, rfl⟩

/-- `ufs_vfs_write` returns what the volume's `write` does. -/
theorem write (h : Holds m v) (hp : v.Placed) (hfile : node.type = .file)
    (hn : v.HasInode node.fsData.toNat) (buf : Bytes) (size offset : Nat) (ticks : BitVec 32) :
    (ufsVfsWrite m node buf size offset ticks).1 =
        toInt32 (v.write node.fsData.toNat buf size offset ticks).1 ∧
      Holds (ufsVfsWrite m node buf size offset ticks).2.1
        (v.write node.fsData.toNat buf size offset ticks).2 := by
  obtain ⟨hloop, hrest⟩ := writeLoop buf size size (offset / 4096 % 2 ^ 32) (offset % 4096) 0 h
    (hp _ hn)
  obtain ⟨hs, -, -⟩ := Volume.writeLoop_spec h.rep.sized (hp _ hn)
  unfold ufsVfsWrite Volume.write
  rw [h.rep.readInode_eq, Volume.readInode, if_pos hn]
  simp only [h.mounted, hfile, Bool.not_true, Bool.false_eq_true, ne_eq, not_true_eq_false,
    or_self, if_false]
  rw [hrest]
  split
  · exact ⟨rfl, hloop.setInode ((hs.hasInode_iff _).mpr hn) _⟩
  · exact ⟨rfl, hloop⟩

/-- Only files of the volume are written. -/
theorem write_refused (h : Holds m v)
    (hn : ¬ (node.type = .file ∧ v.HasInode node.fsData.toNat)) (buf : Bytes) (size offset : Nat)
    (ticks : BitVec 32) : ufsVfsWrite m node buf size offset ticks = (-1, m, node) := by
  unfold ufsVfsWrite
  rw [h.rep.readInode_eq, readInode]
  by_cases hfile : node.type = .file
  · have hno : ¬ v.HasInode node.fsData.toNat := fun hhas => hn ⟨hfile, hhas⟩
    simp [hfile, hno]
  · simp [hfile]

end Holds

end Utms7
