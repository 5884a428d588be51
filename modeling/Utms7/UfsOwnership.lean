import Utms7.Allocation
import Utms7.UfsCalls

/-!
# Who owns a block

`blocksOf` gives each inode the blocks of its extents, and `Owned` says that
they are its own: no block occurs twice, and the bitmap has a bit for each.
Every operation keeps that, on every path, so the allocator never hands out a
block that an inode uses.

From it follows what an operation can change.  `Touches I` says that an
operation stayed within the inodes `I`, their blocks and free blocks; then all
other files are as before, with their contents.
-/

namespace Utms7

open ByteMemory Function Volume

@[simp] theorem UfsInode.append_mode (inode : UfsInode) (b : Nat) :
    (inode.append b).mode = inode.mode := rfl

@[simp] theorem UfsInode.append_size (inode : UfsInode) (b : Nat) :
    (inode.append b).size = inode.size := rfl

/-- A new inode has no blocks yet. -/
theorem NewNode.blockList_eq (node : NewNode) : blockList node.inode.extents = [] := by
  rw [node.empty]
  rfl

variable {I : Nat → Prop} {total : Nat}

namespace Volume

variable {v v' v₀ w : Volume} {n b c d : Nat} {inode : UfsInode} {node : NewNode} {bs : List Nat}

/-- The blocks of inode `n`, in file order. -/
def blocksOf (v : Volume) (n : Nat) : List Nat :=
  if v.HasInode n then blockList (v.inode n).extents else []

/-- No block has two places, and every block in use is marked. -/
abbrev Owned (v : Volume) : Prop := Allocation.Sound v.blocksOf v.bit

theorem blocksOf_of_hasInode (hn : v.HasInode n) :
    v.blocksOf n = blockList (v.inode n).extents := if_pos hn

/-- The extents decide which blocks an inode has. -/
theorem SameShape.blocksOf_eq (h : v.SameShape v')
    (hi : (v'.inode n).extents = (v.inode n).extents) :
    v'.blocksOf n = v.blocksOf n := by
  unfold blocksOf
  rw [hi]
  simp only [h.hasInode_iff]

theorem SameShape.setInode (h : v.SameShape v') (n n' : Nat) (inode inode' : UfsInode) :
    (v.setInode n inode).SameShape (v'.setInode n' inode') :=
  ⟨h.totalBlocks, h.dataStart, h.inodeCount⟩

/-- Stored over an inode with the same value of `f`, an inode changes no value of `f`. -/
theorem setInode_field {α : Type} (f : UfsInode → α) {i : UfsInode} (hw : w.inode = v.inode)
    (hf : f i = f inode) (k : Nat) :
    f ((w.setInode n i).inode k) = f ((v.setInode n inode).inode k) := by
  by_cases hk : k = n
  · simp [setInode, hk, hf]
  · simp [setInode, hk, hw]

theorem setInode_self (v : Volume) (n : Nat) : v.setInode n (v.inode n) = v := by
  unfold setInode
  rw [update_eq_self]

theorem setInode_field_self {α : Type} (f : UfsInode → α) (hf : f inode = f (v.inode n)) (k : Nat) :
    f ((v.setInode n inode).inode k) = f (v.inode k) := by
  have hsame := setInode_field f (v := v) (n := n) rfl hf k
  rwa [setInode_self] at hsame

/-- The other inodes keep their blocks. -/
theorem blocksOf_setInode_other {n' : Nat} (inode : UfsInode) (h : n' ≠ n) :
    (v.setInode n inode).blocksOf n' = v.blocksOf n' :=
  (v.setInode_sameShape n inode).blocksOf_eq (by simp [setInode, h])

/-- A stored inode has the blocks of its extents at most. -/
theorem blocksOf_setInode_sub (h : b ∈ (v.setInode n inode).blocksOf n) :
    b ∈ blockList inode.extents := by
  unfold blocksOf at h
  split at h
  · simpa [setInode] using h
  · cases h

/-! ## What an operation touches -/

/-- The blocks that an operation on the inodes `I` may write: theirs and the
free ones. -/
def Usable (v : Volume) (I : Nat → Prop) (b : Nat) : Prop :=
  v.bit b = false ∨ ∃ n, I n ∧ b ∈ v.blocksOf n

/-- The step from `v₀` to `v` stays within the inodes `I`. -/
structure Touches (I : Nat → Prop) (v₀ v : Volume) : Prop where
  shape : v₀.SameShape v
  inode : ∀ n, ¬ I n → v.inode n = v₀.inode n
  data : ∀ b, ¬ v₀.Usable I b → v.data b = v₀.data b
  usable : ∀ b, v.Usable I b → v₀.Usable I b

namespace Touches

theorem refl (v : Volume) : Touches I v v :=
  ⟨.refl v, fun _ _ => rfl, fun _ _ => rfl, fun _ h => h⟩

section

variable (h : Touches I v₀ v)
include h

/-- A usable block is written. -/
theorem setData (hb : v₀.Usable I b) (buf : Bytes) : Touches I v₀ (v.setData b buf) where
  shape := h.shape.trans (v.setData_sameShape b buf)
  inode := h.inode
  data b' hb' := by
    have hne : b' ≠ b := by
      rintro rfl
      exact hb' hb
    simpa [Volume.setData, hne] using h.data b' hb'
  usable := h.usable

/-- The allocator takes a free block. -/
theorem takeBlock (hb : v.bit b = false) : Touches I v₀ (v.takeBlock b) := by
  have hset := h.setData (h.usable b (.inl hb)) zeros
  refine ⟨h.shape.trans (v.takeBlock_sameShape b), h.inode, hset.data, ?_⟩
  rintro b' (hb' | ⟨n, hn, hmem⟩)
  · by_cases hbb : b' = b
    · subst hbb
      exact h.usable b' (.inl hb)
    · refine h.usable b' (.inl ?_)
      simpa [Volume.takeBlock, setBit, Volume.setData, hbb] using hb'
  · exact h.usable b' (.inr ⟨n, hn, hmem⟩)

/-- A usable block is freed. -/
theorem freeBlock (hb : v₀.Usable I b) : Touches I v₀ (v.freeBlock b) := by
  refine ⟨h.shape.trans (v.freeBlock_sameShape b), ?_, ?_, ?_⟩
  · rw [freeBlock_inode]
    exact h.inode
  · rw [freeBlock_data]
    exact h.data
  · rintro b' (hb' | ⟨n, hn, hmem⟩)
    · by_cases hbb : b' = b
      · exact hbb ▸ hb
      · refine h.usable b' (.inl ?_)
        unfold Volume.freeBlock at hb'
        split at hb'
        · exact hb'
        · simpa [setBit, hbb] using hb'
    · refine h.usable b' (.inr ⟨n, hn, ?_⟩)
      rwa [(v.freeBlock_sameShape b).blocksOf_eq (by rw [freeBlock_inode])] at hmem

section

variable (hn : I n) (hsub : ∀ b ∈ blockList inode.extents, v₀.Usable I b)
include hn hsub

/-- An inode of `I` is stored, with usable blocks. -/
theorem setInode : Touches I v₀ (v.setInode n inode) where
  shape := h.shape.trans (v.setInode_sameShape n inode)
  inode n' hn' := by
    have hne : n' ≠ n := by
      rintro rfl
      exact hn' hn
    simpa [Volume.setInode, hne] using h.inode n' hn'
  data := h.data
  usable := by
    rintro b (hb | ⟨n', hn', hmem⟩)
    · exact h.usable b (.inl hb)
    · by_cases hnn : n' = n
      · subst hnn
        exact hsub b (blocksOf_setInode_sub hmem)
      · rw [blocksOf_setInode_other inode hnn] at hmem
        exact h.usable b (.inr ⟨n', hn', hmem⟩)

theorem writeInode : Touches I v₀ (v.writeInode n inode) := by
  unfold Volume.writeInode
  split
  · exact h.setInode hn hsub
  · exact h

end

theorem writeBlock (hb : v₀.Usable I b) (buf : Bytes) : Touches I v₀ (v.writeBlock b buf) := by
  unfold Volume.writeBlock
  split
  · exact h
  · exact h.setData hb buf

/-- An inode of `I` gives up its blocks. -/
theorem clearInode (hn : I n) : Touches I v₀ (v.setInode n .zero) :=
  h.setInode hn (by simp [UfsInode.zero])

theorem takeInode (hn : I n) : Touches I v₀ (v.takeInode n) := by
  have hset := h.clearInode hn
  exact ⟨h.shape.trans (v.takeInode_sameShape n), hset.inode, hset.data, hset.usable⟩

theorem freeInode (hn : I n) : Touches I v₀ (v.freeInode n) := by
  have hshape := h.shape.trans (v.freeInode_sameShape n)
  by_cases hi : v.HasInode n
  · have hset := h.clearInode hn
    rw [Volume.freeInode, if_pos hi] at hshape ⊢
    exact ⟨hshape, hset.inode, hset.data, hset.usable⟩
  · rw [Volume.freeInode, if_neg hi]
    exact h

end

/-- Usable blocks are freed one after the other. -/
theorem freeBlocks (hbs : ∀ b ∈ bs, v₀.Usable I b) (h : Touches I v₀ v) :
    Touches I v₀ (bs.foldl Volume.freeBlock v) := by
  induction bs generalizing v with
  | nil => exact h
  | cons b bs ih =>
    exact ih (fun b' hb' => hbs b' (List.mem_cons_of_mem _ hb'))
      (h.freeBlock (hbs b List.mem_cons_self))

section

variable (h : Touches I v₀ v)
include h

/-- The blocks of the inodes `I` are usable. -/
theorem usable_of_mem (hn : I n) (hi : v.HasInode n) (hb : b ∈ blockList (v.inode n).extents) :
    v₀.Usable I b :=
  h.usable b (.inr ⟨n, hn, by rwa [blocksOf_of_hasInode hi]⟩)

/-- An inode of `I` frees its own blocks. -/
theorem freeInodeBlocks (hp : v.Placed) (hv : v.Sized) (hn : I n) :
    Touches I v₀ (v.freeInodeBlocks n) := by
  have hsmall := hv.small
  unfold Volume.freeInodeBlocks
  split
  · rename_i hi
    rw [(hp n hi).extentBlocks_eq (by omega)]
    exact h.freeBlocks fun b hb => h.usable_of_mem hn hi hb
  · exact h

/-- A directory entry is written into a block of the directory. -/
theorem putSlot (hp : v.Placed) (hv : v.Sized) (hd : I d) (hi : v.HasInode d)
    {test : Bytes → Nat → Bool} {j : Nat} {ents : Bytes}
    (hscan : v.scan (v.inode d) test = some (b, ents, j)) {buf : Bytes} {size : BitVec 32} :
    Touches I v₀ ((v.writeBlock b buf).writeInode d { v.inode d with size := size }) := by
  have hmem := scan_block_mem hv (hp d hi) hscan
  exact (h.writeBlock (h.usable_of_mem hd hi hmem) buf).writeInode hd
    fun b' hb' => h.usable_of_mem hd hi hb'

/-- The block that the allocator takes next is usable too. -/
theorem append_usable (hv : v.Sized) {nb : Nat} (hnext : v.nextBlock = some nb)
    (hin : ExtentsIn v.dataStart v.totalBlocks inode.extents)
    (hsub : ∀ b ∈ blockList inode.extents, v₀.Usable I b) :
    ∀ b ∈ blockList (inode.append nb).extents, v₀.Usable I b := by
  have hsmall := hv.small
  obtain ⟨-, hhi, hfree⟩ := nextBlock_spec hnext
  intro b hb
  rw [UfsInode.append_extents] at hb
  cases hfits : appendFits inode.extents nb with
  | false =>
    rw [appendExtent_of_not_fits hfits] at hb
    exact hsub b hb
  | true =>
    have hperm := blockList_appendExtent_perm hin (by omega) hhi hfits
    rcases List.mem_cons.mp (hperm.mem_iff.mp hb) with rfl | hb
    · exact h.usable b (.inl hfree)
    · exact hsub b hb

/-- An entry is added to a directory of `I`. -/
theorem addEntry (hp : v.Placed) (hv : v.Sized) (hd : I d) (n : Nat) (name : CStr)
    (type : BitVec 8) : Touches I v₀ (v.addEntry d n name type).2 := by
  unfold Volume.addEntry
  split
  · rename_i hi
    simp only
    split
    · rename_i hscan
      exact h.putSlot hp hv hd hi hscan
    split
    · exact h
    rename_i nb hnext
    have hnb := h.usable nb (.inl (nextBlock_spec hnext).2.2)
    have htake := (h.takeBlock (nextBlock_spec hnext).2.2).setData hnb
      (direntPut zeros 0 n name type)
    split
    · exact htake.writeInode hd (h.append_usable hv hnext (hp d hi)
        fun b hb => h.usable_of_mem hd hi hb)
    · exact htake.freeBlock hnb
  · exact h

/-- An entry is removed from a directory of `I`. -/
theorem removeEntry (hp : v.Placed) (hv : v.Sized) (hd : I d) (name : CStr) :
    Touches I v₀ (v.removeEntry d name).2 := by
  unfold Volume.removeEntry
  split
  · rename_i hi
    simp only
    split
    · exact h
    · rename_i hscan
      exact h.putSlot hp hv hd hi hscan
  · exact h

end

end Touches

namespace Prepared

variable {n : Nat} {node : NewNode} {w : Volume}

/-- A new inode of `I` takes nothing but a free block. -/
theorem touches (h : Prepared v n node w) (hv : v.Sized) {I : Nat → Prop} (hn : I n) :
    Touches I v w := by
  have htake := (Touches.refl (I := I) v).takeInode hn
  have hempty : ∀ b ∈ blockList node.inode.extents, v.Usable I b := by
    simp [node.blockList_eq]
  cases h with
  | plain => exact htake.setInode hn hempty
  | block h hb =>
    have hfree := (nextBlock_spec hb).2.2
    exact ((htake.takeBlock hfree).setData (.inl hfree) _).setInode hn
      ((Touches.refl v).append_usable hv hb (node.extentsIn _ _) hempty)

end Prepared

namespace Touches

/-- A creation touches the directory and the new inode. -/
theorem make (hp : v.Placed) (hv : v.Sized) (hd : I d)
    (hnew : ∀ n, v.nextInode = some n → I n) (name : CStr) (node : NewNode) :
    Touches I v (v.make d name node).2 := by
  refine make_cases v d name node (fun _ => .refl v) ?_ ?_
  · intro n _ hn _ _
    exact ((Touches.refl v).takeInode (hnew n hn)).freeInode (hnew n hn)
  · intro n w _ hn hw
    exact (hw.touches hv (hnew n hn)).addEntry (hw.follows.placed hv hp)
      (hw.follows.shape.sized hv) hd _ _ _

/-- A removal touches the directory and the file removed. -/
theorem unlink (hp : v.Placed) (hv : v.Sized) (hd : I d) {name : CStr}
    (hvictim : ∀ n, v.find d name = some n → I n) : Touches I v (v.unlink d name).2 := by
  unfold Volume.unlink
  split
  · exact .refl v
  rename_i n hn
  have hin := hvictim n hn
  split
  · exact .refl v
  · have hs := (v.freeInodeBlocks_sameShape n).trans (freeInode_sameShape _ n)
    exact (((Touches.refl v).freeInodeBlocks hp hv hin).freeInode hin).removeEntry
      ((hp.freeInodeBlocks n).freeInode n) (hs.sized hv) hd name

/-- A round of the write loop gets a usable block. -/
theorem blockForWrite (h : Touches I v₀ v) (hv : v.Sized)
    (hin : ExtentsIn v.dataStart v.totalBlocks inode.extents)
    (hsub : ∀ b ∈ blockList inode.extents, v₀.Usable I b) (idx : Nat) :
    Touches I v₀ (v.blockForWrite inode idx).2.1 ∧
      (∀ b ∈ blockList (v.blockForWrite inode idx).2.2.extents, v₀.Usable I b) ∧
      ∀ b, (v.blockForWrite inode idx).1 = some b → v₀.Usable I b := by
  have hsmall := hv.small
  unfold Volume.blockForWrite
  simp only
  split
  · rename_i h0
    refine ⟨h, hsub, ?_⟩
    rintro b ⟨⟩
    rw [hin.getBlock_eq (by omega)] at h0 ⊢
    cases hget : (blockList inode.extents)[idx]? with
    | none => simp [hget] at h0
    | some b => exact hsub b (List.mem_of_getElem? hget)
  · split
    · exact ⟨h, hsub, by simp⟩
    rename_i nb hnext
    have hfree := (nextBlock_spec hnext).2.2
    have hnb := h.usable nb (.inl hfree)
    have hsub' := h.append_usable hv hnext hin hsub
    split
    · refine ⟨h.takeBlock hfree, hsub', ?_⟩
      rintro b ⟨⟩
      exact hnb
    · exact ⟨(h.takeBlock hfree).freeBlock hnb, hsub', by simp⟩

/-- The write loop stays within the file it writes. -/
theorem writeLoop (buf : Bytes) (size rounds : Nat)
    (startBlock startOff written : Nat) (h : Touches I v₀ v) (hv : v.Sized)
    (hin : ExtentsIn v.dataStart v.totalBlocks inode.extents)
    (hsub : ∀ b ∈ blockList inode.extents, v₀.Usable I b) :
    let r := writeLoop buf size rounds v inode startBlock startOff written
    Touches I v₀ r.1 ∧ ∀ b ∈ blockList r.2.1.extents, v₀.Usable I b := by
  refine (writeLoop_keeps (Q := fun w inode => (w.Sized ∧
    ExtentsIn w.dataStart w.totalBlocks inode.extents) ∧ Touches I v₀ w ∧
    ∀ b ∈ blockList inode.extents, v₀.Usable I b) buf size rounds startBlock startOff written ?_
    ⟨⟨hv, hin⟩, h, hsub⟩).2
  rintro w inode idx ⟨⟨hw, hin⟩, h, hsub⟩
  obtain ⟨h', hsub', hblock⟩ := h.blockForWrite hw hin hsub idx
  have hkept := (blockForWrite_spec hw hin idx).kept hw
  exact ⟨⟨hkept, h', hsub'⟩, fun b _ hb => ⟨hkept, h'.setData (hblock b hb) _, hsub'⟩⟩

/-- A write touches the file written. -/
theorem write (hp : v.Placed) (hv : v.Sized) (hn : I n) (hi : v.HasInode n)
    (buf : Bytes) (size offset : Nat) (ticks : BitVec 32) :
    Touches I v (v.write n buf size offset ticks).2 := by
  have h := Touches.refl (I := I) v
  obtain ⟨hloop, hsub⟩ := writeLoop (I := I) buf size size (offset / 4096 % 2 ^ 32) (offset % 4096)
    0 h hv (hp n hi) fun b hb => h.usable_of_mem hn hi hb
  unfold Volume.write
  simp only
  split
  · exact hloop.setInode hn hsub
  · exact hloop

/-- **Files outside `I` are as before**, with their contents. -/
theorem file (h : Touches I v₀ v) (ho : v₀.Owned) (hn : ¬ I n) :
    v.inode n = v₀.inode n ∧ ∀ b ∈ v₀.blocksOf n, v.data b = v₀.data b := by
  refine ⟨h.inode n hn, fun b hb => h.data b ?_⟩
  rintro (hfree | ⟨n', hn', hb'⟩)
  · exact ho.not_mem hfree n hb
  · exact hn (ho.apart hb hb' ▸ hn')

end Touches

/-! ## Ownership is kept -/

@[simp] theorem takeBlock_bit (v : Volume) (b : Nat) :
    (v.takeBlock b).bit = update v.bit b true := rfl

/-- Freeing a block changes no other bit. -/
theorem freeBlock_bit_other (h : c ≠ b) : (v.freeBlock b).bit c = v.bit c := by
  unfold freeBlock
  split
  · rfl
  · simp [setBit, h]

theorem freeBlocks_bit_other (h : c ∉ bs) : (bs.foldl freeBlock v).bit c = v.bit c := by
  induction bs generalizing v with
  | nil => rfl
  | cons b bs ih =>
    simp only [List.mem_cons, not_or] at h
    obtain ⟨hb, hbs⟩ := h
    rw [List.foldl_cons, ih hbs, freeBlock_bit_other hb]

/-- The block that the allocator takes next joins the extents of inode `n`. -/
structure Joins (v v' : Volume) (n b : Nat) : Prop where
  next : v.nextBlock = some b
  fits : appendFits (v.inode n).extents b = true
  shape : v.SameShape v'
  extents : (v'.inode n).extents = appendExtent (v.inode n).extents b
  other : ∀ k, k ≠ n → (v'.inode k).extents = (v.inode k).extents
  bit : v'.bit = update v.bit b true

namespace Joins

/-- The block is taken first, and then the inode is stored. -/
theorem setInode (hnext : v.nextBlock = some b) (hfits : appendFits (v.inode n).extents b = true)
    (hs : v.SameShape w) (hother : ∀ k, k ≠ n → w.inode k = v.inode k)
    (hext : inode.extents = appendExtent (v.inode n).extents b)
    (hbit : w.bit = update v.bit b true) : Joins v (w.setInode n inode) n b where
  next := hnext
  fits := hfits
  shape := hs.trans (setInode_sameShape _ _ _)
  extents := by simpa [Volume.setInode] using hext
  other k hk := by simp [Volume.setInode, hk, hother k hk]
  bit := hbit

/-- In a round of the write loop the inode in core gets the block. -/
theorem core (hnext : v.nextBlock = some b) (hfits : appendFits inode.extents b = true) :
    Joins (v.setInode n inode) ((v.takeBlock b).setInode n (inode.append b)) n b :=
  .setInode hnext (by simpa [Volume.setInode] using hfits) ⟨rfl, rfl, rfl⟩
    (fun k hk => by simp [Volume.setInode, hk, Volume.takeBlock, setBit, Volume.setData])
    (by simp [Volume.setInode]) rfl

/-- A new inode gets its first block. -/
theorem first (hb : v.nextBlock = some b) (buf : Bytes) :
    Joins ((v.takeInode n).setInode n node.inode)
      ((((v.takeInode n).takeBlock b).setData b buf).setInode n (node.inode.append b)) n b := by
  refine .setInode hb ?_ ⟨rfl, rfl, rfl⟩ (fun k hk => ?_) (by simp [Volume.setInode]) rfl
  · simp only [Volume.setInode, update_self, node.empty]
    rfl
  · simp [Volume.setInode, hk, Volume.takeBlock, setBit, Volume.setData]

section

variable (h : Joins v v' n b)
include h

theorem blocksOf_other (k : Nat) (hk : k ≠ n) : v'.blocksOf k = v.blocksOf k :=
  h.shape.blocksOf_eq (h.other k hk)

theorem bit_self : v'.bit b = true := by rw [h.bit, update_self]

theorem bit_other (hc : c ≠ b) : v'.bit c = v.bit c := by rw [h.bit, update_of_ne hc]

/-- The blocks of the inode are those it had and the new one. -/
theorem perm (hv : v.Sized) (hn : v.HasInode n)
    (hin : ExtentsIn v.dataStart v.totalBlocks (v.inode n).extents) :
    (v'.blocksOf n).Perm (b :: v.blocksOf n) := by
  have hsmall := hv.small
  rw [blocksOf_of_hasInode hn, blocksOf_of_hasInode ((h.shape.hasInode_iff n).mpr hn), h.extents]
  exact blockList_appendExtent_perm hin (by omega) (nextBlock_spec h.next).2.1 h.fits

end

end Joins

namespace Owned

section

variable (h : v.Owned)
include h

/-- Extents stay and bits are only set. -/
theorem of_same (hs : v.SameShape v') (hi : ∀ n, (v'.inode n).extents = (v.inode n).extents)
    (hbit : ∀ b, v.bit b = true → v'.bit b = true) : v'.Owned := by
  have hblocks : v'.blocksOf = v.blocksOf := funext fun n => hs.blocksOf_eq (hi n)
  rw [Owned, hblocks]
  exact h.remark fun n b hb => hbit b (h.marked hb)

/-- Inode `n` gets the block the allocator takes next. -/
theorem append (hv : v.Sized) (hn : v.HasInode n)
    (hin : ExtentsIn v.dataStart v.totalBlocks (v.inode n).extents) (hj : Joins v v' n b) :
    v'.Owned := by
  refine Allocation.Sound.grow h (nextBlock_spec hj.next).2.2 (hj.perm hv hn hin) hj.blocksOf_other
    (fun c hc => ?_) hj.bit_self
  by_cases hcb : c = b
  · rw [hcb, hj.bit_self]
  · rwa [hj.bit_other hcb]

/-- Inode `n` loses its blocks, and only their bits are cleared. -/
theorem clear (hs : v.SameShape v') (hi : v'.blocksOf n = [])
    (hother : ∀ k, k ≠ n → (v'.inode k).extents = (v.inode k).extents)
    (hbit : ∀ c, c ∉ v.blocksOf n → v.bit c = true → v'.bit c = true) : v'.Owned :=
  Allocation.Sound.release h hi (fun k hk => hs.blocksOf_eq (hother k hk)) hbit

/-- The contents of blocks do not matter. -/
theorem setData (b : Nat) (buf : Bytes) : (v.setData b buf).Owned :=
  h.of_same (v.setData_sameShape b buf) (fun _ => rfl) fun _ hb => hb

/-- A block in use that no inode has is harmless. -/
theorem takeBlock (b : Nat) : (v.takeBlock b).Owned := by
  refine h.of_same (v.takeBlock_sameShape b) (fun _ => rfl) fun c hc => ?_
  by_cases hcb : c = b
  · simp [hcb]
  · simpa [hcb] using hc

/-- A block that was taken and given back leaves no gap. -/
theorem freeBlock (hb : ∀ n, b ∉ v.blocksOf n) : (v.freeBlock b).Owned := by
  have hblocks : (v.freeBlock b).blocksOf = v.blocksOf :=
    funext fun n => (v.freeBlock_sameShape b).blocksOf_eq (by rw [freeBlock_inode])
  rw [Owned, hblocks]
  refine h.remark fun n c hc => ?_
  have hcb : c ≠ b := by
    rintro rfl
    exact hb n hc
  rw [freeBlock_bit_other hcb]
  exact h.marked hc

/-- An inode may be stored with the extents it has. -/
theorem writeInode_same (hi : inode.extents = (v.inode n).extents) :
    (v.writeInode n inode).Owned := by
  unfold writeInode
  split
  · exact h.of_same (v.setInode_sameShape n inode) (setInode_field_self (·.extents) hi)
      fun _ hb => hb
  · exact h

/-- An inode is cleared whose blocks, if any, are given up. -/
theorem clearInode (n : Nat) : (v.setInode n .zero).Owned := by
  refine h.clear (n := n) (v.setInode_sameShape n .zero) ?_ (fun k hk => ?_) fun _ _ hc => hc
  · exact List.eq_nil_iff_forall_not_mem.mpr fun b hb => by
      simpa [UfsInode.zero] using blocksOf_setInode_sub hb
  · simp [setInode, hk]

theorem writeBlock (b : Nat) (buf : Bytes) : (v.writeBlock b buf).Owned := by
  unfold Volume.writeBlock
  split
  · exact h
  · exact h.setData b buf

theorem takeInode (n : Nat) : (v.takeInode n).Owned :=
  (h.clearInode n).of_same (v := v.setInode n .zero) ⟨rfl, rfl, rfl⟩ (fun _ => rfl) fun _ hb => hb

theorem freeInode (n : Nat) : (v.freeInode n).Owned := by
  by_cases hi : v.HasInode n
  · rw [Volume.freeInode, if_pos hi]
    exact (h.clearInode n).of_same (v := v.setInode n .zero) ⟨rfl, rfl, rfl⟩ (fun _ => rfl)
      fun _ hb => hb
  · rw [Volume.freeInode, if_neg hi]
    exact h

/-- A directory that grows gets the new block for itself. -/
theorem addEntry (hp : v.Placed) (hv : v.Sized) (d n : Nat) (name : CStr) (type : BitVec 8) :
    (v.addEntry d n name type).2.Owned := by
  unfold Volume.addEntry
  split
  · rename_i hi
    simp only
    split
    · exact (h.writeBlock _ _).writeInode_same (by simp)
    split
    · exact h
    rename_i nb hnext
    have hfree := (nextBlock_spec hnext).2.2
    have hs := (v.takeBlock_sameShape nb).trans
      (setData_sameShape _ nb (direntPut zeros 0 n name type))
    have htake := (h.takeBlock nb).setData nb (direntPut zeros 0 n name type)
    split
    · rename_i hfits
      rw [Volume.writeInode, if_pos ((hs.hasInode_iff d).mpr hi)]
      exact h.append hv hi (hp d hi) (.setInode hnext hfits hs (fun _ _ => rfl) rfl rfl)
    · refine htake.freeBlock fun k => ?_
      exact h.not_mem hfree k
  · exact h

/-- Removing an entry moves no block. -/
theorem removeEntry (d : Nat) (name : CStr) : (v.removeEntry d name).2.Owned := by
  unfold Volume.removeEntry
  split
  · simp only
    split
    · exact h
    · exact (h.writeBlock _ _).writeInode_same (by simp)
  · exact h

/-- A new inode has its first block, if any, for itself. -/
theorem prepared (hv : v.Sized) (hn : v.HasInode n) (hw : Prepared v n node w) : w.Owned := by
  have hs := v.takeInode_sameShape n
  have hn' := (hs.hasInode_iff n).mpr hn
  have hplain : ((v.takeInode n).setInode n node.inode).Owned := by
    have hset : ((v.takeInode n).writeInode n node.inode).Owned :=
      (h.takeInode n).writeInode_same (by simp [node.empty, Volume.takeInode, Volume.setInode])
    rwa [Volume.writeInode, if_pos hn'] at hset
  cases hw with
  | plain => exact hplain
  | block _ hb =>
    refine hplain.append (hs.sized hv) hn' ?_ (.first hb _)
    simpa [Volume.setInode] using node.extentsIn _ _

section

variable (hp : v.Placed) (hv : v.Sized)
include hp hv

/-- A creation gives the new inode free blocks only. -/
theorem make (d : Nat) (name : CStr) (node : NewNode) : (v.make d name node).2.Owned := by
  refine make_cases v d name node (fun _ => h) ?_ ?_
  · intro n _ _ _ _
    exact (h.takeInode n).freeInode n
  · intro n w _ hn hw
    exact (h.prepared hv (nextInode_spec hn).1 hw).addEntry (hw.follows.placed hv hp)
      (hw.follows.shape.sized hv)
      _ _ _ _

/-- A file that goes frees exactly its own blocks. -/
theorem freeFile (n : Nat) : ((v.freeInodeBlocks n).freeInode n).Owned := by
  have hsmall := hv.small
  by_cases hi : v.HasInode n
  · have hs := v.freeInodeBlocks_sameShape n
    have hi' := (hs.hasInode_iff n).mpr hi
    have hs' := hs.trans (freeInode_sameShape _ n)
    refine h.clear (n := n) hs' ?_ (fun k hk => ?_) fun c hc hbit => ?_
    · rw [blocksOf_of_hasInode ((hs'.hasInode_iff n).mpr hi), Volume.freeInode, if_pos hi']
      simp [Volume.setInode, UfsInode.zero]
    · rw [Volume.freeInode, if_pos hi']
      simp [Volume.setInode, hk]
    · rw [Volume.freeInode, if_pos hi', Volume.freeInodeBlocks, if_pos hi,
        (hp n hi).extentBlocks_eq (by omega)]
      rw [blocksOf_of_hasInode hi] at hc
      exact (freeBlocks_bit_other hc).trans hbit
  · rw [Volume.freeInodeBlocks, if_neg hi, Volume.freeInode, if_neg hi]
    exact h

/-- A removal frees the blocks of one file. -/
theorem unlink (d : Nat) (name : CStr) : (v.unlink d name).2.Owned := by
  unfold Volume.unlink
  split
  · exact h
  · split
    · exact h
    · exact (h.freeFile hp hv _).removeEntry d name

theorem rename (d1 : Nat) (a : CStr) (d2 : Nat) (b : CStr) : (v.rename d1 a d2 b).2.Owned := by
  have hf := (v.removeEntry_follows d2 b).trans (removeEntry_follows _ d1 a)
  have h' := (h.removeEntry d2 b).removeEntry d1 a
  unfold Volume.rename
  split
  · exact h
  split
  · exact h
  · simp only
    split
    · exact h'.addEntry (hf.placed hv hp) (hf.shape.sized hv) _ _ _ _
    · exact h'

end

/-- A round of the write loop, for the inode on disk and for the one in core. -/
theorem blockForWrite (hv : v.Sized) (hn : v.HasInode n)
    (hcore : (v.setInode n inode).Owned) (hin : ExtentsIn v.dataStart v.totalBlocks inode.extents)
    (idx : Nat) : (v.blockForWrite inode idx).2.1.Owned ∧
      ((v.blockForWrite inode idx).2.1.setInode n (v.blockForWrite inode idx).2.2).Owned := by
  unfold Volume.blockForWrite
  simp only
  split
  · exact ⟨h, hcore⟩
  split
  · exact ⟨h, hcore⟩
  rename_i nb hnext
  have hfree := (nextBlock_spec hnext).2.2
  have hkept : ∀ c, v.bit c = true → c ≠ nb := by
    rintro c hc rfl
    rw [hfree] at hc
    cases hc
  split
  · rename_i hfits
    refine ⟨h.takeBlock nb, hcore.append (v := v.setInode n inode) hv hn ?_ (.core hnext hfits)⟩
    simpa [Volume.setInode] using hin
  · rename_i hfits
    have hfits' : appendFits inode.extents nb = false := by simpa using hfits
    have hs := (v.takeBlock_sameShape nb).trans (freeBlock_sameShape _ nb)
    refine ⟨(h.takeBlock nb).freeBlock fun k => ?_,
      hcore.of_same (hs.setInode _ _ _ _) (setInode_field (·.extents) (freeBlock_inode _ nb)
        (appendExtent_of_not_fits hfits')) fun c hc => ?_⟩
    · exact h.not_mem hfree k
    · have hcb := hkept c hc
      change ((v.takeBlock nb).freeBlock nb).bit c = true
      rw [freeBlock_bit_other hcb, takeBlock_bit, update_of_ne hcb]
      exact hc

end

/-- The write loop keeps ownership on disk, and with the inode in core stored. -/
theorem writeLoop (buf : Bytes) (size rounds : Nat)
    (startBlock startOff written : Nat) (h : v.Owned) (hcore : (v.setInode n inode).Owned)
    (hv : v.Sized) (hn : v.HasInode n) (hin : ExtentsIn v.dataStart v.totalBlocks inode.extents) :
    let r := writeLoop buf size rounds v inode startBlock startOff written
    r.1.Owned ∧ (r.1.setInode n r.2.1).Owned := by
  refine (writeLoop_keeps (Q := fun w inode => (w.HasInode n ∧ w.Sized ∧
    ExtentsIn w.dataStart w.totalBlocks inode.extents) ∧ w.Owned ∧ (w.setInode n inode).Owned)
    buf size rounds startBlock startOff written ?_ ⟨⟨hn, hv, hin⟩, h, hcore⟩).2
  rintro w inode idx ⟨⟨hn, hw, hin⟩, h, hcore⟩
  obtain ⟨howned, hcore'⟩ := h.blockForWrite hw hn hcore hin idx
  have hspec := blockForWrite_spec hw hin idx
  have hkept := And.intro ((hspec.shape.hasInode_iff n).mpr hn) (hspec.kept hw)
  refine ⟨⟨hkept, howned, hcore'⟩, fun b _ _ => ⟨hkept, howned.setData b _, ?_⟩⟩
  exact hcore'.of_same ((setData_sameShape _ _ _).setInode _ _ _ _) (fun _ => rfl) fun _ hb => hb

/-- A write stores an inode that owns its blocks. -/
theorem write (h : v.Owned) (hp : v.Placed) (hv : v.Sized) (hn : v.HasInode n)
    (buf : Bytes) (size offset : Nat) (ticks : BitVec 32) :
    (v.write n buf size offset ticks).2.Owned := by
  obtain ⟨hloop, hcore⟩ := writeLoop buf size (n := n) size (offset / 4096 % 2 ^ 32)
    (offset % 4096) 0 h (by rwa [setInode_self]) hv hn (hp n hn)
  unfold Volume.write
  simp only
  split
  · exact hcore.of_same ((SameShape.refl _).setInode _ _ _ _)
      (setInode_field (·.extents) rfl rfl) fun _ hb => hb
  · exact hloop

end Owned

/-! ## Intact volumes -/

/-- The state every history keeps: the geometry, blocks in their place, and
each with one owner at most. -/
structure Intact (v : Volume) : Prop where
  sized : v.Sized
  placed : v.Placed
  owned : v.Owned

/-- An operation that keeps the shape, the places and the ownership keeps a volume intact. -/
theorem Intact.follows (h : v.Intact) (hf : v.Follows w) (ho : w.Owned) : w.Intact :=
  ⟨hf.shape.sized h.sized, hf.placed h.sized h.placed, ho⟩

theorem Intact.addEntry (h : v.Intact) (d n : Nat) (name : CStr) (type : BitVec 8) :
    (v.addEntry d n name type).2.Intact :=
  h.follows (v.addEntry_follows d n name type) (h.owned.addEntry h.placed h.sized d n name type)

theorem Intact.removeEntry (h : v.Intact) (d : Nat) (name : CStr) :
    (v.removeEntry d name).2.Intact :=
  h.follows (v.removeEntry_follows d name) (h.owned.removeEntry d name)

theorem Intact.prepared (h : v.Intact) (hn : v.HasInode n) (hw : Prepared v n node w) : w.Intact :=
  h.follows hw.follows (h.owned.prepared h.sized hn hw)

theorem freeFile_sameShape (v : Volume) (n : Nat) :
    v.SameShape ((v.freeInodeBlocks n).freeInode n) :=
  (v.freeInodeBlocks_sameShape n).trans (freeInode_sameShape _ n)

theorem freeInode_inode (hn : v.HasInode n) : (v.freeInode n).inode = update v.inode n .zero := by
  rw [freeInode, if_pos hn]
  rfl

/-- Of the inodes, only the file's is cleared. -/
theorem freeFile_inode (hn : v.HasInode n) :
    ((v.freeInodeBlocks n).freeInode n).inode = update v.inode n .zero := by
  rw [freeInode_inode (((v.freeInodeBlocks_sameShape n).hasInode_iff n).mpr hn),
    freeInodeBlocks_inode]

section

variable (h : v.Intact)
include h

theorem Intact.freeFile (n : Nat) : ((v.freeInodeBlocks n).freeInode n).Intact :=
  ⟨(v.freeFile_sameShape n).sized h.sized, (h.placed.freeInodeBlocks n).freeInode n,
    h.owned.freeFile h.placed h.sized n⟩

theorem Intact.make (d : Nat) (name : CStr) (node : NewNode) : (v.make d name node).2.Intact :=
  h.follows (v.make_follows d name node) (h.owned.make h.placed h.sized d name node)

theorem Intact.unlink (d : Nat) (name : CStr) : (v.unlink d name).2.Intact :=
  h.follows (v.unlink_follows d name) (h.owned.unlink h.placed h.sized d name)

theorem Intact.rename (d1 : Nat) (a : CStr) (d2 : Nat) (b : CStr) : (v.rename d1 a d2 b).2.Intact :=
  h.follows (v.rename_follows d1 a d2 b) (h.owned.rename h.placed h.sized d1 a d2 b)

theorem Intact.write (hn : v.HasInode n) (buf : Bytes) (size offset : Nat)
    (ticks : BitVec 32) : (v.write n buf size offset ticks).2.Intact :=
  h.follows (write_follows h.placed h.sized hn buf size offset ticks)
    (h.owned.write h.placed h.sized hn buf size offset ticks)

/-- **Every call keeps a volume intact.** -/
theorem Intact.call (c : UfsCall) : (c.apply v).Intact := by
  cases c with
  | create dir name mode ticks | mkdir dir name mode ticks | symlink dir name target ticks =>
    exact h.make _ _ _
  | write node buf size offset ticks =>
    simp only [UfsCall.apply]
    split
    · rename_i hn
      exact h.write hn.2 _ _ _ _
    · exact h
  | unlink dir name => exact h.unlink _ _
  | rename oldDir oldName newDir newName => exact h.rename _ _ _ _

end

end Volume

section

variable (hsmall : total + 32767 < 2 ^ 32) (ticks : BitVec 32) (old : Bytes)
include hsmall

/-- After the format only the root directory has a block. -/
theorem freshVolume_blocksOf (n : Nat) : (freshVolume total ticks old).blocksOf n =
      if n = 1 then [formatDataStart total] else [] := by
  have hds : formatDataStart total < 2 ^ 32 := by unfold formatDataStart; omega
  by_cases h1 : n = 1
  · subst h1
    have hone : (freshVolume total ticks old).HasInode 1 := ⟨Nat.le_refl 1, show 1 ≤ 1024 by omega⟩
    rw [blocksOf_of_hasInode hone, freshVolume_root, blockList_rootInode _ hds, if_pos rfl]
  · unfold blocksOf
    rw [freshVolume_other _ _ _ h1]
    split <;> rfl

/-- The format marks the block of the root directory. -/
theorem freshVolume_owned : (freshVolume total ticks old).Owned := by
  have hblocks := freshVolume_blocksOf hsmall ticks old
  have hmem : ∀ {n b : Nat}, b ∈ (freshVolume total ticks old).blocksOf n →
      n = 1 ∧ b = formatDataStart total := by
    intro n b hb
    rw [hblocks] at hb
    by_cases h1 : n = 1
    · exact ⟨h1, by simpa [h1] using hb⟩
    · simp [h1] at hb
  refine ⟨fun n => ?_, fun hi hj => (hmem hi).1.trans (hmem hj).1.symm, fun {n b} hb => ?_⟩
  · rw [hblocks]
    split <;> simp
  · rw [(hmem hb).2]
    simp [freshVolume]

end

variable {dev : BlockDevice} {ticks : BitVec 32} {m : UfsMount}

/-- A volume is intact when it has just been formatted and mounted. -/
theorem FreshMount.intact (h : FreshMount dev ticks m) : m.volume.Intact := by
  have hm := h.isMounted
  refine ⟨hm.holds.rep.sized, hm.placed, ?_⟩
  rw [h.volume_eq]
  exact freshVolume_owned h.small ticks dev.disk

/-- **Every history keeps a volume intact**, whatever is called: no block has two owners,
no block of the metadata has one, and the geometry is the one of the format, for all blocks
of the device. -/
theorem intact_after_calls (h : FreshMount dev ticks m) (cs : List UfsCall) :
    (Runs.run UfsCall.run m cs).volume.Intact ∧
      m.volume.SameShape (Runs.run UfsCall.run m cs).volume ∧
      (Runs.run UfsCall.run m cs).volume.totalBlocks = dev.size / 4096 % 2 ^ 32 := by
  rw [(h.isMounted.run cs).1]
  obtain ⟨hintact, hshape⟩ :=
    Runs.invariant (I := fun v : Volume => v.Intact ∧ m.volume.SameShape v)
      (fun _ c hi => ⟨hi.1.call c, hi.2.trans (c.apply_follows hi.1.placed hi.1.sized).shape⟩) cs
      ⟨h.intact, .refl _⟩
  exact ⟨hintact, hshape, hshape.totalBlocks.trans (by rw [h.volume_eq]; rfl)⟩

theorem intact_after_unlink : ∃ m, FreshMount fortyBlocks 0#32 m ∧
    (ufsVfsUnlink m rootNode ⟨[46#8], by decide⟩).2.volume.Intact ∧
    (ufsVfsUnlink m rootNode ⟨[46#8], by decide⟩).2.volume.totalBlocks = 40 := by
  obtain ⟨m, hm, -⟩ := fortyBlocks_mount
  have h := intact_after_calls hm [.unlink rootNode ⟨[46#8], by decide⟩]
  exact ⟨m, hm, h.1, h.2.2⟩

end Utms7
