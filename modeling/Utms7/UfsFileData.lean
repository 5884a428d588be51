import Utms7.UfsWriting

/-!
# The contents of files

`FileImage` is a file as its users see it: a size and its bytes, zero where
nothing was written.  `Stores v n f` says that inode `n` of the volume holds the
file `f`: it has just the blocks that its size needs, in file order, and nothing
but zeros behind its end.

A write stores what it reports as long as every block it appends goes to the
end of the file (`AppendsAtEnd`) and it leaves no hole of whole blocks.  The
driver does not see to either: `ufs_append_block` extends the first extent that
fits, and a block for a position far behind the end is appended like any other.
-/

namespace Utms7

open Volume

open ByteMemory Function List

theorem blit_none (dst src : Bytes) (off : Nat) : blit dst off src 0 = dst :=
  funext fun _ => blit_outside (by omega)

/-- Bytes stored right behind others of the same buffer. -/
theorem blit_blit_next (dst src : Bytes) (off a c : Nat) :
    blit (blit dst off src a) (off + a) (fun j => src (a + j)) c = blit dst off src (a + c) := by
  funext i
  by_cases h : off + a ≤ i ∧ i < off + a + c
  · rw [blit_inside h.1 h.2, blit_inside (by omega) (by omega)]
    congr 1
    omega
  · rw [blit_outside (by omega)]
    by_cases h' : off ≤ i ∧ i < off + a
    · rw [blit_inside h'.1 h'.2, blit_inside (by omega) (by omega)]
    · rw [blit_outside (by omega), blit_outside (by omega)]

/-- A file: its size and its bytes. -/
structure FileImage where
  size : Nat
  byte : Bytes
  past : ∀ p, size ≤ p → byte p = 0#8

namespace FileImage

def empty : FileImage where
  size := 0
  byte := zeros
  past _ _ := rfl

/-- The file after `k` bytes were written at `offset`. -/
def write (f : FileImage) (buf : Bytes) (offset k : Nat) : FileImage where
  size := if k = 0 then f.size else max f.size (offset + k)
  byte := blit f.byte offset buf k
  past p hp := by
    rw [blit_outside (by split at hp <;> omega)]
    exact f.past p (by split at hp <;> omega)

section

variable (f : FileImage) (buf : Bytes)

theorem write_zero (offset : Nat) : f.write buf offset 0 = f := by
  simp [write, blit_none]

theorem write_byte (offset k : Nat) : (f.write buf offset k).byte = blit f.byte offset buf k := rfl

theorem write_size {offset k : Nat} (hk : 0 < k) :
    (f.write buf offset k).size = max f.size (offset + k) := if_neg (by omega)

end

end FileImage

/-! ## Bytes of a list of blocks -/

/-- The bytes of these blocks, one block after the other, and zeros behind them. -/
def bytesOfBlocks (data : Nat → Bytes) (bs : List Nat) : Bytes := fun p =>
  match bs[p / 4096]? with
  | some b => data b (p % 4096)
  | none => 0#8

section BytesOfBlocks

variable {data data' : Nat → Bytes} {bs : List Nat}

theorem bytesOfBlocks_getElem {p b : Nat} (h : bs[p / 4096]? = some b) :
    bytesOfBlocks data bs p = data b (p % 4096) := by
  simp [bytesOfBlocks, h]

theorem bytesOfBlocks_congr (h : ∀ b ∈ bs, data' b = data b) :
    bytesOfBlocks data' bs = bytesOfBlocks data bs := by
  funext p
  cases hb : bs[p / 4096]? with
  | none => simp [bytesOfBlocks, hb]
  | some b =>
    rw [bytesOfBlocks_getElem hb, bytesOfBlocks_getElem hb, h b (mem_of_getElem? hb)]

/-- A block of zeros at the end adds nothing. -/
theorem bytesOfBlocks_append_zeros {nb : Nat} (h : data nb = zeros) :
    bytesOfBlocks data (bs ++ [nb]) = bytesOfBlocks data bs := by
  funext p
  unfold bytesOfBlocks
  by_cases hp : p / 4096 < bs.length
  · rw [getElem?_append_left hp]
  rw [getElem?_append_right (by omega), getElem?_eq_none (l := bs) (by omega)]
  cases hlast : ([nb])[p / 4096 - bs.length]? with
  | none => rfl
  | some b =>
    have hb : b = nb := by simpa using mem_of_getElem? hlast
    simp [hb, h]

theorem bytesOfBlocks_store (hnodup : bs.Nodup) {i b : Nat} (hb : bs[i]? = some b) (page : Bytes)
    (p : Nat) : bytesOfBlocks (update data b (window page 0 4096)) bs p =
      if p / 4096 = i then page (p % 4096) else bytesOfBlocks data bs p := by
  split
  · rename_i hp
    rw [bytesOfBlocks_getElem (hp ▸ hb), update_self, window_apply (by omega), Nat.zero_add]
  rename_i hp
  unfold bytesOfBlocks
  cases hq : bs[p / 4096]? with
  | none => rfl
  | some q =>
    -- The blocks are distinct, so another position is in another block.
    have hne : q ≠ b := by
      rintro rfl
      obtain ⟨hi, hbi⟩ := List.getElem?_eq_some_iff.mp hb
      obtain ⟨hj, hbj⟩ := List.getElem?_eq_some_iff.mp hq
      exact hp ((List.Nodup.getElem_inj_iff hnodup).mp (hbj.trans hbi.symm))
    simp [hne]

theorem bytesOfBlocks_update (hnodup : bs.Nodup) {i b off len : Nat} (hb : bs[i]? = some b)
    (hin : off + len ≤ 4096) (src : Bytes) :
    bytesOfBlocks (update data b (window (blit (data b) off src len) 0 4096)) bs =
      blit (bytesOfBlocks data bs) (4096 * i + off) src len := by
  funext p
  rw [bytesOfBlocks_store hnodup hb]
  split
  · rename_i hp
    by_cases hwritten : off ≤ p % 4096 ∧ p % 4096 < off + len
    · rw [blit_inside hwritten.1 hwritten.2, blit_inside (by omega) (by omega)]
      congr 1
      omega
    · rw [blit_outside (by omega), blit_outside (by omega), bytesOfBlocks_getElem (hp ▸ hb)]
  · rw [blit_outside (by omega)]

end BytesOfBlocks

variable {v : Volume} {buf : Bytes}

namespace Volume

variable {v' : Volume} {n : Nat} {f : FileImage} {es : List Extent}

/-- Inode `n` is in use and holds the file `f`. -/
structure Stores (v : Volume) (n : Nat) (f : FileImage) : Prop where
  live : v.Live n
  size : (v.inode n).size.toNat = f.size
  small : f.size < 2 ^ 31
  blocks : (v.blocksOf n).length = (f.size + 4095) / 4096
  byte : bytesOfBlocks v.data (v.blocksOf n) = f.byte

/-- A step elsewhere keeps the file. -/
theorem Stores.of_touches {I : Nat → Prop} (h : v.Stores n f) (ho : v.Owned)
    (ht : Touches I v v') (hn : ¬ I n) : v'.Stores n f := by
  obtain ⟨hinode, hdata⟩ := ht.file ho hn
  have hblocks : v'.blocksOf n = v.blocksOf n := ht.shape.blocksOf_eq (by rw [hinode])
  refine ⟨⟨(ht.shape.hasInode_iff n).mpr h.live.1, ?_⟩, ?_, h.small, ?_, ?_⟩
  · rw [hinode]
    exact h.live.2
  · rw [hinode]
    exact h.size
  · rw [hblocks]
    exact h.blocks
  · rw [hblocks, bytesOfBlocks_congr hdata]
    exact h.byte

/-- The next `k` blocks that the allocator takes for a file with extents `es` go
to its end, as far as they fit. -/
def AppendsAtEnd : Nat → Volume → List Extent → Prop
  | 0, _, _ => True
  | k + 1, v, es =>
    match v.nextBlock with
    | none => True
    | some nb =>
      appendFits es nb = true →
        blockList (appendExtent es nb) = blockList es ++ [nb] ∧
          AppendsAtEnd k (v.takeBlock nb) (appendExtent es nb)

instance decidableAppendsAtEnd : ∀ (k : Nat) (v : Volume) (es : List Extent),
    Decidable (AppendsAtEnd k v es)
  | 0, _, _ => .isTrue trivial
  | k + 1, v, es =>
    match hnext : v.nextBlock with
    | none => .isTrue (by simp only [AppendsAtEnd, hnext])
    | some nb =>
      have := decidableAppendsAtEnd k (v.takeBlock nb) (appendExtent es nb)
      decidable_of_iff (appendFits es nb = true →
          blockList (appendExtent es nb) = blockList es ++ [nb] ∧
            AppendsAtEnd k (v.takeBlock nb) (appendExtent es nb))
        (by simp only [AppendsAtEnd, hnext])

theorem AppendsAtEnd.succ {k nb : Nat} (h : AppendsAtEnd (k + 1) v es)
    (hnext : v.nextBlock = some nb) (hfits : appendFits es nb = true) :
    blockList (appendExtent es nb) = blockList es ++ [nb] ∧
      AppendsAtEnd k (v.takeBlock nb) (appendExtent es nb) := by
  simp only [AppendsAtEnd, hnext] at h
  exact h hfits

/-- The contents of the blocks play no part. -/
theorem AppendsAtEnd.congr_data {k : Nat} (h : AppendsAtEnd k v es)
    (data : Nat → Bytes) : AppendsAtEnd k { v with data := data } es := by
  induction k generalizing v es data with
  | zero => trivial
  | succ k ih =>
    have hnb : nextBlock { v with data := data } = v.nextBlock := rfl
    cases hnext : v.nextBlock with
    | none => simp only [AppendsAtEnd, hnb, hnext]
    | some nb =>
      simp only [AppendsAtEnd, hnb, hnext]
      intro hfits
      obtain ⟨hlist, hrest⟩ := h.succ hnext hfits
      exact ⟨hlist, ih hrest _⟩

/-- A write that stores what it reports: it starts within the file, in its last
block or, if there is a block for it, in the one behind; and the blocks it
appends go to the end. -/
structure WritesInOrder (v : Volume) (n size offset : Nat) : Prop where
  small : offset + size < 2 ^ 31
  start : offset ≤ (v.inode n).size.toNat ∨
    0 < size ∧ (offset / 4096 < (v.blocksOf n).length ∨ offset / 4096 = (v.blocksOf n).length ∧
        ∃ nb, v.nextBlock = some nb ∧ appendFits (v.inode n).extents nb = true)
  order : AppendsAtEnd ((offset + size + 4095) / 4096 - (v.blocksOf n).length) v
    (v.inode n).extents

/-! ## The write loop stores the bytes -/

/-- The state of the write loop after `written` bytes. -/
structure Storing (v : Volume) (n : Nat) (f : FileImage) (buf : Bytes) (size offset : Nat)
    (w : Volume) (i : UfsInode) (written : Nat) : Prop where
  core : InCore w n i
  bound : written ≤ size
  blocks : (blockList i.extents).length = ((f.write buf offset written).size + 4095) / 4096
  byte : bytesOfBlocks w.data (blockList i.extents) = (f.write buf offset written).byte
  order : AppendsAtEnd ((offset + size + 4095) / 4096 - (blockList i.extents).length) w i.extents
  back : i.extents = (v.inode n).extents ∨ f.size < offset + written
  first : written = 0 → w = v ∧ i = v.inode n

/-- What is known when the loop has ended. -/
structure Stored (v : Volume) (n : Nat) (f : FileImage) (buf : Bytes) (size offset : Nat)
    (w : Volume) (i : UfsInode) (written : Nat) : Prop where
  core : InCore w n i
  bound : written ≤ size
  blocks : (blockList i.extents).length = ((f.write buf offset written).size + 4095) / 4096
  byte : bytesOfBlocks w.data (blockList i.extents) = (f.write buf offset written).byte
  back : i.extents = (v.inode n).extents ∨ f.size < offset + written
  started : written = 0 → offset ≤ f.size

namespace Storing

variable {w w' : Volume} {i i' : UfsInode} {buf : Bytes} {size offset written : Nat}

/-- A block behind those of the file is the next one. -/
theorem index_le (h : Storing v n f buf size offset w i written) (hv : v.Stores n f)
    (hw : v.WritesInOrder n size offset) (hlt : written < size) :
    (offset + written) / 4096 ≤ (blockList i.extents).length := by
  have hsize := hv.size
  have hlen := hv.blocks
  rw [h.blocks]
  rcases Nat.eq_zero_or_pos written with rfl | hpos
  · rw [FileImage.write_zero]
    rcases hw.start with hstart | ⟨-, hstart | ⟨hstart, -⟩⟩ <;> omega
  · rw [FileImage.write_size _ _ hpos]
    omega

theorem idx_mod (hw : v.WritesInOrder n size offset) (hlt : written < size) :
    (offset + written) / 4096 % 2 ^ 32 = (offset + written) / 4096 := by
  have := hw.small
  omega

theorem round (h : Storing v n f buf size offset w i written)
    (hlt : written < size) {b : Nat} {w1 : Volume} {i1 : UfsInode}
    (hes : i1.extents = es) (hcore : InCore w1 n i1)
    (hb : (blockList es)[(offset + written) / 4096]? = some b)
    (hbyte : bytesOfBlocks w1.data (blockList es) = (f.write buf offset written).byte)
    (hlen : (blockList es).length = (blockList i.extents).length ∨
      (blockList i.extents).length = (offset + written) / 4096 ∧
        (blockList es).length = (offset + written) / 4096 + 1)
    (horder : AppendsAtEnd ((offset + size + 4095) / 4096 - (blockList es).length) w1 es)
    (hback : i1.extents = (v.inode n).extents ∨
      f.size < offset + (written + chunkAt offset size written)) : Storing v n f buf size offset
      (w1.setData b (blit (w1.data b) ((offset + written) % 4096) (fun j => buf (written + j))
        (chunkAt offset size written))) i1 (written + chunkAt offset size written) := by
  subst hes
  have hchunk : 0 < chunkAt offset size written := by
    unfold chunkAt
    omega
  have hfit : (offset + written) % 4096 + chunkAt offset size written ≤ 4096 := by
    unfold chunkAt
    omega
  have hidx := (List.getElem?_eq_some_iff.mp hb).1
  have hnodup := hcore.core.owned.nodup n
  rw [hcore.blocksOf_core] at hnodup
  have hold := h.blocks
  refine ⟨hcore.setData b _, ?_, ?_, ?_, horder.congr_data _, hback, ?_⟩
  · unfold chunkAt
    omega
  · -- The round ends in the block it has written.
    rw [FileImage.write_size _ _ (by omega)]
    rcases Nat.eq_zero_or_pos written with rfl | hpos
    · rw [FileImage.write_zero] at hold
      omega
    · rw [FileImage.write_size _ _ hpos] at hold
      omega
  · change bytesOfBlocks (update w1.data b _) _ = _
    rw [bytesOfBlocks_update hnodup hb hfit, hbyte, Nat.div_add_mod, FileImage.write_byte,
      FileImage.write_byte, blit_blit_next]
  · omega

/-- One round of the loop, with the block it finds or the reason to stop. -/
theorem step (h : Storing v n f buf size offset w i written) (hv : v.Stores n f)
    (hw : v.WritesInOrder n size offset) (hlt : written < size) :
    let r := w.blockForWrite i ((offset + written) / 4096 % 2 ^ 32)
    match r.1 with
    | none => Stored v n f buf size offset r.2.1 r.2.2 written
    | some b => Storing v n f buf size offset
        (r.2.1.setData b (blit (r.2.1.data b) ((offset + written) % 4096)
          (fun j => buf (written + j)) (chunkAt offset size written))) r.2.2
        (written + chunkAt offset size written) := by
  have hcore := h.core.blockForWrite ((offset + written) / 4096 % 2 ^ 32)
  rw [idx_mod hw hlt] at hcore ⊢
  have hidx := h.index_le hv hw hlt
  have hlater : i.extents = (v.inode n).extents ∨
      f.size < offset + (written + chunkAt offset size written) :=
    h.back.imp_right fun hgrown => by omega
  -- Without a block the loop has stored something, or it started within the file.
  have hstarted : (blockList i.extents).length ≤ (offset + written) / 4096 →
      (∀ nb, w.nextBlock = some nb → appendFits i.extents nb = false) →
      written = 0 → offset ≤ f.size := by
    rintro hend hno rfl
    obtain ⟨rfl, rfl⟩ := h.first rfl
    rw [← hv.size]
    rw [← blocksOf_of_hasInode hv.live.1] at hend
    rcases hw.start with hstart | ⟨-, hstart | ⟨-, nb, hnext, hfits⟩⟩
    · exact hstart
    · omega
    · rw [hno nb hnext] at hfits
      cases hfits
  revert hcore
  refine blockForWrite_cases h.core _ ?_ ?_ ?_ ?_
  · intro b hb hcore
    exact h.round hlt rfl hcore hb h.byte (.inl rfl) h.order hlater
  · intro hend hnext hcore
    exact ⟨hcore, h.bound, h.blocks, h.byte, h.back,
      hstarted hend fun nb hnb => by rw [hnext] at hnb; cases hnb⟩
  · intro nb hend hnext hfits hcore
    have hlen : (blockList i.extents).length = (offset + written) / 4096 :=
      Nat.le_antisymm hend hidx
    obtain ⟨k, hk⟩ : ∃ k, (offset + size + 4095) / 4096 - (blockList i.extents).length = k + 1 :=
      ⟨(offset + size + 4095) / 4096 - (blockList i.extents).length - 1, by omega⟩
    have horder := h.order
    rw [hk] at horder
    obtain ⟨hlist, hrest⟩ := horder.succ hnext hfits
    have hfree : ∀ b ∈ blockList i.extents, b ≠ nb := by
      rintro b hb rfl
      rw [← h.core.blocksOf_core] at hb
      exact h.core.core.owned.not_mem (nextBlock_spec hnext).2.2 n hb
    refine h.round hlt (UfsInode.append_extents i nb) hcore ?_ ?_ (.inr ⟨hlen, ?_⟩) ?_ ?_
    · rw [hlist, ← hlen]
      simp
    · -- The new block is filled with zeros, the others are as before.
      rw [hlist, bytesOfBlocks_append_zeros (by simp [takeBlock, setData]),
        ← h.byte]
      exact bytesOfBlocks_congr fun b hb => by
        simp [takeBlock, setData, setBit, hfree b hb]
    · simp [hlist, hlen]
    · rw [hlist, length_append, length_singleton]
      rwa [show (offset + size + 4095) / 4096 - ((blockList i.extents).length + 1) = k by omega]
    · refine .inr ?_
      have hold := h.blocks
      have hchunk : 0 < chunkAt offset size written := by
        unfold chunkAt
        omega
      have hgrows : f.size ≤ (f.write buf offset written).size := by
        unfold FileImage.write
        dsimp only
        split <;> omega
      omega
  · intro nb hend hnext hfits hcore
    have hext : (i.append nb).extents = i.extents := by
      rw [UfsInode.append_extents, appendExtent_of_not_fits hfits]
    have hfree : ∀ b ∈ blockList i.extents, b ≠ nb := by
      rintro b hb rfl
      rw [← h.core.blocksOf_core] at hb
      exact h.core.core.owned.not_mem (nextBlock_spec hnext).2.2 n hb
    refine ⟨hcore, h.bound, ?_, ?_, ?_, hstarted hend fun nb' hnb' => ?_⟩
    · rw [hext]
      exact h.blocks
    · rw [hext, ← h.byte]
      exact bytesOfBlocks_congr fun b hb => by
        simp [takeBlock, setData, setBit, hfree b hb]
    · rw [hext]
      exact h.back
    · rw [hnext] at hnb'
      cases hnb'
      exact hfits

theorem loop (hi : v.Intact) (hv : v.Stores n f) (hw : v.WritesInOrder n size offset) :
    let r := writeLoop buf size size v (v.inode n) (offset / 4096 % 2 ^ 32) (offset % 4096) 0
    Stored v n f buf size offset r.1 r.2.1 r.2.2 := by
  have hblocks := blocksOf_of_hasInode hv.live.1
  refine write_induction (I := Storing v n f buf size offset) (P := Stored v n f buf size offset)
    ?_ ?_ ?_ ?_ ?_
  · intro w i written h hge
    refine ⟨h.core, h.bound, h.blocks, h.byte, h.back, ?_⟩
    rintro rfl
    rw [← hv.size]
    exact hw.start.resolve_right fun hstart => by omega
  · intro w i written w' i' h hlt hblock
    have hstep := h.step hv hw hlt
    rwa [hblock] at hstep
  · intro w i written b w' i' h hlt hblock hge
    have hspec := blockForWrite_spec h.core.intact.sized h.core.extentsIn
      ((offset + written) / 4096 % 2 ^ 32)
    rw [hblock] at hspec
    have htotal : w'.totalBlocks = w.totalBlocks := hspec.shape.totalBlocks
    have hlt := (hspec.block b rfl).2
    omega
  · intro w i written b w' i' h hlt hblock _
    have hstep := h.step hv hw hlt
    rwa [hblock] at hstep
  · refine ⟨hi.inCore hv.live.1, Nat.zero_le size, ?_, ?_, ?_, .inl rfl, fun _ => ⟨rfl, rfl⟩⟩
    · rw [← hblocks]
      exact hv.blocks
    · rw [FileImage.write_zero, ← hblocks]
      exact hv.byte
    · rw [← hblocks]
      exact hw.order

end Storing

/-- **A write in order stores the bytes it reports.** -/
theorem Stores.write (hv : v.Stores n f) (hi : v.Intact) {size offset : Nat}
    (hw : v.WritesInOrder n size offset) (ticks : BitVec 32) :
    (v.write n buf size offset ticks).1 < 2 ^ 31 ∧ (v.write n buf size offset ticks).2.Stores n
        (f.write buf offset (v.write n buf size offset ticks).1) := by
  have hlast := @Storing.loop v n f buf size offset hi hv hw
  obtain ⟨htable, hsize, hmode, -⟩ := writeLoop_bounds buf size size v (v.inode n)
    (offset / 4096 % 2 ^ 32) (offset % 4096)
  have hsmall := hw.small
  have hfsmall := hv.small
  have hfsize := hv.size
  unfold Volume.write
  simp only
  generalize writeLoop buf size size v (v.inode n) (offset / 4096 % 2 ^ 32) (offset % 4096) 0 = r
    at hlast htable hsize hmode
  obtain ⟨w, i, written⟩ := r
  dsimp only at hlast htable hsize hmode ⊢
  have hbound := hlast.bound
  have hstarted := hlast.started
  have hsz : i.size.toNat = f.size := by rw [hsize, hfsize]
  split
  · rename_i hgrown
    -- A file that grows has got at least one byte.
    have hpos : 0 < written := by
      by_contra h0
      omega
    have hnew : (f.write buf offset written).size = offset + written := by
      rw [FileImage.write_size _ _ hpos]
      omega
    have hblocks : (w.setInode n (grownInode i (offset + written) ticks)).blocksOf n =
        blockList i.extents := by
      rw [blocksOf_of_hasInode (v := w.setInode n _) hlast.core.has]
      simp [setInode, grownInode]
    refine ⟨by omega, ⟨hlast.core.has, ?_⟩, ?_, ?_, ?_, ?_⟩
    · simpa [setInode, grownInode, hmode] using hv.live.2
    · simp only [setInode, grownInode, update_self, BitVec.toNat_ofNat]
      omega
    · rw [hnew]
      omega
    · rw [hblocks]
      exact hlast.blocks
    · rw [hblocks]
      exact hlast.byte
  · rename_i hsame
    have hext : i.extents = (w.inode n).extents := by
      rw [htable]
      exact hlast.back.resolve_right (by omega)
    have hblocks : w.blocksOf n = blockList i.extents := by
      rw [blocksOf_of_hasInode hlast.core.has, hext]
    have hnew : (f.write buf offset written).size = f.size := by
      unfold FileImage.write
      dsimp only
      split <;> omega
    refine ⟨by omega, ⟨hlast.core.has, ?_⟩, ?_, ?_, ?_, ?_⟩
    · rw [htable]
      exact hv.live.2
    · rw [htable, hnew, hfsize]
    · rw [hnew]
      exact hfsmall
    · rw [hblocks]
      exact hlast.blocks
    · rw [hblocks]
      exact hlast.byte

end Volume

/-! ## Reading -/

theorem toInt32_of_lt {k : Nat} (h : k < 2 ^ 31) : toInt32 k = (k : Int) := by
  unfold toInt32
  rw [BitVec.toInt_eq_toNat_of_lt (by rw [BitVec.toNat_ofNat]; omega), BitVec.toNat_ofNat,
    Nat.mod_eq_of_lt (by omega)]

namespace Volume

variable {inode : UfsInode}

/-- `ufsReadLoop` on a volume. -/
def readLoop (v : Volume) (inode : UfsInode) (toCopy : Nat) :
    Nat → Bytes → Nat → Nat → Nat → Bytes × Nat
  | 0, buf, _, _, copied => (buf, copied)
  | rounds + 1, buf, startBlock, startOff, copied =>
    if copied < toCopy then
      let b := ufsGetBlock inode.extents startBlock
      if b = 0 then (buf, copied)
      else
        match v.readBlock b with
        | none => (buf, copied)
        | some blk =>
          let chunk := min (4096 - startOff) (toCopy - copied)
          readLoop v inode toCopy rounds
            (blit buf copied (fun i => blk (startOff + i)) chunk)
            ((startBlock + 1) % 2 ^ 32) 0 (copied + chunk)
    else (buf, copied)

/-- `ufs_vfs_read` of inode `n`: the number of bytes read and the caller's buffer. -/
def read (v : Volume) (n : Nat) (buf : Bytes) (size offset : Nat) : Nat × Bytes :=
  if offset ≥ (v.inode n).size.toNat then (0, buf)
  else
    let toCopy := min size ((v.inode n).size.toNat - offset)
    let r := v.readLoop (v.inode n) toCopy toCopy buf (offset / 4096 % 2 ^ 32) (offset % 4096) 0
    (r.2, r.1)

theorem readLoop_done {toCopy rounds startBlock startOff copied : Nat} (h : toCopy ≤ copied) :
    v.readLoop inode toCopy rounds buf startBlock startOff copied = (buf, copied) := by
  cases rounds with
  | zero => rfl
  | succ rounds => rw [readLoop, if_neg (Nat.not_lt.mpr h)]

/-- The loop of `ufs_vfs_read` copies the bytes of the file's blocks. -/
theorem readLoop_eq (hv : v.Sized) (hin : ExtentsIn v.dataStart v.totalBlocks inode.extents)
    {toCopy offset : Nat} (hend : offset + toCopy ≤ 4096 * (blockList inode.extents).length)
    (hsmall : offset + toCopy < 2 ^ 31) (rounds copied : Nat) (buf : Bytes)
    (hrounds : toCopy ≤ copied + rounds) (hcopied : copied ≤ toCopy) :
    v.readLoop inode toCopy rounds buf ((offset + copied) / 4096 % 2 ^ 32)
        ((offset + copied) % 4096) copied =
      (blit buf copied (fun j =>
        bytesOfBlocks v.data (blockList inode.extents) (offset + copied + j))
        (toCopy - copied), toCopy) := by
  have htotal := hv.small
  have hstart := hv.start
  induction rounds generalizing copied buf with
  | zero =>
    obtain rfl : copied = toCopy := by omega
    rw [readLoop_done (Nat.le_refl copied), Nat.sub_self, blit_none]
  | succ rounds ih =>
    rcases Nat.eq_or_lt_of_le hcopied with rfl | hlt
    · rw [readLoop_done (Nat.le_refl copied), Nat.sub_self, blit_none]
    have hidx : (offset + copied) / 4096 < (blockList inode.extents).length := by omega
    have hb := getElem?_eq_getElem hidx
    have hmod : (offset + copied) / 4096 % 2 ^ 32 = (offset + copied) / 4096 := by omega
    generalize (blockList inode.extents)[(offset + copied) / 4096] = b at hb
    obtain ⟨hlo, hhi⟩ := hin.mem_bounds (mem_of_getElem? hb)
    unfold readLoop
    simp only [hlt, if_true, hmod, hin.getBlock_of_getElem (by omega) hb,
      if_neg (show b ≠ 0 by omega), readBlock, if_neg (show ¬ b ≥ v.totalBlocks by omega)]
    generalize hchunk : min (4096 - (offset + copied) % 4096) (toCopy - copied) = chunk
    have hbytes : blit buf copied (fun j => v.data b ((offset + copied) % 4096 + j)) chunk =
        blit buf copied (fun j => bytesOfBlocks v.data (blockList inode.extents)
          (offset + copied + j)) chunk := by
      funext i
      by_cases hi : copied ≤ i ∧ i < copied + chunk
      · rw [blit_inside hi.1 hi.2, blit_inside hi.1 hi.2, bytesOfBlocks_getElem (b := b)]
        · congr 1
          omega
        · rw [show (offset + copied + (i - copied)) / 4096 = (offset + copied) / 4096 by omega]
          exact hb
      · rw [blit_outside (by omega), blit_outside (by omega)]
    by_cases hmore : copied + chunk < toCopy
    · have hrest := ih (copied + chunk)
        (blit buf copied (fun j => v.data b ((offset + copied) % 4096 + j)) chunk)
        (by omega) (by omega)
      rw [show (offset + (copied + chunk)) / 4096 % 2 ^ 32 =
          ((offset + copied) / 4096 + 1) % 2 ^ 32 by omega,
        show (offset + (copied + chunk)) % 4096 = 0 by omega] at hrest
      rw [hrest, hbytes]
      congr 1
      have hjoin := blit_blit_next buf (fun j => bytesOfBlocks v.data (blockList inode.extents)
        (offset + copied + j)) copied chunk (toCopy - (copied + chunk))
      simp only [← Nat.add_assoc] at hjoin ⊢
      rw [hjoin]
      congr 1
      omega
    · have hlast : chunk = toCopy - copied := by omega
      rw [readLoop_done (by omega), hbytes, hlast]
      congr 1
      omega

/-- **Reading a stored file.** -/
theorem Stores.read {n : Nat} {f : FileImage} (h : v.Stores n f) (hv : v.Sized) (hp : v.Placed)
    (buf : Bytes) (len offset : Nat) : (v.read n buf len offset).1 = min len (f.size - offset) ∧
      ∀ i, i < min len (f.size - offset) → (v.read n buf len offset).2 i = f.byte (offset + i) := by
  have hsmall := h.small
  have hlen := h.blocks
  have hbyte := h.byte
  rw [blocksOf_of_hasInode h.live.1] at hlen hbyte
  unfold Volume.read
  rw [h.size]
  split
  · rename_i hpast
    have hnone : min len (f.size - offset) = 0 := by omega
    rw [hnone]
    exact ⟨rfl, fun i hi => absurd hi (Nat.not_lt_zero i)⟩
  · rename_i hin
    have hloop := @readLoop_eq v (v.inode n) hv (hp n h.live.1) (min len (f.size - offset)) offset
      (by omega) (by omega) (min len (f.size - offset)) 0 buf (by omega) (by omega)
    simp only [Nat.add_zero] at hloop
    simp only [hloop]
    refine ⟨trivial, fun i hi => ?_⟩
    rw [blit_inside (Nat.zero_le i) (by omega), hbyte, Nat.sub_zero]

end Volume

namespace Holds

variable {m : UfsMount}

theorem readLoop_eq (h : Holds m v) {inode : UfsInode}
    (hin : ExtentsIn v.dataStart v.totalBlocks inode.extents) (toCopy rounds : Nat) (buf : Bytes)
    (startBlock startOff copied : Nat) :
    ufsReadLoop m inode toCopy rounds buf startBlock startOff copied =
      v.readLoop inode toCopy rounds buf startBlock startOff copied := by
  have hsmall := h.rep.sized.small
  induction rounds generalizing buf startBlock startOff copied with
  | zero => rfl
  | succ rounds ih =>
    unfold ufsReadLoop readLoop
    split
    · simp only
      split
      · rfl
      rename_i hne
      have hblock := hin.getBlock_eq (show v.totalBlocks ≤ 2 ^ 32 by omega) startBlock
      cases hget : (blockList inode.extents)[startBlock]? with
      | none => rw [hblock, hget] at hne; exact absurd rfl hne
      | some b =>
        rw [hget, Option.getD_some] at hblock
        have hread := h.rep.readBlock_eq (hin.mem_bounds (mem_of_getElem? hget)).1
        cases hv : v.readBlock b <;> simp only [hblock, hread, hv, ih]
    · rfl

/-- Reading from the device is reading from the volume. -/
theorem read_eq (h : Holds m v) (hp : v.Placed) {node : VfsNode} (hfile : node.type = .file)
    (hn : v.HasInode node.fsData.toNat) (buf : Bytes) (size offset : Nat) :
    ufsVfsRead m node buf size offset = (toInt32 (v.read node.fsData.toNat buf size offset).1,
        (v.read node.fsData.toNat buf size offset).2) := by
  unfold ufsVfsRead Volume.read
  rw [h.rep.readInode_eq, Volume.readInode, if_pos hn]
  simp only [h.mounted, hfile, Bool.not_true, Bool.false_eq_true, ne_eq, not_true, or_self,
    if_false, h.readLoop_eq (hp _ hn)]
  split
  · rfl
  · rfl

end Holds

end Utms7
