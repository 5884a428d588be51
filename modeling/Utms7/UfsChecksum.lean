import Utms7.UfsLinuxVolume

/-!
# What Linux reads of a volume the kernel wrote

Both drivers sum the words of the superblock and of an inode the same way, and
the kernel driver keeps the superblock's checksum up to date.  It never stores
an inode's checksum: each inode it writes starts from a cleared record, and no
later update touches the field.  The Linux driver compares the field with the
sum of the other words, so it can read exactly those inodes whose words happen
to sum to zero.
-/

namespace Utms7

open ByteMemory BitVec Volume

variable {v : Volume} {node : NewNode} {m : UfsMount} {c : UfsCall} {ticks : BitVec 32}

/-- Properties of single inodes that every inode the driver writes has. -/
structure InodeClosed (C : UfsInode → Prop) : Prop where
  zero : C .zero
  file : ∀ mode ticks, C (fileNode mode ticks).inode
  dir : ∀ parent mode ticks, C (dirNode parent mode ticks).inode
  link : ∀ target ticks, C (linkNode target ticks).inode
  append : ∀ inode b, C inode → C (inode.append b)
  resize : ∀ inode size, C inode → C { inode with size := size }
  reblock : ∀ inode size blocks, C inode → C { inode with size := size, blocks := blocks }
  grown : ∀ inode size ticks, C inode → C (Volume.grownInode inode size ticks)

namespace InodeClosed

variable {C : UfsInode → Prop} {n : Nat}

theorem setInode (hv : ∀ n, C (v.inode n)) {inode : UfsInode} (hi : C inode) :
    ∀ n', C ((v.setInode n inode).inode n') := by
  intro n'
  by_cases hn : n' = n
  · subst hn
    simpa [Volume.setInode] using hi
  · simpa [Volume.setInode, hn] using hv n'

theorem writeInode (hv : ∀ n, C (v.inode n)) {inode : UfsInode} (hi : C inode) :
    ∀ n', C ((v.writeInode n inode).inode n') := by
  unfold Volume.writeInode
  split
  · exact setInode hv hi
  · exact hv

section

variable (hC : InodeClosed C) (hv : ∀ n, C (v.inode n))
include hC hv

theorem addEntry (d n : Nat) (name : CStr) (type : BitVec 8) :
    ∀ n', C ((v.addEntry d n name type).2.inode n') := by
  unfold Volume.addEntry
  split
  · simp only
    split
    · exact writeInode (by rw [writeBlock_inode]; exact hv) (hC.resize _ _ (hv d))
    split
    · exact hv
    · split
      · exact writeInode (v := (v.takeBlock _).setData _ _) hv
          (hC.reblock _ _ _ (hC.append _ _ (hv d)))
      · rw [Volume.freeBlock_inode]
        exact hv
  · exact hv

theorem removeEntry (d : Nat) (name : CStr) : ∀ n', C ((v.removeEntry d name).2.inode n') := by
  unfold Volume.removeEntry
  split
  · simp only
    split
    · exact hv
    · exact writeInode (by rw [writeBlock_inode]; exact hv) (hC.resize _ _ (hv d))
  · exact hv

theorem freeInode (n : Nat) : ∀ n', C ((v.freeInode n).inode n') := by
  unfold Volume.freeInode
  split
  · exact setInode hv hC.zero
  · exact hv

theorem make (d : Nat) (name : CStr) (hnode : C node.inode) :
    ∀ n', C ((v.make d name node).2.inode n') := by
  unfold Volume.make
  split
  · exact hv
  split
  · exact hv
  rename_i n _
  have hn : ∀ n', C ((v.takeInode n).inode n') := setInode (v := v) hv hC.zero
  simp only
  split
  · exact hC.addEntry (setInode hn hnode) _ _ _ _
  · split
    · exact hC.freeInode hn n
    · exact hC.addEntry (setInode (v := ((v.takeInode n).takeBlock _).setData _ _) hn
        (hC.append _ _ hnode)) _ _ _ _

theorem unlink (d : Nat) (name : CStr) : ∀ n', C ((v.unlink d name).2.inode n') := by
  unfold Volume.unlink
  split
  · exact hv
  · split
    · exact hv
    · exact hC.removeEntry (hC.freeInode (by rw [Volume.freeInodeBlocks_inode]; exact hv) _) _ _

theorem rename (d1 : Nat) (a : CStr) (d2 : Nat) (b : CStr) :
    ∀ n', C ((v.rename d1 a d2 b).2.inode n') := by
  have h := hC.removeEntry (hC.removeEntry hv d2 b) d1 a
  unfold Volume.rename
  split
  · exact hv
  split
  · exact hv
  · simp only
    split
    · exact hC.addEntry h _ _ _ _
    · exact h

end

section

variable (hC : InodeClosed C)
include hC

theorem blockForWrite {inode : UfsInode} (hi : C inode) (idx : Nat) :
    C (v.blockForWrite inode idx).2.2 := by
  unfold Volume.blockForWrite
  simp only
  split
  · exact hi
  · split
    · exact hi
    · split
      · exact hC.append _ _ hi
      · exact hC.append _ _ hi

theorem writeLoop (buf : Bytes) (size rounds : Nat) {inode : UfsInode}
    (startBlock startOff written : Nat) (hi : C inode) :
    C (writeLoop buf size rounds v inode startBlock startOff written).2.1 := by
  exact writeLoop_keeps (Q := fun _ i => C i) buf size rounds startBlock startOff written
    (fun idx h => ⟨hC.blockForWrite h idx, fun _ _ _ => hC.blockForWrite h idx⟩) hi

theorem write (hv : ∀ n, C (v.inode n)) (n : Nat) (buf : Bytes) (size offset : Nat)
    (ticks : BitVec 32) : ∀ n', C ((v.write n buf size offset ticks).2.inode n') := by
  have hi := hC.writeLoop (v := v) buf size size (offset / 4096 % 2 ^ 32) (offset % 4096) 0 (hv n)
  obtain ⟨htable, -, -, -⟩ := Volume.writeLoop_bounds buf size size v (v.inode n)
    (offset / 4096 % 2 ^ 32) (offset % 4096)
  unfold Volume.write
  simp only
  split
  · exact setInode (by rw [htable]; exact hv) (hC.grown _ _ _ hi)
  · rw [htable]
    exact hv

/-- **What holds of every inode the driver writes holds of all inodes**, after
any history that starts with it. -/
theorem call (v : Volume) (c : UfsCall) (hv : ∀ n, C (v.inode n)) :
    ∀ n, C ((c.apply v).inode n) := by
  cases c with
  | create dir name mode ticks => exact hC.make hv _ _ (hC.file mode ticks)
  | mkdir dir name mode ticks => exact hC.make hv _ _ (hC.dir _ mode ticks)
  | symlink dir name target ticks => exact hC.make hv _ _ (hC.link target ticks)
  | write node buf size offset ticks =>
    simp only [UfsCall.apply]
    split
    · exact hC.write hv _ _ _ _ _
    · exact hv
  | unlink dir name => exact hC.unlink hv _ _
  | rename oldDir oldName newDir newName => exact hC.rename hv _ _ _ _

end

end InodeClosed

/-- The sum of all words of an inode. -/
def UfsInode.xorWords (inode : UfsInode) : BitVec 32 := inode.words.foldl (· ^^^ ·) 0#32

/-- The kernel driver never sets a checksum. -/
theorem inodeClosed_unsummed : InodeClosed fun inode => inode.checksum = 0#32 where
  zero := rfl
  file _ _ := rfl
  dir _ _ _ := rfl
  link _ _ := rfl
  append _ _ h := h
  resize _ _ h := h
  reblock _ _ _ h := h
  grown _ _ _ h := h

theorem freshVolume_unsummed {total : Nat} {old : Bytes} (n : Nat) :
    ((freshVolume total ticks old).inode n).checksum = 0#32 := by
  by_cases h1 : n = 1
  · rw [h1]
    rfl
  · rw [freshVolume_other _ _ _ h1]
    rfl

theorem ufsCalcInodeChecksum_unsummed {inode : UfsInode} (h : inode.checksum = 0#32) :
    Linux.ufsCalcInodeChecksum inode = inode.xorWords := by
  unfold Linux.ufsCalcInodeChecksum UfsInode.xorWords
  have heq : ({ inode with checksum := 0 } : UfsInode) = inode := by
    cases inode
    simp_all
  rw [heq]

/-- Linux can read every inode in use. -/
def LinuxReadable (m : UfsMount) : Prop :=
  Linux.ufsCheckSuper m.disk = .ok m.sb ∧
    ∀ n inode, ufsReadInode m n = some inode → inode.mode ≠ 0#16 →
      ∃ info, Linux.ufsReadInode m.sb m.disk n = .ok info

/-- The words of every inode in use sum to zero. -/
def SumsToZero (v : Volume) : Prop :=
  ∀ n, v.HasInode n → (v.inode n).mode ≠ 0#16 → (v.inode n).xorWords = 0#32

/-- In a volume without inode checksums Linux reads what sums to zero. -/
theorem Holds.linuxReadable_iff (h : Holds m v)
    (hsum : ∀ n, (v.inode n).checksum = 0#32) : LinuxReadable m ↔ SumsToZero v := by
  have hone : ∀ n, v.HasInode n → ((∃ info, Linux.ufsReadInode m.sb m.disk n = .ok info) ↔
      (v.inode n).xorWords = 0#32) := by
    intro n hn
    rw [h.linux_readInode hn, ufsCalcInodeChecksum_unsummed (hsum n), hsum n]
    exact eq_comm
  constructor
  · rintro ⟨-, hall⟩ n hn hmode
    refine (hone n hn).mp (hall n _ ?_ hmode)
    rw [h.rep.readInode_eq, readInode, if_pos hn]
  · intro hall
    refine ⟨h.linux_checkSuper, fun n inode hread hmode => ?_⟩
    rw [h.rep.readInode_eq, readInode] at hread
    split at hread
    · rename_i hn
      cases hread
      exact (hone n hn).mpr (hall n hn hmode)
    · cases hread

theorem foldl_xor_zeros (k : Nat) (x : BitVec 32) :
    (List.replicate k 0#32).foldl (· ^^^ ·) x = x := by
  induction k with
  | zero => rfl
  | succ k ih => rw [List.replicate_succ, List.foldl_cons, xor_zero, ih]

theorem words_rootInode (b : Nat) (ticks : BitVec 32) : (ufsRootInode b ticks).words =
      [0x41ED#32, 0x20000#32, 0x80#32, 1#32, ticks, ticks, ticks, BitVec.ofNat 32 b, 1#32] ++
        List.replicate 25 0#32 := by
  have hmode : halves (ufsRootInode b ticks).mode (ufsRootInode b ticks).uid = 0x41ED#32 := by
    change halves (ufsInodeDir ||| 0x1ED#16) 0#16 = _
    decide
  have hnlink : halves (ufsRootInode b ticks).gid (ufsRootInode b ticks).nlink = 0x20000#32 := by
    change halves 0#16 2#16 = _
    decide
  have hblocks : (ufsRootInode b ticks).blocks = 1#32 := by
    change (128#32 + 511#32) / 512#32 = 1#32
    decide
  have hextents : extentWords (ufsRootInode b ticks).extents =
      [BitVec.ofNat 32 b, 1#32] ++ List.replicate 14 0#32 := rfl
  unfold UfsInode.words
  rw [hnlink]
  rfl

/-- The sum of the words of a new root directory. -/
theorem xorWords_rootInode (b : Nat) (ticks : BitVec 32) :
    (ufsRootInode b ticks).xorWords = ticks ^^^ (0x2416D#32 ^^^ BitVec.ofNat 32 b) := by
  have htwice : ∀ x : BitVec 32, x ^^^ ticks ^^^ ticks = x := fun x => by
    rw [xor_assoc, BitVec.xor_self, xor_zero]
  have hconst : 0x2416D#32 = 0x2416C#32 ^^^ 1#32 := by decide
  unfold UfsInode.xorWords
  rw [words_rootInode, List.foldl_append, foldl_xor_zeros]
  simp only [List.foldl_cons]
  rw [htwice]
  change 0x2416C#32 ^^^ ticks ^^^ BitVec.ofNat 32 b ^^^ 1#32 = _
  ac_rfl

/-- Right after the format Linux reads the root directory at one tick only. -/
theorem FreshMount.linuxReadable_iff {dev : BlockDevice}
    (h : FreshMount dev ticks m) : LinuxReadable m ↔ ticks = 0x2416D#32 ^^^ m.sb.dataStart := by
  have hds : m.sb.dataStart = BitVec.ofNat 32 (formatDataStart (dev.size / 4096 % 2 ^ 32)) := by
    apply eq_of_toNat_eq
    have hroom := h.room
    have hmod : formatDataStart (dev.size / 4096 % 2 ^ 32) % 2 ^ 32 =
        formatDataStart (dev.size / 4096 % 2 ^ 32) := Nat.mod_eq_of_lt (by omega)
    rw [h.holds.rep.dataStart, toNat_ofNat, hmod]
    rfl
  have hone : (freshVolume (dev.size / 4096 % 2 ^ 32) ticks dev.disk).HasInode 1 :=
    ⟨Nat.le_refl 1, show 1 ≤ 1024 by omega⟩
  rw [h.holds.linuxReadable_iff (freshVolume_unsummed), hds, ← BitVec.xor_eq_zero_iff,
    ← xorWords_rootInode]
  constructor
  · intro hall
    have hroot := hall 1 hone
    refine hroot ?_
    change ufsInodeDir ||| 0x1ED#16 ≠ 0#16
    decide
  · intro hzero n _ hmode
    by_cases hn : n = 1
    · rw [hn]
      exact hzero
    · rw [freshVolume_other _ _ _ hn] at hmode
      exact absurd rfl hmode

/-- A call that writes no inode in this state: the creation of a name that
exists or for which nothing is free, the removal of a name that does not exist,
a write within the file. -/
def UfsCall.Quiet (v : Volume) : UfsCall → Prop
  | create dir name _ _ => (v.find dir.fsData.toNat name).isSome ∨ v.nextInode = none
  | mkdir dir name _ _ | symlink dir name _ _ =>
    (v.find dir.fsData.toNat name).isSome ∨ v.nextInode = none ∨ v.nextBlock = none
  | write node _ size offset _ => offset + size ≤ (v.inode node.fsData.toNat).size.toNat
  | unlink dir name => v.find dir.fsData.toNat name = none
  | rename oldDir oldName _ _ => v.find oldDir.fsData.toNat oldName = none

theorem make_inode_of_nothing_free {d : Nat} {name : CStr}
    (h : (v.find d name).isSome ∨ v.nextInode = none ∨
      node.firstBlock.isSome ∧ v.nextBlock = none) {n : Nat} :
    (v.make d name node).2.inode n = v.inode n ∨
      (v.inode n).mode = 0#16 ∧ (v.make d name node).2.inode n = .zero := by
  refine make_cases v d name node
    (fun _ => .inl rfl) ?_ ?_
  · intro k _ hk _ _
    obtain ⟨hi, hmode⟩ := nextInode_spec hk
    rw [freeInode_inode (((v.takeInode_sameShape k).hasInode_iff k).mpr hi)]
    by_cases hn : n = k
    · subst hn
      exact .inr ⟨hmode, by simp⟩
    · exact .inl (by simp [hn, takeInode, setInode])
  · intro k w hnew hk hw
    rcases h with hfound | hnone | ⟨hblock, hnone⟩
    · rw [Option.isSome_iff_ne_none] at hfound
      exact absurd hnew hfound
    · rw [hnone] at hk
      cases hk
    · cases hw with
      | plain hplain => simp [hplain] at hblock
      | block _ hnext => exact absurd (hnone.symm.trans hnext) (by simp)

/-- A quiet call leaves every inode in use as it is, and takes none into use. -/
theorem UfsCall.Quiet.inode (h : c.Quiet v) (n : Nat) :
    (c.apply v).inode n = v.inode n ∨ (v.inode n).mode = 0#16 ∧ (c.apply v).inode n = .zero := by
  cases c with
  | create dir name mode ticks =>
    exact make_inode_of_nothing_free (h.imp_right .inl)
  | mkdir dir name mode ticks | symlink dir name target ticks =>
    exact make_inode_of_nothing_free (h.imp_right (.imp_right fun hb => ⟨rfl, hb⟩))
  | write node buf size offset ticks =>
    simp only [UfsCall.apply]
    split
    · obtain ⟨htable, hsize, -, hle⟩ := Volume.writeLoop_bounds buf size size v
        (v.inode node.fsData.toNat) (offset / 4096 % 2 ^ 32) (offset % 4096)
      have hin : offset + size ≤ (v.inode node.fsData.toNat).size.toNat := h
      unfold Volume.write
      simp only
      rw [if_neg (by rw [hsize]; omega), htable]
      exact .inl rfl
    · exact .inl rfl
  | unlink dir name =>
    simp only [UfsCall.apply, Volume.unlink]
    rw [show v.find dir.fsData.toNat name = none from h]
    exact .inl rfl
  | rename oldDir oldName newDir newName =>
    simp only [UfsCall.apply, Volume.rename]
    rw [show v.find oldDir.fsData.toNat oldName = none from h]
    exact .inl rfl

/-- Quiet calls do not change whether all inodes in use sum to zero. -/
theorem UfsCall.Quiet.sumsToZero_iff (h : c.Quiet v) (hp : v.Placed) (hv : v.Sized) :
    SumsToZero (c.apply v) ↔ SumsToZero v := by
  have hshape := (c.apply_follows hp hv).shape
  refine forall_congr' fun n => ?_
  rw [hshape.hasInode_iff]
  rcases h.inode n with hsame | ⟨hmode, hzero⟩
  · rw [hsame]
  · rw [hzero]
    exact iff_of_true (fun _ hne => absurd rfl hne) fun _ hne => absurd hmode hne

/-- **Kernel-written volumes, seen from Linux.**  After any history of calls on
a fresh volume the superblock passes the check of `ufs_fill_super`.  As long as
no call writes an inode, Linux can read the volume exactly when the root
directory was made at the one tick that brings its sum to zero. -/
theorem kernel_volume_linuxReadable_iff {dev : BlockDevice} {ticks : BitVec 32} {m : UfsMount}
    (h : FreshMount dev ticks m) (cs : List UfsCall) :
    Linux.ufsCheckSuper (Runs.run UfsCall.run m cs).disk = .ok (Runs.run UfsCall.run m cs).sb ∧
      (Runs.Guarded UfsCall.run (fun m c => c.Quiet m.volume) m cs →
        (LinuxReadable (Runs.run UfsCall.run m cs) ↔ ticks = 0x2416D#32 ^^^ m.sb.dataStart)) := by
  refine ⟨(h.isMounted.run cs).2.holds.linux_checkSuper, fun hcs => ?_⟩
  have hinit : ∀ n, (m.volume.inode n).checksum = 0#32 := by
    rw [h.volume_eq]
    exact freshVolume_unsummed
  rw [← h.linuxReadable_iff, h.isMounted.holds.linuxReadable_iff hinit]
  have hlast := hcs.invariant (I := fun m' => Mounted m' ∧
      (∀ n, (m'.volume.inode n).checksum = 0#32) ∧ (SumsToZero m'.volume ↔ SumsToZero m.volume))
    (fun m' c hm' hc => by
      obtain ⟨hm', hsum, hiff⟩ := hm'
      obtain ⟨hvol, hmounted⟩ := hm'.call c
      rw [hvol]
      exact ⟨hmounted, inodeClosed_unsummed.call _ c hsum,
        (hc.sumsToZero_iff hm'.placed hm'.holds.rep.sized).trans hiff⟩)
    ⟨h.isMounted, hinit, Iff.rfl⟩
  obtain ⟨hm', hsum, hiff⟩ := hlast
  rw [hm'.holds.linuxReadable_iff hsum]
  exact hiff

/-- A device of 40 blocks that was formatted at the right tick. -/
theorem kernel_volume_linuxReadable_iff_smallDevice :
    ∃ m, FreshMount fortyBlocks 0x24148#32 m ∧ LinuxReadable m := by
  obtain ⟨m, hm⟩ := FreshMount.exists_of_room fortyBlocks 0x24148#32 (by decide) (by decide)
  refine ⟨m, hm, ((kernel_volume_linuxReadable_iff hm []).2 trivial).mpr ?_⟩
  have hds : m.sb.dataStart = 37#32 := eq_of_toNat_eq hm.holds.rep.dataStart
  rw [hds]
  decide

/-- Linux cannot read the root directory of a device formatted at tick 0. -/
theorem kernel_volume_not_linuxReadable :
    ∃ m, FreshMount fortyBlocks 0#32 m ∧ ¬ LinuxReadable (Runs.run UfsCall.run m []) := by
  obtain ⟨m, hm, -⟩ := fortyBlocks_mount
  refine ⟨m, hm, fun hread => ?_⟩
  have hds : m.sb.dataStart.toNat = 37 := hm.holds.rep.dataStart
  have htick := hm.linuxReadable_iff.mp hread
  have hbad : m.sb.dataStart = 0x2416D#32 := (BitVec.xor_eq_zero_iff.mp htick.symm).symm
  rw [hbad] at hds
  exact absurd hds (by decide)

end Utms7
