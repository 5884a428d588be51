import Utms7.Runs
import Utms7.UfsFormat

/-!
# Histories of calls

`UfsCall` lists the calls that change a mounted volume.  `run` performs one on
the device, `apply` on the volume, and `volume_run` says that the two agree:
after any history of calls the device holds the volume that the same history
makes of the one it held before.  Everything below about histories of the
driver is therefore proved about volumes.
-/

namespace Utms7

variable {m : UfsMount} {v : Volume}

open ByteMemory

/-- A call of the driver that can change the volume. -/
inductive UfsCall where
  | create (dir : VfsNode) (name : CStr) (mode ticks : BitVec 32)
  | mkdir (dir : VfsNode) (name : CStr) (mode ticks : BitVec 32)
  | symlink (dir : VfsNode) (name target : CStr) (ticks : BitVec 32)
  | write (node : VfsNode) (buf : Bytes) (size offset : Nat) (ticks : BitVec 32)
  | unlink (dir : VfsNode) (name : CStr)
  | rename (oldDir : VfsNode) (oldName : CStr) (newDir : VfsNode) (newName : CStr)

open UfsCall

namespace UfsCall

/-- The device after a call. -/
def run (m : UfsMount) : UfsCall → UfsMount
  | create dir name mode ticks => (ufsVfsCreate m dir name mode ticks).2
  | mkdir dir name mode ticks => (ufsVfsMkdir m dir name mode ticks).2
  | symlink dir name target ticks => (ufsVfsSymlink m dir name target ticks).2
  | write node buf size offset ticks => (ufsVfsWrite m node buf size offset ticks).2.1
  | unlink dir name => (ufsVfsUnlink m dir name).2
  | rename oldDir oldName newDir newName => (ufsVfsRename m oldDir oldName newDir newName).2

/-- The volume after a call. -/
def apply (v : Volume) : UfsCall → Volume
  | create dir name mode ticks => (v.make dir.fsData.toNat name (fileNode mode ticks)).2
  | mkdir dir name mode ticks =>
    (v.make dir.fsData.toNat name (dirNode dir.fsData.toNat mode ticks)).2
  | symlink dir name target ticks => (v.make dir.fsData.toNat name (linkNode target ticks)).2
  | write node buf size offset ticks =>
    if node.type = .file ∧ v.HasInode node.fsData.toNat then
      (v.write node.fsData.toNat buf size offset ticks).2
    else v
  | unlink dir name => (v.unlink dir.fsData.toNat name).2
  | rename oldDir oldName newDir newName =>
    (v.rename oldDir.fsData.toNat oldName newDir.fsData.toNat newName).2

end UfsCall

/-- A mounted device whose blocks are all in their place. -/
structure Mounted (m : UfsMount) : Prop where
  holds : Holds m m.volume
  placed : m.volume.Placed

theorem Holds.mounted_of_placed (h : Holds m v) (hp : v.Placed) : Mounted m := by
  have hv := h.rep.volume_eq
  exact ⟨hv ▸ h, hv ▸ hp⟩

/-- No call changes the geometry or puts a block out of place. -/
theorem UfsCall.apply_follows (hp : v.Placed) (hv : v.Sized) (c : UfsCall) :
    v.Follows (c.apply v) := by
  cases c with
  | create dir name mode ticks | mkdir dir name mode ticks | symlink dir name target ticks =>
    exact v.make_follows _ _ _
  | write node buf size offset ticks =>
    simp only [apply]
    split
    · rename_i hn
      exact Volume.write_follows hp hv hn.2 _ _ _ _
    · exact .refl v
  | unlink dir name => exact v.unlink_follows _ _
  | rename oldDir oldName newDir newName => exact v.rename_follows _ _ _ _

/-- One call keeps device and volume together. -/
theorem Holds.call (h : Holds m v) (hp : v.Placed) (c : UfsCall) :
    Holds (c.run m) (c.apply v) := by
  cases c with
  | create dir name mode ticks => exact (h.create hp dir name mode ticks).holds
  | mkdir dir name mode ticks => exact (h.mkdir hp dir name mode ticks).holds
  | symlink dir name target ticks => exact (h.symlink hp dir name target ticks).holds
  | write node buf size offset ticks =>
    by_cases hn : node.type = .file ∧ v.HasInode node.fsData.toNat
    · simp only [apply, if_pos hn]
      exact (h.write hp hn.1 hn.2 buf size offset ticks).2
    · simp only [run, apply, if_neg hn, h.write_refused hn]
      exact h
  | unlink dir name => exact (h.unlink hp dir name).holds
  | rename oldDir oldName newDir newName => exact (h.rename hp oldDir oldName newDir newName).holds

/-- **One call on the device is the same call on the volume.** -/
theorem Mounted.call (h : Mounted m) (c : UfsCall) :
    (c.run m).volume = c.apply m.volume ∧ Mounted (c.run m) := by
  have hh := h.holds.call h.placed c
  have hp := (c.apply_follows h.placed h.holds.rep.sized).placed h.holds.rep.sized h.placed
  exact ⟨hh.rep.volume_eq, hh.mounted_of_placed hp⟩

/-- A history on the device is the same history on the volume. -/
theorem Mounted.run (h : Mounted m) (cs : List UfsCall) :
    (Runs.run run m cs).volume = Runs.run apply m.volume cs ∧
      Mounted (Runs.run run m cs) := by
  induction cs generalizing m with
  | nil => exact ⟨rfl, h⟩
  | cons c cs ih =>
    obtain ⟨hv, hm⟩ := h.call c
    obtain ⟨hrun, hlast⟩ := ih hm
    exact ⟨by rw [Runs.run_cons, hrun, hv]; rfl, hlast⟩

theorem freshVolume_placed {total : Nat} (hsmall : total + 32767 < 2 ^ 32)
    (hroom : formatDataStart total < total) {ticks : BitVec 32} {old : Bytes} :
    (freshVolume total ticks old).Placed := by
  intro n hn
  by_cases h1 : n = 1
  · subst h1
    exact (Volume.zero_extentsIn _ _).append
      (show total < 2 ^ 32 by omega) (Nat.le_refl (formatDataStart total)) hroom
  · rw [freshVolume_other _ _ _ h1]
    exact Volume.zero_extentsIn _ _

/-- A device that was just formatted and mounted.  Its block count fits the
layout: `total_blocks + 32767` does not wrap around. -/
structure FreshMount (dev : BlockDevice) (ticks : BitVec 32) (m : UfsMount) : Prop where
  small : dev.size / 4096 % 2 ^ 32 + 32767 < 2 ^ 32
  formatted : (ufsVfsFormat dev ticks).1 = 0
  mounted : ∃ root, ufsVfsMount { dev with disk := (ufsVfsFormat dev ticks).2 } = .ok (m, root)

namespace FreshMount

variable {dev : BlockDevice} {ticks : BitVec 32}

section

variable (h : FreshMount dev ticks m)
include h

theorem room : formatDataStart (dev.size / 4096 % 2 ^ 32) < dev.size / 4096 % 2 ^ 32 := by
  by_contra hroom
  have hfail := format_no_room dev ticks h.small (by omega)
  rw [h.formatted] at hfail
  exact absurd hfail (by decide)

theorem holds : Holds m (freshVolume (dev.size / 4096 % 2 ^ 32) ticks dev.disk) := by
  obtain ⟨-, m', hmount, hholds⟩ := format_mount dev ticks h.small h.room
  obtain ⟨root, hroot⟩ := h.mounted
  rw [hmount] at hroot
  cases hroot
  exact hholds

theorem volume_eq : m.volume = freshVolume (dev.size / 4096 % 2 ^ 32) ticks dev.disk :=
  h.holds.rep.volume_eq

theorem isMounted : Mounted m :=
  h.holds.mounted_of_placed (freshVolume_placed h.small h.room)

/-- **A volume outlives its mount.**  After any history the device mounts again, with
`ufs_vfs_unmount` before it or without, as the volume that the calls have left; only the
searches of the allocators start anew. -/
theorem remount (cs : List UfsCall) (disk : Bytes)
    (hdisk : disk = (Runs.run run m cs).disk ∨ disk = (ufsVfsUnmount (Runs.run run m cs)).2.disk) :
    ∃ w, ufsVfsMount { dev with disk := disk } = .ok (w, rootNode) ∧ Mounted w ∧
      w.volume = { (Runs.run run m cs).volume with nextFreeBlock := 0, nextFreeInode := 2 } := by
  have hm := (h.isMounted.run cs).2
  obtain ⟨u, ⟨hrep, hheader⟩, rfl⟩ : ∃ u, Holds u (Runs.run run m cs).volume ∧ disk = u.disk := by
    rcases hdisk with rfl | rfl
    · exact ⟨_, hm.holds, rfl⟩
    -- `ufs_vfs_unmount` writes the superblock once more.
    · exact ⟨_, hm.holds.commit hm.holds.rep rfl rfl rfl, rfl⟩
  have hmount : ufsVfsMount { dev with disk := u.disk } = _ :=
    mount_of_header hheader.synced hheader.magic hheader.checksum
  rw [hheader.rootInode] at hmount
  have hholds : Holds { u with mounted := true, nextFreeBlock := 0, nextFreeInode := 2 }
      { (Runs.run run m cs).volume with nextFreeBlock := 0, nextFreeInode := 2 } :=
    ⟨{ hrep with canonical := { hrep.canonical with }, nextFreeBlock := rfl, nextFreeInode := rfl },
      { hheader with mounted := rfl }⟩
  exact ⟨_, hmount, hholds.mounted_of_placed hm.placed, hholds.rep.volume_eq⟩

end

theorem exists_of_room (dev : BlockDevice) (ticks : BitVec 32)
    (hsmall : dev.size / 4096 % 2 ^ 32 + 32767 < 2 ^ 32)
    (hroom : formatDataStart (dev.size / 4096 % 2 ^ 32) < dev.size / 4096 % 2 ^ 32) :
    ∃ m, FreshMount dev ticks m := by
  obtain ⟨hcode, m, hmount, -⟩ := format_mount dev ticks hsmall hroom
  exact ⟨m, hsmall, hcode, rootNode, hmount⟩

end FreshMount

/-- A device of 40 blocks, of which format leaves two free. -/
def fortyBlocks : BlockDevice := { size := 40 * 4096, disk := zeros }

theorem fortyBlocks_mount : ∃ m, FreshMount fortyBlocks 0#32 m ∧
    m.volume = freshVolume 40 0#32 zeros := by
  obtain ⟨m, hm⟩ := FreshMount.exists_of_room fortyBlocks 0#32 (by decide) (by decide)
  exact ⟨m, hm, hm.volume_eq⟩

/-- A name of one character. -/
def shortName (c : BitVec 8) (h : c ≠ 0#8) : CStr where
  chars := [c]
  noNul := by simpa using h.symm

theorem letterA_ne_nul : 97#8 ≠ 0#8 := by decide

/-- A file that was created is found after the next mount. -/
theorem remount_after_create : ∃ m w, FreshMount fortyBlocks 0#32 m ∧
    ufsVfsMount { fortyBlocks with disk := (ufsVfsUnmount (Runs.run run m
      [.create rootNode (shortName 97#8 letterA_ne_nul) 0#32 0#32])).2.disk } = .ok (w, rootNode) ∧
    w.volume.find 1 (shortName 97#8 letterA_ne_nul) = some 2 := by
  obtain ⟨m, hm, hv⟩ := fortyBlocks_mount
  obtain ⟨w, hw, -, hvolume⟩ := hm.remount
    [.create rootNode (shortName 97#8 letterA_ne_nul) 0#32 0#32] _ (.inr rfl)
  refine ⟨m, w, hm, hw, ?_⟩
  rw [hvolume, (hm.isMounted.run _).1, hv]
  decide +kernel

theorem dot_ne_nul : 46#8 ≠ 0#8 := by decide

theorem dots_noNul : 0#8 ∉ [46#8, 46#8] := by decide

end Utms7
