import Utms7.UfsLinuxDirs

/-!
# Histories of directory calls on the Linux driver

The VFS looks a name up before it calls the driver, and calls it only where the
result fits the call.  A history whose additions are all in sight leaves
directories that the kernel lists in full, and its `ufs_rmdir` calls remove
empty directories only.  The first file that is created in a fresh root
directory is already out of sight.
-/

namespace Utms7

open ByteMemory Function List DirSlot Volume

namespace Linux

/-- The calls of the VFS that change directories. -/
inductive DirCall where
  | create (dir : Nat) (name : CStr) (mode : BitVec 16) (now : BitVec 32)
  | mkdir (dir : Nat) (name : CStr) (mode : BitVec 16) (now : BitVec 32)
  | unlink (dir : Nat) (name : CStr)
  | rmdir (dir : Nat) (name : CStr)

namespace DirCall

def dir : DirCall → Nat
  | create dir .. | mkdir dir .. | unlink dir _ | rmdir dir _ => dir

def name : DirCall → CStr
  | create _ name .. | mkdir _ name .. | unlink _ name | rmdir _ name => name

/-- The VFS calls the driver on a directory in core, and not for the names that
it resolves itself. -/
def Admitted (s : UfsSbInfo) (c : DirCall) : Prop :=
  (∃ ui, s.inodes c.dir = some ui ∧ sIsdir ui.iMode = true) ∧
    c.name.chars ≠ [] ∧ c.name.chars ≠ dot.chars ∧ c.name.chars ≠ dotdot.chars

instance (s : UfsSbInfo) (c : DirCall) : Decidable (c.Admitted s) :=
  decidable_of_iff ((s.inodes c.dir).any (fun ui => sIsdir ui.iMode) = true ∧
      c.name.chars ≠ [] ∧ c.name.chars ≠ dot.chars ∧ c.name.chars ≠ dotdot.chars) <| by
    unfold Admitted
    rw [Option.any_eq_true]

/-- The call after the VFS has looked the name up: the driver's result, if the
VFS comes to call it. -/
def perform (s : UfsSbInfo) : DirCall → Option Nat → Option Int × UfsSbInfo
  | create dir name mode now, none =>
    let r := ufsCreate s dir name mode now
    (some r.1, r.2)
  | mkdir dir name mode now, none =>
    let r := ufsMkdir s dir name mode now
    (some r.1, r.2)
  | unlink dir name, some n =>
    if sIsdir (deref s n).iMode then (none, s)
    else
      let r := ufsUnlink s dir name n
      (some r.1, r.2)
  | rmdir dir name, some n =>
    if sIsdir (deref s n).iMode then
      let r := ufsRmdir s dir name n
      (some r.1, r.2)
    else (none, s)
  | _, _ => (none, s)

/-- A call of the VFS. -/
def call (s : UfsSbInfo) (c : DirCall) : Option Int × UfsSbInfo :=
  if c.Admitted s then
    match ufsLookup s c.dir c.name with
    | .error _ => (none, s)
    | .ok (found, s) => c.perform s found
  else (none, s)

def run (s : UfsSbInfo) (c : DirCall) : UfsSbInfo := (c.call s).2

/-- The entry that a call adds is one that the kernel will list. -/
def InSight (s : UfsSbInfo) : DirCall → Prop
  | create dir .. | mkdir dir .. =>
    AddsInSight ((kernelView s).volume.slotsOf dir) ((kernelView s).volume.inode dir).size.toNat
  | _ => True

end DirCall

section Calls

variable {s : UfsSbInfo} {v : Volume} {d : Nat} {ui : UfsInodeInfo} {k n : Nat}

theorem or_ne_zero {mode bits : BitVec 16} (h : bits ≠ 0#16) : mode ||| bits ≠ 0#16 := by
  intro hzero
  exact h (BitVec.or_eq_zero_iff.mp hzero).2

section

variable (h : SoundDirs s v) (hopen : s.inodes d = some ui) (hk : firstSlot v = some k)
include h hopen hk

/-- The slots and the size of a directory in core do not change when a slot of
the inode table is taken. -/
theorem SoundDirs.not_firstSlot : d ≠ k := by
  rintro rfl
  exact (h.core hopen).1 (firstSlot_spec hk).2

theorem SoundDirs.sight_newInode (mode : BitVec 16) (now : BitVec 32)
    (hsight : AddsInSight (v.slotsOf d) (v.inode d).size.toNat) :
    AddsInSight ((claimInode v k mode now).slotsOf d)
      ((claimInode v k mode now).inode d).size.toNat := by
  have hdk := h.not_firstSlot hopen hk
  rw [claimInode_slotsOf hk, if_neg hdk, Shows.claimInode_other v hdk]
  exact hsight

end

theorem live_claimInode (hk : firstSlot v = some k) {mode : BitVec 16} (hmode : mode ≠ 0#16)
    (now : BitVec 32) : (claimInode v k mode now).Live k := by
  refine ⟨(firstSlot_spec hk).1, ?_⟩
  rw [Shows.claimInode_self]
  exact hmode

section

variable (h : SoundDirs s v) (hopen : s.inodes d = some ui) {name : CStr}
include h hopen

section

variable (hname : name.chars ≠ []) (hsight : AddsInSight (v.slotsOf d) (v.inode d).size.toNat)
  (mode : BitVec 16) (now : BitVec 32)
include hname hsight

theorem SoundDirs.create : ∃ v', SoundDirs (ufsCreate s d name mode now).2 v' := by
  have hmode : mode ||| sIfreg ≠ 0#16 := or_ne_zero (by decide)
  unfold ufsCreate
  cases hk : firstSlot v with
  | none =>
    rw [h.shown.newInode_none hk]
    exact ⟨v, h⟩
  | some k =>
    obtain ⟨s1, hnew, hsound, hcore⟩ := h.newInode hk hmode now
    have hopen1 : s1.inodes d = some ui := by
      rw [hcore, update_of_ne (h.not_firstSlot hopen hk)]
      exact hopen
    rw [hnew]
    obtain ⟨v', hadded, -⟩ := hsound.addEntry hopen1 (h.sight_newInode hopen hk _ now hsight) hname
      (live_claimInode hk hmode now) 1#8
    exact ⟨v', hadded.sound⟩

theorem SoundDirs.mkdir : ∃ v', SoundDirs (ufsMkdir s d name mode now).2 v' := by
  have hmode : mode ||| sIfdir ≠ 0#16 := or_ne_zero (by decide)
  unfold ufsMkdir
  cases hk : firstSlot v with
  | none =>
    rw [h.shown.newInode_none hk]
    exact ⟨v, h⟩
  | some k =>
    obtain ⟨s1, hnew, hsound, hcore⟩ := h.newInode hk hmode now
    have hdk := h.not_firstSlot hopen hk
    have hopen1 : s1.inodes d = some ui := by
      rw [hcore, update_of_ne hdk]
      exact hopen
    have hself : s1.inodes k = some (Shows.loaded k (newRecord (mode ||| sIfdir) now)) := by
      rw [hcore, update_self]
    have hsight1 := h.sight_newInode hopen hk (mode ||| sIfdir) now hsight
    have hlive := live_claimInode hk hmode now
    rw [hnew]
    simp only
    -- the dots
    obtain ⟨v2, hdots, honly⟩ := hsound.addDots hself
      (by rw [claimInode_slotsOf hk, if_pos rfl]) (by rw [Shows.claimInode_self]; rfl)
      (by rw [Shows.claimInode_self]; exact ⟨⟨0, 0⟩, mem_cons_self, rfl⟩) hlive
      (hsound.live hopen1)
    generalize hs2 : (ufsAddEntry (ufsAddEntry s1 k dot k 2#8).2 k dotdot d 2#8).2 = s2
    rw [hs2] at hdots
    -- the entry of the parent
    obtain ⟨u2, hu2⟩ := Option.isSome_iff_exists.mp (hdots.core d (by rw [hopen1]; rfl))
    have hsight2 : AddsInSight (v2.slotsOf d) (v2.inode d).size.toNat := by
      rw [(hdots.other d hdk).1, (hdots.other d hdk).2]
      exact hsight1
    obtain ⟨v3, hadded, -⟩ := hdots.sound.addEntry hu2 hsight2 hname (hdots.live k hlive) 2#8
    generalize ufsAddEntry s2 d name k 2#8 = r at hadded ⊢
    split
    · exact ⟨v3, hadded.sound⟩
    -- the size of the new directory and the link count of the parent
    have hin : (s2.inodes k).isSome := hdots.core k (by rw [hself]; rfl)
    obtain ⟨u3, hu3⟩ := Option.isSome_iff_exists.mp (hadded.core k hin)
    have honly3 : DotsOnly (v3.slotsOf k) := by
      rw [(hadded.other k (Ne.symm hdk)).1]
      exact honly
    rw [Shows.deref_eq hu3]
    obtain ⟨v4, hsized, -⟩ :=
      hadded.sound.writeInode hu3 (u := { u3 with iSize := 128 }) rfl rfl rfl
      (by decide : 128 < 2 ^ 32) fun hdir => (hadded.sound.dirs hdir).of_dotsOnly honly3
    have hparent : (r.2.inodes d).isSome := hadded.core d (by rw [hu2]; rfl)
    obtain ⟨u4, hu4⟩ := Option.isSome_iff_exists.mp (hsized.core d hparent)
    rw [Shows.deref_eq hu4]
    exact ⟨v4, hsized.sound.assignNlink hu4 _⟩

end

theorem SoundDirs.unlink (name : CStr) (hn : (s.inodes n).isSome) :
    ∃ v', SoundDirs (ufsUnlink s d name n).2 v' ∧ ((ufsUnlink s d name n).2.inodes d).isSome := by
  obtain ⟨v1, hremoved⟩ := h.removeEntry hopen name
  unfold ufsUnlink
  generalize ufsRemoveEntry s d name = r at hremoved ⊢
  simp only
  split
  · exact ⟨v1, hremoved.sound, hremoved.core d (by rw [hopen]; rfl)⟩
  · obtain ⟨u, hu⟩ := Option.isSome_iff_exists.mp (hremoved.core n hn)
    rw [Shows.deref_eq hu]
    obtain ⟨v2, hwritten⟩ := hremoved.sound.writeNlink hu (u.iNlink - 1#32)
    exact ⟨v2, hwritten.sound, hwritten.core d (hremoved.core d (by rw [hopen]; rfl))⟩

theorem SoundDirs.rmdir (name : CStr) (hn : (s.inodes n).isSome) :
    ∃ v', SoundDirs (ufsRmdir s d name n).2 v' := by
  obtain ⟨v1, hunlinked, hin⟩ := h.unlink hopen name hn
  unfold ufsRmdir
  split
  · exact ⟨v, h⟩
  generalize ufsUnlink s d name n = r at hunlinked hin ⊢
  simp only
  split
  · exact ⟨v1, hunlinked⟩
  · obtain ⟨u, hu⟩ := Option.isSome_iff_exists.mp hin
    rw [Shows.deref_eq hu]
    exact ⟨v1, hunlinked.assignNlink hu _⟩

end

theorem SoundDirs.volume_eq (h : SoundDirs s v) : (kernelView s).volume = v :=
  h.shown.holds.rep.volume_eq

/-- **One call keeps every directory in sight.** -/
theorem SoundDirs.run (h : SoundDirs s v) (c : DirCall) (hc : c.InSight s) :
    ∃ v', SoundDirs (c.run s) v' := by
  unfold DirCall.run DirCall.call
  split
  · rename_i hadm
    obtain ⟨⟨ui, hopen, hdir⟩, hname, -, -⟩ := hadm
    cases hlook : ufsLookup s c.dir c.name with
    | error e => exact ⟨v, h⟩
    | ok r =>
      obtain ⟨found, s'⟩ := r
      obtain ⟨hsound, hopen', hin, hsame⟩ := h.lookup hopen (h.liveDir hopen hdir) hlook
      simp only
      cases c with
      | create dir name mode now =>
        cases found with
        | none =>
          rw [DirCall.InSight, h.volume_eq] at hc
          exact hsound.create hopen' hname hc mode now
        | some n => exact ⟨v, hsound⟩
      | mkdir dir name mode now =>
        cases found with
        | none =>
          rw [DirCall.InSight, h.volume_eq] at hc
          exact hsound.mkdir hopen' hname hc mode now
        | some n => exact ⟨v, hsound⟩
      | unlink dir name =>
        cases found with
        | none => exact ⟨v, hsound⟩
        | some n =>
          simp only [DirCall.perform]
          split
          · exact ⟨v, hsound⟩
          · obtain ⟨v', hv', -⟩ := hsound.unlink hopen' name (hin n rfl)
            exact ⟨v', hv'⟩
      | rmdir dir name =>
        cases found with
        | none => exact ⟨v, hsound⟩
        | some n =>
          simp only [DirCall.perform]
          split
          · exact hsound.rmdir hopen' name (hin n rfl)
          · exact ⟨v, hsound⟩
  · exact ⟨v, h⟩

end Calls

end Linux

end Utms7
