import Utms7.UfsFileData

/-!
# Histories of file writes

The state of a history is the device together with what its calls have
reported: for every file that is linked, its image.  `FileCall.InOrder` lists
what the driver needs of a call, and every history of such calls keeps all files
as reported.
-/

namespace Utms7

open ByteMemory Function Volume

/-- A call of a history of files in the root directory. -/
inductive FileCall where
  | create (name : CStr) (mode ticks : BitVec 32)
  | write (node : VfsNode) (buf : Bytes) (size offset : Nat) (ticks : BitVec 32)
  | unlink (name : CStr)

/-- A mounted device and what was reported as written to each file that is
linked, by inode number. -/
structure FileState where
  mount : UfsMount
  files : Nat → Option FileImage

namespace FileCall

def call : FileCall → UfsCall
  | create name mode ticks => .create rootNode name mode ticks
  | write node buf size offset ticks => .write node buf size offset ticks
  | unlink name => .unlink rootNode name

/-- The files after a call, from what the call returns. -/
def files (s : FileState) : FileCall → Nat → Option FileImage
  | create name mode ticks =>
    if (ufsVfsCreate s.mount rootNode name mode ticks).1 = 0 then
      update s.files (ufsAllocInode s.mount).1 (some .empty)
    else s.files
  | write node buf size offset ticks =>
    update s.files node.fsData.toNat ((s.files node.fsData.toNat).map fun f =>
      f.write buf offset (ufsVfsWrite s.mount node buf size offset ticks).1.toNat)
  | unlink name =>
    if (ufsVfsUnlink s.mount rootNode name).1 = 0 then
      match ufsFindInDir s.mount rootNode.fsData.toNat name with
      | some n => update s.files n none
      | none => s.files
    else s.files

def run (s : FileState) (c : FileCall) : FileState where
  mount := c.call.run s.mount
  files := c.files s

/-- A call that the driver serves right: it does not write to or remove the root
directory, and it writes in order. -/
def InOrder (s : FileState) : FileCall → Prop
  | create .. => True
  | write node _ size offset _ =>
    node.fsData.toNat ≠ 1 ∧ ((s.files node.fsData.toNat).isSome → node.type = .file →
      s.mount.volume.WritesInOrder node.fsData.toNat size offset)
  | unlink name => ufsFindInDir s.mount rootNode.fsData.toNat name ≠ some 1

end FileCall

/-- Every file that is linked reads back as what was reported as written to it. -/
def FileState.ReadsBack (s : FileState) : Prop :=
  ∀ n f, s.files n = some f → ∀ node : VfsNode, node.type = .file → node.fsData.toNat = n →
    ∀ (buf : Bytes) (len offset : Nat),
      (ufsVfsRead s.mount node buf len offset).1 = ((min len (f.size - offset) : Nat) : Int) ∧
        ∀ i, i < min len (f.size - offset) →
          (ufsVfsRead s.mount node buf len offset).2 i = f.byte (offset + i)

/-- What histories in order keep. -/
structure FileState.Sound (s : FileState) : Prop where
  mounted : Mounted s.mount
  intact : s.mount.volume.Intact
  root : (s.mount.volume.inode 1).mode ≠ 0#16
  stored : ∀ {n f}, s.files n = some f → n ≠ 1 ∧ s.mount.volume.Stores n f

namespace Volume

variable {v : Volume}

theorem make_stores (h : v.Intact) (hroot : (v.inode 1).mode ≠ 0#16) {name : CStr}
    {mode ticks : BitVec 32} (hmade : (v.make 1 name (fileNode mode ticks)).1 = true) :
    ∃ n, v.nextInode = some n ∧ (v.make 1 name (fileNode mode ticks)).2.Stores n .empty := by
  revert hmade
  refine make_cases v 1 name (fileNode mode ticks) (fun _ hmade => by cases hmade)
    (fun _ _ _ hfirst => by cases hfirst) ?_
  intro n w _ hnext hw _
  obtain ⟨hhas, hfree⟩ := nextInode_spec hnext
  have hw' := h.prepared hhas hw
  refine ⟨n, hnext, ?_⟩
  have hstores : w.Stores n .empty := by
    cases hw with
    | block hfirst => cases hfirst
    | plain hfirst =>
      have hblocks : (((v.takeInode n).setInode n (fileNode mode ticks).inode).blocksOf
          n) = [] := by
        rw [blocksOf_of_hasInode (v := (v.takeInode n).setInode n _) hhas]
        simp [setInode, NewNode.blockList_eq]
      refine ⟨⟨hhas, ?_⟩, ?_, by decide, by rw [hblocks]; rfl, by rw [hblocks]; rfl⟩
      · simpa [setInode] using (fileNode mode ticks).live
      · simp [setInode, fileNode, UfsInode.zero, FileImage.empty]
  refine hstores.of_touches hw'.owned
    ((Touches.refl w).addEntry (I := (· = 1)) hw'.placed hw'.sized rfl n name _) ?_
  rintro rfl
  exact hroot hfree

/-- Unlinking another object than the root succeeds or changes nothing. -/
theorem unlink_failed (h : v.Intact) {name : CStr} (hne : v.find 1 name ≠ some 1)
    (hfail : (v.unlink 1 name).1 = false) : (v.unlink 1 name).2 = v := by
  unfold unlink at hfail ⊢
  cases hfind : v.find 1 name with
  | none => simp
  | some n =>
    simp only [hfind] at hfail ⊢
    split
    · rfl
    rename_i hgo
    rw [if_neg hgo] at hfail
    -- The root is not touched, so the entry is still there.
    have hkept : ((v.freeInodeBlocks n).freeInode n).find 1 name = some n := by
      rw [← hfind]
      refine (((Touches.refl v).freeInodeBlocks (I := (· = n)) h.placed h.sized rfl).freeInode
        rfl).find_eq h ?_ name
      rintro rfl
      exact hne hfind
    unfold removeEntry at hfail
    unfold find at hkept
    split at hkept
    · rename_i hhas
      rw [if_pos hhas] at hfail
      cases hscan : ((v.freeInodeBlocks n).freeInode n).scan
          (((v.freeInodeBlocks n).freeInode n).inode 1) (direntMatches name) with
      | none => simp [hscan] at hkept
      | some r => simp [hscan] at hfail
    · cases hkept

end Volume

namespace Volume

theorem make_root {v : Volume} (h : v.Intact) (hroot : (v.inode 1).mode ≠ 0#16) (name : CStr)
    (node : NewNode) : ((v.make 1 name node).2.inode 1).mode ≠ 0#16 := by
  have hne : ∀ {n}, v.nextInode = some n → 1 ≠ n := by
    rintro n hn rfl
    exact hroot (nextInode_spec hn).2
  refine make_cases v 1 name node (fun _ => hroot) ?_ ?_
  · intro n _ hn _ _
    rw [(((Touches.refl v).takeInode (I := (· = n)) rfl).freeInode rfl).inode 1 (hne hn)]
    exact hroot
  · intro n w _ hn hw
    rw [addEntry_mode, (hw.dir_eq h (hne hn)).1]
    exact hroot

theorem unlink_root {v : Volume} (hroot : (v.inode 1).mode ≠ 0#16) {name : CStr}
    (hne : v.find 1 name ≠ some 1) : ((v.unlink 1 name).2.inode 1).mode ≠ 0#16 := by
  unfold unlink
  split
  · exact hroot
  rename_i n hfind
  split
  · exact hroot
  rename_i hgo
  have hn : v.HasInode n := by
    by_contra hn
    exact hgo (.inl hn)
  have h1 : 1 ≠ n := by
    rintro rfl
    exact hne hfind
  rw [removeEntry_mode, freeFile_inode hn, update_of_ne h1]
  exact hroot

end Volume

namespace FileState.Sound

variable {s : FileState} {c : FileCall}

section

variable (h : s.Sound)
include h

/-- It is enough to look at the volume that a call makes. -/
theorem of_apply (hroot : ((c.call.apply s.mount.volume).inode 1).mode ≠ 0#16)
    (hstored : ∀ n f, c.files s n = some f → n ≠ 1 ∧ (c.call.apply s.mount.volume).Stores n f) :
    (c.run s).Sound := by
  obtain ⟨hvol, hmounted⟩ := h.mounted.call c.call
  have hintact := h.intact.call c.call
  rw [← hvol] at hroot hstored hintact
  exact ⟨hmounted, hintact, hroot, fun {n f} => hstored n f⟩

theorem create (name : CStr) (mode ticks : BitVec 32) :
    ((FileCall.create name mode ticks).run s).Sound := by
  have hsim := h.mounted.holds.create h.mounted.placed rootNode name mode ticks
  change Simulates _ (s.mount.volume.make 1 name (fileNode mode ticks)) at hsim
  have ht : Volume.Touches (fun k => k = 1 ∨ s.mount.volume.nextInode = some k) s.mount.volume
      (s.mount.volume.make 1 name (fileNode mode ticks)).2 :=
    .make h.intact.placed h.intact.sized (.inl rfl) (fun n hn => .inr hn) name _
  have hold : ∀ {n f}, s.files n = some f →
      n ≠ 1 ∧ (s.mount.volume.make 1 name (fileNode mode ticks)).2.Stores n f := by
    intro n f hn
    obtain ⟨h1, hst⟩ := h.stored hn
    refine ⟨h1, hst.of_touches h.intact.owned ht ?_⟩
    rintro (rfl | hnext)
    · exact h1 rfl
    · exact hst.live.2 (nextInode_spec hnext).2
  have hroot := make_root h.intact h.root name (fileNode mode ticks)
  refine h.of_apply hroot fun n f hn => ?_
  change n ≠ 1 ∧ (s.mount.volume.make 1 name (fileNode mode ticks)).2.Stores n f
  simp only [FileCall.files] at hn
  split at hn
  · rename_i hcode
    obtain ⟨n', hnext, hst⟩ := make_stores h.intact h.root
      (hsim.code.mp hcode)
    rw [(h.mounted.holds.allocInode_some hnext).1] at hn
    by_cases hnn : n = n'
    · subst hnn
      rw [update_self] at hn
      cases hn
      refine ⟨?_, hst⟩
      rintro rfl
      exact h.root (nextInode_spec hnext).2
    · rw [update_of_ne hnn] at hn
      exact hold hn
  · exact hold hn

theorem write (node : VfsNode) (buf : Bytes) (size offset : Nat) (ticks : BitVec 32)
    (hc : (FileCall.write node buf size offset ticks).InOrder s) :
    ((FileCall.write node buf size offset ticks).run s).Sound := by
  obtain ⟨hne, horder⟩ := hc
  by_cases hn : node.type = .file ∧ s.mount.volume.HasInode node.fsData.toNat
  · have hcode := (h.mounted.holds.write h.mounted.placed hn.1 hn.2 buf size offset ticks).1
    have happly : UfsCall.apply s.mount.volume (.write node buf size offset ticks) =
        (s.mount.volume.write node.fsData.toNat buf size offset ticks).2 := if_pos hn
    have ht : Volume.Touches (fun k => k = node.fsData.toNat) s.mount.volume
        (s.mount.volume.write node.fsData.toNat buf size offset ticks).2 :=
      .write (I := fun k => k = node.fsData.toNat) h.intact.placed h.intact.sized rfl hn.2 buf size
        offset ticks
    refine h.of_apply ?_ fun n f hf => ?_
    · rw [FileCall.call, happly, ht.inode 1 (Ne.symm hne)]
      exact h.root
    · rw [FileCall.call, happly]
      simp only [FileCall.files] at hf
      by_cases hnn : n = node.fsData.toNat
      · subst hnn
        rw [update_self, Option.map_eq_some_iff] at hf
        obtain ⟨f0, hf0, rfl⟩ := hf
        obtain ⟨h1, hst⟩ := h.stored hf0
        obtain ⟨hlt, hst'⟩ := hst.write h.intact
          (horder (by rw [hf0]; rfl) hn.1) ticks
        rw [hcode, toInt32_of_lt hlt]
        exact ⟨h1, hst'⟩
      · rw [update_of_ne hnn] at hf
        obtain ⟨h1, hst⟩ := h.stored hf
        exact ⟨h1, hst.of_touches h.intact.owned ht hnn⟩
  · -- A call that is refused returns `-1` and leaves everything as it is.
    have hrefused := h.mounted.holds.write_refused hn buf size offset ticks
    have hsame : (FileCall.write node buf size offset ticks).run s = s := by
      unfold FileCall.run FileCall.files FileCall.call UfsCall.run
      simp only [hrefused, show (-1 : Int).toNat = 0 from rfl, FileImage.write_zero, Option.map_id']
      rw [update_eq_self]
    rw [hsame]
    exact h

theorem unlink (name : CStr) (hc : (FileCall.unlink name).InOrder s) :
    ((FileCall.unlink name).run s).Sound := by
  have hsim := h.mounted.holds.unlink h.mounted.placed rootNode name
  change Simulates _ (s.mount.volume.unlink 1 name) at hsim
  have hfind := h.mounted.holds.find_eq h.mounted.placed 1 name
  change ufsFindInDir s.mount 1 name ≠ some 1 at hc
  rw [hfind] at hc
  refine h.of_apply (unlink_root h.root hc) fun n f hn => ?_
  change n ≠ 1 ∧ (s.mount.volume.unlink 1 name).2.Stores n f
  simp only [FileCall.files] at hn
  split at hn
  · change (match ufsFindInDir s.mount 1 name with
      | some n => update s.files n none
      | none => s.files) n = some f at hn
    rw [hfind] at hn
    have ht : Volume.Touches (fun k => k = 1 ∨ s.mount.volume.find 1 name = some k)
        s.mount.volume (s.mount.volume.unlink 1 name).2 :=
      .unlink h.intact.placed h.intact.sized (.inl rfl) fun n hn => .inr hn
    have hlinked : s.files n = some f ∧ s.mount.volume.find 1 name ≠ some n := by
      cases hvictim : s.mount.volume.find 1 name with
      | none =>
        rw [hvictim] at hn
        exact ⟨hn, by simp⟩
      | some n' =>
        rw [hvictim] at hn
        by_cases hnn : n = n'
        · subst hnn
          simp at hn
        · simp only [update_of_ne hnn] at hn
          exact ⟨hn, fun heq => hnn (Option.some.inj heq).symm⟩
    obtain ⟨h1, hst⟩ := h.stored hlinked.1
    refine ⟨h1, hst.of_touches h.intact.owned ht ?_⟩
    rintro (rfl | hvictim)
    · exact h1 rfl
    · exact hlinked.2 hvictim
  · rename_i hcode
    have hfail : (s.mount.volume.unlink 1 name).1 = false := by
      rw [← Bool.not_eq_true, ← hsim.code]
      exact hcode
    rw [unlink_failed h.intact hc hfail]
    exact h.stored hn

theorem call (hc : c.InOrder s) : (c.run s).Sound := by
  cases c with
  | create name mode ticks => exact h.create name mode ticks
  | write node buf size offset ticks => exact h.write node buf size offset ticks hc
  | unlink name => exact h.unlink name hc

theorem readsBack : s.ReadsBack := by
  rintro _ f hn node hfile rfl buf len offset
  have hst := (h.stored hn).2
  obtain ⟨hcount, hbytes⟩ := hst.read h.intact.sized h.mounted.placed buf len offset
  have hsmall := hst.small
  rw [h.mounted.holds.read_eq h.mounted.placed hfile hst.live.1, hcount, toInt32_of_lt (by omega)]
  exact ⟨rfl, hbytes⟩

end

end FileState.Sound

/-- **After a history in order every file reads back what was written to it.** -/
theorem ordered_history_readsBack {dev : BlockDevice} {ticks : BitVec 32} {m : UfsMount}
    (h : FreshMount dev ticks m) (cs : List FileCall)
    (hcs : Runs.Guarded FileCall.run FileCall.InOrder ⟨m, fun _ => none⟩ cs) :
    (Runs.run FileCall.run ⟨m, fun _ => none⟩ cs).ReadsBack := by
  refine (hcs.invariant (I := FileState.Sound) (fun s c hs hc => hs.call hc) ?_).readsBack
  refine ⟨h.isMounted, h.intact, ?_, fun hn => by cases hn⟩
  rw [h.volume_eq]
  exact mode_ne_of_isDir (isDir_rootInode _ _)

/-- The file that the first creation on a fresh volume makes. -/
def firstFile : VfsNode := { type := .file, mode := 0#32, size := 0, fsData := 2#32 }

/-- A file of two blocks. -/
theorem ordered_history_readsBack_twoBlocks : ∃ m, FreshMount fortyBlocks 0#32 m ∧
    (Runs.run FileCall.run ⟨m, fun _ => none⟩ [.create (shortName 102#8 (by decide)) 0#32 0#32,
        .write firstFile (fun i => BitVec.ofNat 8 i) 5000 0 0#32]).ReadsBack := by
  obtain ⟨m, hm, hv⟩ := fortyBlocks_mount
  refine ⟨m, hm, ordered_history_readsBack hm _ ⟨trivial, ⟨by decide, fun _ _ => ?_⟩, trivial⟩⟩
  change (UfsCall.run m _).volume.WritesInOrder 2 5000 0
  rw [(hm.isMounted.call _).1, hv]
  exact ⟨by decide, .inl (Nat.zero_le _), by decide +kernel⟩

/-- One byte written at the start of the second block of an empty file: reading
the file stops after its first block. -/
theorem sparse_write_not_readsBack : ∃ m, FreshMount fortyBlocks 0#32 m ∧
    ¬ (Runs.run FileCall.run ⟨m, fun _ => none⟩ [.create (shortName 102#8 (by decide)) 0#32 0#32,
        .write firstFile (fun _ => 65#8) 1 4096 0#32]).ReadsBack := by
  obtain ⟨m, hm, hv⟩ := fortyBlocks_mount
  refine ⟨m, hm, fun hread => ?_⟩
  have hmount := hm.isMounted
  obtain ⟨hvol1, hmount1⟩ := hmount.call (.create rootNode (shortName 102#8 (by decide)) 0#32 0#32)
  rw [hv] at hvol1
  obtain ⟨hvol2, hmount2⟩ := hmount1.call (.write firstFile (fun _ => 65#8) 1 4096 0#32)
  rw [hvol1] at hvol2
  -- The creation succeeds, with inode 2.
  have hcreated : (ufsVfsCreate m rootNode (shortName 102#8 (by decide)) 0#32 0#32).1 = 0 := by
    rw [(hmount.holds.create hmount.placed rootNode _ 0#32 0#32).code, hv]
    decide +kernel
  have hino : (ufsAllocInode m).1 = 2 := by
    refine (hmount.holds.allocInode_some ?_).1
    rw [hv]
    decide +kernel
  -- The write reports its byte.
  have hfirst : firstFile.type = .file := rfl
  have hwritten := (hmount1.holds.write hmount1.placed hfirst
    (by rw [hvol1]; decide +kernel) (fun _ => 65#8) 1 4096 0#32).1
  rw [hvol1, show toInt32 (write _ _ (fun _ => 65#8) 1 4096 0#32).1 = 1 by decide +kernel]
    at hwritten
  have hfile : (Runs.run FileCall.run ⟨m, fun _ => none⟩
      [.create (shortName 102#8 (by decide)) 0#32 0#32,
        .write firstFile (fun _ => 65#8) 1 4096 0#32]).files 2 =
      some (FileImage.empty.write (fun _ => 65#8) 4096 1) := by
    simp only [Runs.run_cons, Runs.run_nil, FileCall.run, FileCall.files, FileCall.call, hcreated,
      hino, if_true, hwritten, show firstFile.fsData.toNat = 2 from rfl, update_self,
      Option.map_some, show (1 : Int).toNat = 1 from rfl]
  obtain ⟨hcount, -⟩ := hread 2 _ hfile firstFile rfl rfl zeros 4097 0
  have hvalue := hmount2.holds.read_eq hmount2.placed hfirst
    (by rw [hvol2]; decide +kernel) zeros 4097 0
  rw [hvol2] at hvalue
  change (ufsVfsRead (UfsCall.run (UfsCall.run m (.create rootNode (shortName 102#8 (by decide))
    0#32 0#32)) (.write firstFile (fun _ => 65#8) 1 4096 0#32)) firstFile zeros 4097 0).1 =
      (4097 : Int) at hcount
  rw [hvalue, show toInt32 (read _ _ zeros 4097 0).1 = 4096 by decide +kernel] at hcount
  exact absurd hcount (by decide)

end Utms7
