import Utms7.UfsListing

/-!
# Listing a directory

`ufs_find_in_dir` searches all slots of the blocks that the size of a directory
covers.  `ufs_vfs_readdir` stops earlier: in the last of these blocks it looks
at as many slots as the rest of the size has room for, altogether `size / 64`.
It also skips entries whose name is empty.

The size counts entries, not slots, so after a deletion the last entry lies
beyond the end of the listing while lookup still finds it.  `ReaddirAgrees` is
the agreement of the two, and `readdirAgrees_iff` says in which states of a
directory it holds.
-/

namespace Utms7

open ByteMemory Volume List DirSlot

/-- The slots that a listing reports. -/
def DirSlot.listed (s : DirSlot) : Bool := s.used && decide (s.nameLen > 0#8)

theorem DirSlot.Formed.listed_iff {s : DirSlot} (h : s.Formed) :
    s.listed = true ↔ s.used = true ∧ s.name ≠ [] := by
  simp only [listed, Bool.and_eq_true, decide_eq_true_eq, and_congr_right_iff]
  intro hused
  have hlen := h.length hused
  rw [gt_iff_lt, BitVec.lt_def, hlen, BitVec.toNat_ofNat, length_pos_iff]

variable {v : Volume} {d : Nat}

namespace Volume

/-- The slots that a listing of directory `n` looks at. -/
def listing (v : Volume) (n : Nat) : List DirSlot :=
  (v.visible n).take ((v.inode n).size.toNat / 64)

theorem listing_sub {n : Nat} {s : DirSlot} (h : s ∈ v.listing n) : s ∈ v.visible n :=
  mem_of_mem_take h

end Volume

section Listing

variable {m : UfsMount} {i : Nat}

/-- The names that a listing takes from one block. -/
theorem readdir_block {b r : Nat} (hended : ∀ j, j < 64 → (dirSlot (v.data b) j).ended = true)
    (hr : r ≤ 64) : (((List.range r).filter fun j =>
        direntInode (v.data b) j != 0#32 && decide (direntNameLen (v.data b) j > 0#8)).map
          (ufsReaddirEntry m (v.data b))).map VfsDirent.name =
      (((blockSlots (v.data b)).take r).filter listed).map name := by
  have hname : ∀ j, j < 64 →
      (ufsReaddirEntry m (v.data b) j).name = (dirSlot (v.data b) j).name := by
    intro j hj
    obtain ⟨i, hi, hz⟩ := any_eq_true.mp (hended j hj)
    have hcut := @cstrAt_of_ended (v.data b) (64 * j + 8) 56 255
      ⟨i, mem_range.mp hi, by simpa using hz⟩ (by omega)
    unfold ufsReaddirEntry
    simp only
    split <;> exact hcut
  have htake : (blockSlots (v.data b)).take r = (List.range r).map (dirSlot (v.data b)) := by
    rw [blockSlots, ← map_take, take_range, Nat.min_eq_left hr]
  rw [htake, filter_map, map_map, map_map]
  refine map_congr_left fun j hj => ?_
  have hlt := mem_range.mp (mem_filter.mp hj).1
  exact hname j (by omega)

theorem readdirLimit_le {dir : UfsInode} (hi : i < ufsDirBlocks dir) :
    ufsReaddirLimit dir i ≤ 64 := by
  unfold ufsReaddirLimit ufsDirBlocks at *
  split <;> omega

/-- The names that a listing takes from a stretch of slots. -/
private def names (slots : List DirSlot) : List (List (BitVec 8)) :=
  (slots.filter DirSlot.listed).map DirSlot.name

theorem names_append (l l' : List DirSlot) : names (l ++ l') = names l ++ names l' := by
  simp [names]

theorem names_flatMap (l : List Nat) (f : Nat → List DirSlot) :
    names (l.flatMap f) = l.flatMap fun b => names (f b) := by
  unfold names
  rw [filter_flatMap, map_flatMap]

section

variable (hm : Holds m v) (h : v.Intact) (hd : v.HasInode d) (hf : v.FormedDir d)
include hm h hd hf

theorem readdir_round (hi : i < ufsDirBlocks (v.inode d)) :
    (if ufsGetBlock (v.inode d).extents i = 0 then ([] : List VfsDirent) else
        match ufsReadBlock m (ufsGetBlock (v.inode d).extents i) with
        | none => []
        | some ents =>
          ((List.range (ufsReaddirLimit (v.inode d) i)).filter fun j =>
            direntInode ents j != 0#32 && decide (direntNameLen ents j > 0#8)).map
              (ufsReaddirEntry m ents)).map VfsDirent.name =
      (v.blocksOf d)[i]?.elim [] fun b =>
        names ((blockSlots (v.data b)).take (ufsReaddirLimit (v.inode d) i)) := by
  have hsmall := h.sized.small
  have hstart := h.sized.start
  have hblocks := blocksOf_of_hasInode hd
  rw [hblocks, (h.placed d hd).getBlock_eq (by omega)]
  cases hget : (blockList (v.inode d).extents)[i]? with
  | none => simp
  | some b =>
    have hb := (h.placed d hd).mem_bounds (mem_of_getElem? hget)
    have hended : ∀ j, j < 64 → (dirSlot (v.data b) j).ended = true := fun j hj =>
      (hf _ (mem_of_getElem? (slotsOf_getElem? (by rw [hblocks, hget]) hj))).ended
    simp only [Option.getD_some, show ¬ b = 0 by omega, if_false]
    rw [hm.rep.readBlock_eq hb.1, Volume.readBlock, if_neg (by omega)]
    exact readdir_block hended (readdirLimit_le hi)

/-- **`ufs_vfs_readdir` reports the first `size / 64` slots** that are in use
and have a name. -/
theorem Holds.readdirEntries_names : (ufsReaddirEntries m (v.inode d)).map VfsDirent.name =
      ((v.listing d).filter listed).map name := by
  have hrounds : (ufsReaddirEntries m (v.inode d)).map VfsDirent.name =
      (List.range (ufsDirBlocks (v.inode d))).flatMap fun i => (v.blocksOf d)[i]?.elim [] fun b =>
        names ((blockSlots (v.data b)).take (ufsReaddirLimit (v.inode d) i)) := by
    unfold ufsReaddirEntries
    rw [map_flatMap, flatMap_def]
    congr 1
    exact map_congr_left fun i hi => readdir_round hm h hd hf (mem_range.mp hi)
  change _ = names (v.listing d)
  rw [hrounds, listing, visible_eq]
  cases hk : ufsDirBlocks (v.inode d) with
  | zero => simp [names]
  | succ k =>
    -- All blocks but the last are read in full.
    have hsize : (v.inode d).size.toNat / 64 = 64 * k + ufsReaddirLimit (v.inode d) k := by
      unfold ufsReaddirLimit
      rw [if_pos (by omega)]
      unfold ufsDirBlocks at hk
      omega
    have hfull : (List.range k).flatMap (fun i => (v.blocksOf d)[i]?.elim [] fun b =>
          names ((blockSlots (v.data b)).take (ufsReaddirLimit (v.inode d) i))) =
        (List.range k).flatMap fun i => (v.blocksOf d)[i]?.elim [] fun b =>
          names (blockSlots (v.data b)) := by
      rw [flatMap_def]
      congr 1
      refine map_congr_left fun i hi => ?_
      have hlt := mem_range.mp hi
      have hlimit : ufsReaddirLimit (v.inode d) i = 64 := by
        unfold ufsReaddirLimit
        rw [if_neg (by omega)]
      simp [hlimit, take_of_length_le]
    rw [hsize, Chunks.take_flatMap_add (fun _ => blockSlots_length _), names_append, names_flatMap,
      range_succ, flatMap_append, hfull,
      Chunks.flatMap_range (f := fun b => names (blockSlots (v.data b)))]
    cases hlast : (v.blocksOf d)[k]? <;> simp [names, hlast]

theorem Holds.readdirEntries_length :
    (ufsReaddirEntries m (v.inode d)).length ≤ (v.entries d).length := by
  have hnames := congrArg List.length (hm.readdirEntries_names h hd hf)
  rw [length_map, length_map] at hnames
  rw [hnames, entries_eq hd, length_map, ← countP_eq_length_filter, ← countP_eq_length_filter]
  have hsub : (v.listing d).Sublist (v.slotsOf d) :=
    (take_sublist _ _).trans (take_sublist _ _)
  refine Nat.le_trans (countP_mono_left fun s _ hs => ?_) hsub.countP_le
  simp only [listed, Bool.and_eq_true] at hs
  exact hs.1

end

end Listing

/-- A listing into a buffer that is large enough gives exactly the names that
lookup finds, each once. -/
def ReaddirAgrees (m : UfsMount) (dir : VfsNode) : Prop :=
  ∀ count, (m.volume.entries dir.fsData.toNat).length ≤ count →
    ∃ es, ufsVfsReaddir m dir count = some es ∧ (es.map VfsDirent.name).Nodup ∧
      ∀ name : CStr, name.chars ∈ es.map VfsDirent.name ↔
        (ufsFindInDir m dir.fsData.toNat name).isSome

/-- The directory has its entries where a listing looks: none of them is
nameless, those among the first `size / 64` slots have different names, and
those in later slots only repeat names of the former. -/
structure Volume.Listable (v : Volume) (d : Nat) : Prop where
  named : ∀ s ∈ v.visible d, s.used = true → s.name ≠ []
  distinct : (((v.listing d).filter DirSlot.used).map DirSlot.name).Nodup
  covered : ∀ s ∈ (v.visible d).drop ((v.inode d).size.toNat / 64), s.used = true →
    ∃ t ∈ v.listing d, t.used = true ∧ t.name = s.name

section Agreement

/-- Where no entry is nameless, a listing skips free slots only. -/
theorem filter_listed_eq (hf : v.FormedDir d)
    (hnamed : ∀ s ∈ v.visible d, s.used = true → s.name ≠ []) :
    (v.listing d).filter listed = (v.listing d).filter used := by
  refine filter_congr fun s hs => ?_
  have hvis := listing_sub hs
  rw [Bool.eq_iff_iff, (hf s (mem_visible hvis)).listed_iff]
  exact ⟨fun h => h.1, fun h => ⟨h, hnamed s hvis h⟩⟩

/-- A directory is listable when the names of its listing differ and every
visible entry has its name in it. -/
theorem listable_iff (hf : v.FormedDir d) :
    v.Listable d ↔ (((v.listing d).filter listed).map name).Nodup ∧
      ∀ s ∈ v.visible d, s.used = true →
        s.name ∈ ((v.listing d).filter listed).map name := by
  constructor
  · intro h
    rw [filter_listed_eq hf h.named]
    refine ⟨h.distinct, fun s hs hused => ?_⟩
    rw [← take_append_drop ((v.inode d).size.toNat / 64) (v.visible d)] at hs
    rcases mem_append.mp hs with hs | hs
    · exact mem_map.mpr ⟨s, mem_filter.mpr ⟨hs, hused⟩, rfl⟩
    · obtain ⟨t, ht, htused, htname⟩ := h.covered s hs hused
      exact mem_map.mpr ⟨t, mem_filter.mpr ⟨ht, htused⟩, htname⟩
  · rintro ⟨hnodup, hall⟩
    have hnamed : ∀ s ∈ v.visible d, s.used = true → s.name ≠ [] := by
      intro s hs hused
      obtain ⟨t, ht, htname⟩ := mem_map.mp (hall s hs hused)
      obtain ⟨hmem, hlisted⟩ := mem_filter.mp ht
      rw [← htname]
      exact ((hf t (mem_visible (listing_sub hmem))).listed_iff.mp hlisted).2
    rw [filter_listed_eq hf hnamed] at hnodup hall
    refine ⟨hnamed, hnodup, fun s hs hused => ?_⟩
    obtain ⟨t, ht, htname⟩ := mem_map.mp (hall s (mem_of_mem_drop hs) hused)
    obtain ⟨hmem, htused⟩ := mem_filter.mp ht
    exact ⟨t, hmem, htused, htname⟩

theorem lookup_isSome_iff {slots : List DirSlot} {name : CStr} :
    (lookup slots name).isSome ↔ ∃ s ∈ slots, s.used = true ∧ s.name = name.chars := by
  unfold lookup
  rw [Option.isSome_map, find?_isSome]
  simp only [hasName_iff]

/-- Listing and lookup agree exactly for listable directories. -/
theorem Mounted.readdirAgrees_iff {m : UfsMount} (hm : Mounted m) (h : m.volume.Intact)
    {dir : VfsNode} (hdir : dir.type = .dir) (hd : m.volume.HasInode dir.fsData.toNat)
    (hf : m.volume.FormedDir dir.fsData.toNat) :
    ReaddirAgrees m dir ↔ m.volume.Listable dir.fsData.toNat := by
  have hholds := hm.holds
  have hnames := hholds.readdirEntries_names h hd hf
  have hlen := hholds.readdirEntries_length h hd hf
  have hread : ∀ count, (m.volume.entries dir.fsData.toNat).length ≤ count →
      ufsVfsReaddir m dir count =
        some (ufsReaddirEntries m (m.volume.inode dir.fsData.toNat)) := by
    intro count hcount
    unfold ufsVfsReaddir
    rw [if_neg (by simp [hholds.mounted, hdir]), hholds.rep.readInode_eq, Volume.readInode,
      if_pos hd, Option.map_some, take_of_length_le (by omega)]
  have hfind : ∀ name : CStr, (ufsFindInDir m dir.fsData.toNat name).isSome ↔
      ∃ s ∈ m.volume.visible dir.fsData.toNat, s.used = true ∧ s.name = name.chars := by
    intro name
    rw [hholds.find_eq hm.placed, find_eq_lookup h hd hf, lookup_isSome_iff]
  rw [listable_iff hf, ← hnames]
  constructor
  · intro hagree
    obtain ⟨es, hes, hnodup, hmem⟩ := hagree _ (Nat.le_refl _)
    rw [hread _ (Nat.le_refl _), Option.some.injEq] at hes
    subst hes
    refine ⟨hnodup, fun s hs hused => ?_⟩
    exact (hmem ⟨s.name, slot_noNul (mem_visible hs)⟩).mpr ((hfind _).mpr ⟨s, hs, hused, rfl⟩)
  · rintro ⟨hnodup, hall⟩ count hcount
    refine ⟨_, hread count hcount, hnodup, fun name => ?_⟩
    rw [hfind]
    constructor
    · intro hname
      rw [hnames] at hname
      obtain ⟨s, hs, hsname⟩ := mem_map.mp hname
      obtain ⟨hmem, hlisted⟩ := mem_filter.mp hs
      have hvis := listing_sub hmem
      exact ⟨s, hvis, ((hf s (mem_visible hvis)).listed_iff.mp hlisted).1, hsname⟩
    · rintro ⟨s, hs, hused, hsname⟩
      rw [← hsname]
      exact hall s hs hused

instance (v : Volume) (d : Nat) : Decidable (v.Listable d) :=
  decidable_of_iff
    ((∀ s ∈ v.visible d, s.used = true → s.name ≠ []) ∧
      (((v.listing d).filter DirSlot.used).map DirSlot.name).Nodup ∧
      ∀ s ∈ (v.visible d).drop ((v.inode d).size.toNat / 64), s.used = true →
        ∃ t ∈ v.listing d, t.used = true ∧ t.name = s.name)
    ⟨fun ⟨h₁, h₂, h₃⟩ => ⟨h₁, h₂, h₃⟩, fun h => ⟨h.named, h.distinct, h.covered⟩⟩

end Agreement

/-- **Listing against lookup.**  After any history of directory calls on a fresh
volume, listing and lookup agree on a directory exactly when it is listable. -/
theorem readdirAgrees_iff_listable {dev : BlockDevice} {ticks : BitVec 32} {m : UfsMount}
    (h : FreshMount dev ticks m) (cs : List UfsCall) (hcs : ∀ c ∈ cs, c.OnDirectories)
    (dir : VfsNode) (hdir : dir.type = .dir)
    (hlive : (Runs.run UfsCall.run m cs).volume.LiveDir dir.fsData.toNat) :
    ReaddirAgrees (Runs.run UfsCall.run m cs) dir ↔
      (Runs.run UfsCall.run m cs).volume.Listable dir.fsData.toNat := by
  obtain ⟨hmounted, hintact, hformed⟩ := h.run_onDirectories hcs
  exact hmounted.readdirAgrees_iff hintact hdir hlive.1 (hformed _ hlive)

/-- Two files are created in the root and the second is deleted. -/
def createTwoDeleteLast : List UfsCall :=
  [.create rootNode (shortName 97#8 (by decide)) 0#32 0#32,
    .create rootNode (shortName 98#8 (by decide)) 0#32 0#32,
    .unlink rootNode (shortName 98#8 (by decide))]

theorem readdirAgrees_iff_listable_root : ∃ m, FreshMount fortyBlocks 0#32 m ∧
    ReaddirAgrees (Runs.run UfsCall.run m createTwoDeleteLast) rootNode := by
  obtain ⟨m, hm, hv⟩ := fortyBlocks_mount
  have hrun := (hm.isMounted.run createTwoDeleteLast).1
  rw [hv] at hrun
  refine ⟨m, hm, (readdirAgrees_iff_listable hm createTwoDeleteLast ?_ rootNode rfl ?_).mpr ?_⟩
  · simp [createTwoDeleteLast, UfsCall.OnDirectories]
  · rw [hrun]
    decide +kernel
  · rw [hrun]
    decide +kernel

/-- Two files are created in the root and the first is deleted. -/
def createTwoDeleteOne : List UfsCall :=
  [.create rootNode (shortName 97#8 (by decide)) 0#32 0#32,
    .create rootNode (shortName 98#8 (by decide)) 0#32 0#32,
    .unlink rootNode (shortName 97#8 (by decide))]

theorem createTwoDeleteOne_not_readdirAgrees : ∃ m, FreshMount fortyBlocks 0#32 m ∧
    (∀ c ∈ createTwoDeleteOne, c.OnDirectories) ∧
    (Runs.run UfsCall.run m createTwoDeleteOne).volume.LiveDir rootNode.fsData.toNat ∧
    ¬ ReaddirAgrees (Runs.run UfsCall.run m createTwoDeleteOne) rootNode := by
  obtain ⟨m, hm, hv⟩ := fortyBlocks_mount
  have hcs : ∀ c ∈ createTwoDeleteOne, c.OnDirectories := by
    simp [createTwoDeleteOne, UfsCall.OnDirectories]
  obtain ⟨hmounted, hintact, hformed⟩ := hm.run_onDirectories hcs
  have hrun := (hm.isMounted.run createTwoDeleteOne).1
  rw [hv] at hrun
  have hlive : (Runs.run UfsCall.run m createTwoDeleteOne).volume.LiveDir
      rootNode.fsData.toNat := by
    rw [hrun]
    decide +kernel
  refine ⟨m, hm, hcs, hlive, ?_⟩
  rw [hmounted.readdirAgrees_iff hintact rfl hlive.1 (hformed _ hlive), hrun]
  decide +kernel

end Utms7
