import Mathlib.Data.Nat.Find
import Mathlib.Order.CompletePartialOrder
import Mathlib.Order.Interval.Set.Disjoint
import Utms7.Elf
import Utms7.HeapGrowth

/-!
# The image of a program

What `elf_load` leaves in the pages of a process.  Each segment gets new pages, with
its bytes from the file and zeros around them.  Where two segments share a page, the
later one replaces the page of the earlier one, and the bytes of the earlier one are
gone; so the image is right exactly if such bytes are zeros.
-/

namespace Utms7.Elf

open Paging Radix List BitVec Nat

variable {vaddr virt low v : BitVec 64} {file : File} {s : Machine} {root : Frame}
  {size : BitVec 32}
  {i : Nat} {ph : Phdr}

/-! ## Pages with contents -/

/-- The page at an address has a frame of its own with the given contents. -/
def Shows (s : Machine) (root : Frame) (virt : BitVec 64) (table : Index → Entry) : Prop :=
  ∃ f, (translate s.mem root virt).map Mapping.frame = some f ∧ Held root bare s () f ∧
    s.mem f = table

section Pages

variable {s' : Machine} {f : Frame} {table : Index → Entry}
  {ws : List (BitVec 64)}

/-- Pages that are mapped elsewhere leave it as it is. -/
theorem Shows.grown (h : Shows s root virt table) (hgrown : Grown root bare s () s' () ws)
    (hoff : ∀ w ∈ ws, path virt ≠ path w) : Shows s' root virt table := by
  obtain ⟨f, hframe, hdata, hmem⟩ := h
  obtain ⟨hmem', hdata'⟩ := hgrown.data f hdata
  refine ⟨f, ?_, hdata', hmem'.trans hmem⟩
  rw [hgrown.same virt hoff]
  exact hframe

theorem Shows.userByte_at (h : Shows s root virt table) (hpath : path v = path virt) :
    userByte s root v = some (getByte table (v.toNat % 4096)) := by
  obtain ⟨f, hframe, -, rfl⟩ := h
  obtain ⟨p, hp, rfl⟩ := Option.map_eq_some_iff.mp hframe
  rw [Paging.userByte, translate_congr _ _ hpath, hp]
  rfl

section

variable (h : Grounds root bare s) (halloc : pmmAllocPage s = some (f, s'))
include h halloc

theorem map_page {s1 : Machine}
    (hmap : pagingMapForProcess s' root (addr f) virt userFlags = (0, s1)) :
    Grown root bare s () s1 () [virt] ∧ (translate s1.mem root virt).map Mapping.frame = some f ∧
      Held root bare s1 () f ∧ s.pool.Free f := by
  obtain ⟨hgrown, hdata, hfree⟩ := h.alloc () halloc
  obtain ⟨c, s2, hresult, hgrown1, hframe, -⟩ := hgrown.grounds.map (addr f) virt
    (by rwa [frame_addr]) (.inl (rfl : userFlags = 7#64))
  obtain ⟨rfl, rfl⟩ := Prod.mk.inj (hresult.symm.trans hmap)
  rw [frame_addr] at hframe
  exact ⟨hgrown.trans hgrown1, hframe rfl, (hgrown1.data f hdata).2, hfree⟩

theorem load_page
    (hmap : (pagingMapForProcess s' root (addr f) virt userFlags).1 = 0) {table : Index → Entry}
    {s2 : Machine} (hs2 : s2 = { (pagingMapForProcess s' root (addr f) virt userFlags).2 with
      mem := fill (pagingMapForProcess s' root (addr f) virt userFlags).2.mem f table }) :
    Grown root bare s () s2 () [virt] ∧ Shows s2 root virt table := by
  obtain ⟨hgrown, hframe, hdata, hfree⟩ := map_page h halloc (Prod.ext hmap rfl)
  rw [hs2]
  refine ⟨hgrown.fill hdata.noTable (fun hold => hold.busy hfree) table, f, ?_,
    hdata.fill hdata.noTable table, ?_⟩
  · rw [translate_fill hdata.noTable]
    exact hframe
  · exact Function.update_self ..

end

end Pages

/-! ## The loops -/

section Loops

variable {o : BitVec 64} {ph : Phdr}
  {n : Nat}

/-- **The loop over pages** leaves each of them with its part of the segment. -/
theorem loadPages_shows (h : Grounds root bare s) (hfit : virt.toNat + 4096 * n ≤ 2 ^ 47)
    (hok : (loadPages root file o ph vaddr n virt s).ok = true) :
    Grown root bare s () (loadPages root file o ph vaddr n virt s).machine () (pagesFrom virt n) ∧
      ∀ w ∈ pagesFrom virt n, Shows (loadPages root file o ph vaddr n virt s).machine root w
        (pageTable file ph vaddr w) := by
  induction n generalizing virt s with
  | zero => exact ⟨.refl h, nofun⟩
  | succ n ih =>
    have hlen := hfit
    have hnext := toNat_nextPage (x := virt) (by omega)
    rw [loadPages] at hok ⊢
    cases halloc : pmmAllocPage s with
    | none =>
      rw [halloc] at hok
      cases hok
    | some r =>
      obtain ⟨f, s'⟩ := r
      rw [halloc] at hok
      dsimp only at hok ⊢
      by_cases hmap : (pagingMapForProcess s' root (addr f) virt userFlags).1 = 0
      swap
      · rw [if_pos hmap] at hok
        cases hok
      rw [if_neg (not_not.mpr hmap)] at hok ⊢
      dsimp only at hok ⊢
      obtain ⟨hgrown, hshows⟩ := load_page h halloc hmap rfl
      obtain ⟨hgrown', hshows'⟩ := ih hgrown.grounds (by omega) hok
      refine ⟨hgrown.trans hgrown', ?_⟩
      intro w hw
      rcases mem_cons.mp hw with rfl | hw
      · exact hshows.grown hgrown' fun w' hw' heq => path_ne_of_mem hfit hw' heq.symm
      · exact hshows' w hw

/-- Where segment `i` is loaded. -/
def loadAddr (file : File) (i : Nat) : BitVec 64 := (file.phdr i).vaddr + base file

/-- The pages of segment `i`. -/
def segmentPages (file : File) (i : Nat) : List (BitVec 64) :=
  if (file.phdr i).load = true ∧ (file.phdr i).memsz ≠ 0#64 then
    pagesFrom (loadAddr file i &&& ~~~4095#64) (numPages (file.phdr i) (loadAddr file i))
  else []

/-- The pages of a segment are addresses that the processor has. -/
def Fits (file : File) (i : Nat) : Prop :=
  (file.phdr i).load = true → (file.phdr i).memsz ≠ 0#64 →
    (loadAddr file i &&& ~~~4095#64).toNat + 4096 * numPages (file.phdr i)
      (loadAddr file i) ≤ 2 ^ 47

theorem loadSegment_shows (h : Grounds root bare s) {i : Nat} (hfit : Fits file i)
    (hok : (loadSegment root file i s).ok = true) :
    Grown root bare s () (loadSegment root file i s).machine () (segmentPages file i) ∧
      ∀ w ∈ segmentPages file i, Shows (loadSegment root file i s).machine root w
        (pageTable file (file.phdr i) (loadAddr file i) w) := by
  have hskip : ¬((file.phdr i).load = true ∧ (file.phdr i).memsz ≠ 0#64) →
      segmentPages file i = [] := fun hno => if_neg hno
  have hstep := loadSegment_step root file i s
  generalize loadSegment root file i s = r at hstep hok ⊢
  cases hstep with
  | skipped hload =>
    rw [hskip fun hand => absurd (hand.1.symm.trans hload) (by decide)]
    exact ⟨.refl h, nofun⟩
  | empty _ hmemsz =>
    rw [hskip fun hand => hand.2 hmemsz]
    exact ⟨.refl h, nofun⟩
  | low _ _ _ => cases hok
  | pages hload hmemsz _ p hp =>
    have hpages : segmentPages file i = pagesFrom (loadAddr file i &&& ~~~4095#64)
        (numPages (file.phdr i) (loadAddr file i)) := if_pos ⟨hload, hmemsz⟩
    have hok' : p.ok = true := hok
    change Grown root bare s () p.machine () _ ∧ ∀ w ∈ _, Shows p.machine root w _
    rw [hp] at hok' ⊢
    rw [hpages]
    exact loadPages_shows h (hfit hload hmemsz) hok'

/-- **The loop over segments**: a page is left as the last segment that has it makes it. -/
theorem loadSegments_shows (h : Grounds root bare s) {is : List Nat} (hsorted : is.Pairwise (· < ·))
    (hfit : ∀ i ∈ is, Fits file i) (hok : (loadSegments root file is s).ok = true) :
    Grown root bare s () (loadSegments root file is s).machine ()
        (is.flatMap (segmentPages file)) ∧
      ∀ i ∈ is, ∀ w ∈ segmentPages file i,
        (∀ j ∈ is, i < j → ∀ w' ∈ segmentPages file j, path w ≠ path w') →
        Shows (loadSegments root file is s).machine root w
          (pageTable file (file.phdr i) (loadAddr file i) w) := by
  induction is generalizing s with
  | nil => exact ⟨.refl h, nofun⟩
  | cons i is ih =>
    obtain ⟨hfirst, hrest⟩ := pairwise_cons.mp hsorted
    rw [loadSegments] at hok ⊢
    by_cases hseg : (loadSegment root file i s).ok = true
    swap
    · rw [if_neg hseg] at hok
      exact absurd hok hseg
    rw [if_pos hseg] at hok ⊢
    obtain ⟨hgrown, hshows⟩ := loadSegment_shows h (hfit i mem_cons_self) hseg
    obtain ⟨hgrown', hshows'⟩ := ih hgrown.grounds hrest
      (fun j hj => hfit j (mem_cons_of_mem i hj)) hok
    refine ⟨?_, ?_⟩
    · exact hgrown.trans hgrown'
    · intro j hj w hw hlast
      rcases mem_cons.mp hj with rfl | hj
      · refine (hshows w hw).grown hgrown' ?_
        intro w' hw'
        obtain ⟨k, hk, hw'⟩ := mem_flatMap.mp hw'
        exact hlast k (mem_cons_of_mem j hk) (hfirst k hk) w' hw'
      · refine hshows' j hj w hw fun k hk hjk => hlast k (mem_cons_of_mem i hk) hjk

end Loops

/-! ## The bytes of a page -/

theorem toNat_max (a b : BitVec 64) : (if a < b then b else a).toNat = max a.toNat b.toNat := by
  split
  · next h => exact (max_eq_right (lt_def.mp h).le).symm
  · next h => exact (max_eq_left (not_lt.mp fun hlt => h (lt_def.mpr hlt))).symm

theorem toNat_min (a b : BitVec 64) : (if a < b then a else b).toNat = min a.toNat b.toNat := by
  split
  · next h => exact (min_eq_left (lt_def.mp h).le).symm
  · next h => exact (min_eq_right (not_lt.mp fun hlt => h (lt_def.mpr hlt))).symm

section

variable (hvirt : virt.toNat + 4096 < 2 ^ 64) (hseg : vaddr.toNat + ph.filesz.toNat < 2 ^ 64)
include hvirt hseg

/-- The part of the file for a page, where no sum wraps. -/
theorem pageCopy_eq :
    pageCopy ph vaddr virt =
      if max virt.toNat vaddr.toNat < min (vaddr.toNat + ph.filesz.toNat) (virt.toNat + 4096) then
        some
          { dest := max virt.toNat vaddr.toNat - virt.toNat
            source := ph.offset + BitVec.ofNat 64 (max virt.toNat vaddr.toNat - vaddr.toNat)
            size := min (vaddr.toNat + ph.filesz.toNat) (virt.toNat + 4096) -
              max virt.toNat vaddr.toNat }
      else none := by
  have hstart := toNat_max virt vaddr
  have hend := toNat_min (vaddr + ph.filesz) (virt + 4096#64)
  rw [toNat_nextPage hvirt, toNat_add, mod_eq_of_lt hseg] at hend
  unfold pageCopy
  dsimp only
  generalize (if virt < vaddr then vaddr else virt) = a at hstart ⊢
  generalize (if vaddr + ph.filesz < virt + 4096#64 then vaddr + ph.filesz else _) = b at hend ⊢
  rw [← hstart, ← hend]
  by_cases hlt : a < b
  · have hle := BitVec.le_of_lt hlt
    have hvirtLe : virt ≤ a := le_def.mpr (by omega)
    have hvaddrLe : vaddr ≤ a := le_def.mpr (by omega)
    have hsource : a - vaddr = BitVec.ofNat 64 (a.toNat - vaddr.toNat) := by
      refine eq_of_toNat_eq ?_
      rw [toNat_sub_of_le hvaddrLe, toNat_ofNat, mod_eq_of_lt (by omega)]
    rw [if_pos hlt, if_pos (lt_def.mp hlt), toNat_sub_of_le hle, toNat_sub_of_le hvirtLe, hsource]
  · rw [if_neg hlt, if_neg fun h => hlt (lt_def.mpr h)]

/-- **The bytes of a page** are those of the segment, and zeros around them. -/
theorem getByte_pageTable {off : Nat} (hoff : off < 4096) :
    getByte (pageTable file ph vaddr virt) off =
      if vaddr.toNat ≤ virt.toNat + off ∧ virt.toNat + off < vaddr.toNat + ph.filesz.toNat then
        file.bytes (ph.offset.toNat + (virt.toNat + off - vaddr.toNat)) else 0#8 := by
  have hpage := pageCopy_eq hvirt hseg
  unfold pageTable
  by_cases hcopy : max virt.toNat vaddr.toNat <
      min (vaddr.toNat + ph.filesz.toNat) (virt.toNat + 4096)
  · rw [if_pos hcopy] at hpage
    rw [hpage]
    have hfit : max virt.toNat vaddr.toNat - virt.toNat +
        (min (vaddr.toNat + ph.filesz.toNat) (virt.toNat + 4096) -
          max virt.toNat vaddr.toNat) ≤ 4096 := by
      omega
    rw [getByte_copyBytes _ hfit _ hoff, getByte_emptyTable]
    by_cases hin : vaddr.toNat ≤ virt.toNat + off ∧
        virt.toNat + off < vaddr.toNat + ph.filesz.toNat
    · rw [if_pos hin, if_pos (by omega), File.bytes, BitVec.add_assoc, ← ofNat_add]
      have hsum : max virt.toNat vaddr.toNat - vaddr.toNat +
          (off - (max virt.toNat vaddr.toNat - virt.toNat)) = virt.toNat + off - vaddr.toNat := by
        omega
      rw [hsum, ofNat_add, ofNat_toNat, setWidth_eq]
    · rw [if_neg hin, if_neg (by omega)]
  · rw [if_neg hcopy] at hpage
    rw [hpage, getByte_emptyTable, if_neg (by omega)]

end

/-! ## Files -/

/-- The lowest address of a segment of `PT_LOAD`. -/
structure Lowest (file : File) (low : BitVec 64) : Prop where
  has : ∃ i < file.phnum.toNat, (file.phdr i).load = true ∧ (file.phdr i).vaddr = low
  le : ∀ i < file.phnum.toNat, (file.phdr i).load = true → low ≤ (file.phdr i).vaddr

/-- A file of ELF64 whose segments are inside of it and do not overlap. -/
structure Valid (file : File) (size : BitVec 32) : Prop where
  header : (elfCheckHeader file).1 = true
  phentsize : file.phentsize = 56#16
  table : file.phoff.toNat + 56 * file.phnum.toNat ≤ size.toNat
  inFile : ∀ i < file.phnum.toNat, (file.phdr i).load = true →
    (file.phdr i).offset.toNat + (file.phdr i).filesz.toNat ≤ size.toNat
  sizes : ∀ i < file.phnum.toNat, (file.phdr i).load = true →
    (file.phdr i).filesz.toNat ≤ (file.phdr i).memsz.toNat
  ends : ∀ i < file.phnum.toNat, (file.phdr i).load = true →
    (file.phdr i).vaddr.toNat + (file.phdr i).memsz.toNat ≤ 2 ^ 38
  apart : ∀ i < file.phnum.toNat, ∀ j < file.phnum.toNat, i ≠ j → (file.phdr i).load = true →
    (file.phdr j).load = true → Disjoint
      (Set.Ico (file.phdr i).vaddr.toNat ((file.phdr i).vaddr.toNat + (file.phdr i).memsz.toNat))
      (Set.Ico (file.phdr j).vaddr.toNat ((file.phdr j).vaddr.toNat + (file.phdr j).memsz.toNat))

/-- The byte that a segment has at its place `k`. -/
def segmentByte (file : File) (i k : Nat) : BitVec 8 :=
  if k < (file.phdr i).filesz.toNat then file.bytes ((file.phdr i).offset.toNat + k) else 0#8

/-- **The image in memory**: every byte of every segment is at its address. -/
def ImageRight (file : File) (root : Frame) (r : Loaded) : Prop :=
  ∀ low, Lowest file low → r.entry = file.entry + (0x40000000#64 - low) ∧
    ∀ i < file.phnum.toNat, (file.phdr i).load = true → ∀ k < (file.phdr i).memsz.toNat,
      userByte r.machine root
          ((file.phdr i).vaddr + (0x40000000#64 - low) + BitVec.ofNat 64 k) =
        some (segmentByte file i k)

/-- How far from the lowest address a segment starts. -/
def rise (file : File) (low : BitVec 64) (i : Nat) : Nat :=
  (file.phdr i).vaddr.toNat - low.toNat

/-- A place at distance `a` from the lowest address is in a page of segment `j`. -/
def InPages (file : File) (low : BitVec 64) (j a : Nat) : Prop :=
  (file.phdr j).load = true ∧ (file.phdr j).memsz ≠ 0#64 ∧
    rise file low j / 4096 ≤ a / 4096 ∧
    a / 4096 * 4096 < rise file low j + (file.phdr j).memsz.toNat

/-- Bytes of the file that lie in a page of a later segment are zeros. -/
def Unreplaced (file : File) : Prop :=
  ∀ low, Lowest file low → ∀ i j, i < j → j < file.phnum.toNat → (file.phdr i).load = true →
    ∀ k < (file.phdr i).filesz.toNat, InPages file low j (rise file low i + k) →
      file.bytes ((file.phdr i).offset.toNat + k) = 0#8

section Addresses

theorem foldl_minStep (file : File) (is : List Nat) (a : BitVec 64) :
    is.foldl (minStep file) a ≤ a ∧
      (∀ i ∈ is, (file.phdr i).load = true → is.foldl (minStep file) a ≤ (file.phdr i).vaddr) ∧
      (is.foldl (minStep file) a = a ∨
        ∃ i ∈ is, (file.phdr i).load = true ∧ is.foldl (minStep file) a = (file.phdr i).vaddr) := by
  induction is generalizing a with
  | nil => exact ⟨BitVec.le_refl a, nofun, .inl rfl⟩
  | cons i is ih =>
    rw [foldl_cons]
    obtain ⟨hle, hall, hfrom⟩ := ih (minStep file a i)
    have hstep : minStep file a i ≤ a ∧
        ((file.phdr i).load = true → minStep file a i ≤ (file.phdr i).vaddr) ∧
        (minStep file a i = a ∨
          (file.phdr i).load = true ∧ minStep file a i = (file.phdr i).vaddr) := by
      unfold minStep
      split
      · next h =>
        rw [Bool.and_eq_true, decide_eq_true_eq] at h
        exact ⟨BitVec.le_of_lt h.2, fun _ => BitVec.le_refl _, .inr ⟨h.1, rfl⟩⟩
      · next h =>
        rw [Bool.and_eq_true, decide_eq_true_eq] at h
        exact ⟨BitVec.le_refl a, fun hload => BitVec.not_lt.mp fun hlt => h ⟨hload, hlt⟩, .inl rfl⟩
    refine ⟨BitVec.le_trans hle hstep.1, ?_, ?_⟩
    · intro j hj hload
      rcases mem_cons.mp hj with rfl | hj
      · exact BitVec.le_trans hle (hstep.2.1 hload)
      · exact hall j hj hload
    · rcases hfrom with hfrom | ⟨j, hj, hload, heq⟩
      · rw [hfrom]
        rcases hstep.2.2 with heq | ⟨hload, heq⟩
        · exact .inl heq
        · exact .inr ⟨i, mem_cons_self, hload, heq⟩
      · exact .inr ⟨j, mem_cons_of_mem i hj, hload, heq⟩

section

variable (hvalid : Valid file size) (hlow : Lowest file low)
include hvalid hlow

/-- The first loop finds the lowest address. -/
theorem minVaddr_eq : minVaddr file = low := by
  obtain ⟨-, hall, hfrom⟩ := foldl_minStep file (List.range file.phnum.toNat)
    (BitVec.allOnes 64)
  obtain ⟨i, hi, hload, rfl⟩ := hlow.has
  have hends := hvalid.ends i hi hload
  have hle := le_def.mp (hall i (mem_range.mpr hi) hload)
  have hones : (BitVec.allOnes 64).toNat = 2 ^ 64 - 1 := toNat_allOnes
  unfold minVaddr
  generalize (List.range file.phnum.toNat).foldl (minStep file) (BitVec.allOnes 64) = m at *
  have hne : m ≠ BitVec.allOnes 64 := by
    rintro rfl
    omega
  rw [if_neg hne]
  obtain ⟨j, hj, hloadj, rfl⟩ := hfrom.resolve_left hne
  have hge := le_def.mp (hlow.le j (mem_range.mp hj) hloadj)
  exact eq_of_toNat_eq (le_antisymm hle hge)

theorem loadAddr_eq (i : Nat) : loadAddr file i = (file.phdr i).vaddr + (0x40000000#64 - low) := by
  rw [loadAddr, base, minVaddr_eq hvalid hlow]

section

variable (hi : i < file.phnum.toNat)
include hi

/-- The addresses of a segment in memory. -/
theorem toNat_loadAddr (hload : (file.phdr i).load = true) :
    (loadAddr file i).toNat = 2 ^ 30 + rise file low i ∧
      rise file low i + (file.phdr i).memsz.toNat ≤ 2 ^ 38 := by
  have hends := hvalid.ends i hi hload
  have hle := le_def.mp (hlow.le i hi hload)
  rw [loadAddr_eq hvalid hlow, rise]
  generalize (file.phdr i).vaddr = v at *
  constructor
  · rw [toNat_add, toNat_sub, show (0x40000000#64).toNat = 2 ^ 30 from rfl]
    omega
  · omega

/-- The pages of a segment have addresses below `2 ^ 39`. -/
theorem toNat_pages_le (hload : (file.phdr i).load = true) :
    (loadAddr file i &&& ~~~4095#64).toNat = 2 ^ 30 + rise file low i / 4096 * 4096 ∧
      numPages (file.phdr i) (loadAddr file i) =
        (rise file low i + (file.phdr i).memsz.toNat + 4095) / 4096 - rise file low i / 4096 := by
  obtain ⟨hvaddr, hle⟩ := toNat_loadAddr hvalid hlow hi hload
  have hstart : (loadAddr file i &&& ~~~4095#64).toNat =
      2 ^ 30 + rise file low i / 4096 * 4096 := by
    rw [toNat_and_not_mask]
    omega
  have hend : (loadAddr file i + (file.phdr i).memsz).toNat =
      2 ^ 30 + rise file low i + (file.phdr i).memsz.toNat := by
    rw [toNat_add, hvaddr, mod_eq_of_lt (by omega)]
  have hup := toNat_pageUp (x := loadAddr file i + (file.phdr i).memsz) (by omega)
  refine ⟨hstart, ?_⟩
  rw [numPages, toNat_sub_of_le (le_def.mpr (by omega)), hup]
  generalize rise file low i = a at *
  generalize (file.phdr i).memsz.toNat = m at *
  omega

theorem fits : Fits file i := by
  intro hload _
  obtain ⟨-, hle⟩ := toNat_loadAddr hvalid hlow hi hload
  obtain ⟨hstart, hnum⟩ := toNat_pages_le hvalid hlow hi hload
  generalize rise file low i = a at *
  generalize (file.phdr i).memsz.toNat = m at *
  omega

theorem mem_segmentPages {w : BitVec 64} :
    w ∈ segmentPages file i ↔ ∃ a, w.toNat = 2 ^ 30 + a ∧ a % 4096 = 0 ∧ InPages file low i a := by
  rw [segmentPages]
  by_cases hpages : (file.phdr i).load = true ∧ (file.phdr i).memsz ≠ 0#64
  · obtain ⟨-, hle⟩ := toNat_loadAddr hvalid hlow hi hpages.1
    obtain ⟨hstart, hnum⟩ := toNat_pages_le hvalid hlow hi hpages.1
    rw [if_pos hpages, mem_pagesFrom (by omega)]
    constructor
    · rintro ⟨k, hk, hw⟩
      refine ⟨rise file low i / 4096 * 4096 + 4096 * k, by omega, by omega, hpages.1, hpages.2, ?_⟩
      omega
    · rintro ⟨a, hw, hal, -, -, hge, hlt⟩
      exact ⟨a / 4096 - rise file low i / 4096, by omega, by omega⟩
  · rw [if_neg hpages]
    constructor
    · nofun
    · rintro ⟨a, -, -, hload, hmemsz, -⟩
      exact absurd ⟨hload, hmemsz⟩ hpages

end

end

end Addresses

/-! ## The image -/

section Image

variable {k a : Nat}

/-- Of the segments with a page at `a` one is the last. -/
theorem exists_last (hi : i < file.phnum.toNat) (hin : InPages file low i a) :
    ∃ j, i ≤ j ∧ j < file.phnum.toNat ∧ InPages file low j a ∧
      ∀ j' < file.phnum.toNat, j < j' → ¬InPages file low j' a := by
  classical
  let p : Nat → Prop := fun j => j < file.phnum.toNat ∧ InPages file low j a
  have hp : p (findGreatest p file.phnum.toNat) :=
    findGreatest_spec (P := p) hi.le ⟨hi, hin⟩
  refine ⟨_, le_findGreatest hi.le ⟨hi, hin⟩, hp.1, hp.2, ?_⟩
  intro j' hj' hlt hin'
  exact findGreatest_is_greatest hlt hj'.le ⟨hj', hin'⟩

section

variable (hvalid : Valid file size) (hlow : Lowest file low)
include hvalid hlow

/-- The address of the byte `k` of segment `i`. -/
theorem toNat_imageAddr (hi : i < file.phnum.toNat) (hload : (file.phdr i).load = true)
    (hk : k < (file.phdr i).memsz.toNat) :
    (loadAddr file i + BitVec.ofNat 64 k).toNat = 2 ^ 30 + (rise file low i + k) := by
  obtain ⟨hvaddr, hle⟩ := toNat_loadAddr hvalid hlow hi hload
  rw [toNat_add, hvaddr, toNat_ofNat, mod_eq_of_lt (a := k) (by omega),
    mod_eq_of_lt (by omega), add_assoc]

section

variable (h : PageTree s root)
    (hok : (loadSegments root file (List.range file.phnum.toNat) s).ok = true)
    (hi : i < file.phnum.toNat)
include h hok hi

theorem userByte_last (hin : InPages file low i a)
    (hlast : ∀ j < file.phnum.toNat, i < j → ¬InPages file low j a) (hv : v.toNat = 2 ^ 30 + a) :
    userByte (loadSegments root file (List.range file.phnum.toNat) s).machine root v =
      some (if rise file low i ≤ a ∧ a < rise file low i + (file.phdr i).filesz.toNat then
          file.bytes ((file.phdr i).offset.toNat + (a - rise file low i)) else 0#8) := by
  obtain ⟨hload, hmemsz, hge, hlt⟩ := hin
  obtain ⟨hvaddr, hle⟩ := toNat_loadAddr hvalid hlow hi hload
  have hsizes := hvalid.sizes i hi hload
  have hw : (v &&& ~~~4095#64).toNat = 2 ^ 30 + a / 4096 * 4096 := by
    rw [toNat_and_not_mask]
    omega
  have hmem : v &&& ~~~4095#64 ∈ segmentPages file i := by
    refine (mem_segmentPages hvalid hlow hi).mpr
      ⟨a / 4096 * 4096, hw, Nat.mul_mod_left _ _, hload, hmemsz, ?_, ?_⟩
    · rw [Nat.mul_div_cancel _ (by decide)]
      exact hge
    · rw [Nat.mul_div_cancel _ (by decide)]
      exact hlt
  have hother : ∀ j ∈ List.range file.phnum.toNat, i < j → ∀ w' ∈ segmentPages file j,
      path (v &&& ~~~4095#64) ≠ path w' := by
    intro j hj hij w' hw' heq
    have hj' := mem_range.mp hj
    obtain ⟨a', ha', hal, hload', hmemsz', hge', hlt'⟩ :=
      (mem_segmentPages hvalid hlow hj').mp hw'
    obtain ⟨-, hle'⟩ := toNat_loadAddr hvalid hlow hj' hload'
    rw [path_eq_iff] at heq
    have hpage : a' / 4096 = a / 4096 := by omega
    refine hlast j hj' hij ⟨hload', hmemsz', ?_, ?_⟩
    · rw [← hpage]
      exact hge'
    · rw [← hpage]
      exact hlt'
  have hgrounds : Grounds root bare s := ⟨h, nofun, nofun⟩
  obtain ⟨-, hshows⟩ := loadSegments_shows hgrounds pairwise_lt_range
    (fun j hj => fits hvalid hlow (mem_range.mp hj)) hok
  have hpath : path v = path (v &&& ~~~4095#64) := by
    rw [path_eq_iff]
    omega
  rw [(hshows i (mem_range.mpr hi) _ hmem hother).userByte_at hpath,
    getByte_pageTable (by omega) (by omega) (Nat.mod_lt _ (by decide)), hw, hvaddr, hv]
  have hsum : 2 ^ 30 + a / 4096 * 4096 + (2 ^ 30 + a) % 4096 = 2 ^ 30 + a := by omega
  rw [hsum, Nat.add_sub_add_left]
  by_cases hc : rise file low i ≤ a ∧ a < rise file low i + (file.phdr i).filesz.toNat
  · rw [if_pos hc, if_pos (by omega)]
  · rw [if_neg hc, if_neg (by omega)]

/-- **What is left of segment `i`**: its bytes, or zeros where a later segment has the page. -/
theorem userByte_image (hload : (file.phdr i).load = true) (hk : k < (file.phdr i).memsz.toNat) :
    (∀ j < file.phnum.toNat, i < j → InPages file low j (rise file low i + k) →
      userByte (loadSegments root file (List.range file.phnum.toNat) s).machine root
        (loadAddr file i + BitVec.ofNat 64 k) = some 0#8) ∧
    ((∀ j < file.phnum.toNat, i < j → ¬InPages file low j (rise file low i + k)) →
      userByte (loadSegments root file (List.range file.phnum.toNat) s).machine root
        (loadAddr file i + BitVec.ofNat 64 k) = some (segmentByte file i k)) := by
  have hv := toNat_imageAddr hvalid hlow hi hload hk
  have hne : (file.phdr i).memsz ≠ 0#64 := by
    intro h0
    rw [h0] at hk
    exact absurd hk (Nat.not_lt_zero k)
  constructor
  · intro j hj hij hin
    obtain ⟨j', hjj', hj', hin', hlast⟩ := exists_last hj hin
    have hdisjoint := hvalid.apart i hi j' hj' (by omega) hload hin'.1
    have hout : (file.phdr i).vaddr.toNat + k ∉
        Set.Ico (file.phdr j').vaddr.toNat
          ((file.phdr j').vaddr.toNat + (file.phdr j').memsz.toNat) :=
      Set.disjoint_left.mp hdisjoint ⟨by omega, by omega⟩
    rw [Set.mem_Ico] at hout
    have hsizes := hvalid.sizes j' hj' hin'.1
    have hlei := le_def.mp (hlow.le i hi hload)
    have hlej := le_def.mp (hlow.le j' hj' hin'.1)
    rw [userByte_last hvalid hlow h hok hj' hin' hlast hv, if_neg]
    rw [rise, rise]
    omega
  · intro hlast
    have hin : InPages file low i (rise file low i + k) :=
      ⟨hload, hne, Nat.div_le_div_right (Nat.le_add_right _ _), by omega⟩
    rw [userByte_last hvalid hlow h hok hi hin hlast hv, segmentByte, Nat.add_sub_cancel_left]
    by_cases hc : k < (file.phdr i).filesz.toNat
    · rw [if_pos hc, if_pos (by omega)]
    · rw [if_neg hc, if_neg (by omega)]

end

end

end Image

theorem elfLoad_loaded {s : Machine} {root : Frame} (hentry : (elfLoad s root file).entry ≠ 0#64) :
    (loadSegments root file (List.range file.phnum.toNat) s).ok = true ∧
      (elfLoad s root file).entry = file.entry + base file ∧ (elfLoad s root file).machine =
        (loadSegments root file (List.range file.phnum.toNat) s).machine := by
  unfold elfLoad at hentry ⊢
  dsimp only at hentry ⊢
  cases hcheck : (elfCheckHeader file).1 with
  | false =>
    rw [hcheck] at hentry
    exact absurd rfl hentry
  | true =>
    rw [hcheck] at hentry
    by_cases hok : (loadSegments root file (List.range file.phnum.toNat) s).ok = true
    · rw [hok]
      exact ⟨rfl, rfl, rfl⟩
    · rw [Bool.not_eq_true] at hok
      rw [hok] at hentry
      exact absurd rfl hentry

/-- **The image of a program** is right exactly if no byte of a segment other than zero is
in a page of a later segment. -/
theorem elf_image {s : Machine} {root : Frame} {file : File} {size : BitVec 32}
    (hvalid : Valid file size) (h : PageTree s root) (hentry : (elfLoad s root file).entry ≠ 0#64) :
    ImageRight file root (elfLoad s root file) ↔ Unreplaced file := by
  obtain ⟨hok, hentryEq, hmachine⟩ := elfLoad_loaded hentry
  unfold ImageRight Unreplaced
  rw [hentryEq, hmachine]
  constructor
  · intro hright low hlow i j hij hj hload k hk hin
    have hi : i < file.phnum.toNat := by omega
    have hkm : k < (file.phdr i).memsz.toNat := hk.trans_le (hvalid.sizes i hi hload)
    have himage := (hright low hlow).2 i hi hload k hkm
    rw [← loadAddr_eq hvalid hlow, (userByte_image hvalid hlow h hok hi hload hkm).1 j hj hij hin,
      segmentByte, if_pos hk] at himage
    exact (Option.some.inj himage).symm
  · intro hzero low hlow
    refine ⟨by rw [base, minVaddr_eq hvalid hlow], ?_⟩
    intro i hi hload k hk
    obtain ⟨hreplaced, hkept⟩ := userByte_image hvalid hlow h hok hi hload hk
    rw [← loadAddr_eq hvalid hlow]
    by_cases hlast : ∃ j < file.phnum.toNat, i < j ∧ InPages file low j (rise file low i + k)
    · obtain ⟨j, hj, hij, hin⟩ := hlast
      rw [hreplaced j hj hij hin, segmentByte]
      by_cases hc : k < (file.phdr i).filesz.toNat
      · rw [if_pos hc, hzero low hlow i j hij hj hload k hc hin]
      · rw [if_neg hc]
    · exact hkept fun j hj hij hin => hlast ⟨j, hj, hij, hin⟩

/-- A program header of `PT_LOAD` for the first bytes of the file at an address. -/
def segmentHeader (vaddr size : BitVec 64) : List (BitVec 64) :=
  [0x700000001#64, 0#64, vaddr, 0#64, size, size, 0#64]

/-- A file with two segments of `size` bytes, at 0 and at `vaddr`, as words of eight bytes. -/
def imageFile (vaddr size : BitVec 64) : File := fun i =>
  let words := [0x102464C457F#64, 0#64, 0x3E0002#64, 0#64, 64#64, 0#64, 0x38000000000000#64, 2#64] ++
    segmentHeader 0#64 size ++ segmentHeader vaddr size
  (words.getD (i.toNat / 8) 0#64).extractLsb' (8 * (i.toNat % 8)) 8

/-- The conditions on a file, for a loop over its headers. -/
theorem Valid.of_checks {size : BitVec 32} {n : Nat} (hn : file.phnum.toNat = n)
    (header : (elfCheckHeader file).1 = true) (phentsize : file.phentsize = 56#16)
    (table : file.phoff.toNat + 56 * n ≤ size.toNat) (segments : ∀ i < n,
      (file.phdr i).offset.toNat + (file.phdr i).filesz.toNat ≤ size.toNat ∧
      (file.phdr i).filesz.toNat ≤ (file.phdr i).memsz.toNat ∧
      (file.phdr i).vaddr.toNat + (file.phdr i).memsz.toNat ≤ 2 ^ 38)
    (pairs : ∀ i < n, ∀ j < n, i ≠ j → min ((file.phdr i).vaddr.toNat + (file.phdr i).memsz.toNat)
          ((file.phdr j).vaddr.toNat + (file.phdr j).memsz.toNat) ≤
        max (file.phdr i).vaddr.toNat (file.phdr j).vaddr.toNat) : Valid file size := by
  subst hn
  refine ⟨header, phentsize, table, ?_, ?_, ?_, ?_⟩
  · exact fun i hi _ => (segments i hi).1
  · exact fun i hi _ => (segments i hi).2.1
  · exact fun i hi _ => (segments i hi).2.2
  · exact fun i hi j hj hij _ _ => Set.Ico_disjoint_Ico.mpr (pairs i hi j hj hij)

theorem imageFile_apart_valid : Valid (imageFile 0x1000#64 20#64) 176#32 :=
  .of_checks (n := 2) (by decide +kernel) (by decide +kernel) (by decide +kernel)
    (by decide +kernel) (by decide +kernel) (by decide +kernel)

theorem imageFile_shared_valid : Valid (imageFile 1#64 1#64) 176#32 :=
  .of_checks (n := 2) (by decide +kernel) (by decide +kernel) (by decide +kernel)
    (by decide +kernel) (by decide +kernel) (by decide +kernel)

/-- Two segments of 20 bytes in pages of their own. -/
theorem elf_image_two_segments : ImageRight (imageFile 0x1000#64 20#64) 1#40
    (elfLoad emptyMachine 1#40 (imageFile 0x1000#64 20#64)) := by
  refine (elf_image imageFile_apart_valid emptyMachine_tree (by decide +kernel)).mpr ?_
  intro low hlow i j hij hj _ k hk hin
  have hphnum : (imageFile 0x1000#64 20#64).phnum.toNat = 2 := by decide +kernel
  obtain ⟨rfl, rfl⟩ : i = 0 ∧ j = 1 := by omega
  have hzero : low.toNat ≤ 0 := hlow.le 0 (by decide +kernel) (by decide +kernel)
  have hk : k < 20 := hk
  have hpage : (0x1000 - low.toNat) / 4096 ≤ (0 - low.toNat + k) / 4096 := hin.2.2.1
  omega

/-- **Two segments in one page**: the second one takes the page, and the byte of the first
one is gone. -/
theorem shared_page_replaced : Valid (imageFile 1#64 1#64) 176#32 ∧ PageTree emptyMachine 1#40 ∧
      (elfLoad emptyMachine 1#40 (imageFile 1#64 1#64)).entry ≠ 0#64 ∧
      ¬ImageRight (imageFile 1#64 1#64) 1#40 (elfLoad emptyMachine 1#40 (imageFile 1#64 1#64)) := by
  refine ⟨imageFile_shared_valid, emptyMachine_tree, by decide +kernel, ?_⟩
  intro hright
  have hlow : Lowest (imageFile 1#64 1#64) 0#64 :=
    ⟨⟨0, by decide +kernel, by decide +kernel, by decide +kernel⟩,
      fun i _ _ => le_def.mpr (zero_le _)⟩
  have hbyte := (hright 0#64 hlow).2 0 (by decide +kernel) (by decide +kernel) 0 (by decide +kernel)
  have hfirst : segmentByte (imageFile 1#64 1#64) 0 0 = 0x7F#8 := by decide +kernel
  exact absurd hbyte (by decide)

end Utms7.Elf
