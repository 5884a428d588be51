import Utms7.Elf
import Utms7.HeapGrowth

/-!
# What the loader reads

Nothing in `elf_load` keeps its reads inside of the file: the program headers are
wherever `e_phoff` and `e_phentsize` say, and the bytes of a segment wherever its
`p_offset` says.  The reads are all inside if the file says nothing wrong, and a load
that does not run out of pages has made all of them.
-/

namespace Utms7.Elf

open Paging ByteMemory List BitVec Nat

variable {s : Machine} {root : Frame} {file : File} {size : BitVec 32} {o vaddr virt : BitVec 64}
  {n i : Nat} {ph : Phdr} {r : Read}

/-- All the bytes of a read are bytes of the file. -/
def Read.InFile (size : BitVec 32) (r : Read) : Prop :=
  ∀ k < r.2, (r.1 + BitVec.ofNat 64 k).toNat < size.toNat

theorem inFile_iff (hn : 0 < n) : Read.InFile size (o, n) ↔ o.toNat + n ≤ size.toNat := by
  have hsum : ∀ k, o.toNat + k < 2 ^ 64 → (o + BitVec.ofNat 64 k).toNat = o.toNat + k := by
    intro k hk
    rw [toNat_add, toNat_ofNat, mod_eq_of_lt (a := k) (by omega), mod_eq_of_lt hk]
  constructor
  · intro h
    have hfirst := h 0 hn
    by_contra hlong
    -- The byte right behind the file.
    have hbehind := h (size.toNat - o.toNat) (by dsimp only; omega)
    rw [hsum _ (by omega)] at hbehind
    omega
  · intro h k hk
    rw [hsum k (by omega)]
    omega

/-- The bytes of the header that are read: up to the first test that fails, or with all the
fields that lead to the program headers. -/
def headerEnd (file : File) : Nat :=
  if getU32 file.bytes 0 ≠ 0x464C457F#32 then 4
  else if file.bytes 4 ≠ 2#8 then 5
  else if file.bytes 5 ≠ 1#8 then 6
  else if file.type ≠ 2#16 ∧ file.type ≠ 3#16 then 18
  else if file.machine ≠ 0x3E#16 then 20
  else 58

/-- Where the last page ends of a segment of `memsz` bytes at address `v`; pages that wrap
around end with the address space. -/
def pagesEnd (v memsz : Nat) : Nat :=
  let stop := (v + memsz + 4095) % 2 ^ 64 / 4096 * 4096
  if v / 4096 * 4096 ≤ stop then stop else 2 ^ 64

/-- How many of the `filesz` bytes of a segment are copied: those that fall in its pages, the
last page of the address space apart, and none if they do not end in the address space. -/
def segmentBytes (v filesz memsz : Nat) : Nat :=
  if v + filesz < 2 ^ 64 then min filesz (min (pagesEnd v memsz) (2 ^ 64 - 4096) - v) else 0

/-- The segment is to be loaded below `0x10000`, where `elf_load` gives up. -/
def Low (file : File) (i : Nat) : Prop :=
  (file.phdr i).load = true ∧ (file.phdr i).memsz ≠ 0#64 ∧
    (file.phdr i).vaddr + base file < 0x10000#64

instance (file : File) (i : Nat) : Decidable (Low file i) :=
  inferInstanceAs (Decidable (_ ∧ _ ∧ _))

/-- What the first loop reads of a program header is inside of the file. -/
structure HeaderInside (file : File) (size : BitVec 32) (i : Nat) : Prop where
  type : (file.phdrOffset i).toNat + 4 ≤ size.toNat
  vaddr : (file.phdr i).load = true → (file.phdrOffset i).toNat + 24 ≤ size.toNat

/-- What the second loop reads of a program header, and of its segment. -/
structure SegmentInside (file : File) (size : BitVec 32) (i : Nat) : Prop where
  fields : (file.phdr i).load = true → (file.phdrOffset i).toNat + 48 ≤ size.toNat
  bytes : (file.phdr i).load = true → (file.phdr i).memsz ≠ 0#64 → ¬Low file i →
    Read.InFile size ((file.phdr i).offset, segmentBytes ((file.phdr i).vaddr + base file).toNat
      (file.phdr i).filesz.toNat (file.phdr i).memsz.toNat)

/-- The headers and all that they refer to is inside of the file, up to the first segment that
is too low. -/
structure Inside (file : File) (size : BitVec 32) : Prop where
  header : headerEnd file ≤ size.toNat
  headers : (elfCheckHeader file).1 = true → ∀ i < file.phnum.toNat, HeaderInside file size i
  segments : (elfCheckHeader file).1 = true → ∀ i < file.phnum.toNat, (∀ j < i, ¬Low file j) →
    SegmentInside file size i

/-- All reads are inside of the file. -/
def InBounds (size : BitVec 32) (reads : List Read) : Prop := ∀ r ∈ reads, r.InFile size

theorem inBounds_append {reads reads' : List Read} :
    InBounds size (reads ++ reads') ↔ InBounds size reads ∧ InBounds size reads' :=
  forall_mem_append

theorem inBounds_cons {reads : List Read} :
    InBounds size (r :: reads) ↔ r.InFile size ∧ InBounds size reads := forall_mem_cons

theorem inBounds_nil : InBounds size [] := nofun

/-! ## Headers -/

theorem field_inFile (h : 58 ≤ size.toNat) (hfit : o.toNat + n ≤ 58) : Read.InFile size (o, n) := by
  cases n with
  | zero => exact nofun
  | succ n => exact (inFile_iff (succ_pos n)).mpr (hfit.trans h)

/-- **What `elf_check_header` reads.** -/
theorem check_inBounds : ((elfCheckHeader file).1 = false →
      (InBounds size (elfCheckHeader file).2 ↔ headerEnd file ≤ size.toNat)) ∧
    ((elfCheckHeader file).1 = true →
      headerEnd file = 58 ∧ (58 ≤ size.toNat → InBounds size (elfCheckHeader file).2)) := by
  simp only [elfCheckHeader, headerTests, headerEnd]
  by_cases hmagic : getU32 file.bytes 0 = 0x464C457F#32
  swap
  · simp [runTests, hmagic, inBounds_cons, inBounds_nil, inFile_iff]
  by_cases hclass : file.bytes 4 = 2#8
  swap
  · simp [runTests, hmagic, hclass, inBounds_cons, inBounds_nil, inFile_iff]
    omega
  by_cases hdata : file.bytes 5 = 1#8
  swap
  · simp [runTests, hmagic, hclass, hdata, inBounds_cons, inBounds_nil, inFile_iff]
    omega
  by_cases htype : file.type = 2#16 ∨ file.type = 3#16
  swap
  · have htype : file.type ≠ 2#16 ∧ file.type ≠ 3#16 :=
      ⟨fun h => htype (.inl h), fun h => htype (.inr h)⟩
    simp [runTests, hmagic, hclass, hdata, htype, inBounds_cons, inBounds_nil, inFile_iff]
    omega
  have htype' : ¬(file.type ≠ 2#16 ∧ file.type ≠ 3#16) := fun h => htype.elim h.1 h.2
  by_cases hmachine : file.machine = 0x3E#16
  · simp [runTests, hmagic, hclass, hdata, htype, htype', hmachine, inBounds_cons, inBounds_nil,
      inFile_iff]
    omega
  · simp [runTests, hmagic, hclass, hdata, htype, htype', hmachine, inBounds_cons, inBounds_nil,
      inFile_iff]
    omega

/-- A field of a program header. -/
theorem phdr_field_inFile {c : BitVec 64} {m : Nat} (h : o.toNat + m ≤ size.toNat)
    (hfit : c.toNat + n ≤ m) : Read.InFile size (o + c, n) := by
  cases n with
  | zero => exact nofun
  | succ n =>
    refine (inFile_iff (succ_pos n)).mpr ?_
    rw [toNat_add]
    omega

/-- A header whose type and another field are inside is inside as far as that field. -/
theorem inside_of_field {c : BitVec 64} (hc : c.toNat ≤ 40) (htype : o.toNat + 4 ≤ size.toNat)
    (h : Read.InFile size (o + c, 8)) : o.toNat + c.toNat + 8 ≤ size.toNat := by
  rw [inFile_iff (by decide), toNat_add] at h
  omega

theorem phdrReads_inBounds (h : 58 ≤ size.toNat) :
    InBounds size (phdrReads file i) ↔ (file.phdrOffset i).toNat + 4 ≤ size.toNat := by
  rw [phdrReads, inBounds_cons, inBounds_cons, inBounds_cons, inBounds_cons,
    inFile_iff (o := file.phdrOffset i) (by decide)]
  have hphnum : Read.InFile size (56#64, 2) := field_inFile h (by decide)
  have hphoff : Read.InFile size (32#64, 8) := field_inFile h (by decide)
  have hphentsize : Read.InFile size (54#64, 2) := field_inFile h (by decide)
  exact ⟨fun hall => hall.2.2.2.1, fun hoff => ⟨hphnum, hphoff, hphentsize, hoff, inBounds_nil⟩⟩

theorem minReads_inBounds (h : 58 ≤ size.toNat) :
    InBounds size (minReads file) ↔ ∀ i < file.phnum.toNat, HeaderInside file size i := by
  constructor
  · intro hreads i hi
    have hall := fun r hr => hreads r (mem_flatMap.mpr ⟨i, mem_range.mpr hi, hr⟩)
    obtain ⟨hphdr, hvaddr⟩ := inBounds_append.mp hall
    have htype := (phdrReads_inBounds h).mp hphdr
    refine ⟨htype, fun hload => ?_⟩
    rw [if_pos hload] at hvaddr
    exact inside_of_field (by decide) htype (inBounds_cons.mp hvaddr).1
  · intro hinside r hr
    obtain ⟨i, hi, hr⟩ := mem_flatMap.mp hr
    obtain ⟨htype, hvaddr⟩ := hinside i (mem_range.mp hi)
    rcases mem_append.mp hr with hr | hr
    · exact (phdrReads_inBounds h).mpr htype r hr
    split at hr
    · next hload =>
      rw [mem_singleton.mp hr]
      exact phdr_field_inFile (hvaddr hload) (by decide)
    · cases hr

/-! ## Segments -/

/-- Byte `k` of a segment at `v` is copied to a page among the `n` from `virt` on.  Addresses
are compared by their distance from `virt`, as the pages may wrap around. -/
def Copied (v filesz virt n k : Nat) : Prop :=
  k < filesz ∧ v + filesz < 2 ^ 64 ∧ (v + k + (2 ^ 64 - virt)) % 2 ^ 64 < 4096 * n ∧
    v + k < 2 ^ 64 - 4096

/-- The bytes that are copied to these pages are inside of the file. -/
def CopiesInside (size : BitVec 32) (ph : Phdr) (vaddr virt : BitVec 64) (n : Nat) : Prop :=
  ∀ k, Copied vaddr.toNat ph.filesz.toNat virt.toNat n k →
    (ph.offset + BitVec.ofNat 64 k).toNat < size.toNat

theorem toNat_ite_lt (a b : BitVec 64) : (if a < b then a else b).toNat = min a.toNat b.toNat := by
  split
  · next h => rw [min_eq_left (lt_def.mp h).le]
  · next h => rw [min_eq_right (Nat.le_of_not_lt h)]

/-- **The reads for a page.** -/
theorem pageReads_inBounds (ho : o.toNat + 48 ≤ size.toNat) (halign : virt.toNat % 4096 = 0) :
    InBounds size (pageReads o ph vaddr virt) ↔ CopiesInside size ph vaddr virt 1 := by
  have hstart : (if virt < vaddr then vaddr else virt).toNat = max virt.toNat vaddr.toNat := by
    split
    · next h => rw [max_eq_right (lt_def.mp h).le]
    · next h => rw [max_eq_left (Nat.le_of_not_lt h)]
  have hstop := toNat_ite_lt (vaddr + ph.filesz) (virt + 4096#64)
  rw [toNat_add, toNat_add, show (4096#64).toNat = 4096 from rfl] at hstop
  unfold pageReads pageCopy
  dsimp only
  generalize (if virt < vaddr then vaddr else virt) = a at *
  generalize (if vaddr + ph.filesz < virt + 4096#64 then _ else _) = b at *
  have hv := vaddr.isLt
  have hf := ph.filesz.isLt
  have hw := virt.isLt
  unfold CopiesInside Copied
  by_cases hlt : a < b
  · rw [if_pos hlt]
    have hlt' := lt_def.mp hlt
    have hsource : ∀ k, ph.offset + (a - vaddr) + BitVec.ofNat 64 k =
        ph.offset + BitVec.ofNat 64 (a.toNat - vaddr.toNat + k) := by
      intro k
      have hsub : a - vaddr = BitVec.ofNat 64 (a.toNat - vaddr.toNat) := by
        refine eq_of_toNat_eq ?_
        rw [toNat_sub_of_le (le_def.mpr (by omega)), toNat_ofNat, mod_eq_of_lt (by omega)]
      rw [BitVec.add_assoc, hsub, ← ofNat_add]
    have hsize : (b - a).toNat = b.toNat - a.toNat := toNat_sub_of_le (BitVec.le_of_lt hlt)
    rw [inBounds_cons, inBounds_cons, and_iff_right (phdr_field_inFile ho (by decide)),
      and_iff_left inBounds_nil]
    constructor
    · rintro hall k ⟨hk, hend, hpage, htop⟩
      have hbyte := hall (vaddr.toNat + k - a.toNat) (by dsimp only; omega)
      rwa [hsource, show a.toNat - vaddr.toNat + (vaddr.toNat + k - a.toNat) = k by omega] at hbyte
    · intro hall k hk
      dsimp only at hk
      rw [hsource]
      exact hall _ (by omega)
  · rw [if_neg hlt]
    have hlt' : ¬a.toNat < b.toNat := hlt
    refine iff_of_true inBounds_nil ?_
    rintro k ⟨hk, hend, hpage, htop⟩
    omega

theorem copiesInside_succ (halign : virt.toNat % 4096 = 0) (hn : 4096 * (n + 1) ≤ 2 ^ 64) :
    CopiesInside size ph vaddr virt (n + 1) ↔ CopiesInside size ph vaddr virt 1 ∧
      CopiesInside size ph vaddr (virt + 4096#64) n := by
  have hw := virt.isLt
  have hsplit : ∀ k, Copied vaddr.toNat ph.filesz.toNat virt.toNat (n + 1) k ↔
      Copied vaddr.toNat ph.filesz.toNat virt.toNat 1 k ∨
        Copied vaddr.toNat ph.filesz.toNat (virt + 4096#64).toNat n k := by
    intro k
    rw [toNat_add, show (4096#64).toNat = 4096 from rfl]
    unfold Copied
    omega
  simp only [CopiesInside, hsplit, or_imp, forall_and]

/-- **The loop over the pages of a segment**: a loop that comes to its end has read all
its parts of the file. -/
theorem loadPages_inBounds (ho : o.toNat + 48 ≤ size.toNat) (halign : virt.toNat % 4096 = 0)
    (hn : 4096 * n ≤ 2 ^ 64) : (CopiesInside size ph vaddr virt n →
      InBounds size (loadPages root file o ph vaddr n virt s).reads) ∧
    ((loadPages root file o ph vaddr n virt s).ok = true →
      InBounds size (loadPages root file o ph vaddr n virt s).reads →
      CopiesInside size ph vaddr virt n) := by
  induction n generalizing virt s with
  | zero => exact ⟨fun _ => inBounds_nil, fun _ _ k hk => absurd hk.2.2.1 (by omega)⟩
  | succ n ih =>
    have halign' : (virt + 4096#64).toNat % 4096 = 0 := by
      rw [toNat_add, show (4096#64).toNat = 4096 from rfl]
      omega
    rw [copiesInside_succ halign hn, loadPages]
    cases pmmAllocPage s with
    | none => exact ⟨fun _ => inBounds_nil, nofun⟩
    | some r =>
      dsimp only
      split
      · exact ⟨fun _ => inBounds_nil, nofun⟩
      dsimp only
      rw [inBounds_append, pageReads_inBounds ho halign]
      exact ⟨And.imp_right (ih halign' (by omega)).1,
        fun hok => And.imp_right ((ih halign' (by omega)).2 hok)⟩

/-- The bytes that are copied to the pages of a segment are its first ones. -/
theorem copiesInside_iff :
    CopiesInside size ph vaddr (vaddr &&& ~~~4095#64) (numPages ph vaddr) ↔
      Read.InFile size (ph.offset, segmentBytes vaddr.toNat ph.filesz.toNat ph.memsz.toNat) := by
  refine forall_congr' fun k => imp_congr_left ?_
  have hv := vaddr.isLt
  rw [numPages, pageUp, toNat_sub, toNat_and_not_mask, toNat_and_not_mask, toNat_add, toNat_add,
    show (4095#64).toNat = 4095 from rfl, Copied, segmentBytes, pagesEnd]
  dsimp only
  split
  · split <;> omega
  · omega

theorem pageDown_aligned (x : BitVec 64) : (x &&& ~~~4095#64).toNat % 4096 = 0 := by
  rw [toNat_and_not_mask]
  exact Nat.mul_mod_left _ _

theorem numPages_le (ph : Phdr) (vaddr : BitVec 64) : 4096 * numPages ph vaddr ≤ 2 ^ 64 :=
  (Nat.mul_div_le _ _).trans (BitVec.isLt _).le

theorem segmentReads_inBounds (ho : o.toNat + 48 ≤ size.toNat) {ph : Phdr} :
    InBounds size (segmentReads ph o) := by
  unfold segmentReads
  split
  · exact inBounds_cons.mpr ⟨phdr_field_inFile ho (by decide), inBounds_nil⟩
  · exact inBounds_cons.mpr ⟨phdr_field_inFile ho (by decide), inBounds_cons.mpr
      ⟨phdr_field_inFile ho (by decide), inBounds_cons.mpr
        ⟨phdr_field_inFile ho (by decide), inBounds_nil⟩⟩⟩

section

variable (h : 58 ≤ size.toNat) (htype : (file.phdrOffset i).toNat + 4 ≤ size.toNat)
include h htype

theorem fields_inBounds : InBounds size
      (phdrReads file i ++ segmentReads (file.phdr i) (file.phdrOffset i)) ↔
    (file.phdrOffset i).toNat + 48 ≤ size.toNat := by
  rw [inBounds_append, and_iff_right ((phdrReads_inBounds h).mpr htype)]
  refine ⟨fun hreads => inside_of_field (c := 40#64) (by decide) htype (hreads _ ?_),
    fun ho => segmentReads_inBounds ho⟩
  unfold segmentReads
  split <;> exact mem_cons_self

/-- **One segment**: its reads are inside if it is, and only then unless there is no memory. -/
theorem loadSegment_inBounds :
    (SegmentInside file size i → InBounds size (loadSegment root file i s).reads) ∧
    (Low file i ∨ (loadSegment root file i s).ok = true →
      InBounds size (loadSegment root file i s).reads → SegmentInside file size i) := by
  have hstep := loadSegment_step root file i s
  generalize loadSegment root file i s = r at hstep ⊢
  cases hstep with
  | skipped hload =>
    have hno : (file.phdr i).load ≠ true := by rw [hload]; decide
    exact ⟨fun _ => (phdrReads_inBounds h).mpr htype,
      fun _ _ => ⟨fun hload' => absurd hload' hno, fun hload' => absurd hload' hno⟩⟩
  | empty hload hmemsz =>
    exact ⟨fun hinside => (fields_inBounds h htype).mpr (hinside.fields hload), fun _ hreads =>
      ⟨fun _ => (fields_inBounds h htype).mp hreads, fun _ hne => absurd hmemsz hne⟩⟩
  | low hload hmemsz hlow =>
    exact ⟨fun hinside => (fields_inBounds h htype).mpr (hinside.fields hload), fun _ hreads =>
      ⟨fun _ => (fields_inBounds h htype).mp hreads,
        fun _ _ hhigh => absurd ⟨hload, hmemsz, hlow⟩ hhigh⟩⟩
  | pages hload hmemsz hhigh p hp =>
    have hnot : ¬Low file i := fun hlow => hhigh hlow.2.2
    change (_ → InBounds size (_ ++ p.reads)) ∧ (_ ∨ p.ok = true → InBounds size (_ ++ p.reads) → _)
    rw [inBounds_append, fields_inBounds h htype, hp]
    constructor
    · intro hinside
      have ho := hinside.fields hload
      exact ⟨ho, (loadPages_inBounds ho (pageDown_aligned _) (numPages_le _ _)).1
        (copiesInside_iff.mpr (hinside.bytes hload hmemsz hnot))⟩
    · rintro hserved ⟨ho, hreads⟩
      exact ⟨fun _ => ho, fun _ _ _ => copiesInside_iff.mp
        ((loadPages_inBounds ho (pageDown_aligned _) (numPages_le _ _)).2
          (hserved.resolve_left hnot) hreads)⟩

end

theorem loadSegment_low (h : Low file i) : (loadSegment root file i s).ok ≠ true := by
  obtain ⟨hload, hmemsz, hlow⟩ := h
  simp [loadSegment, hload, hmemsz, hlow]

/-- The segments in front of the first one that is too low. -/
def firstSegments (file : File) (is : List Nat) : List Nat := is.takeWhile (¬Low file ·)

/-- **The loop over segments.** -/
theorem loadSegments_inBounds (h : 58 ≤ size.toNat) {is : List Nat}
    (hsorted : is.Pairwise (· < ·)) (htype : ∀ i ∈ is, HeaderInside file size i) :
    ((∀ i ∈ is, (∀ j ∈ is, j < i → ¬Low file j) → SegmentInside file size i) →
      InBounds size (loadSegments root file is s).reads) ∧
    ((loadSegments root file (firstSegments file is) s).ok = true →
      InBounds size (loadSegments root file is s).reads →
      ∀ i ∈ is, (∀ j ∈ is, j < i → ¬Low file j) → SegmentInside file size i) := by
  induction is generalizing s with
  | nil => exact ⟨fun _ => inBounds_nil, fun _ _ => nofun⟩
  | cons i is ih =>
    obtain ⟨hfirst, hrest⟩ := pairwise_cons.mp hsorted
    have hone := @loadSegment_inBounds s root file size i h (htype i mem_cons_self).type
    have ih := fun s => ih (s := s) hrest fun j hj => htype j (mem_cons_of_mem i hj)
    -- No segment is in front of the first one, and it is in front of all others.
    have hhead : ∀ j ∈ i :: is, j < i → ¬Low file j := by
      intro j hj hlt
      rcases mem_cons.mp hj with rfl | hj
      · exact absurd hlt (lt_irrefl j)
      · exact absurd hlt (hfirst j hj).not_gt
    have htail : ¬Low file i → ∀ k, (∀ j ∈ is, j < k → ¬Low file j) →
        ∀ j ∈ i :: is, j < k → ¬Low file j := by
      intro hlow k hk j hj hlt
      rcases mem_cons.mp hj with rfl | hj
      · exact hlow
      · exact hk j hj hlt
    rw [loadSegments]
    constructor
    · intro hall
      have hreads := hone.1 (hall i mem_cons_self hhead)
      split
      · next hok =>
        refine inBounds_append.mpr ⟨hreads, (ih _).1 fun k hk hbefore => ?_⟩
        refine hall k (mem_cons_of_mem i hk) (htail ?_ k hbefore)
        exact fun hlow => absurd hok (loadSegment_low hlow)
      · exact hreads
    · intro hserved hreads k hk hbefore
      by_cases hlow : Low file i
      · -- The loop has given up here.
        rw [if_neg (loadSegment_low hlow)] at hreads
        rcases mem_cons.mp hk with rfl | hk
        · exact hone.2 (.inl hlow) hreads
        · exact absurd hlow (hbefore i mem_cons_self (hfirst k hk))
      · rw [firstSegments, takeWhile_cons_of_pos (by simpa using hlow), loadSegments] at hserved
        split at hserved
        · next hok =>
          rw [if_pos hok] at hreads
          obtain ⟨hreads, hothers⟩ := inBounds_append.mp hreads
          rcases mem_cons.mp hk with rfl | hk
          · exact hone.2 (.inr hok) hreads
          · exact (ih _).2 hserved hothers k hk fun j hj => hbefore j (mem_cons_of_mem i hj)
        · next hok => exact absurd hserved hok

/-! ## The whole load -/

/-- There are pages for all segments that are to be loaded. -/
def Served (s : Machine) (root : Frame) (file : File) : Prop :=
  (loadSegments root file (firstSegments file (List.range file.phnum.toNat)) s).ok = true

/-- **The loader reads only the file** if the file refers only to itself; and exactly then,
unless the loader runs out of pages. -/
theorem elf_reads_file (s : Machine) (root : Frame) (file : File) (size : BitVec 32) :
    (Inside file size → InBounds size (elfLoad s root file).reads) ∧
      (((elfCheckHeader file).1 = true → Served s root file) →
        (InBounds size (elfLoad s root file).reads ↔ Inside file size)) := by
  obtain ⟨hrejected, haccepted⟩ := @check_inBounds file size
  cases hcheck : (elfCheckHeader file).1 with
  | false =>
    have hreads : (elfLoad s root file).reads = (elfCheckHeader file).2 := by
      simp [elfLoad, hcheck]
    have hinside : Inside file size ↔ headerEnd file ≤ size.toNat :=
      ⟨Inside.header, fun h => ⟨h, by rw [hcheck]; nofun, by rw [hcheck]; nofun⟩⟩
    rw [hreads, hrejected hcheck, hinside]
    exact ⟨id, fun _ => Iff.rfl⟩
  | true =>
    obtain ⟨hend, hheader⟩ := haccepted hcheck
    obtain ⟨rest, hreads, hrest⟩ : ∃ rest, (elfLoad s root file).reads =
        (elfCheckHeader file).2 ++ (minReads file ++ ((56#64, 2) ::
          ((loadSegments root file (List.range file.phnum.toNat) s).reads ++ rest))) ∧
        (58 ≤ size.toNat → InBounds size rest) := by
      simp only [elfLoad, hcheck]
      split
      · next hok => exact absurd hok (by decide)
      split
      · refine ⟨[(56#64, 2), (24#64, 8)], by simp, fun h => ?_⟩
        exact inBounds_cons.mpr ⟨field_inFile h (by decide), inBounds_cons.mpr
          ⟨field_inFile h (by decide), inBounds_nil⟩⟩
      · exact ⟨[], by simp, fun _ => inBounds_nil⟩
    rw [hreads, inBounds_append, inBounds_append, inBounds_cons, inBounds_append]
    have hloop := fun h => @loadSegments_inBounds s root file size h _
      (pairwise_lt_range (n := file.phnum.toNat))
    simp only [mem_range] at hloop
    have hsufficient : Inside file size → InBounds size (elfCheckHeader file).2 ∧
        InBounds size (minReads file) ∧ Read.InFile size (56#64, 2) ∧
        InBounds size (loadSegments root file (List.range file.phnum.toNat) s).reads ∧
        InBounds size rest := by
      rintro ⟨h, hheaders, hsegments⟩
      rw [hend] at h
      refine ⟨hheader h, (minReads_inBounds h).mpr (hheaders hcheck), field_inFile h (by decide),
        (hloop h (hheaders hcheck)).1 fun i hi hbefore => ?_, hrest h⟩
      exact hsegments hcheck i hi fun j hj => hbefore j (hj.trans hi) hj
    refine ⟨hsufficient, fun hserved => ⟨?_, hsufficient⟩⟩
    rintro ⟨-, hmin, hphnum, hload, -⟩
    have h : 58 ≤ size.toNat := (inFile_iff (by decide)).mp hphnum
    have hheaders := (minReads_inBounds h).mp hmin
    refine ⟨hend ▸ h, fun _ => hheaders, fun _ i hi hbefore => ?_⟩
    exact (hloop h hheaders).2 (hserved rfl) hload i hi fun j _ hlt => hbefore j hlt

/-- A file that is a header only, with one program header that is said to be at 1 MiB. -/
def headerFile : File := fun i =>
  [0x7F#8, 0x45#8, 0x4C#8, 0x46#8, 2#8, 1#8, 0#8, 0#8, 0#8, 0#8, 0#8, 0#8, 0#8, 0#8, 0#8, 0#8,
    2#8, 0#8, 0x3E#8, 0#8, 0#8, 0#8, 0#8, 0#8, 0#8, 0#8, 0#8, 0#8, 0#8, 0#8, 0#8, 0#8,
    0#8, 0#8, 0x10#8, 0#8, 0#8, 0#8, 0#8, 0#8, 0#8, 0#8, 0#8, 0#8, 0#8, 0#8, 0#8, 0#8,
    0#8, 0#8, 0#8, 0#8, 0#8, 0#8, 56#8, 0#8, 1#8, 0#8, 0#8, 0#8, 0#8, 0#8, 0#8, 0#8].getD i.toNat 0#8

theorem headerFile_read {s : Machine} {root : Frame} :
    (0x100000#64, 4) ∈ (elfLoad s root headerFile).reads := by
  have hcheck : (elfCheckHeader headerFile).1 = true := by decide +kernel
  have hphnum : headerFile.phnum.toNat = 1 := by decide +kernel
  have hoffset : headerFile.phdrOffset 0 = 0x100000#64 := by decide +kernel
  have hmin : (0x100000#64, 4) ∈ minReads headerFile := by
    refine mem_flatMap.mpr ⟨0, ?_, mem_append_left _ ?_⟩
    · exact mem_range.mpr Nat.one_pos
    · exact .tail _ (.tail _ (.tail _ (.head _)))
  unfold elfLoad
  dsimp only
  rw [if_neg (by decide)]
  have hfirst : (0x100000#64, 4) ∈
      (elfCheckHeader headerFile).2 ++ minReads headerFile ++ [(56#64, 2)] :=
    mem_append_left _ (mem_append_right _ hmin)
  split
  · exact mem_append_left _ (mem_append_left _ hfirst)
  · exact mem_append_left _ hfirst

/-- The loader reads a program header far behind the 64 bytes of the file. -/
theorem header_read_outside : ¬InBounds 64#32 (elfLoad emptyMachine 1#40 headerFile).reads := by
  intro h
  have hin := (inFile_iff (by decide)).mp (h _ (headerFile_read))
  exact absurd hin (by decide)

end Utms7.Elf
