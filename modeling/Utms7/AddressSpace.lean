import Utms7.HeapGrowth
import Utms7.UserBytes

/-!
# Address spaces

`create_address_space` makes the tables of a process.  The upper half of the addresses
and the first GiB are the kernel's, through the kernel's own tables; the framebuffer
and the registers of devices are mapped to their own addresses.  The tables that it
leaves are a tree if the kernel's are one.

`free_address_space` gives pages back and changes no memory.
-/

namespace Utms7.Paging

open Radix Function

/-! ## Making tables -/

/-- What every process has of the devices: the framebuffer, and the regions of
`mmio_register` with their lengths. -/
structure Devices where
  fbPhys : BitVec 64
  fbSize : BitVec 64
  mmio : List (BitVec 64 × BitVec 64)

/-- `n` pages are mapped to their own addresses, up to the first one that fails. -/
def mapRegion (root : Frame) (flags : BitVec 64) : Nat → BitVec 64 → Machine → Machine
  | 0, _, s => s
  | n + 1, a, s =>
    let r := pagingMapForProcess s root a a flags
    if r.1 ≠ 0 then r.2 else mapRegion root flags n (a + 4096#64) r.2

/-- The rounds of `for (off = 0; off < size; off += 4096)`. -/
def rounds (size : BitVec 64) : Nat := (size.toNat + 4095) / 4096

/-- The loops of `create_address_space` over the devices. -/
def mapDevices (dev : Devices) (root : Frame) (s : Machine) : Machine :=
  dev.mmio.foldl (fun s r => mapRegion root kernelFlags (rounds r.2) r.1 s)
    (mapRegion root userFlags (rounds dev.fbSize) dev.fbPhys s)

/-- A first table with the upper half of the kernel's. -/
def upperHalf (m : Memory) (table : Index → Entry) : Index → Entry := fun i =>
  if 256 ≤ i.val then m kernelRoot i else table i

/-- `create_address_space`. -/
def createAddressSpace (dev : Devices) (s : Machine) : Option Frame × Machine :=
  match pmmAllocPage s with
  | none => (none, s)
  | some (root, s) =>
    let s := { s with mem := fill s.mem root (upperHalf s.mem (s.mem root)) }
    match pmmAllocPage s with
    | none => (none, pmmFreePage s root)
    | some (pdpt, s) =>
      let s := { s with mem := write s.mem root 0 (addr pdpt ||| userFlags) }
      let s := { s with mem := write s.mem pdpt 0 (s.mem (frame (s.mem kernelRoot 0)) 0) }
      (some root, mapDevices dev root s)

section Create

variable {s s' : Machine} {root pdpt t : Frame} {q : List Index} {dev : Devices}

theorem PageTree.mapRegion (h : PageTree s root) (flags : BitVec 64) (n : Nat) (a : BitVec 64) :
    PageTree (mapRegion root flags n a s) root := by
  induction n generalizing a s with
  | zero => exact h
  | succ n ih =>
    rw [Paging.mapRegion]
    split
    · exact h.map a a flags
    · exact ih (h.map a a flags) _

theorem PageTree.mapDevices (h : PageTree s root) (dev : Devices) :
    PageTree (mapDevices dev root s) root := by
  unfold Paging.mapDevices
  generalize hs : Paging.mapRegion root userFlags (rounds dev.fbSize) dev.fbPhys s = s1
  have h1 : PageTree s1 root := hs ▸ h.mapRegion ..
  clear hs
  generalize dev.mmio = regions
  induction regions generalizing s1 with
  | nil => exact h1
  | cons r regions ih => exact ih _ (h1.mapRegion ..)

/-- What the first tables of a process are. -/
structure Made (s s' : Machine) (root pdpt : Frame) : Prop where
  freeRoot : s.pool.Free root
  freePdpt : s.pool.Free pdpt
  apart : root ≠ pdpt
  used : ¬ s'.pool.Free root ∧ ¬ s'.pool.Free pdpt
  free : ∀ {f}, s'.pool.Free f → s.pool.Free f
  rootTable : s'.mem root = update (upperHalf s.mem emptyTable) 0 (addr pdpt ||| userFlags)
  pdptTable : s'.mem pdpt = update emptyTable 0 (s.mem (frame (s.mem kernelRoot 0)) 0)
  others : ∀ {f}, f ≠ root → f ≠ pdpt → s'.mem f = s.mem f

theorem child_first {e : Entry} (h : present e = true) : child 0 e = some (frame e) := by
  simp [child, h]

/-- The second table of the kernel. -/
theorem walk_kernel_zero (hpresent : present (s.mem kernelRoot 0) = true) :
    walk s.mem kernelRoot [0] = some (frame (s.mem kernelRoot 0)) := by
  unfold walk
  rw [walk_cons, child_first hpresent, Option.bind_some, walk_nil]

theorem createAddressSpace_made (h : PageTree s kernelRoot)
    (hpresent : present (s.mem kernelRoot 0) = true)
    (hresult : createAddressSpace dev s = (some root, s')) :
    ∃ s1 pdpt, Made s s1 root pdpt ∧ s' = mapDevices dev root s1 := by
  unfold createAddressSpace at hresult
  cases halloc : pmmAllocPage s with
  | none =>
    rw [halloc] at hresult
    cases hresult
  | some r =>
  obtain ⟨root0, s0⟩ := r
  rw [halloc] at hresult
  dsimp only at hresult
  generalize hs1 : ({ s0 with mem := fill s0.mem root0 (upperHalf s0.mem (s0.mem root0)) } :
    Machine) =
    s1 at hresult
  cases halloc1 : pmmAllocPage s1 with
  | none =>
    rw [halloc1] at hresult
    cases hresult
  | some r =>
  obtain ⟨pdpt, s2⟩ := r
  rw [halloc1] at hresult
  obtain ⟨hroot, hs'⟩ := Prod.mk.inj hresult
  obtain rfl := Option.some.inj hroot
  have htaken := pmmAllocPage_taken halloc
  have htaken1 := pmmAllocPage_taken halloc1
  have hpool : s1.pool = s0.pool := hs1 ▸ rfl
  obtain ⟨hpdpt, hne⟩ := pmm.left halloc (hpool ▸ htaken1.free : s0.pool.Free pdpt)
  -- the tables of the kernel are neither of the new frames
  have hkernel : kernelRoot ≠ root0 ∧ kernelRoot ≠ pdpt :=
    ⟨fun heq => h.busy (q := []) (by simp) rfl (heq ▸ htaken.free),
      fun heq => h.busy (q := []) (by simp) rfl (heq ▸ hpdpt)⟩
  have hsecond : frame (s.mem kernelRoot 0) ≠ root0 ∧ frame (s.mem kernelRoot 0) ≠ pdpt :=
    ⟨fun heq => h.busy (by simp) (walk_kernel_zero hpresent) (heq ▸ htaken.free),
      fun heq => h.busy (by simp) (walk_kernel_zero hpresent) (heq ▸ hpdpt)⟩
  have hmem1 : s1.mem = fill s.mem root0 (upperHalf s.mem emptyTable) := by
    rw [← hs1]
    dsimp only
    rw [htaken.mem, fill_fill, fill_self]
    congr 1
    unfold upperHalf
    rw [fill_of_ne _ _ hkernel.1]
  have hmem2 : ∀ f, f ≠ root0 → f ≠ pdpt → s2.mem f = s.mem f := by
    intro f hf hf'
    rw [htaken1.mem, fill_of_ne _ _ hf', hmem1, fill_of_ne _ _ hf]
  have hroot2 : s2.mem root0 = upperHalf s.mem emptyTable := by
    rw [htaken1.mem, fill_of_ne _ _ hne.symm, hmem1, fill_self]
  have hpdpt2 : s2.mem pdpt = emptyTable := by rw [htaken1.mem, fill_self]
  refine ⟨_, pdpt, ⟨htaken.free, hpdpt, hne.symm, ?_, ?_, ?_, ?_, ?_⟩, hs'.symm⟩
  · refine ⟨fun hf => hf.2 ((htaken1.used _).mpr (.inl ?_)),
      fun hf => hf.2 ((htaken1.used _).mpr (.inr rfl))⟩
    rw [hpool]
    exact (htaken.used _).mpr (.inr rfl)
  · intro f hf
    have hf1 : s1.pool.Free f := (pmm.left halloc1 hf).1
    rw [hpool] at hf1
    exact (pmm.left halloc hf1).1
  · dsimp only
    rw [write_table_of_ne _ _ _ hne.symm, write, fill_self, hroot2]
  · dsimp only
    rw [write, fill_self, write_table_of_ne _ _ _ hne, hpdpt2,
      write_table_of_ne _ _ _ hkernel.1, hmem2 _ hkernel.1 hkernel.2,
      write_table_of_ne _ _ _ hsecond.1, hmem2 _ hsecond.1 hsecond.2]
  · intro f hf hf'
    dsimp only
    rw [write_table_of_ne _ _ _ hf', write_table_of_ne _ _ _ hf, hmem2 f hf hf']

section

variable (hmade : Made s s' root pdpt) (h : PageTree s kernelRoot)
include hmade h

/-- The new tables are none of the kernel's. -/
theorem Made.old_ne (hlen : q.length ≤ 3) (hwalk : walk s.mem kernelRoot q = some t) :
    t ≠ root ∧ t ≠ pdpt :=
  ⟨fun heq => h.busy hlen hwalk (heq ▸ hmade.freeRoot),
    fun heq => h.busy hlen hwalk (heq ▸ hmade.freePdpt)⟩

/-- The paths of the kernel's tables are as before. -/
theorem Made.walk_kernel (hlen : q.length ≤ 3) :
    walk s'.mem kernelRoot q = walk s.mem kernelRoot q := by
  refine (same_of_reads fun f i hr => ?_).1
  obtain ⟨p, hp, hwalk⟩ := hr
  have hplen := hp.length_le
  rw [List.length_append] at hplen
  have hne : ∀ g, s.pool.Free g → f ≠ g := fun g hg heq => h.busy (by omega) hwalk (heq ▸ hg)
  rw [hmade.others (hne root hmade.freeRoot) (hne pdpt hmade.freePdpt)]

/-- **The paths of the new tables** are the new tables and paths of the kernel. -/
theorem Made.walk_cases (hpresent : present (s.mem kernelRoot 0) = true) (hlen : q.length ≤ 3)
    (hq : walk s'.mem root q = some t) :
    (q = [] ∧ t = root) ∨ (q = [0] ∧ t = pdpt) ∨ walk s.mem kernelRoot q = some t := by
  have hkernel := hmade.old_ne h (q := []) (by simp) rfl
  have hsecond := hmade.old_ne h (by simp) (walk_kernel_zero hpresent)
  have hold := hmade.walk_kernel h hlen
  cases q with
  | nil => exact .inl ⟨rfl, (Option.some.inj hq).symm⟩
  | cons i q =>
    unfold walk at hq hold ⊢
    rw [walk_cons, hmade.rootTable] at hq
    by_cases hi : i = 0
    · subst hi
      rw [update_self] at hq
      have hchild : child 0 (addr pdpt ||| userFlags) = some pdpt := by
        rw [child_first (by rw [present_addr_or]; rfl), frame_addr_or (by decide)]
      rw [hchild, Option.bind_some] at hq
      cases q with
      | nil => exact .inr (.inl ⟨rfl, (Option.some.inj hq).symm⟩)
      | cons j q =>
        rw [walk_cons, hmade.pdptTable] at hq
        by_cases hj : j = 0
        · subst hj
          refine .inr (.inr ?_)
          rw [← hold, walk_cons, hmade.others hkernel.1 hkernel.2, child_first hpresent,
            Option.bind_some, walk_cons, hmade.others hsecond.1 hsecond.2]
          exact hq
        · rw [update_of_ne hj, child_of_not_present (present_emptyTable j)] at hq
          cases hq
    · rw [update_of_ne hi, upperHalf] at hq
      split at hq
      · refine .inr (.inr ?_)
        rw [← hold, walk_cons, hmade.others hkernel.1 hkernel.2]
        exact hq
      · rw [child_of_not_present (present_emptyTable i)] at hq
        cases hq

/-- **New tables are a tree** if the kernel's are. -/
theorem Made.tree (hpresent : present (s.mem kernelRoot 0) = true) : PageTree s' root := by
  refine ⟨?_, ?_, ?_⟩
  · intro q q' t hlen hlen' hq hq'
    obtain ⟨rfl, rfl⟩ | ⟨rfl, rfl⟩ | hold := hmade.walk_cases h hpresent hlen hq
    · obtain ⟨rfl, -⟩ | ⟨-, heq⟩ | hold' := hmade.walk_cases h hpresent hlen' hq'
      · rfl
      · exact absurd heq hmade.apart
      · exact absurd rfl (hmade.old_ne h hlen' hold').1
    · obtain ⟨-, heq⟩ | ⟨rfl, -⟩ | hold' := hmade.walk_cases h hpresent hlen' hq'
      · exact absurd heq.symm hmade.apart
      · rfl
      · exact absurd rfl (hmade.old_ne h hlen' hold').2
    · obtain ⟨-, heq⟩ | ⟨-, heq⟩ | hold' := hmade.walk_cases h hpresent hlen' hq'
      · exact absurd heq (hmade.old_ne h hlen hold).1
      · exact absurd heq (hmade.old_ne h hlen hold).2
      · exact h.once hlen hlen' hold hold'
  · intro q t hlen hq hfree
    obtain ⟨-, rfl⟩ | ⟨-, rfl⟩ | hold := hmade.walk_cases h hpresent hlen hq
    · exact hmade.used.1 hfree
    · exact hmade.used.2 hfree
    · exact h.busy hlen hold (hmade.free hfree)
  · intro i j t hi hhere
    obtain ⟨hnil, -⟩ | ⟨-, rfl⟩ | hold := hmade.walk_cases h hpresent (by simp) hi
    · cases hnil
    · rw [hmade.pdptTable] at hhere ⊢
      by_cases hj : j = 0
      · subst hj
        exact h.small (walk_kernel_zero hpresent) hhere
      · rw [update_of_ne hj, present_emptyTable] at hhere
        cases hhere
    · obtain ⟨hroot, hpdpt⟩ := hmade.old_ne h (by simp) hold
      rw [hmade.others hroot hpdpt] at hhere ⊢
      exact h.small hold hhere

end

theorem createAddressSpace_tree (h : PageTree s kernelRoot)
    (hpresent : present (s.mem kernelRoot 0) = true)
    (hresult : createAddressSpace dev s = (some root, s')) : PageTree s' root := by
  obtain ⟨s1, pdpt, hmade, rfl⟩ := createAddressSpace_made h hpresent hresult
  exact (hmade.tree h hpresent).mapDevices dev

end Create

/-! ## Freeing tables -/

/-- The pages of a table. -/
def freeTable (s : Machine) (pt : Frame) : Machine :=
  (List.finRange 512).foldl (fun s l =>
    if present (s.mem pt l) then pmmFreePage s (frame (s.mem pt l)) else s) s

/-- The tables behind a third table, and their pages. -/
def freeDirectory (s : Machine) (pd : Frame) : Machine :=
  (List.finRange 512).foldl (fun s k =>
    let e := s.mem pd k
    if present e && !huge e then pmmFreePage (freeTable s (frame e)) (frame e) else s) s

/-- The tables behind a second table, which entry `i` of the first one points to; those of
the first and of the fourth GiB stay. -/
def freePdpt (s : Machine) (i : Index) (pdpt : Frame) : Machine :=
  (List.finRange 512).foldl (fun s j =>
    let e := s.mem pdpt j
    if i = 0 ∧ (j = 0 ∨ j = 3) then s
    else if present e then pmmFreePage (freeDirectory s (frame e)) (frame e) else s) s

/-- `free_address_space`. -/
def freeAddressSpace (s : Machine) (root : Frame) : Machine :=
  if root = 0#40 ∨ root = kernelRoot then s
  else
    let s := ((List.finRange 512).filter (·.val < 256)).foldl (fun s i =>
      let e := s.mem root i
      if present e then pmmFreePage (freePdpt s i (frame e)) (frame e) else s) s
    pmmFreePage s root

section Free

variable {α : Type*} {step : Machine → α → Machine}

theorem mem_pmmFreePage (s : Machine) (f : Frame) : (pmmFreePage s f).mem = s.mem := rfl

theorem foldl_mem (h : ∀ s a, (step s a).mem = s.mem) {l : List α} (s : Machine) :
    (l.foldl step s).mem = s.mem := by
  induction l generalizing s with
  | nil => rfl
  | cons a l ih => exact (ih (step s a)).trans (h s a)

theorem mem_freeTable (s : Machine) (pt : Frame) : (freeTable s pt).mem = s.mem := by
  refine foldl_mem (fun s l => ?_) s
  split <;> rfl

theorem mem_freeDirectory (s : Machine) (pd : Frame) : (freeDirectory s pd).mem = s.mem := by
  refine foldl_mem (fun s k => ?_) s
  dsimp only
  split
  · rw [mem_pmmFreePage, mem_freeTable]
  · rfl

theorem mem_freePdpt (s : Machine) (i : Index) (pdpt : Frame) :
    (freePdpt s i pdpt).mem = s.mem := by
  refine foldl_mem (fun s j => ?_) s
  dsimp only
  split
  · rfl
  split
  · rw [mem_pmmFreePage, mem_freeDirectory]
  · rfl

/-- No memory is changed. -/
theorem mem_freeAddressSpace (s : Machine) (root : Frame) :
    (freeAddressSpace s root).mem = s.mem := by
  unfold freeAddressSpace
  split
  · rfl
  rw [mem_pmmFreePage]
  refine foldl_mem (fun s i => ?_) s
  dsimp only
  split
  · rw [mem_pmmFreePage, mem_freePdpt]
  · rfl

end Free

end Utms7.Paging
