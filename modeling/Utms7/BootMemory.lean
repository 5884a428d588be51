import Mathlib.Order.CompletePartialOrder
import Mathlib.Order.Interval.Set.Disjoint
import Utms7.ByteMemory

/-!
# The memory regions at boot

`init_memory_from_multiboot` and `add_avail_region` of `adders/ski.c`.  The multiboot
information is a run of tags in memory; what `ski` is given is the copy that `kernel_main`
has made of it in `multiboot_info_copy`, which lies below `__bss_end`, so that no region
that is handed out overlaps it while it is read.  The first loop over them takes the hull of
the modules, the second one cuts each available entry of the memory map to the window
between the end of the kernel and the first gigabyte, cuts the hull out, and hands
what is left to the page allocator, once, and to the heap.

`regions_safe` says that all these regions are available memory, outside of the kernel
and of the modules, and apart from each other.
-/

namespace Utms7.Boot

open ByteMemory
open List hiding Disjoint

/-! ## The tags -/

/-- `multiboot2_mmap_entry_t`. -/
structure Entry where
  baseAddr : BitVec 64
  length : BitVec 64
  type : BitVec 32
deriving DecidableEq, Repr

/-- What the two loops read of a tag. -/
inductive Tag
  | module (start stop : BitVec 32)
  | mmap (entries : List Entry)
  | other
deriving DecidableEq, Repr

def entryAt (mem : Bytes) (addr : Nat) : Entry where
  baseAddr := getU64 mem addr
  length := getU64 mem (addr + 8)
  type := getU32 mem (addr + 16)

/-- The entries of a memory map with the given sizes of the tag and of one entry.  For
an entry size of zero the code faults; here there are no entries then, and what the
code has handed out before is among what is handed out here. -/
def entriesAt (mem : Bytes) (addr size entrySize : Nat) : List Entry :=
  (List.range ((size + 2 ^ 64 - 16) % 2 ^ 64 / entrySize % 2 ^ 32)).map fun i =>
    entryAt mem (addr + 16 + i * entrySize)

def tagAt (mem : Bytes) (addr : Nat) : Tag :=
  if getU32 mem addr = 3#32 then .module (getU32 mem (addr + 8)) (getU32 mem (addr + 12))
  else if getU32 mem addr = 6#32 then
    .mmap (entriesAt mem addr (getU32 mem (addr + 4)).toNat (getU32 mem (addr + 8)).toNat)
  else .other

/-- The tags up to the end tag, if it is among the first `count`. -/
def tagsFrom (mem : Bytes) : Nat → Nat → Option (List Tag)
  | 0, _ => none
  | count + 1, addr =>
    if getU32 mem addr = 0#32 then some []
    else
      (tagsFrom mem count
        (addr + ((getU32 mem (addr + 4)).toNat + 7) % 2 ^ 32 / 8 * 8)).map (tagAt mem addr :: ·)

/-! ## The regions -/

/-- Who gets a region. -/
inductive Taker
  | pmmInitRegion
  | memoryInit
  | memoryAddRegion
deriving DecidableEq, Repr

structure Region where
  taker : Taker
  start : Nat
  size : Nat
deriving DecidableEq, Repr

/-- `mem_found`, `pmm_done`, and the regions that were handed out so far. -/
structure State where
  memFound : Bool
  pmmDone : Bool
  regions : List Region
deriving DecidableEq, Repr

def mib : Nat := 1024 * 1024

def alignUp (a : Nat) : Nat := (a + 4095) % 2 ^ 64 / 4096 * 4096

/-- The size of the page allocator's part. -/
def pmmSize (avail : Nat) : Nat := min (avail / 4) (256 * mib) / 4096 * 4096

namespace State

/-- The heap gets a region. -/
def addHeap (st : State) (s e : Nat) : State :=
  if !st.memFound then
    { st with
      memFound := true
      regions := st.regions ++ [⟨.memoryInit, s, e - s⟩] }
  else { st with regions := st.regions ++ [⟨.memoryAddRegion, s, e - s⟩] }

def addAvailRegion (st : State) (s e : Nat) : State :=
  if e ≤ s then st
  else if !st.pmmDone && decide (16 * mib ≤ e - s) && decide (alignUp s < e) &&
      decide (4 * mib ≤ pmmSize (e - alignUp s)) then
    let base := alignUp s
    let psz := pmmSize (e - base)
    let st := { st with
      pmmDone := true
      regions := st.regions ++ [⟨.pmmInitRegion, base, psz⟩] }
    if e ≤ base + psz then st else st.addHeap (base + psz) e
  else st.addHeap s e

end State

/-- `low_limit`. -/
def lowLimit : Nat := 0x40000000

/-- The first loop. -/
def addModule (hull : Nat × Nat) : Tag → Nat × Nat
  | .module start stop =>
    (if hull.1 = 0 ∨ start.toNat < hull.1 then start.toNat else hull.1,
      if hull.2 < stop.toNat then stop.toNat else hull.2)
  | _ => hull

def moduleHull (tags : List Tag) : Nat × Nat := tags.foldl addModule (0, 0)

/-- One entry of the memory map in the second loop. -/
def addEntry (kend : Nat) (hull : Nat × Nat) (st : State) (entry : Entry) : State :=
  if entry.type = 1#32 then
    let e := min (entry.baseAddr + entry.length).toNat lowLimit
    let s := max entry.baseAddr.toNat kend
    if s < e ∧ hull.1 < hull.2 then
      let st := if s < min e hull.1 then st.addAvailRegion s (min e hull.1) else st
      if max s hull.2 < e then st.addAvailRegion (max s hull.2) e else st
    else if s < e then st.addAvailRegion s e
    else st
  else st

/-- One tag in the second loop. -/
def addTag (kend : Nat) (hull : Nat × Nat) (st : State) : Tag → State
  | .mmap entries => entries.foldl (addEntry kend hull) st
  | _ => st

def addTags (kend : Nat) (tags : List Tag) : State :=
  tags.foldl (addTag kend (moduleHull tags))
    { memFound := false
      pmmDone := false
      regions := [] }

/-- `init_memory_from_multiboot`, for an information block with fewer than `count` tags.
Where no memory was found, the code stops. -/
def initMemoryFromMultiboot (mem : Bytes) (kend count mbInfoAddr : Nat) : Option State :=
  (tagsFrom mem count (mbInfoAddr + 8)).map (addTags kend)

/-! ## What they have to be -/

def Region.range (r : Region) : Set Nat := Set.Ico r.start (r.start + r.size)

def Entry.range (entry : Entry) : Set Nat :=
  Set.Ico entry.baseAddr.toNat (entry.baseAddr.toNat + entry.length.toNat)

/-- The available ones of some entries. -/
def availableOf (entries : List Entry) : List Entry :=
  entries.filter fun entry => entry.type = 1#32

/-- The available entries of all memory maps, in order. -/
def available (tags : List Tag) : List Entry :=
  tags.flatMap fun
    | .mmap entries => availableOf entries
    | _ => []

/-- Regions that can be used without harm. -/
structure Safe (kend : Nat) (tags : List Tag) (regions : List Region) : Prop where
  available : ∀ r ∈ regions, ∃ entry ∈ available tags, r.range ⊆ entry.range
  window : ∀ r ∈ regions, r.range ⊆ Set.Ico kend lowLimit
  noModule : ∀ r ∈ regions, ∀ start stop, Tag.module start stop ∈ tags →
    Disjoint r.range (Set.Ico start.toNat stop.toNat)
  apart : regions.Pairwise fun r r' => Disjoint r.range r'.range

/-! ## The hull of the modules -/

/-- The hull holds every module that has a byte. -/
def Covers (hull : Nat × Nat) (start stop : BitVec 32) : Prop :=
  start.toNat < stop.toNat → hull.1 ≤ start.toNat ∧ stop.toNat ≤ hull.2

variable {hull : Nat × Nat} {tags : List Tag}

theorem addModule_covers {start stop : BitVec 32} (h : Covers hull start stop)
    (hne : hull.1 ≠ 0) {tag : Tag} : Covers (addModule hull tag) start stop := by
  intro hlt
  obtain ⟨hlo, hhi⟩ := h hlt
  cases tag with
  | module start' stop' =>
    dsimp only [addModule]
    constructor <;> split <;> omega
  | mmap _ | other => exact ⟨hlo, hhi⟩

theorem addModule_fst_ne (hne : hull.1 ≠ 0) {tag : Tag}
    (htag : ∀ start stop, tag = .module start stop → start ≠ 0#32) :
    (addModule hull tag).1 ≠ 0 := by
  cases tag with
  | module start stop =>
    have hstart : start.toNat ≠ 0 := fun h => htag start stop rfl (BitVec.eq_of_toNat_eq h)
    dsimp only [addModule]
    split <;> assumption
  | mmap _ | other => exact hne

section

variable (hstarts : ∀ start stop, Tag.module start stop ∈ tags → start ≠ 0#32)
include hstarts

theorem foldl_addModule_covers
    (hne : hull.1 ≠ 0) {start stop : BitVec 32} (h : Covers hull start stop) :
    Covers (tags.foldl addModule hull) start stop := by
  induction tags generalizing hull with
  | nil => exact h
  | cons tag tags ih =>
    refine ih (fun start stop hmem => hstarts start stop (mem_cons_of_mem tag hmem)) ?_
      (addModule_covers h hne)
    exact addModule_fst_ne hne fun start stop heq => hstarts start stop (heq ▸ mem_cons_self)

/-- The bounds of the hull from any start, as long as no module was met. -/
theorem foldl_moduleHull_covers (hull : Nat × Nat)
    {start stop : BitVec 32} (hmem : Tag.module start stop ∈ tags) :
    Covers (tags.foldl addModule hull) start stop := by
  induction tags generalizing hull with
  | nil => cases hmem
  | cons tag tags ih =>
    have hrest : ∀ start stop, Tag.module start stop ∈ tags → start ≠ 0#32 :=
      fun start stop hmem => hstarts start stop (mem_cons_of_mem tag hmem)
    rcases mem_cons.mp hmem with rfl | hmem
    · have hstart : start.toNat ≠ 0 := fun h =>
        hstarts start stop mem_cons_self (BitVec.eq_of_toNat_eq h)
      refine foldl_addModule_covers hrest ?_ ?_
      · dsimp only [addModule]
        split <;> omega
      · intro hlt
        dsimp only [addModule]
        constructor <;> split <;> omega
    · exact ih hrest _ hmem

end

/-! ## What is handed out -/

/-- The regions that were added lie in sets of a list and are apart from each other. -/
def Adds (st st' : State) (As : List (Set Nat)) : Prop :=
  ∃ new, st'.regions = st.regions ++ new ∧ (∀ r ∈ new, ∃ A ∈ As, r.range ⊆ A) ∧
    new.Pairwise fun r r' => Disjoint r.range r'.range

variable {st st' st'' : State} {As Bs : List (Set Nat)}

theorem Adds.refl (st : State) (As : List (Set Nat)) : Adds st st As :=
  ⟨[], (append_nil _).symm, nofun, .nil⟩

theorem Adds.single {A : Set Nat} {r : Region} (hst : st'.regions = st.regions ++ [r])
    (hr : r.range ⊆ A) : Adds st st' [A] := by
  refine ⟨[r], hst, ?_, pairwise_singleton _ r⟩
  rintro r' hr'
  rw [mem_singleton.mp hr']
  exact ⟨A, mem_singleton_self A, hr⟩

/-- **One after the other.** -/
theorem Adds.trans (h : Adds st st' As) (h' : Adds st' st'' Bs)
    (hdisjoint : ∀ A ∈ As, ∀ B ∈ Bs, Disjoint A B) : Adds st st'' (As ++ Bs) := by
  obtain ⟨new, hnew, hin, hapart⟩ := h
  obtain ⟨new', hnew', hin', hapart'⟩ := h'
  refine ⟨new ++ new', ?_, ?_, ?_⟩
  · rw [hnew', hnew, append_assoc]
  · intro r hr
    rcases mem_append.mp hr with hr | hr
    · obtain ⟨A, hA, hsub⟩ := hin r hr
      exact ⟨A, mem_append_left Bs hA, hsub⟩
    · obtain ⟨B, hB, hsub⟩ := hin' r hr
      exact ⟨B, mem_append_right As hB, hsub⟩
  · refine pairwise_append.mpr ⟨hapart, hapart', ?_⟩
    intro r hr r' hr'
    obtain ⟨A, hA, hsub⟩ := hin r hr
    obtain ⟨B, hB, hsub'⟩ := hin' r' hr'
    exact (hdisjoint A hA B hB).mono hsub hsub'

theorem Adds.mono (h : Adds st st' As) (hsub : ∀ A ∈ As, ∃ B ∈ Bs, A ⊆ B) : Adds st st' Bs := by
  obtain ⟨new, hnew, hin, hapart⟩ := h
  refine ⟨new, hnew, ?_, hapart⟩
  intro r hr
  obtain ⟨A, hA, hrA⟩ := hin r hr
  obtain ⟨B, hB, hAB⟩ := hsub A hA
  exact ⟨B, hB, hrA.trans hAB⟩

theorem addHeap_adds {st : State} {s e : Nat} (h : s < e) :
    Adds st (st.addHeap s e) [Set.Ico s e] := by
  have hrange : Set.Ico s (s + (e - s)) ⊆ Set.Ico s e :=
    Set.Ico_subset_Ico_right (Nat.add_sub_cancel' h.le).le
  unfold State.addHeap
  split <;> exact .single rfl hrange

theorem le_alignUp {a : Nat} (h : a < lowLimit) : a ≤ alignUp a := by
  unfold alignUp
  have hmod : (a + 4095) % 2 ^ 64 = a + 4095 := Nat.mod_eq_of_lt (by unfold lowLimit at h; omega)
  omega

theorem pmmSize_le (avail : Nat) : pmmSize avail ≤ avail := by
  unfold pmmSize
  omega

/-- The parts of the page allocator and of the heap lie behind each other. -/
theorem addAvailRegion_adds {st : State} {s e : Nat} (he : e ≤ lowLimit) :
    Adds st (st.addAvailRegion s e) [Set.Ico s e] := by
  unfold State.addAvailRegion
  split
  · exact .refl st _
  next hlt =>
  have hse : s < e := not_le.mp hlt
  have hbase := le_alignUp (hse.trans_le he)
  split
  swap
  · exact addHeap_adds hse
  next hcond =>
  have hlt : alignUp s < e := by
    simp only [Bool.and_eq_true, decide_eq_true_eq] at hcond
    exact hcond.1.2
  have hsize := pmmSize_le (e - alignUp s)
  have hpmm : Set.Ico (alignUp s) (alignUp s + pmmSize (e - alignUp s)) ⊆ Set.Ico s e :=
    Set.Ico_subset_Ico hbase (by omega)
  dsimp only
  split
  · exact .single rfl hpmm
  next hrest =>
  have hfirst : Adds st
      { st with
        pmmDone := true
        regions := st.regions ++ [⟨.pmmInitRegion, alignUp s, pmmSize (e - alignUp s)⟩] } [_] :=
    .single rfl subset_rfl
  refine Adds.mono (hfirst.trans (addHeap_adds (not_le.mp hrest)) ?_) ?_
  · rintro A hA B hB
    rw [mem_singleton.mp hA, mem_singleton.mp hB]
    exact Set.Ico_disjoint_Ico_same
  · rintro A hA
    refine ⟨_, mem_singleton_self _, ?_⟩
    rcases mem_cons.mp hA with rfl | hA
    · exact hpmm
    · rw [mem_singleton.mp hA]
      exact Set.Ico_subset_Ico_left (by omega)

/-- What may be used of an entry. -/
def Entry.usable (kend : Nat) (hull : Nat × Nat) (entry : Entry) : Set Nat :=
  (entry.range ∩ Set.Ico kend lowLimit) \ Set.Ico hull.1 hull.2

theorem addEntry_adds (kend : Nat) (hull : Nat × Nat) (st : State) {entry : Entry}
    (htype : entry.type = 1#32) (hlen : entry.baseAddr.toNat + entry.length.toNat < 2 ^ 64) :
    Adds st (addEntry kend hull st entry) [entry.usable kend hull] := by
  have hend : (entry.baseAddr + entry.length).toNat =
      entry.baseAddr.toNat + entry.length.toNat := by
    rw [BitVec.toNat_add, Nat.mod_eq_of_lt hlen]
  -- A part of the cut entry that does not meet the hull.
  have hpart : ∀ {a b}, max entry.baseAddr.toNat kend ≤ a →
      b ≤ min (entry.baseAddr.toNat + entry.length.toNat) lowLimit →
      (hull.1 < hull.2 → b ≤ hull.1 ∨ hull.2 ≤ a) →
      Set.Ico a b ⊆ entry.usable kend hull := by
    intro a b ha hb hhull x hx
    obtain ⟨hax, hxb⟩ := hx
    refine ⟨⟨⟨?_, ?_⟩, ?_, ?_⟩, ?_⟩
    · omega
    · omega
    · omega
    · omega
    · rintro ⟨hlo, hhi⟩
      rcases hhull (by omega) with h | h <;> omega
  have hsingle : ∀ {a b}, Set.Ico a b ⊆ entry.usable kend hull →
      ∀ A ∈ [Set.Ico a b], ∃ B ∈ [entry.usable kend hull], A ⊆ B := by
    intro a b hsub A hA
    rw [mem_singleton.mp hA]
    exact ⟨_, mem_singleton_self _, hsub⟩
  unfold addEntry
  rw [if_pos htype, hend]
  dsimp only
  generalize hs : max entry.baseAddr.toNat kend = s at hpart
  generalize he : min (entry.baseAddr.toNat + entry.length.toNat) lowLimit = e at hpart
  have hlimit : e ≤ lowLimit := he ▸ Nat.min_le_right _ _
  split
  · next hcut =>
    have hfirst : Adds st (if s < min e hull.1 then st.addAvailRegion s (min e hull.1) else st)
        [Set.Ico s (min e hull.1)] := by
      split
      · exact addAvailRegion_adds ((Nat.min_le_left e hull.1).trans hlimit)
      · exact .refl st _
    have hfirstSub : Set.Ico s (min e hull.1) ⊆ entry.usable kend hull :=
      hpart le_rfl (Nat.min_le_left e hull.1) fun _ => .inl (Nat.min_le_right e hull.1)
    have hsecondSub : Set.Ico (max s hull.2) e ⊆ entry.usable kend hull :=
      hpart (Nat.le_max_left s hull.2) le_rfl fun _ => .inr (Nat.le_max_right s hull.2)
    split
    · refine Adds.mono (hfirst.trans (addAvailRegion_adds hlimit) ?_) ?_
      · rintro A hA B hB
        rw [mem_singleton.mp hA, mem_singleton.mp hB]
        refine Set.Ico_disjoint_Ico.mpr ?_
        omega
      · intro A hA
        rcases mem_append.mp hA with hA | hA
        · exact hsingle hfirstSub A hA
        · exact hsingle hsecondSub A hA
    · exact hfirst.mono (hsingle hfirstSub)
  · next hcut =>
    split
    · next hlt =>
      refine (addAvailRegion_adds hlimit).mono (hsingle (hpart le_rfl le_rfl ?_))
      exact fun hhull => absurd ⟨hlt, hhull⟩ hcut
    · exact .refl st _

section

variable {kend : Nat} {entries : List Entry}

theorem foldl_addEntry_adds (hlen : ∀ entry ∈ availableOf entries,
      entry.baseAddr.toNat + entry.length.toNat < 2 ^ 64)
    (hapart : (availableOf entries).Pairwise fun a b => Disjoint a.range b.range) (st : State) :
    Adds st (entries.foldl (addEntry kend hull) st)
      ((availableOf entries).map (Entry.usable kend hull)) := by
  induction entries generalizing st with
  | nil => exact .refl st _
  | cons entry entries ih =>
    rw [foldl_cons]
    by_cases htype : entry.type = 1#32
    · have hcons : availableOf (entry :: entries) = entry :: availableOf entries :=
        filter_cons_of_pos (decide_eq_true htype)
      rw [hcons] at hlen hapart ⊢
      obtain ⟨hhead, htail⟩ := pairwise_cons.mp hapart
      have hrest := ih (fun e he => hlen e (mem_cons_of_mem entry he)) htail
        (addEntry kend hull st entry)
      have hfirst := addEntry_adds kend hull st htype (hlen entry mem_cons_self)
      refine hfirst.trans hrest ?_
      rintro A hA B hB
      obtain ⟨entry', hentry', rfl⟩ := mem_map.mp hB
      rw [mem_singleton.mp hA]
      exact (hhead entry' hentry').mono (fun x hx => hx.1.1) fun x hx => hx.1.1
    · have hsame : addEntry kend hull st entry = st := if_neg htype
      have hskip : availableOf (entry :: entries) = availableOf entries :=
        filter_cons_of_neg fun h => htype (of_decide_eq_true h)
      rw [hskip] at hlen hapart ⊢
      rw [hsame]
      exact ih hlen hapart st

theorem foldl_addTag_adds
    (hlen : ∀ entry ∈ available tags, entry.baseAddr.toNat + entry.length.toNat < 2 ^ 64)
    (hapart : (available tags).Pairwise fun a b => Disjoint a.range b.range) (st : State) :
    Adds st (tags.foldl (addTag kend hull) st) ((available tags).map (Entry.usable kend hull)) := by
  induction tags generalizing st with
  | nil => exact .refl st _
  | cons tag tags ih =>
    cases tag with
    | module start stop | other => exact ih hlen hapart st
    | mmap entries =>
      have hsplit : available (.mmap entries :: tags) = availableOf entries ++ available tags :=
        flatMap_cons
      rw [hsplit] at hlen hapart ⊢
      obtain ⟨hfirst, hrest, hcross⟩ := pairwise_append.mp hapart
      rw [map_append]
      refine Adds.trans (foldl_addEntry_adds ?_ hfirst st) (ih ?_ hrest _) ?_
      · exact fun e he => hlen e (mem_append_left _ he)
      · exact fun e he => hlen e (mem_append_right _ he)
      · rintro A hA B hB
        obtain ⟨a, ha, rfl⟩ := mem_map.mp hA
        obtain ⟨b, hb, rfl⟩ := mem_map.mp hB
        exact (hcross a ha b hb).mono (fun x hx => hx.1.1) fun x hx => hx.1.1

end

/-- **The memory that is handed out at boot** is available, outside of the kernel and of
the modules, and no byte of it is handed out twice. -/
theorem regions_safe {mem : Bytes} {kend count mbInfoAddr : Nat} {tags : List Tag}
    (htags : tagsFrom mem count (mbInfoAddr + 8) = some tags)
    (hlen : ∀ entry ∈ available tags, entry.baseAddr.toNat + entry.length.toNat < 2 ^ 64)
    (hapart : (available tags).Pairwise fun a b => Disjoint a.range b.range)
    (hstarts : ∀ start stop, Tag.module start stop ∈ tags → start ≠ 0#32) :
    ∃ st, initMemoryFromMultiboot mem kend count mbInfoAddr = some st ∧
      Safe kend tags st.regions := by
  refine ⟨addTags kend tags, ?_, ?_⟩
  · rw [initMemoryFromMultiboot, htags, Option.map_some]
  have hadds : Adds _ (tags.foldl (addTag kend (moduleHull tags)) _) _ :=
    foldl_addTag_adds hlen hapart
      { memFound := false
        pmmDone := false
        regions := [] }
  obtain ⟨new, hnew, hin, hpair⟩ := hadds
  have hregions : (addTags kend tags).regions = new := hnew
  have husable : ∀ r ∈ new, ∃ entry ∈ available tags,
      r.range ⊆ entry.usable kend (moduleHull tags) := by
    intro r hr
    obtain ⟨A, hA, hsub⟩ := hin r hr
    obtain ⟨entry, hentry, rfl⟩ := mem_map.mp hA
    exact ⟨entry, hentry, hsub⟩
  rw [hregions]
  refine ⟨?_, ?_, ?_, hpair⟩
  · intro r hr
    obtain ⟨entry, hentry, hsub⟩ := husable r hr
    exact ⟨entry, hentry, fun x hx => (hsub hx).1.1⟩
  · intro r hr x hx
    obtain ⟨entry, -, hsub⟩ := husable r hr
    exact (hsub hx).1.2
  · intro r hr start stop hmem
    obtain ⟨entry, -, hsub⟩ := husable r hr
    have hcovers := foldl_moduleHull_covers hstarts (0, 0) hmem
    refine Set.disjoint_left.mpr ?_
    rintro x hx ⟨hlo, hhi⟩
    obtain ⟨hhullLo, hhullHi⟩ := hcovers (hlo.trans_lt hhi)
    exact (hsub hx).2 ⟨hhullLo.trans hlo, hhi.trans_le hhullHi⟩

/-- An information block with 127 MiB of memory and a module in it. -/
def smallInfo : Bytes :=
  bytesOfWords [80#32, 0#32, 6#32, 40#32, 24#32, 0#32, 0x100000#32, 0#32, 0x7F00000#32, 0#32, 1#32,
    0#32, 3#32, 16#32, 0x1000000#32, 0x1200000#32, 0#32, 8#32]

theorem regions_safe_small : ∃ st, initMemoryFromMultiboot smallInfo 0x200000 3 0 = some st ∧
      Safe 0x200000 [.mmap [⟨0x100000#64, 0x7F00000#64, 1#32⟩], .module 0x1000000#32 0x1200000#32]
        st.regions := by
  refine regions_safe (by decide +kernel) (by decide) (pairwise_singleton _ _) ?_
  intro start stop hmem
  rcases mem_cons.mp hmem with h | hmem
  · cases h
  · obtain ⟨rfl, rfl⟩ := Tag.module.inj (mem_singleton.mp hmem)
    decide

end Utms7.Boot
