import Utms7.ByteMemory
import Utms7.Paging

/-!
# What mapping a page does

`paging_map_for_process` changes memory in a few ways only: it links a new table
into the tree, empty or with the parts of a page of 2 MiB, or it writes the entry
of the page.  `Link` is the first, and the entry is written last.

Under `Clean`, which says that the tables on the way are reached once and that no
table in use is free, a link changes no translation at all, and the last entry
changes those that go through it.
-/

namespace Utms7.Paging

open Radix ByteMemory List Nat Option

variable {v₂ p v q : List Index} {r₂ g r r' t : Frame} {e : Entry} {table : Index → Entry}
  {s s' : Machine} {R : Set Frame} {i : Index}

/-! ## Entries -/

theorem frame_or (a b : Entry) : frame (a ||| b) = frame a ||| frame b := BitVec.extractLsb'_or ..

@[simp] theorem frame_addr (f : Frame) : frame (addr f) = f := by
  refine BitVec.eq_of_getLsbD_eq fun i hi => ?_
  have h1 : 12 + i < 64 := by omega
  simp [frame, addr, hi, h1]

@[simp] theorem present_emptyTable (l : Index) : present (emptyTable l) = false := by
  simp [present, emptyTable]

/-- An entry for frame `f`; the flags leave the address alone. -/
theorem frame_addr_or {f : Frame} {flags : BitVec 64} (h : frame flags = 0#40) :
    frame (addr f ||| flags) = f := by
  rw [frame_or, frame_addr, h, BitVec.or_zero]

section

variable (f : Frame) (flags : BitVec 64)
include f flags

@[simp] theorem present_addr_or : present (addr f ||| flags) = present flags := by
  simp [present, addr]

@[simp] theorem writable_addr_or : writable (addr f ||| flags) = writable flags := by
  simp [writable, addr]

@[simp] theorem user_addr_or : user (addr f ||| flags) = user flags := by
  simp [user, addr]

@[simp] theorem huge_addr_or : huge (addr f ||| flags) = huge flags := by
  simp [huge, addr]

end

theorem child_of_not_present {d : Nat} (h : present e = false) : child d e = none := by
  simp [child, h]

theorem getLsbD_part (l : Index) (i : Nat) : (BitVec.ofNat 64 l <<< 12).getLsbD i =
      (decide (12 ≤ i) && decide (i < 21) && l.val.testBit (i - 12)) := by
  rw [BitVec.getLsbD_shiftLeft, BitVec.getLsbD_ofNat]
  by_cases hi : i < 21
  · have h1 : i < 64 := by omega
    have h2 : i - 12 < 64 := by omega
    by_cases h3 : i < 12
    · have h4 : ¬ 12 ≤ i := by omega
      simp [h4]
    · have h4 : 12 ≤ i := by omega
      simp [hi, h1, h2, h4]
  · have hbit : l.val.testBit (i - 12) = false := by
      have hpow : 2 ^ 9 ≤ 2 ^ (i - 12) := Nat.pow_le_pow_right (by decide) (by omega)
      exact Nat.testBit_lt_two_pow (l.isLt.trans_le hpow)
    simp [hbit]

section

variable (e : Entry) (l : Index)

/-- The entry of part `l` of a page of 2 MiB, bit by bit. -/
theorem splitTable_eq : splitTable e l =
    ((e &&& ~~~0x1FFFFF#64) ||| BitVec.ofNat 64 l <<< 12) ||| (e &&& 0xFFF#64) := by
  have hshift : BitVec.ofNat 64 l * 4096#64 = BitVec.ofNat 64 l <<< 12 := by
    rw [show (4096#64 : BitVec 64) = BitVec.twoPow 64 12 by decide, BitVec.mul_twoPow_eq_shiftLeft]
  rw [splitTable, hshift, BitVec.add_eq_or_of_and_eq_zero]
  refine BitVec.eq_of_getLsbD_eq fun i hi => ?_
  have hmask := getLsbD_mask (w := 64) 21 i
  rw [BitVec.getLsbD_and, BitVec.getLsbD_and, BitVec.getLsbD_not, getLsbD_part,
    show (0x1FFFFF#64 : BitVec 64) = BitVec.ofNat 64 (2 ^ 21 - 1) from rfl, hmask]
  by_cases h : i < 21 <;> simp [h]

theorem getLsbD_splitTable {i : Nat} (hi : i < 12) : (splitTable e l).getLsbD i = e.getLsbD i := by
  have h1 : i < 64 := by omega
  have h2 : i < 21 := by omega
  have h3 : ¬ 12 ≤ i := by omega
  rw [splitTable_eq]
  simp only [BitVec.getLsbD_or, BitVec.getLsbD_and, BitVec.getLsbD_not, getLsbD_part,
    show (0x1FFFFF#64 : BitVec 64) = BitVec.ofNat 64 (2 ^ 21 - 1) from rfl,
    show (0xFFF#64 : BitVec 64) = BitVec.ofNat 64 (2 ^ 12 - 1) from rfl, getLsbD_mask]
  simp [h1, h2, hi]

theorem frame_splitTable :
    frame (splitTable e l) = frame (e &&& ~~~0x1FFFFF#64) + BitVec.ofNat 40 l := by
  have hpart : frame (BitVec.ofNat 64 l <<< 12) = BitVec.ofNat 40 l := by
    refine BitVec.eq_of_getLsbD_eq fun i hi => ?_
    rw [frame, BitVec.getLsbD_extractLsb', getLsbD_part, BitVec.getLsbD_ofNat]
    by_cases h : i < 9
    · have h1 : 12 + i < 21 := by omega
      simp [h1]
    · have hpow : 2 ^ 9 ≤ 2 ^ i := Nat.pow_le_pow_right (by decide) (by omega)
      have hbit : l.val.testBit i = false := Nat.testBit_lt_two_pow (l.isLt.trans_le hpow)
      simp [hbit]
  have hflags : frame (e &&& 0xFFF#64) = 0#40 := by
    refine BitVec.eq_of_getLsbD_eq fun i hi => ?_
    rw [frame, BitVec.getLsbD_extractLsb', BitVec.getLsbD_and,
      show (0xFFF#64 : BitVec 64) = BitVec.ofNat 64 (2 ^ 12 - 1) from rfl, getLsbD_mask]
    simp
  rw [splitTable_eq, frame_or, frame_or, hpart, hflags, BitVec.or_zero,
    BitVec.add_eq_or_of_and_eq_zero]
  refine BitVec.eq_of_getLsbD_eq fun i hi => ?_
  rw [← hpart, BitVec.getLsbD_and, frame, frame, BitVec.getLsbD_extractLsb',
    BitVec.getLsbD_extractLsb',
    getLsbD_part, BitVec.getLsbD_and, BitVec.getLsbD_not,
    show (0x1FFFFF#64 : BitVec 64) = BitVec.ofNat 64 (2 ^ 21 - 1) from rfl, getLsbD_mask]
  by_cases h : 12 + i < 21 <;> simp [h]

end

/-! ## Translations -/

@[simp] theorem length_path (virt : BitVec 64) : (path virt).length = 4 := rfl

theorem mapping_append (es : List Entry) (e : Entry) (virt : BitVec 64) : mapping (es ++ [e]) virt =
      if present e then some ⟨leafFrame (es.length + 1) e virt, es.all writable && writable e,
          es.all user && user e⟩ else none := by
  simp [mapping]

/-! ## Allocators -/

namespace Pool

/-- Frame `f` is a page of the allocator. -/
def Has (p : Pool) (f : Frame) : Prop := p.base ≤ f.toNat ∧ f.toNat < p.base + p.total

/-- Page `f` is allocated. -/
def Used (p : Pool) (f : Frame) : Prop := p.Has f ∧ p.used (f.toNat - p.base) = true

def Free (p : Pool) (f : Frame) : Prop := p.Has f ∧ ¬ p.Used f

variable {p : Pool} {f : Frame} {idx : Nat}

theorem page_toNat (h : idx < p.total) : (p.page idx).toNat = p.base + idx := by
  have hhigh := p.high
  rw [page, BitVec.toNat_ofNat, mod_eq_of_lt (by omega)]

theorem page_has (h : idx < p.total) : p.Has (p.page idx) := by
  have hpage := page_toNat h
  unfold Has
  omega

theorem search_some (h : p.search = some idx) : idx < p.total ∧ p.used idx = false := by
  obtain ⟨i, hi, rfl⟩ := map_eq_some_iff.mp h
  have hlt : i < p.total := mem_range.mp (mem_of_find?_eq_some hi)
  exact ⟨mod_lt _ (by omega), by simpa using find?_some hi⟩

theorem used_page (h : idx < p.total) : p.Used (p.page idx) ↔ p.used idx = true := by
  unfold Used
  rw [page_toNat h, Nat.add_sub_cancel_left]
  exact and_iff_right (page_has h)

theorem take_has : (p.take idx).Has f ↔ p.Has f := Iff.rfl

theorem take_used (h : idx < p.total) : (p.take idx).Used f ↔ p.Used f ∨ f = p.page idx := by
  by_cases hf : f = p.page idx
  · subst hf
    have htake : (p.take idx).Used ((p.take idx).page idx) :=
      (used_page (p := p.take idx) h).mpr (Function.update_self ..)
    exact ⟨fun _ => .inr rfl, fun _ => htake⟩
  · have hne : p.Has f → f.toNat - p.base ≠ idx := by
      rintro ⟨hlo, -⟩ heq
      have hpage := page_toNat h
      exact hf (BitVec.eq_of_toNat_eq (by omega))
    rw [or_iff_left hf]
    refine and_congr_right fun hin => ?_
    have hsame : (p.take idx).used (f.toNat - p.base) = p.used (f.toNat - p.base) :=
      Function.update_of_ne (hne hin) ..
    exact iff_of_eq (congrArg (· = true) hsame)

end Pool

/-- An allocator of tables: it gives out a free frame, which it clears. -/
structure Allocator where
  alloc : Machine → Option (Frame × Machine)
  Free : Machine → Frame → Prop
  free : ∀ {s g s'}, alloc s = some (g, s') → Free s g
  left : ∀ {s g s'}, alloc s = some (g, s') → ∀ {f}, Free s' f → Free s f ∧ f ≠ g
  mem : ∀ {s g s'}, alloc s = some (g, s') → s'.mem = fill s.mem g emptyTable
  -- the memory does not matter
  blind : ∀ {s : Machine} {m : Memory} {f}, Free { s with mem := m } f ↔ Free s f

/-- What `pmm_alloc_page` does to the pages. -/
structure PageTaken (s s' : Machine) (g : Frame) : Prop where
  free : s.pool.Free g
  has : ∀ f, s'.pool.Has f ↔ s.pool.Has f
  used : ∀ f, s'.pool.Used f ↔ s.pool.Used f ∨ f = g
  mem : s'.mem = fill s.mem g emptyTable

theorem pmmAllocPage_taken {s s' : Machine} {g : Frame} (h : pmmAllocPage s = some (g, s')) :
    PageTaken s s' g := by
  unfold pmmAllocPage at h
  split at h
  · cases h
  rename_i idx hidx
  obtain ⟨hlt, hfree⟩ := Pool.search_some hidx
  obtain ⟨rfl, rfl⟩ := h
  refine ⟨⟨Pool.page_has hlt, ?_⟩, fun f => Pool.take_has, fun f => Pool.take_used hlt, rfl⟩
  rw [Pool.used_page hlt, hfree]
  decide

/-- `pmm_alloc_page`. -/
def pmm : Allocator where
  alloc := pmmAllocPage
  Free s f := s.pool.Free f
  free h := (pmmAllocPage_taken h).free
  left {s g s'} h f hf := by
    have ht := pmmAllocPage_taken h
    obtain ⟨hhas, hunused⟩ := hf
    rw [ht.used, not_or] at hunused
    exact ⟨⟨(ht.has f).mp hhas, hunused.1⟩, hunused.2⟩
  mem h := (pmmAllocPage_taken h).mem
  blind := Iff.rfl

variable {A : Allocator}

/-! ## Tables on the way -/

/-- Page `v` can be mapped in the tree at `r`: its tables are reached from `R` in one
way, no table is free, and the entry of the second table is not a page of 1 GiB. -/
structure Clean (A : Allocator) (s : Machine) (R : Set Frame) (r : Frame) (v : List Index) :
    Prop where
  root : r ∈ R
  once : ∀ {q t}, q <+: v → q.length ≤ 3 → walk s.mem r q = some t → ∀ {r' q'}, r' ∈ R →
    q'.length ≤ 3 → walk s.mem r' q' = some t → r' = r ∧ q' = q
  busy : ∀ {r' q t}, r' ∈ R → q.length ≤ 3 → walk s.mem r' q = some t → ¬ A.Free s t
  plain : ∀ {q i t}, q ++ [i] <+: v → q.length = 1 → walk s.mem r q = some t →
    present (s.mem t i) = true → huge (s.mem t i) = false

/-- The table `g` that is linked in behind an entry, and the entry that points to it. -/
inductive NewTable (d : Nat) (old : Entry) (g : Frame) : (Index → Entry) → Entry → Prop
  | empty {flags : BitVec 64} (flags_eq : flags = userFlags ∨ flags = kernelFlags)
      (absent : present old = false) : NewTable d old g emptyTable (addr g ||| flags)
  | parts (depth : d = 2) (here : present old = true) (big : huge old = true) :
      NewTable d old g (splitTable old) (addr g ||| kernelFlags ||| (old &&& 4#64))

/-- Table `g` is linked in behind entry `i` of table `t`, which is on the way to `v`. -/
structure Linked (A : Allocator) (v : List Index) (r : Frame)
    (s s' : Machine) (q : List Index) (i : Index) (t g : Frame) (table : Index → Entry)
    (e : Entry) : Prop where
  on : q ++ [i] <+: v
  short : q.length ≤ 2
  reach : walk s.mem r q = some t
  kind : NewTable q.length (s.mem t i) g table e
  got : ∃ s₁, A.alloc s = some (g, s₁) ∧ s' = { s₁ with mem := write (fill s.mem g table) t i e }

def Link (A : Allocator) (v : List Index) (r : Frame) (s s' : Machine) : Prop :=
  ∃ q i t g table e, Linked A v r s s' q i t g table e

/-- `huge_flags & PAGE_USER`. -/
theorem and_user (e : Entry) : e &&& 4#64 = if user e then 4#64 else 0#64 := by
  rw [show (4#64 : BitVec 64) = BitVec.twoPow 64 2 by decide, BitVec.and_twoPow]
  rfl

namespace NewTable

variable {d : Nat} {old : Entry}

theorem flags (h : NewTable d old g table e) : ∃ flags, e = addr g ||| flags ∧
    frame flags = 0#40 ∧ present flags = true ∧ huge flags = false ∧ writable flags = true := by
  cases h with
  | @empty flags flags_eq _ =>
    refine ⟨flags, rfl, ?_⟩
    rcases flags_eq with rfl | rfl <;> decide
  | parts _ _ _ =>
    refine ⟨kernelFlags ||| (old &&& 4#64), BitVec.or_assoc .., ?_⟩
    rw [and_user]
    split <;> decide

section

variable (h : NewTable d old g table e)
include h

/-- The entry pointed to no table. -/
theorem bare : child d old = none := by
  cases h with
  | empty _ absent => exact child_of_not_present absent
  | parts depth _ big => simp [child, big, depth]

theorem point : child d e = some g := by
  obtain ⟨flags, rfl, hframe, hpresent, hhuge, -⟩ := h.flags
  simp [child, hpresent, hhuge, frame_addr_or hframe]

theorem not_huge : huge e = false := by
  obtain ⟨flags, rfl, -, -, hhuge, -⟩ := h.flags
  rw [huge_addr_or, hhuge]

theorem end_ (hd : d ≤ 1) (l : Index) : child (d + 1) (table l) = none := by
  cases h with
  | empty _ _ => exact child_of_not_present (present_emptyTable l)
  | parts depth _ _ => omega

end

end NewTable

namespace Clean

variable {p : List Index}

section

variable (h : Clean A s R r v)
include h

section

variable (hq : q <+: v) (hlen : q.length ≤ 3) (hwalk : walk s.mem r q = some t)
include hq hlen hwalk

/-- A path that reads an entry on the way to `v` goes through it. -/
theorem through
    (hr' : r' ∈ R) (hp : p.length ≤ 4) (hreads : Reads child s.mem 0 r' p t i) :
    r' = r ∧ q ++ [i] <+: p := by
  obtain ⟨q', hinit, hwalk'⟩ := hreads
  have hlen' := hinit.length_le
  rw [length_append, length_singleton] at hlen'
  obtain ⟨rfl, rfl⟩ := h.once hq hlen hwalk hr' (by omega) hwalk'
  exact ⟨rfl, hinit⟩

/-- The path to a table does not read it. -/
theorem not_reads : ¬ Reads child s.mem 0 r q t i := by
  intro hreads
  have hlong := (h.through hq hlen hwalk h.root (by omega) hreads).2.length_le
  simp only [length_append, length_singleton] at hlong
  omega

end

theorem not_reads_free (hg : A.Free s g) (hr' : r' ∈ R) (hp : p.length ≤ 4) :
    ¬ Reads child s.mem 0 r' p g i := by
  rintro ⟨q', hinit, hwalk'⟩
  have hlen' := hinit.length_le
  rw [length_append, length_singleton] at hlen'
  exact h.busy hr' (by omega) hwalk' hg

section

variable (hq : q <+: v) (hlen : q.length ≤ 3) (hwalk : walk s.mem r q = some t)
include hq hlen hwalk

/-- An entry on the way to `v` is written: other paths are as before. -/
theorem write_off (e : Entry) (hr' : r' ∈ R) (hp : p.length ≤ 4)
    (hoff : ¬ (r' = r ∧ q ++ [i] <+: p)) : walk (write s.mem t i e) r' p = walk s.mem r' p ∧
      trail (write s.mem t i e) r' p = trail s.mem r' p :=
  write_same fun hreads => hoff (h.through hq hlen hwalk hr' hp hreads)

/-- Paths that end with it. -/
theorem write_trail (e : Entry) (rest : List Index) (hend : rest = [] ∨ child q.length e = none) :
    trail (write s.mem t i e) r (q ++ i :: rest) = trail s.mem r q ++ [e] := by
  have htrail := (write_through (e := e) (p := rest) hwalk (h.not_reads (i := i) hq hlen hwalk)).2
  refine htrail.trans ?_
  rw [zero_add]
  rcases hend with rfl | hend
  · cases child q.length e <;> rfl
  · rw [hend]
    rfl

/-- A write that neither adds nor removes a table. -/
theorem write_walk
    (hleaf : q.length = 3 ∨ child q.length (s.mem t i) = none ∧ child q.length e = none)
    (hr' : r' ∈ R) (hp : p.length ≤ 3) : walk (write s.mem t i e) r' p = walk s.mem r' p := by
  by_cases hoff : r' = r ∧ q ++ [i] <+: p
  · obtain ⟨rfl, rest, rfl⟩ := hoff
    simp only [length_append, length_singleton] at hp
    obtain ⟨hold, hnew⟩ := hleaf.resolve_left (by omega)
    have hafter := (write_through (e := e) (p := rest) hwalk (h.not_reads (i := i) hq hlen hwalk)).1
    have hbefore : walk s.mem r' (q ++ i :: rest) = none := by
      unfold walk
      rw [walk_append, show Radix.walk child s.mem 0 r' q = some t from hwalk, bind_some,
        walk_cons, zero_add, hold]
      rfl
    rw [append_assoc, singleton_append, hbefore]
    refine hafter.trans ?_
    rw [zero_add, hnew]
    rfl
  · exact (h.write_off hq hlen hwalk e hr' (by omega) hoff).1

end

theorem write_clean (h2 : Clean A s R r₂ v₂) (hq : q <+: v)
    (hlen : 2 ≤ q.length ∧ q.length ≤ 3) (hwalk : walk s.mem r q = some t)
    (hleaf : q.length = 3 ∨ child q.length (s.mem t i) = none ∧ child q.length e = none) :
    Clean A { s with mem := write s.mem t i e } R r₂ v₂ := by
  have hsame : ∀ {r' p}, r' ∈ R → p.length ≤ 3 →
      walk (write s.mem t i e) r' p = walk s.mem r' p := fun hr' hp =>
    h.write_walk hq hlen.2 hwalk hleaf hr' hp
  refine ⟨h2.root, ?_, ?_, ?_⟩
  · intro q1 f hq1 hlen1 hf r' q' hr' hlen' hf'
    rw [hsame h2.root hlen1] at hf
    rw [hsame hr' hlen'] at hf'
    exact h2.once hq1 hlen1 hf hr' hlen' hf'
  · intro r' q1 f hr' hlen1 hf
    rw [hsame hr' hlen1] at hf
    rw [A.blind]
    exact h2.busy hr' hlen1 hf
  · intro q1 j f hq1 hlen1 hf hhere
    rw [hsame h2.root (by omega)] at hf
    -- The second table is not the one that is written.
    have hne : f ≠ t := by
      rintro rfl
      have heq := (h.once hq hlen.2 hwalk h2.root (by omega) hf).2
      rw [heq] at hlen1
      omega
    simp only [write_table_of_ne _ _ _ hne] at hhere ⊢
    exact h2.plain hq1 hlen1 hf hhere

end

end Clean

namespace Linked

variable {p : List Index}

section

variable (h : Linked A v r s s' q i t g table e)
include h

theorem on_init : q <+: v :=
  (prefix_append q [i]).trans h.on

theorem mem_eq : s'.mem = write (fill s.mem g table) t i e := by
  obtain ⟨s1, -, rfl⟩ := h.got
  rfl

theorem free : A.Free s g := by
  obtain ⟨s1, hs1, -⟩ := h.got
  exact A.free hs1

theorem left {f : Frame} (hf : A.Free s' f) : A.Free s f ∧ f ≠ g := by
  obtain ⟨s1, hs1, rfl⟩ := h.got
  exact A.left hs1 (A.blind.mp hf)

section

variable (hc : Clean A s R r v)
include hc

theorem ne : t ≠ g := by
  rintro rfl
  have hshort := h.short
  exact hc.busy hc.root (by omega) h.reach h.free

/-- The new table is out of reach until the entry is written. -/
theorem fill_eq (hr' : r' ∈ R) (hp : p.length ≤ 4) :
    Radix.walk child (fill s.mem g table) 0 r' p = walk s.mem r' p ∧
      Radix.trail child (fill s.mem g table) 0 r' p = trail s.mem r' p :=
  fill_same fun _ => hc.not_reads_free h.free hr' hp

/-- Paths that do not go through the entry are as before. -/
theorem off (hr' : r' ∈ R) (hp : p.length ≤ 4) (hoff : ¬ (r' = r ∧ q ++ [i] <+: p)) :
    walk s'.mem r' p = walk s.mem r' p ∧ trail s'.mem r' p = trail s.mem r' p := by
  have hshort := h.short
  have hreads : ¬ Reads child (fill s.mem g table) 0 r' p t i := by
    rintro ⟨q', hinit, hwalk'⟩
    have hlen' := hinit.length_le
    rw [length_append] at hlen'
    rw [(h.fill_eq hc hr' (by omega)).1] at hwalk'
    exact hoff (hc.through h.on_init (by omega) h.reach hr' hp ⟨q', hinit, hwalk'⟩)
  obtain ⟨hwalk, htrail⟩ := write_same (e := e) hreads
  obtain ⟨hwalk', htrail'⟩ := h.fill_eq hc hr' hp
  rw [h.mem_eq]
  exact ⟨hwalk.trans hwalk', htrail.trans htrail'⟩

/-- Paths through the entry go on in the new table. -/
theorem through (rest : List Index) :
    walk s'.mem r (q ++ i :: rest) = Radix.walk child s'.mem (q.length + 1) g rest ∧
      trail s'.mem r (q ++ i :: rest) =
        trail s.mem r q ++ e :: Radix.trail child s'.mem (q.length + 1) g rest := by
  have hshort := h.short
  obtain ⟨hwalk, htrail⟩ := h.fill_eq hc hc.root (show q.length ≤ 4 by omega)
  have hreads : ¬ Reads child (fill s.mem g table) 0 r q t i := by
    rintro ⟨q', hinit, hwalk'⟩
    have hlen' := hinit.length_le
    rw [length_append] at hlen'
    rw [(h.fill_eq hc hc.root (by omega)).1] at hwalk'
    exact hc.not_reads h.on_init (by omega) h.reach ⟨q', hinit, hwalk'⟩
  obtain ⟨hw, ht⟩ := write_through (e := e) (p := rest) (hwalk.trans h.reach) hreads
  rw [zero_add, h.kind.point] at hw ht
  rw [htrail] at ht
  rw [h.mem_eq]
  exact ⟨hw, ht⟩

/-- The new table is as it was filled. -/
theorem table_eq : s'.mem g = table := by
  rw [h.mem_eq, write_table_of_ne _ _ _ (h.ne hc).symm, fill_self]

/-- The tables that are reached afterwards: those from before, and the new one. -/
theorem reached (hr' : r' ∈ R) (hp : p.length ≤ 3) {f : Frame} (hf : walk s'.mem r' p = some f) :
    walk s.mem r' p = some f ∨ (r' = r ∧ p = q ++ [i] ∧ f = g) := by
  by_cases hoff : r' = r ∧ q ++ [i] <+: p
  · obtain ⟨rfl, rest, rfl⟩ := hoff
    rw [append_assoc, singleton_append, (h.through hc rest).1] at hf
    cases rest with
    | nil => exact .inr ⟨rfl, append_nil _, (some.inj hf).symm⟩
    | cons l rest =>
      simp only [length_append, length_cons] at hp
      rw [walk_cons, h.table_eq hc, h.kind.end_ (by omega)] at hf
      cases hf
  · rw [(h.off hc hr' (by omega) hoff).1] at hf
    exact .inl hf

/-- What was reached before still is. -/
theorem kept (hr' : r' ∈ R) (hp : p.length ≤ 4) {f : Frame} (hf : walk s.mem r' p = some f) :
    walk s'.mem r' p = some f := by
  rw [(h.off hc hr' hp ?_).1, hf]
  rintro ⟨rfl, rest, rfl⟩
  have hbare := h.kind.bare
  unfold walk at hf
  rw [append_assoc, walk_append, show Radix.walk child s.mem 0 r' q = some t from h.reach,
    bind_some, singleton_append, walk_cons, zero_add, hbare] at hf
  cases hf

theorem reach_new : walk s'.mem r (q ++ [i]) = some g :=
  (h.through hc []).1

theorem clean (hc2 : Clean A s R r₂ v₂) : Clean A s' R r₂ v₂ := by
  have hfresh : ∀ {r' p}, r' ∈ R → p.length ≤ 3 → walk s.mem r' p ≠ some g := fun hr' hp hg =>
    hc.busy hr' hp hg h.free
  refine ⟨hc2.root, ?_, ?_, ?_⟩
  · intro q1 f hq1 hlen hf r' q' hr' hlen' hf'
    rcases h.reached hc hc2.root hlen hf with hold | ⟨rfl, rfl, rfl⟩
    · rcases h.reached hc hr' hlen' hf' with hold' | ⟨-, -, rfl⟩
      · exact hc2.once hq1 hlen hold hr' hlen' hold'
      · exact absurd hold (hfresh hc2.root hlen)
    · rcases h.reached hc hr' hlen' hf' with hold' | ⟨rfl, rfl, -⟩
      · exact absurd hold' (hfresh hr' hlen')
      · exact ⟨rfl, rfl⟩
  · intro r' q1 f hr' hlen hf hfree
    obtain ⟨hfree0, hne⟩ := h.left hfree
    rcases h.reached hc hr' hlen hf with hold | ⟨-, -, rfl⟩
    · exact hc.busy hr' hlen hold hfree0
    · exact hne rfl
  · intro q1 j f hq1 hlen hf hhere
    by_cases hsame : f = t ∧ j = i
    · obtain ⟨rfl, rfl⟩ := hsame
      rw [h.mem_eq, write_self]
      exact h.kind.not_huge
    rcases h.reached hc hc2.root (by omega) hf with hold | ⟨-, rfl, rfl⟩
    · have hne : f ≠ g := by
        rintro rfl
        exact hfresh hc2.root (by omega) hold
      rw [h.mem_eq, write_of_ne _ _ hsame, fill_of_ne _ _ hne] at hhere ⊢
      exact hc2.plain hq1 hlen hold hhere
    · rw [h.table_eq hc] at hhere
      simp only [length_append] at hlen
      cases h.kind with
      | empty _ _ =>
        rw [present_emptyTable] at hhere
        cases hhere
      | parts depth _ _ => omega

/-- The entries before and after, on a path through the entry. -/
theorem trails {l : Index} {rest : List Index} :
    trail s.mem r (q ++ i :: l :: rest) = trail s.mem r q ++ [s.mem t i] ∧
      (q.length ≤ 1 ∨ rest = [] →
        trail s'.mem r (q ++ i :: l :: rest) = trail s.mem r q ++ [e, table l]) := by
  have hreach : Radix.walk child s.mem 0 r q = some t := h.reach
  constructor
  · unfold trail
    rw [trail_append hreach, trail_cons, zero_add, h.kind.bare]
    rfl
  · intro hshort
    rw [(h.through hc (l :: rest)).2, trail_cons, h.table_eq hc]
    rcases hshort with hq | rfl
    · rw [h.kind.end_ hq]
      rfl
    · cases child (q.length + 1) (table l) <;> rfl

/-- **Linking a table in changes no translation.** -/
theorem translate_eq (hr' : r' ∈ R) (virt : BitVec 64) :
    translate s'.mem r' virt = translate s.mem r' virt := by
  have hshort := h.short
  unfold translate
  by_cases hoff : r' = r ∧ q ++ [i] <+: path virt
  · obtain ⟨rfl, rest, hrest⟩ := hoff
    have hlen := congrArg List.length hrest
    simp only [length_append, length_singleton, length_path] at hlen
    obtain ⟨l, rest, rfl⟩ := exists_cons_of_length_pos (l := rest) (by omega)
    rw [length_cons] at hlen
    obtain ⟨hbefore, hafter⟩ := h.trails hc
    have hend : q.length ≤ 1 ∨ rest = [] := by
      by_cases hq : q.length ≤ 1
      · exact .inl hq
      · exact .inr (eq_nil_of_length_eq_zero (by omega))
    rw [← hrest, append_assoc, singleton_append, hbefore, hafter hend,
      append_cons, mapping_append, mapping_append]
    have hkind := h.kind
    generalize s.mem t i = old at hkind ⊢
    cases hkind with
    | empty _ absent => simp only [present_emptyTable, absent, Bool.false_eq_true, if_false]
    | parts depth here big =>
      -- The fourth entry repeats the flags of the third.
      obtain rfl : rest = [] := eq_nil_of_length_eq_zero (by omega)
      have hcount : (trail s.mem r' q).length = 2 := (length_trail h.reach).trans depth
      have hlast : path virt =
        [index virt 39, index virt 30, index virt 21] ++ [index virt 12] := rfl
      rw [hlast] at hrest
      obtain rfl : l = index virt 12 := by simpa using (append_inj' hrest rfl).2
      have hpresent : present (splitTable old (index virt 12)) = present old :=
        getLsbD_splitTable old _ (by decide)
      have hwritable : writable (splitTable old (index virt 12)) = writable old :=
        getLsbD_splitTable old _ (by decide)
      have huser : user (splitTable old (index virt 12)) = user old :=
        getLsbD_splitTable old _ (by decide)
      have hentry : user (addr g ||| kernelFlags ||| (old &&& 4#64)) = user old ∧
          writable (addr g ||| kernelFlags ||| (old &&& 4#64)) = true := by
        rw [BitVec.or_assoc, user_addr_or, writable_addr_or, and_user]
        cases user old <;> decide
      simp only [hpresent, length_append, hcount,
        leafFrame, frame_splitTable, all_append, all_cons, all_nil, hentry, hwritable,
        huser, Bool.and_true, Bool.and_assoc, Bool.and_self]
      rfl
  · rw [(h.off hc hr' (by rw [length_path]) hoff).2]

end

end

end Linked

/-! ## The mapper -/

/-- Tables are linked in, one after the other. -/
def Links (A : Allocator) (v : List Index) (r : Frame) :
    Machine → Machine → Prop :=
  Relation.ReflTransGen (Link A v r)

section Links

variable {flags : BitVec 64}

section

variable (h : Links A v r s s')
include h

theorem Links.clean (hc : Clean A s R r v) (hc2 : Clean A s R r₂ v₂) : Clean A s' R r₂ v₂ := by
  have hboth : Clean A s' R r v ∧ Clean A s' R r₂ v₂ := by
    induction h with
    | refl => exact ⟨hc, hc2⟩
    | tail _ hstep ih =>
      obtain ⟨q, i, t, g, table, e, hstep⟩ := hstep
      exact ⟨hstep.clean ih.1 ih.1, hstep.clean ih.1 ih.2⟩
  exact hboth.2

theorem Links.translate_eq (hc : Clean A s R r v) (hr' : r' ∈ R) (virt : BitVec 64) :
    translate s'.mem r' virt = translate s.mem r' virt := by
  induction h with
  | refl => rfl
  | tail hlinks hstep ih =>
    have hclean := Links.clean hlinks hc hc
    obtain ⟨q, i, t, g, table, e, hstep⟩ := hstep
    rw [hstep.translate_eq hclean hr', ih]

theorem Links.kept (hc : Clean A s R r v) (hr' : r' ∈ R) (hp : p.length ≤ 4)
    {f : Frame} (hf : walk s.mem r' p = some f) : walk s'.mem r' p = some f := by
  induction h with
  | refl => exact hf
  | tail hlinks hstep ih =>
    have hclean := Links.clean hlinks hc hc
    obtain ⟨q, i, t, g, table, e, hstep⟩ := hstep
    exact hstep.kept hclean hr' hp ih

theorem Links.free {f : Frame} (hf : A.Free s' f) : A.Free s f := by
  induction h with
  | refl => exact hf
  | tail _ hstep ih =>
    obtain ⟨q, i, t, g, table, e, hstep⟩ := hstep
    exact ih (hstep.left hf).1

/-- The tables afterwards are those from before and new ones, which were free. -/
theorem Links.reached (hc : Clean A s R r v) (hr' : r' ∈ R) (hp : p.length ≤ 3)
    {f : Frame} (hf : walk s'.mem r' p = some f) : walk s.mem r' p = some f ∨ A.Free s f := by
  induction h with
  | refl => exact .inl hf
  | tail hlinks hstep ih =>
    have hclean := Links.clean hlinks hc hc
    obtain ⟨q, i, t, g, table, e, hstep⟩ := hstep
    rcases hstep.reached hclean hr' hp hf with hold | ⟨-, -, rfl⟩
    · exact ih hold
    · exact .inr (Links.free hlinks hstep.free)

/-- A frame that is neither a table nor free is not written. -/
theorem Links.mem_eq (hc : Clean A s R r v) {f : Frame}
    (htable : ∀ q, q.length ≤ 3 → walk s.mem r q ≠ some f) (hfree : ¬ A.Free s f) :
    s'.mem f = s.mem f := by
  induction h with
  | refl => rfl
  | @tail s1 s2 hlinks hstep ih =>
    obtain ⟨q, i, t, g, table, e, hstep⟩ := hstep
    have hshort := hstep.short
    have hg : f ≠ g := by
      rintro rfl
      exact hfree (Links.free hlinks hstep.free)
    have ht : f ≠ t := by
      rintro rfl
      rcases Links.reached hlinks hc hc.root (by omega) hstep.reach with hold | hold
      · exact htable q (by omega) hold
      · exact hfree hold
    rw [hstep.mem_eq, write_table_of_ne _ _ _ ht, fill_of_ne _ _ hg, ih]

end

/-- Pages in use stay so. -/
theorem Links.pool (h : Links pmm v r s s') : (∀ f, s'.pool.Has f ↔ s.pool.Has f) ∧
    ∀ f, s.pool.Used f → s'.pool.Used f := by
  induction h with
  | refl => exact ⟨fun _ => Iff.rfl, fun _ => id⟩
  | tail _ hstep ih =>
    obtain ⟨q, i, t, g, table, e, hstep⟩ := hstep
    obtain ⟨s1, hs1, rfl⟩ := hstep.got
    have htaken := pmmAllocPage_taken hs1
    exact ⟨fun f => (htaken.has f).trans (ih.1 f),
      fun f hf => (htaken.used f).mpr (.inl (ih.2 f hf))⟩

theorem fill_fill (m : Memory) (g : Frame) (table table' : Index → Entry) :
    fill (fill m g table) g table' = fill m g table' := Function.update_idem ..

theorem nextTable_links (hc : Clean A s R r v) (hon : q ++ [i] <+: v)
    (hshort : q.length ≤ 2) (hreach : walk s.mem r q = some t)
    (hflags : flags = userFlags ∨ flags = kernelFlags)
    (hsmall : q.length = 2 → present (s.mem t i) = true → huge (s.mem t i) = false)
    (h : nextTable A.alloc flags s t i = some (g, s')) :
    Links A v r s s' ∧ walk s'.mem r (q ++ [i]) = some g := by
  unfold nextTable at h
  split at h
  · rename_i hhere
    obtain ⟨rfl, rfl⟩ := h
    refine ⟨.refl, ?_⟩
    have hchild : child q.length (s.mem t i) = some (frame (s.mem t i)) := by
      have hone := fun h => hc.plain hon h hreach hhere
      have htwo := fun h => hsmall h hhere
      unfold child
      rw [hhere]
      by_cases h1 : q.length = 1
      · simp [hone h1]
      · by_cases h2 : q.length = 2
        · simp [htwo h2]
        · simp [h1, h2]
    unfold walk
    rw [walk_snoc, show Radix.walk child s.mem 0 r q = some t from hreach, bind_some,
      zero_add, hchild]
  · rename_i habsent
    split at h
    · cases h
    rename_i g' s1 hs1
    have habsent : present (s.mem t i) = false := by simpa using habsent
    simp only [some.injEq, write_self] at h
    obtain ⟨rfl, rfl⟩ := h
    have hframe : frame (addr g' ||| flags) = g' := by
      refine frame_addr_or ?_
      rcases hflags with rfl | rfl <;> decide
    have hlinked : Linked A v r s { s1 with mem := write s1.mem t i (addr g' ||| flags) }
        q i t g' emptyTable (addr g' ||| flags) :=
      ⟨hon, hshort, hreach, .empty hflags habsent, s1, hs1, by rw [A.mem hs1]⟩
    rw [hframe]
    exact ⟨.single ⟨q, i, t, g', _, _, hlinked⟩, hlinked.reach_new hc⟩

/-- A page of 2 MiB is split, or there is none. -/
theorem splitHuge_links (hon : q ++ [i] <+: v) (hshort : q.length = 2)
    (hreach : walk s.mem r q = some t) (h : splitHuge s t i = some s') : Links pmm v r s s' ∧
      (present (s'.mem t i) = true → huge (s'.mem t i) = false) := by
  unfold splitHuge at h
  simp only at h
  split at h
  · rename_i hbig
    rw [Bool.and_eq_true] at hbig
    split at h
    · cases h
    rename_i g s1 hs1
    have hkind := NewTable.parts (g := g) hshort hbig.1 hbig.2
    obtain rfl := some.inj h
    refine ⟨.single ⟨q, i, t, g, _, _, hon, by omega, hreach, hkind, s1, hs1, ?_⟩, fun _ => ?_⟩
    · rw [(pmmAllocPage_taken hs1).mem, fill_fill]
    · simp only [write_self]
      exact hkind.not_huge
  · rename_i hsmall
    obtain rfl := some.inj h
    refine ⟨.refl, fun hhere => ?_⟩
    simpa [hhere] using hsmall

end Links

/-- What `paging_map_for_process` does: it links tables in, and writes the entry of
the page if it returns 0. -/
inductive Mapped (r : Frame) (phys virt flags : BitVec 64) (s : Machine) :
    Int × Machine → Prop
  | failed {s₁ : Machine} (links : Links pmm (path virt) r s s₁) :
      Mapped r phys virt flags s (-1, s₁)
  | page {s₁ : Machine} {pt : Frame} (links : Links pmm (path virt) r s s₁)
      (small : huge flags = false)
      (reach : walk s₁.mem r [index virt 39, index virt 30, index virt 21] = some pt) :
      Mapped r phys virt flags s
        (0, { s₁ with mem := write s₁.mem pt (index virt 12) ((phys &&& ~~~0xFFF#64) ||| flags) })
  | big {s₁ : Machine} {pd : Frame} (links : Links pmm (path virt) r s s₁)
      (large : huge flags = true) (reach : walk s₁.mem r [index virt 39, index virt 30] = some pd)
      (bare : child 2 (s₁.mem pd (index virt 21)) = none) :
      Mapped r phys virt flags s
        (0, { s₁ with
          mem := write s₁.mem pd (index virt 21) ((phys &&& ~~~0x1FFFFF#64) ||| flags) })

theorem pagingMapForProcess_mapped {s : Machine} {R : Set Frame} {r : Frame} {virt : BitVec 64}
    (phys flags : BitVec 64) (hc : Clean pmm s R r (path virt)) :
    Mapped r phys virt flags s (pagingMapForProcess s r phys virt flags) := by
  unfold pagingMapForProcess
  split
  · exact .failed .refl
  rename_i pdpt s1 hpdpt
  obtain ⟨hlinks1, hreach1⟩ := nextTable_links (A := pmm) (q := []) hc ⟨_, rfl⟩ (by decide) rfl
    (.inl rfl) nofun hpdpt
  have hc1 := hlinks1.clean hc hc
  split
  · exact .failed hlinks1
  rename_i pd s2 hpd
  obtain ⟨hlinks2, hreach2⟩ := nextTable_links (A := pmm) hc1 ⟨[index virt 21, index virt 12], rfl⟩
    (by simp) hreach1 (.inl rfl) nofun hpd
  have hc2 := hlinks2.clean hc1 hc1
  have hlinks := hlinks1.trans hlinks2
  split
  · rename_i hlarge
    split
    · exact .failed hlinks
    · rename_i hbare
      refine .big hlinks hlarge hreach2 ?_
      unfold child
      cases hpresent : present (s2.mem pd (index virt 21)) <;>
        cases hhuge : huge (s2.mem pd (index virt 21)) <;> simp_all
  · rename_i hsmall
    split
    · exact .failed hlinks
    rename_i s3 hs3
    obtain ⟨hlinks3, hplain⟩ := splitHuge_links ⟨[index virt 12], rfl⟩ rfl hreach2 hs3
    have hc3 := hlinks3.clean hc2 hc2
    have hreach3 := hlinks3.kept hc2 hc2.root (by simp) hreach2
    split
    · exact .failed (hlinks.trans hlinks3)
    · rename_i pt s4 hpt
      obtain ⟨hlinks4, hreach4⟩ := nextTable_links (A := pmm) hc3 ⟨[index virt 12], rfl⟩ (by simp)
        hreach3 (.inl rfl) (fun _ => hplain) hpt
      exact .page ((hlinks.trans hlinks3).trans hlinks4) (by simpa using hsmall) hreach4

namespace Mapped

variable {phys virt flags : BitVec 64} {c : Int}

/-- A page of 2 MiB has no table behind it. -/
theorem child_big (large : huge flags = true) :
    child 2 ((phys &&& ~~~0x1FFFFF#64) ||| flags) = none := by
  have hhuge : huge ((phys &&& ~~~0x1FFFFF#64) ||| flags) = true := by
    unfold huge at *
    rw [BitVec.getLsbD_or, large, Bool.or_true]
  unfold child
  rw [hhuge]
  simp

section

variable (h : Mapped r phys virt flags s (c, s')) (hc : Clean pmm s R r (path virt))
include h hc

theorem clean (hc2 : Clean pmm s R r₂ v₂) : Clean pmm s' R r₂ v₂ := by
  cases h with
  | failed links => exact links.clean hc hc2
  | page links _ reach =>
    exact (links.clean hc hc).write_clean (links.clean hc hc2) ⟨[index virt 12], rfl⟩
      (by simp) reach (.inl rfl)
  | big links large reach bare =>
    exact (links.clean hc hc).write_clean (links.clean hc hc2)
      ⟨[index virt 21, index virt 12], rfl⟩ (by simp) reach (.inr ⟨bare, child_big large⟩)

/-- **The translations of other pages are as before.** -/
theorem translate_other (hr' : r' ∈ R) {virt' : BitVec 64} (hoff : r' = r → path virt' ≠ path virt)
    (hbig : r' = r → huge flags = true → ¬ (path virt).take 3 <+: path virt') :
    translate s'.mem r' virt' = translate s.mem r' virt' := by
  cases h with
  | failed links => exact links.translate_eq hc hr' virt'
  | page links _ reach =>
    rw [← links.translate_eq hc hr' virt']
    unfold translate
    rw [((links.clean hc hc).write_off (i := index virt 12) ⟨[index virt 12], rfl⟩ (by simp) reach
      _ hr' (by simp) ?_).2]
    rintro ⟨rfl, hinit⟩
    exact hoff rfl (hinit.eq_of_length (by simp)).symm
  | big links large reach bare =>
    rw [← links.translate_eq hc hr' virt']
    unfold translate
    rw [((links.clean hc hc).write_off (i := index virt 21) ⟨[index virt 21, index virt 12], rfl⟩
      (by simp) reach _ hr' (by simp) ?_).2]
    rintro ⟨rfl, hinit⟩
    exact hbig rfl large hinit

end

/-- **A page is mapped.** -/
theorem trail_page (h : Mapped r phys virt flags s (0, s')) (hc : Clean pmm s R r (path virt))
    (hsmall : huge flags = false) : ∃ es, es.length = 3 ∧
      trail s'.mem r (path virt) = es ++ [(phys &&& ~~~0xFFF#64) ||| flags] := by
  cases h with
  | @page s1 pt links _ reach =>
    refine ⟨trail s1.mem r [index virt 39, index virt 30, index virt 21], length_trail reach, ?_⟩
    exact (links.clean hc hc).write_trail (i := index virt 12) ⟨[index virt 12], rfl⟩ (by simp)
      reach _ [] (.inl rfl)
  | big _ large _ _ =>
    rw [hsmall] at large
    cases large

section

variable (h : Mapped r phys virt flags s (c, s'))
include h

/-- What a call is made of: links, and a write to a table on the way. -/
theorem split : ∃ s1, Links pmm (path virt) r s s1 ∧
    (s' = s1 ∨ ∃ q i t e, q ++ [i] <+: path virt ∧ 2 ≤ q.length ∧ walk s1.mem r q = some t ∧
      (q.length = 3 ∨ child q.length (s1.mem t i) = none ∧ child q.length e = none) ∧
      s' = { s1 with mem := write s1.mem t i e }) := by
  cases h with
  | failed links => exact ⟨s', links, .inl rfl⟩
  | @page s1 pt links _ reach =>
    exact ⟨s1, links, .inr ⟨_, index virt 12, pt, _, ⟨[], rfl⟩, by simp, reach, .inl rfl, rfl⟩⟩
  | @big s1 pd links large reach bare =>
    exact ⟨s1, links, .inr ⟨_, index virt 21, pd, _, ⟨[index virt 12], rfl⟩, by simp, reach,
      .inr ⟨bare, child_big large⟩, rfl⟩⟩

theorem reached (hc : Clean pmm s R r (path virt)) (hr' : r' ∈ R)
    (hp : p.length ≤ 3) {f : Frame} (hf : walk s'.mem r' p = some f) :
    walk s.mem r' p = some f ∨ s.pool.Free f := by
  obtain ⟨s1, links, rfl | ⟨q, i, t, e, on, long, reach, leaf, rfl⟩⟩ := h.split
  · exact links.reached hc hr' hp hf
  · have hlen := on.length_le
    simp only [length_append, length_singleton, length_path] at hlen
    have hon : q <+: path virt := (prefix_append q [i]).trans on
    rw [(links.clean hc hc).write_walk hon (by omega) reach leaf hr' hp] at hf
    exact links.reached hc hr' hp hf

theorem mem_eq (hc : Clean pmm s R r (path virt)) {f : Frame}
    (htable : ∀ q, q.length ≤ 3 → walk s.mem r q ≠ some f) (hfree : ¬ s.pool.Free f) :
    s'.mem f = s.mem f := by
  obtain ⟨s1, links, rfl | ⟨q, i, t, e, on, long, reach, leaf, rfl⟩⟩ := h.split
  · exact links.mem_eq hc htable hfree
  have hlen := on.length_le
  simp only [length_append, length_singleton, length_path] at hlen
  have ht : f ≠ t := by
    rintro rfl
    rcases links.reached hc hc.root (by omega) reach with hold | hold
    · exact htable q (by omega) hold
    · exact hfree hold
  simp only [write_table_of_ne _ _ _ ht]
  exact links.mem_eq hc htable hfree

theorem pool : (∀ f, s'.pool.Has f ↔ s.pool.Has f) ∧ ∀ f, s.pool.Used f → s'.pool.Used f := by
  obtain ⟨s1, links, rfl | ⟨_, _, _, _, _, _, _, _, rfl⟩⟩ := h.split
  · exact links.pool
  · exact links.pool

theorem free {f : Frame} (hf : s'.pool.Free f) : s.pool.Free f :=
  ⟨(h.pool.1 f).mp hf.1, fun hused => hf.2 (h.pool.2 f hused)⟩

/-- After an error every page is as before. -/
theorem translate_failed (hfail : c ≠ 0) (hc : Clean pmm s R r (path virt)) (hr' : r' ∈ R)
    (virt' : BitVec 64) : translate s'.mem r' virt' = translate s.mem r' virt' := by
  cases h with
  | failed links => exact links.translate_eq hc hr' virt'
  | page _ _ _ | big _ _ _ _ => exact absurd rfl hfail

end

end Mapped

end Utms7.Paging
