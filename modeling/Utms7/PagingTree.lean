import Utms7.PagingMap

/-!
# Mapping a page in a tree

The result of `paging_map_for_process` on a tree of page tables: the page has the
new frame and flags, and every other page of 4 KiB is translated as before, also
where a page of 2 MiB had to be split.
-/

namespace Utms7.Paging

open Radix ByteMemory List

/-- The tables at `root` are a tree: none is reached twice, none is a page that the
allocator may give out, and there are no entries of 1 GiB. -/
structure PageTree (s : Machine) (root : Frame) : Prop where
  once : ∀ {q q' t}, q.length ≤ 3 → q'.length ≤ 3 → walk s.mem root q = some t →
    walk s.mem root q' = some t → q = q'
  busy : ∀ {q t}, q.length ≤ 3 → walk s.mem root q = some t → ¬ s.pool.Free t
  small : ∀ {i j t}, walk s.mem root [i] = some t → present (s.mem t j) = true →
    huge (s.mem t j) = false

variable {s : Machine} {root : Frame}

namespace PageTree

theorem clean (h : PageTree s root) (v : List Index) : Clean pmm s {root} root v where
  root := rfl
  once {q t} _ hlen hwalk r' q' hr' hlen' hwalk' := by
    obtain rfl := hr'
    exact ⟨rfl, h.once hlen' hlen hwalk' hwalk⟩
  busy {r' q t} hr' hlen hwalk := by
    obtain rfl := hr'
    exact h.busy hlen hwalk
  plain {q i t} _ hlen hwalk hhere := by
    obtain ⟨j, rfl⟩ := length_eq_one_iff.mp hlen
    exact h.small hwalk hhere

theorem of_clean (h : ∀ v, Clean pmm s {root} root v) : PageTree s root where
  once {q _ _} hlen hlen' hwalk hwalk' :=
    ((h q).once (prefix_refl q) hlen hwalk rfl hlen' hwalk').2.symm
  busy hlen hwalk := (h []).busy rfl hlen hwalk
  small {i j _} hwalk hhere := (h [i, j]).plain (prefix_refl [i, j]) rfl hwalk hhere

/-- Mapping keeps the tree. -/
theorem map (h : PageTree s root) (phys virt flags : BitVec 64) :
    PageTree (pagingMapForProcess s root phys virt flags).2 root := by
  have hmapped := pagingMapForProcess_mapped phys flags (h.clean (path virt))
  exact of_clean fun v => hmapped.clean (h.clean _) (h.clean v)

end PageTree

theorem getLsbD_addr (f : Frame) (i : Nat) :
    (addr f).getLsbD i = (decide (12 ≤ i) && f.getLsbD (i - 12)) := by
  rw [addr, BitVec.getLsbD_shiftLeft]
  by_cases hi : i < 52
  · have h1 : i < 64 := by omega
    have h2 : i - 12 < 64 := by omega
    by_cases h3 : i < 12
    · have h4 : ¬ 12 ≤ i := by omega
      simp [h4]
    · have h4 : 12 ≤ i := by omega
      simp [h1, h2, h4]
  · have hbit : f.getLsbD (i - 12) = false := BitVec.getLsbD_of_ge f _ (by omega)
    simp [hbit]

theorem addr_and_mask (f : Frame) : addr f &&& ~~~0xFFF#64 = addr f := by
  refine BitVec.eq_of_getLsbD_eq fun i hi => ?_
  rw [BitVec.getLsbD_and, BitVec.getLsbD_not,
    show (0xFFF#64 : BitVec 64) = BitVec.ofNat 64 (2 ^ 12 - 1) from rfl, getLsbD_mask, getLsbD_addr]
  by_cases h : 12 ≤ i
  · have h1 : ¬ i < 12 := by omega
    simp [h1, hi]
  · simp [h]

theorem entry_flags {f : Frame} {flags : BitVec 64} (hframe : frame flags = 0#40) :
    (addr f ||| flags) &&& ~~~0xFFFFFFFFFF000#64 = flags := by
  refine BitVec.eq_of_getLsbD_eq fun i hi => ?_
  have hmask : (0xFFFFFFFFFF000#64 : BitVec 64) = BitVec.ofNat 64 (2 ^ 40 - 1) <<< 12 := by decide
  rw [BitVec.getLsbD_and, BitVec.getLsbD_or, BitVec.getLsbD_not, hmask, BitVec.getLsbD_shiftLeft,
    getLsbD_mask, getLsbD_addr]
  by_cases h : 12 ≤ i
  · by_cases h' : i < 52
    · have hbit : flags.getLsbD i = false := by
        have hzero := congrArg (fun x => x.getLsbD (i - 12)) hframe
        simp only [frame, BitVec.getLsbD_extractLsb'] at hzero
        rw [show 12 + (i - 12) = i by omega,
          show decide (i - 12 < 40) = true by simp; omega] at hzero
        simpa using hzero
      have h1 : ¬ i < 12 := by omega
      have h2 : i - 12 < 64 := by omega
      have h3 : i - 12 < 40 := by omega
      rw [hbit]
      simp [h1, h2, h3]
    · have hbit : f.getLsbD (i - 12) = false := BitVec.getLsbD_of_ge f _ (by omega)
      have h3 : ¬ i - 12 < 40 := by omega
      simp [hbit, hi, h3]
  · have h1 : i < 12 := by omega
    simp [h1, hi]

section Map

variable {f : Frame} {virt flags : BitVec 64}

/-- A call that returns 0 maps the page. -/
theorem PageTree.map_page (h : PageTree s root) (hsmall : huge flags = false)
    (hpresent : present flags = true) (hframe : frame flags = 0#40)
    (hzero : (pagingMapForProcess s root (addr f) virt flags).1 = 0) :
    (translate (pagingMapForProcess s root (addr f) virt flags).2.mem root virt).map Mapping.frame =
        some f ∧
      pageFlags (pagingMapForProcess s root (addr f) virt flags).2.mem root virt = some flags := by
  have hmapped := pagingMapForProcess_mapped (addr f) flags (h.clean (path virt))
  generalize pagingMapForProcess s root (addr f) virt flags = r at hzero hmapped ⊢
  obtain ⟨c, s'⟩ := r
  obtain rfl : c = 0 := hzero
  obtain ⟨es, hlen, htrail⟩ := hmapped.trail_page (h.clean _) hsmall
  rw [addr_and_mask] at htrail
  constructor
  · unfold translate
    rw [htrail, mapping_append, present_addr_or, hpresent, hlen]
    exact congrArg some (frame_addr_or hframe)
  · obtain ⟨a, b, c, rfl⟩ := length_eq_three.mp hlen
    unfold pageFlags
    rw [htrail]
    simp only [cons_append, nil_append, present_addr_or, hpresent, if_true, entry_flags hframe]

/-- Other pages keep their translations; after an error all do. -/
theorem PageTree.map_other (h : PageTree s root) {phys virt' : BitVec 64}
    (hoff : (pagingMapForProcess s root phys virt flags).1 = 0 →
      if huge flags then ¬ (path virt).take 3 <+: path virt' else path virt' ≠ path virt) :
    translate (pagingMapForProcess s root phys virt flags).2.mem root virt' =
      translate s.mem root virt' := by
  have hmapped := pagingMapForProcess_mapped phys flags (h.clean (path virt))
  generalize pagingMapForProcess s root phys virt flags = r at hoff hmapped ⊢
  cases hmapped with
  | failed links => exact links.translate_eq (h.clean _) rfl virt'
  | page links small reach =>
    have hne := hoff rfl
    rw [small] at hne
    refine (Mapped.page links small reach).translate_other (h.clean _) rfl (fun _ => hne) ?_
    intro _ hlarge
    rw [small] at hlarge
    cases hlarge
  | big links large reach bare =>
    have hne := hoff rfl
    rw [large] at hne
    refine (Mapped.big links large reach bare).translate_other (h.clean _) rfl ?_ fun _ _ => hne
    intro _ heq
    rw [heq] at hne
    exact hne ( take_prefix 3 _)

/-- **Mapping a page of a process.**  Where the flags are flags, with
`PAGE_PRESENT` among them, a call that returns 0 gives the page its frame and its
flags.  All other pages keep their translations, and all pages do if the call
returns -1.  A call with `PAGE_HUGE` changes nothing outside its 2 MiB. -/
theorem paging_map_for_process_right (h : PageTree s root) : (huge flags = false → ∀ virt,
      (∀ f, (pagingMapForProcess s root (addr f) virt flags).1 = 0 →
        present flags = true ∧ frame flags = 0#40 →
          (translate (pagingMapForProcess s root (addr f) virt flags).2.mem root virt).map
              Mapping.frame = some f ∧
            pageFlags (pagingMapForProcess s root (addr f) virt flags).2.mem root virt =
              some flags) ∧
      ∀ phys, ((pagingMapForProcess s root phys virt flags).1 = 0 →
          ∀ virt', path virt' ≠ path virt →
            translate (pagingMapForProcess s root phys virt flags).2.mem root virt' =
              translate s.mem root virt') ∧
        ((pagingMapForProcess s root phys virt flags).1 = -1 → ∀ virt',
          translate (pagingMapForProcess s root phys virt flags).2.mem root virt' =
            translate s.mem root virt')) ∧
    (huge flags = true → ∀ virt phys, (pagingMapForProcess s root phys virt flags).1 = 0 →
      ∀ virt', (path virt').take 3 ≠ (path virt).take 3 →
        translate (pagingMapForProcess s root phys virt flags).2.mem root virt' =
          translate s.mem root virt') := by
  refine ⟨fun hsmall virt => ⟨fun f hzero hflags => ?_, fun phys => ⟨fun _ virt' hne => ?_, ?_⟩⟩,
    fun hlarge virt phys _ virt' hne => ?_⟩
  · exact h.map_page hsmall hflags.1 hflags.2 hzero
  · refine h.map_other fun _ => ?_
    rw [hsmall]
    exact hne
  · intro herr virt'
    refine h.map_other fun hzero => ?_
    rw [herr] at hzero
    cases hzero
  · refine h.map_other fun _ => ?_
    rw [hlarge]
    intro hinit
    exact hne (prefix_iff_eq_take.mp hinit).symm

end Map

/-! ## A small machine -/

/-- Memory that is cleared, with eight free pages. -/
def emptyMachine : Machine where
  mem := fun _ => emptyTable
  pool := { base := 256, total := 8, used := fun _ => false, cursor := 0, low := by decide,
            high := by decide }

theorem walk_emptyMachine {root t : Frame} {q : List Index}
    (h : walk emptyMachine.mem root q = some t) : q = [] ∧ t = root := by
  cases q with
  | nil => exact ⟨rfl, (Option.some.inj h).symm⟩
  | cons i q =>
    unfold walk at h
    rw [walk_cons, show emptyMachine.mem root i = emptyTable i from rfl,
      child_of_not_present (present_emptyTable i)] at h
    cases h

theorem emptyMachine_tree : PageTree emptyMachine 1#40 where
  once _ _ h h' := (walk_emptyMachine h).1.trans (walk_emptyMachine h').1.symm
  busy _ h := by
    rw [(walk_emptyMachine h).2]
    rintro ⟨⟨hlo, -⟩, -⟩
    exact absurd hlo (by decide)
  small h _ := absurd (walk_emptyMachine h).1 (by simp)

theorem paging_map_for_process_right_first : PageTree emptyMachine 1#40 ∧
    (translate (pagingMapForProcess emptyMachine 1#40 (addr 512#40) 0x40000000#64 7#64).2.mem 1#40
      0x40000000#64).map Mapping.frame = some 512#40 :=
  ⟨emptyMachine_tree, (((paging_map_for_process_right emptyMachine_tree).1 (by decide)
    0x40000000#64).1 512#40 (by decide +kernel) (by decide)).1⟩

/-- Without `PAGE_PRESENT` the page is not there. -/
theorem absent_page_not_translated : PageTree emptyMachine 1#40 ∧ huge 0#64 = false ∧
    (pagingMapForProcess emptyMachine 1#40 (addr 512#40) 0x40000000#64 0#64).1 = 0 ∧
    ¬ ((translate (pagingMapForProcess emptyMachine 1#40 (addr 512#40)
      0x40000000#64 0#64).2.mem 1#40
      0x40000000#64).map Mapping.frame = some 512#40) :=
  ⟨emptyMachine_tree, by decide, by decide +kernel, by decide +kernel⟩

end Utms7.Paging
