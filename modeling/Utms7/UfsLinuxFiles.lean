import Utms7.UfsFileData
import Utms7.UfsLinuxVolume

/-!
# File data in the Linux driver

The driver writes through the page cache.  `ufs_write_begin` hands out a page,
the caller fills it, and `ufs_write_end` stores it in the block that the extents
give for the position.  The state is the file system, the page cache and what
was written to each open file.

A block that `ufs_write_begin` allocates becomes the last one of the file,
whatever page it was allocated for, and is not cleared.  `PageCall.InOrder`
says when that does no harm.
-/

namespace Utms7

open ByteMemory Function List Option Volume Nat

namespace Linux

variable {ui : UfsInodeInfo} {v : Volume} {n index b i pos : Nat}

/-- The file system, the pages in the cache and the bytes that were written to
the open files, each by inode number. -/
structure PageState where
  fs : UfsSbInfo
  cache : Nat → Nat → Option Bytes
  written : Nat → Option Bytes

/-- What happens to open files: a pair of `ufs_write_begin` and `ufs_write_end`
with the caller's copy in between, and the page cache reading and dropping a page. -/
inductive PageCall where
  | write (inode pos : Nat) (buf : Bytes) (copied : Nat)
  | read (inode index : Nat)
  | drop (inode index : Nat)

namespace PageState

def cachePage (p : PageState) (inode index : Nat) (page : Option Bytes) : PageState :=
  { p with cache := update p.cache inode (update (p.cache inode) index page) }

/-- Reading any page yields the bytes that were written to it. -/
def ReadsBack (p : PageState) : Prop :=
  ∀ n f, p.written n = some f → ∀ index, index < 2 ^ 32 → ∀ i, i < 4096 →
    ufsReadFolio p.fs n index i = f (4096 * index + i)

end PageState

namespace PageCall

def run (p : PageState) : PageCall → PageState
  | write inode pos buf copied =>
    match ufsWriteBegin p.fs inode pos (p.cache inode (pos / 4096)) with
    | (.error _, fs) => { p with fs := fs }
    | (.ok page, fs) =>
      let page := blit page (pos % 4096) buf copied
      { p.cachePage inode (pos / 4096) (some page) with
        fs := ufsWriteEnd fs inode pos copied page
        written := update p.written inode
          ((p.written inode).map fun f => blit f pos buf copied) }
  | read inode index =>
    p.cachePage inode index
      (some ((p.cache inode index).getD (ufsReadFolio p.fs inode index)))
  | drop inode index => p.cachePage inode index none

/-- A write that the driver serves right: to a block the file has, or to the one
right behind them if an extent is free and the block that the allocator takes
next holds zeros or the page is in the cache. -/
def InOrder (p : PageState) : PageCall → Prop
  | write inode pos _ copied =>
    let blocks := (blockList (deref p.fs inode).diskInode.extents).length
    (p.written inode).isSome ∧ pos % 4096 + copied ≤ 4096 ∧ pos / 4096 < 2 ^ 32 ∧
      (pos / 4096 < blocks ∨
        pos / 4096 = blocks ∧ (∃ e ∈ (deref p.fs inode).diskInode.extents, e.len = 0#32) ∧
          ((p.cache inode (pos / 4096)).isSome ∨ sbBread p.fs.disk (ufsAllocBlock p.fs).1 = zeros))
  | _ => True

end PageCall

/-- The pages of a file are in step with what was written to it. -/
structure FileInStep (p : PageState) (v : Volume) (n : Nat) (f : Bytes) : Prop where
  open_ : (p.fs.inodes n).isSome
  byte : bytesOfBlocks v.data (v.blocksOf n) = f
  cached : ∀ {index page}, index < 2 ^ 32 → p.cache n index = some page →
    ∀ i, i < 4096 → page i = f (4096 * index + i)

/-- What writes in order keep. -/
structure PageState.Sound (p : PageState) (v : Volume) : Prop where
  shows_ : Shows p.fs v
  intact : v.Intact
  files : ∀ {n f}, p.written n = some f → FileInStep p v n f

section Blocks

variable {s : UfsSbInfo}

section

variable (h : Shows s v) (hi : v.Intact) (hn : s.inodes n = some ui)
include h hi hn

theorem readFolio_eq (hindex : index < 2 ^ 32) (hlt : i < 4096) :
    ufsReadFolio s n index i = bytesOfBlocks v.data (v.blocksOf n) (4096 * index + i) := by
  have hpos : (4096 * index + i) / 4096 = index := by omega
  have hoff : (4096 * index + i) % 4096 = i := by omega
  have hstart := hi.sized.start
  unfold ufsReadFolio bytesOfBlocks
  rw [Shows.deref_eq hn, mod_eq_of_lt hindex, hpos, hoff]
  cases hb : (v.blocksOf n)[index]? with
  | none =>
    rw [physBlock_none h hi hn (List.getElem?_eq_none_iff.mp hb)]
    rfl
  | some b =>
    obtain ⟨hblock, hlo, hhi⟩ := physBlock_some h hi hn hb
    simp only [hblock]
    rw [if_neg (by omega), sbBread_data h.holds hlo hhi]

theorem writeEnd_shows (hpos : pos / 4096 < 2 ^ 32)
    (hb : (v.blocksOf n)[pos / 4096]? = some b) (copied : Nat) (page : Bytes) :
    ∃ inode, inode.extents = (v.inode n).extents ∧
      Shows (ufsWriteEnd s n pos copied page) ((v.setData b page).setInode n inode) ∧
      ∀ k, (s.inodes k).isSome → ((ufsWriteEnd s n pos copied page).inodes k).isSome := by
  obtain ⟨hblock, hlo, hhi⟩ := physBlock_some h hi hn hb
  have hstep := h.core hn
  have hstart := hi.sized.start
  have hsync := h.syncBuffer hlo hhi page
  have hui : deref (syncBuffer s b page) n = ui := Shows.deref_eq hn
  unfold ufsWriteEnd
  rw [Shows.deref_eq hn, mod_eq_of_lt hpos, hblock]
  simp only [if_pos (show b > 0 by omega), hui]
  split
  · refine ⟨({ ui with iSize := pos + copied } : UfsInodeInfo).record, hstep.extents,
      hsync.writeInode (v := v.setData b page) hstep.has hstep.ino, fun k hk => ?_⟩
    unfold ufsWriteInode storeInode
    simp only [syncBuffer, assign]
    by_cases hkn : k = n
    · rw [hkn, update_self]
      rfl
    · rw [update_of_ne hkn, update_of_ne hkn]
      exact hk
  · refine ⟨(v.setData b page).inode n, rfl, ?_, fun k hk => hk⟩
    rwa [setInode_self]

/-- `ufs_write_begin` for a page that has no block: the block that the allocator
takes next goes to the end of the file. -/
theorem writeBegin_shows (hpos : pos / 4096 < 2 ^ 32)
    (hidx : (v.blocksOf n).length ≤ pos / 4096) (hb : firstFree v = some b)
    (hfree : ∃ e ∈ (v.inode n).extents, e.len = 0#32) (cached : Option Bytes) :
    ∃ s' v', ufsWriteBegin s n pos cached = (.ok (cached.getD (v.data b)), s') ∧ Shows s' v' ∧
      v'.Intact ∧ v'.data = v.data ∧ v'.blocksOf n = v.blocksOf n ++ [b] ∧
      (∀ k, k ≠ n → v'.blocksOf k = v.blocksOf k) ∧
      (∀ k, (s.inodes k).isSome → (s'.inodes k).isSome) := by
  have hui := h.core hn
  have hsmall := hi.sized.small
  have hstart := hi.sized.start
  obtain ⟨hlo, hhi, -⟩ := firstFree_spec hb
  obtain ⟨hnum, hcore, hclaimed⟩ := h.allocBlock hb
  have hblock := physBlock_none h hi hn hidx
  have hderef : deref (ufsAllocBlock s).2 n = ui := Shows.deref_eq (by rw [hcore]; exact hn)
  have hino : (ui.addBlock b).ino = n := hui.ino
  have hshows := hclaimed.writeInode hui.has hino
  have hrecord : (ui.addBlock b).record.extents = addExtent (v.inode n).extents b := by
    change addExtent ui.diskInode.extents b = _
    rw [hui.extents]
  have hshape : v.SameShape ((claimBlock v b).setInode n (ui.addBlock b).record) := ⟨rfl, rfl, rfl⟩
  have hread : sbBread (ufsWriteInode (assign (ufsAllocBlock s).2 n (ui.addBlock b)) n).disk b =
      v.data b := sbBread_data hshows.holds hlo hhi
  refine ⟨_, _, ?_, hshows, intact_claimBlock hi hui.has hb hrecord, rfl, ?_, fun k hk => ?_,
    fun k hk => ?_⟩
  · unfold ufsWriteBegin
    simp only [Shows.deref_eq hn, mod_eq_of_lt hpos, hblock, if_true, hnum, hderef,
      if_neg (show b ≠ 0 by omega), hread]
  · rw [blocksOf_of_hasInode (v := (claimBlock v b).setInode n _) hui.has,
      blocksOf_of_hasInode hui.has,
      ← blockList_addExtent (hi.placed n hui.has) (by omega) hfree, ← hrecord]
    simp [setInode]
  · exact hshape.blocksOf_eq (by simp [setInode, hk, claimBlock, recount, setBit])
  · simp only [ufsWriteInode, storeInode_inodes, assign]
    by_cases hkn : k = n
    · rw [hkn, update_self]
      rfl
    · rw [update_of_ne hkn, update_of_ne hkn, hcore]
      exact hk

end

end Blocks

/-- A page that was filled by the caller and stored is a write to the file. -/
theorem stored_bytes {data : Nat → Bytes} {bs : List Nat} (hnodup : bs.Nodup) {copied : Nat}
    (hb : bs[pos / 4096]? = some b) {f page buf : Bytes}
    (hpage : ∀ i, i < 4096 → page i = f (4096 * (pos / 4096) + i))
    (hrest : ∀ p, p / 4096 ≠ pos / 4096 → bytesOfBlocks data bs p = f p)
    (hfit : pos % 4096 + copied ≤ 4096) :
    bytesOfBlocks (update data b (window (blit page (pos % 4096) buf copied) 0 4096)) bs =
      blit f pos buf copied := by
  funext p
  rw [bytesOfBlocks_store hnodup hb]
  split
  · rename_i hp
    by_cases hin : pos % 4096 ≤ p % 4096 ∧ p % 4096 < pos % 4096 + copied
    · rw [blit_inside hin.1 hin.2, blit_inside (by omega) (by omega)]
      congr 1
      omega
    · rw [blit_outside (by omega), blit_outside (by omega), hpage _ (by omega)]
      congr 1
      omega
  · rename_i hp
    rw [hrest p hp, blit_outside (by omega)]

namespace PageState.Sound

variable {p : PageState} {pos copied : Nat} {buf page f : Bytes}

/-- The pages of a file after a write to one of them. -/
theorem cached_write (hcached : ∀ {index page}, index < 2 ^ 32 → p.cache n index = some page →
      ∀ i, i < 4096 → page i = f (4096 * index + i))
    (hpage : ∀ i, i < 4096 → page i = f (4096 * (pos / 4096) + i))
    (hfit : pos % 4096 + copied ≤ 4096) {page' : Bytes} (hindex : index < 2 ^ 32)
    (hpage' : update (p.cache n) (pos / 4096) (some (blit page (pos % 4096) buf copied))
      index = some page') (hi : i < 4096) : page' i = blit f pos buf copied (4096 * index + i) := by
  by_cases hidx : index = pos / 4096
  · subst hidx
    rw [update_self, Option.some.injEq] at hpage'
    subst hpage'
    by_cases hin : pos % 4096 ≤ i ∧ i < pos % 4096 + copied
    · rw [blit_inside hin.1 hin.2, blit_inside (by omega) (by omega)]
      congr 1
      omega
    · rw [blit_outside (by omega), blit_outside (by omega), hpage i hi]
  · rw [update_of_ne hidx] at hpage'
    rw [blit_outside (by omega)]
    exact hcached hindex hpage' i hi

theorem writeEnd {s : UfsSbInfo} (hs : Shows s v) (hi : v.Intact)
    (hopen : s.inodes n = some ui) (hpos : pos / 4096 < 2 ^ 32)
    (hb : (v.blocksOf n)[pos / 4096]? = some b) (hfit : pos % 4096 + copied ≤ 4096)
    (hfile : p.written n = some f) (hpage : ∀ i, i < 4096 → page i = f (4096 * (pos / 4096) + i))
    (hrest : ∀ q, q / 4096 ≠ pos / 4096 → bytesOfBlocks v.data (v.blocksOf n) q = f q)
    (hcached : ∀ {index page}, index < 2 ^ 32 → p.cache n index = some page →
      ∀ i, i < 4096 → page i = f (4096 * index + i))
    (hothers : ∀ {k g}, k ≠ n → p.written k = some g → FileInStep { p with fs := s } v k g) :
    ∃ v', PageState.Sound
      { p.cachePage n (pos / 4096) (some (blit page (pos % 4096) buf copied)) with
        fs := ufsWriteEnd s n pos copied (blit page (pos % 4096) buf copied)
        written := update p.written n
          ((p.written n).map fun f => blit f pos buf copied) } v' := by
  obtain ⟨inode, hext, hshows, hcore⟩ := writeEnd_shows hs hi hopen hpos hb copied
    (blit page (pos % 4096) buf copied)
  have hhas := (hs.core hopen).has
  have hshape : v.SameShape ((v.setData b (blit page (pos % 4096) buf copied)).setInode n inode) :=
    ⟨rfl, rfl, rfl⟩
  have hblocks : ∀ k, ((v.setData b (blit page (pos % 4096) buf copied)).setInode n
    inode).blocksOf k =
      v.blocksOf k := by
    intro k
    exact hshape.blocksOf_eq (setInode_field_self (v := v.setData b _) (·.extents) hext k)
  refine ⟨_, hshows, intact_setInode (intact_setData hi _ _) hhas hext, fun {k g} hg => ?_⟩
  by_cases hk : k = n
  · subst hk
    change update _ _ _ _ = _ at hg
    rw [update_self, hfile, map_some, Option.some.injEq] at hg
    subst hg
    refine ⟨hcore k (by rw [hopen]; rfl), ?_, fun {index page'} hindex hpage' i hlt => ?_⟩
    · rw [hblocks]
      exact stored_bytes (hi.owned.nodup k) hb hpage hrest hfit
    · refine cached_write hcached hpage hfit hindex ?_ hlt
      simpa [cachePage] using hpage'
  · change update _ _ _ _ = _ at hg
    rw [update_of_ne hk] at hg
    obtain ⟨hin, hbyte, hcache⟩ := hothers hk hg
    refine ⟨hcore k hin, ?_, fun {index page'} hindex hpage' => ?_⟩
    · rw [hblocks, ← hbyte]
      refine bytesOfBlocks_congr fun c hc => ?_
      -- The block belongs to file `n`.
      have hcb : c ≠ b := by
        rintro rfl
        exact hk (hi.owned.apart hc (mem_of_getElem? hb))
      simp [setInode, setData, hcb]
    · refine hcache hindex ?_
      simpa [cachePage, hk] using hpage'

section

variable (h : p.Sound v) (hfile : p.written n = some f) (hfit : pos % 4096 + copied ≤ 4096)
    (hpos : pos / 4096 < 2 ^ 32)
include h hfile hfit hpos

theorem write_there (hthere : pos / 4096 < (v.blocksOf n).length) :
    ∃ v', ((PageCall.write n pos buf copied).run p).Sound v' := by
  have hstep := h.files hfile
  obtain ⟨ui, hopen⟩ := isSome_iff_exists.mp hstep.open_
  have hb := getElem?_eq_getElem hthere
  generalize (v.blocksOf n)[pos / 4096] = b at hb
  obtain ⟨hblock, hlo, hhi⟩ := physBlock_some h.shows_ h.intact hopen hb
  have hstart := h.intact.sized.start
  have hbegin : ufsWriteBegin p.fs n pos (p.cache n (pos / 4096)) =
      (.ok ((p.cache n (pos / 4096)).getD (sbBread p.fs.disk b)), p.fs) := by
    unfold ufsWriteBegin
    rw [Shows.deref_eq hopen, mod_eq_of_lt hpos, hblock]
    simp only [if_neg (show b ≠ 0 by omega)]
  simp only [PageCall.run, hbegin]
  refine writeEnd h.shows_ h.intact hopen hpos hb hfit hfile ?_ (fun q _ => by rw [hstep.byte])
    hstep.cached fun {k g} _ hg => h.files hg
  intro i hi
  cases hpage : p.cache n (pos / 4096) with
  | some page => exact hstep.cached hpos hpage i hi
  | none =>
    rw [getD_none, sbBread_data h.shows_.holds hlo hhi, ← hstep.byte,
      bytesOfBlocks_getElem (by rwa [show (4096 * (pos / 4096) + i) / 4096 = pos / 4096 by omega])]
    congr 1
    omega

theorem write_behind
    (hend : pos / 4096 = (v.blocksOf n).length) (hfree : ∃ e ∈ (v.inode n).extents, e.len = 0#32)
    (hzero : (p.cache n (pos / 4096)).isSome ∨ sbBread p.fs.disk (ufsAllocBlock p.fs).1 = zeros) :
    ∃ v', ((PageCall.write n pos buf copied).run p).Sound v' := by
  have hstep := h.files hfile
  obtain ⟨ui, hopen⟩ := isSome_iff_exists.mp hstep.open_
  have hblock := physBlock_none h.shows_ h.intact hopen (le_of_eq hend.symm)
  cases hnext : firstFree v with
  | none =>
    -- The call reports that no space is left.
    have halloc := h.shows_.allocBlock_none hnext
    refine ⟨v, ?_⟩
    simp only [PageCall.run, ufsWriteBegin, Shows.deref_eq hopen, mod_eq_of_lt hpos, hblock,
      halloc]
    exact h
  | some b =>
    obtain ⟨hlo, hhi, -⟩ := firstFree_spec hnext
    obtain ⟨s', v', hbegin, hshows, hintact, hdata, hblocks, hother, hcore⟩ :=
      writeBegin_shows h.shows_ h.intact hopen hpos (le_of_eq hend.symm) hnext hfree
        (p.cache n (pos / 4096))
    obtain ⟨ui', hopen'⟩ := isSome_iff_exists.mp (hcore n hstep.open_)
    simp only [PageCall.run, hbegin]
    refine writeEnd hshows hintact hopen' hpos (b := b) ?_ hfit hfile ?_ ?_ hstep.cached ?_
    · rw [hblocks, hend]
      simp
    · intro i hi
      cases hpage : p.cache n (pos / 4096) with
      | some page => exact hstep.cached hpos hpage i hi
      | none =>
        -- The page is read from the new block, and the file has nothing there yet.
        have hzeros : v.data b = zeros := by
          rw [hpage, (h.shows_.allocBlock hnext).1] at hzero
          rw [← sbBread_data h.shows_.holds hlo hhi]
          exact hzero.resolve_left (by simp)
        rw [hzeros, ← hstep.byte, bytesOfBlocks, getElem?_eq_none (by omega)]
        rfl
    · intro q hq
      rw [hblocks, hdata, ← hstep.byte]
      unfold bytesOfBlocks
      by_cases hlt : q / 4096 < (v.blocksOf n).length
      · rw [getElem?_append_left hlt]
      · rw [getElem?_eq_none (l := v.blocksOf n) (by omega),
          getElem?_eq_none (by rw [length_append, length_singleton]; omega)]
    · intro k g hk hg
      have hg' := h.files hg
      refine ⟨hcore k hg'.open_, ?_, hg'.cached⟩
      rw [hother k hk, hdata]
      exact hg'.byte

end

/-- Pages that the cache reads or drops. -/
theorem cachePage (h : p.Sound v) {page : Option Bytes}
    (hpage : ∀ f, p.written n = some f → index < 2 ^ 32 → ∀ q, page = some q →
      ∀ i, i < 4096 → q i = f (4096 * index + i)) : (p.cachePage n index page).Sound v := by
  refine ⟨h.shows_, h.intact, fun {k g} hg => ⟨(h.files hg).open_, (h.files hg).byte,
    fun {index' q} hindex hq => ?_⟩⟩
  change update p.cache n (update (p.cache n) index page) k index' = some q at hq
  by_cases hk : k = n
  · subst hk
    rw [update_self] at hq
    by_cases hidx : index' = index
    · subst hidx
      rw [update_self] at hq
      exact hpage g hg hindex q hq
    · rw [update_of_ne hidx] at hq
      exact (h.files hg).cached hindex hq
  · rw [update_of_ne hk] at hq
    exact (h.files hg).cached hindex hq

theorem readFolio (h : p.Sound v) (hf : p.written n = some f)
    (hindex : index < 2 ^ 32) (hi : i < 4096) :
    ufsReadFolio p.fs n index i = f (4096 * index + i) := by
  obtain ⟨ui, hopen⟩ := isSome_iff_exists.mp (h.files hf).open_
  rw [readFolio_eq h.shows_ h.intact hopen hindex hi, (h.files hf).byte]

theorem call (h : p.Sound v) {c : PageCall} (hc : c.InOrder p) : ∃ v', (c.run p).Sound v' := by
  cases c with
  | write n pos buf copied =>
    obtain ⟨htracked, hfit, hpos, hwhere⟩ := hc
    obtain ⟨f, hfile⟩ := isSome_iff_exists.mp htracked
    obtain ⟨ui, hopen⟩ := isSome_iff_exists.mp (h.files hfile).open_
    have hui := h.shows_.core hopen
    rw [Shows.deref_eq hopen, hui.extents, ← blocksOf_of_hasInode hui.has] at hwhere
    rcases hwhere with hthere | ⟨hend, hfree, hzero⟩
    · exact h.write_there hfile hfit hpos hthere
    · exact h.write_behind hfile hfit hpos hend hfree hzero
  | read n index =>
    refine ⟨v, h.cachePage fun f hf hindex q hq i hi => ?_⟩
    rw [Option.some.injEq] at hq
    subst hq
    cases hpage : p.cache n index with
    | some page => exact (h.files hf).cached hindex hpage i hi
    | none => exact h.readFolio hf hindex hi
  | drop n index => exact ⟨v, h.cachePage fun _ _ _ q hq => by cases hq⟩

end PageState.Sound

/-- A mounted volume with open files that have no blocks and no pages yet. -/
structure OpenFiles (p : PageState) (v : Volume) : Prop where
  shows_ : Shows p.fs v
  intact : v.Intact
  files : ∀ {n f}, p.written n = some f → f = zeros ∧ (p.fs.inodes n).isSome ∧ v.blocksOf n = [] ∧
    ∀ index, p.cache n index = none

/-- **After writes in order every page reads back what was written to it.** -/
theorem ordered_writes_readsBack {p : PageState} {v : Volume} (h : OpenFiles p v)
    (cs : List PageCall) (hcs : Runs.Guarded PageCall.run PageCall.InOrder p cs) :
    (Runs.run PageCall.run p cs).ReadsBack := by
  obtain ⟨v', hlast⟩ := hcs.invariant (I := fun p => ∃ v, p.Sound v)
    (fun p c hp hc => by
      obtain ⟨v, hv⟩ := hp
      exact hv.call hc)
    ⟨v, h.shows_, h.intact, fun {n f} hf => by
      obtain ⟨rfl, hopen, hblocks, hcache⟩ := h.files hf
      refine ⟨hopen, ?_, fun {index page} _ hpage => ?_⟩
      · rw [hblocks]
        rfl
      · rw [hcache] at hpage
        cases hpage⟩
  exact fun n f hf index hindex i hi => hlast.readFolio hf hindex hi

/-- A page written far behind the end of a file without blocks is lost: the block
becomes the first one of the file, and `ufs_write_end` finds none to write to. -/
theorem far_write_lost {p : PageState} {v : Volume} (h : Shows p.fs v) (hi : v.Intact) {n : Nat}
    (hn : p.fs.inodes n = some ui) (hblocks : v.blocksOf n = [])
    (hfree : ∃ e ∈ (v.inode n).extents, e.len = 0#32) (hb : firstFree v = some b)
    (hlo : 1 ≤ pos / 4096) (hpos : pos / 4096 < 2 ^ 32) (buf : Bytes) (copied : Nat) :
    let p' := (PageCall.write n pos buf copied).run p
    p'.written n = (p.written n).map (fun f => blit f pos buf copied) ∧
      ∀ i, i < 4096 → ufsReadFolio p'.fs n (pos / 4096) i = 0#8 := by
  obtain ⟨s', v', hbegin, hshows, hintact, -, hblocks', -, hcore⟩ :=
    writeBegin_shows h hi hn hpos (by rw [hblocks]; exact zero_le _) hb hfree
      (p.cache n (pos / 4096))
  obtain ⟨ui', hn'⟩ := isSome_iff_exists.mp (hcore n (by rw [hn]; rfl))
  have hlen : (v'.blocksOf n).length ≤ pos / 4096 := by
    rw [hblocks', hblocks]
    exact hlo
  have hnone := physBlock_none hshows hintact hn' hlen
  simp only [PageCall.run, hbegin]
  refine ⟨update_self .., fun i hlt => ?_⟩
  -- The extents are the same after `ufs_write_end`.
  have hext : ∀ page : Bytes, (deref (ufsWriteEnd s' n pos copied page) n).diskInode.extents =
      ui'.diskInode.extents := by
    intro page
    unfold ufsWriteEnd
    simp only [Shows.deref_eq hn', mod_eq_of_lt hpos, hnone, lt_irrefl, if_false]
    split
    · simp [deref, ufsWriteInode, assign, UfsInodeInfo.record]
    · rw [Shows.deref_eq hn']
  unfold ufsReadFolio physBlock
  rw [hext, mod_eq_of_lt hpos]
  unfold physBlock at hnone
  simp only [hnone]
  rfl

theorem newFile_open :
    ∃ p v, OpenFiles p v ∧ v = claimInode (freshVolume 40 0#32 zeros) 2 0x81A4#16 0#32 ∧
    p.written 2 = some zeros := by
  obtain ⟨m, hm, hv⟩ := fortyBlocks_mount
  have hshows : Shows { sb := m.sb, disk := m.disk, inodes := fun _ => none } m.volume :=
    ⟨by rw [kernelView_of_fresh hm]; exact hm.isMounted.holds, fun hk => by cases hk⟩
  have hslot : firstSlot m.volume = some 2 := by
    rw [hv]
    decide +kernel
  obtain ⟨s', -, hcore, hshows'⟩ :=
    hshows.newInode_some hslot 0x81A4#16 0#32 fun _ _ hk => by cases hk
  refine ⟨⟨s', fun _ _ => none, fun n => if n = 2 then some zeros else none⟩,
    claimInode m.volume 2 0x81A4#16 0#32, ⟨hshows', intact_claimInode hm.intact
      (firstSlot_spec hslot).1 _ _, fun {n f} hf => ?_⟩, by rw [hv], rfl⟩
  change (if n = 2 then some zeros else none) = some f at hf
  split at hf
  · rename_i hn
    subst hn
    cases hf
    refine ⟨rfl, ?_, ?_, fun _ => rfl⟩
    · rw [hcore]
      rfl
    · rw [blocksOf_of_hasInode (v := claimInode m.volume 2 0x81A4#16 0#32)
        (firstSlot_spec hslot).1]
      rfl
  · cases hf

/-- Five bytes at the start of a new file. -/
theorem ordered_writes_readsBack_newFile : ∃ p v, OpenFiles p v ∧ p.written 2 = some zeros ∧
    (Runs.run PageCall.run p [.write 2 0 (fun i => BitVec.ofNat 8 i) 5, .drop 2 0]).ReadsBack := by
  obtain ⟨p, v, hopen, hv, hwritten⟩ := newFile_open
  obtain ⟨-, hin, -, -⟩ := hopen.files hwritten
  obtain ⟨ui, hui⟩ := isSome_iff_exists.mp hin
  have hext : (deref p.fs 2).diskInode.extents = UfsInode.zero.extents := by
    rw [Shows.deref_eq hui, (hopen.shows_.core hui).extents, hv]
    rfl
  have hfree : firstFree v = some 38 := by
    rw [hv]
    decide +kernel
  refine ⟨p, v, hopen, hwritten, ordered_writes_readsBack hopen _
    ⟨⟨by rw [hwritten]; rfl, by decide, by decide, .inr ⟨?_, ?_, .inr ?_⟩⟩, trivial, trivial⟩⟩
  · rw [hext]
    rfl
  · rw [hext]
    exact ⟨⟨0, 0⟩, by decide, rfl⟩
  · rw [(hopen.shows_.allocBlock hfree).1,
      sbBread_data hopen.shows_.holds (by rw [hv]; decide +kernel)
      (by rw [hv]; decide +kernel), hv]
    change window zeros (38 * 4096) 4096 = zeros
    exact window_zeros _ _

/-- One byte written to page 5 of a new file reads back as zero. -/
theorem far_write_not_readsBack : ∃ p v, OpenFiles p v ∧ p.written 2 = some zeros ∧
    ¬ (Runs.run PageCall.run p [.write 2 20480 (fun _ => 65#8) 1]).ReadsBack := by
  obtain ⟨p, v, hopen, hv, hwritten⟩ := newFile_open
  obtain ⟨-, hin, hblocks, -⟩ := hopen.files hwritten
  obtain ⟨ui, hui⟩ := isSome_iff_exists.mp hin
  refine ⟨p, v, hopen, hwritten, fun hread => ?_⟩
  rw [Runs.run_cons, Runs.run_nil] at hread
  obtain ⟨hfile, hlost⟩ := far_write_lost hopen.shows_ hopen.intact hui hblocks (b := 38)
    ⟨⟨0, 0⟩, by rw [hv]; decide, rfl⟩ (by rw [hv]; decide +kernel)
    (by decide : 1 ≤ 20480 / 4096) (by decide) (fun _ => 65#8) 1
  rw [hwritten] at hfile
  have hbyte := hread 2 _ hfile 5 (by decide) 0 (by decide)
  rw [show ufsReadFolio _ 2 5 0 = 0#8 from hlost 0 (by decide)] at hbyte
  exact absurd hbyte (by decide)

end Linux

end Utms7
