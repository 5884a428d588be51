import Mathlib.Data.List.GetD
import Utms7.ElfImage
import Utms7.Exec

/-!
# The stack of a new program

The 64 pages of the stack have frames of their own, so the stores of `sys_exec` act on
them as on one array of bytes.  The strings lie below each other, the random bytes
below them, and the words from `rsp` on below those; each store leaves the bytes above
it alone.
-/

namespace Utms7.Exec

open ByteMemory Paging Radix Elf Function Option Nat
open List hiding Disjoint

variable {v a : BitVec 64} {i n : Nat} {bs : List (BitVec 8)} {s s' : Machine} {root : Frame}
  {F : Nat → Frame} {V V' : Bytes} {args : List CStr} {ptrs : List (BitVec 64)}

/-! ## The pages -/

/-- The addresses of the stack. -/
def InStack (a : Nat) : Prop := 0x3FFFFC0000 ≤ a ∧ a < 0x4000000000

theorem toNat_stackPage (hi : i < 64) : (stackPage i).toNat = 0x3FFFFC0000 + 4096 * i := by
  have hsize : (BitVec.ofNat 64 ((stackPages - i) * 4096)).toNat = (64 - i) * 4096 := by
    rw [BitVec.toNat_ofNat, stackPages, mod_eq_of_lt (by omega)]
  have htop : userStackTop.toNat = 0x4000000000 := rfl
  rw [stackPage, BitVec.toNat_sub_of_le (BitVec.le_def.mpr (by omega))]
  omega

theorem path_stackPage (hv : InStack v.toNat) :
    path v = path (stackPage ((v.toNat - 0x3FFFFC0000) / 4096)) := by
  obtain ⟨hlo, hhi⟩ := hv
  rw [path_eq_iff, toNat_stackPage (by omega)]
  omega

/-- The pages `is` of the stack have frames of their own. -/
structure Window (s : Machine) (root : Frame) (is : List Nat) (F : Nat → Frame) : Prop where
  grounds : Grounds root bare s
  frame : ∀ i ∈ is, (translate s.mem root (stackPage i)).map Mapping.frame = some (F i)
  data : ∀ i ∈ is, Held root bare s () (F i)
  apart : ∀ i ∈ is, ∀ j ∈ is, F i = F j → i = j

section Pages

variable {is js : List Nat} {ws : List (BitVec 64)}

theorem Window.grown (h : Window s root is F) (hgrown : Grown root bare s () s' () ws)
    (hoff : ∀ i ∈ is, ∀ w ∈ ws, path (stackPage i) ≠ path w) : Window s' root is F where
  grounds := hgrown.grounds
  frame i hi := by
    rw [hgrown.same _ (hoff i hi)]
    exact h.frame i hi
  data i hi := (hgrown.data _ (h.data i hi)).2
  apart := h.apart

theorem path_stackPage_ne {j : Nat} (hi : i < 64) (hj : j < 64) (hne : i ≠ j) :
    path (stackPage i) ≠ path (stackPage j) := by
  rw [Ne, path_eq_iff, toNat_stackPage hi, toNat_stackPage hj]
  omega

/-- **The loop over the pages of the stack.** -/
theorem mapStack_window (h : Window s root js F) (hlt : ∀ i ∈ js ++ is, i < 64)
    (hnodup : (js ++ is).Nodup) (hok : (mapStack root is s).1 = true) :
    ∃ F', Window (mapStack root is s).2 root (js ++ is) F' := by
  induction is generalizing s js F with
  | nil => exact ⟨F, by rwa [append_nil]⟩
  | cons i is ih =>
    rw [mapStack] at hok ⊢
    cases halloc : pmmAllocPage s with
    | none =>
      rw [halloc] at hok
      cases hok
    | some r =>
      obtain ⟨f, s1⟩ := r
      rw [halloc] at hok
      dsimp only at hok ⊢
      generalize hmap : pagingMapForProcess s1 root (addr f) (stackPage i) userFlags = r at hok ⊢
      obtain ⟨c, s2⟩ := r
      by_cases hc : c = 0
      swap
      · rw [if_pos hc] at hok
        cases hok
      subst hc
      obtain ⟨hgrown, hframe, hdata, hfree⟩ := map_page h.grounds halloc hmap
      have hi : i < 64 := hlt i (by simp)
      have hnew : i ∉ js := fun hmem =>
        (nodup_append.mp hnodup).2.2 i hmem i mem_cons_self rfl
      have hold := h.grown hgrown fun j hj w hw => by
        rw [mem_singleton.mp hw]
        exact path_stackPage_ne (hlt j (mem_append_left _ hj)) hi fun heq => hnew (heq ▸ hj)
      -- a frame that was free is none of the frames so far
      have hother : ∀ j ∈ js, F j ≠ f := fun j hj heq => (h.data j hj).busy (heq ▸ hfree)
      have hF : ∀ j ∈ js, update F i f j = F j := fun j hj =>
        update_of_ne (fun heq : j = i => hnew (heq ▸ hj)) ..
      have hwindow : Window s2 root (js ++ [i]) (update F i f) := by
        refine ⟨hold.grounds, ?_, ?_, ?_⟩
        · intro j hj
          rcases mem_append.mp hj with hj | hj
          · rw [hF j hj]
            exact hold.frame j hj
          · rw [mem_singleton.mp hj, update_self]
            exact hframe
        · intro j hj
          rcases mem_append.mp hj with hj | hj
          · rw [hF j hj]
            exact hold.data j hj
          · rw [mem_singleton.mp hj, update_self]
            exact hdata
        · intro j hj k hk heq
          rcases mem_append.mp hj with hj | hj <;> rcases mem_append.mp hk with hk | hk
          · rw [hF j hj, hF k hk] at heq
            exact hold.apart j hj k hk heq
          · rw [hF j hj, mem_singleton.mp hk, update_self] at heq
            exact absurd heq (hother j hj)
          · rw [hF k hk, mem_singleton.mp hj, update_self] at heq
            exact absurd heq.symm (hother k hk)
          · rw [mem_singleton.mp hj, mem_singleton.mp hk]
      rw [append_cons] at hlt hnodup ⊢
      exact ih hwindow hlt hnodup hok

theorem mapStack_all (h : Grounds root bare s)
    (hok : (mapStack root (List.range stackPages) s).1 = true) :
    ∃ F, Window (mapStack root (List.range stackPages) s).2 root (List.range 64) F := by
  have hstart : Window s root [] fun _ => 0#40 := ⟨h, nofun, nofun, nofun⟩
  have hall : ∃ F, Window (mapStack root (List.range stackPages) s).2 root
      ([] ++ List.range stackPages) F :=
    mapStack_window hstart (fun i hi => mem_range.mp hi) nodup_range hok
  exact hall

/-- The page above the stack leaves it alone. -/
theorem Window.mapGuard (h : Window s root is F) (hlt : ∀ i ∈ is, i < 64) :
    Window (mapGuard root s) root is F := by
  unfold Exec.mapGuard
  cases halloc : pmmAllocPage s with
  | none => exact h
  | some r =>
    obtain ⟨f, s1⟩ := r
    dsimp only
    obtain ⟨hgrown, hdata, hfree⟩ := h.grounds.alloc () halloc
    have hcleared := hgrown.fill hdata.noTable (fun hold => hold.busy hfree) emptyTable
    obtain ⟨c, s2, hresult, hgrown2, -⟩ :=
      hcleared.grounds.map (addr f) userStackTop
        (by rw [frame_addr]; exact hdata.fill hdata.noTable emptyTable) (.inr (rfl : 5#64 = 5#64))
    rw [hresult]
    refine h.grown (hcleared.trans hgrown2) ?_
    intro i hi w hw
    have htop : userStackTop.toNat = 0x4000000000 := rfl
    obtain rfl : w = userStackTop := by
      split at hw
      · exact mem_singleton.mp hw
      · cases hw
    have hlt' := hlt i hi
    rw [Ne, path_eq_iff, toNat_stackPage hlt']
    omega

end Pages

/-! ## The bytes of the stack -/

/-- The stack is mapped, and its bytes are those of `V`. -/
structure Sees (s : Machine) (root : Frame) (F : Nat → Frame) (V : Bytes) : Prop where
  window : Window s root (List.range 64) F
  bytes : ∀ v : BitVec 64, InStack v.toNat → userByte s root v = some (V v.toNat)

section Bytes

variable {a : BitVec 64}

section

variable (h : Window s root (List.range 64) F)
include h

theorem Window.translate (hv : InStack v.toNat) : ∃ p, Paging.translate s.mem root v = some p ∧
      p.frame = F ((v.toNat - 0x3FFFFC0000) / 4096) := by
  have hi : (v.toNat - 0x3FFFFC0000) / 4096 ∈ List.range 64 :=
    mem_range.mpr (by have := hv.1; have := hv.2; omega)
  have hframe := h.frame _ hi
  rw [← translate_congr _ _ (path_stackPage hv)] at hframe
  exact map_eq_some_iff.mp hframe

theorem Window.userByte (hv : InStack v.toNat) : userByte s root v =
      some (getByte (s.mem (F ((v.toNat - 0x3FFFFC0000) / 4096))) (v.toNat % 4096)) := by
  obtain ⟨p, hp, hframe⟩ := h.translate hv
  rw [Paging.userByte, hp, map_some, hframe]

theorem Window.sees : ∃ V, Sees s root F V := by
  refine ⟨fun a => (Paging.userByte s root (BitVec.ofNat 64 a)).getD 0#8, h, ?_⟩
  intro v hv
  rw [BitVec.ofNat_toNat, BitVec.setWidth_eq, h.userByte hv, getD_some]

end

/-- **A store of one byte.** -/
theorem Sees.poke (h : Sees s root F V) (hv : InStack v.toNat) (b : BitVec 8) :
    ∃ s', pokeByte s root v b = some s' ∧ Sees s' root F (putByte V v.toNat b) := by
  obtain ⟨p, hp, hframe⟩ := h.window.translate hv
  have hcanonical : canonical v = true := by
    have hlt := hv.2
    rw [canonical, Bool.or_eq_true, decide_eq_true_eq]
    exact .inl (by omega)
  have hpage : ∀ {v : BitVec 64}, InStack v.toNat →
      (v.toNat - 0x3FFFFC0000) / 4096 ∈ List.range 64 :=
    fun {v} hv => mem_range.mpr (by have := hv.1; have := hv.2; omega)
  rw [pokeByte, if_pos hcanonical, hp, map_some, hframe]
  have hdata := h.window.data _ (hpage hv)
  generalize hi : (v.toNat - 0x3FFFFC0000) / 4096 = i at hdata
  generalize htable : setByte (s.mem (F i)) (v.toNat % 4096) b = table
  have hwindow : Window { s with mem := fill s.mem (F i) table } root (List.range 64) F := by
    refine ⟨h.window.grounds.fill hdata.noTable rfl id, ?_, ?_, h.window.apart⟩
    · intro j hj
      rw [translate_fill hdata.noTable]
      exact h.window.frame j hj
    · exact fun j hj => (h.window.data j hj).fill hdata.noTable table
  refine ⟨_, rfl, hwindow, ?_⟩
  intro w hw
  have hold := h.bytes w hw
  rw [h.window.userByte hw, some.injEq] at hold
  rw [hwindow.userByte hw, some.injEq]
  dsimp only
  by_cases hsame : (w.toNat - 0x3FFFFC0000) / 4096 = i
  · rw [hsame, fill_self, ← htable,
      getByte_setByte _ (mod_lt _ (by decide)) (mod_lt _ (by decide))]
    have hlo := hv.1
    have hlo' := hw.1
    by_cases heq : w.toNat = v.toNat
    · rw [if_pos (by rw [heq]), heq, putByte_same]
    · rw [if_neg (by omega), putByte_other heq]
      rw [hsame] at hold
      exact hold
  · have hne : F ((w.toNat - 0x3FFFFC0000) / 4096) ≠ F i := fun heq =>
      hsame (h.window.apart _ (hpage hw) _ (hi ▸ hpage hv) heq)
    have hother : w.toNat ≠ v.toNat := fun heq => hsame (by rw [heq, hi])
    rw [fill_of_ne _ _ hne, putByte_other hother]
    exact hold

/-- **A copy into the stack.** -/
theorem Sees.memcpy (h : Sees s root F V) (bs : List (BitVec 8)) (hlo : 0x3FFFFC0000 ≤ a.toNat)
    (hhi : a.toNat + bs.length ≤ 0x4000000000) : ∃ s', memcpy root a bs s = some s' ∧
      Sees s' root F (blit V a.toNat (fun k => bs.getD k 0#8) bs.length) := by
  induction bs generalizing a s V with
  | nil =>
    refine ⟨s, rfl, ?_⟩
    have hsame : blit V a.toNat (fun k => [].getD k 0#8) 0 = V := by
      funext x
      exact blit_outside (by omega)
    rw [length_nil, hsame]
    exact h
  | cons b bs ih =>
    rw [length_cons] at hhi
    obtain ⟨s1, hpoke, hsees⟩ := h.poke (v := a) ⟨hlo, by omega⟩ b
    have hnext : (a + 1#64).toNat = a.toNat + 1 := by
      rw [BitVec.toNat_add, show (1#64).toNat = 1 from rfl, Nat.mod_eq_of_lt (by omega)]
    obtain ⟨s2, hcopy, hsees2⟩ := ih hsees (a := a + 1#64) (by omega) (by omega)
    refine ⟨s2, ?_, ?_⟩
    · rw [Exec.memcpy, hpoke, bind_some, hcopy]
    · have hsame : blit (putByte V a.toNat b) (a + 1#64).toNat (fun k => bs.getD k 0#8) bs.length =
          blit V a.toNat (fun k => (b :: bs).getD k 0#8) (bs.length + 1) := by
        funext x
        rw [hnext]
        by_cases hx : x = a.toNat
        · subst hx
          rw [blit_outside (by omega), putByte_same, blit_inside (by omega) (by omega),
            Nat.sub_self]
          rfl
        · by_cases hin : a.toNat + 1 ≤ x ∧ x < a.toNat + 1 + bs.length
          · rw [blit_inside hin.1 hin.2, blit_inside (by omega) (by omega),
              show x - a.toNat = x - (a.toNat + 1) + 1 by omega]
            rfl
          · rw [blit_outside (by omega), putByte_other hx, blit_outside (by omega)]
      rw [hsame] at hsees2
      exact hsees2

end Bytes

/-- The bytes of a memory from `a` on. -/
def Has (V : Bytes) (a : Nat) (bs : List (BitVec 8)) : Prop :=
  ∀ k < bs.length, V (a + k) = bs.getD k 0#8

section Has

variable {a : Nat} {bs' : List (BitVec 8)}

theorem Has.congr (h : Has V a bs) (hsame : ∀ x, a ≤ x → x < a + bs.length → V' x = V x) :
    Has V' a bs := fun k hk => (hsame _ (by omega) (by omega)).trans (h k hk)

theorem has_blit (V : Bytes) (a : Nat) (bs : List (BitVec 8)) :
    Has (blit V a (fun k => bs.getD k 0#8) bs.length) a bs := by
  intro k hk
  rw [blit_inside (by omega) (by omega), Nat.add_sub_cancel_left]

theorem Has.append (h : Has V a bs) (h' : Has V (a + bs.length) bs') : Has V a (bs ++ bs') := by
  intro k hk
  rw [length_append] at hk
  by_cases hlt : k < bs.length
  · rw [h k hlt, getD_append _ _ _ _ hlt]
  · have hk' := h' (k - bs.length) (by omega)
    rw [show a + bs.length + (k - bs.length) = a + k by omega] at hk'
    rw [hk', getD_append_right _ _ _ _ (by omega)]

end Has

/-! ## What is pushed -/

section Push

/-- A stack pointer that goes down by `n` bytes and is aligned. -/
theorem toNat_lower (rsp : BitVec 64) (hn : n ≤ rsp.toNat) :
    ((rsp - BitVec.ofNat 64 n) &&& ~~~15#64).toNat = (rsp.toNat - n) / 16 * 16 := by
  have hsize : (BitVec.ofNat 64 n).toNat = n := by
    rw [BitVec.toNat_ofNat, mod_eq_of_lt (by omega)]
  rw [show (15#64 : BitVec 64) = BitVec.ofNat 64 (2 ^ 4 - 1) from rfl, toNat_and_not_low,
    BitVec.toNat_sub_of_le (BitVec.le_def.mpr (by omega)), hsize]
  rfl

/-- **One push**: the bytes lie below the old stack pointer. -/
theorem Sees.push (h : Sees s root F V) (rsp : BitVec 64) (data : List (BitVec 8))
    (hlo : 0x3FFFFC0000 + data.length + 16 ≤ rsp.toNat) (hhi : rsp.toNat ≤ 0x4000000000) :
    ∃ p s' V', push root rsp data s = some (p, s') ∧ Sees s' root F V' ∧ Has V' p.toNat data ∧
      p.toNat % 16 = 0 ∧ p.toNat + data.length ≤ rsp.toNat ∧
      rsp.toNat ≤ p.toNat + data.length + 15 ∧ ∀ x, rsp.toNat ≤ x → V' x = V x := by
  have hp := toNat_lower rsp (n := data.length) (by omega)
  unfold Exec.push
  dsimp only
  generalize (rsp - BitVec.ofNat 64 data.length) &&& ~~~15#64 = p at hp ⊢
  obtain ⟨s', hcopy, hsees⟩ := h.memcpy (a := p) data (by omega) (by omega)
  refine ⟨p, s', _, by rw [hcopy, map_some], hsees, has_blit V p.toNat data, by omega,
    by omega, by omega, ?_⟩
  intro x hx
  exact blit_outside (.inr (by omega))

/-- Strings below each other, from `r` down to `r'`. -/
inductive Placed (V : Bytes) : Nat → List CStr → List (BitVec 64) → Nat → Prop
  | nil (r : Nat) : Placed V r [] [] r
  | cons {r r' : Nat} {arg : CStr} {p : BitVec 64} {args : List CStr} {ptrs : List (BitVec 64)}
      (hfit : p.toNat + (arg.chars.length + 1) ≤ r) (hhas : Has V p.toNat (arg.chars ++ [0#8]))
      (hrest : Placed V p.toNat args ptrs r') : Placed V r (arg :: args) (p :: ptrs) r'

theorem Placed.le {r r' : Nat} (h : Placed V r args ptrs r') : r' ≤ r := by
  induction h with
  | nil r => exact le_rfl
  | cons hfit _ _ ih => omega

/-- Stores below the strings leave them alone. -/
theorem Placed.congr {r r' : Nat} (h : Placed V r args ptrs r') (hsame : ∀ x, r' ≤ x → V' x = V x) :
    Placed V' r args ptrs r' := by
  induction h with
  | nil r => exact .nil r
  | cons hfit hhas hrest ih =>
    have hle := hrest.le
    exact .cons hfit (hhas.congr fun x hx _ => hsame x (hle.trans hx)) (ih hsame)

/-- **The loop over the arguments.** -/
theorem Sees.pushStrings (h : Sees s root F V) (rsp : BitVec 64)
    (hlen : ∀ arg ∈ args, arg.chars.length ≤ 254)
    (hlo : 0x3FFFFC0000 + 271 * args.length ≤ rsp.toNat) (hhi : rsp.toNat ≤ 0x4000000000)
    (hal : rsp.toNat % 16 = 0) :
    ∃ ptrs p s' V', pushStrings root args rsp s = some (ptrs, p, s') ∧ Sees s' root F V' ∧
      Placed V' rsp.toNat args ptrs p.toNat ∧ p.toNat % 16 = 0 ∧
      rsp.toNat ≤ p.toNat + 271 * args.length ∧ ∀ x, rsp.toNat ≤ x → V' x = V x := by
  induction args generalizing rsp s V with
  | nil => exact ⟨[], rsp, s, V, rfl, h, .nil _, hal, by simp, fun _ _ => rfl⟩
  | cons arg args ih =>
    have harg := hlen arg mem_cons_self
    rw [length_cons] at hlo ⊢
    obtain ⟨p, s1, V1, hpush, hsees, hhas, halp, hfit, hnear, hsame⟩ :=
      h.push rsp (arg.chars ++ [0#8]) (by rw [length_append, length_singleton]; omega) hhi
    rw [length_append, length_singleton] at hfit hnear
    obtain ⟨ptrs, p', s', V', hstrings, hsees', hplaced, halp', hnear', hsame'⟩ :=
      ih hsees p (fun a ha => hlen a (mem_cons_of_mem arg ha)) (by omega) (by omega) halp
    refine ⟨p :: ptrs, p', s', V', ?_, hsees', ?_, halp', ?_, ?_⟩
    · rw [Exec.pushStrings, hpush, bind_some, hstrings, map_some]
    · exact .cons (by omega) (hhas.congr fun x hx _ => hsame' x hx) hplaced
    · clear hlo hhi
      omega
    · intro x hx
      rw [hsame' x (by omega), hsame x hx]

end Push

/-! ## The words from `rsp` on -/

/-- The bytes `bs` are stored from `A` on; above `B` the memory is that of `V`. -/
def Stored (s : Machine) (root : Frame) (F : Nat → Frame) (V : Bytes) (A B : Nat)
    (bs : List (BitVec 8)) : Prop :=
  ∃ V', Sees s root F V' ∧ Has V' A bs ∧ ∀ x, B ≤ x → V' x = V x

section Words

variable {A B : Nat}

/-- The next bytes are stored behind those that are there. -/
theorem Stored.memcpy (h : Stored s root F V A B bs) (bs' : List (BitVec 8))
    (ha : a.toNat = A + bs.length)
    (hA : 0x3FFFFC0000 ≤ A) (hB : A + bs.length + bs'.length ≤ B) (htop : B ≤ 0x4000000000) :
    ∃ s', memcpy root a bs' s = some s' ∧ Stored s' root F V A B (bs ++ bs') := by
  obtain ⟨V', hsees, hhas, hsame⟩ := h
  obtain ⟨s', hcopy, hsees'⟩ := hsees.memcpy (a := a) bs' (by omega) (by omega)
  refine ⟨s', hcopy, _, hsees', ?_, ?_⟩
  · have hnew := has_blit V' a.toNat bs'
    rw [ha] at hnew ⊢
    exact (hhas.congr fun x _ hx => blit_outside (.inl (by omega))).append hnew
  · intro x hx
    rw [blit_outside (.inr (by omega)), hsame x hx]

theorem length_wordBytes (w : BitVec 64) : (wordBytes w).length = 8 := by
  rw [wordBytes, length_map, length_range]

theorem length_flatMap_wordBytes (ws : List (BitVec 64)) :
    (ws.flatMap wordBytes).length = 8 * ws.length := by
  induction ws with
  | nil => rfl
  | cons w ws ih =>
    rw [flatMap_cons, length_append, length_wordBytes, length_cons]
    omega

theorem Stored.storePointers {argvBase : BitVec 64} (ptrs : List (BitVec 64))
    (h : Stored s root F V A B bs) (ha : argvBase.toNat + 8 * i = A + bs.length)
    (hA : 0x3FFFFC0000 ≤ A) (hB : A + bs.length + 8 * ptrs.length ≤ B) (htop : B ≤ 0x4000000000) :
    ∃ s', storePointers root argvBase i ptrs s = some s' ∧
      Stored s' root F V A B (bs ++ ptrs.flatMap wordBytes) := by
  induction ptrs generalizing i s bs with
  | nil => exact ⟨s, rfl, by rwa [flatMap_nil, append_nil]⟩
  | cons p ptrs ih =>
    rw [length_cons] at hB
    have hword := length_wordBytes p
    have haddr := toNat_add_ofNat (x := argvBase) (n := i * 8) (by omega)
    obtain ⟨s1, hstore, hstored⟩ := h.memcpy (wordBytes p) (haddr.trans (by omega)) hA
      (by omega) htop
    have hlen : (bs ++ wordBytes p).length = bs.length + 8 := by rw [length_append, hword]
    obtain ⟨s2, hrest, hstored2⟩ := ih hstored (i := i + 1) (by omega) (by omega)
    refine ⟨s2, ?_, ?_⟩
    · rw [Exec.storePointers, storeWord, hstore, bind_some, hrest]
    · rw [flatMap_cons, ← append_assoc]
      exact hstored2

/-- **The words of the stack.** -/
theorem Sees.storeArea (h : Sees s root F V) (rsp : BitVec 64) {argc : Nat}
    {ptrs : List (BitVec 64)} (aux : List (BitVec 64)) (hptrs : ptrs.length = argc)
    (haux : aux.length = 8) (hlo : 0x3FFFFC0000 ≤ rsp.toNat) (hB : rsp.toNat + 8 * (argc + 11) ≤ B)
    (htop : B ≤ 0x4000000000) : ∃ s', storeArea root rsp argc ptrs aux s = some s' ∧
      Stored s' root F V rsp.toNat B
        ((BitVec.ofNat 64 argc :: (ptrs ++ [0#64, 0#64] ++ aux)).flatMap wordBytes) := by
  have hbase : (argvBase rsp).toNat = rsp.toNat + 8 :=
    toNat_add_ofNat (x := rsp) (n := 8) (by omega)
  have henvp : (envpBase rsp argc).toNat = rsp.toNat + 8 + (argc + 1) * 8 := by
    rw [envpBase, toNat_add_ofNat (by omega), hbase]
  have hauxv : (auxvBase rsp argc).toNat = rsp.toNat + 8 + (argc + 1) * 8 + 8 := by
    have hadd := toNat_add_ofNat (x := envpBase rsp argc) (n := 8) (by omega)
    rw [henvp] at hadd
    exact hadd
  have hnull := toNat_add_ofNat (x := argvBase rsp) (n := argc * 8) (by omega)
  have hzero : (wordBytes 0#64).length = 8 := length_wordBytes _
  have hauxLen := length_flatMap_wordBytes aux
  have hptrsLen := length_flatMap_wordBytes ptrs
  have h0 : Stored s root F V rsp.toNat B [] := ⟨V, h, nofun, fun _ _ => rfl⟩
  obtain ⟨s1, hs1, h1⟩ := h0.memcpy (wordBytes (BitVec.ofNat 64 argc)) (a := rsp) rfl hlo
    (by rw [length_wordBytes, length_nil]; omega) htop
  rw [nil_append] at h1
  have hlen1 : (wordBytes (BitVec.ofNat 64 argc)).length = 8 := length_wordBytes _
  obtain ⟨s2, hs2, h2⟩ := h1.storePointers (i := 0) ptrs
    (show (argvBase rsp).toNat + 8 * 0 = _ by omega) hlo (by omega) htop
  generalize hbs2 : wordBytes (BitVec.ofNat 64 argc) ++ ptrs.flatMap wordBytes = bs2 at h2
  have hlen2 : bs2.length = 8 + 8 * argc := by
    rw [← hbs2, length_append, hlen1, hptrsLen, hptrs]
  obtain ⟨s3, hs3, h3⟩ := h2.memcpy (wordBytes 0#64) (hnull.trans (by omega)) hlo
    (by omega) htop
  have hlen3 : (bs2 ++ wordBytes 0#64).length = 16 + 8 * argc := by
    rw [length_append]
    omega
  obtain ⟨s4, hs4, h4⟩ := h3.memcpy (wordBytes 0#64) (henvp.trans (by omega)) hlo
    (by omega) htop
  have hlen4 : (bs2 ++ wordBytes 0#64 ++ wordBytes 0#64).length = 24 + 8 * argc := by
    rw [length_append]
    omega
  obtain ⟨s5, hs5, h5⟩ := h4.memcpy (aux.flatMap wordBytes) (hauxv.trans (by omega)) hlo
    (by omega) htop
  refine ⟨s5, ?_, ?_⟩
  · simp only [Exec.storeArea, storeWord, hs1, hs2, hs3, hs4, hs5, bind_some]
  · have hall : (BitVec.ofNat 64 argc :: (ptrs ++ [0#64, 0#64] ++ aux)).flatMap wordBytes =
        bs2 ++ wordBytes 0#64 ++ wordBytes 0#64 ++ aux.flatMap wordBytes := by
      rw [← hbs2]
      simp [flatMap_append]
    rw [hall]
    exact h5

end Words

/-! ## The whole stack -/

/-- The bytes of the process from an address on. -/
def Holds (s : Machine) (root : Frame) (a : BitVec 64) (bs : List (BitVec 8)) : Prop :=
  ∀ k < bs.length, userByte s root (a + BitVec.ofNat 64 k) = some (bs.getD k 0#8)

/-- The words of the stack, from `rsp` on. -/
def stackWords (ptrs : List (BitVec 64)) (random entry : BitVec 64) : List (BitVec 64) :=
  BitVec.ofNat 64 ptrs.length :: (ptrs ++ [0#64, 0#64] ++
    [6#64, 4096#64, 25#64, random, 9#64, entry, 0#64, 0#64])

/-- Where a string is. -/
def stringPart (arg : CStr) (p : BitVec 64) : Set Nat :=
  Set.Ico p.toNat (p.toNat + (arg.chars.length + 1))

/-- The ranges of the words, of the random bytes and of the strings. -/
def stackParts (args : List CStr) (ptrs : List (BitVec 64)) (random rsp : BitVec 64) :
    List (Set Nat) :=
  Set.Ico rsp.toNat (rsp.toNat + 8 * (ptrs.length + 11)) ::
    Set.Ico random.toNat (random.toNat + 16) ::
    List.zipWith stringPart args ptrs

/-- **What a program finds on its stack**, with one pointer for each argument. -/
structure StackRight (args : List CStr) (p : Program) (ptrs : List (BitVec 64))
    (random : BitVec 64) :
    Prop where
  aligned : p.userRsp.toNat % 16 = 0
  count : ptrs.length = args.length
  words : Holds p.machine p.cr3 p.userRsp ((stackWords ptrs random p.userRip).flatMap wordBytes)
  strings : ∀ i (hi : i < args.length),
    Holds p.machine p.cr3 (ptrs.getD i 0#64) ((args.get ⟨i, hi⟩).chars ++ [0#8])
  atRandom : Holds p.machine p.cr3 random randomBytes
  apart : (stackParts args ptrs random p.userRsp).Pairwise Disjoint
  inside : ∀ part ∈ stackParts args ptrs random p.userRsp,
    part ⊆ Set.Ico (0x4000000000 - 64 * 4096) 0x4000000000
  mapped : ∀ v : BitVec 64, v.toNat ∈ Set.Ico (0x4000000000 - 64 * 4096) 0x4000000000 →
    (translate p.machine.mem p.cr3 v).isSome = true
  rdi : p.rdi = BitVec.ofNat 64 args.length
  rsi : p.rsi = p.userRsp + 8#64
  rdx : p.rdx = p.userRsp + 8#64 + BitVec.ofNat 64 (8 * (args.length + 1))

section Whole

variable {r r' : Nat}

theorem Sees.holds (h : Sees s root F V) (hhas : Has V a.toNat bs) (hlo : 0x3FFFFC0000 ≤ a.toNat)
    (hhi : a.toNat + bs.length ≤ 0x4000000000) : Holds s root a bs := by
  intro k hk
  have haddr := toNat_add_ofNat (x := a) (n := k) (by omega)
  rw [h.bytes _ ⟨by omega, by omega⟩, haddr, hhas k hk]

section

variable (h : Placed V r args ptrs r')
include h

theorem Placed.length : ptrs.length = args.length := by
  induction h with
  | nil r => rfl
  | cons _ _ _ ih => rw [length_cons, length_cons, ih]

theorem Placed.get (hi : i < args.length) :
    Has V (ptrs.getD i 0#64).toNat ((args.get ⟨i, hi⟩).chars ++ [0#8]) ∧
      r' ≤ (ptrs.getD i 0#64).toNat ∧
      (ptrs.getD i 0#64).toNat + ((args.get ⟨i, hi⟩).chars.length + 1) ≤ r := by
  induction h generalizing i with
  | nil r => cases hi
  | cons hfit hhas hrest ih =>
    cases i with
    | zero => exact ⟨hhas, hrest.le, hfit⟩
    | succ i =>
      obtain ⟨hhas', hlo, hhi⟩ := ih (lt_of_succ_lt_succ hi)
      exact ⟨hhas', hlo, by simp only [getD_cons_succ, get_cons_succ]; omega⟩

/-- The strings are between `r'` and `r`, and apart from each other. -/
theorem Placed.parts :
    (List.zipWith stringPart args ptrs).Pairwise Disjoint ∧
      ∀ part ∈ List.zipWith stringPart args ptrs, part ⊆ Set.Ico r' r := by
  induction h with
  | nil r => exact ⟨.nil, nofun⟩
  | @cons r r' arg p args ptrs hfit hhas hrest ih =>
    obtain ⟨hapart, hinside⟩ := ih
    have hle := hrest.le
    refine ⟨pairwise_cons.mpr ⟨?_, hapart⟩, ?_⟩
    · intro part hpart
      refine Set.disjoint_left.mpr fun x hx hx' => ?_
      have hbelow := hinside part hpart hx'
      exact absurd hbelow.2 (not_lt.mpr hx.1)
    · intro part hpart
      rcases mem_cons.mp hpart with rfl | hpart
      · exact Set.Ico_subset_Ico hle (by omega)
      · exact (hinside part hpart).trans (Set.Ico_subset_Ico_right (by omega))

end

/-- **The stack of a program**: the stores meet no fault. -/
theorem buildStack_right (h : Window s root (List.range 64) F) (hargc : args.length ≤ 63)
    (hlen : ∀ arg ∈ args, arg.chars.length ≤ 254) {entry : BitVec 64} :
    ∃ rsp s' ptrs random V' r, buildStack root args entry s = some (rsp, s') ∧ Sees s' root F V' ∧
      Placed V' 0x4000000000 args ptrs r ∧ Has V' random.toNat randomBytes ∧
      Has V' rsp.toNat ((stackWords ptrs random entry).flatMap wordBytes) ∧
      rsp.toNat % 16 = 0 ∧ 0x3FFFFC0000 ≤ rsp.toNat ∧
      rsp.toNat + 8 * (ptrs.length + 11) ≤ random.toNat ∧ random.toNat + 16 ≤ r := by
  obtain ⟨V, hsees⟩ := h.sees
  have htop : (userStackTop &&& ~~~15#64).toNat = 0x4000000000 := rfl
  obtain ⟨ptrs, p, s1, V1, hstrings, hsees1, hplaced, -, hnear, -⟩ :=
    hsees.pushStrings (userStackTop &&& ~~~15#64) hlen (by omega) (by omega) (by omega)
  have hle := hplaced.le
  have hcount := hplaced.length
  have hsixteen : randomBytes.length = 16 := rfl
  obtain ⟨random, s2, V2, hpush, hsees2, hhas2, -, hfit2, hnear2, hsame2⟩ :=
    hsees1.push p randomBytes (by omega) (by omega)
  have hrsp := toNat_lower random (n := (args.length + 3) * 8 + 64) (by omega)
  generalize hlower : (random - BitVec.ofNat 64 ((args.length + 3) * 8 + 64)) &&& ~~~15#64 =
    rsp at hrsp
  obtain ⟨s3, harea, V3, hsees3, hhas3, hsame3⟩ :=
    hsees2.storeArea rsp (auxv random entry) (B := random.toNat) hcount rfl (by omega) (by omega)
      (by omega)
  refine ⟨rsp, s3, ptrs, random, V3, p.toNat, ?_, hsees3, ?_, ?_, ?_, by omega, by omega, by omega,
    by omega⟩
  · rw [buildStack, hstrings, bind_some, hpush, bind_some]
    dsimp only
    rw [argsArea, hlower, harea, map_some]
  · exact hplaced.congr fun x hx => (hsame3 x (by omega)).trans (hsame2 x hx)
  · exact hhas2.congr fun x hx _ => hsame3 x hx
  · rw [stackWords, hcount]
    exact hhas3

end Whole

/-- The segments of a file are loaded below the stack. -/
def SegmentsLow (file : File) : Prop :=
  ∀ i < file.phnum.toNat, (file.phdr i).load = true → (file.phdr i).memsz ≠ 0#64 →
    0x40000000 ≤ (loadAddr file i).toNat ∧
      (loadAddr file i).toNat + (file.phdr i).memsz.toNat ≤ 0x3000000000

/-- The stack is right after a call that starts a program, and no call faults. -/
structure ExecRight (args : List CStr) (r : Result) : Prop where
  noFault : r ≠ .fault
  started : ∀ p, r = .started p → ∃ ptrs random, StackRight args p ptrs random

theorem execRight_failed (args : List CStr) (s : Machine) : ExecRight args (.failed s) :=
  ⟨nofun, nofun⟩

section Call

variable {file : File}

theorem SegmentsLow.fits (h : SegmentsLow file) (hi : i < file.phnum.toNat) : Fits file i := by
  intro hload hmemsz
  obtain ⟨hlo, hhi⟩ := h i hi hload hmemsz
  have hend : (loadAddr file i + (file.phdr i).memsz).toNat =
      (loadAddr file i).toNat + (file.phdr i).memsz.toNat := by
    rw [BitVec.toNat_add, mod_eq_of_lt (by omega)]
  have hup := toNat_pageUp (x := loadAddr file i + (file.phdr i).memsz) (by omega)
  have hdown := toNat_and_not_mask (loadAddr file i)
  rw [numPages, BitVec.toNat_sub_of_le (BitVec.le_def.mpr (by omega)), hup]
  generalize (loadAddr file i).toNat = a at *
  generalize (file.phdr i).memsz.toNat = m at *
  omega

theorem elfLoad_grounds (h : PageTree s root) (hsegments : SegmentsLow file)
    (hentry : (elfLoad s root file).entry ≠ 0#64) :
    Grounds root bare (elfLoad s root file).machine := by
  obtain ⟨hok, -, hmachine⟩ := elfLoad_loaded hentry
  have hgrounds : Grounds root bare s := ⟨h, nofun, nofun⟩
  obtain ⟨hgrown, -⟩ := loadSegments_shows hgrounds pairwise_lt_range
    (fun j hj => hsegments.fits (mem_range.mp hj)) hok
  rw [hmachine]
  exact hgrown.grounds

/-- The tables may be followed in another machine with the same memory. -/
theorem Holds.congr (hmem : s'.mem = s.mem) (h : Holds s root a bs) : Holds s' root a bs := by
  intro k hk
  have hbyte := h k hk
  unfold userByte at hbyte ⊢
  rw [hmem]
  exact hbyte

/-- What `sys_exec` has done when it starts a program. -/
theorem started_right (h : Window s root (List.range 64) F) (hargc : args.length ≤ 63)
    (hlen : ∀ arg ∈ args, arg.chars.length ≤ 254) {entry : BitVec 64} :
    ∃ rsp s', buildStack root args entry s = some (rsp, s') ∧
      ∀ p : Program, p.machine.mem = s'.mem → p.cr3 = root → p.userRip = entry → p.userRsp = rsp →
        p.rdi = BitVec.ofNat 64 args.length → p.rsi = argvBase rsp →
        p.rdx = envpBase rsp args.length → ∃ ptrs random, StackRight args p ptrs random := by
  obtain ⟨rsp, s', ptrs, random, V, r, hbuild, hsees, hplaced, hrandom, hwords, hal, hlo, hroom,
    hbelow⟩ := buildStack_right h hargc hlen
  refine ⟨rsp, s', hbuild, ?_⟩
  rintro p hmem rfl rfl rfl hrdi hrsi hrdx
  have hle := hplaced.le
  have hcount := hplaced.length
  have hsixteen : randomBytes.length = 16 := rfl
  have hwordsLen : ((stackWords ptrs random p.userRip).flatMap wordBytes).length =
      8 * (ptrs.length + 11) := by
    rw [length_flatMap_wordBytes, stackWords, length_cons, length_append, length_append]
    rfl
  obtain ⟨hstringsApart, hstringsInside⟩ := hplaced.parts
  refine ⟨ptrs, random, hal, hcount, ?_, ?_, ?_, ?_, ?_, ?_, hrdi, hrsi, ?_⟩
  · exact (hsees.holds hwords hlo (by omega)).congr hmem
  · intro i hi
    obtain ⟨hhas, hge, hfit⟩ := hplaced.get hi
    refine (hsees.holds hhas (by omega) ?_).congr hmem
    rw [length_append]
    exact hfit
  · exact (hsees.holds hrandom (by omega) (by omega)).congr hmem
  · refine pairwise_cons.mpr ⟨?_, pairwise_cons.mpr ⟨?_, hstringsApart⟩⟩
    · intro part hpart
      rcases mem_cons.mp hpart with rfl | hpart
      · exact Set.Ico_disjoint_Ico.mpr (by omega)
      · exact (Set.Ico_disjoint_Ico.mpr (by omega)).mono_right (hstringsInside part hpart)
    · intro part hpart
      exact (Set.Ico_disjoint_Ico.mpr (by omega)).mono_right (hstringsInside part hpart)
  · intro part hpart
    rcases mem_cons.mp hpart with rfl | hpart
    · exact Set.Ico_subset_Ico (by omega) (by omega)
    rcases mem_cons.mp hpart with rfl | hpart
    · exact Set.Ico_subset_Ico (by omega) (by omega)
    · exact (hstringsInside part hpart).trans (Set.Ico_subset_Ico (by omega) le_rfl)
  · intro v hv
    have hin : InStack v.toNat := hv
    obtain ⟨f, hf, -⟩ := hsees.window.translate hin
    rw [hmem, hf]
    rfl
  · rw [hrdx, envpBase, argvBase, mul_comm]

end Call

/-- **The stack of a new program** is what the program expects, and its stores meet no
fault. -/
theorem exec_stack {dev : Devices} {oldCr3 : Frame} {args : List CStr} {file : File} {s : Machine}
    (h : PageTree s kernelRoot) (hpresent : present (s.mem kernelRoot 0) = true)
    (hargc : args.length ≤ 63) (hlen : ∀ arg ∈ args, arg.chars.length ≤ 254)
    (hsegments : SegmentsLow file) : ExecRight args (sysExec dev oldCr3 args file s) := by
  unfold sysExec
  generalize hcreate : createAddressSpace dev s = r
  obtain ⟨o, s1⟩ := r
  cases o with
  | none => exact execRight_failed ..
  | some root =>
    have htree := createAddressSpace_tree h hpresent hcreate
    dsimp only
    by_cases hentry : (elfLoad s1 root file).entry = 0#64
    · rw [if_pos hentry]
      exact execRight_failed ..
    rw [if_neg hentry]
    have hgrounds := elfLoad_grounds htree hsegments hentry
    generalize elfLoad s1 root file = image at hgrounds hentry ⊢
    cases hok : (mapStack root (List.range stackPages) image.machine).1 with
    | false => exact execRight_failed ..
    | true =>
      obtain ⟨F, hwindow⟩ := mapStack_all hgrounds hok
      obtain ⟨rsp, s', hbuild, hright⟩ := started_right
        (hwindow.mapGuard fun i hi => mem_range.mp hi) hargc hlen
      rw [hbuild]
      refine ⟨nofun, ?_⟩
      rintro p ⟨⟩
      refine hright _ ?_ rfl rfl rfl rfl rfl rfl
      split
      · rfl
      · exact mem_freeAddressSpace s' oldCr3

/-! ## A small machine -/

/-- A call with tables, with an entry and with a stack does not return `-1`. -/
theorem sysExec_ne_failed {dev : Devices} {root : Frame} {file : File} {s : Machine}
    (hroot : (createAddressSpace dev s).1 = some root)
    (hentry : (elfLoad (createAddressSpace dev s).2 root file).entry ≠ 0#64)
    (hok : (mapStack root (List.range stackPages)
      (elfLoad (createAddressSpace dev s).2 root file).machine).1 = true) {oldCr3 : Frame}
    (args : List CStr) (s' : Machine) : sysExec dev oldCr3 args file s ≠ .failed s' := by
  unfold sysExec
  generalize createAddressSpace dev s = r at hroot hentry hok ⊢
  obtain ⟨o, s1⟩ := r
  obtain rfl : o = some root := hroot
  dsimp only at hentry hok ⊢
  rw [if_neg hentry, hok]
  generalize buildStack root args _ _ = b
  cases b with
  | none => nofun
  | some r => nofun

theorem ExecRight.exists_program {args : List CStr} {r : Result} (h : ExecRight args r)
    (hne : ∀ s, r ≠ .failed s) :
    ∃ p, r = .started p ∧ ∃ ptrs random, StackRight args p ptrs random := by
  cases r with
  | failed s => exact absurd rfl (hne s)
  | fault => exact absurd rfl h.noFault
  | started p => exact ⟨p, rfl, h.started p rfl⟩

/-- The kernel has a first and a second table, and there are 96 free pages. -/
def execMachine : Machine where
  mem := write (fun _ => emptyTable) kernelRoot 0 (addr 2#40 ||| kernelFlags)
  pool := { emptyMachine.pool with total := 96, high := by decide }

theorem execMachine_mem :
    execMachine.mem = write (fun _ => emptyTable) kernelRoot 0 (addr 2#40 ||| kernelFlags) := rfl

def noDevices : Devices := ⟨0#64, 0#64, []⟩

def argA : CStr := ⟨[0x61#8], by decide⟩

def argBc : CStr := ⟨[0x62#8, 0x63#8], by decide⟩

theorem walk_execMachine {t : Frame} {q : List Index}
    (h : walk execMachine.mem kernelRoot q = some t) :
    (q = [] ∧ t = kernelRoot) ∨ (q = [0] ∧ t = 2#40) := by
  have hother : ∀ {f : Frame} {i : Index}, ¬(f = kernelRoot ∧ i = 0) →
      ∀ d, child d (execMachine.mem f i) = none := by
    intro f i hne d
    rw [execMachine_mem, write_of_ne _ _ hne]
    exact child_of_not_present (present_emptyTable i)
  cases q with
  | nil => exact .inl ⟨rfl, (some.inj h).symm⟩
  | cons i q =>
    unfold Paging.walk at h
    rw [walk_cons] at h
    by_cases hi : i = 0
    · subst hi
      have hchild : child 0 (execMachine.mem kernelRoot 0) = some 2#40 := by
        rw [execMachine_mem, write_self, child_first (by decide), frame_addr_or (by decide)]
      rw [hchild, bind_some] at h
      cases q with
      | nil => exact .inr ⟨rfl, (some.inj h).symm⟩
      | cons j q =>
        have hne : ¬(2#40 = kernelRoot ∧ j = 0) := fun hand => absurd hand.1 (by decide)
        rw [walk_cons, hother hne 1] at h
        cases h
    · rw [hother (fun hand => hi hand.2) 0] at h
      cases h

theorem execMachine_tree : PageTree execMachine kernelRoot where
  once _ _ h h' := by
    obtain ⟨rfl, rfl⟩ | ⟨rfl, rfl⟩ := walk_execMachine h
    · obtain ⟨rfl, -⟩ | ⟨-, h2⟩ := walk_execMachine h'
      · rfl
      · exact absurd h2 (by decide)
    · obtain ⟨-, h2⟩ | ⟨rfl, -⟩ := walk_execMachine h'
      · exact absurd h2 (by decide)
      · rfl
  busy _ h := by
    rintro ⟨⟨hlo, -⟩, -⟩
    obtain ⟨-, rfl⟩ | ⟨-, rfl⟩ := walk_execMachine h
    · exact absurd hlo (by decide)
    · exact absurd hlo (by decide)
  small {i j t} h hhere := by
    obtain ⟨hnil, -⟩ | ⟨-, rfl⟩ := walk_execMachine h
    · cases hnil
    · have hne : ¬(2#40 = kernelRoot ∧ j = 0) := fun hand => absurd hand.1 (by decide)
      rw [execMachine_mem, write_of_ne _ _ hne, present_emptyTable] at hhere
      cases hhere

theorem imageFile_low : SegmentsLow (imageFile 0x1000#64 20#64) := by
  intro i hi _ _
  have hphnum : (imageFile 0x1000#64 20#64).phnum.toNat = 2 := by decide +kernel
  obtain rfl | rfl : i = 0 ∨ i = 1 := by omega
  · decide +kernel
  · decide +kernel

/-- A program of two segments is started with two arguments. -/
theorem exec_stack_two : ∃ p,
    sysExec noDevices 1#40 [argA, argBc] (imageFile 0x1000#64 20#64) execMachine = .started p ∧
    ∃ ptrs random, StackRight [argA, argBc] p ptrs random := by
  have hroot : (createAddressSpace noDevices execMachine).1 = some 256#40 := by decide +kernel
  have hentry : (elfLoad (createAddressSpace noDevices execMachine).2 256#40
      (imageFile 0x1000#64 20#64)).entry ≠ 0#64 := by
    decide +kernel
  have hok : (mapStack 256#40 (List.range stackPages) (elfLoad
      (createAddressSpace noDevices execMachine).2 256#40 (imageFile 0x1000#64 20#64)).machine).1 =
        true := by
    decide +kernel
  have hargs : ∀ arg ∈ [argA, argBc], arg.chars.length ≤ 254 := by decide
  exact ExecRight.exists_program
    (exec_stack execMachine_tree (by decide +kernel) (by decide) hargs imageFile_low)
    (sysExec_ne_failed hroot hentry hok [argA, argBc])

end Utms7.Exec
