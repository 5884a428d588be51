import Utms7.ByteMemory

/-!
# Block nodes of `/dev`

`devfs_block_read` and `devfs_block_write` take an offset and a size in bytes and turn
them into commands for sectors of the disk.  A transfer that starts or ends inside a
sector is made sector by sector, any other one with a single command.  The number of
the first sector is cut to 32 bits, the number of sectors of a command to 16, and neither
function looks at the length of the partition.  So a transfer stays in the partition
exactly if the caller's offset and size do, after the cut.
-/

namespace Utms7.Storage

open ByteMemory List

/-! ## The disk -/

/-- A command of the driver, with the fields `countl` and `counth` as one. -/
structure Command where
  write : Bool
  lba : BitVec 32
  count : BitVec 16
deriving DecidableEq

/-- The sectors of a command; the disk takes 0 for 65536 of them. -/
def Command.sectors (c : Command) : Nat := if c.count = 0#16 then 65536 else c.count.toNat

/-- The command of `ahci_send_cmd`. -/
def ahciSendCmd (write : Bool) (lba count : BitVec 32) : Command := ⟨write, lba, count.setWidth 16⟩

/-- The bytes that a command moves: those of its sectors, as far as its buffer goes.  The
length of the buffer, `count * 512 - 1`, has 22 bits. -/
def moved (count : BitVec 32) : Nat :=
  min (512 * (ahciSendCmd false 0#32 count).sectors)
    ((512 * count.toNat + (2 ^ 22 - 1)) % 2 ^ 22 + 1)

/-- The bytes of a disk, and the commands that it got. -/
structure Drive where
  data : Bytes
  log : List Command

/-- The commands that the controller reports as failed. -/
abbrev Faults := Command → Bool

def noFaults : Faults := fun _ => false

/-- `disk_read`. -/
def diskRead (fails : Faults) (lba count : BitVec 32) (d : Drive) : Option Bytes × Drive :=
  let c := ahciSendCmd false lba count
  (if fails c then none else some (window d.data (512 * lba.toNat) (moved count)),
    { d with log := d.log ++ [c] })

/-- `disk_write`. -/
def diskWrite (fails : Faults) (lba count : BitVec 32) (src : Bytes) (d : Drive) : Bool × Drive :=
  let c := ahciSendCmd true lba count
  if fails c then (false, { d with log := d.log ++ [c] })
  else (true, ⟨blit d.data (512 * lba.toNat) src (moved count), d.log ++ [c]⟩)

/-! ## The functions of devfs -/

/-- `devfs_block_private_t` of a node: where its sectors are on the disk.  The disk
itself is the one that `disk_set_disk` selects before each command; the lookup that made
the node has found it. -/
structure BlockPrivate where
  startLba : BitVec 64
  sectors : BitVec 64
deriving DecidableEq

/-- `(u32)(p->start_lba + lba)`. -/
def BlockPrivate.sector (p : BlockPrivate) (lba : BitVec 64) : BitVec 32 :=
  (p.startLba + lba).setWidth 32

def devfsBlockReadBlock (fails : Faults) (p : BlockPrivate) (lba : BitVec 64) (count : BitVec 32)
    (d : Drive) : Option Bytes × Drive :=
  diskRead fails (p.sector lba) count d

def devfsBlockWriteBlock (fails : Faults) (p : BlockPrivate) (lba : BitVec 64) (count : BitVec 32)
    (src : Bytes) (d : Drive) : Bool × Drive :=
  diskWrite fails (p.sector lba) count src d

/-- What a transfer returns, the buffer of the caller and the disk afterwards. -/
structure Transfer where
  value : BitVec 32
  buf : Bytes
  drive : Drive

/-- The loop of `devfs_block_read`, at most `n` rounds of it. -/
def readLoop (fails : Faults) (p : BlockPrivate) (size : Nat) :
    Nat → BitVec 64 → Nat → Nat → Bytes → Drive → Transfer
  | 0, _, _, copied, buf, d => ⟨BitVec.ofNat 32 copied, buf, d⟩
  | n + 1, lba, off, copied, buf, d =>
    if copied < size then
      match devfsBlockReadBlock fails p lba 1#32 d with
      | (none, d) => ⟨BitVec.ofNat 32 copied, buf, d⟩
      | (some sector, d) =>
        let chunk := min (512 - off) (size - copied)
        readLoop fails p size n (lba + 1#64) 0 (copied + chunk)
          (blit buf copied (fun i => sector (off + i)) chunk) d
    else ⟨BitVec.ofNat 32 copied, buf, d⟩

/-- The loop of `devfs_block_write`, at most `n` rounds of it.  A sector that is not
written as a whole is read first; the other rounds start with the sector before. -/
def writeLoop (fails : Faults) (p : BlockPrivate) (size : Nat) (buf : Bytes) :
    Nat → BitVec 64 → Nat → Nat → Bytes → Drive → Transfer
  | 0, _, _, written, _, d => ⟨BitVec.ofNat 32 written, buf, d⟩
  | n + 1, lba, off, written, sector, d =>
    if written < size then
      let r := if off ≠ 0 ∨ size - written < 512 then devfsBlockReadBlock fails p lba 1#32 d
        else (some sector, d)
      match r with
      | (none, d) => ⟨BitVec.ofNat 32 written, buf, d⟩
      | (some sector, d) =>
        let chunk := min (512 - off) (size - written)
        let sector := blit sector off (fun i => buf (written + i)) chunk
        match devfsBlockWriteBlock fails p lba 1#32 sector d with
        | (false, d) => ⟨BitVec.ofNat 32 written, buf, d⟩
        | (true, d) => writeLoop fails p size buf n (lba + 1#64) 0 (written + chunk) sector d
    else ⟨BitVec.ofNat 32 written, buf, d⟩

/-- The first sector of a transfer, from the start of the node. -/
def firstLba (offset : BitVec 64) : BitVec 64 := BitVec.ofNat 64 (offset.toNat / 512)

/-- The sectors that a transfer of `size` bytes from byte `off` of a sector on touches. -/
def touched (off size : Nat) : Nat := if size = 0 then 0 else (off + size + 511) / 512

/-- Whether a transfer is made sector by sector. -/
def Unaligned (size offset : BitVec 64) : Prop := offset.toNat % 512 ≠ 0 ∨ size.toNat % 512 ≠ 0

instance (size offset : BitVec 64) : Decidable (Unaligned size offset) := instDecidableOr

/-- `devfs_block_read`. -/
def devfsBlockRead (fails : Faults) (p : BlockPrivate) (buf : Bytes) (size offset : BitVec 64)
    (d : Drive) : Transfer :=
  if Unaligned size offset then
    readLoop fails p size.toNat (touched (offset.toNat % 512) size.toNat) (firstLba offset)
      (offset.toNat % 512) 0 buf d
  else
    let count : BitVec 32 := BitVec.ofNat 32 (size.toNat / 512)
    match devfsBlockReadBlock fails p (firstLba offset) count d with
    | (none, d) => ⟨0#32, buf, d⟩
    | (some bytes, d) => ⟨size.setWidth 32, blit buf 0 bytes (moved count), d⟩

/-- `devfs_block_write`; `sector` is what the buffer for a sector holds at the start. -/
def devfsBlockWrite (fails : Faults) (p : BlockPrivate) (buf sector : Bytes)
    (size offset : BitVec 64) (d : Drive) : Transfer :=
  if Unaligned size offset then
    writeLoop fails p size.toNat buf (touched (offset.toNat % 512) size.toNat) (firstLba offset)
      (offset.toNat % 512) 0 sector d
  else
    let count : BitVec 32 := BitVec.ofNat 32 (size.toNat / 512)
    match devfsBlockWriteBlock fails p (firstLba offset) count buf d with
    | (false, d) => ⟨0#32, buf, d⟩
    | (true, d) => ⟨size.setWidth 32, buf, d⟩

/-! ## The sectors of a transfer -/

/-- Every sector of a command is one of the node. -/
def Command.Inside (p : BlockPrivate) (c : Command) : Prop :=
  ∀ x, c.lba.toNat ≤ x → x < c.lba.toNat + c.sectors →
    p.startLba.toNat ≤ x ∧ x < p.startLba.toNat + p.sectors.toNat

/-- From `d` to `d'` only sectors of the node were read or written: `d'` got commands for
them, and has the bytes of `d` everywhere else. -/
structure StaysInside (p : BlockPrivate) (d d' : Drive) : Prop where
  commands : ∃ cs, d'.log = d.log ++ cs ∧ ∀ c ∈ cs, c.Inside p
  data : ∀ x, x < 512 * p.startLba.toNat ∨ 512 * (p.startLba.toNat + p.sectors.toNat) ≤ x →
    d'.data x = d.data x

/-- The sectors `first`, `first + 1`, …, `first + count - 1`, each cut to 32 bits, are
sectors of the node. -/
def Wraps (p : BlockPrivate) (first count : Nat) : Prop :=
  ∀ i < count, p.startLba.toNat ≤ (first + i) % 2 ^ 32 ∧
    (first + i) % 2 ^ 32 < p.startLba.toNat + p.sectors.toNat

/-- The offset and the size of a transfer keep it in the node. -/
def Fits (p : BlockPrivate) (size offset : BitVec 64) : Prop :=
  let first := (p.startLba.toNat + offset.toNat / 512) % 2 ^ 32
  let stop := p.startLba.toNat + p.sectors.toNat
  if Unaligned size offset then
    let count := touched (offset.toNat % 512) size.toNat
    count = 0 ∨ (p.startLba.toNat = 0 ∧ 2 ^ 32 ≤ p.sectors.toNat) ∨
      (p.startLba.toNat ≤ first ∧ first + count ≤ min (2 ^ 32) stop)
  else
    let count := size.toNat / 512 % 2 ^ 16
    p.startLba.toNat ≤ first ∧ first + (if count = 0 then 65536 else count) ≤ stop

variable {p : BlockPrivate} {lba size offset : BitVec 64} {n : Nat} {d d₀ d' d'' : Drive}
  {c : Command} {count : BitVec 32}

theorem sector_add (p : BlockPrivate) (lba : BitVec 64) (i : Nat) :
    (p.sector (lba + BitVec.ofNat 64 i)).toNat = (p.startLba.toNat + lba.toNat + i) % 2 ^ 32 := by
  simp only [BlockPrivate.sector, BitVec.toNat_setWidth, BitVec.toNat_add, BitVec.toNat_ofNat]
  omega

theorem next_sector (lba : BitVec 64) (i : Nat) :
    lba + BitVec.ofNat 64 (i + 1) = lba + 1#64 + BitVec.ofNat 64 i := by
  rw [BitVec.add_assoc, Nat.add_comm i, ← BitVec.ofNat_add]

/-- A run of sectors stays in the node if it does not meet the end of the 32-bit numbers,
or if the node has all of these numbers. -/
theorem wraps_iff (p : BlockPrivate) (first count : Nat) : Wraps p first count ↔
      count = 0 ∨ (p.startLba.toNat = 0 ∧ 2 ^ 32 ≤ p.sectors.toNat) ∨
        (p.startLba.toNat ≤ first % 2 ^ 32 ∧
          first % 2 ^ 32 + count ≤ min (2 ^ 32) (p.startLba.toNat + p.sectors.toNat)) := by
  constructor
  · intro h
    by_cases hzero : count = 0
    · exact .inl hzero
    by_cases hall : p.startLba.toNat = 0 ∧ 2 ^ 32 ≤ p.sectors.toNat
    · exact .inr (.inl hall)
    have hfirst := h 0 (by omega)
    have hlast := h (count - 1) (by omega)
    refine .inr (.inr ⟨by omega, ?_⟩)
    -- past the end of the numbers come the sectors 2 ^ 32 - 1 and 0
    by_cases hwrap : first % 2 ^ 32 + count ≤ 2 ^ 32
    · omega
    · have htop := h (2 ^ 32 - 1 - first % 2 ^ 32) (by omega)
      have hbottom := h (2 ^ 32 - first % 2 ^ 32) (by omega)
      omega
  · rintro (hzero | hall | hrun) i hi <;> omega

/-- From `d` to `d'` only the `n` sectors from `lba` on of the node were accessed. -/
structure Covered (p : BlockPrivate) (lba : BitVec 64) (n : Nat) (d d' : Drive) : Prop where
  commands : ∃ cs, d'.log = d.log ++ cs ∧
    ∀ c ∈ cs, ∃ i < n, c.lba = p.sector (lba + BitVec.ofNat 64 i) ∧ c.sectors = 1
  data : ∀ x, (∀ i < n, x / 512 ≠ (p.sector (lba + BitVec.ofNat 64 i)).toNat) →
    d'.data x = d.data x

namespace Covered

variable {fails : Faults} {p : BlockPrivate} {lba : BitVec 64} {m : Nat} {d : Drive}

theorem refl : Covered p lba n d d :=
  ⟨⟨[], by simp, by simp⟩, fun _ _ => rfl⟩

theorem trans (h : Covered p lba n d d') (h' : Covered p lba n d' d'') : Covered p lba n d d'' := by
  obtain ⟨cs, hlog, hcs⟩ := h.commands
  obtain ⟨cs', hlog', hcs'⟩ := h'.commands
  refine ⟨⟨cs ++ cs', by rw [hlog', hlog, append_assoc], ?_⟩, ?_⟩
  · intro c hc
    exact (mem_append.mp hc).elim (hcs c) (hcs' c)
  · intro x hx
    rw [h'.data x hx, h.data x hx]

theorem mono (h : Covered p lba n d d') (hnm : n ≤ m) : Covered p lba m d d' := by
  obtain ⟨cs, hlog, hcs⟩ := h.commands
  refine ⟨⟨cs, hlog, ?_⟩, fun x hx => h.data x fun i hi => hx i (by omega)⟩
  intro c hc
  obtain ⟨i, hi, hsector⟩ := hcs c hc
  exact ⟨i, by omega, hsector⟩

/-- The next sectors of a transfer are counted from its first one. -/
theorem shift (h : Covered p (lba + 1#64) n d d') : Covered p lba (n + 1) d d' := by
  have hnext := fun i => (next_sector lba i).symm
  obtain ⟨cs, hlog, hcs⟩ := h.commands
  refine ⟨⟨cs, hlog, ?_⟩, fun x hx => h.data x fun i hi => ?_⟩
  · intro c hc
    obtain ⟨i, hi, hsector, hcount⟩ := hcs c hc
    exact ⟨i + 1, by omega, hnext i ▸ hsector, hcount⟩
  · rw [hnext i]
    exact hx (i + 1) (by omega)

/-- Sectors of the node that a transfer is covered by are all that it accesses. -/
theorem staysInside (h : Covered p lba n d d')
    (hwraps : Wraps p (p.startLba.toNat + lba.toNat) n) : StaysInside p d d' := by
  obtain ⟨cs, hlog, hcs⟩ := h.commands
  refine ⟨⟨cs, hlog, ?_⟩, ?_⟩
  · intro c hc x hlo hhi
    obtain ⟨i, hi, hsector, hcount⟩ := hcs c hc
    have hin := hwraps i hi
    rw [hsector, sector_add] at hlo hhi
    omega
  · intro x hx
    refine h.data x fun i hi heq => ?_
    have hin := hwraps i hi
    rw [sector_add] at heq
    omega

end Covered

/-- Between `d` and `d'` the disk got the command `c`. -/
def Got (d d' : Drive) (c : Command) : Prop := ∃ cs, d'.log = d.log ++ cs ∧ c ∈ cs

theorem Got.covered (h : Got d d' c) (h' : Covered p lba n d' d'') : Got d d'' c := by
  obtain ⟨cs, hlog, hc⟩ := h
  obtain ⟨cs', hlog', -⟩ := h'.commands
  exact ⟨cs ++ cs', by rw [hlog', hlog, append_assoc], mem_append_left cs' hc⟩

theorem Covered.got (h : Covered p lba n d d') (h' : Got d' d'' c) : Got d d'' c := by
  obtain ⟨cs, hlog, -⟩ := h.commands
  obtain ⟨cs', hlog', hc⟩ := h'
  exact ⟨cs ++ cs', by rw [hlog', hlog, append_assoc], mem_append_right cs hc⟩

theorem StaysInside.inside (h : StaysInside p d d') (hgot : Got d d' c) : c.Inside p := by
  obtain ⟨cs, hlog, hcs⟩ := h.commands
  obtain ⟨cs', hlog', hc⟩ := hgot
  rw [hlog, append_cancel_left_eq] at hlog'
  exact hcs c (hlog' ▸ hc)

/-! ## One command -/

/-- From `d` to `d'` the disk got the command `c` alone, and changed in its sectors at most. -/
structure Did (c : Command) (d d' : Drive) : Prop where
  log : d'.log = d.log ++ [c]
  data : ∀ x, x < 512 * c.lba.toNat ∨ 512 * (c.lba.toNat + c.sectors) ≤ x → d'.data x = d.data x

namespace Did

theorem read (fails : Faults) (d : Drive) :
    Did (ahciSendCmd false (p.sector lba) count) d (devfsBlockReadBlock fails p lba count d).2 :=
  ⟨rfl, fun _ _ => rfl⟩

theorem write (fails : Faults) (src : Bytes) (d : Drive) :
    Did (ahciSendCmd true (p.sector lba) count) d
      (devfsBlockWriteBlock fails p lba count src d).2 := by
  unfold devfsBlockWriteBlock diskWrite
  refine ⟨?_, fun x hx => ?_⟩ <;> dsimp only <;> split
  · rfl
  · rfl
  · rfl
  · have hle : moved count ≤ 512 * (ahciSendCmd true (p.sector lba) count).sectors :=
      Nat.min_le_left _ _
    simp only [ahciSendCmd] at hx hle
    exact blit_outside (by omega)

theorem got (h : Did c d d') : Got d d' c := ⟨[c], h.log, mem_singleton_self c⟩

/-- A command for one sector. -/
theorem covered {write : Bool} (h : Did (ahciSendCmd write (p.sector lba) 1#32) d d') :
    Covered p lba 1 d d' := by
  refine ⟨⟨_, h.log, fun c hc => ?_⟩, fun x hx => h.data x ?_⟩
  · obtain rfl := mem_singleton.mp hc
    exact ⟨0, Nat.one_pos, by simp [ahciSendCmd], rfl⟩
  · have hother : x / 512 ≠ (p.sector lba).toNat := by simpa using hx 0 Nat.one_pos
    rw [show (ahciSendCmd write (p.sector lba) 1#32).sectors = 1 from rfl]
    simp only [ahciSendCmd]
    omega

/-- A command keeps a transfer in the node exactly if its sectors are there. -/
theorem staysInside_iff (h : Did c d d') : StaysInside p d d' ↔ c.Inside p := by
  refine ⟨fun hin => hin.inside h.got, fun hin => ⟨⟨_, h.log, ?_⟩, fun x hx => h.data x ?_⟩⟩
  · exact fun c' hc => mem_singleton.mp hc ▸ hin
  · by_contra hout
    have hsector := hin (x / 512) (by omega) (by omega)
    omega

end Did

/-! ## Transfers sector by sector -/

/-- From `d` to `d'` at most the `n` sectors from `lba` on were accessed, and every one of
them got its command if no command fails. -/
structure Swept (fails : Faults) (write : Bool) (p : BlockPrivate) (lba : BitVec 64) (n : Nat)
    (d d' : Drive) : Prop where
  covered : Covered p lba n d d'
  all : fails = noFaults → ∀ i < n, Got d d' ⟨write, p.sector (lba + BitVec.ofNat 64 i), 1#16⟩

namespace Swept

variable {fails : Faults} {write : Bool}

theorem none : Swept fails write p lba 0 d d := ⟨.refl, fun _ i hi => absurd hi (Nat.not_lt_zero i)⟩

/-- A command that fails ends the loop. -/
theorem stop (h : Covered p lba 1 d d') (hfails : fails ≠ noFaults) :
    Swept fails write p lba (n + 1) d d' := ⟨h.mono (by omega), fun hno => absurd hno hfails⟩

/-- A round of a loop, after what it reads first. -/
theorem next (hbefore : Covered p lba 1 d d₀)
    (hdid : Did (ahciSendCmd write (p.sector lba) 1#32) d₀ d')
    (h : Swept fails write p (lba + 1#64) n d' d'') : Swept fails write p lba (n + 1) d d'' where
  covered := ((hbefore.trans hdid.covered).mono (by omega)).trans h.covered.shift
  all hno i hi := by
    cases i with
    | zero =>
      rw [show lba + BitVec.ofNat 64 0 = lba from BitVec.add_zero lba]
      exact hbefore.got (hdid.got.covered h.covered)
    | succ i =>
      rw [next_sector lba i]
      exact (hbefore.trans hdid.covered).got (h.all hno i (by omega))

end Swept

/-- The rounds that are left after one. -/
theorem touched_succ {off size n : Nat} (hoff : off < 512) (h : touched off size = n + 1) :
    0 < size ∧ touched 0 (size - min (512 - off) size) = n := by
  unfold touched at h ⊢
  split at h
  · omega
  · refine ⟨by omega, ?_⟩
    split <;> omega

section

variable (fails : Faults) (p : BlockPrivate) (size : Nat)

theorem readLoop_swept {n : Nat} {lba : BitVec 64} {off copied : Nat} (buf : Bytes) (d : Drive)
    (hoff : off < 512) (hn : touched off (size - copied) = n) :
    Swept fails false p lba n d (readLoop fails p size n lba off copied buf d).drive := by
  induction n generalizing lba off copied buf d with
  | zero => exact .none
  | succ n ih =>
    obtain ⟨hpos, hrest⟩ := touched_succ hoff hn
    have hread : Did (ahciSendCmd false (p.sector lba) 1#32) d _ := .read fails d
    unfold readLoop
    rw [if_pos (by omega)]
    cases hr : devfsBlockReadBlock fails p lba 1#32 d with
    | mk r d' =>
      rw [hr] at hread
      cases r with
      | none =>
        refine .stop hread.covered ?_
        rintro rfl
        cases hr
      | some sector => exact .next .refl hread (ih _ _ (by omega) (by rw [← hrest]; congr 1; omega))

theorem writeLoop_swept {buf : Bytes} {n : Nat} {lba : BitVec 64} {off written : Nat}
    (sector : Bytes) (d : Drive) (hoff : off < 512) (hn : touched off (size - written) = n) :
    Swept fails true p lba n d (writeLoop fails p size buf n lba off written sector d).drive := by
  induction n generalizing lba off written sector d with
  | zero => exact .none
  | succ n ih =>
    obtain ⟨hpos, hrest⟩ := touched_succ hoff hn
    -- what the round reads first
    obtain ⟨r, d₀, hr, hbefore, hfail⟩ : ∃ r d₀, (if off ≠ 0 ∨ size - written < 512
        then devfsBlockReadBlock fails p lba 1#32 d else (some sector, d)) = (r, d₀) ∧
        Covered p lba 1 d d₀ ∧ (r = none → fails ≠ noFaults) := by
      split
      · refine ⟨_, _, rfl, (Did.read fails d).covered, ?_⟩
        rintro hnone rfl
        cases hnone
      · exact ⟨_, _, rfl, .refl, nofun⟩
    unfold writeLoop
    rw [if_pos (by omega), hr]
    cases r with
    | none => exact .stop hbefore (hfail rfl)
    | some old =>
      have hwrite : Did (ahciSendCmd true (p.sector lba) 1#32) d₀ _ := .write fails
        (blit old off (fun i => buf (written + i)) (min (512 - off) (size - written))) d₀
      dsimp only
      cases hw : devfsBlockWriteBlock fails p lba 1#32 (blit old off _ _) d₀ with
      | mk ok d' =>
        rw [hw] at hwrite
        cases ok with
        | false =>
          refine .stop (hbefore.trans hwrite.covered) ?_
          rintro rfl
          cases hw
        | true => exact .next hbefore hwrite (ih _ _ (by omega) (by rw [← hrest]; congr 1; omega))

end

/-! ## Whole transfers -/

theorem toNat_firstLba (offset : BitVec 64) : (firstLba offset).toNat = offset.toNat / 512 := by
  rw [firstLba, BitVec.toNat_ofNat]
  omega

theorem Command.sectors_pos (c : Command) : 0 < c.sectors := by
  unfold sectors
  split
  · decide
  · next h => exact Nat.pos_of_ne_zero fun hzero => h (BitVec.eq_of_toNat_eq hzero)

/-- A command stays in the node if its first and its last sector do. -/
theorem inside_iff (p : BlockPrivate) (c : Command) : c.Inside p ↔
    p.startLba.toNat ≤ c.lba.toNat ∧
      c.lba.toNat + c.sectors ≤ p.startLba.toNat + p.sectors.toNat := by
  have hpos := c.sectors_pos
  constructor
  · intro h
    have hlo := h c.lba.toNat (Nat.le_refl _) (by omega)
    have hhi := h (c.lba.toNat + (c.sectors - 1)) (by omega) (by omega)
    exact ⟨hlo.1, by omega⟩
  · intro h x hlo hhi
    omega

/-- A transfer that is made sector by sector stays in the node if the sectors do. -/
theorem wraps_of_unaligned (h : Unaligned size offset) :
    Wraps p (p.startLba.toNat + (firstLba offset).toNat) (touched (offset.toNat % 512) size.toNat) ↔
      Fits p size offset := by
  rw [wraps_iff, toNat_firstLba, Fits, if_pos h]

theorem inside_of_aligned {write : Bool} (h : ¬ Unaligned size offset) :
    (ahciSendCmd write (p.sector (firstLba offset)) (BitVec.ofNat 32 (size.toNat / 512))).Inside p ↔
      Fits p size offset := by
  have hsector := sector_add p (firstLba offset) 0
  have hcount : (BitVec.setWidth 16 (BitVec.ofNat 32 (size.toNat / 512))).toNat =
      size.toNat / 512 % 2 ^ 16 := by
    simp only [BitVec.toNat_setWidth, BitVec.toNat_ofNat]
    omega
  simp only [BitVec.add_zero, toNat_firstLba] at hsector
  rw [inside_iff, Fits, if_neg h]
  simp only [ahciSendCmd, Command.sectors, hsector, ← BitVec.toNat_inj, hcount, BitVec.toNat_ofNat,
    Nat.add_zero]

/-- What is proved of a transfer: it stays in the node if it fits, and on a disk where no
command fails only then. -/
def Keeps (fails : Faults) (p : BlockPrivate) (size offset : BitVec 64) (d d' : Drive) : Prop :=
  (Fits p size offset → StaysInside p d d') ∧
    (fails = noFaults → StaysInside p d d' → Fits p size offset)

section

variable {fails : Faults} {write : Bool}

theorem Swept.keeps (hunaligned : Unaligned size offset) (h : Swept fails write p (firstLba offset)
    (touched (offset.toNat % 512) size.toNat) d d') : Keeps fails p size offset d d' := by
  rw [Keeps, ← wraps_of_unaligned hunaligned]
  refine ⟨h.covered.staysInside, fun hno hinside i hi => ?_⟩
  have hsector := hinside.inside (h.all hno i hi) _ (Nat.le_refl _) (Nat.lt_add_one _)
  rwa [sector_add] at hsector

theorem Did.keeps (fails : Faults) (haligned : ¬ Unaligned size offset) (h : Did (ahciSendCmd write
    (p.sector (firstLba offset)) (BitVec.ofNat 32 (size.toNat / 512))) d d') :
    Keeps fails p size offset d d' := by
  rw [Keeps, ← inside_of_aligned haligned, ← h.staysInside_iff]
  exact ⟨id, fun _ => id⟩

theorem devfsBlockRead_keeps {buf : Bytes} {d : Drive} :
    Keeps fails p size offset d (devfsBlockRead fails p buf size offset d).drive := by
  unfold devfsBlockRead
  by_cases hunaligned : Unaligned size offset
  · rw [if_pos hunaligned]
    exact Swept.keeps hunaligned (readLoop_swept fails p _ buf d (by omega) (by rfl))
  · rw [if_neg hunaligned]
    have hdid := Did.keeps fails hunaligned (.read (p := p) fails d)
    dsimp only
    generalize devfsBlockReadBlock fails p (firstLba offset) _ d = r at hdid ⊢
    rcases r with ⟨_ | _, d'⟩ <;> exact hdid

theorem devfsBlockWrite_keeps {buf sector : Bytes} {d : Drive} :
    Keeps fails p size offset d (devfsBlockWrite fails p buf sector size offset d).drive := by
  unfold devfsBlockWrite
  by_cases hunaligned : Unaligned size offset
  · rw [if_pos hunaligned]
    exact Swept.keeps hunaligned (writeLoop_swept fails p _ sector d (by omega) (by rfl))
  · rw [if_neg hunaligned]
    have hdid := Did.keeps fails hunaligned (.write (p := p) fails buf d)
    dsimp only
    generalize devfsBlockWriteBlock fails p (firstLba offset) _ buf d = r at hdid ⊢
    rcases r with ⟨_ | _, d'⟩ <;> exact hdid

end

/-- **Transfers through a node stay in it exactly if the caller's offset and size do.**
If they do, the commands of a transfer stay in the node whatever commands fail.  On a disk
where none fails they leave it if the offset and the size do. -/
theorem devfs_transfer_inside (p : BlockPrivate) (size offset : BitVec 64) :
    (Fits p size offset → ∀ (fails : Faults) (buf sector : Bytes) (d : Drive),
      StaysInside p d (devfsBlockRead fails p buf size offset d).drive ∧
        StaysInside p d (devfsBlockWrite fails p buf sector size offset d).drive) ∧
    (∀ (buf sector : Bytes) (d : Drive),
      (StaysInside p d (devfsBlockRead noFaults p buf size offset d).drive ↔ Fits p size offset) ∧
        (StaysInside p d (devfsBlockWrite noFaults p buf sector size offset d).drive ↔
          Fits p size offset)) := by
  constructor
  · intro hfits fails buf sector d
    exact ⟨devfsBlockRead_keeps.1 hfits, devfsBlockWrite_keeps.1 hfits⟩
  · intro buf sector d
    have hread := @devfsBlockRead_keeps p size offset noFaults buf d
    have hwrite := @devfsBlockWrite_keeps p size offset noFaults buf sector d
    exact ⟨⟨hread.2 rfl, hread.1⟩, ⟨hwrite.2 rfl, hwrite.1⟩⟩

/-- Sector 3 of a node of eight sectors. -/
theorem devfs_transfer_inside_third : Fits ⟨2048#64, 8#64⟩ 512#64 1536#64 ∧
      StaysInside ⟨2048#64, 8#64⟩ ⟨zeros, []⟩
        (devfsBlockWrite noFaults ⟨2048#64, 8#64⟩ (fun _ => 1#8) zeros
          512#64 1536#64 ⟨zeros, []⟩).drive := by
  have hfits : Fits ⟨2048#64, 8#64⟩ 512#64 1536#64 := by
    unfold Fits
    decide
  exact ⟨hfits, (((devfs_transfer_inside _ _ _).1 hfits) noFaults _ _ _).2⟩

/-- A write of one sector right behind a node of eight sectors changes the next sector of
the disk. -/
theorem devfs_write_past_end : ¬ StaysInside ⟨2048#64, 8#64⟩ ⟨zeros, []⟩
      (devfsBlockWrite noFaults ⟨2048#64, 8#64⟩ (fun _ => 1#8) zeros
        512#64 4096#64 ⟨zeros, []⟩).drive := by
  intro h
  have hbyte := h.data (512 * 2056) (by decide)
  revert hbyte
  decide +kernel

end Utms7.Storage
