import Utms7.ByteMemory

/-!
# The data of ramfs files

A file of ramfs has a buffer, the capacity of the buffer and a size.  A write past the
capacity moves the file to a larger buffer, found by doubling; a write past the size
zeroes the hole; truncation sets the size to 0 and keeps the buffer.

The file holds the byte array that its writes and truncations describe.  The numbers are
64 bits wide: the doubling never gets past `2 ^ 63`, and the end of a write may wrap.
-/

namespace Utms7.RamfsData

open ByteMemory List

/-- The fields of a `vfs_node_t` of type `VFS_FILE` for its data.  `data` is `NULL` as long
as the capacity is 0.  Sizes and offsets are the numbers that the `u64` of the source stand
for. -/
structure File where
  data : Bytes
  size : Nat
  capacity : Nat

open File

/-- What `ramfs_write` returns and leaves, and where it wrote into the buffer: first byte
and number of bytes. -/
structure Written where
  value : Int
  file : File
  stores : List (Nat × Nat)

variable {f : File} {buf : Bytes} {n k i cap stop size offset : Nat} {r : Written}

/-! ## The functions -/

/-- `while (new_cap < end) new_cap *= 2`, with at most `n` tests. -/
def growLoop : Nat → Nat → Nat → Option Nat
  | 0, _, _ => none
  | n + 1, newCap, stop =>
    if newCap < stop then growLoop n (newCap * 2 % 2 ^ 64) stop else some newCap

/-- The part of `ramfs_write` that moves a file to the new buffer `nd`. -/
def File.move (f : File) (nd : Bytes) (newCap : Nat) : File where
  data := blit (blit nd 0 zeros newCap) 0 f.data (if f.capacity ≠ 0 ∧ f.size > 0 then f.size else 0)
  size := f.size
  capacity := newCap

/-- `ramfs_write` once there is a buffer for the bytes up to `stop`. -/
def File.store (f : File) (buf : Bytes) (size offset stop : Nat) (stores : List (Nat × Nat)) :
    Written :=
  let hole := if offset > f.size then offset - f.size else 0
  { value := (BitVec.ofNat 32 size).toInt
    file := ⟨blit (blit f.data f.size zeros hole) offset buf size,
      if stop > f.size then stop else f.size, f.capacity⟩
    stores := (f.size, hole) :: (offset, size) :: stores }

/-- `ramfs_write` on a file, with at most `n` tests of its loop.  `kmalloc` returns a buffer
with what it happens to hold, or `NULL`. -/
def ramfsWrite (n : Nat) (kmalloc : Nat → Option Bytes) (f : File) (buf : Bytes)
    (size offset : Nat) : Option Written :=
  if size = 0 then some ⟨0, f, []⟩
  else
    let stop := (offset + size) % 2 ^ 64
    if stop > f.capacity then
      match growLoop n (if f.capacity ≠ 0 then f.capacity else 4096) stop with
      | none => none
      | some newCap =>
        match kmalloc newCap with
        | none => some ⟨-1, f, []⟩
        | some nd => some ((f.move nd newCap).store buf size offset stop [(0, newCap), (0, f.size)])
    else some (f.store buf size offset stop [])

/-- `ramfs_read` on a file: what it returns, how many bytes it copies, and these bytes. -/
def ramfsRead (f : File) (size offset : Nat) : Int × Nat × Bytes :=
  if offset ≥ f.size then (0, 0, zeros)
  else
    let toCopy := min (f.size - offset) size
    ((BitVec.ofNat 32 toCopy).toInt, toCopy, window f.data offset toCopy)

/-! ## The buffer -/

/-- The capacities that doubling gives: after `2 ^ 63` comes 0. -/
def Doubled (cap : Nat) : Prop := cap = 0 ∨ ∃ k ≤ 51, cap = 4096 * 2 ^ k

/-- A file as the functions above leave it. -/
structure File.Valid (f : File) : Prop where
  fits : f.size ≤ f.capacity
  doubled : Doubled f.capacity

theorem pow_le (h : k ≤ 51) : 2 ^ k ≤ 2 ^ 51 := Nat.pow_le_pow_right (by decide) h

theorem Doubled.le (h : Doubled cap) : cap ≤ 2 ^ 63 := by
  obtain rfl | ⟨k, hk, rfl⟩ := h
  · omega
  · have hpow := pow_le hk
    omega

theorem Doubled.double (h : Doubled cap) : Doubled (cap * 2 % 2 ^ 64) := by
  obtain rfl | ⟨k, hk, rfl⟩ := h
  · exact .inl rfl
  · obtain hk | rfl := Nat.lt_or_eq_of_le hk
    · have hpow : 2 ^ (k + 1) ≤ 2 ^ 51 := pow_le hk
      exact .inr ⟨k + 1, hk, by omega⟩
    · exact .inl rfl

theorem File.Valid.first (h : f.Valid) :
    ∃ k ≤ 51, (if f.capacity ≠ 0 then f.capacity else 4096) = 4096 * 2 ^ k := by
  split
  · exact h.doubled.resolve_left ‹_›
  · exact ⟨0, by decide, rfl⟩

/-- The doubling ends for every end up to `2 ^ 63`. -/
theorem growLoop_ends (hstop : stop ≤ 2 ^ 63) (hk : k ≤ 51) (hn : 51 - k < n) :
    ∃ cap, growLoop n (4096 * 2 ^ k) stop = some cap ∧ stop ≤ cap := by
  induction n generalizing k with
  | zero => omega
  | succ n ih =>
    unfold growLoop
    split
    · -- the capacity is below `2 ^ 63`, so that doubling it does not wrap
      have hk' : k < 51 := by
        by_contra hge
        obtain rfl : k = 51 := by omega
        omega
      have hnext : 4096 * 2 ^ k * 2 % 2 ^ 64 = 4096 * 2 ^ (k + 1) := by omega
      rw [hnext]
      exact ih hk' (by omega)
    · exact ⟨_, rfl, by omega⟩

theorem Doubled.growLoop (h : Doubled cap) {c : Nat} (hc : growLoop n cap stop = some c) :
    Doubled c := by
  induction n generalizing cap with
  | zero => cases hc
  | succ n ih =>
    unfold RamfsData.growLoop at hc
    split at hc
    · exact ih h.double hc
    · cases hc
      exact h

/-- The bytes that a file holds: 0 past its size. -/
def File.bytes (f : File) : Bytes := window f.data 0 f.size

/-- What a write leaves that is given a buffer. -/
structure Stored (f : File) (buf : Bytes) (size offset : Nat) (r : Written) : Prop where
  inside : ∀ s ∈ r.stores, s.1 + s.2 ≤ r.file.capacity
  valid : r.file.Valid
  length : r.file.size = max f.size (offset + size)
  bytes : r.file.bytes = blit f.bytes offset buf size

theorem File.bytes_of_lt (h : i < f.size) : f.bytes i = f.data i := by
  rw [bytes, window_apply h, Nat.zero_add]

theorem File.Valid.move_bytes (h : f.Valid) (nd : Bytes) : (f.move nd cap).bytes = f.bytes := by
  have hfits := h.fits
  funext i
  simp only [bytes, window, move, blit]
  grind

theorem File.Valid.store (h : f.Valid) (buf : Bytes) (stores : List (Nat × Nat))
    (hcap : offset + size ≤ f.capacity) (hstores : ∀ s ∈ stores, s.1 + s.2 ≤ f.capacity) :
    Stored f buf size offset (f.store buf size offset (offset + size) stores) := by
  have hfits := h.fits
  have hlength : (if offset + size > f.size then offset + size else f.size) =
      max f.size (offset + size) := by
    split <;> omega
  refine ⟨?_, ⟨?_, h.doubled⟩, hlength, ?_⟩
  · simp only [File.store, mem_cons]
    rintro s (rfl | rfl | hs)
    · split <;> omega
    · exact hcap
    · exact hstores s hs
  · exact le_of_eq_of_le hlength (Nat.max_le.mpr ⟨hfits, hcap⟩)
  · -- a byte is new, of the hole, of the old file or past the new size
    funext i
    simp only [File.bytes, window, File.store, blit, zeros]
    grind

/-- A write up to `2 ^ 63` ends: without memory nothing happened, with memory the bytes are
stored. -/
theorem ramfsWrite_spec (h : f.Valid) (kmalloc : Nat → Option Bytes) {buf : Bytes}
    (hsize : size ≠ 0) (hstop : offset + size ≤ 2 ^ 63) (hn : 52 ≤ n) :
    (∃ cap, kmalloc cap = none ∧ ramfsWrite n kmalloc f buf size offset = some ⟨-1, f, []⟩) ∨
      ∃ r, ramfsWrite n kmalloc f buf size offset = some r ∧ Stored f buf size offset r := by
  have hfits := h.fits
  unfold ramfsWrite
  rw [if_neg hsize, Nat.mod_eq_of_lt (by omega)]
  dsimp only
  split
  · obtain ⟨k, hk, hfirst⟩ := h.first
    obtain ⟨cap, hgrow, hle⟩ := growLoop_ends (n := n) hstop hk (by omega)
    rw [hfirst, hgrow]
    dsimp only
    cases hmalloc : kmalloc cap with
    | none => exact .inl ⟨cap, hmalloc, rfl⟩
    | some nd =>
      have hold : f.size ≤ cap := by omega
      have hvalid : (f.move nd cap).Valid :=
        ⟨hold, Doubled.growLoop (.inr ⟨k, hk, rfl⟩) hgrow⟩
      have hstored := hvalid.store buf [(0, cap), (0, f.size)] hle (by simp [move, hold])
      refine .inr ⟨_, rfl, { hstored with bytes := ?_ }⟩
      rw [hstored.bytes, h.move_bytes]
  · exact .inr ⟨_, rfl, h.store buf [] (by omega) (by simp)⟩

/-! ## Any offset -/

/-- A write stays in the buffer of the file, and has failed without a trace or stored its bytes. -/
def Safe (f : File) (buf : Bytes) (size offset : Nat) (r : Written) : Prop :=
  (∀ s ∈ r.stores, s.1 + s.2 ≤ r.file.capacity) ∧
    (r.value < 0 ∧ r.file = f ∨
      ∀ i < size, offset + i < r.file.size ∧ r.file.data (offset + i) = buf i)

theorem Stored.safe (h : Stored f buf size offset r) : Safe f buf size offset r := by
  refine ⟨h.inside, .inr fun i hi => ?_⟩
  have hlt : offset + i < r.file.size := by rw [h.length]; omega
  have hbyte := congrFun h.bytes (offset + i)
  rw [bytes_of_lt hlt, blit_inside (by omega) (by omega), Nat.add_sub_cancel_left] at hbyte
  exact ⟨hlt, hbyte⟩

/-- A write past `2 ^ 63` does not end, or stores past the buffer. -/
theorem not_safe_of_far (h : f.Valid) (hsize : size ≠ 0) (hfar : 2 ^ 63 < offset + size)
    (hr : ramfsWrite n (fun _ => some zeros) f buf size offset = some r) :
    ¬ Safe f buf size offset r := by
  suffices hcap : r.file.capacity ≤ 2 ^ 63 ∧ (offset, size) ∈ r.stores by
    rintro ⟨hin, -⟩
    have hlast := hin _ hcap.2
    omega
  unfold ramfsWrite at hr
  rw [if_neg hsize] at hr
  dsimp only at hr
  split at hr
  · split at hr
    · cases hr
    · rename_i newCap hgrow
      cases hr
      obtain ⟨k, hk, hfirst⟩ := h.first
      exact ⟨(Doubled.growLoop (.inr ⟨k, hk, hfirst⟩) hgrow).le, by simp [store]⟩
  · cases hr
    exact ⟨h.doubled.le, by simp [store]⟩

/-- **Writes are safe exactly up to the offset `2 ^ 63`**, whatever `kmalloc` does. -/
theorem write_safe_iff (h : f.Valid) (size offset : Nat) :
    (∀ (kmalloc : Nat → Option Bytes) (buf : Bytes),
      ∃ n r, ramfsWrite n kmalloc f buf size offset = some r ∧ Safe f buf size offset r) ↔
      size = 0 ∨ offset + size ≤ 2 ^ 63 := by
  constructor
  · intro hsafe
    by_contra hfar
    rw [not_or] at hfar
    obtain ⟨n, r, hr, hin⟩ := hsafe (fun _ => some zeros) zeros
    exact not_safe_of_far h hfar.1 (Nat.not_le.mp hfar.2) hr hin
  · intro hnear kmalloc buf
    by_cases hsize : size = 0
    · refine ⟨0, ⟨0, f, []⟩, by rw [ramfsWrite, if_pos hsize], by simp, .inr ?_⟩
      simp [hsize]
    · obtain ⟨-, -, hr⟩ | ⟨r, hr, hstored⟩ :=
        ramfsWrite_spec h kmalloc hsize (hnear.resolve_left hsize) (Nat.le_refl 52)
      · exact ⟨52, _, hr, by simp, .inl ⟨by simp, rfl⟩⟩
      · exact ⟨52, r, hr, hstored.safe⟩

/-- A file without data. -/
def empty : File := ⟨zeros, 0, 0⟩

theorem empty_valid : empty.Valid := ⟨Nat.le_refl 0, .inl rfl⟩

/-- Three letters in a buffer of one page. -/
def letters : File := ⟨fun _ => 0x61#8, 3, 4096⟩

/-- Two bytes are stored behind a hole, in a new buffer that held something else. -/
theorem write_safe_iff_hole :
    (ramfsWrite 2 (fun _ => some fun _ => 0xFF#8) letters (fun _ => 0x62#8) 2 5000).map
      Written.value = some 2 ∧
    ∃ n r, ramfsWrite n (fun _ => some fun _ => 0xFF#8) letters (fun _ => 0x62#8) 2 5000 = some r ∧
      Safe letters (fun _ => 0x62#8) 2 5000 r :=
  ⟨by decide +kernel, (write_safe_iff ⟨by decide, .inr ⟨0, by decide, rfl⟩⟩ _ _).mpr
    (.inr (by decide)) _ _⟩

/-- The end of a write of two bytes at the last offset is 1. -/
theorem write_past_buffer :
    ∃ r, ramfsWrite 0 (fun _ => none) ⟨zeros, 0, 4096⟩ zeros 2 (2 ^ 64 - 1) = some r ∧
      ¬ Safe ⟨zeros, 0, 4096⟩ zeros 2 (2 ^ 64 - 1) r :=
  ⟨_, rfl, fun h => absurd (h.1 _ mem_cons_self) (by decide)⟩

/-! ## Histories -/

/-- The calls on a file.  A write gets new buffers with the given contents from `kmalloc`;
`truncate` is what `vfs_open` does for `O_TRUNC`. -/
inductive Op where
  | write (buf : Bytes) (size offset : Nat) (fresh : Nat → Bytes)
  | truncate

/-- A byte array, extended with zeros. -/
structure Content where
  size : Nat
  byte : Bytes

def Op.apply (f : File) : Op → Option File
  | .write buf size offset fresh =>
    (ramfsWrite 64 (fun n => some (fresh n)) f buf size offset).map Written.file
  | .truncate => some { f with size := 0 }

/-- The array after a call. -/
def Op.effect (c : Content) : Op → Content
  | .write buf size offset _ =>
    if size = 0 then c
    else ⟨max c.size (offset + size), blit c.byte offset buf size⟩
  | .truncate => ⟨0, zeros⟩

/-- The writes of less than `2 ^ 31` bytes that end before `2 ^ 62`. -/
def Op.InRange : Op → Prop
  | .write _ size offset _ => size < 2 ^ 31 ∧ offset + size < 2 ^ 62
  | .truncate => True

def run : File → List Op → Option File
  | f, [] => some f
  | f, op :: ops => (op.apply f).bind (run · ops)

def File.content (f : File) : Content := ⟨f.size, f.bytes⟩

theorem Op.apply_spec (h : f.Valid) {op : Op} (hop : op.InRange) :
    ∃ g, op.apply f = some g ∧ g.Valid ∧ g.content = op.effect f.content := by
  cases op with
  | write buf size offset fresh =>
    obtain ⟨-, hstop⟩ := hop
    by_cases hsize : size = 0
    · refine ⟨f, ?_, h, ?_⟩
      · simp only [Op.apply, ramfsWrite, if_pos hsize, Option.map_some]
      · rw [Op.effect, if_pos hsize]
    · obtain ⟨cap, hnone, -⟩ | ⟨r, hr, hstored⟩ :=
        ramfsWrite_spec h (fun n => some (fresh n)) hsize
          (by omega : offset + size ≤ 2 ^ 63) (show 52 ≤ 64 by decide)
      · cases hnone
      · refine ⟨r.file, by rw [Op.apply, hr, Option.map_some], hstored.valid, ?_⟩
        rw [Op.effect, if_neg hsize, content, hstored.length, hstored.bytes]
        rfl
  | truncate =>
    refine ⟨_, rfl, ⟨Nat.zero_le _, h.doubled⟩, ?_⟩
    congr 1

/-- After every history the file is valid and holds the array of the history. -/
theorem run_spec (h : f.Valid) {ops : List Op} (hops : ∀ op ∈ ops, op.InRange) :
    ∃ g, run f ops = some g ∧ g.Valid ∧ g.content = ops.foldl Op.effect f.content := by
  induction ops generalizing f with
  | nil => exact ⟨f, rfl, h, rfl⟩
  | cons op ops ih =>
    obtain ⟨g, hg, hvalid, hcontent⟩ := Op.apply_spec h (hops op mem_cons_self)
    obtain ⟨g', hg', hvalid', hcontent'⟩ := ih hvalid fun o ho => hops o (mem_cons_of_mem op ho)
    refine ⟨g', by rw [run, hg, Option.bind_some, hg'], hvalid', ?_⟩
    rw [hcontent', hcontent, foldl_cons]

/-- A read delivers the bytes of an array, and says how many. -/
def Delivers (c : Content) (size offset : Nat) (r : Int × Nat × Bytes) : Prop :=
  r.1 = r.2.1 ∧ r.2.1 = min size (c.size - offset) ∧
    ∀ i < r.2.1, r.2.2 i = c.byte (offset + i)

/-- The number of bytes is returned as an `int`. -/
theorem ramfsRead_delivers {f : File} {size offset : Nat} :
    Delivers f.content size offset (ramfsRead f size offset) ↔
      size < 2 ^ 31 ∨ f.size < offset + 2 ^ 31 := by
  unfold ramfsRead Delivers content
  split
  · simp [show f.size - offset = 0 by omega]
    omega
  · dsimp only
    rw [Nat.min_comm size, BitVec.toInt_eq_toNat_cond, BitVec.toNat_ofNat]
    generalize hn : min (f.size - offset) size = n
    constructor
    · rintro ⟨hvalue, -⟩
      split at hvalue <;> omega
    · intro hfew
      refine ⟨?_, rfl, fun i hi => ?_⟩
      · omega
      · rw [window_apply hi, bytes_of_lt (by omega)]

/-- **Reads see the array of the history**, exactly if they have less than `2 ^ 31` bytes to
deliver. -/
theorem read_delivers_iff (h : f.Valid) {ops : List Op} (hops : ∀ op ∈ ops, op.InRange) :
    let c := ops.foldl Op.effect f.content
    ∃ g, run f ops = some g ∧ ∀ size offset : Nat,
      (Delivers c size offset (ramfsRead g size offset) ↔
        size < 2 ^ 31 ∨ c.size < offset + 2 ^ 31) := by
  obtain ⟨g, hg, -, hcontent⟩ := run_spec h hops
  refine ⟨g, hg, fun size offset => ?_⟩
  rw [← hcontent]
  exact ramfsRead_delivers

/-- One byte behind a hole: a file of `2 ^ 31` bytes. -/
def sparse : List Op := [.write zeros 1 2147483647 fun _ => zeros]

theorem sparse_inRange : ∀ op ∈ sparse, op.InRange := by
  simp [sparse, Op.InRange]

theorem read_delivers_iff_sparse :
    ∃ g, run empty sparse = some g ∧ Delivers (sparse.foldl Op.effect empty.content) 20 5
      (ramfsRead g 20 5) := by
  obtain ⟨g, hg, hread⟩ := read_delivers_iff empty_valid sparse_inRange
  exact ⟨g, hg, (hread _ _).mpr (by decide)⟩

/-- A read of all its bytes returns a negative number. -/
theorem read_all_negative :
    ∃ g, run empty sparse = some g ∧ ¬ Delivers (sparse.foldl Op.effect empty.content)
      2147483648 0 (ramfsRead g 2147483648 0) := by
  obtain ⟨g, hg, -, hcontent⟩ := run_spec empty_valid sparse_inRange
  refine ⟨g, hg, fun h => ?_⟩
  rw [← hcontent, ramfsRead_delivers, show g.size = _ from congrArg Content.size hcontent] at h
  exact absurd h (by decide)

end Utms7.RamfsData
