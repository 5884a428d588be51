import Mathlib.Tactic.Linarith
import Utms7.SchedCalls
import Utms7.Syscall

/-!
# Which system calls stay in the caller's half

`is_user_pointer` checks where a buffer begins.  `Handler.Fits` says for each
handler when the buffers also end in time; for `sys_waitpid` and the pointers
inside the structures of the graphics card there is no check at all.  A call
touches only addresses of the caller's half exactly if it fits.
-/

namespace Utms7.Syscall

variable {mem : Word → UInt8} {p fd : Word} {n size i : Nat}

open Logged Handler Nat

/-- Every byte that is touched lies in the caller's half. -/
def Confined {α : Type} (x : Copying α) : Prop :=
  x.All fun a => ∀ j < a.size, isUserPointer (a.addr + BitVec.ofNat 64 j)

/-- The buffer ends in time. -/
def Ends (p : Word) (n : Nat) : Prop := p.toNat + n ≤ userHigh

/-- The part of a string that is read ends in time. -/
def EndsString (k : Kernel) (p : Word) (maxSize : Nat) : Prop :=
  Ends p (stringBytes k.mem p (maxSize - 1)).length

/-- A buffer that begins and ends in the caller's half, or is empty. -/
def Within (p : Word) (n : Nat) : Prop := n = 0 ∨ userLow ≤ p.toNat ∧ Ends p n

/-- A buffer that is copied in pieces of the given size, each of them checked. -/
def EndsInPieces (p : Word) (size n : Nat) : Prop := Ends p n ∨ size ∣ userHigh - p.toNat

/-- The descriptor is open. -/
def InUse (k : Kernel) (fd : Word) : Prop :=
  0 ≤ fd.toInt ∧ fd.toInt < 32 ∧ (k.fds fd.toNat).used = true

/-! ## Copies -/

section Copies

variable {bytes : List UInt8} {k : Kernel}

/-- A pointer that passes the check is not NULL. -/
theorem isUserPointer.ne_zero (h : isUserPointer p) : p ≠ 0 := by
  rintro rfl
  exact absurd h (by decide)

/-- The address does not wrap around. -/
theorem offset_toNat {j : Nat} (h : p.toNat + j < 2 ^ 64) :
    (p + BitVec.ofNat 64 j).toNat = p.toNat + j := by
  rw [BitVec.toNat_add, BitVec.toNat_ofNat]
  omega

/-- A buffer that begins in the caller's half stays there if it ends in time. -/
theorem user_bytes (hp : isUserPointer p) :
    (∀ j < n, isUserPointer (p + BitVec.ofNat 64 j)) ↔ Ends p n := by
  obtain ⟨hlow, hhigh⟩ := hp
  have hbound : userHigh < 2 ^ 64 := by decide
  constructor
  · intro h
    by_contra hend
    -- the first byte behind the end
    have hlast := (h (userHigh - p.toNat) (by unfold Ends at hend; omega)).2
    rw [offset_toNat (by omega)] at hlast
    omega
  · intro hend j hj
    unfold Ends at hend
    unfold isUserPointer
    rw [offset_toNat (by omega)]
    omega

/-- The bytes of a buffer lie in the caller's half exactly if the buffer is `Within` it. -/
theorem within_bytes : (∀ j < n, isUserPointer (p + BitVec.ofNat 64 j)) ↔ Within p n := by
  by_cases hn : n = 0
  · simp [Within, hn]
  by_cases hp : isUserPointer p
  · rw [user_bytes hp, Within, or_iff_right hn, and_iff_right hp.1]
  have hfirst : ¬ ∀ j < n, isUserPointer (p + BitVec.ofNat 64 j) := fun h => by
    have h0 := h 0 (pos_of_ne_zero hn)
    rw [show p + BitVec.ofNat 64 0 = p by simp] at h0
    exact hp h0
  refine iff_of_false hfirst ?_
  rintro (h0 | ⟨hlow, hend⟩)
  · exact hn h0
  · unfold Ends at hend
    exact hp ⟨hlow, by omega⟩

/-- A copy succeeds exactly if the pointer passes the check. -/
@[simp] theorem value_copyFromUser :
    (copyFromUser mem p n).value = some bytes ↔ isUserPointer p ∧ bytesAt mem p n = bytes := by
  simp [copyFromUser]

@[simp] theorem value_copyString : (k.copyString p n).value = some bytes ↔
      isUserPointer p ∧ stringBytes k.mem p (n - 1) = bytes := by
  simp [Kernel.copyString, copyStringFromUser]

@[simp] theorem value_copyToUser {a : Unit} :
    (copyToUser p n).value = some a ↔ isUserPointer p := by
  simp [copyToUser]

/-- A descriptor is found exactly if it is in use. -/
@[simp] theorem value_entry {f : FdEntry} : (k.entry fd).value = some f ↔
      InUse k fd ∧ k.fds fd.toNat = f := by
  simp [Kernel.entry, InUse]

end Copies

section Confined

variable {α β : Type} {k : Kernel} {x : Copying α}

@[simp] theorem confined_pure {a : α} : Confined (pure a : Copying α) ↔ True := all_pure

@[simp] theorem confined_fail : Confined (fail : Copying α) ↔ True := all_fail

@[simp] theorem confined_require {q : Prop} [Decidable q] : Confined (require q) ↔ True :=
  all_require

/-- A call is confined if its first step is, and what follows it. -/
theorem confined_bind {f : α → Copying β} :
    Confined (x >>= f) ↔ Confined x ∧ ∀ a, x.value = some a → Confined (f a) := all_bind

@[simp] theorem confined_ite {c : Prop} [Decidable c] {y : Copying α} :
    Confined (if c then x else y) ↔ (c → Confined x) ∧ (¬ c → Confined y) := all_ite

@[simp] theorem confined_attempt : Confined (attempt x) ↔ Confined x := all_attempt

/-- A store without a check is confined only `Within` the caller's half. -/
@[simp] theorem confined_store : Confined (store p n) ↔ Within p n := by
  rw [Confined, store, all_emit]
  exact within_bytes

/-- A checked copy is confined if the buffer ends in time. -/
@[simp] theorem confined_copyToUser : Confined (copyToUser p n) ↔ (isUserPointer p → Ends p n) := by
  unfold copyToUser Confined
  simp only [all_bind, all_require, true_and, value_require, all_emit, forall_const]
  exact imp_congr_right fun hp => user_bytes hp

@[simp] theorem confined_copyFromUser :
    Confined (copyFromUser mem p n) ↔ (isUserPointer p → Ends p n) := by
  unfold copyFromUser Confined
  simp only [all_bind, all_require, true_and, value_require, all_emit, all_pure, implies_true,
    and_true, forall_const]
  exact imp_congr_right fun hp => user_bytes hp

/-- A checked string is confined if it ends in time. -/
@[simp] theorem confined_copyString :
    Confined (k.copyString p n) ↔ (isUserPointer p → EndsString k p n) := by
  unfold Kernel.copyString copyStringFromUser Confined
  simp only [all_bind, all_require, true_and, value_require, all_emit, all_pure, implies_true,
    and_true, forall_const]
  exact imp_congr_right fun hp => user_bytes hp

/-! What comes after a step is reached only if the step does not stop the call. -/

section Steps

variable {f : List UInt8 → Copying α} {g : Unit → Copying α} {x : Copying β}

/-- A step that goes on under `q`, with the value `b`. -/
theorem confined_step {h : β → Copying α} {q r : Prop} {b : β}
    (hval : ∀ a, x.value = some a ↔ q ∧ b = a) (hx : Confined x ↔ (q → r)) :
    Confined (x >>= h) ↔ (q → r ∧ Confined (h b)) := by
  rw [confined_bind, hx]
  constructor
  · rintro ⟨hr, hrest⟩ hq
    exact ⟨hr hq, hrest b ((hval b).mpr ⟨hq, rfl⟩)⟩
  · intro hall
    refine ⟨fun hq => (hall hq).1, fun a ha => ?_⟩
    obtain ⟨hq, rfl⟩ := (hval a).mp ha
    exact (hall hq).2

/-- What follows a check runs only if the check passes. -/
@[simp] theorem confined_require_bind {q : Prop} [Decidable q] :
    Confined (require q >>= g) ↔ (q → Confined (g ())) := by
  have hstep := @confined_step _ _ (require q) g q True () (by simp) (by simp)
  simpa only [true_and] using hstep

/-- What follows the look-up of a descriptor runs only if it is in use. -/
@[simp] theorem confined_entry_bind {h : FdEntry → Copying α} :
    Confined (k.entry fd >>= h) ↔ (InUse k fd → Confined (h (k.fds fd.toNat))) := by
  have hstep := @confined_step _ _ (k.entry fd) h _ True _ (fun _ => value_entry)
    (by simp [Kernel.entry])
  simpa only [true_and] using hstep

@[simp] theorem confined_copyString_bind : Confined (k.copyString p n >>= f) ↔
      (isUserPointer p → EndsString k p n ∧ Confined (f (stringBytes k.mem p (n - 1)))) :=
  confined_step (fun _ => value_copyString) confined_copyString

@[simp] theorem confined_copyFromUser_bind : Confined (copyFromUser mem p n >>= f) ↔
      (isUserPointer p → Ends p n ∧ Confined (f (bytesAt mem p n))) :=
  confined_step (fun _ => value_copyFromUser) confined_copyFromUser

@[simp] theorem confined_copyToUser_bind :
    Confined (copyToUser p n >>= g) ↔ (isUserPointer p → Ends p n ∧ Confined (g ())) :=
  confined_step (fun _ => by simp) confined_copyToUser

@[simp] theorem confined_store_bind :
    Confined (store p n >>= g) ↔ Within p n ∧ Confined (g ()) := by
  have hstep := @confined_step _ _ (store p n) g True (Within p n) () (by simp [store]) (by simp)
  simpa only [true_implies] using hstep

/-- The call goes on after an attempt, also after one that failed. -/
@[simp] theorem confined_attempt_bind {h : Option β → Copying α} :
    Confined (attempt x >>= h) ↔ Confined x ∧ Confined (h x.value) := by
  have hstep := @confined_step _ _ (attempt x) h True (Confined x) x.value (by simp) (by simp)
  simpa only [true_implies] using hstep

end Steps

/-- A buffer of `n` bytes that is copied in pieces: the copy stops at the first
piece that begins outside, so only a piece across the end does harm. -/
theorem pieces {rounds : Nat} (hsize : 0 < size) (hp : isUserPointer p) (hn : n < 2 ^ 63)
    (hrounds : ∀ j, j < rounds ↔ j * size < n) :
    (∀ j < rounds, (∀ m < j, isUserPointer (p + BitVec.ofNat 64 (m * size))) →
      isUserPointer (p + BitVec.ofNat 64 (j * size)) →
      Ends (p + BitVec.ofNat 64 (j * size)) (min size (n - j * size))) ↔ EndsInPieces p size n := by
  obtain ⟨hlow, hhigh⟩ := hp
  have hbound : userHigh < 2 ^ 62 := by decide
  have haddr : ∀ m, m * size < n →
      (p + BitVec.ofNat 64 (m * size)).toNat = p.toNat + m * size := fun m hm =>
    offset_toNat (by omega)
  constructor
  · intro h
    by_contra hfit
    rw [EndsInPieces, not_or] at hfit
    obtain ⟨hend, hdvd⟩ := hfit
    unfold Ends at hend
    -- the piece that begins before the end and does not end before it
    let j := (userHigh - p.toNat) / size
    have hdiv := Nat.div_add_mod (userHigh - p.toNat) size
    have hmodlt := Nat.mod_lt (userHigh - p.toNat) hsize
    have hj : j * size + (userHigh - p.toNat) % size = userHigh - p.toNat := by
      rw [Nat.mul_comm]
      exact hdiv
    have hjn : j * size < n := by omega
    have huser : ∀ m, m ≤ j → isUserPointer (p + BitVec.ofNat 64 (m * size)) := fun m hm => by
      have hle : m * size ≤ j * size := Nat.mul_le_mul_right size hm
      rw [isUserPointer, haddr m (by omega)]
      omega
    have hlast := h j ((hrounds j).mpr hjn) (fun m hm => huser m (Nat.le_of_lt hm)) (huser j le_rfl)
    rw [Ends, haddr j hjn] at hlast
    omega
  · rintro hfit j hj - ⟨-, hcur⟩
    have hjn := (hrounds j).mp hj
    rw [haddr j hjn] at hcur
    rw [Ends, haddr j hjn]
    rcases hfit with hend | ⟨q, hq⟩
    · unfold Ends at hend
      omega
    -- the end of the half is the end of a piece
    have hlt : j < q := by
      refine Nat.lt_of_mul_lt_mul_left (a := size) ?_
      rw [Nat.mul_comm]
      omega
    have hle : size * (j + 1) ≤ size * q := Nat.mul_le_mul_left size hlt
    rw [Nat.mul_succ, Nat.mul_comm] at hle
    omega

/-- A loop that copies one entry of a table in each round. -/
theorem confined_entries (hsize : 0 < size) (hp : isUserPointer p) (hn : n * size < 2 ^ 63) :
    Confined (loop (fun i => copyToUser (p + BitVec.ofNat 64 (i * size)) size) n 0) ↔
      EndsInPieces p size (n * size) := by
  have hrounds : ∀ j, j < n ↔ j * size < n * size := fun j =>
    (Nat.mul_lt_mul_right hsize).symm
  rw [← pieces hsize hp hn hrounds, Confined, all_loop]
  refine forall₂_congr fun j hj => ?_
  simp only [Nat.zero_add, value_copyToUser]
  refine imp_congr_right fun _ => ?_
  have hpiece : min size (n * size - j * size) = size := by
    have hle : size * (j + 1) ≤ size * n := Nat.mul_le_mul_left size hj
    rw [Nat.mul_succ, Nat.mul_comm size j, Nat.mul_comm size n] at hle
    omega
  rw [hpiece]
  exact confined_copyToUser

end Confined

/-! ## The handlers -/

/-- Where the `i`-th argument pointer of `sys_exec` stands, and what it is. -/
def argSlot (argv : Word) (i : Nat) : Word := argv + BitVec.ofNat 64 (i * 8)

/-- The `i`-th argument pointer of `sys_exec`. -/
def argPointer (k : Kernel) (argv : Word) (i : Nat) : Word :=
  pointer (bytesAt k.mem (argSlot argv i) 8) 0

/-- The arguments of `sys_exec` end in time, as far as they are read. -/
def ArgsFit (k : Kernel) (argv : Word) : Prop :=
  ∀ i < 63, (∀ j < i, isUserPointer (argSlot argv j) ∧ isUserPointer (argPointer k argv j)) →
    isUserPointer (argSlot argv i) →
    Ends (argSlot argv i) 8 ∧
      (isUserPointer (argPointer k argv i) → EndsString k (argPointer k argv i) 255)

/-- A pointer in the caller's structure is NULL or leads to room for `n` bytes. -/
def PointerFits (data : List UInt8) (i n : Nat) : Prop :=
  pointer data i ≠ 0 → Within (pointer data i) n

/-- The pointers in the structures that the graphics card is given. -/
def CardFits (k : Kernel) (cmd : BitVec 32) (data : List UInt8) : Prop :=
  (cmd = DRM_IOCTL_VERSION → Within (pointer data 16) (field data 12 4) ∧
    Within (pointer data 32) (field data 24 4) ∧ Within (pointer data 48) (field data 40 4)) ∧
  (cmd = DRM_IOCTL_MODE_GETRESOURCES → PointerFits data 8 4 ∧ PointerFits data 16 4 ∧
    PointerFits data 24 4 ∧ PointerFits data 0 4) ∧
  (cmd = DRM_IOCTL_MODE_GETCONNECTOR → PointerFits data 8 (k.modeCount * modeinfoSize) ∧
    PointerFits data 0 4)

/-- The calls whose buffers end in time. -/
def Handler.Fits (k : Kernel) (a1 a2 a3 : Word) : Handler → Prop
  | diskTable | partitionCreate | partitionDelete => isUserPointer a1 → EndsString k a1 31
  | mkdir | rmdir | chroot | chdir | unlink | .open => isUserPointer a1 → EndsString k a1 255
  | partitionFormat => isUserPointer a1 ∧ isUserPointer a2 → EndsString k a1 31 ∧ EndsString k a2 15
  | rename => isUserPointer a1 ∧ isUserPointer a2 → EndsString k a1 255 ∧ EndsString k a2 255
  | symlink => isUserPointer a1 → EndsString k a1 255 ∧ (isUserPointer a2 → EndsString k a2 255)
  | readlink => isUserPointer a1 → EndsString k a1 255 ∧
      (0 ≤ k.answer.toInt → isUserPointer a2 → Ends a2 ((k.answer + 1).signExtend 64).toNat)
  | partitionMount => isUserPointer a1 ∧ isUserPointer a2 → EndsString k a1 31 ∧
      EndsString k a2 255 ∧ (isUserPointer a3 → EndsString k a3 31)
  | diskList => isUserPointer a1 → EndsInPieces a1 diskInfoSize
      (min ((List.finRange 4).countP fun i => k.disks i) a2.toInt.toNat * diskInfoSize)
  | ps => isUserPointer a1 → EndsInPieces a1 psEntrySize (psCount k a2 * psEntrySize)
  | write => InUse k a1 → isUserPointer a2 →
      if (a1 = 1 ∨ a1 = 2) ∧ (k.fds a1.toNat).node = false then EndsInPieces a2 255 a3.toInt.toNat
      else (k.fds a1.toNat).type = FD_TYPE_FILE → (k.fds a1.toNat).node = true →
        k.kmalloc a3 = true → Ends a2 a3.toNat
  | read => InUse k a1 → isUserPointer a2 → ¬ (a1 = 0 ∧ (k.fds a1.toNat).node = false) →
      (k.fds a1.toNat).type = FD_TYPE_FILE → (k.fds a1.toNat).node = true → k.kmalloc a3 = true →
      0 < k.answer.toInt → Ends a2 k.answer.toNat
  | stat => isUserPointer a1 ∧ isUserPointer a2 → EndsString k a1 255 ∧
      (k.resolves = true → Ends a2 statSize)
  | fstat => InUse k a1 → isUserPointer a2 →
      ((k.fds a1.toNat).type = FD_TYPE_FILE → (k.fds a1.toNat).node = true) → Ends a2 statSize
  | getcwd => isUserPointer a1 → (realCwd k).length + 1 ≤ a2.toNat →
      Ends a1 ((realCwd k).length + 1)
  | getdents64 => InUse k a1 → (k.fds a1.toNat).type = FD_TYPE_FILE → isUserPointer a2 →
      0 < a3.toInt → a3.toInt ≤ 1048576 → (k.fds a1.toNat).node = true →
      k.kmalloc (BitVec.ofNat 64 (256 * vfsDirentSize)) = true → k.answer = 0 →
      (k.fds a1.toNat).pos % 2 ^ 32 < k.names.length → k.kmalloc a3 = true →
      Ends a2 (direntBytes a3.toNat (k.names.drop ((k.fds a1.toNat).pos % 2 ^ 32)) 0)
  | exec => isUserPointer a1 → EndsString k a1 255 ∧
      (k.kmalloc (BitVec.ofNat 64 (64 * 256)) = true → isUserPointer a2 → ArgsFit k a2)
  | waitpid => Sched.waitTarget k.sched (a1.toNat % 2 ^ 32) ≠ none → a2 ≠ 0 → Within a2 4
  | meminfo => isUserPointer a1 ∧ isUserPointer a2 ∧ isUserPointer a3 →
      Ends a1 8 ∧ Ends a2 8 ∧ Ends a3 8
  | connect => InUse k a1 → isUserPointer a2 → Ends a2 2 ∧
      ((k.fds a1.toNat).type = FD_TYPE_UNIX → Ends a2 110) ∧
      ((k.fds a1.toNat).type ≠ FD_TYPE_UNIX → ((k.fds a1.toNat).type = FD_TYPE_TCP ∨
        field (bytesAt k.mem a2 2) 0 2 = 2) → Ends a2 8)
  | send => InUse k a1 → isUserPointer a2 →
      ((k.fds a1.toNat).type = FD_TYPE_UNIX ∨ (k.fds a1.toNat).type = FD_TYPE_TCP) →
      k.kmalloc a3 = true → Ends a2 a3.toNat
  | recv => InUse k a1 → isUserPointer a2 →
      ((k.fds a1.toNat).type = FD_TYPE_UNIX ∨ (k.fds a1.toNat).type = FD_TYPE_TCP) →
      k.kmalloc a3 = true → 0 < k.answer.toInt → Ends a2 k.answer.toNat
  | bind => InUse k a1 → (k.fds a1.toNat).type = FD_TYPE_UNIX → isUserPointer a2 → Ends a2 110
  | gethostbyname => isUserPointer a1 ∧ isUserPointer a2 → EndsString k a1 255 ∧
      (k.answer ≠ 0 → Ends a2 4)
  | poll => isUserPointer a1 → 0 ≤ a2.toInt → Ends a1 (min a2.toInt.toNat 32 * 8)
  | ioctl => InUse k a1 →
      if a1 = 0 ∨ a1 = 1 ∨ a1 = 2 then isUserPointer a3 →
        (a2 = TCGETS ∨ a2 = TCSETS ∨ a2 = TCSETSW ∨ a2 = TCSETSF → Ends a3 termiosSize) ∧
        (a2 = TIOCGWINSZ → Ends a3 winsizeSize)
      else (k.fds a1.toNat).type = FD_TYPE_DRM → 0 < ioctlSize a2 → isUserPointer a3 →
        Ends a3 (ioctlSize a2) ∧ (k.kmalloc (BitVec.ofNat 64 (ioctlSize a2)) = true →
          k.drmInitialized = true →
            CardFits k (a2.setWidth 32) (bytesAt k.mem a3 (ioctlSize a2)))

section Handlers

variable (k : Kernel) (a1 a2 a3 : Word)

/-- The handlers that only read one name. -/
theorem withName_confined {name : Word} :
    Confined (withName k name n) ↔ (isUserPointer name → EndsString k name n) := by
  simp [withName]

/-- Both pointers are checked before either string is read. -/
theorem sysPartitionFormat_confined :
    Confined (sysPartitionFormat k a1 a2) ↔ partitionFormat.Fits k a1 a2 a3 := by
  simp only [sysPartitionFormat, Handler.Fits, confined_require_bind, confined_copyString_bind]
  tauto

theorem sysRename_confined : Confined (sysRename k a1 a2) ↔ rename.Fits k a1 a2 a3 := by
  simp only [sysRename, Handler.Fits, confined_require_bind, confined_copyString_bind]
  tauto

theorem sysSymlink_confined : Confined (sysSymlink k a1 a2) ↔ symlink.Fits k a1 a2 a3 := by
  simp only [sysSymlink, Handler.Fits, confined_copyString_bind, confined_pure, and_true]

/-- The target is copied out with its NUL, whatever room the caller has. -/
theorem sysReadlink_confined :
    Confined (sysReadlink k a1 a2) ↔ readlink.Fits k a1 a2 a3 := by
  simp only [sysReadlink, Handler.Fits, confined_copyString_bind, confined_require_bind,
    confined_copyToUser_bind, confined_pure, and_true]

/-- The third pointer may be NULL. -/
theorem sysPartitionMount_confined :
    Confined (sysPartitionMount k a1 a2 a3) ↔ partitionMount.Fits k a1 a2 a3 := by
  have hnull : a3 ≠ 0 ∧ isUserPointer a3 ↔ isUserPointer a3 :=
    and_iff_right_of_imp isUserPointer.ne_zero
  simp only [sysPartitionMount, confined_require_bind, confined_copyString_bind,
    confined_ite, confined_pure, hnull, implies_true, and_true]
  refine imp_congr_right fun hp => ?_
  have hagain : (isUserPointer a3 → isUserPointer a3 → EndsString k a3 31) ↔
      (isUserPointer a3 → EndsString k a3 31) := ⟨fun h hu => h hu hu, fun h hu _ => h hu⟩
  simp only [forall_prop_of_true hp.1, forall_prop_of_true hp.2, hagain]

/-- Only the path is read. -/
theorem sysOpen_confined : Confined (sysOpen k a1) ↔ open.Fits k a1 a2 a3 := by
  simp only [sysOpen, confined_copyString_bind]
  refine imp_congr_right fun _ => and_iff_left ?_
  split <;> simp

theorem sysUnlink_confined : Confined (sysUnlink k a1) ↔ unlink.Fits k a1 a2 a3 := by
  simp only [sysUnlink, Handler.Fits, confined_copyString_bind, confined_pure, and_true]

/-- The path is read, and `stat` is stored if it resolves. -/
theorem sysStat_confined : Confined (sysStat k a1 a2) ↔ stat.Fits k a1 a2 a3 := by
  simp only [sysStat, Handler.Fits, confined_require_bind, confined_copyString_bind,
    confined_copyToUser_bind]
  tauto

/-- `stat` is stored for what is not a file too. -/
theorem sysFstat_confined : Confined (sysFstat k a1 a2) ↔ fstat.Fits k a1 a2 a3 := by
  simp only [sysFstat, Handler.Fits, confined_entry_bind, confined_require_bind,
    confined_copyToUser_bind]
  tauto

/-- The disks are copied one by one, each copy checked. -/
theorem sysDiskList_confined :
    Confined (sysDiskList k a1 a2) ↔ diskList.Fits k a1 a2 a3 := by
  simp only [sysDiskList, confined_require_bind]
  refine imp_congr_right fun hp => ?_
  have hcount : (List.finRange 4).countP (fun i => k.disks i) ≤ 4 := List.countP_le_length
  rw [confined_bind, confined_entries (by decide) hp]
  · simp
  · generalize (List.finRange 4).countP (fun i => k.disks i) = c at hcount
    have hle : min c a2.toInt.toNat * diskInfoSize ≤ 4 * diskInfoSize :=
      mul_le_mul_right _ (by omega)
    exact lt_of_le_of_lt hle (by decide)

/-- The processes are copied one by one, each copy checked. -/
theorem sysPs_confined : Confined (sysPs k a1 a2) ↔ ps.Fits k a1 a2 a3 := by
  simp only [sysPs, confined_require_bind]
  refine imp_congr_right fun hp => ?_
  have hcount : psCount k a2 < 2 ^ 31 := by
    unfold psCount
    split
    · have hle : schedGetProcesses k ≤ 64 := List.countP_le_length
      omega
    · have hlt : (a2.setWidth 32).toInt < 2 ^ 31 := BitVec.toInt_lt
      omega
  rw [confined_bind, confined_entries (by decide) hp]
  · simp
  · exact lt_of_lt_of_le (mul_lt_mul_of_pos_right hcount (by decide)) (by decide)

/-- On the console the buffer is read in pieces of 255 bytes. -/
theorem sysWrite_confined : Confined (sysWrite k a1 a2 a3) ↔ write.Fits k a1 a2 a3 := by
  simp only [sysWrite, confined_entry_bind, confined_require_bind]
  refine imp_congr_right fun _ => imp_congr_right fun hp => ?_
  by_cases hc : (a1 = 1 ∨ a1 = 2) ∧ (k.fds a1.toNat).node = false
  · rw [if_pos hc, if_pos hc]
    have hlt : a3.toInt < 2 ^ 63 := BitVec.toInt_lt
    have hcount : a3.toInt.toNat < 2 ^ 63 := by omega
    generalize a3.toInt.toNat = count at hcount
    have hrounds : ∀ j, j < (count + 254) / 255 ↔ j * 255 < count := fun j => by omega
    rw [← pieces (by decide) hp hcount hrounds, confined_bind, Confined, all_loop]
    simp only [zero_add, confined_pure, implies_true, and_true]
    refine forall₂_congr fun j hj => ?_
    have hval : ∀ m, (printChunk k a2 count m).value = some () ↔
        isUserPointer (a2 + BitVec.ofNat 64 (m * 255)) := fun m => by
      simp [printChunk]
    have hbody : Confined (printChunk k a2 count j) ↔
        (isUserPointer (a2 + BitVec.ofNat 64 (j * 255)) →
          Ends (a2 + BitVec.ofNat 64 (j * 255)) (min 255 (count - j * 255))) := by
      simp only [printChunk, confined_copyFromUser_bind, confined_pure, and_true]
    simp only [hval]
    exact imp_congr_right fun _ => hbody
  · rw [if_neg hc, if_neg hc]
    simp only [confined_require_bind, confined_copyFromUser_bind]
    tauto

/-- On the console every byte is checked. -/
theorem sysRead_confined : Confined (sysRead k a1 a2 a3) ↔ read.Fits k a1 a2 a3 := by
  simp only [sysRead, confined_entry_bind, confined_require_bind]
  refine imp_congr_right fun _ => imp_congr_right fun hp => ?_
  by_cases hc : a1 = 0 ∧ (k.fds a1.toNat).node = false
  · rw [if_pos hc, confined_bind, Confined, all_loop]
    refine iff_of_true ⟨fun j _ _ => ?_, fun _ _ => by simp⟩ fun hnot => absurd hc hnot
    exact confined_copyToUser.mpr fun hj => hj.2
  · rw [if_neg hc, forall_prop_of_true hc]
    simp only [confined_ite, confined_require_bind, confined_copyToUser_bind, confined_pure,
      implies_true, and_true, and_imp, forall_prop_of_true hp]

theorem sysGetcwd_confined : Confined (sysGetcwd k a1 a2) ↔ getcwd.Fits k a1 a2 a3 := by
  simp only [sysGetcwd, confined_require_bind, confined_copyToUser_bind]
  tauto

/-- The entries are copied at once, so they have to end in time. -/
theorem sysGetdents64_confined :
    Confined (sysGetdents64 k a1 a2 a3) ↔ getdents64.Fits k a1 a2 a3 := by
  simp only [sysGetdents64, confined_entry_bind, confined_require_bind, confined_ite,
    confined_copyToUser_bind, confined_pure, not_le]
  constructor
  · intro h hu ht hp hpos hle hn hk ha hlt hk'
    by_cases h0 : direntBytes a3.toNat
        (k.names.drop ((k.fds a1.toNat).pos % 2 ^ 32)) 0 = 0
    · rw [h0]
      exact le_of_lt hp.2
    · exact ((h hu ht ⟨hp, hpos, hle⟩ ⟨hn, hk, ha⟩).2 hlt hk' h0 hp).1
  · rintro h hu ht ⟨hp, hpos, hle⟩ ⟨hn, hk, ha⟩
    exact ⟨fun _ => trivial, fun hlt hk' _ _ => ⟨h hu ht hp hpos hle hn hk ha hlt hk', trivial⟩⟩

/-- One round of the loop over the arguments: the pointer and its string. -/
theorem copyArg_confined : Confined (copyArg k a2 i) ↔
    (isUserPointer (argSlot a2 i) → Ends (argSlot a2 i) 8 ∧
      (isUserPointer (argPointer k a2 i) → EndsString k (argPointer k a2 i) 255)) := by
  have hslot : a2 + BitVec.ofNat 64 (i * 8) = argSlot a2 i := rfl
  have harg : BitVec.ofNat 64 (field (bytesAt k.mem (argSlot a2 i) 8) 0 8) =
    argPointer k a2 i := rfl
  simp only [copyArg, hslot, confined_copyFromUser_bind, confined_require_bind,
    confined_copyString_bind, confined_pure, and_true]
  refine imp_congr_right fun _ => and_congr_right fun _ => ?_
  exact ⟨fun h huser => h huser.ne_zero huser huser, fun h _ huser _ => h huser⟩

/-- The loop goes on after an argument that could be read. -/
theorem copyArg_value (i : Nat) : (copyArg k a2 i).value = some () ↔
    isUserPointer (argSlot a2 i) ∧ isUserPointer (argPointer k a2 i) := by
  simp only [copyArg, value_bind, value_copyFromUser, value_require, value_copyString, value_pure]
  constructor
  · rintro ⟨bytes, ⟨hslot, rfl⟩, _, -, _, huser, -⟩
    exact ⟨hslot, huser⟩
  · rintro ⟨hslot, huser⟩
    exact ⟨_, ⟨hslot, rfl⟩, (), huser.ne_zero, (), huser, _, ⟨huser, rfl⟩, trivial⟩

/-- The arguments are read up to the first that fails. -/
theorem sysExec_confined : Confined (sysExec k a1 a2) ↔ exec.Fits k a1 a2 a3 := by
  have hargs : Confined (loop (copyArg k a2) 63 0) ↔ ArgsFit k a2 := by
    rw [Confined, all_loop]
    simp only [zero_add, copyArg_value]
    exact forall₂_congr fun i _ => imp_congr_right fun _ => copyArg_confined k a2
  simp only [sysExec, confined_require_bind, confined_copyString_bind, confined_ite,
    confined_attempt_bind, confined_pure, hargs, implies_true, and_true]
  constructor
  · intro h hp
    exact ⟨(h hp hp).1, fun hk huser => (h hp hp).2 hk ⟨huser.ne_zero, huser⟩⟩
  · intro h hp _
    exact ⟨(h hp).1, fun hk huser => (h hp).2 hk huser.2⟩

/-- The status is stored without a check. -/
theorem sysWaitpid_confined : Confined (sysWaitpid k a1 a2) ↔ waitpid.Fits k a1 a2 a3 := by
  simp only [sysWaitpid, Handler.Fits]
  split
  · rename_i hnone
    simp only [hnone]
    simp
  · rename_i p hsome
    simp only [hsome]
    simp

/-- All three pointers are checked before the first store. -/
theorem sysMeminfo_confined : Confined (sysMeminfo a1 a2 a3) ↔ meminfo.Fits k a1 a2 a3 := by
  simp only [sysMeminfo, Handler.Fits, confined_require_bind, confined_copyToUser_bind]
  tauto

/-- The family decides how much of the address is read. -/
theorem sysConnect_confined : Confined (sysConnect k a1 a2) ↔ connect.Fits k a1 a2 a3 := by
  simp only [sysConnect, confined_entry_bind, confined_copyFromUser_bind,
    confined_ite, confined_pure, confined_fail, implies_true, and_true]
  refine imp_congr_right fun _ => imp_congr_right fun hp => ?_
  simp only [forall_prop_of_true hp]

/-- The whole buffer is copied in before it is sent. -/
theorem sysSend_confined : Confined (sysSend k a1 a2 a3) ↔ send.Fits k a1 a2 a3 := by
  simp only [sysSend, Handler.Fits, confined_entry_bind, confined_require_bind,
    confined_copyFromUser_bind]
  tauto

/-- Only the bytes that came are copied out. -/
theorem sysRecv_confined : Confined (sysRecv k a1 a2 a3) ↔ recv.Fits k a1 a2 a3 := by
  simp only [sysRecv, Handler.Fits, confined_entry_bind, confined_require_bind, confined_ite,
    confined_copyToUser_bind]
  tauto

/-- A path of 110 bytes is read from the address. -/
theorem sysBind_confined : Confined (sysBind k a1 a2) ↔ bind.Fits k a1 a2 a3 := by
  simp only [sysBind, Handler.Fits, confined_entry_bind, confined_require_bind,
    confined_copyFromUser_bind, confined_pure, and_true]

theorem sysGethostbyname_confined :
    Confined (sysGethostbyname k a1 a2) ↔ gethostbyname.Fits k a1 a2 a3 := by
  simp only [sysGethostbyname, Handler.Fits, confined_require_bind, confined_copyString_bind,
    confined_copyToUser_bind]
  tauto

/-- At most 32 entries are copied in, and out again. -/
theorem sysPoll_confined : Confined (sysPoll k a1 a2) ↔ poll.Fits k a1 a2 a3 := by
  simp only [sysPoll, confined_require_bind, confined_copyFromUser_bind,
    confined_copyToUser_bind]
  tauto

/-- The structures of the terminal. -/
theorem terminalIoctl_confined : Confined (terminalIoctl k a2 a3) ↔ (isUserPointer a3 →
    (a2 = TCGETS ∨ a2 = TCSETS ∨ a2 = TCSETSW ∨ a2 = TCSETSF → Ends a3 termiosSize) ∧
      (a2 = TIOCGWINSZ → Ends a3 winsizeSize)) := by
  have hwinsize : TIOCGWINSZ ≠ TCGETS ∧
      ¬ (TIOCGWINSZ = TCSETS ∨ TIOCGWINSZ = TCSETSW ∨ TIOCGWINSZ = TCSETSF) := by decide
  unfold terminalIoctl
  by_cases hget : a2 = TCGETS
  · subst hget
    simp [hwinsize.1.symm]
  by_cases hset : a2 = TCSETS ∨ a2 = TCSETSW ∨ a2 = TCSETSF
  · have hne : a2 ≠ TIOCGWINSZ := by
      rintro rfl
      exact hwinsize.2 hset
    simp [hset, hne]
  · simpa [hget, hset] using imp.swap

/-- A store through a pointer of the structure, which nobody checks. -/
theorem storeThrough_confined (data : List UInt8) (i n : Nat) :
    Confined (storeThrough data i n) ↔ PointerFits data i n := by
  simp only [storeThrough, PointerFits, confined_ite, confined_store, confined_pure, implies_true,
    and_true]

theorem storeThrough_bind {data : List UInt8} {α : Type} {g : Unit → Copying α} :
    Confined (storeThrough data i n >>= g) ↔ PointerFits data i n ∧ Confined (g ()) := by
  have hval : ∀ a, (storeThrough data i n).value = some a ↔ True ∧ () = a := fun a => by
    unfold storeThrough
    split <;> simp [store]
  have hstep := @confined_step _ _ (storeThrough data i n) g True (PointerFits data i n) () hval
    (by simp [storeThrough_confined])
  simpa only [true_implies] using hstep

/-- The driver uses the pointers of three commands. -/
theorem drmIoctl_confined (cmd : BitVec 32) (data : List UInt8) :
    Confined (drmIoctl k cmd (some data)) ↔ (k.drmInitialized = true → CardFits k cmd data) := by
  have hres : DRM_IOCTL_MODE_GETRESOURCES ≠ DRM_IOCTL_VERSION := by decide
  have hconn : DRM_IOCTL_MODE_GETCONNECTOR ≠ DRM_IOCTL_VERSION := by decide
  have hdiff : DRM_IOCTL_MODE_GETCONNECTOR ≠ DRM_IOCTL_MODE_GETRESOURCES := by decide
  unfold drmIoctl CardFits
  by_cases hinit : k.drmInitialized = true
  · by_cases hv : cmd = DRM_IOCTL_VERSION
    · subst hv
      simp [drmUapiVersion, storeText, hres.symm, hconn.symm]
    by_cases hr : cmd = DRM_IOCTL_MODE_GETRESOURCES
    · subst hr
      simp [drmUapiGetResources, storeThrough_bind, hres, hdiff.symm]
    · by_cases hcn : cmd = DRM_IOCTL_MODE_GETCONNECTOR
      · subst hcn
        simp [drmUapiGetConnector, storeThrough_bind, hconn, hdiff]
      · simp [hv, hr, hcn]
  · simp [hinit]

/-- Without a structure there is nothing to store to, and the call fails. -/
theorem drmIoctl_none {cmd : BitVec 32} : ∃ v : Int, v < 0 ∧ drmIoctl k cmd none = pure v := by
  unfold drmIoctl
  split_ifs <;> exact ⟨_, by decide, rfl⟩

/-- The structure is checked; the pointers inside it are not. -/
theorem cardIoctl_confined : Confined (cardIoctl k a2 a3) ↔
    (0 < ioctlSize a2 → isUserPointer a3 → Ends a3 (ioctlSize a2) ∧
      (k.kmalloc (BitVec.ofNat 64 (ioctlSize a2)) = true → k.drmInitialized = true →
        CardFits k (a2.setWidth 32) (bytesAt k.mem a3 (ioctlSize a2)))) := by
  obtain ⟨v, hneg, hnone⟩ := drmIoctl_none k
  unfold cardIoctl
  rw [confined_ite, confined_copyFromUser_bind, hnone]
  by_cases hp : isUserPointer a3
  · rw [confined_bind]
    simp only [hp, hp.ne_zero, ne_eq, not_false_eq_true, and_true, true_implies, confined_ite,
      confined_attempt_bind, confined_copyToUser, confined_pure, implies_true]
    refine imp_congr_right fun _ => and_congr_right fun hend => ?_
    simp only [hend, implies_true, and_true]
    by_cases hk : k.kmalloc (BitVec.ofNat 64 (ioctlSize a2)) = true
    · rw [if_pos hk, drmIoctl_confined, forall_prop_of_true hk]
    · rw [if_neg hk, hnone]
      simp [hk]
  · simp [hp]

/-- The console's descriptors go to the terminal, the others to the card. -/
theorem sysIoctl_confined : Confined (sysIoctl k a1 a2 a3) ↔ ioctl.Fits k a1 a2 a3 := by
  simp only [sysIoctl, confined_entry_bind]
  refine imp_congr_right fun _ => ?_
  split
  · exact terminalIoctl_confined k a2 a3
  · rw [confined_require_bind]
    exact imp_congr_right fun _ => cardIoctl_confined k a2 a3

/-- **Every handler** is confined exactly if its buffers fit. -/
theorem run_confined (h : Handler) : Confined (h.run k a1 a2 a3) ↔ h.Fits k a1 a2 a3 := by
  cases h with
  | read => exact sysRead_confined k a1 a2 a3
  | write => exact sysWrite_confined k a1 a2 a3
  | «open» => exact sysOpen_confined k a1 a2 a3
  | stat => exact sysStat_confined k a1 a2 a3
  | fstat => exact sysFstat_confined k a1 a2 a3
  | poll => exact sysPoll_confined k a1 a2 a3
  | ioctl => exact sysIoctl_confined k a1 a2 a3
  | connect => exact sysConnect_confined k a1 a2 a3
  | send => exact sysSend_confined k a1 a2 a3
  | recv => exact sysRecv_confined k a1 a2 a3
  | bind => exact sysBind_confined k a1 a2 a3
  | exec => exact sysExec_confined k a1 a2 a3
  | waitpid => exact sysWaitpid_confined k a1 a2 a3
  | getcwd => exact sysGetcwd_confined k a1 a2 a3
  | rename => exact sysRename_confined k a1 a2 a3
  | unlink => exact sysUnlink_confined k a1 a2 a3
  | symlink => exact sysSymlink_confined k a1 a2 a3
  | readlink => exact sysReadlink_confined k a1 a2 a3
  | getdents64 => exact sysGetdents64_confined k a1 a2 a3
  | diskList => exact sysDiskList_confined k a1 a2 a3
  | partitionMount => exact sysPartitionMount_confined k a1 a2 a3
  | partitionFormat => exact sysPartitionFormat_confined k a1 a2 a3
  | gethostbyname => exact sysGethostbyname_confined k a1 a2 a3
  | ps => exact sysPs_confined k a1 a2 a3
  | meminfo => exact sysMeminfo_confined k a1 a2 a3
  | diskTable | partitionCreate | partitionDelete | chroot | chdir | mkdir | rmdir =>
    exact withName_confined k

/-- **A system call touches only the caller's half** exactly if its buffers fit. -/
theorem syscall_confined_iff (num : Word) : Confined (syscallHandlerC k num a1 a2 a3) ↔
      ∀ h, syscallTable num.toNat = some h → h.Fits k a1 a2 a3 := by
  unfold syscallHandlerC
  split
  · rename_i h hh
    rw [run_confined]
    simp [hh]
  · rename_i hnone
    simp [hnone]

end Handlers

/-- A kernel in which a thread has ended and nobody has waited for it yet. -/
def oneZombie : Kernel where
  mem _ := 0
  fds _ := ⟨false, 0, false, 0⟩
  kmalloc _ := true
  keys := 0
  answer := 0
  resolves := false
  currentDir := [47]
  chrootPath := []
  names := []
  disks _ := false
  drmInitialized := true
  modeCount := 0
  sched := Sched.after 4096 [.createKthread 8192, .doSwitch, .doSwitch, .exit 7]

/-- `wait4` stores the exit code at the address of the kernel's page table. -/
theorem wait4_not_confined : ¬ Confined (syscallHandlerC oneZombie 61 1 0x1000 0) := by
  have hfound : Sched.waitTarget oneZombie.sched 1 ≠ none := by
    decide +kernel
  intro h
  have hfits := (sysWaitpid_confined oneZombie 1 0x1000 0).mp h
  exact absurd (hfits hfound (by decide)) (by unfold Within Ends; decide)

end Utms7.Syscall
