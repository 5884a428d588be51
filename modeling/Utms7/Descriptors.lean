import Mathlib.Data.Fintype.BigOperators
import Utms7.RamfsCalls
import Utms7.VfsMounts

/-!
# File descriptors

`sys_open`, `sys_close`, `sys_dup` and `sys_dup2` of `kernel/core/syscall.c`, the
descriptors in `sched_fork` of `kernel/core/sched.c`, and the calls that free nodes,
where the mounted file systems are ramfs.

A descriptor is an entry of a table of 32 in its process, and a node counts the
descriptors that refer to it.  The entries of sockets hold no node.
-/

namespace Utms7.Vfs

open Function Finset

/-- `FD_TYPE_*`. -/
inductive FdType
  | file
  | drm
  | tcp
  | unix
deriving DecidableEq, Repr

/-- `fd_entry_t`. -/
structure Fd (N : Type*) where
  used : Bool
  type : FdType
  vnode : Option N
  pos : Nat
  flags : BitVec 32

variable {N : Type*}

namespace Fd

/-- What `memset` leaves. -/
def empty : Fd N where
  used := false
  type := .file
  vnode := none
  pos := 0
  flags := 0#32

/-- The node that an open file refers to. -/
def node (e : Fd N) : Option N := if e.used ∧ e.type = .file then e.vnode else none

end Fd

abbrev FdTable (N : Type*) := Fin 32 → Fd N

/-- The nodes, and the descriptors of the processes that are not `PROC_UNUSED`. -/
structure Files (N : Type*) where
  store : Store N
  procs : Fin 64 → Option (FdTable N)

/-- `O_APPEND`. -/
def oAppend : BitVec 32 := 0x400#32

/-- `/dev/dri/card0`. -/
def cardPath : Text := [47, 100, 101, 118, 47, 100, 114, 105, 47, 99, 97, 114, 100, 48]

/-- The first entry from `first` on that is not used. -/
def freeFd (first : Nat) (fds : FdTable N) : Option (Fin 32) :=
  (List.finRange 32).find? fun j => first ≤ j.val ∧ (fds j).used = false

/-- The entry of a number, if there is one. -/
def fdIndex (fd : Int) : Option (Fin 32) :=
  if h : fd.toNat < 32 then if 0 ≤ fd then some ⟨fd.toNat, h⟩ else none else none

namespace Store

variable [DecidableEq N] (s : Store N)

/-- `vfs_close`. -/
def vfsClose (node : N) : Store N :=
  { s with refcount := update s.refcount node (s.refcount node - 1) }

/-- The node of a descriptor that `sys_close` is given. -/
def closeFd (e : Fd N) : Store N :=
  match e.type, e.vnode with
  | .file, some n => s.vfsClose n
  | _, _ => s

/-- `vfs_unmount`, with what ramfs does. -/
def vfsUnmount [Fintype N] (mountpoint : Text) : Int × Store N :=
  match (s.slotOf mountpoint).bind s.mounts with
  | none => (-1, s)
  | some m =>
    let s := s.ramfsFreeNode m.root
    let r := s.toFs.vfsUnmount mountpoint
    (r.1, { s with toFs := r.2 })

end Store

namespace Files

variable (s : Files N)

def setTable (i : Fin 64) (fds : FdTable N) : Files N :=
  { s with procs := update s.procs i (some fds) }

/-- `sys_open` of process `i`, with the path that was copied from it.  There is no
result where `vfs_open` has none. -/
def sysOpen [DecidableEq N] (i : Fin 64) (p : Process) (path : Text) (flags : BitVec 32)
    (node : Option N) : Option (Int × Files N) :=
  match s.procs i with
  | none => some (-1, s)
  | some fds =>
    match freeFd 3 fds with
    | none => some (-1, s)
    | some fd =>
      if cardPath.isPrefixOf path then
        let e := { fds fd with
          used := true
          type := .drm }
        some (fd.val, s.setTable i (update fds fd e))
      else
        match s.store.vfsOpen p path flags node with
        | none => none
        | some (none, store) => some (-1, { s with store := store })
        | some (some n, store) =>
          let s := { s with store := store }
          let e := {
            used := true
            type := .file
            vnode := some n
            pos := if hasFlags flags oAppend then store.size n else 0
            flags := flags }
          some (fd.val, s.setTable i (update fds fd e))

def sysClose [DecidableEq N] (i : Fin 64) (fd : Int) : Int × Files N :=
  match s.procs i, fdIndex fd with
  | some fds, some j =>
    if (fds j).used then
      let s := { s with store := s.store.closeFd (fds j) }
      (0, s.setTable i (update fds j .empty))
    else (-1, s)
  | _, _ => (-1, s)

def sysDup (i : Fin 64) (oldfd : Int) : Int × Files N :=
  match s.procs i, fdIndex oldfd with
  | some fds, some j =>
    if (fds j).used then
      match freeFd 0 fds with
      | none => (-1, s)
      | some k => (k.val, s.setTable i (update fds k (fds j)))
    else (-1, s)
  | _, _ => (-1, s)

def sysDup2 (i : Fin 64) (oldfd newfd : Int) : Int × Files N :=
  match s.procs i, fdIndex oldfd, fdIndex newfd with
  | some fds, some j, some k =>
    if (fds j).used then
      if j = k then (newfd, s)
      else (newfd, s.setTable i (update fds k { fds j with used := true }))
    else (-1, s)
  | _, _, _ => (-1, s)

/-- `sched_fork` of process `i`; `memory` says whether there is room for the address
space and the kernel stack of the child, and `pid` is its number. -/
def schedFork (i : Fin 64) (pid : Nat) (memory : Bool) : Int × Files N :=
  match s.procs i, (List.finRange 64).find? fun k => (s.procs k).isNone with
  | some fds, some k => if memory then (pid, s.setTable k fds) else (-1, s)
  | _, _ => (-1, s)

end Files

/-- A call, made by the process in entry `i` or by a process with the given paths. -/
inductive FileCall (N : Type*)
  | open (i : Fin 64) (p : Process) (path : Text) (flags : BitVec 32) (node : Option N)
  | close (i : Fin 64) (fd : Int)
  | dup (i : Fin 64) (oldfd : Int)
  | dup2 (i : Fin 64) (oldfd newfd : Int)
  | fork (i : Fin 64) (pid : Nat) (memory : Bool)
  | unlink (p : Process) (path : Text)
  | rename (p : Process) (old new : Text)
  | unmount (mountpoint : Text)

def fileStep [DecidableEq N] [Fintype N] (s : Option (Files N)) (call : FileCall N) :
    Option (Files N) :=
  s.bind fun s =>
    match call with
    | .open i p path flags node => (s.sysOpen i p path flags node).map (·.2)
    | .close i fd => some (s.sysClose i fd).2
    | .dup i oldfd => some (s.sysDup i oldfd).2
    | .dup2 i oldfd newfd => some (s.sysDup2 i oldfd newfd).2
    | .fork i pid memory => some (s.schedFork i pid memory).2
    | .unlink p path => some { s with store := (s.store.vfsUnlink p path).2 }
    | .rename p old new => some { s with store := (s.store.vfsRename p old new).2 }
    | .unmount mountpoint => some { s with store := (s.store.vfsUnmount mountpoint).2 }

/-! ## References -/

variable [DecidableEq N] {n : N}

def Fd.refs (e : Fd N) (n : N) : Nat := if e.node = some n then 1 else 0

def FdTable.refs (fds : FdTable N) (n : N) : Nat := ∑ j, (fds j).refs n

/-- The number of descriptors that refer to a node. -/
def Files.refs (s : Files N) (n : N) : Nat := ∑ i, (s.procs i).elim 0 fun fds => fds.refs n

/-- **Open files are valid**: the nodes that descriptors refer to are allocated, and
each node counts its descriptors. -/
structure Files.Valid (s : Files N) : Prop where
  allocated : ∀ {i fds j n}, s.procs i = some fds → (fds j).node = some n →
    s.store.live n = true
  counted : ∀ n, s.store.live n = true → s.store.refcount n = 1 + s.refs n

theorem sum_update {ι : Type*} [Fintype ι] [DecidableEq ι] {α : Type*} (g : α → Nat)
    {f : ι → α} {i : ι} {a : α} : (∑ j, g (update f i a j)) + g (f i) = (∑ j, g (f j)) + g a := by
  have hcomp : (fun j => g (update f i a j)) =
      update (fun j => g (f j)) i (g a) := by
    funext j
    exact apply_update (fun _ => g) f i a j
  have hrest := add_sum_erase Finset.univ (fun j => g (f j)) (mem_univ i)
  rw [hcomp, sum_update_of_mem (mem_univ i), sdiff_singleton_eq_erase]
  omega

theorem FdTable.refs_update (fds : FdTable N) (j : Fin 32) (e : Fd N) (n : N) :
    FdTable.refs (update fds j e) n + (fds j).refs n = fds.refs n + e.refs n :=
  sum_update (fun e : Fd N => e.refs n)

theorem Files.refs_setTable (s : Files N) (i : Fin 64) (fds : FdTable N) (n : N) :
    (s.setTable i fds).refs n + (s.procs i).elim 0 (fun fds => fds.refs n) =
      s.refs n + fds.refs n :=
  sum_update (fun o : Option (FdTable N) => o.elim 0 fun fds => fds.refs n)

/-- Only an entry's own node is counted. -/
theorem Fd.refs_pos {e : Fd N} : e.refs n ≠ 0 ↔ e.node = some n := by
  unfold Fd.refs
  split
  · next h => exact iff_of_true Nat.one_ne_zero h
  · next h => exact iff_of_false (fun hne => hne rfl) h

theorem FdTable.refs_ne_zero {fds : FdTable N} : fds.refs n ≠ 0 ↔ ∃ j, (fds j).node = some n := by
  rw [FdTable.refs, Ne, sum_eq_zero_iff]
  constructor
  · intro h
    push Not at h
    obtain ⟨j, -, hj⟩ := h
    exact ⟨j, Fd.refs_pos.mp hj⟩
  · rintro ⟨j, hj⟩ h
    exact Fd.refs_pos.mpr hj (h j (mem_univ j))

theorem Files.refs_ne_zero {s : Files N} :
    s.refs n ≠ 0 ↔ ∃ i fds j, s.procs i = some fds ∧ (fds j).node = some n := by
  rw [Files.refs, Ne, sum_eq_zero_iff]
  constructor
  · intro h
    push Not at h
    obtain ⟨i, -, hi⟩ := h
    cases hfds : s.procs i with
    | none =>
      rw [hfds] at hi
      exact absurd rfl hi
    | some fds =>
      rw [hfds] at hi
      obtain ⟨j, hj⟩ := FdTable.refs_ne_zero.mp hi
      exact ⟨i, fds, j, hfds, hj⟩
  · rintro ⟨i, fds, j, hfds, hj⟩ h
    have hzero := h i (mem_univ i)
    rw [hfds] at hzero
    exact FdTable.refs_ne_zero.mpr ⟨j, hj⟩ hzero

end Utms7.Vfs
