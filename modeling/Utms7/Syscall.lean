import Utms7.Logged
import Utms7.Sched

/-!
# System calls that touch the caller's memory

The handlers of `kernel/core/syscall.c` that go through `copy_from_user`,
`copy_string_from_user` or `copy_to_user`, and `sys_waitpid`, which writes through a
pointer of the caller without them.  A handler is a computation that logs which
addresses given by the caller it touches.

What the rest of the kernel answers (the file system, the network, the keyboard,
`kmalloc`) is part of `Kernel`; a handler that stops has returned -1, or goes on
waiting.  What a handler writes to the table of open files afterwards is left out.
-/

namespace Utms7.Syscall

/-- A register. -/
abbrev Word := BitVec 64

/-- Some bytes from an address on are read or written. -/
structure Access where
  addr : Word
  size : Nat
deriving DecidableEq

abbrev Copying := Logged Access

open Logged

/-! ## Copies -/

def userLow : Nat := 0x40000000

def userHigh : Nat := 0x4000000000

/-- `is_user_pointer`. -/
def isUserPointer (p : Word) : Prop := userLow ≤ p.toNat ∧ p.toNat < userHigh

instance (p : Word) : Decidable (isUserPointer p) := inferInstanceAs (Decidable (_ ∧ _))

/-- The bytes of the caller's memory from `src` on. -/
def bytesAt (mem : Word → UInt8) (src : Word) (size : Nat) : List UInt8 :=
  (List.range size).map fun i => mem (src + BitVec.ofNat 64 i)

/-- `copy_from_user`. -/
def copyFromUser (mem : Word → UInt8) (src : Word) (size : Nat) : Copying (List UInt8) := do
  require (isUserPointer src)
  emit ⟨src, size⟩
  return bytesAt mem src size

/-- The bytes that the loop of `copy_string_from_user` reads in at most `n` rounds:
up to the first zero byte, with it. -/
def stringBytes (mem : Word → UInt8) (src : Word) : Nat → List UInt8
  | 0 => []
  | n + 1 => if mem src = 0 then [0] else mem src :: stringBytes mem (src + 1) n

/-- `copy_string_from_user`. -/
def copyStringFromUser (mem : Word → UInt8) (src : Word) (maxSize : Nat) :
    Copying (List UInt8) := do
  require (isUserPointer src)
  emit ⟨src, (stringBytes mem src (maxSize - 1)).length⟩
  return stringBytes mem src (maxSize - 1)

/-- `copy_to_user`. -/
def copyToUser (dest : Word) (size : Nat) : Copying Unit := do
  require (isUserPointer dest)
  emit ⟨dest, size⟩

/-- A store of the kernel through a pointer that is not checked. -/
def store (dest : Word) (size : Nat) : Copying Unit := emit ⟨dest, size⟩

/-- The number that the bytes `i`, …, `i + n - 1` hold, lowest byte first. -/
def field (data : List UInt8) (i n : Nat) : Nat :=
  ((data.drop i).take n).foldr (fun b v => b.toNat + 256 * v) 0

/-! ## The kernel around a call -/

/-- `fd_entry_t`; `node` is whether `data.vnode` is not NULL. -/
structure FdEntry where
  used : Bool
  type : Nat
  node : Bool
  pos : Nat

def FD_TYPE_FILE : Nat := 0

def FD_TYPE_DRM : Nat := 1

def FD_TYPE_TCP : Nat := 2

def FD_TYPE_UNIX : Nat := 3

/-- The caller's memory and open files, and what the rest of the kernel answers
during the call. -/
structure Kernel where
  mem : Word → UInt8
  fds : Nat → FdEntry
  -- whether `kmalloc` finds a block of this size
  kmalloc : Word → Bool
  -- characters that the keyboard delivers
  keys : Nat
  -- what the function called in the file system, the network or the driver returns
  answer : BitVec 32
  -- whether a path leads to a node
  resolves : Bool
  currentDir : List UInt8
  chrootPath : List UInt8
  -- the names that `vfs_readdir` returns
  names : List (List UInt8)
  disks : Fin 4 → Bool
  drmInitialized : Bool
  modeCount : Nat
  sched : Sched.State

namespace Kernel

/-- `p->fds[fd]`, if it is in use. -/
def entry (k : Kernel) (fd : Word) : Copying FdEntry := do
  require (0 ≤ fd.toInt ∧ fd.toInt < 32 ∧ (k.fds fd.toNat).used = true)
  return k.fds fd.toNat

def copyString (k : Kernel) (src : Word) (maxSize : Nat) : Copying (List UInt8) :=
  copyStringFromUser k.mem src maxSize

end Kernel

variable (k : Kernel)

/-! ## Disks and partitions -/

def sysPartitionFormat (dev fstype : Word) : Copying Int := do
  require (isUserPointer dev ∧ isUserPointer fstype)
  let _ ← k.copyString dev 31
  let _ ← k.copyString fstype 15
  return k.answer.toInt

/-- The calls that check a path or name, copy it and hand it on. -/
def withName (name : Word) (maxSize : Nat) : Copying Int := do
  require (isUserPointer name)
  let _ ← k.copyString name maxSize
  return k.answer.toInt

def sysDiskTable (dev : Word) : Copying Int := withName k dev 31

def sysPartitionCreate (dev : Word) : Copying Int := withName k dev 31

def sysPartitionDelete (dev : Word) : Copying Int := withName k dev 31

/-- `sizeof(disk_info_t)`. -/
def diskInfoSize : Nat := 1065

def sysDiskList (disksPtr max : Word) : Copying Int := do
  require (isUserPointer disksPtr)
  let count := min ((List.finRange 4).countP fun i => k.disks i) max.toInt.toNat
  loop (fun i => copyToUser (disksPtr + BitVec.ofNat 64 (i * diskInfoSize)) diskInfoSize) count 0
  return count

def sysPartitionMount (dev point fstype : Word) : Copying Int := do
  require (isUserPointer dev ∧ isUserPointer point)
  let _ ← k.copyString dev 31
  let _ ← k.copyString point 255
  if fstype ≠ 0 ∧ isUserPointer fstype then
    let _ ← k.copyString fstype 31
    return k.answer.toInt
  else return k.answer.toInt

/-! ## Files -/

/-- Round `i` of the loop by which `sys_write` prints `count` bytes. -/
def printChunk (buf : Word) (count i : Nat) : Copying Unit := do
  let _ ← copyFromUser k.mem (buf + BitVec.ofNat 64 (i * 255)) (min 255 (count - i * 255))
  return ()

def sysWrite (fd buf count : Word) : Copying Int := do
  let f ← k.entry fd
  require (isUserPointer buf)
  if (fd = 1 ∨ fd = 2) ∧ f.node = false then
    loop (printChunk k buf count.toInt.toNat) ((count.toInt.toNat + 254) / 255) 0
    return count.toInt
  else
    require (f.type = FD_TYPE_FILE ∧ f.node = true ∧ k.kmalloc count = true)
    let _ ← copyFromUser k.mem buf count.toNat
    return k.answer.toInt

def sysRead (fd buf count : Word) : Copying Int := do
  let f ← k.entry fd
  require (isUserPointer buf)
  if fd = 0 ∧ f.node = false then
    let readCount := min count.toInt.toNat k.keys
    loop (fun i => copyToUser (buf + BitVec.ofNat 64 i) 1) readCount 0
    return readCount
  else
    require (f.type = FD_TYPE_FILE ∧ f.node = true ∧ k.kmalloc count = true)
    if 0 < k.answer.toInt then
      copyToUser buf k.answer.toNat
      return k.answer.toInt
    else return k.answer.toInt

/-- `"/dev/dri/card0"`. -/
def driPath : List UInt8 := [47, 100, 101, 118, 47, 100, 114, 105, 47, 99, 97, 114, 100, 48]

def sysOpen (path : Word) : Copying Int := do
  let name ← k.copyString path 255
  match (List.range 32).find? fun i => 3 ≤ i ∧ (k.fds i).used = false with
  | none => fail
  | some fd =>
    require (driPath.isPrefixOf name = true ∨ k.resolves = true)
    return fd

/-- `sizeof(struct linux_stat)`. -/
def statSize : Nat := 144

def sysStat (path statbuf : Word) : Copying Int := do
  require (isUserPointer path ∧ isUserPointer statbuf)
  let _ ← k.copyString path 255
  require (k.resolves = true)
  copyToUser statbuf statSize
  return 0

def sysFstat (fd statbuf : Word) : Copying Int := do
  let f ← k.entry fd
  require (isUserPointer statbuf)
  require (f.type = FD_TYPE_FILE → f.node = true)
  copyToUser statbuf statSize
  return 0

def sysMkdir (path : Word) : Copying Int := withName k path 255

def sysRmdir (path : Word) : Copying Int := withName k path 255

/-- Unlike the others, `sys_unlink` leaves the check to the copy. -/
def sysUnlink (path : Word) : Copying Int := do
  let _ ← k.copyString path 255
  return k.answer.toInt

def sysRename (old new : Word) : Copying Int := do
  require (isUserPointer old ∧ isUserPointer new)
  let _ ← k.copyString old 255
  let _ ← k.copyString new 255
  return k.answer.toInt

def sysSymlink (target linkpath : Word) : Copying Int := do
  let _ ← k.copyString target 255
  let _ ← k.copyString linkpath 255
  return k.answer.toInt

def sysReadlink (path buf : Word) : Copying Int := do
  let _ ← k.copyString path 255
  require (0 ≤ k.answer.toInt)
  copyToUser buf ((k.answer + 1).signExtend 64).toNat
  return k.answer.toInt

def sysChroot (path : Word) : Copying Int := withName k path 255

def sysChdir (path : Word) : Copying Int := withName k path 255

/-- The current directory as the caller sees it. -/
def realCwd : List UInt8 :=
  if k.chrootPath ≠ [] ∧ k.chrootPath ≠ [47] then
    if k.chrootPath.isPrefixOf k.currentDir then
      if k.currentDir.drop k.chrootPath.length = [] then [47]
      else k.currentDir.drop k.chrootPath.length
    else [47]
  else k.currentDir

def sysGetcwd (buf size : Word) : Copying Int := do
  require (isUserPointer buf)
  let len := (realCwd k).length + 1
  require (len ≤ size.toNat)
  copyToUser buf len
  return len

/-- `reclen` for a name: the header, the name and its end, rounded up to 8. -/
def reclen (name : List UInt8) : Nat := (19 + (name.length + 1) % 2 ^ 16 + 7) / 8 * 8 % 2 ^ 16

/-- The bytes that the records of the names fill, as far as there is room. -/
def direntBytes (count : Nat) : List (List UInt8) → Nat → Nat
  | [], pos => pos
  | name :: names, pos =>
    if pos + reclen name > count then pos else direntBytes count names (pos + reclen name)

/-- `sizeof(vfs_dirent_t)`. -/
def vfsDirentSize : Nat := 272

def sysGetdents64 (fd buf count : Word) : Copying Int := do
  let f ← k.entry fd
  require (f.type = FD_TYPE_FILE)
  require (isUserPointer buf ∧ 0 < count.toInt ∧ count.toInt ≤ 1048576)
  require (f.node = true ∧ k.kmalloc (BitVec.ofNat 64 (256 * vfsDirentSize)) = true ∧ k.answer = 0)
  let start := f.pos % 2 ^ 32
  if k.names.length ≤ start then return 0
  else
    require (k.kmalloc count = true)
    let pos := direntBytes count.toNat (k.names.drop start) 0
    require (pos ≠ 0)
    copyToUser buf pos
    return pos

/-! ## Processes -/

/-- Round `i` of the loop by which `sys_exec` copies the arguments. -/
def copyArg (argv : Word) (i : Nat) : Copying Unit := do
  let bytes ← copyFromUser k.mem (argv + BitVec.ofNat 64 (i * 8)) 8
  let strPtr := BitVec.ofNat 64 (field bytes 0 8)
  require (strPtr ≠ 0)
  require (isUserPointer strPtr)
  let _ ← k.copyString strPtr 255
  return ()

/-- `sys_exec` up to the point where it has copied its arguments. -/
def sysExec (path argv : Word) : Copying Int := do
  require (isUserPointer path)
  let _ ← k.copyString path 255
  require (k.kmalloc (BitVec.ofNat 64 (64 * 256)) = true)
  if argv ≠ 0 ∧ isUserPointer argv then
    let _ ← attempt (loop (copyArg k argv) 63 0)
    return k.answer.toInt
  else return k.answer.toInt

/-- `sys_waitpid`, in the round of `sched_waitpid` that looks at `k.sched`. -/
def sysWaitpid (pid status : Word) : Copying Int :=
  match Sched.waitTarget k.sched (pid.toNat % 2 ^ 32) with
  | none => fail
  | some _ => do
    if status ≠ 0 then
      store status 4
      return (pid.setWidth 32).toInt
    else return (pid.setWidth 32).toInt

/-- `sizeof(ps_entry_t)`. -/
def psEntrySize : Nat := 44

/-- `sched_get_processes`: how many slots are neither unused nor zombies. -/
def schedGetProcesses : Nat :=
  (List.finRange 64).countP fun i =>
    (k.sched.processes i).state ≠ .unused ∧ (k.sched.processes i).state ≠ .zombie

/-- `to_copy`: the smaller number, as an `int`. -/
def psCount (max : Word) : Nat :=
  if (schedGetProcesses k : Int) < max.toInt then schedGetProcesses k
  else (max.setWidth 32).toInt.toNat

def sysPs (processes max : Word) : Copying Int := do
  require (isUserPointer processes)
  loop (fun i => copyToUser (processes + BitVec.ofNat 64 (i * psEntrySize)) psEntrySize)
    (psCount k max) 0
  return psCount k max

def sysMeminfo (total used free : Word) : Copying Int := do
  require (isUserPointer total ∧ isUserPointer used ∧ isUserPointer free)
  copyToUser total 8
  copyToUser used 8
  copyToUser free 8
  return 0

/-! ## Sockets -/

def sysConnect (fd addr : Word) : Copying Int := do
  let f ← k.entry fd
  let family ← copyFromUser k.mem addr 2
  if f.type = FD_TYPE_UNIX then
    let _ ← copyFromUser k.mem addr 110
    return k.answer.toInt
  else if f.type = FD_TYPE_TCP ∨ field family 0 2 = 2 then
    let _ ← copyFromUser k.mem addr 8
    return k.answer.toInt
  else fail

def sysSend (fd buf len : Word) : Copying Int := do
  let f ← k.entry fd
  require (isUserPointer buf)
  require ((f.type = FD_TYPE_UNIX ∨ f.type = FD_TYPE_TCP) ∧ k.kmalloc len = true)
  let _ ← copyFromUser k.mem buf len.toNat
  return k.answer.toInt

def sysRecv (fd buf len : Word) : Copying Int := do
  let f ← k.entry fd
  require (isUserPointer buf)
  require ((f.type = FD_TYPE_UNIX ∨ f.type = FD_TYPE_TCP) ∧ k.kmalloc len = true)
  if 0 < k.answer.toInt then
    copyToUser buf k.answer.toNat
    return k.answer.toInt
  else return k.answer.toInt

def sysBind (fd addr : Word) : Copying Int := do
  let f ← k.entry fd
  require (f.type = FD_TYPE_UNIX)
  let _ ← copyFromUser k.mem addr 110
  return k.answer.toInt

def sysGethostbyname (name ip : Word) : Copying Int := do
  require (isUserPointer name ∧ isUserPointer ip)
  let _ ← k.copyString name 255
  require (k.answer ≠ 0)
  copyToUser ip 4
  return 0

def sysPoll (fds nfds : Word) : Copying Int := do
  require (isUserPointer fds)
  require (0 ≤ nfds.toInt)
  let n := min nfds.toInt.toNat 32
  let _ ← copyFromUser k.mem fds (n * 8)
  copyToUser fds (n * 8)
  return k.answer.toInt

/-! ## Device control -/

/-- `DRM_IOC(dir, 'd', nr, size)`. -/
def drmIoc (dir nr size : Nat) : BitVec 32 :=
  BitVec.ofNat 32 (dir * 2 ^ 30 + 100 * 2 ^ 8 + nr + size * 2 ^ 16)

def DRM_IOCTL_VERSION : BitVec 32 := drmIoc 3 0x00 56

def DRM_IOCTL_MODE_GETRESOURCES : BitVec 32 := drmIoc 3 0xa0 64

def DRM_IOCTL_MODE_GETCONNECTOR : BitVec 32 := drmIoc 3 0xa7 80

/-- The commands of `drm_ioctl` that use no pointer of the caller. -/
def drmPlainCommands : List (BitVec 32) :=
  [drmIoc 3 0x0c 16, drmIoc 3 0xa1 104, drmIoc 3 0xa2 104, drmIoc 3 0xa6 20, drmIoc 3 0xad 28,
   drmIoc 3 0xae 28, drmIoc 3 0xb8 104, drmIoc 3 0xaf 4, drmIoc 3 0xb5 16, drmIoc 3 0x10 16,
   drmIoc 1 0x09 8, drmIoc 3 0x11 16, drmIoc 3 0xb2 32, drmIoc 3 0xb3 16, drmIoc 3 0xb4 4]

/-- The pointer in a field of the caller's structure. -/
def pointer (data : List UInt8) (i : Nat) : Word := BitVec.ofNat 64 (field data i 8)

/-- One of the three texts of `drm_uapi_version`, written for the length that the
caller gives. -/
def storeText (data : List UInt8) (len text : Nat) : Copying Unit :=
  store (pointer data text) (field data len 4)

def drmUapiVersion (data : List UInt8) : Copying Int := do
  storeText data 12 16
  storeText data 24 32
  storeText data 40 48
  return 0

/-- A store through a pointer in the caller's structure, unless it is NULL. -/
def storeThrough (data : List UInt8) (i size : Nat) : Copying Unit :=
  if pointer data i ≠ 0 then store (pointer data i) size else pure ()

def drmUapiGetResources (data : List UInt8) : Copying Int := do
  storeThrough data 8 4
  storeThrough data 16 4
  storeThrough data 24 4
  storeThrough data 0 4
  return 0

/-- `sizeof(struct drm_mode_modeinfo)`. -/
def modeinfoSize : Nat := 68

def drmUapiGetConnector (data : List UInt8) : Copying Int := do
  storeThrough data 8 (k.modeCount * modeinfoSize)
  storeThrough data 0 4
  return 0

/-- `drm_ioctl`, on the kernel's copy of the caller's structure. -/
def drmIoctl (cmd : BitVec 32) (kdata : Option (List UInt8)) : Copying Int :=
  if k.drmInitialized = false then pure (-19)
  else if cmd = DRM_IOCTL_VERSION then
    match kdata with
    | none => pure (-22)
    | some data => drmUapiVersion data
  else if cmd = DRM_IOCTL_MODE_GETRESOURCES then
    match kdata with
    | none => pure (-22)
    | some data => drmUapiGetResources data
  else if cmd = DRM_IOCTL_MODE_GETCONNECTOR then
    match kdata with
    | none => pure (-22)
    | some data => drmUapiGetConnector k data
  else if cmd ∈ drmPlainCommands then
    match kdata with
    | none => pure (-22)
    | some _ => pure k.answer.toInt
  else pure (-25)

def TCGETS : Word := 0x5401

def TCSETS : Word := 0x5402

def TCSETSW : Word := 0x5403

def TCSETSF : Word := 0x5404

def TIOCGWINSZ : Word := 0x5413

/-- `sizeof(struct termios)`. -/
def termiosSize : Nat := 36

/-- `sizeof(struct winsize)`. -/
def winsizeSize : Nat := 8

/-- `sys_ioctl` for the three standard files. -/
def terminalIoctl (request arg : Word) : Copying Int :=
  if request = TCGETS then do
    copyToUser arg termiosSize
    return 0
  else if request = TCSETS ∨ request = TCSETSW ∨ request = TCSETSF then do
    let _ ← copyFromUser k.mem arg termiosSize
    return 0
  else if request = TIOCGWINSZ then do
    copyToUser arg winsizeSize
    return 0
  else pure 0

/-- The size that the request says the caller's structure has. -/
def ioctlSize (request : Word) : Nat := request.toNat / 2 ^ 16 % 2 ^ 14

/-- `sys_ioctl` for the graphics card. -/
def cardIoctl (request arg : Word) : Copying Int := do
  let size := ioctlSize request
  if 0 < size ∧ arg ≠ 0 then
    let data ← copyFromUser k.mem arg size
    let kdata := if k.kmalloc (BitVec.ofNat 64 size) = true then some data else none
    let ret ← drmIoctl k (request.setWidth 32) kdata
    if 0 ≤ ret then
      let _ ← attempt (copyToUser arg size)
      return ret
    else return ret
  else drmIoctl k (request.setWidth 32) none

def sysIoctl (fd request arg : Word) : Copying Int := do
  let f ← k.entry fd
  if fd = 0 ∨ fd = 1 ∨ fd = 2 then terminalIoctl k request arg
  else
    require (f.type = FD_TYPE_DRM)
    cardIoctl k request arg

/-! ## The table -/

/-- The handlers above. -/
inductive Handler where
  | read | write | open | stat | fstat | poll | ioctl | connect | send | recv | bind | exec
  | waitpid | chroot | getcwd | chdir | rename | mkdir | rmdir | unlink | symlink | readlink
  | getdents64 | diskList | partitionMount | partitionFormat | diskTable | partitionCreate
  | partitionDelete | gethostbyname | ps | meminfo
deriving DecidableEq

/-- The numbers of `syscall_table` under which one of them is entered. -/
def syscallTable : Nat → Option Handler
  | 0 => some .read
  | 1 => some .write
  | 2 => some .open
  | 4 => some .stat
  | 5 => some .fstat
  | 7 => some .poll
  | 16 => some .ioctl
  | 21 => some .stat
  | 42 => some .connect
  | 44 => some .send
  | 45 => some .recv
  | 49 => some .bind
  | 59 => some .exec
  | 61 => some .waitpid
  | 66 => some .chroot
  | 79 => some .getcwd
  | 80 => some .chdir
  | 82 => some .rename
  | 83 => some .mkdir
  | 84 => some .rmdir
  | 87 => some .unlink
  | 88 => some .symlink
  | 89 => some .readlink
  | 217 => some .getdents64
  | 300 => some .diskList
  | 301 => some .partitionMount
  | 303 => some .partitionFormat
  | 304 => some .diskTable
  | 305 => some .partitionCreate
  | 306 => some .partitionDelete
  | 307 => some .gethostbyname
  | 308 => some .ps
  | 312 => some .meminfo
  | _ => none

def Handler.run (a1 a2 a3 : Word) : Handler → Copying Int
  | read => sysRead k a1 a2 a3
  | write => sysWrite k a1 a2 a3
  | .open => sysOpen k a1
  | stat => sysStat k a1 a2
  | fstat => sysFstat k a1 a2
  | poll => sysPoll k a1 a2
  | ioctl => sysIoctl k a1 a2 a3
  | connect => sysConnect k a1 a2
  | send => sysSend k a1 a2 a3
  | recv => sysRecv k a1 a2 a3
  | bind => sysBind k a1 a2
  | exec => sysExec k a1 a2
  | waitpid => sysWaitpid k a1 a2
  | chroot => sysChroot k a1
  | getcwd => sysGetcwd k a1 a2
  | chdir => sysChdir k a1
  | rename => sysRename k a1 a2
  | mkdir => sysMkdir k a1
  | rmdir => sysRmdir k a1
  | unlink => sysUnlink k a1
  | symlink => sysSymlink k a1 a2
  | readlink => sysReadlink k a1 a2
  | getdents64 => sysGetdents64 k a1 a2 a3
  | diskList => sysDiskList k a1 a2
  | partitionMount => sysPartitionMount k a1 a2 a3
  | partitionFormat => sysPartitionFormat k a1 a2
  | diskTable => sysDiskTable k a1
  | partitionCreate => sysPartitionCreate k a1
  | partitionDelete => sysPartitionDelete k a1
  | gethostbyname => sysGethostbyname k a1 a2
  | ps => sysPs k a1 a2
  | meminfo => sysMeminfo a1 a2 a3

/-- `syscall_handler_c`, for the numbers of the table. -/
def syscallHandlerC (num a1 a2 a3 : Word) : Copying Int :=
  match syscallTable num.toNat with
  | some h => h.run k a1 a2 a3
  | none => pure (-1)

end Utms7.Syscall
