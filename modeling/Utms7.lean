import Utms7.UfsFileHistory
import Utms7.UfsDirectoryMap
import Utms7.UfsConsistency
import Utms7.UfsLinuxEvict
import Utms7.UfsLinuxFiles
import Utms7.UfsLinuxCalls
import Utms7.UfsMkfs
import Utms7.HeapCoalescing
import Utms7.PmmCalls
import Utms7.SchedSpaces
import Utms7.SchedDispatch
import Utms7.SyscallConfinement
import Utms7.UserHeap
import Utms7.UnixStream
import Utms7.UnixLife
import Utms7.TcpStream
import Utms7.TcpClosing
import Utms7.TcpTimer
import Utms7.TcpIdentity
import Utms7.TcpAccept
import Utms7.VfsNormal
import Utms7.DescriptorRuns
import Utms7.BootMemory
import Utms7.ElfReads
import Utms7.ExecStack
import Utms7.DevfsBlocks
import Utms7.NetAddress
import Utms7.RamfsData
import Utms7.Calendar
