import Voxia.Machine
import Voxia.Cpu.PagingRange
import Voxia.Memory.PhysBaseRun
import Voxia.Memory.GrowBitmapRun
import Voxia.Memory.VmaRun
import Voxia.Memory.KallocSize
import Voxia.Procc.MprotectRun
import Voxia.Procc.ProcessRun
import Voxia.Procc.SpaceReset
import Voxia.Procc.ThreadWake
import Voxia.Sys.BrkRun
import Voxia.Sys.SignalRun
import Voxia.Sys.SignalContext
import Voxia.Sys.SignalMask
import Voxia.Sys.PipeRun
import Voxia.Sys.Registry
import Voxia.Tty.LineEditRun
import Voxia.Tty.Pty
import Voxia.Tty.Console
import Voxia.Vfs.DentryCache
import Voxia.Vfs.FullPath
import Voxia.Vfs.Umount
import Voxia.Fd.Transparency
import Voxia.Fd.WriteBounds
import Voxia.Fs.FatName
import Voxia.Fs.FatFree
import Voxia.Fs.FatWalk
import Voxia.Fs.FatMount
import Voxia.Fs.IsoRead
import Voxia.Block.Exact
import Voxia.Exec.Fresh
import Voxia.Cpu.PagingFrame
import Voxia.Net.SocketWait
import Voxia.Net.Checksum
import Voxia.Net.TcpOptions
import Voxia.Sys.Futex
import Voxia.Input.Keyboard
import Voxia.Input.Evdev
import Voxia.Userspace.TermFeed
