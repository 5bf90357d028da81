import Lapis.Fs.OpenFileTheorems
import Lapis.Fs.RamfsFileTheorems
import Lapis.Fs.SymlinkTheorems
import Lapis.Fs.VfsLockTheorems
import Lapis.Fs.VfsSignTheorems
import Lapis.Mm.KernelHalfTheorems
import Lapis.Mm.LockTheorems
import Lapis.Sched.FdRefinementTheorems
import Lapis.Sched.ProcRunTheorems
import Lapis.Sched.SoloTheorems
import Lapis.Sched.WaitExitTheorems
import Lapis.Util.RbSetTheorems
import Lapis.Util.Semaphore
import Lapis.Util.SpinlockTheorems
import Lapis.Arch.IrqTheorems
import Lapis.Dev.DriverTheorems
import Lapis.Kterm.PictureTheorems
import Lapis.Sched.FpuTheorems
import Lapis.Mm.AccessTheorems
import Lapis.Sched.ThreadCountTheorems
import Lapis.Sched.ThreadExitTheorems
import Lapis.Mm.PmmAllocTheorems
import Lapis.Mm.BootMapTheorems
import Lapis.Mm.KmallocTheorems
import Lapis.Mm.LeafRefTheorems
import Lapis.Mm.MapAtomicTheorems
import Lapis.Fs.MountTheorems
import Lapis.Fs.ReadTheorems
import Lapis.Fs.WriteTheorems
import Lapis.Sched.LevelTheorems
