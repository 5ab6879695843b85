import Xv6.Log.Crash
import Xv6.Log.Admission
import Xv6.Proc.Fresh
import Xv6.Proc.Fcfs
import Xv6.Proc.Procdump
import Xv6.Proc.Qticks
import Xv6.Proc.Fifo
import Xv6.Proc.Nap
import Xv6.Proc.Sleeplock
import Xv6.Proc.Niceness
import Xv6.Proc.ByPid
import Xv6.Proc.Tree
import Xv6.Proc.SysSleep
import Xv6.Proc.Syscall
import Xv6.Vm.ExecFile
import Xv6.Vm.Counts
import Xv6.Vm.Shape
import Xv6.Vm.ForkCopy
import Xv6.Fs.Counts
import Xv6.Fs.Access
import Xv6.Fs.Reuse
import Xv6.Fs.DirMap
import Xv6.Bio.Coherent
import Xv6.Ipc.PipeSleep
import Xv6.Ipc.PipeFault
import Xv6.Dev.Editor
import Xv6.Dev.VirtioRuns
import Xv6.Dev.Uart
import Xv6.Fs.Path
import Xv6.Fs.Read
import Xv6.Fs.Filewrite
import Xv6.User.Sbrk
import Xv6.User.ShCommand
import Xv6.User.Grep
import Xv6.Memmove
import Xv6.Mkfs.Agree
