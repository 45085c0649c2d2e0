import OperatingSystems.Boot.Mpinit
import OperatingSystems.Console.Reads
import OperatingSystems.Fs.Safety
import OperatingSystems.Fs.Writing
import OperatingSystems.Log.Commit
import OperatingSystems.Log.Waiters
import OperatingSystems.Pipes.Fifo
import OperatingSystems.Pipes.Sleepers
import OperatingSystems.Proc.Bypass
import OperatingSystems.Proc.LockOrder
import OperatingSystems.Proc.Panics
import OperatingSystems.Proc.Pid
import OperatingSystems.Proc.Spinlock
import OperatingSystems.Proc.WaitStat
import OperatingSystems.Programs.Grep
import OperatingSystems.Programs.Memmove
import OperatingSystems.Programs.MergeLists
import OperatingSystems.Programs.Sumto
import OperatingSystems.Programs.Tail
import OperatingSystems.Shell.Run
import OperatingSystems.Vm.Fork
import OperatingSystems.Vm.Growproc
import OperatingSystems.Vm.Pushing
import OperatingSystems.Vm.Translation
