import Xv6.Log.History
import Xv6.Kernel.Limits
import Xv6.Fs.Tracked
import Xv6.Fs.Refinement
import Xv6.Pipe
import Xv6.Proc.Deadlock
import Xv6.Vm.Refine
import Xv6.Vm.Fork
import Xv6.Vm.Growproc
import Xv6.Vm.UserCopy
import Xv6.Mkfs
import Xv6.Virtio.Interrupt
import Xv6.Console.Lines
import Xv6.Console.Output
import Xv6.Sh.Command
import Xv6.Umalloc.Request
import Xv6.File.Lifetime
import Xv6.Seq.SharedWrites
import Xv6.Seq.LogBudget
import Xv6.Seq.Fileread
import Xv6.User.Memmove
import Xv6.User.Printf
import Xv6.User.Grep
import Xv6.User.Xargs
