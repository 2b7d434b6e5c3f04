import Xv6.Log.Reservation
import Xv6.Sched.Slice
import Xv6.Sched.Priority
import Xv6.Sched.Kill
import Xv6.Fs.Exact
import Xv6.Pipe.Sleepers
import Xv6.Sleep.Wakeup
import Xv6.Wait.Reap
import Xv6.Block.System
import Xv6.Kill.Missed
import Xv6.Bio.Ring
import Xv6.Bio.Room
import Xv6.Dispatch.Single
import Xv6.Sched.Serve
import Xv6.Sched.Preempt
import Xv6.Sched.Reuse
import Xv6.Log.Waiters
import Xv6.Syscall.Trace
import Xv6.Sh.Cut
import Xv6.Mkfs.Consistent
import Xv6.Sched.QueueCode
import Xv6.Sched.Niceness
import Xv6.Sched.Fcfs
import Xv6.Sched.Waitx
import Xv6.Content.Directory
import Xv6.Content.Sections
import Xv6.Content.Fileread
import Xv6.Content.Append
import Xv6.Pipe.Copyout
import Xv6.Vm.Map
import Xv6.Sleep.Lock
import Xv6.User.Memmove
import Xv6.User.Grep
import Xv6.User.Printf
