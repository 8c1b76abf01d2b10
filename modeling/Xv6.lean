import Xv6.Bio.Coherence
import Xv6.Console.Discipline
import Xv6.Fs.FileWrite
import Xv6.Fs.InodeTable
import Xv6.Fs.FullDir
import Xv6.Fs.Offset
import Xv6.Fs.Path
import Xv6.Grep.Buffer
import Xv6.Ide.Errors
import Xv6.Log.Admission
import Xv6.Log.Crash
import Xv6.Mp.Table
import Xv6.Pipes.Fifo
import Xv6.Pipes.Sleepers
import Xv6.Ptable.Accounts
import Xv6.Ptable.ChildRecords
import Xv6.Ptable.Conserve
import Xv6.Ptable.Identity
import Xv6.Ptable.Kill
import Xv6.Ptable.Quantum
import Xv6.Ptable.Reap
import Xv6.Ptable.RoundRobin
import Xv6.Ptable.Share
import Xv6.Ptable.SortFifo
import Xv6.Sh.Redirect
import Xv6.Sh.Terminate
import Xv6.Sync.Nesting
import Xv6.Sync.Sleep
import Xv6.Syscall.ChildStats
import Xv6.Ulib.Memmove
import Xv6.Umalloc.Wrap
import Xv6.Vm.Copyuvm
import Xv6.Vm.Dealloc
import Xv6.Vm.FileRefs
import Xv6.Vm.Leaks
import Xv6.Vm.Locals
import Xv6.Vm.Sound
