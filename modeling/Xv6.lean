import Xv6.Bio.BufList
import Xv6.Bio.Coherence
import Xv6.Ide.Refine
import Xv6.Bio.ReadErrors
import Xv6.Fs.FreeMap
import Xv6.Fs.InodeCache
import Xv6.Fs.OpenFails
import Xv6.Fs.OpenFiles
import Xv6.Fs.Paths
import Xv6.Fs.Directory
import Xv6.Fs.SharedFile
import Xv6.Proc.History
import Xv6.Proc.Kill
import Xv6.Proc.Pid
import Xv6.Proc.Wakeup
import Xv6.Pipe.Sleepers
import Xv6.Pipe.Fifo
import Xv6.Console.Line
import Xv6.Vm.CopyRange
import Xv6.Exec.Program
import Xv6.Sh.Parsecmd
import Xv6.Umalloc.FreeOrder
import Xv6.Umalloc.Sbrk
import Xv6.Grep.Match
import Xv6.Grep.Lines
import Xv6.Spinlock.Interrupts
import Xv6.Mp.Table
import Xv6.Syscall.Args
