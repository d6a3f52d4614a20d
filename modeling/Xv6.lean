import Xv6.Lib.Prog
import Xv6.Lib.Bytes
import Xv6.Lib.Seq
import Xv6.Lib.Sum
import Xv6.Lib.Ring
import Xv6.Param
import Xv6.Log.Model
import Xv6.Log.Inv
import Xv6.Log.Cache
import Xv6.Log.Commit
import Xv6.Log.Ops
import Xv6.Log.Machine
import Xv6.Log.Sleep
import Xv6.Vm.Model
import Xv6.Vm.Owned
import Xv6.Vm.Tables
import Xv6.Vm.Ops
import Xv6.Vm.User
import Xv6.Vm.Copy
import Xv6.Vm.Map
import Xv6.Vm.Lazy
import Xv6.Process.Model
import Xv6.Process.Exec
import Xv6.Process.Inv
import Xv6.Process.Ops
import Xv6.Process.Calls
import Xv6.Process.Machine
import Xv6.Process.Kexec
import Xv6.Process.Lazy
import Xv6.Fs.Model
import Xv6.Fs.File
import Xv6.Fs.Blocks
import Xv6.Fs.Format
import Xv6.Fs.Read
import Xv6.Mkfs.Model
import Xv6.Mkfs.Layout
import Xv6.Mkfs.Blocks
import Xv6.Mkfs.Append
import Xv6.Mkfs.Image
import Xv6.Mkfs.Files
import Xv6.Mkfs.Kernel
import Xv6.Mkfs.Holes
import Xv6.Pipes.Inv
import Xv6.Pipes.Machine
import Xv6.Sched.Model
import Xv6.Sched.Kill
import Xv6.Sched.Inv
import Xv6.Sched.Rules
import Xv6.Sched.Sleep
import Xv6.Sched.Family
import Xv6.Sched.Machine
import Xv6.Console.Model
import Xv6.Console.Line
import Xv6.Console.Stream
import Xv6.Shell.Run
import Xv6.Shell.Fds
import Xv6.Shell.Parse
import Xv6.Shell.Grammar
import Xv6.Shell.Scan
import Xv6.Disk.Model
import Xv6.Disk.Queue
import Xv6.Disk.Requests
import Xv6.Lib.Extent
import Xv6.Lib.Links
import Xv6.Malloc.Model
import Xv6.Malloc.Calls
import Xv6.Fs.Shared
import Xv6.Fs.SharedWrite
import Xv6.Fs.SharedRuns
import Xv6.Pipes.Lost
import Xv6.Sched.Pids
import Xv6.Mkfs.Bounds
import Xv6.Log.Full
import Xv6.Log.Panics
import Xv6.Fs.Logged
import Xv6.Fs.Reclaim
import Xv6.Process.Memory
import Xv6.Process.Image
import Xv6.Fs.Chunk
import Xv6.Fs.Directory
import Xv6.Fs.Resolve
import Xv6.User.Grep
import Xv6.User.Printf
import Xv6.Fs.Bitmap
import Xv6.Fs.Fileread
import Xv6.Sched.Intr
import Xv6.User.Memmove
