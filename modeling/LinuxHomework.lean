import LinuxHomework.Lib.Runs
import LinuxHomework.Event.Fifo
import LinuxHomework.Event.Interleave
import LinuxHomework.Lib.Memory
import LinuxHomework.Lib.Outcome
import LinuxHomework.Lib.Potential
import LinuxHomework.Scull.Device
import LinuxHomework.Scull.Layout
import LinuxHomework.Scull.Calls
import LinuxHomework.Scull.Store
import LinuxHomework.Scull.Tree
import LinuxHomework.Scull.Copy
import LinuxHomework.Scull.Offset
import LinuxHomework.Scull.Trim
import LinuxHomework.Scull.Inside
import LinuxHomework.Scull.Reveal
import LinuxHomework.Scull.Growth
import LinuxHomework.Scull.Progress
import LinuxHomework.Scull.Holes
import LinuxHomework.Scull.Failure
import LinuxHomework.Lib.Ring
import LinuxHomework.Pipe.Device
import LinuxHomework.Pipe.System
import LinuxHomework.Pipe.Cells
import LinuxHomework.Pipe.Handles
import LinuxHomework.Pipe.Delivery
import LinuxHomework.Pipe.Queue
import LinuxHomework.Lib.Sleepers
import LinuxHomework.Pipe.Wakeup
import LinuxHomework.Pipe.Mutex
import LinuxHomework.Pipe.Lifetime
import LinuxHomework.Pipe.Failure
import LinuxHomework.Event.Contents
import LinuxHomework.Event.Numbers
import LinuxHomework.Event.Table
import LinuxHomework.Event.Freed
import LinuxHomework.Event.Original
import LinuxHomework.Event.Versions
import LinuxHomework.Event.FirstVersion
import LinuxHomework.Event.Waiters
import LinuxHomework.Event.ZeroValue
import LinuxHomework.Lib.Split
import LinuxHomework.Lib.Scanner
import LinuxHomework.Shell.Commands
import LinuxHomework.Shell.Parse
import LinuxHomework.Shell.Calls
import LinuxHomework.Shell.Descriptors
import LinuxHomework.Lib.Buffer
import LinuxHomework.Shell.Lexer
import LinuxHomework.Shell.Expand
import LinuxHomework.Shell.Tokens
import LinuxHomework.Shell.Main
import LinuxHomework.Shell.Malformed
import LinuxHomework.Shell.Syntax
import LinuxHomework.Shell.Wiring
import LinuxHomework.Shell.Launches
import LinuxHomework.Shell.Deadlock
import LinuxHomework.Timer.Interrupts
import LinuxHomework.Timer.Elapsed
import LinuxHomework.Proc.Report
import LinuxHomework.Lib.Blocks
import LinuxHomework.Shell.Ownership
import LinuxHomework.Shell.Scan
import LinuxHomework.Shell.Leaks
import LinuxHomework.Proc.Value
import LinuxHomework.Proc.LoopsPerJiffy
import LinuxHomework.Lib.Decimal
import LinuxHomework.Lib.Loops
import LinuxHomework.Observer.Sampling
import LinuxHomework.Syscall.Table
import LinuxHomework.Scull.Follow
import LinuxHomework.Lib.Pieces
import LinuxHomework.Msh.Lexer
import LinuxHomework.Msh.Commands
import LinuxHomework.Msh.Parse
import LinuxHomework.Msh.Expand
import LinuxHomework.Msh.Session
import LinuxHomework.Lib.OpenFiles
import LinuxHomework.Msh.Descriptors
import LinuxHomework.Msh.Programs
import LinuxHomework.Timer.Ticks
import LinuxHomework.Lib.CharDevices
import LinuxHomework.Pipe.Driver
import LinuxHomework.Proc.Entries
import LinuxHomework.Shell.Session
import LinuxHomework.Pipe.Progress
import LinuxHomework.Lib.Critical
import LinuxHomework.Scull.Interleave
