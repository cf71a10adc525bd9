import SoKernel.Lib.Dyadic
import SoKernel.Lib.Run
import SoKernel.Lib.Handoff
import SoKernel.Lib.Intervals
import SoKernel.Lib.Accounts
import SoKernel.Lib.Rotation
import SoKernel.Lib.Memory
import SoKernel.Lib.Allocator
import SoKernel.Lib.OnePlace
import SoKernel.Lib.HeapTrace
import SoKernel.Lib.Kept
import SoKernel.Lib.Linked
import SoKernel.Lib.Digits
import SoKernel.Lib.Arrays
import SoKernel.Lib.Lines
import SoKernel.Buddy.Model
import SoKernel.Buddy.Layout
import SoKernel.Buddy.Invariant
import SoKernel.Buddy.Theorems
import SoKernel.Buddy.DoubleFree
import SoKernel.Bitmap.Model
import SoKernel.Bitmap.Layout
import SoKernel.Bitmap.Theorems
import SoKernel.Kernel.Process
import SoKernel.Kernel.Pipe
import SoKernel.Kernel.Scheduler
import SoKernel.Kernel.Machine
import SoKernel.Kernel.Effect
import SoKernel.Kernel.Core
import SoKernel.Kernel.Functions
import SoKernel.Kernel.Waitpid
import SoKernel.Kernel.PipeTable
import SoKernel.Kernel.PipeCalls
import SoKernel.Kernel.Queues
import SoKernel.Kernel.ProcessInfo
import SoKernel.Kernel.Contexts
import SoKernel.Kernel.SemManager
import SoKernel.Kernel.SemQueues
import SoKernel.Kernel.Ledger
import SoKernel.Kernel.ClosedSems
import SoKernel.Kernel.Family
import SoKernel.Kernel.Children
import SoKernel.Kernel.Waiting
import SoKernel.Kernel.Channel
import SoKernel.Kernel.PipeFlow
import SoKernel.Kernel.PipeRuns
import SoKernel.Kernel.LosslessPipe
import SoKernel.Kernel.RoundRobin
import SoKernel.Kernel.Shares
import SoKernel.Kernel.Ghosts
import SoKernel.Kernel.Blocked
import SoKernel.Kernel.WaitChild
import SoKernel.Kernel.Timer
import SoKernel.Kernel.Keyboard
import SoKernel.Kernel.CtrlC
import SoKernel.Kernel.Keystroke
import SoKernel.Kernel.ClearedPipe
import SoKernel.Kernel.StackFrame
import SoKernel.Kernel.StackLayout
import SoKernel.Kernel.ShellPipe
import SoKernel.Kernel.Nodes
import SoKernel.Kernel.NodeMoves
import SoKernel.Kernel.NodeHeaps
import SoKernel.Kernel.LinkedQueue
import SoKernel.Kernel.TextModule
import SoKernel.Kernel.Modifiers
import SoKernel.Userland.Mvar
import SoKernel.Userland.Shell
import SoKernel.Userland.ShellTrace
import SoKernel.Userland.ShellHeap
import SoKernel.Userland.ShellDispatch
import SoKernel.Userland.ReadLine
import SoKernel.Userland.Stdlib
import SoKernel.Userland.Printf
import SoKernel.Userland.Arguments
import SoKernel.Userland.Streams
import SoKernel.Image.Model
import SoKernel.Image.Theorems
import SoKernel.Lib.Increments
import SoKernel.Lib.StackCode
import SoKernel.Kernel.Standing
import SoKernel.Kernel.BoundedWait
import SoKernel.Kernel.LockClients
import SoKernel.Kernel.Gate
import SoKernel.Kernel.FirstTurn
import SoKernel.Kernel.TimeSharing
import SoKernel.Userland.TestSync
import SoKernel.Lib.Raster
import SoKernel.Kernel.VideoDriver
import SoKernel.Kernel.Console
import SoKernel.Kernel.Terminal
import SoKernel.Buddy.Writes
import SoKernel.Kernel.HeapClients
import SoKernel.Userland.TestMm
