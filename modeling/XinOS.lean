import XinOS.Platform
import XinOS.Foundation.Transition
import XinOS.Foundation.Memory
import XinOS.Foundation.Machine
import XinOS.Foundation.Intervals
import XinOS.Foundation.LinkedList
import XinOS.Foundation.Unlinking
import XinOS.Foundation.Linking
import XinOS.Foundation.Ageing
import XinOS.Foundation.Flags
import XinOS.Page.Layout
import XinOS.Page.Memcpy
import XinOS.Page.Table
import XinOS.Page.Runs
import XinOS.Page.ExactFit
import XinOS.Page.Refinement
import XinOS.Page.Block
import XinOS.Page.BlockRuns
import XinOS.Page.Geometry
import XinOS.Page.Malloc
import XinOS.Page.Ledger
import XinOS.Page.Grants
import XinOS.Page.Unallocated
import XinOS.Page.MallocStep
import XinOS.Page.BlockFree
import XinOS.Page.FreeStep
import XinOS.Page.HeapSafety
import XinOS.Page.Metadata
import XinOS.Page.ObjectHeap
import XinOS.Page.TableSound
import XinOS.Page.Programs
import XinOS.Page.Requests
import XinOS.Page.TailFree
import XinOS.Page.Touched
import XinOS.Page.Marked
import XinOS.Page.Contained
import XinOS.Kernel.State
import XinOS.Kernel.Tasks
import XinOS.Kernel.TaskList
import XinOS.Kernel.TaskSteps
import XinOS.Kernel.Scheduler
import XinOS.Kernel.Stacks
import XinOS.Kernel.Waiting
import XinOS.Kernel.Timers
import XinOS.Kernel.TimerList
import XinOS.Kernel.TimerSteps
import XinOS.Kernel.Dangling
import XinOS.Kernel.Deletion
import XinOS.Kernel.TimerOrder
import XinOS.Kernel.Sleep
import XinOS.Kernel.Hart
import XinOS.Kernel.WakeUp
import XinOS.Kernel.Image
import XinOS.Kernel.OutOfMemory
import XinOS.Kernel.Objects
import XinOS.Kernel.DueTimers
import XinOS.Kernel.Slices
import XinOS.Kernel.Lock
import XinOS.Kernel.Insertion
import XinOS.Kernel.LostTimers
import XinOS.Trap.Entry
import XinOS.Trap.Context
import XinOS.Trap.Handler
import XinOS.Trap.Transparency
import XinOS.Kernel.Recycled
import XinOS.Kernel.Naps
import XinOS.Printf.Format
import XinOS.Printf.Digits
import XinOS.Printf.Buffer
import XinOS.Printf.Pieces
import XinOS.Printf.Bounds
import XinOS.Printf.Numbers
import XinOS.Printf.Sequence
import XinOS.Kernel.Uptime
import XinOS.Page.ObjectSteps
import XinOS.Kernel.ImageSteps
import XinOS.Kernel.Depicted
import XinOS.Kernel.Tracking
import XinOS.Kernel.Saving
import XinOS.Kernel.Simulation
import XinOS.Kernel.MemoryRuns
import XinOS.Kernel.Resumption
import XinOS.Kernel.Clock
import XinOS.Console.Uart
import XinOS.Console.Plic
import XinOS.Console.OutBuf
import XinOS.Console.Interrupt
import XinOS.Console.Losses
import XinOS.Console.Echo
import XinOS.Console.Printing
import XinOS.Console.Progress
