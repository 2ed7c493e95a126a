import GQuuuuuunix.Kernel.Types
import GQuuuuuunix.Lib.Run
import GQuuuuuunix.Kernel.Interrupts
import GQuuuuuunix.Kernel.Main
import GQuuuuuunix.Kernel.Machine
import GQuuuuuunix.Proof.Ghost
import GQuuuuuunix.Proof.Logic
import GQuuuuuunix.Proof.Compiled
import GQuuuuuunix.Proof.Locks
import GQuuuuuunix.Proof.Scheduler
import GQuuuuuunix.Proof.Trap
import GQuuuuuunix.Proof.Assembly
import GQuuuuuunix.Proof.Boot
import GQuuuuuunix.Proof.Consistent
import GQuuuuuunix.Proof.Steps
import GQuuuuuunix.Proof.Execution
import GQuuuuuunix.Proof.Invariant
import GQuuuuuunix.Proof.Preserve
import GQuuuuuunix.Proof.TableSteps
import GQuuuuuunix.Proof.SimpleStep
import GQuuuuuunix.Proof.Switch
import GQuuuuuunix.Proof.Adequacy
import GQuuuuuunix.Properties.SingleRunner
import GQuuuuuunix.Kernel.Start
import GQuuuuuunix.Proof.Codes
import GQuuuuuunix.Properties.Preemption
import GQuuuuuunix.Properties.LockOwner
import GQuuuuuunix.Properties.NoPanic
import GQuuuuuunix.Properties.TaskTable
import GQuuuuuunix.Lib.RoundRobin
import GQuuuuuunix.Properties.BoundedBypass
import GQuuuuuunix.Properties.BootBarrier
import GQuuuuuunix.Proof.Ticks
import GQuuuuuunix.Properties.Ticks
import GQuuuuuunix.Properties.Acknowledge
import GQuuuuuunix.Kernel.LockCalls
import GQuuuuuunix.Proof.LockCalls
import GQuuuuuunix.Proof.LockTable
import GQuuuuuunix.Properties.LockSafety
import GQuuuuuunix.Lib.ByteMem
import GQuuuuuunix.Kernel.Memcpy
import GQuuuuuunix.Properties.Memcpy
import GQuuuuuunix.Kernel.Console
import GQuuuuuunix.Kernel.HelloWorld
import GQuuuuuunix.Proof.Console
import GQuuuuuunix.Properties.FormatReads
import GQuuuuuunix.Kernel.TaskCalls
import GQuuuuuunix.Proof.TaskCalls
import GQuuuuuunix.Properties.TaskStacks
import GQuuuuuunix.Properties.LiveTasks
import GQuuuuuunix.Kernel.AtomicCalls
import GQuuuuuunix.Proof.AtomicCalls
import GQuuuuuunix.Proof.Objects
import GQuuuuuunix.Properties.AtomicCounters
import GQuuuuuunix.Properties.AtomicLoad
import GQuuuuuunix.Kernel.Clients
import GQuuuuuunix.Proof.Clients
import GQuuuuuunix.Proof.Reservations
import GQuuuuuunix.Properties.CmpXchg
import GQuuuuuunix.Lib.Decimal
import GQuuuuuunix.Proof.Numerals
import GQuuuuuunix.Proof.Formats
import GQuuuuuunix.Properties.Printf
import GQuuuuuunix.Lib.Hex
import GQuuuuuunix.Properties.Hex
import GQuuuuuunix.Properties.HelloWorld
import GQuuuuuunix.Properties.Width
import GQuuuuuunix.Properties.MemcpyWords
import GQuuuuuunix.Kernel.Sections
import GQuuuuuunix.Proof.Sections
import GQuuuuuunix.Properties.Sections
import GQuuuuuunix.Kernel.TimerInterrupt
import GQuuuuuunix.Proof.TimerInterrupt
import GQuuuuuunix.Properties.TimerInterrupt
import GQuuuuuunix.Proof.Clock
import GQuuuuuunix.Properties.Clock
import GQuuuuuunix.Lib.FixedPoint
import GQuuuuuunix.Properties.FixedPoint
import GQuuuuuunix.Kernel.MachineMode
import GQuuuuuunix.Properties.Handover
import GQuuuuuunix.Proof.Reads
import GQuuuuuunix.Proof.Alone
import GQuuuuuunix.Properties.Timestamp
import GQuuuuuunix.Kernel.SchedChecks
import GQuuuuuunix.Proof.SchedChecks
import GQuuuuuunix.Proof.SchedSteps
import GQuuuuuunix.Properties.SchedChecks
import GQuuuuuunix.Lib.Reach
import GQuuuuuunix.Proof.Drain
import GQuuuuuunix.Properties.Progress
import GQuuuuuunix.Properties.TickClock
import GQuuuuuunix.Proof.Programs
import GQuuuuuunix.Proof.KernelText
import GQuuuuuunix.Lib.Simulation
import GQuuuuuunix.Lib.Linear
import GQuuuuuunix.Kernel.AtomicObjects
import GQuuuuuunix.Proof.Linear
import GQuuuuuunix.Properties.Linearizable
import GQuuuuuunix.Kernel.Coroutines
import GQuuuuuunix.Proof.Coroutines
import GQuuuuuunix.Properties.Coroutines
import GQuuuuuunix.Lib.Pool
import GQuuuuuunix.Properties.Pool
import GQuuuuuunix.Lib.Locality
import GQuuuuuunix.Kernel.PowerOn
import GQuuuuuunix.Proof.Overlay
import GQuuuuuunix.Properties.Arrival
import GQuuuuuunix.Properties.PowerOn
