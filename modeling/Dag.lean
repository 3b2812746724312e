import Dag.Foundation.Run
import Dag.Foundation.Signed
import Dag.Foundation.Census
import Dag.Foundation.Table
import Dag.Foundation.Locks
import Dag.Foundation.Ownership
import Dag.ByteArray.Runs
import Dag.ByteArray.Flat
import Dag.ByteArray.Readers
import Dag.ByteArray.RoundTrip
import Dag.ByteArray.Lengths
import Dag.ByteArray.Strings
import Dag.ByteArray.Framing
import Dag.ByteArray.Truncated
import Dag.ByteArray.Resize
import Dag.ByteArray.Gather
import Dag.ByteArray.Positional
import Dag.ByteArray.Contents
import Dag.ByteArray.Hex
import Dag.ByteArray.Zigzag
import Dag.ByteArray.Varint
import Dag.Stream.Transfer
import Dag.Stream.Results
import Dag.Logger.Formatter
import Dag.Logger.Pattern
import Dag.Logger.Directives
import Dag.Logger.FileAppender
import Dag.Logger.Stdout
import Dag.Logger.Manager
import Dag.Fiber.Switch
import Dag.Fiber.Modes
import Dag.Fiber.Steps
import Dag.Fiber.Discipline
import Dag.Fiber.Pointers
import Dag.Fiber.Lifetime
import Dag.Thread.Semaphore
import Dag.Timer.Manager
import Dag.Timer.Kept
import Dag.Timer.Linked
import Dag.Timer.Members
import Dag.Timer.Expiry
import Dag.Timer.Calls
import Dag.Timer.Returns
import Dag.Timer.Holders
import Dag.Timer.Clock
import Dag.Timer.Reset
import Dag.Scheduler.Tasks
import Dag.Scheduler.Conservation
import Dag.Scheduler.Shutdown
import Dag.Scheduler.Order
import Dag.Scheduler.Stop
import Dag.IOManager.Wakeup
import Dag.IOManager.LostWakeup
import Dag.IOManager.TimerWakeup
import Dag.IOManager.LostTimer
import Dag.IOManager.Stopping
import Dag.IOManager.Events
import Dag.IOManager.Outcomes
import Dag.IOManager.Registration
import Dag.IOManager.Dispatch
import Dag.IOManager.Waiters
import Dag.IOManager.Descriptor
import Dag.IOManager.ContextTable
import Dag.IOManager.Removal
import Dag.IOManager.WorkerExit
import Dag.FdManager.Get
import Dag.FdManager.Map
import Dag.Hook.DoIo
import Dag.Hook.CallSteps
import Dag.Hook.Timeout
import Dag.Hook.Close
import Dag.Hook.Recycle
import Dag.Hook.Sleep
import Dag.Hook.Sleepers
import Dag.Hook.Punctual
import Dag.Hook.SockOpt
import Dag.Hook.Fcntl
import Dag.Hook.Connect
import Dag.Hook.Outcome
import Dag.Address.IPv4
import Dag.Address.Lookup
import Dag.Address.Text
import Dag.Address.Order
import Dag.Address.Interfaces
import Dag.Socket.Addresses
import Dag.Socket.Descriptors
import Dag.Socket.Contexts
import Dag.Socket.Timeouts
import Dag.TcpServer.Accept
