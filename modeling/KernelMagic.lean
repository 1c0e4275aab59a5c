import KernelMagic.Lib.Machine
import KernelMagic.Lib.Bytes
import KernelMagic.Lib.Heap
import KernelMagic.Lib.Owned
import KernelMagic.Lib.IoRing
import KernelMagic.Lib.Chunks
import KernelMagic.Lib.Transfers
import KernelMagic.Lib.Arrival
import KernelMagic.Lib.History
import KernelMagic.Lib.Provenance
import KernelMagic.Lib.Access
import KernelMagic.Lib.Path
import KernelMagic.Ioctl
import KernelMagic.FileUring.Capacity
import KernelMagic.Ebpf.Payload
import KernelMagic.Ebpf.Bounds
import KernelMagic.Ebpf.Event
import KernelMagic.Ebpf.Drop
import KernelMagic.FileSize
import KernelMagic.FileUring2.CopyFile
import KernelMagic.FileUring2.Moves
import KernelMagic.FileUring2.Flight
import KernelMagic.FileUring2.Steps
import KernelMagic.FileUring2.Accounting
import KernelMagic.FileUring2.Copy
import KernelMagic.FileUring2.Progress
import KernelMagic.FileUring2.Submits
import KernelMagic.FileUring2.Work
import KernelMagic.FileUring2.Quiescence
import KernelMagic.FileUring2.FailedSubmit
import KernelMagic.Batch.Main
import KernelMagic.Batch.Moves
import KernelMagic.Batch.Sound
import KernelMagic.Batch.Counts
import KernelMagic.Batch.Separation
import KernelMagic.Batch.Provenance
import KernelMagic.Batch.Steps
import KernelMagic.Batch.Invariant
import KernelMagic.Batch.Copy
import KernelMagic.Batch.Progress
import KernelMagic.Normal
import KernelMagic.Agreement
import KernelMagic.FileUring.Main
import KernelMagic.FileUring.Invariant
import KernelMagic.FileUring.Order
import KernelMagic.Server.Main
import KernelMagic.Server.Steps
import KernelMagic.Server.Invariant
import KernelMagic.Server.Ownership
import KernelMagic.Server.Echo
import KernelMagic.Server.Isolation
import KernelMagic.Ebpf.Unlink
import KernelMagic.Ebpf.Http
import KernelMagic.Ebpf.Consumer
import KernelMagic.Socket.Main
import KernelMagic.Socket.Steps
import KernelMagic.Socket.Buffer
import KernelMagic.Socket.Closing
import KernelMagic.Socket.Isolation
import KernelMagic.Lib.Stdio
import KernelMagic.Socket.Uring
import KernelMagic.Socket.Confinement
import KernelMagic.Socket.Body
import KernelMagic.Socket.Descriptors
import KernelMagic.Socket.Dispatch
import KernelMagic.Lib.Standing
import KernelMagic.Lib.EventLoop
import KernelMagic.Server.Settling
import KernelMagic.Server.Delivery
import KernelMagic.Socket.Spinning
import KernelMagic.Server.Accepting
import KernelMagic.Server.Capacity
import KernelMagic.Socket.Accepting
import KernelMagic.Mqueue.Steps
import KernelMagic.Mqueue.Sender
import KernelMagic.Mqueue.Agreement
import KernelMagic.Mqueue.StartOrder
import KernelMagic.Mqueue.Input
import KernelMagic.Mqueue.Passed
import KernelMagic.Mqueue.Turns
import KernelMagic.Mqueue.Overrun
import KernelMagic.Lib.RingBuf
import KernelMagic.Ebpf.FetchStock
import KernelMagic.Ebpf.LsmControl
import KernelMagic.Lib.PerCpu
import KernelMagic.ForceRmmod
import KernelMagic.TimerList
import KernelMagic.Lib.CharDev
import KernelMagic.CharDevice.Main
import KernelMagic.CharDevice.Cleanup
import KernelMagic.Lib.Records
import KernelMagic.Inotify.Main
import KernelMagic.Inotify.Walk
import KernelMagic.Lib.Interleave
import KernelMagic.Lib.Deferred
import KernelMagic.Modules.Semaphore
import KernelMagic.Modules.Workqueue
import KernelMagic.Modules.Tasklet
import KernelMagic.Modules.Completion
import KernelMagic.Ebpf.Printed
import KernelMagic.Server.Client
import KernelMagic.Modules.Netdev
import KernelMagic.CharDevice.Io
import KernelMagic.Lib.Sparse
import KernelMagic.Destination
import KernelMagic.Inotify.Display
import KernelMagic.Ebpf.SendMsg
import KernelMagic.Aio
import KernelMagic.Lib.SeqFile
import KernelMagic.ProcQuery
import KernelMagic.Ebpf.UnlinkReport
import KernelMagic.FileUring2.Steady
