import EvalynOS.Lib.Word
import EvalynOS.Lib.SearchTree
import EvalynOS.Lib.Spans
import EvalynOS.Memory.Vma
import EvalynOS.Memory.VmaTiling
import EvalynOS.Memory.VmaFixed
import EvalynOS.Lib.Links
import EvalynOS.Scheduler.Scheduler
import EvalynOS.Scheduler.Ring
import EvalynOS.Scheduler.Runs
import EvalynOS.Scheduler.Conservation
import EvalynOS.Scheduler.Eligibility
import EvalynOS.Utils.SafeUserFuncs
import EvalynOS.Lib.Memory
import EvalynOS.Memory.Pmm
import EvalynOS.Memory.PmmPages
import EvalynOS.Memory.PmmInvariant
import EvalynOS.Memory.PmmRuns
import EvalynOS.Lib.Radix
import EvalynOS.Memory.Vmm
import EvalynOS.Memory.VmmTree
import EvalynOS.Memory.VmmRuns
import EvalynOS.Memory.Heap
import EvalynOS.Memory.HeapInvariant
import EvalynOS.Memory.HeapOps
import EvalynOS.Memory.HeapRuns
import EvalynOS.Memory.VmmFresh
import EvalynOS.Process.AddressSpace
import EvalynOS.Process.Elf
import EvalynOS.Process.Reserved
import EvalynOS.Process.Runs
import EvalynOS.Libc.Stdlib
import EvalynOS.Libc.Malloc
import EvalynOS.Libc.Boot
import EvalynOS.Libc.PageMalloc
import EvalynOS.Libc.Contract
import EvalynOS.Libc.Frames
import EvalynOS.Libc.Unmap
import EvalynOS.Libc.Blocks
import EvalynOS.Libc.BlockMalloc
import EvalynOS.Libc.BlockFree
import EvalynOS.Libc.Restore
import EvalynOS.Scheduler.Reaping
import EvalynOS.Interupts.Irql
import EvalynOS.Filesystem.Tarfs
import EvalynOS.Filesystem.Ustar
import EvalynOS.Filesystem.Lookup
import EvalynOS.Syscalls.Files
import EvalynOS.Memory.VmmKernel
import EvalynOS.Memory.VmmSetup
import EvalynOS.Memory.VmmDelete
import EvalynOS.Memory.VmmUser
import EvalynOS.Process.Coherence
import EvalynOS.Process.Contained
import EvalynOS.Process.Image
import EvalynOS.Process.Teardown
import EvalynOS.Memory.VmaFree
import EvalynOS.Drivers.DrX
import EvalynOS.Drivers.Keyboard
import EvalynOS.Syscalls.Stdin
import EvalynOS.Process.Mmap
import EvalynOS.Memory.VmmFrames
import EvalynOS.Process.Deletion
import EvalynOS.Libc.Ledger
import EvalynOS.Process.Lifetime
import EvalynOS.Libc.Strings
import EvalynOS.Drivers.Dbgstub
import EvalynOS.Drivers.DbgstubFraming
import EvalynOS.Drivers.DbgstubCommands
import EvalynOS.Drivers.DbgstubHistory
import EvalynOS.Drivers.DbgstubSize
import EvalynOS.Drivers.DbgstubRegisters
import EvalynOS.Drivers.DbgstubMemory
import EvalynOS.Filesystem.Progress
import EvalynOS.Syscalls.Seek
import EvalynOS.Syscalls.UserBuffer
import EvalynOS.Memory.PmmUnmanaged
import EvalynOS.Filesystem.PathCopies
import EvalynOS.Acpi.Madt
import EvalynOS.Lib.Polling
import EvalynOS.Acpi.AcpiTimer
import EvalynOS.Drivers.Pit
import EvalynOS.Drivers.Ioapic
import EvalynOS.Lib.Results
import EvalynOS.Memory.VmmSizes
import EvalynOS.Process.Alignment
import EvalynOS.Memory.PmmSetup
import EvalynOS.Memory.PmmLookup
import EvalynOS.Memory.VmmWalk
import EvalynOS.Memory.VmmDirect
import EvalynOS.Memory.VmmCoverage
import EvalynOS.Acpi.Entries
import EvalynOS.Acpi.Topology
import EvalynOS.Acpi.Nodes
import EvalynOS.Acpi.Recovery
import EvalynOS.Libc.Numbers
import EvalynOS.Syscalls.LineEdit
import EvalynOS.Drivers.Serial
import EvalynOS.Utils.Cmdline
import EvalynOS.Process.SegmentCopy
import EvalynOS.Process.Isolation
import EvalynOS.Scheduler.Fairness
import EvalynOS.Kgz.Bitstream
import EvalynOS.Kgz.Huffman
import EvalynOS.Kgz.HuffmanCreate
import EvalynOS.Kgz.HuffmanLookup
import EvalynOS.Kgz.Inflate
import EvalynOS.Kgz.InflateTokens
