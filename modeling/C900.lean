import C900.Mmu.Translate
import C900.Mmu.Cache
import C900.Bus.Memory
import C900.Bus.Disk
import C900.Bus.Transfer
import C900.Bus.Durable
import C900.Logic.Buffer
import C900.Fs.Alloc
import C900.Fs.Superblock
import C900.Fs.InodeFields
import C900.Fs.FreeList
import C900.Fs.Pool
import C900.Fs.Check
import C900.Fs.Rebuild
import C900.Bus.Clock
import C900.Bus.Io
import C900.Cpu.Alu
import C900.Cpu.Decode
import C900.Cpu.Access
import C900.Cpu.Execute
import C900.Cpu.Divide
import C900.Cpu.Step
import C900.Mmu.Mapping
import C900.Cpu.Control
import C900.Cpu.Program
import C900.Cpu.Privilege
import C900.Cpu.Element
import C900.Cpu.Repeat
import C900.Cpu.Endless
import C900.Fs.File
import C900.Fs.Repair
import C900.Cpu.Address
import C900.Cpu.Stacks
import C900.Bus.Marks
import C900.Logic.History
import C900.Bus.Wire
import C900.Bus.Calendar
import C900.Cpu.Return
import C900.Cpu.Fetch
import C900.Cpu.Latch
import C900.Cpu.Report
import C900.Logic.Sampled
import C900.Run.Loop
import C900.Run.Vectored
import C900.Mmu.Violation
import C900.Bus.Divider
import C900.Logic.Purge
import C900.Logic.Packing
import C900.Run.Chips
import C900.Uexec.Lout
import C900.Uexec.Layout
import C900.Uexec.Capacity
import C900.Uexec.Files
import C900.Cpu.Halt
import C900.Logic.Budget
import C900.Uexec.Exit
import C900.Fs.CopyOut
import C900.Fs.Confined
import C900.Cpu.Calls
import C900.Cpu.Leftover
import C900.Cpu.Unread
import C900.Cpu.Perform
import C900.Cpu.Pointers
import C900.Cpu.Encode
import C900.Cpu.LoadAddress
import C900.Cpu.StackOperand
import C900.Cpu.Restart
import C900.Cpu.Segment
import C900.Cpu.InternalPc
import C900.Cpu.StackForms
import C900.Mmu.Inhibit
import C900.Run.Inhibited
import C900.Logic.Strings
import C900.Uexec.Frame
import C900.Logic.Adder
import C900.Cpu.Arithmetic
import C900.Cpu.Conditions
import C900.Cpu.Decimal
import C900.Bus.Words
import C900.Cpu.ControlRegisters
import C900.Cpu.Quotient
import C900.Cpu.Shifts
import C900.Bus.MarkEnd
import C900.Logic.Halts
import C900.Run.Park
import C900.Mmu.Pointers
import C900.Uexec.UserRange
import C900.Uexec.Break
import C900.Logic.PointerTree
import C900.Fs.BlockMap
import C900.Fs.BlockVisits
import C900.Fs.Accounting
import C900.Logic.Raising
import C900.Fs.Writer
import C900.Fs.Agreement
import C900.Fs.CopyEnds
import C900.Logic.TreePruning
import C900.Fs.Prune
import C900.Fs.Shrink
import C900.Fs.Stock
import C900.Fs.Grow
import C900.Fs.Holes
import C900.Fs.InodeTable
import C900.Fs.Contents
import C900.Fs.Consistent
import C900.Fs.Overwrite
import C900.Fs.Create
import C900.Fs.Directory
import C900.Fs.Locate
import C900.Fs.AddEntry
import C900.Fs.InodeCache
import C900.Fs.Abandoned
import C900.Fs.CallLog
import C900.Fs.CreateEnds
import C900.Fs.InodeRuns
import C900.Fs.CreateUndo
import C900.Fs.NewInode
import C900.Fs.Creating
import C900.Logic.FileTree
import C900.Logic.FileNames
import C900.Fs.FileTable
import C900.Fs.Audit
import C900.Fs.TreeRuns
import C900.Fs.Partitions
import C900.Logic.Guarded
import C900.Fs.Insert
import C900.Fs.MethodCalls
import C900.Fs.Shapes
import C900.Fs.Inserting
import C900.Fs.CopyingIn
import C900.Fs.HostTree
import C900.Fs.RoundTrip
import C900.Logic.Grafting
import C900.Cpu.Isolation
import C900.Cpu.Record
import C900.Cpu.Refetch
import C900.Run.Isolation
