import Egos.Common.Wp
import Egos.Common.Lockstep
import Egos.Common.Reach
import Egos.Common.Interaction
import Egos.Common.Memory
import Egos.Common.Sv39
import Egos.Common.Riscv
import Egos.Common.Fields
import Egos.Common.CString
import Egos.Common.AddressSpaces
import Egos.File.Block
import Egos.File.Inode
import Egos.File.Treedisk
import Egos.File.FreeList
import Egos.File.Layout
import Egos.File.FileMap
import Egos.File.TreediskRead
import Egos.File.TreediskWrite
import Egos.File.TreediskCreate
import Egos.File.FreeListDrain
import Egos.File.TreediskRuns
import Egos.File.Ownership
import Egos.File.IndirectBlocks
import Egos.File.Sizes
import Egos.File.Stacked
import Egos.File.OutOfSpace
import Egos.File.Failures
import Egos.File.FailStop
import Egos.File.CreateRetry
import Egos.Grass.Process
import Egos.Grass.Kernel
import Egos.Grass.Table
import Egos.Grass.Outcomes
import Egos.Grass.Schedule
import Egos.Grass.DeadWait
import Egos.Grass.Mail
import Egos.Grass.Messaging
import Egos.Grass.Kills
import Egos.Grass.Started
import Egos.Grass.Faults
import Egos.Grass.RoundRobin
import Egos.Earth.TrapEntry
import Egos.Earth.Tty
import Egos.Grass.Privilege
import Egos.Earth.Mmu
import Egos.Earth.SoftTlb
import Egos.Earth.WindowMemory
import Egos.Earth.PageTable
import Egos.Earth.PageTableOps
import Egos.Earth.FreeFrames
import Egos.Earth.FreshSpace
import Egos.Earth.Isolation
import Egos.Grass.SyscallArea
import Egos.Grass.ContextSwitch
import Egos.Grass.MemoryKernel
import Egos.Grass.MemoryRefinement
import Egos.Grass.MemoryRuns
import Egos.Grass.Contexts
import Egos.Library.Elf
import Egos.Library.Accounting
import Egos.Library.Loading
import Egos.Earth.TableMemory
import Egos.Grass.MemoryModes
import Egos.Library.LoadApp
import Egos.Library.LoadOps
import Egos.Library.LoadDraft
import Egos.Library.ProgramLoading
import Egos.Library.LoadGrass
import Egos.Library.PageLoader
import Egos.Library.LoaderModes
import Egos.Grass.KeptMemory
import Egos.Grass.Launch
import Egos.Grass.SlotOrder
import Egos.Grass.Spawn
import Egos.Grass.Boot
import Egos.Library.Residue
import Egos.Apps.Servers
import Egos.Apps.Directory
import Egos.Apps.CommandLine
import Egos.Apps.Cd
import Egos.Apps.System
import Egos.Apps.Evaluation
import Egos.Apps.Pairing
import Egos.Apps.Party
import Egos.Apps.Parties
import Egos.Apps.Lifecycle
import Egos.Apps.Replies
import Egos.Apps.Conduct
import Egos.Apps.Conversation
import Egos.Apps.ShellProtocol
import Egos.Apps.Launching
import Egos.Apps.Agreement
import Egos.Earth.Disk
import Egos.Apps.ReadErrors
import Egos.File.Append
import Egos.Tools.Mkfs
import Egos.Tools.DiskImage
import Egos.Tools.BootImage
import Egos.Tools.Commands
import Egos.Apps.AppEnter
