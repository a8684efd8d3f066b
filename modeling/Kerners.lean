import Kerners.Block.RamDisk
import Kerners.Fat32.LongNames
import Kerners.Fat32.NoSpace
import Kerners.Fat32.Independence
import Kerners.Fat32.Unlink
import Kerners.Mm.Search
import Kerners.Module.Placement
import Kerners.Module.RelocAarch64
import Kerners.Module.RelocRiscv
import Kerners.Module.RefCount
import Kerners.Proc.RoundRobin
import Kerners.Proc.Switch
import Kerners.Proc.Preempt
import Kerners.Arch.Clint
import Kerners.Arch.Uart
import Kerners.Arch.Gic
import Kerners.Fs.Resolve
import Kerners.Fs.MountReach
import Kerners.Fs.BlockNode
import Kerners.Fs.FdTable
import Kerners.Fs.Append
import Kerners.Virtio.ChainShape
import Kerners.Virtio.Rings
import Kerners.Virtio.Irq
import Kerners.Block.VirtioBlk
import Kerners.Block.Completion
import Kerners.Dtb.Regs
import Kerners.Sync.Spinlock
import Kerners.Sync.RwLock
import Kerners.Sync.SeqLock
import Kerners.Sync.Clock
import Kerners.Sync.Srcu
import Kerners.Sync.Rcu
import Kerners.Sync.ResourcePool
import Kerners.Ipc.Clearing
import Kerners.Ipc.Registry
import Kerners.Log.Buffer
import Kerners.Arch.RamMap
import Kerners.Sync.TicketLock
import Kerners.Sync.RcuUpdate
import Kerners.Log.Format
import Kerners.Module.Symbol
