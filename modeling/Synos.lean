import Synos.Data.Machine
import Synos.Data.Word
import Synos.Data.Bytes
import Synos.Data.Walk
import Synos.Data.Dyadic
import Synos.Data.FreeSlots
import Synos.Page.Region
import Synos.Page.Split
import Synos.Page.Alloc
import Synos.Page.Partition
import Synos.Page.Free
import Synos.Page.Return
import Synos.Page.Calls
import Synos.Page.CallRun
import Synos.Page.Fresh
import Synos.Page.Descent
import Synos.Page.Confined
import Synos.Page.ProtectRun
import Synos.Page.Init
import Synos.Page.Account
import Synos.Page.Balance
import Synos.Page.Reach
import Synos.Page.Reserved
import Synos.Page.Ledger
import Synos.Page.Cursor
import Synos.Page.Spare
import Synos.Page.SpareRun
import Synos.Page.Layout
import Synos.Paging.Recursive
import Synos.Paging.Map
import Synos.Paging.Tree
import Synos.Paging.MapPage
import Synos.Paging.Present
import Synos.Paging.Boot
import Synos.Paging.Leaf
import Synos.Paging.Vpage
import Synos.Printk.Print
import Synos.Printk.Canvas
import Synos.Mm.Heap
import Synos.Mm.Tiling
import Synos.Mm.Serve
import Synos.Mm.Grow
import Synos.Mm.Merge
import Synos.Mm.Wipe
import Synos.Mm.Release
import Synos.Mm.HeapRun
import Synos.Paging.Rights
import Synos.Paging.PageInfo
import Synos.Data.Endian
import Synos.Data.Traced
import Synos.Elf.Format
import Synos.Elf.Header
import Synos.Mm.Bump
import Synos.Paging.FirstFit
import Synos.Elf.HeaderDecode
import Synos.Elf.Section
import Synos.Elf.Program
import Synos.Elf.Loads
import Synos.Elf.Bounds
import Synos.Cmos.Clock
import Synos.Cmos.Rtc
import Synos.Boot.Trace
import Synos.Boot.TabSearch
import Synos.Boot.Multiboot
import Synos.Boot.RegionMap
import Synos.Data.Block
import Synos.Mutils.Array
import Synos.Mutils.ArrayRun
import Synos.Mutils.String
import Synos.Mutils.Digits
import Synos.Printk.Format
import Synos.Printk.FormatExact
import Synos.Data.Priority
import Synos.Interrupts.Pic
import Synos.Interrupts.Acknowledge
import Synos.Data.Assoc
import Synos.Kernel.Syscall
import Synos.Data.Numeral
import Synos.Mutils.Buffer
import Synos.Mutils.Hexadecimal
import Synos.Mutils.Tostring
import Synos.Data.Climb
import Synos.Page.Coalesce
import Synos.Mm.Coalesce
import Synos.Data.Lock
import Synos.Page.Processors
import Synos.Page.Parted
import Synos.Data.Cpu
import Synos.Interrupts.Isr
import Synos.Data.Preempt
import Synos.Interrupts.Resume
import Synos.Interrupts.Idt
import Synos.Interrupts.Devices
import Synos.Interrupts.Init
import Synos.Interrupts.Routing
import Synos.Interrupts.Delivery
import Synos.Kernel.Pages
import Synos.Kernel.PageRun
import Synos.Kernel.PageBoot
import Synos.Page.Answers
import Synos.Kernel.PageIsolation
import Synos.Boot.InitTables
import Synos.Printk.Log
import Synos.Page.Bounded
import Synos.Page.BoundedRun
import Synos.Boot.Ram
import Synos.Page.Bits
import Synos.Kernel.Panic
import Synos.Stored.Region
import Synos.Stored.Represent
import Synos.Stored.Keeps
import Synos.Stored.Split
import Synos.Stored.Calls
import Synos.Stored.Fresh
import Synos.Stored.Reserve
import Synos.Stored.CallRun
import Synos.Stored.Ledger
import Synos.Stored.Protect
import Synos.Stored.Processors
import Synos.Stored.System
import Synos.Stored.Init
import Synos.Stored.SpareRun
import Synos.Stored.Answers
import Synos.Stored.Ranges
import Synos.Kernel.VpagesMap
import Synos.Stored.Within
