import AcrnUt.Chain
import AcrnUt.Page
import AcrnUt.PageAlloc
import AcrnUt.PagePool
import AcrnUt.RadixTree
import AcrnUt.PageTable
import AcrnUt.X86Vm
import AcrnUt.Ept
import AcrnUt.PhysAlloc
import AcrnUt.Bytes
import AcrnUt.Heap
import AcrnUt.Vmalloc
import AcrnUt.VmRun
import AcrnUt.AllocFailure
import AcrnUt.VmEntry
import AcrnUt.Exchange
import AcrnUt.GuestRegs
import AcrnUt.Virtqueue
import AcrnUt.VirtqueueRun
import AcrnUt.VirtqueuePoll
import AcrnUt.VirtqueueAlloc
import AcrnUt.ArmSmp
import AcrnUt.X86Smp
import AcrnUt.Seqlock
import AcrnUt.Pvclock
import AcrnUt.HypervClock
import AcrnUt.BitField
import AcrnUt.VtdDma
import AcrnUt.VtdIrq
import AcrnUt.ArmMmu
import AcrnUt.ArmTables
import AcrnUt.ArmMmuRun
import AcrnUt.ArmRange
import AcrnUt.Pci
import AcrnUt.PciBar
import AcrnUt.Packing
import AcrnUt.CLayout
import AcrnUt.PciProbe
import AcrnUt.PciWindows
import AcrnUt.PhysRequest
import AcrnUt.PhysLog
import AcrnUt.HeapBlock
import AcrnUt.X86Lookup
import AcrnUt.MmuRange
import AcrnUt.EptAccess
import AcrnUt.EptSplit
import AcrnUt.EptAd
import AcrnUt.EptRange
import AcrnUt.PageScan
import AcrnUt.PageSmp
import AcrnUt.VpageSmp
import AcrnUt.MemSlot
import AcrnUt.Getenv
import AcrnUt.SetupEnv
import AcrnUt.S390Mmu
import AcrnUt.S390Tables
import AcrnUt.S390Space
import AcrnUt.S390Protect
import AcrnUt.PciSpace
import AcrnUt.PciTranslate
import AcrnUt.Ioremap
import AcrnUt.Glob
import AcrnUt.Digits
import AcrnUt.Printf
import AcrnUt.PrintfFlags
import AcrnUt.PrintfInt
import AcrnUt.Argv
import AcrnUt.Vmcs
import AcrnUt.VmxCtls
import AcrnUt.VmxRestore
import AcrnUt.ClockMath
import AcrnUt.CpuMask
import AcrnUt.GicIpi
import AcrnUt.Acyclic
import AcrnUt.ArmDeadlock
import AcrnUt.MaskedSucc
import AcrnUt.AccessBump
import AcrnUt.FieldSums
import AcrnUt.DirtyLog
import AcrnUt.ReportPrefix
import AcrnUt.Sections
import AcrnUt.Unittests
import AcrnUt.ErrataEnv
import AcrnUt.DepthWalk
import AcrnUt.Fdt
import AcrnUt.DtReg
import AcrnUt.DtMemory
import AcrnUt.DtCpus
import AcrnUt.WordStack
import AcrnUt.IsrThunk
import AcrnUt.PtReach
import AcrnUt.SvmNpt
import AcrnUt.PageOrder
import AcrnUt.VringLayout
import AcrnUt.PciConf1
import AcrnUt.LockSections
import AcrnUt.Spinlock
import AcrnUt.SpinlockTest
import AcrnUt.ReportSmp
import AcrnUt.RunVerdict
import AcrnUt.X86Paging
import AcrnUt.AccessCheck
import AcrnUt.AccessTables
import AcrnUt.ByteMem
import AcrnUt.FdtStruct
import AcrnUt.FdtNodes
import AcrnUt.FdtRead
import AcrnUt.FdtLookup
import AcrnUt.FdtWrite
import AcrnUt.FdtFinish
import AcrnUt.FdtRoundTrip
