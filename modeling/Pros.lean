import Pros.Foundations.Memory
import Pros.Foundations.Arrays
import Pros.Foundations.Numeral
import Pros.Foundations.Run
import Pros.Foundations.Paging
import Pros.Foundations.Scan
import Pros.Foundations.Loop
import Pros.Foundations.Tiling
import Pros.Foundations.Bitmap
import Pros.Foundations.BitFields
import Pros.Foundations.PathTree
import Pros.Foundations.Terminal
import Pros.Lib.Types
import Pros.Lib.String
import Pros.Lib.CString
import Pros.Lib.RamString
import Pros.Lib.Number
import Pros.Lib.NumeralText
import Pros.Lib.Log
import Pros.Lib.Format
import Pros.Lib.Proofs.NumberProofs
import Pros.Lib.Proofs.LogProofs
import Pros.Lib.Proofs.RamProofs
import Pros.Lib.Proofs.CompareProofs
import Pros.Lib.Proofs.TokenProofs
import Pros.Lib.Proofs.AppendProofs
import Pros.MM.Heap
import Pros.MM.Kmalloc
import Pros.MM.HeapBlocks
import Pros.MM.HeapClient
import Pros.MM.HeapAccount
import Pros.MM.HeapCalls
import Pros.MM.PMM
import Pros.MM.PMMClient
import Pros.MM.PMMSearch
import Pros.MM.PMMMachine
import Pros.MM.BootMap
import Pros.MM.BootLayout
import Pros.MM.PageTables
import Pros.MM.VMM
import Pros.MM.FlatMapping
import Pros.MM.AddressSpace
import Pros.MM.VirtualMemory
import Pros.MM.StaleBytes
import Pros.MM.OutOfFrames
import Pros.MM.MapTraversal
import Pros.MM.Proofs.HeapLayoutProofs
import Pros.MM.Proofs.HeapOpsProofs
import Pros.MM.Proofs.HeapCallsProofs
import Pros.MM.Proofs.HeapClientProofs
import Pros.MM.Proofs.HeapSafetyProofs
import Pros.MM.Proofs.HeapBumpProofs
import Pros.MM.Proofs.HeapAccountProofs
import Pros.MM.Proofs.FirstFitProofs
import Pros.MM.Proofs.HeapReleaseProofs
import Pros.MM.Proofs.PMMProofs
import Pros.MM.Proofs.PMMSearchProofs
import Pros.MM.Proofs.PMMMachineProofs
import Pros.MM.Proofs.PMMClientProofs
import Pros.MM.Proofs.BootMapProofs
import Pros.MM.Proofs.BootLayoutProofs
import Pros.MM.Proofs.KernelKeptProofs
import Pros.MM.Proofs.PageEntryProofs
import Pros.MM.Proofs.VMMMapProofs
import Pros.MM.Proofs.VMMInitProofs
import Pros.MM.Proofs.VMMGrantProofs
import Pros.MM.Proofs.InPlaceProofs
import Pros.MM.Proofs.WindowProofs
import Pros.MM.Proofs.BootedProofs
import Pros.MM.Proofs.AddressSpaceProofs
import Pros.MM.Proofs.VirtualMemoryProofs
import Pros.MM.Proofs.HeapTableProofs
import Pros.MM.Proofs.HeapUseProofs
import Pros.MM.Proofs.PagedHeapProofs
import Pros.MM.Proofs.StaleBytesProofs
import Pros.MM.Proofs.OnlyMappedProofs
import Pros.MM.Proofs.TlbProofs
import Pros.MM.Proofs.OutOfFramesProofs
import Pros.MM.Proofs.RefusedFramesProofs
import Pros.MM.Proofs.MapTraversalProofs
import Pros.FS.VFS
import Pros.FS.MountTable
import Pros.FS.MountTree
import Pros.FS.Dump
import Pros.FS.OpenFile
import Pros.FS.Resolution
import Pros.FS.Proofs.VFSTreeProofs
import Pros.FS.Proofs.MountTableProofs
import Pros.FS.Proofs.MountTreeProofs
import Pros.FS.Proofs.DumpProofs
import Pros.FS.Proofs.MountPrefixProofs
import Pros.FS.Proofs.OpenFileProofs
import Pros.FS.DiskFiles
import Pros.FS.Proofs.DiskFilesProofs
import Pros.Console.VGA
import Pros.Console.Console
import Pros.Console.Logging
import Pros.Console.Proofs.VGAProofs
import Pros.Console.Proofs.LoggingProofs
import Pros.Hardware.Port
import Pros.Hardware.GDT
import Pros.Hardware.Proofs.GDTProofs
import Pros.Driver.ATA
import Pros.Driver.DiskClient
import Pros.Driver.Proofs.ATAProofs
import Pros.Driver.DiskDrive
import Pros.Driver.Proofs.SpanProofs
import Pros.Driver.Proofs.DiskReadProofs
import Pros.Driver.Proofs.SectorBufferProofs
import Pros.Driver.Channel
import Pros.Driver.Proofs.ChannelProofs
import Pros.Foundations.X86
import Pros.Foundations.Ia32
import Pros.Boot.Loader
import Pros.Boot.Proofs.LoaderProofs
import Pros.MM.ProcessorWalk
import Pros.MM.Proofs.ProcessorWalkProofs
import Pros.Hardware.IDT
import Pros.Hardware.Proofs.IDTProofs
import Pros.Hardware.Interrupts
import Pros.Hardware.Proofs.InterruptProofs
import Pros.Foundations.InterruptController
import Pros.Hardware.IrqSystem
import Pros.Hardware.Proofs.IrqProofs
