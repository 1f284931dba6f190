import NjuOs.Runs
import NjuOs.CBase
import NjuOs.Dyadic
import NjuOs.Pmm
import NjuOs.Bags
import NjuOs.BuddySound
import NjuOs.SeedSound
import NjuOs.PmmSound
import NjuOs.AllocSound
import NjuOs.KallocSound
import NjuOs.Vfs
import NjuOs.WriteLog
import NjuOs.RefSound
import NjuOs.FileSound
import NjuOs.Kmt
import NjuOs.Uproc
import NjuOs.KmtSound
import NjuOs.Linked
import NjuOs.Sem
import NjuOs.SemSound
import NjuOs.Os
import NjuOs.UprocLemmas
import NjuOs.OwnSound
import NjuOs.OsSound
import NjuOs.PageSound
import NjuOs.PidSound
import NjuOs.BlockSound
import NjuOs.SleepSound
import NjuOs.ZombieSound
import NjuOs.ParkSound
import NjuOs.Smp
import NjuOs.SmpSound
import NjuOs.FamilySound
import NjuOs.StatusSound
import NjuOs.MapSound
import NjuOs.Requests
import NjuOs.PageFill
import NjuOs.MmapSound
import NjuOs.ImageSound
import NjuOs.ForkSound
import NjuOs.DirLemmas
import NjuOs.OffsetSound
import NjuOs.HoleSound
import NjuOs.OpenSound
import NjuOs.NameSound
import NjuOs.PathSound
import NjuOs.WalkSound
import NjuOs.ExecSound
import NjuOs.LinkSound
import NjuOs.Stops
import NjuOs.PanicSound
import NjuOs.Access
import NjuOs.UserMem
import NjuOs.UserSound
import NjuOs.CwdSound
import NjuOs.Rfc3174
import NjuOs.Sha1
import NjuOs.Sha1Sound
import NjuOs.Frecov
import NjuOs.FrecovSound
import NjuOs.LongName
import NjuOs.Spin
import NjuOs.SpinSound
import NjuOs.Slab
import NjuOs.SlabLemmas
import NjuOs.SlabPlace
import NjuOs.SlabRefine
import NjuOs.SlabStmts
import NjuOs.SlabSound
import NjuOs.MutexSound
import NjuOs.Buf
import NjuOs.BufSound
import NjuOs.RoundRobin
import NjuOs.Libco
import NjuOs.LibcoSound
import NjuOs.PickSound
import NjuOs.FairSound
import NjuOs.NativeVme
import NjuOs.NativeSound
import NjuOs.SpaceSound
import NjuOs.VmOs
import NjuOs.VmOsSound
import NjuOs.VmView
import NjuOs.VmTotal
import NjuOs.Radix
import NjuOs.X86Vme
import NjuOs.X86Sound
import NjuOs.X86Spaces
import NjuOs.X86Refines
import NjuOs.Irq
import NjuOs.IrqSound
import NjuOs.Printf
import NjuOs.PrintfSound
import NjuOs.Forest
import NjuOs.Pstree
import NjuOs.PstreeSound
import NjuOs.Strtod
import NjuOs.Ledger
import NjuOs.Sperf
import NjuOs.SperfSound
import NjuOs.ReadStat
import NjuOs.ReadStatSound
