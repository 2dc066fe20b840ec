import Kos.SendQueueProofs
import Kos.DeliveryProofs
import Kos.ForkExecProofs
import Kos.ForkMemoryProofs
import Kos.ForkQueuesProofs
import Kos.TtyReadersProofs
import Kos.InterruptWindowProofs
import Kos.ConsoleProofs
import Kos.FileBytesProofs
import Kos.SectorMapProofs
import Kos.NewEntryProofs
import Kos.InodeMapProofs
import Kos.RefusalsProofs
import Kos.SurvivalProofs
import Kos.DiskDriverProofs
import Kos.BoundsRunsProofs
import Kos.ReferenceCountsProofs
import Kos.MapRunsProofs
import Kos.WrittenBytesProofs
import Kos.RemovalsProofs
import Kos.WaitRepliesProofs
import Kos.IpcIndexProofs
import Kos.ProcessNamesProofs
import Kos.PartitionTableProofs
import Kos.MkfsImageProofs
import Kos.LogSectorsProofs
import Kos.ExecImageProofs
import Kos.ExecLayoutProofs
import Kos.ExecArgsProofs
import Kos.SchedulerProofs
import Kos.NumberFormatProofs
import Kos.BootInodeProofs
import Kos.FatChainProofs
import Kos.ModifierProofs
import Kos.KeyBatchProofs
import Kos.KeyboardRingProofs
import Kos.ScreenStartProofs
import Kos.ScrollLoopProofs
import Kos.ScrollRangeProofs
import Kos.WrapTextProofs
import Kos.LineEchoProofs
import Kos.TimedWaitProofs
import Kos.FormatScanProofs
import Kos.ShellWordsProofs
import Kos.UntarProofs
import Kos.ResumptionProofs
