import LazyXv6.FileManager.DeleteOrder
import LazyXv6.FileManager.Progress
import LazyXv6.FileManager.Outcome
import LazyXv6.Sort.MergeSortAgree
import LazyXv6.Sort.BucketRange
import LazyXv6.Sort.SecondRun
import LazyXv6.Sort.Tiling
import LazyXv6.Kernel.TableMemory
import LazyXv6.FileSystem.Recovery
import LazyXv6.FileTree.Dangling
import LazyXv6.Kernel.ThreadSteps
import LazyXv6.Kernel.CowPaths
import LazyXv6.Kernel.RoundTrip
import LazyXv6.Kernel.Waitx
import LazyXv6.Kernel.FailedFork
import LazyXv6.Pipe.Wakeup
import LazyXv6.Pipe.UserBuffer
import LazyXv6.Console.Discipline
import LazyXv6.ExitWait.Outcome
import LazyXv6.ExitWait.Kill
import LazyXv6.Virtio.Outcome
import LazyXv6.BufferCache.Coherence
import LazyXv6.InodeTable.Accounting
import LazyXv6.Times.Clock
import LazyXv6.Exec.Visible
import LazyXv6.Storage.FailedWrite
import LazyXv6.Storage.Directory
import LazyXv6.Shell.Command
