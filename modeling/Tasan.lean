import Tasan.AddrHashMap.Bucket
import Tasan.Allocator.FindChunk
import Tasan.Allocator.Poisoning
import Tasan.Asan.AddressSpace
import Tasan.Asan.BuggyPcPool
import Tasan.Asan.CopyAnnotations
import Tasan.Asan.DoubleEnded
import Tasan.Asan.InitOrder
import Tasan.Asan.Odr
import Tasan.Asan.PoisonShadow
import Tasan.Asan.QuickCheck
import Tasan.Asan.StackAddress
import Tasan.Asan.Strings
import Tasan.Asan.UserPoison
import Tasan.BitVector.Refinement
import Tasan.Codec.Delta
import Tasan.Coverage.Files
import Tasan.DD.Detector
import Tasan.Deadlock.Contexts
import Tasan.Deadlock.Paths
import Tasan.Deadlock.Runs
import Tasan.DenseMap.Termination
import Tasan.FakeStack.ShadowRuns
import Tasan.Fibers.Runs
import Tasan.Format.PrintfRanges
import Tasan.Interception.Failure
import Tasan.Interception.RegionSearch
import Tasan.Interceptors.ControlMessages
import Tasan.Interceptors.Strtol
import Tasan.LFStack.Runs
import Tasan.LibIgnore.Runs
import Tasan.Libc.Copies
import Tasan.Libc.Search
import Tasan.Lsan.Checks
import Tasan.Lsan.CopyMemory
import Tasan.Lsan.Report
import Tasan.MmapAligned
import Tasan.MutexCheck.Runs
import Tasan.Primary.Combined
import Tasan.Primary.Lookup
import Tasan.ProcMaps.Blocks
import Tasan.ProcMaps.Layout
import Tasan.Quarantine.Caches
import Tasan.Quarantine.Threads
import Tasan.RangeIntersect
import Tasan.ReadFile.Loops
import Tasan.ReadFile.Terminated
import Tasan.ReportPath.Expansion
import Tasan.Ring.Poison
import Tasan.Secondary.Blocks
import Tasan.StackDepot.CompressThread
import Tasan.StackDepot.Runs
import Tasan.StackStore.Bounds
import Tasan.StackStore.Concurrent
import Tasan.StackTrace.UnwindFast
import Tasan.Suppressions.Lines
import Tasan.Suppressions.TemplateMatch
import Tasan.Symbolizer.Commands
import Tasan.Symbolizer.Rendered
import Tasan.ThreadArgRetval.Runs
import Tasan.ThreadRegistry.Runs
import Tasan.Ubsan.TypeCache
import Tasan.Allocator.LowLevel
