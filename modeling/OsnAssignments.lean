import OsnAssignments.Concert.Signals
import OsnAssignments.FileSystem.Admission
import OsnAssignments.FileSystem.CacheCoherence
import OsnAssignments.FileSystem.Image
import OsnAssignments.FileSystem.Paths
import OsnAssignments.FileSystem.Quiescent
import OsnAssignments.FileSystem.Recovery
import OsnAssignments.FileTransfer.Sessions
import OsnAssignments.Grep.Matching
import OsnAssignments.Grep.Segmentation
import OsnAssignments.Memory.Arguments
import OsnAssignments.MergeSort.Failure
import OsnAssignments.Reversal.Bounds
import OsnAssignments.Shell.Correctness
import OsnAssignments.Vaccination.Rounds
import OsnAssignments.Xv6.Console
import OsnAssignments.Xv6.FirstCome
import OsnAssignments.Xv6.Identity
import OsnAssignments.Xv6.LifeCycle
import OsnAssignments.Xv6.Locks
import OsnAssignments.Xv6.Pipe
import OsnAssignments.Xv6.Preemption
import OsnAssignments.Xv6.QueueSizes
import OsnAssignments.Xv6.Rotation
import OsnAssignments.Xv6.Slices
