import OsAssignments.Paging.Simulator
import OsAssignments.Paging.Counts
import OsAssignments.Paging.SwapSlots
import OsAssignments.Paging.SlotSet
import OsAssignments.Paging.TraceLines
import OsAssignments.Paging.FastSlim
import OsAssignments.Paging.LookAhead
import OsAssignments.Paging.OptList
import OsAssignments.Paging.Recency
import OsAssignments.Paging.LruList
import OsAssignments.Paging.Translation
import OsAssignments.Paging.SwapCapacity
import OsAssignments.Paging.Clock
import OsAssignments.Paging.Fifo
import OsAssignments.Library.Replacement
import OsAssignments.Library.QueueReplacement
import OsAssignments.Paging.Residents
import OsAssignments.Paging.Comparison
import OsAssignments.Paging.MoreFrames
import OsAssignments.Paging.Completion
import OsAssignments.Library.Listing
import OsAssignments.Paging.Report
import OsAssignments.Paging.Main
import OsAssignments.Library.Ownership
import OsAssignments.Ext2.Disk
import OsAssignments.Ext2.Copy
import OsAssignments.Ext2.NewDirectory
import OsAssignments.Ext2.Formed
import OsAssignments.Ext2.Names
import OsAssignments.Ext2.GiveBack
import OsAssignments.Ext2.Failure
import OsAssignments.Ext2.Counters
import OsAssignments.Ext2.Searches
import OsAssignments.Ext2.OneName
import OsAssignments.Ext2.Modes
import OsAssignments.Ext2.BlockSearch
import OsAssignments.Ext2.Shown
import OsAssignments.Ext2.PathSplitting
import OsAssignments.Ext2.LastComponent
import OsAssignments.Ext2.BitmapAgreement
import OsAssignments.Ext2.Journal
import OsAssignments.Ext2.Endless
import OsAssignments.Ext2.RemovalOwners
import OsAssignments.Library.LockOrder
import OsAssignments.Interceptor.Owners
import OsAssignments.Interceptor.Documented
import OsAssignments.Interceptor.Deadlock
import OsAssignments.Interceptor.Serialisable
import OsAssignments.Library.LockInvariant
import OsAssignments.Interceptor.Sharing
import OsAssignments.Interceptor.Calls
