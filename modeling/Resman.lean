import Resman.Lib.Chain
import Resman.Lib.Lockstep
import Resman.Lib.Store
import Resman.Lib.Run
import Resman.Lib.SortedAssoc
import Resman.Lib.Tally
import Resman.RbTree.Compare
import Resman.RbTree.Copy
import Resman.RbTree.Entries
import Resman.RbTree.Drain
import Resman.RbTree.FiniteMap
import Resman.RbTree.FoundKey
import Resman.RbTree.Bottom
import Resman.RbTree.Overflow
import Resman.RbMemory.Iterator
import Resman.Adding.Refines
import Resman.DynArr.Amortized
import Resman.FileWatch.Buffer
import Resman.Lifecycle.Balance
import Resman.Manager.Table
import Resman.Manager.Destroy
import Resman.Manager.Loads
import Resman.Manager.Removal
import Resman.Manager.Teardown
import Resman.Manager.Tracking
import Resman.Manager.Completion
import Resman.Manager.FirstLoad
import Resman.Manager.Validity
import Resman.Manager.Events
import Resman.Manager.Sleep
import Resman.Manager.Wait
import Resman.Manager.Delayed
import Resman.Manager.Barrier
import Resman.Manager.MainLoop
import Resman.Manager.Life
import Resman.Manager.NoWatch
import Resman.TaskList.Correct
import Resman.TPool.Calls
import Resman.TPool.Recycling
import Resman.TPool.Draining
import Resman.TPool.Wakeups
import Resman.TPool.Waiters
import Resman.TPool.EventPipe
import Resman.TPool.Threads
import Resman.TPool.Timedwait
import Resman.Timer
import Resman.WatchMap.Atomic
import Resman.Win32.Counts
import Resman.Win32.Handles
import Resman.Win32.Failure
import Resman.Win32.Notify
import Resman.Win32.Removal
import Resman.Win32.Canonical
import Resman.Win32.Delivery
