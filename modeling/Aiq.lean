import Aiq.TailPointer
import Aiq.Drain.Unwinding
import Aiq.WaitQueue.NoLostWakeup
import Aiq.WaitQueue.Alone
import Aiq.Semaphore.Owned
import Aiq.Semaphore.Fair
import Aiq.Semaphore.Alone
import Aiq.Semaphore.Issued
import Aiq.Semaphore.Wakers
import Aiq.Sync.Spin
import Aiq.Sync.Parker
import Aiq.Notify.Consumed
import Aiq.Notify.Wakers
