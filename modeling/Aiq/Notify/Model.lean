import Aiq.Task.Fetch

/-!
# `Notify`

The notification of `examples/notify.rs`, as the program of the tasks of a queue whose node data is a
`Waiter` (`notify`). A task has a future of `notified` or `notified_owned`, which it polls, enables and
drops, or makes one of the calls `notify_one`, `notify_last` and `notify_waiters`.

The generation is a word of 64 bits, which wraps. The futures that have become ready are recorded in the
order in which they do, as are the calls of `Waker::wake`.
-/

namespace Aiq.Notify

/-- `STATE_UNNOTIFIED`. -/
def unnotified : ℕ := 0

/-- `STATE_NOTIFIED`. -/
def notified : ℕ := 1

/-- `Notification`. -/
inductive Notification
  | one
  | last
  | all
  deriving DecidableEq

/-- `Waiter`, with wakers of type `W`. -/
structure Waiter (W : Type) where
  waker : Option W
  notification : Option Notification

/-- `Waiter::default`. -/
def Waiter.default {W : Type} : Waiter W := ⟨none, none⟩

/-- The fields of a `NotifiedInner` besides its node. -/
structure Inner where
  generation : UInt64
  completed : Bool
  deriving DecidableEq

/-- What the last poll of a future returned. -/
inductive Polled
  | never
  | pending
  | ready
  deriving DecidableEq

/-- Who calls `cancel`: `poll_notified`, or the drop of the future. -/
inductive Cause
  | poll
  | drop
  deriving DecidableEq

deriving instance DecidableEq for ForEachPc

/-- The control states of a future. The context `cx` of a poll is given by its waker; `enable` has none. -/
inductive FutPc (W : Type)
  | idle (r : Polled)
  /-- `poll_notified_impl`: the call of `state`. -/
  | state (cx : Option W)
  /-- The head of the loop, with a `NodeUnqueued`. -/
  | load (cx : Option W)
  /-- The generation is that of the future; `fetch_update_state` is called next. -/
  | fetch (cx : Option W)
  | fetching (cx : Option W)
  /-- `fetch_update_state` returned `Ok`. -/
  | got
  /-- `fetch_update_state` returned `Err(st)`. -/
  | failed (cx : Option W) (st : Option ℕ)
  /-- The waker has been stored. -/
  | stored (cx : Option W) (st : Option ℕ)
  /-- The call of `try_enqueue_with_queue_state`. -/
  | enqueued (cx : Option W) (st : Option ℕ)
  /-- A `NodeQueued` of an older generation, which is dequeued next. -/
  | stale
  /-- A `NodeQueued`, whose waker is updated next. -/
  | refresh (w : W)
  /-- A `NodeQueued`, which is dropped next. -/
  | refreshed
  /-- `cancel`: `state` is called next. -/
  | cancel (c : Cause)
  /-- `cancel`: the call of `state`. -/
  | canceling (c : Cause)
  /-- The call of `dequeue_try_set_queue_state`, in `poll_notified_impl` or in `cancel`. -/
  | removing (c : Cause)
  /-- The node is dropped next. -/
  | canceled
  /-- The drop of the node. -/
  | dropping
  deriving DecidableEq

/-- Who calls `notify_single`: a user, or `cancel` on a future. -/
inductive Origin
  | user
  | cancel (f : Inner) (c : Cause)
  deriving DecidableEq

/-- The control states of `notify_single`, with the waker `w` that it has taken. -/
inductive SinglePc (W : Type)
  /-- `fetch_update_state_or_locked` is called next. -/
  | start
  | ask
  /-- `wake_single`: the lock is held; `dequeue` or `pop` is called next. -/
  | take
  /-- The call of `dequeue` or `pop`. -/
  | dequeued
  /-- The notification is stored and the waker taken; `try_set_queue_state` is called next. -/
  | taken (w : Option W)
  /-- The call of `try_set_queue_state`. -/
  | set (w : Option W)
  /-- The lock is released; the waker is called next. -/
  | final (w : Option W)
  deriving DecidableEq

/-- The control states of `notify_waiters`. -/
inductive WaitersPc (W : Type)
  /-- The lock is held; the generation is increased next. -/
  | locked
  /-- The queue is drained next. -/
  | drain
  | forEach (p : ForEachPc W)
  /-- The last calls of wakers. -/
  | final (ws : List W)
  deriving DecidableEq

/-- The control states of a task. `fault` is an `unwrap` of `None`, or an `unreachable!()`. -/
inductive Pc (W : Type)
  | idle
  /-- `notified`: the node is made; the generation is loaded next. -/
  | created
  /-- `notified_owned`: the generation is loaded; the node is made next. -/
  | loaded (generation : UInt64)
  | fut (f : Inner) (p : FutPc W)
  | single (o : Origin) (k : Notification) (p : SinglePc W)
  | waiters (p : WaitersPc W)
  | fault
  deriving DecidableEq

/-- What the tasks share: the generation, the calls of `Waker::wake`, and the tasks whose futures have
become ready. -/
structure Shared (W : Type) where
  generation : UInt64
  woken : List W
  ready : List TaskId

/-- The call of a waker. -/
def Shared.wake {W : Type} (w : W) (g : Shared W) : Shared W := { g with woken := g.woken ++ [w] }

/-- The future of the task `i` becomes ready. -/
def Shared.complete {W : Type} (g : Shared W) (i : TaskId) : Shared W :=
  { g with ready := g.ready ++ [i] }

/-- The inputs of a task. -/
inductive Input (W : Type)
  | notified (owned : Bool)
  | poll (w : W)
  | enable
  | drop
  | notifyOne
  | notifyLast
  | notifyWaiters
  /-- The identity of a new `Drain`. -/
  | drain (d : DrainId)
  | none

/-- The closure of the `fetch_update_state` of `poll_notified_impl`. -/
def takePermit : UpdateFn ℕ := fun _ state => if state = notified then some unnotified else none

/-- The closure of `notify_waiters`. -/
def takeWaker {W : Type} : OnNext (Waiter W) W where
  data := fun _ => ⟨none, some .all⟩
  waker := Waiter.waker
  unwrap := false

/-- The waker of a node that is enqueued: `get_or_insert_with`. -/
def Waiter.fill {W : Type} (w : W) (v : Waiter W) : Waiter W := { v with waker := some (v.waker.getD w) }

/-- `poll_notified` returns `Ready`. -/
def Inner.ready {W : Type} (f : Inner) : Pc W := .fut { f with completed := true } (.idle .ready)

/-- Where the future goes on when `cancel` has returned. -/
def Cause.ret {W : Type} (c : Cause) (f : Inner) : Pc W :=
  match c with
  | .poll => f.ready
  | .drop => .fut f .canceled

/-- See `Cause.ret`. -/
def Cause.shared {W : Type} (c : Cause) (g : Shared W) (i : TaskId) : Shared W :=
  match c with
  | .poll => g.complete i
  | .drop => g

/-- Where the task goes on when `notify_single` has returned. -/
def Origin.ret {W : Type} (o : Origin) : Pc W :=
  match o with
  | .user => .idle
  | .cancel f c => c.ret f

/-- See `Origin.ret`. -/
def Origin.shared {W : Type} (o : Origin) (g : Shared W) (i : TaskId) : Shared W :=
  match o with
  | .user => g
  | .cancel _ c => c.shared g i

variable {W : Type} (willWake : W → W → Bool)

/-- The update of the waker of a queued node. -/
def Waiter.refresh (w : W) (v : Waiter W) : Waiter W :=
  if v.waker.all (fun w' => !willWake w' w) then { v with waker := some w } else v

/-- The world of a `Notify`. -/
abbrev WorldOf (W : Type) := World ℕ (Waiter W) (Pc W) (Shared W)

/-- An instruction of a task of a `Notify`. -/
abbrev InstrOf (W : Type) := Instr ℕ (Waiter W) (Pc W) (Shared W)

/-- What the future of the task `i` does next. -/
def futNext (w : WorldOf W) (i : TaskId) (f : Inner) (p : FutPc W) (n : Input W) :
    Option (InstrOf W) :=
  let goto (p : FutPc W) : Option (InstrOf W) := some ⟨none, fun _ _ => .fut f p, w.shared⟩
  let call (c : Call ℕ (Waiter W)) (p : FutPc W) : Option (InstrOf W) :=
    some ⟨some c, fun _ _ => .fut f p, w.shared⟩
  let release (c : Cause) : Option (InstrOf W) :=
    some ⟨some .release, fun _ _ => c.ret f, c.shared w.shared i⟩
  match p, n with
  | .idle _, .poll wk => call .state (.state (some wk))
  | .idle _, .enable => call .state (.state none)
  | .idle _, .drop => if f.completed then goto .canceled else goto (.cancel .drop)
  | .state cx, _ =>
    match w.q.own i with
    | .unqueued => goto (.load cx)
    | .locked =>
      if w.shared.generation ≠ f.generation then goto .stale
      else goto (cx.elim .refreshed .refresh)
    | .dequeued => release .poll
    | _ => none
  | .load cx, _ => if w.shared.generation ≠ f.generation then release .poll else goto (.fetch cx)
  | .fetch cx, _ =>
    some ⟨some (.thread (.fetchUpdateState takePermit)),
      fun _ q => .fut f (if q.upd i = .idle then .failed cx none else .fetching cx), w.shared⟩
  | .got, _ => release .poll
  | .failed (some wk) st, _ => call (.withDataMut (Waiter.fill wk)) (.stored (some wk) st)
  | .failed none st, _ => goto (.stored none st)
  | .stored cx st, _ => call (.tryEnqueue (· = st)) (.enqueued cx st)
  | .enqueued cx _, _ =>
    match w.q.own i with
    | .unqueued => goto (.load cx)
    | _ => if w.shared.generation ≠ f.generation then goto (.cancel .poll) else goto (.idle .pending)
  | .stale, _ => call (.holder (.dequeueTrySetQueueState unnotified)) (.removing .poll)
  | .refresh wk, _ => call (.holder (.withDataMut (Waiter.refresh willWake wk))) .refreshed
  | .refreshed, _ => call (.holder .drop) (.idle .pending)
  | .cancel c, _ => call .state (.canceling c)
  | .canceling c, _ =>
    match w.q.own i with
    | .unqueued => release c
    | .locked => call (.holder (.dequeueTrySetQueueState unnotified)) (.removing c)
    | .dequeued =>
      match (w.q.mem.data i).notification with
      | none => some ⟨none, fun _ _ => .fault, w.shared⟩
      | some .all => release c
      | some k => some ⟨some .release, fun _ _ => .single (.cancel f c) k .start, w.shared⟩
    | _ => none
  | .removing c, _ => some ⟨some (.holder .unlock), fun _ _ => c.ret f, c.shared w.shared i⟩
  | .canceled, _ => call .drop .dropping
  | .dropping, _ => some ⟨none, fun _ _ => .idle, w.shared⟩
  | _, _ => none

/-- What `notify_single` does next in the task `i`. -/
def singleNext (w : WorldOf W) (i : TaskId) (o : Origin) (k : Notification) (p : SinglePc W) :
    Option (InstrOf W) :=
  let call (c : Call ℕ (Waiter W)) (p : SinglePc W) : Option (InstrOf W) :=
    some ⟨some c, fun _ _ => .single o k p, w.shared⟩
  match p with
  | .start => call (.thread (.fetchUpdateStateOrLock fun _ _ => notified)) .ask
  | .ask => none
  | .take =>
    match k with
    | .one => call (.holder .dequeue) .dequeued
    | .last => call (.holder .pop) .dequeued
    | .all => some ⟨none, fun _ _ => .fault, w.shared⟩
  | .dequeued =>
    match w.q.mutex with
    | some .guard => some ⟨none, fun _ _ => .fault, w.shared⟩
    | some (.dequeue x) | some (.pop x) =>
      call (.holder (.withDataMut fun _ => ⟨none, some k⟩)) (.taken (w.q.mem.data x).waker)
    | _ => none
  | .taken wk => call (.holder (.trySetQueueState unnotified)) (.set wk)
  | .set wk => call (.holder .unlock) (.final wk)
  | .final wk =>
    some ⟨none, fun _ _ => o.ret, o.shared (wk.elim w.shared fun wk => w.shared.wake wk) i⟩

/-- What `notify_waiters` does next. -/
def waitersNext (w : WorldOf W) (p : WaitersPc W) (n : Input W) : Option (InstrOf W) :=
  match p, n with
  | .locked, _ =>
    some ⟨none, fun _ _ => .waiters .drain,
      { w.shared with generation := w.shared.generation + 1 }⟩
  | .drain, .drain d =>
    some ⟨some (.holder (.drain d unnotified)), fun _ _ => .waiters (.forEach (.head d [])), w.shared⟩
  | .forEach p, _ =>
    p.next takeWaker (fun p => .waiters (.forEach p)) (fun ws => .waiters (.final ws)) .fault
      Shared.wake w.shared w.q
  | .final (wk :: ws), _ => some ⟨none, fun _ _ => .waiters (.final ws), w.shared.wake wk⟩
  | .final [], _ => some ⟨none, fun _ _ => .idle, w.shared⟩
  | _, _ => none

/-- The start of a call of a task without a future. -/
def start (w : WorldOf W) : Input W → Option (InstrOf W)
  | .notified false => some ⟨some (.create Waiter.default), fun _ _ => .created, w.shared⟩
  | .notified true => some ⟨none, fun _ _ => .loaded w.shared.generation, w.shared⟩
  | .notifyOne => some ⟨none, fun _ _ => .single .user .one .start, w.shared⟩
  | .notifyLast => some ⟨none, fun _ _ => .single .user .last .start, w.shared⟩
  | .notifyWaiters => some ⟨some .lock, fun _ _ => .waiters .locked, w.shared⟩
  | _ => none

/-- What the task `i` does next. -/
def next (w : WorldOf W) (i : TaskId) (n : Input W) : Option (InstrOf W) :=
  match w.pc i with
  | .idle => start w n
  | .created => some ⟨none, fun _ _ => .fut ⟨w.shared.generation, false⟩ (.idle .never), w.shared⟩
  | .loaded g =>
    some ⟨some (.create Waiter.default), fun _ _ => .fut ⟨g, false⟩ (.idle .never), w.shared⟩
  | .fut f p => futNext willWake w i f p n
  | .single o k p => singleNext w i o k p
  | .waiters p => waitersNext w p n
  | .fault => none

/-- Where the task goes on after an instruction of its operation: `fetch_update_state` and
`fetch_update_state_or_locked` return. -/
def observe (w : WorldOf W) (i : TaskId) (e : Event ℕ) (q : State ℕ (Waiter W)) : Pc W × Shared W :=
  match w.pc i with
  | .fut f (.fetching cx) =>
    match w.fetched i e q with
    | none => (w.pc i, w.shared)
    | some (.ok _) => (.fut f .got, w.shared)
    | some (.error st) => (.fut f (.failed cx st), w.shared)
  | .single o k .ask =>
    if e = .guarded i then (.single o k .take, w.shared)
    else if q.upd i = .idle then (o.ret, o.shared w.shared i)
    else (w.pc i, w.shared)
  | p => (p, w.shared)

/-- The tasks of a `Notify`. -/
def notify : Client ℕ (Waiter W) (Pc W) (Shared W) (Input W) where
  next := next willWake
  observe := observe

/-- `Notify::new`: no task has a future or a call. -/
def init : WorldOf W := ⟨.init unnotified Waiter.default, none, fun _ => .idle, ⟨0, [], []⟩⟩

end Aiq.Notify
