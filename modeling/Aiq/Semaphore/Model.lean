import Aiq.TailWord
import Aiq.Task.Fetch

/-!
# `Semaphore`

The semaphore of `examples/semaphore.rs`, as the program of the tasks of a queue whose node data is a
`Waiter` (`semaphore`). A task has a future of `acquire_many` or `acquire_many_owned`, which it polls and
drops, or makes one of the other calls. The permits that have been handed out (`SemaphorePermit`) are
shared by the tasks; a task that drops, splits or merges one has it to itself.

Words are 64 bits wide. Arithmetic that overflows panics, except where the source wraps or shifts. A call
that panics unwinds: it drops what it has in hand, and releases the lock.
-/

namespace Aiq.Semaphore

/-! ## Words -/

/-- `CLOSED`. -/
def closed : ℕ := 1

/-- `PERMIT_SHIFT`. -/
def permitShift : ℕ := 1

/-- `Semaphore::MAX_PERMITS`. -/
def maxPermits : ℕ := (2 ^ 64 - 1) >>> 3

/-- The largest state that a queue accepts. -/
def maxState : ℕ := (intrusiveQueueMaxState 64).toNat

/-- `<< PERMIT_SHIFT` on a `usize`. -/
def shift (n : ℕ) : ℕ := n <<< permitShift % 2 ^ 64

/-- `usize::wrapping_sub`. -/
def wrappingSub (m n : ℕ) : ℕ := (2 ^ 64 + m - n) % 2 ^ 64

/-- `state.unwrap_or(0) as u32 >> PERMIT_SHIFT`. -/
def permitsOf (state : Option ℕ) : ℕ := (state.getD 0 % 2 ^ 32) >>> permitShift

/-- `state & CLOSED != 0`. -/
def isClosedState (state : ℕ) : Bool := state &&& closed ≠ 0

/-- `Semaphore::check_add_permits`; `none` when it panics, by the assertion or by the overflow of
`MAX_PERMITS - current`. -/
def checkAddPermits (state add : ℕ) : Option ℕ :=
  let current := state >>> permitShift
  if current ≤ maxPermits ∧ add ≤ maxPermits - current then some (state + shift add) else none

/-- `Semaphore::check_acquire_permits`. -/
def checkAcquirePermits (state acquire : ℕ) : Option ℕ :=
  if isClosedState state then none
  else if shift acquire ≤ state then some (state - shift acquire)
  else none

/-- The closure of `forget_permits`, with the check of the new state; `none` when that panics. -/
def forgetState (state permits : ℕ) : Option ℕ :=
  let new := wrappingSub state (shift permits)
  if new ≤ maxState then some new else none

/-! ## Control states -/

/-- `Waiter`, with wakers of type `W`. -/
structure Waiter (W : Type) where
  waker : Option W
  permitsRemaining : ℕ

/-- `Waiter::default`. -/
def Waiter.default {W : Type} : Waiter W := ⟨none, 0⟩

/-- An acquisition of `permits`: borrowed, or owned. -/
structure Kind where
  owned : Bool
  permits : ℕ
  deriving DecidableEq

/-- The permits that the future asks the semaphore for: `acquire_many_owned` awaits `acquire()`. -/
def Kind.request (k : Kind) : ℕ := if k.owned then 1 else k.permits

/-- What the last call of a task returned. `forgot` is the result of `forget_permits`. -/
inductive Result
  | none
  | ok
  | closed
  | noPermits
  | forgot (n : ℕ)
  | dropped
  | panicked
  deriving DecidableEq

/-- How the life of an `Acquire` ends: it returned `Ready(Ok)` or `Ready(Err)`, it is dropped, or a call
has panicked. -/
inductive Ending
  | ok
  | err
  | dropped
  | panicked
  deriving DecidableEq

/-- See `Ending`. -/
def Ending.result : Ending → Result
  | .ok => .ok
  | .err => .closed
  | .dropped => .dropped
  | .panicked => .panicked

/-- The control states of a future, with the waker `w` of the poll that is under way. -/
inductive FutPc (W : Type)
  /-- The future has not been polled. -/
  | created
  /-- `acquire_many`: the fast path has failed, the node is made next. -/
  | node (w : W)
  /-- The node is made, `poll_acquire` asks for its state next. -/
  | fresh (w : W)
  /-- `poll_acquire`: the call of `state`. -/
  | state (w : W)
  /-- `poll_acquire`: the head of its loop. -/
  | retry (w : W)
  /-- `poll_acquire`: `fetch_update_state` returned `Err(st)`. -/
  | failed (w : W) (st : Option ℕ)
  /-- `poll_acquire`: the waiter has been filled in. -/
  | stored (w : W) (st : Option ℕ)
  /-- `poll_acquire`: the call of `try_enqueue_with_queue_state`. -/
  | enqueued (w : W) (st : Option ℕ)
  /-- `poll_acquire` returned `Pending`. -/
  | suspended
  /-- `poll_acquire` has a `NodeQueued`, and has asked `is_closed`. -/
  | queued (w : W) (isClosed : Bool)
  /-- `poll_acquire`: the `NodeQueued` is dropped next; the poll is pending unless it has ended. -/
  | refreshed (e : Option Ending)
  /-- `poll_acquire` has a `NodeDequeued`, and has asked `is_closed`. -/
  | dequeued (isClosed : Bool)
  /-- `poll_acquire`: `fetch_update_state` returned `Ok`. -/
  | got
  /-- The `Acquire` is dropped next. -/
  | ready (e : Ending)
  /-- `cancel`: the call of `state`. -/
  | cancel (e : Ending)
  /-- `cancel`: the call of `dequeue_try_set_queue_state`. -/
  | removing (e : Ending) (acquired : ℕ)
  /-- `cancel`: it returned `Err`; `is_closed` is asked next. -/
  | removed (e : Ending) (acquired : ℕ)
  /-- `cancel`: the lock is released next, and `acquired` permits are added, if any. -/
  | unlock (e : Ending) (acquired : ℕ)
  /-- The node is dropped next. -/
  | canceled (e : Ending)
  /-- The drop of the node. -/
  | dropping (e : Ending)

/-- Who calls `add_permits`: a user, a `SemaphorePermit` that is dropped, or `cancel`. -/
inductive AddOwner
  | user
  | cancel (k : Kind) (e : Ending)
  deriving DecidableEq

/-- What can go wrong in `add_permits_locked`. -/
inductive Failure
  /-- The assertion that the semaphore is not closed. -/
  | assertion
  /-- The `unwrap` of `dequeue`. -/
  | dequeue
  /-- The `unwrap` of the waker. -/
  | waker
  /-- The `push` to a full list of wakers. -/
  | push
  /-- The check of the state in `try_set_queue_state`. -/
  | state
  deriving DecidableEq

/-- The control states of `add_permits`, with the permits `p` that are left and the wakers `ws` taken. -/
inductive AddPc (W : Type)
  /-- `add_permits`, or `fetch_update_state_or_lock` after a full list of wakers (`again`). -/
  | start (again : Bool) (p : ℕ)
  /-- The first `fetch_update_state` failed, the lock is taken next. -/
  | lock (again : Bool) (p : ℕ)
  /-- The lock is held, the second `fetch_update_state` is next. -/
  | second (again : Bool) (p : ℕ)
  /-- `add_permits_locked`: the assertion. -/
  | locked (p : ℕ)
  /-- A waiter is dequeued next. -/
  | take (p : ℕ) (ws : List W)
  /-- The call of `dequeue`. -/
  | dequeued (p : ℕ) (ws : List W)
  /-- The first waiter needs more: it is put back next. -/
  | requeue (ws : List W)
  /-- The waiter is satisfied; `try_set_queue_state` is called next. -/
  | served (p : ℕ) (ws : List W)
  /-- The call of `try_set_queue_state`. -/
  | set (p : ℕ) (ws : List W)
  /-- The list of wakers is full, the lock is released next. -/
  | full (p : ℕ) (ws : List W)
  /-- The wakers of a full list are called. -/
  | batch (p : ℕ) (ws : List W)
  /-- The loop has ended, the lock is released next. -/
  | done (ws : List W)
  /-- The last calls of wakers. -/
  | final (ws : List W)
  /-- The state has been updated under the lock, which is released next; or, with `panicked`, the update
  has panicked, or what was in hand has been dropped. -/
  | unlock (panicked : Bool)
  /-- A panic; what is in hand is dropped next. -/
  | failed (f : Failure)

/-- The control states of `close`. -/
inductive ClosePc (W : Type)
  /-- The call of `fetch_update_state_or_lock`. -/
  | ask
  /-- The lock is held; the queue is drained next. -/
  | drain
  | forEach (p : ForEachPc W)
  /-- The last calls of wakers. -/
  | final (ws : List W)
  /-- An `unwrap` of a waker has panicked; the node in hand is dropped next. -/
  | failed
  /-- The drop of the node in hand, and then of the `Drain`. -/
  | unwound
  /-- The drop of the `Drain`. -/
  | closing

/-- Where a `fetch_update_state` returns to. -/
inductive FetchCont (W : Type)
  /-- `acquire_many`, polled with the waker `w`. -/
  | acquire (k : Kind) (w : W)
  /-- `poll_acquire`. -/
  | retry (k : Kind) (w : W)
  | tryAcquire (k : Kind)
  | forget (n : ℕ)
  /-- `add_permits`, without the lock and with it. -/
  | add (o : AddOwner) (again locked : Bool) (p : ℕ)

/-- The control states of a task. -/
inductive Pc (W : Type)
  | idle (r : Result)
  /-- A `fetch_update_state` is under way. -/
  | fetch (c : FetchCont W)
  | fut (k : Kind) (p : FutPc W)
  | add (o : AddOwner) (p : AddPc W)
  | close (p : ClosePc W)

/-- What the tasks share: the calls of `Waker::wake`, the live permits, and the sum of the amounts that
users have called `add_permits` with. -/
structure Shared (W : Type) where
  woken : List W
  permits : List ℕ
  added : ℕ

/-- The call of a waker. -/
def Shared.wake {W : Type} (w : W) (g : Shared W) : Shared W := { g with woken := g.woken ++ [w] }

/-- A new `SemaphorePermit`. -/
def Shared.grant {W : Type} (g : Shared W) (n : ℕ) : Shared W := { g with permits := g.permits ++ [n] }

/-- The inputs of a task. A permit is given by its place in the list of live permits. -/
inductive Input (W : Type)
  | acquireMany (owned : Bool) (permits : UInt32)
  | poll (w : W)
  | drop
  | tryAcquireMany (owned : Bool) (permits : UInt32)
  | addPermits (permits : UInt64)
  | forgetPermits (permits : UInt64)
  | close
  | permitDrop (p : ℕ)
  | permitForget (p : ℕ)
  | permitSplit (p : ℕ) (n : UInt64)
  | permitMerge (p other : ℕ)
  /-- The identity of a new `Drain`. -/
  | drain (d : DrainId)
  | none

variable {W : Type}

/-- The closure of a `fetch_update_state`. A `none` of `add` and `forget` is a panic. -/
def FetchCont.fn : FetchCont W → UpdateFn ℕ
  | .acquire k _ | .retry k _ => fun _ s => checkAcquirePermits s k.request
  | .tryAcquire k => fun _ s => checkAcquirePermits s k.permits
  | .forget n => fun _ s => forgetState s n
  | .add _ _ _ p => fun _ s => checkAddPermits s p

/-- The return of `add_permits`, or its panic. -/
def AddOwner.ret (o : AddOwner) (panicked : Bool) : Pc W :=
  match o with
  | .user => .idle (if panicked then .panicked else .ok)
  | .cancel k e => .fut k (.canceled (if panicked then .panicked else e))

/-- Where the task goes on when `fetch_update_state` has returned `Ok(s)`. -/
def FetchCont.ok (s : ℕ) : FetchCont W → Pc W
  | .acquire _ _ | .tryAcquire _ => .idle .ok
  | .retry k _ => .fut k .got
  | .forget n => .idle (.forgot (min n (s >>> permitShift)))
  | .add o _ false _ => o.ret false
  | .add o _ true _ => .add o (.unlock false)

/-- What the tasks share after that: `Ok(SemaphorePermit { .. })`. -/
def FetchCont.grant (g : Shared W) : FetchCont W → Shared W
  | .acquire k _ | .tryAcquire k => g.grant k.permits
  | _ => g

/-- Where the task goes on when `fetch_update_state` has returned `Err(st)`, or its closure has panicked
on the state `st`. -/
def FetchCont.err (st : Option ℕ) : FetchCont W → Pc W
  | .acquire k w => .fut k (.node w)
  | .retry k w => .fut k (.failed w st)
  | .tryAcquire _ => .idle (if st.any isClosedState then .closed else .noPermits)
  | .forget n => .idle (if st.isSome then .panicked else .forgot (min n 0))
  | .add o again locked p =>
    match st, locked with
    | some _, false => o.ret true
    | some _, true => .add o (.unlock true)
    | none, false => .add o (.lock again p)
    | none, true => .add o (if again then .take p [] else .locked p)

/-! ## Programs -/

variable (willWake : W → W → Bool)

/-- The world of a semaphore. -/
abbrev WorldOf (W : Type) := World ℕ (Waiter W) (Pc W) (Shared W)

/-- An instruction of a task of a semaphore. -/
abbrev InstrOf (W : Type) := Instr ℕ (Waiter W) (Pc W) (Shared W)

/-- A call of `fetch_update_state`. It returns at once when the queue is not empty. -/
def fetch (i : TaskId) (g : Shared W) (c : FetchCont W) : InstrOf W :=
  ⟨some (.thread (.fetchUpdateState c.fn)), fun _ q => if q.upd i = .idle then c.err none else .fetch c,
    g⟩

/-- `Semaphore::is_closed`. -/
def isClosed (q : State ℕ (Waiter W)) : Bool := q.mem.queueState.any isClosedState

/-- `Semaphore::available_permits`. -/
def availablePermits (q : State ℕ (Waiter W)) : ℕ := q.mem.queueState.getD 0 >>> permitShift

/-- `*this.permits - waiter.with_data(|w| w.permits_remaining)`. -/
def Kind.acquired (k : Kind) (v : Waiter W) : ℕ := k.request - v.permitsRemaining

/-- The closure of `close`. -/
def takeWaker : OnNext (Waiter W) W where
  data := fun v => { v with waker := none }
  waker := Waiter.waker
  unwrap := true

/-- `poll_acquire`: the fields that are set before the node is enqueued. -/
def Waiter.fill (k : Kind) (st : Option ℕ) (w : W) (v : Waiter W) : Waiter W :=
  ⟨some (v.waker.getD w), k.request - permitsOf st⟩

/-- `poll_acquire`: the update of the waker of a queued node. -/
def Waiter.refresh (w : W) (v : Waiter W) : Waiter W :=
  if v.waker.all (fun w' => !willWake w' w) then { v with waker := some w } else v

/-- What the future of the task `i` does next. -/
def futNext (w : WorldOf W) (i : TaskId) (k : Kind) (p : FutPc W) (n : Input W) :
    Option (InstrOf W) :=
  let goto (p : FutPc W) : Option (InstrOf W) := some ⟨none, fun _ _ => .fut k p, w.shared⟩
  let call (c : Call ℕ (Waiter W)) (p : FutPc W) : Option (InstrOf W) :=
    some ⟨some c, fun _ _ => .fut k p, w.shared⟩
  match p, n with
  | .created, .poll wk => some (fetch i w.shared (.acquire k wk))
  | .created, .drop => some ⟨none, fun _ _ => .idle .dropped, w.shared⟩
  | .node wk, _ => call (.create Waiter.default) (.fresh wk)
  | .fresh wk, _ => call .state (.state wk)
  | .suspended, .poll wk => call .state (.state wk)
  | .suspended, .drop => goto (.ready .dropped)
  | .state wk, _ =>
    match w.q.own i with
    | .unqueued => goto (.retry wk)
    | .locked => goto (.queued wk (isClosed w.q))
    | .dequeued => goto (.dequeued (isClosed w.q))
    | _ => none
  | .retry wk, _ => some (fetch i w.shared (.retry k wk))
  | .failed wk st, _ =>
    if st.any isClosedState then call .release (.ready .err)
    else call (.withDataMut (Waiter.fill k st wk)) (.stored wk st)
  | .stored wk st, _ => call (.tryEnqueue (· = st)) (.enqueued wk st)
  | .enqueued wk _, _ =>
    match w.q.own i with
    | .unqueued => goto (.retry wk)
    | _ => goto .suspended
  | .queued wk b, _ =>
    if b then goto (.refreshed (some .err))
    else if (w.q.mem.data i).waker = none then goto (.refreshed (some .panicked))
    else call (.holder (.withDataMut (Waiter.refresh willWake wk))) (.refreshed none)
  | .refreshed none, _ => call (.holder .drop) .suspended
  | .refreshed (some e), _ => call (.holder .drop) (.ready e)
  | .dequeued b, _ => call .release (.ready (if b then .err else .ok))
  | .got, _ => call .release (.ready .ok)
  | .ready e, _ =>
    if e ≠ .ok ∧ 0 < k.request then call .state (.cancel e) else call .drop (.dropping e)
  | .cancel e, _ =>
    match w.q.own i with
    | .unqueued => call .release (.canceled e)
    | .locked =>
      call (.holder (.dequeueTrySetQueueState (k.acquired (w.q.mem.data i))))
        (.removing e (k.acquired (w.q.mem.data i)))
    | .dequeued =>
      some ⟨some .release,
        fun _ _ => .add (.cancel k e) (.start false (k.acquired (w.q.mem.data i))), w.shared⟩
    | _ => none
  | .removed e acquired, _ =>
    if isClosed w.q then goto (.unlock e acquired)
    else if 0 < acquired then some ⟨none, fun _ _ => .add (.cancel k e) (.locked acquired), w.shared⟩
    else goto (.unlock e 0)
  | .unlock e acquired, _ =>
    some ⟨some (.holder .unlock), fun _ _ => .add (.cancel k e) (.start false acquired), w.shared⟩
  | .canceled e, _ => call .drop (.dropping e)
  | .dropping e, _ =>
    some ⟨none, fun _ _ => .idle e.result, if e = .ok then w.shared.grant k.permits else w.shared⟩
  | _, _ => none

/-- What `add_permits` does next in the task `i`. -/
def addNext (w : WorldOf W) (i : TaskId) (o : AddOwner) (p : AddPc W) : Option (InstrOf W) :=
  let goto (p : AddPc W) : Option (InstrOf W) := some ⟨none, fun _ _ => .add o p, w.shared⟩
  let call (c : Call ℕ (Waiter W)) (p : AddPc W) : Option (InstrOf W) :=
    some ⟨some c, fun _ _ => .add o p, w.shared⟩
  match p with
  | .start again p =>
    if p = 0 ∧ again = false then some ⟨none, fun _ _ => o.ret false, w.shared⟩
    else some (fetch i w.shared (.add o again false p))
  | .lock again p => call .lock (.second again p)
  | .second again p => some (fetch i w.shared (.add o again true p))
  | .locked p => goto (if isClosed w.q then .failed .assertion else .take p [])
  | .take p ws => call (.holder .dequeue) (.dequeued p ws)
  | .dequeued p ws =>
    match w.q.mutex with
    | some .guard => goto (.failed .dequeue)
    | some (.dequeue x) =>
      let v := w.q.mem.data x
      if p < v.permitsRemaining then
        call (.holder (.withDataMut fun v => { v with permitsRemaining := v.permitsRemaining - p }))
          (.requeue ws)
      else
        call (.holder (.withDataMut fun _ => ⟨none, 0⟩))
          (match v.waker with
          | none => .failed .waker
          | some wk =>
            if ws.length = wakersCapacity then .failed .push
            else .served (p - v.permitsRemaining) (ws ++ [wk]))
    | _ => none
  | .requeue ws => call (.holder .requeue) (.done ws)
  | .served p ws =>
    if shift p ≤ maxState then call (.holder (.trySetQueueState (shift p))) (.set p ws)
    else goto (.failed .state)
  | .set _ _ => none
  | .full p ws => call (.holder .unlock) (.batch p ws)
  | .batch p (wk :: ws) => some ⟨none, fun _ _ => .add o (.batch p ws), w.shared.wake wk⟩
  | .batch p [] => goto (.start true p)
  | .done ws => call (.holder .unlock) (.final ws)
  | .final (wk :: ws) => some ⟨none, fun _ _ => .add o (.final ws), w.shared.wake wk⟩
  | .final [] => some ⟨none, fun _ _ => o.ret false, w.shared⟩
  | .unlock panicked => some ⟨some (.holder .unlock), fun _ _ => o.ret panicked, w.shared⟩
  | .failed .assertion | .failed .dequeue => goto (.unlock true)
  -- the panic is in the closure that has the waiter, which is dropped
  | .failed .waker | .failed .push => call (.holder .drop) (.unlock true)
  -- `try_set_queue_state` has taken the waiter into a `ManuallyDrop`
  | .failed .state => call (.holder .requeue) (.unlock true)

/-- What `close` does next in the task `i`. -/
def closeNext (w : WorldOf W) (p : ClosePc W) (n : Input W) : Option (InstrOf W) :=
  let call (c : Call ℕ (Waiter W)) (p : ClosePc W) : Option (InstrOf W) :=
    some ⟨some c, fun _ _ => .close p, w.shared⟩
  match p, n with
  | .drain, .drain d => call (.holder (.drain d closed)) (.forEach (.head d []))
  | .forEach p, _ =>
    p.next takeWaker (fun p => .close (.forEach p)) (fun ws => .close (.final ws)) (.close .failed)
      Shared.wake w.shared w.q
  | .final (wk :: ws), _ => some ⟨none, fun _ _ => .close (.final ws), w.shared.wake wk⟩
  | .final [], _ => some ⟨none, fun _ _ => .idle .ok, w.shared⟩
  | .failed, _ => call (.holder .drop) .unwound
  | .unwound, _ => call (.holder .dropDrain) .closing
  | .closing, _ => some ⟨none, fun _ _ => .idle .panicked, w.shared⟩
  | _, _ => none

/-- The start of a call on a permit. -/
def permitNext (g : Shared W) : Input W → Option (InstrOf W)
  | .permitDrop p =>
    (g.permits[p]?).map fun m =>
      ⟨none, fun _ _ => .add .user (.start false m), { g with permits := g.permits.eraseIdx p }⟩
  | .permitForget p =>
    (g.permits[p]?).map fun _ => ⟨none, fun _ _ => .idle .ok, { g with permits := g.permits.eraseIdx p }⟩
  | .permitSplit p n =>
    (g.permits[p]?).map fun m =>
      if n.toNat < 2 ^ 32 ∧ n.toNat ≤ m then
        ⟨none, fun _ _ => .idle .ok, { g with permits := g.permits.set p (m - n.toNat) ++ [n.toNat] }⟩
      else ⟨none, fun _ _ => .idle .noPermits, g⟩
  | .permitMerge p other =>
    match g.permits[p]?, g.permits[other]? with
    | some m, some m' =>
      if p = other then none
      else if m + m' < 2 ^ 32 then
        some ⟨none, fun _ _ => .idle .ok,
          { g with permits := (g.permits.set p (m + m')).eraseIdx other }⟩
      -- the addition panics, and `other` is dropped
      else some ⟨none, fun _ _ => .add .user (.start false m'),
        { g with permits := g.permits.eraseIdx other }⟩
    | _, _ => none
  | _ => none

/-- The start of a call of the task `i`. -/
def start (w : WorldOf W) (i : TaskId) : Input W → Option (InstrOf W)
  | .acquireMany owned n => some ⟨none, fun _ _ => .fut ⟨owned, n.toNat⟩ .created, w.shared⟩
  | .tryAcquireMany owned n => some (fetch i w.shared (.tryAcquire ⟨owned, n.toNat⟩))
  | .addPermits n =>
    some ⟨none, fun _ _ => .add .user (.start false n.toNat),
      { w.shared with added := w.shared.added + n.toNat }⟩
  | .forgetPermits n =>
    if n.toNat = 0 then some ⟨none, fun _ _ => .idle (.forgot 0), w.shared⟩
    else some (fetch i w.shared (.forget n.toNat))
  | .close =>
    some ⟨some (.thread (.fetchUpdateStateOrLock fun _ s => s ||| closed)), fun _ _ => .close .ask,
      w.shared⟩
  | n => permitNext w.shared n

/-- What the task `i` does next. -/
def next (w : WorldOf W) (i : TaskId) (n : Input W) : Option (InstrOf W) :=
  match w.pc i with
  | .idle _ => start w i n
  | .fetch _ => none
  | .fut k p => futNext willWake w i k p n
  | .add o p => addNext w i o p
  | .close p => closeNext w p n

/-! ## Returns -/

/-- Where the task goes on after an instruction of its operation. -/
def observe (w : WorldOf W) (i : TaskId) (e : Event ℕ) (q : State ℕ (Waiter W)) : Pc W × Shared W :=
  match w.pc i with
  | .fetch c =>
    match w.fetched i e q with
    | none => (.fetch c, w.shared)
    | some (.ok s) => (c.ok s, c.grant w.shared)
    | some (.error st) => (c.err st, w.shared)
  | .fut k (.removing e' acquired) =>
    match e with
    | .removed _ true => (.fut k (.unlock e' 0), w.shared)
    | .removed _ false => (.fut k (.removed e' acquired), w.shared)
    | _ => (w.pc i, w.shared)
  | .add o (.set p ws) =>
    match e with
    | .removed _ b =>
      (.add o (if b ∨ p = 0 then .done ws
        else if ws.length = wakersCapacity then .full p ws
        else .take p ws), w.shared)
    | _ => (w.pc i, w.shared)
  | .close .ask =>
    if e = .guarded i then (.close .drain, w.shared)
    else if q.upd i = .idle then (.idle .ok, w.shared)
    else (w.pc i, w.shared)
  | p => (p, w.shared)

/-- The tasks of a semaphore. -/
def semaphore : Client ℕ (Waiter W) (Pc W) (Shared W) (Input W) where
  next := next willWake
  observe := observe

/-- The state that `Semaphore::new` makes; `none` when it panics. -/
def newState (permits : ℕ) : Option ℕ := checkAddPermits 0 permits

/-- A new semaphore with the state `s`: no task has a future or a call, and no permit is handed out. -/
def init (s : ℕ) : WorldOf W := ⟨.init s Waiter.default, none, fun _ => .idle .none, ⟨[], [], 0⟩⟩

end Aiq.Semaphore
