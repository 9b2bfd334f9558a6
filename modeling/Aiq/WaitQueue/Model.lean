import Aiq.Task.Drains

/-!
# `WaitQueue`

The futures and the notifying calls of `wait_queue.rs`, as the program of the tasks of a queue whose
node data is a `Waiter` (`waitQueue`). A task has a future, which it polls and drops, or makes one of
the calls `notify_one`, `notify_last`, `notify_many`, `notify_all` and `close`. The answers of the
predicates of `wait_if` and `wait_until` are inputs, as are the wakers of the polls.

A *setter* makes a condition true and then calls `notify_all`. The calls of `Waker::wake` are recorded
in the order in which they are made.
-/

namespace Aiq.WaitQueue

/-- `EMPTY`. -/
def empty : ℕ := 0

/-- `CLOSED`. -/
def closed : ℕ := 1

/-- `Notification`. -/
inductive Notification
  | one
  | last
  deriving DecidableEq

/-- `Waiter`, with wakers of type `W`. -/
structure Waiter (W : Type) where
  waker : Option W
  notification : Option Notification

/-- `Waiter::default`. -/
def Waiter.default {W : Type} : Waiter W := ⟨none, none⟩

/-- The kind of a future. A `WaitIf` has its predicate until it has called it. -/
inductive Kind
  | wait
  | waitIf (predicate : Bool)
  | waitUntil
  deriving DecidableEq

/-- Whether `poll_wait` is called with `requeue`. -/
def Kind.requeue : Kind → Bool
  | .waitUntil => true
  | _ => false

/-- What the last poll of a future returned. A poll that returned `Pending` was made with the waker `w`,
which it stored, or found an equivalent of, after `n` calls of `Waker::wake`. -/
inductive Polled (W : Type)
  | never
  | ready
  | pending (w : W) (n : ℕ)
  | panicked

/-- The control states of a future, with the waker `w` of the poll that is under way. -/
inductive FutPc (W : Type)
  | idle (r : Polled W)
  /-- `WaitUntil::poll`: the first call of the predicate. -/
  | first (w : W)
  /-- `poll_wait`: the call of `state`. -/
  | state (w : W)
  /-- `poll_wait`: the waker has been stored in a `NodeUnqueued`. -/
  | stored (w : W) (n : ℕ)
  /-- `poll_wait`: the call of `try_enqueue_with_queue_state`. -/
  | enqueued (w : W) (n : ℕ)
  /-- `poll_wait`: the waker has been stored in a `NodeQueued`. -/
  | refreshed (w : W) (n : ℕ)
  /-- `WaitIf::poll`: the call of the predicate. -/
  | ifPredicate (w : W) (n : ℕ)
  /-- `WaitUntil::poll_cold`: the second call of the predicate. -/
  | second (w : W) (n : ℕ) (isClosed : Bool)
  /-- The future is being dropped. -/
  | dropping

/-- Where the future goes on when `poll_wait` has returned `Pending`. -/
def Kind.pending {W : Type} (k : Kind) (w : W) (n : ℕ) : FutPc W :=
  match k with
  | .waitIf true => .ifPredicate w n
  | .waitUntil => .second w n false
  | _ => .idle (.pending w n)

/-- Where the future goes on when `poll_wait` has returned `Ready`. -/
def Kind.ready {W : Type} (k : Kind) (w : W) (n : ℕ) : FutPc W :=
  match k with
  | .waitUntil => .second w n true
  | _ => .idle .ready

/-- The notifying calls. `setAll` is the call of a setter. -/
inductive CallKind
  | notifyOne
  | notifyLast
  | notifyMany (count : ℕ)
  | notifyAll
  | close
  | setAll
  deriving DecidableEq

/-- `notify_many_const`. -/
def CallKind.notifyManyConst (count : ℕ) : CallKind :=
  if count = 1 then .notifyOne else .notifyMany count

/-- The notifications that a call has yet to make: one, by `dequeue` or by `pop`, or `n` of the `count`
notifications of a `notify_many`. -/
inductive Rest
  | one
  | last
  | many (count n : ℕ)
  deriving DecidableEq

/-- The notification that is stored in a waiter. -/
def Rest.notification : Rest → Notification
  | .last => .last
  | _ => .one

/-- The control states of a call, with the wakers `ws` that it has taken and not called. -/
inductive CallPc (W : Type)
  /-- A setter, between the write of the condition and the call of `notify_all`. -/
  | set
  /-- The call of `is_empty_or_lock` or `fetch_update_state_or_lock`. -/
  | ask (k : CallKind)
  /-- The lock is held; a waiter is taken next. -/
  | take (r : Rest) (ws : List W)
  /-- The call of `dequeue` or `pop`. -/
  | dequeued (r : Rest) (ws : List W)
  /-- The notification is stored; the waker is taken next. -/
  | notified (r : Rest) (ws : List W)
  /-- The waker is taken; the waiter is dropped next. -/
  | taken (r : Rest) (ws : List W)
  /-- The drop of the waiter. -/
  | dropped (r : Rest) (ws : List W)
  /-- `notify_many`: the lock is released, a full list of wakers is called. -/
  | batch (count n : ℕ) (ws : List W)
  /-- `notify_many`: the call of `is_empty_or_lock` after a full list of wakers. -/
  | relock (count n : ℕ)
  /-- `drain_queue`: the lock is held; the queue is drained next. -/
  | drain (k : CallKind)
  /-- `drain_queue`: in `for_each`. -/
  | forEach (k : CallKind) (p : ForEachPc W)
  /-- The last calls of wakers; `locked` when the lock is still held. -/
  | final (k : CallKind) (ws : List W) (locked : Bool)

/-- The control states of a task. `fault` is an `unwrap_unchecked` of `None`. -/
inductive Pc (W : Type)
  | idle
  | fut (k : Kind) (p : FutPc W)
  | call (p : CallPc W)
  | fault

/-- What the tasks share: the condition of the setters, the calls of `Waker::wake`, and whether a
`notify_all` of a setter has returned. -/
structure Shared (W : Type) where
  condition : Bool
  woken : List W
  announced : Bool

/-- The call of a waker. -/
def Shared.wake {W : Type} (w : W) (g : Shared W) : Shared W := { g with woken := g.woken ++ [w] }

/-- The inputs of a task. -/
inductive Input (W : Type)
  | create (k : Kind)
  | poll (w : W)
  | drop
  | call (k : CallKind)
  /-- What a predicate returns: `true`, or `Some`. -/
  | answer (b : Bool)
  /-- The identity of a new `Drain`. -/
  | drain (d : DrainId)
  | none

/-- The state that a `drain_queue` sets. -/
def CallKind.drainState : CallKind → ℕ
  | .close => closed
  | _ => empty

/-- Where a call goes on with the lock. -/
def CallKind.locked {W : Type} : CallKind → CallPc W
  | .notifyOne => .take .one []
  | .notifyLast => .take .last []
  | .notifyMany count => .take (.many count count) []
  | k => .drain k

/-- The return of a call. -/
def CallKind.ret {W : Type} (k : CallKind) (g : Shared W) : Pc W × Shared W :=
  (.idle, { g with announced := g.announced || (k = .setAll) })

/-- The closure of `drain_queue`. -/
def takeWaker {W : Type} : OnNext (Waiter W) W where
  data := fun v => { v with waker := none }
  waker := Waiter.waker
  unwrap := true

/-- The states that `poll_wait` enqueues on: `s.is_none_or(|s| s == EMPTY)`. -/
def matchEmpty (s : Option ℕ) : Bool := s.all (· = empty)

variable {W : Type} (willWake : W → W → Bool)

/-- The update of the waker of a queued node. -/
def Waiter.refresh (w : W) (v : Waiter W) : Waiter W :=
  if v.waker.all (fun w' => !willWake w' w) then { v with waker := some w } else v

/-- The world of a `WaitQueue`. -/
abbrev WorldOf (W : Type) := World ℕ (Waiter W) (Pc W) (Shared W)

/-- An instruction of a `WaitQueue` task. -/
abbrev InstrOf (W : Type) := Instr ℕ (Waiter W) (Pc W) (Shared W)

/-- What the future of the task `i` does next. -/
def futNext (w : WorldOf W) (i : TaskId) (k : Kind) (p : FutPc W) (n : Input W) :
    Option (InstrOf W) :=
  let goto (p : FutPc W) : Option (InstrOf W) := some ⟨none, fun _ _ => .fut k p, w.shared⟩
  let call (c : Call ℕ (Waiter W)) (p : FutPc W) : Option (InstrOf W) :=
    some ⟨some c, fun _ _ => .fut k p, w.shared⟩
  match p, n with
  | .idle _, .poll wk =>
    match k with
    | .waitUntil => goto (.first wk)
    | _ => call .state (.state wk)
  | .idle _, .drop => call .drop .dropping
  | .dropping, _ => some ⟨none, fun _ _ => .idle, w.shared⟩
  | .first wk, .answer b => if b then goto (.idle .ready) else call .state (.state wk)
  | .state wk, _ =>
    match w.q.own i with
    | .unqueued =>
      call (.withDataMut fun v => { v with waker := some wk }) (.stored wk w.shared.woken.length)
    | .dequeued =>
      if k.requeue then call .reset (.state wk)
      else call .release (k.ready wk w.shared.woken.length)
    | .locked =>
      call (.holder (.withDataMut (Waiter.refresh willWake wk)))
        (.refreshed wk w.shared.woken.length)
    | _ => none
  | .stored wk n, _ => call (.tryEnqueue matchEmpty) (.enqueued wk n)
  | .enqueued wk n, _ =>
    match w.q.own i with
    | .unqueued => call .release (k.ready wk n)
    | _ => goto (k.pending wk n)
  | .refreshed wk n, _ => call (.holder .drop) (k.pending wk n)
  | .ifPredicate wk n, .answer b =>
    some ⟨none, fun _ _ => .fut (.waitIf false) (.idle (if b then .pending wk n else .ready)),
      w.shared⟩
  | .second wk n isClosed, .answer b =>
    goto (.idle (if b then .ready else if isClosed then .panicked else .pending wk n))
  | _, _ => none

/-- What a call of the task `i` does next. -/
def callNext (w : WorldOf W) (i : TaskId) (p : CallPc W) (n : Input W) : Option (InstrOf W) :=
  let goto (p : CallPc W) : Option (InstrOf W) := some ⟨none, fun _ _ => .call p, w.shared⟩
  let call (c : Call ℕ (Waiter W)) (p : CallPc W) : Option (InstrOf W) :=
    some ⟨some c, fun _ _ => .call p, w.shared⟩
  match p, n with
  | .set, _ =>
    some ⟨some (.thread .isEmptyOrLock),
      fun _ q => if q.upd i = .idle then .call (.final .setAll [] false) else .call (.ask .setAll),
      w.shared⟩
  | .ask _, _ => none
  | .take .last ws, _ => call (.holder .pop) (.dequeued .last ws)
  | .take .one ws, _ => call (.holder .dequeue) (.dequeued .one ws)
  | .take (.many count 0) ws, _ => goto (.final (.notifyMany count) ws true)
  | .take (.many count (n + 1)) ws, _ => call (.holder .dequeue) (.dequeued (.many count n) ws)
  | .dequeued r ws, _ =>
    match w.q.mutex with
    | some .guard =>
      match r with
      | .many count _ => call (.holder .unlock) (.final (.notifyMany count) ws false)
      | _ => some ⟨none, fun _ _ => .fault, w.shared⟩
    | _ =>
      call (.holder (.withDataMut fun v => { v with notification := some r.notification }))
        (.notified r ws)
  | .notified r ws, _ =>
    match w.q.mutex with
    | some (.dequeue x) | some (.pop x) =>
      match (w.q.mem.data x).waker with
      | some wk =>
        call (.holder (.withDataMut fun v => { v with waker := none })) (.taken r (ws ++ [wk]))
      | none => some ⟨none, fun _ _ => .fault, w.shared⟩
    | _ => none
  | .taken r ws, _ => call (.holder .drop) (.dropped r ws)
  | .dropped r ws, _ =>
    match r with
    | .many count n =>
      if ws.length = wakersCapacity then call (.holder .unlock) (.batch count n ws)
      else goto (.take (.many count n) ws)
    | .one => call (.holder .unlock) (.final .notifyOne ws false)
    | .last => call (.holder .unlock) (.final .notifyLast ws false)
  | .batch count n (wk :: ws), _ =>
    some ⟨none, fun _ _ => .call (.batch count n ws), w.shared.wake wk⟩
  | .batch count n [], _ =>
    some ⟨some (.thread .isEmptyOrLock),
      fun _ q =>
        if q.upd i = .idle then .call (.final (.notifyMany count) [] false)
        else .call (.relock count n),
      w.shared⟩
  | .relock _ _, _ => none
  | .drain k, .drain d => call (.holder (.drain d k.drainState)) (.forEach k (.head d []))
  | .forEach k p, _ =>
    p.next takeWaker (fun p => .call (.forEach k p)) (fun ws => .call (.final k ws false)) .fault
      Shared.wake w.shared w.q
  | .final k (wk :: ws) locked, _ =>
    some ⟨none, fun _ _ => .call (.final k ws locked), w.shared.wake wk⟩
  | .final k [] true, _ => call (.holder .unlock) (.final k [] false)
  | .final k [] false, _ => some ⟨none, fun _ _ => (k.ret w.shared).1, (k.ret w.shared).2⟩
  | _, _ => none

/-- The start of a call of the task `i`. -/
def start (w : WorldOf W) (i : TaskId) : CallKind → InstrOf W
  | .setAll => ⟨none, fun _ _ => .call .set, { w.shared with condition := true }⟩
  | .close =>
    ⟨some (.thread (.fetchUpdateStateOrLock fun _ _ => closed)), fun _ _ => .call (.ask .close),
      w.shared⟩
  | k =>
    ⟨some (.thread .isEmptyOrLock),
      fun _ q => if q.upd i = .idle then .call (.final k [] false) else .call (.ask k), w.shared⟩

/-- What the task `i` does next. -/
def next (w : WorldOf W) (i : TaskId) (n : Input W) : Option (InstrOf W) :=
  match w.pc i, n with
  | .idle, .create k =>
    some ⟨some (.create Waiter.default), fun _ _ => .fut k (.idle .never), w.shared⟩
  | .idle, .call k => some (start w i k)
  | .fut k p, n => futNext willWake w i k p n
  | .call p, n => callNext w i p n
  | _, _ => none

/-- An `*_or_lock` call that returns: with the guard, or without. -/
def observe (w : WorldOf W) (i : TaskId) (e : Event ℕ) (q : State ℕ (Waiter W)) : Pc W × Shared W :=
  match w.pc i with
  | .call (.ask k) =>
    if e = .guarded i then (.call k.locked, w.shared)
    else if q.upd i = .idle then (.call (.final k [] false), w.shared)
    else (w.pc i, w.shared)
  | .call (.relock count n) =>
    if e = .guarded i then (.call (.take (.many count n) []), w.shared)
    else if q.upd i = .idle then (.call (.final (.notifyMany count) [] false), w.shared)
    else (w.pc i, w.shared)
  | p => (p, w.shared)

/-- The tasks of a `WaitQueue`. -/
def waitQueue : Client ℕ (Waiter W) (Pc W) (Shared W) (Input W) where
  next := next willWake
  observe := observe

/-- `WaitQueue::new`: no task has a future or a call. -/
def init : WorldOf W := ⟨.init empty Waiter.default, none, fun _ => .idle, ⟨false, [], false⟩⟩

end Aiq.WaitQueue
