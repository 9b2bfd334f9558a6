import Aiq.Memory

/-!
# Control states of the interleaving machine

An operation in flight is a control state: the atomic access it makes next, with its local
variables. The machine has one control state for every party that can move on its own:

* the owner of a node (`OwnPc`), who runs `Node::state`, `enqueue`, `try_enqueue_with_queue_state`,
  `reset` and `Node::drop`;
* the holder of the queue mutex (`HolderPc`), who runs `dequeue`, `pop`, `remove`, the draining
  operations, and the part of a node owner's or a thread's operation that is under the lock. The
  mutex is exclusive, so there is at most one: `State.mutex` is its control state, `none` when the
  mutex is free;
* a `Drain` while its lock is released (`DrainPc`);
* a thread that updates the queue's state or asks for the lock conditionally (`UpdPc`).

A thread of the program may be several of these parties at once (an owner inside `match_state`
that holds a guard, say); the machine lets all of them move in any order.
-/

namespace Aiq

/-- The parking protocol, as `target_arch` and `Parker::NEVER_BLOCKS` select it. -/
inductive Variant
  | neverBlocks
  | x86
  | parkedNext
  deriving DecidableEq

/-- The compile-time parameters: the protocol and `SPIN_BEFORE_PARK`. -/
structure Config where
  variant : Variant
  spinBeforePark : ℕ

/-- What a call of a `match_state` closure does. -/
inductive Verdict
  | accept
  | refuse
  | unwind
  deriving DecidableEq

/-- A `match_state` closure: the outcome of its `i`-th call. -/
abbrev MatchState (S : Type) := ℕ → Option S → Verdict

/-- The closure of an unconditional `enqueue`. -/
def MatchState.always {S : Type} : MatchState S := fun _ _ => .accept

/-- The owner of a node. -/
inductive OwnPc (S : Type)
  /-- There is no node at this address. -/
  | dead
  /-- A pinned `Node`, no operation under way. -/
  | idle
  /-- A `NodeUnqueued`. -/
  | unqueued
  /-- A `NodeDequeued`. -/
  | dequeued
  /-- `reset`: `prev` is cleared, `next` is not. -/
  | resetNext
  /-- `state_from_raw(Queued)`: waiting for the mutex. -/
  | waitState
  /-- `Node::dequeue` in `Node::drop`: waiting for the mutex. -/
  | waitDrop
  /-- The operation goes on under the mutex, in `HolderPc`. -/
  | locked
  /-- `enqueue`: the `i`-th call of `check_tail`, on the tail `t`. -/
  | check (f : MatchState S) (i : ℕ) (t : StateOrPtr S)
  /-- `enqueue`: `check_tail` refused; `prev` is cleared next. -/
  | refuse
  /-- `enqueue`: `prev` is stored next. -/
  | store (f : MatchState S) (i : ℕ) (t : StateOrPtr S)
  /-- `enqueue`: the tail CAS. -/
  | cas (f : MatchState S) (i : ℕ) (t : StateOrPtr S)
  /-- `enqueue`, phase 2: the write of the predecessor's link. -/
  | link (p : Option Addr)
  /-- `enqueue`: the load of `parked_next`. -/
  | parkedLoad (l : Loc)
  /-- `enqueue`: the call of `unpark`. -/
  | unpark

/-- On whose behalf `remove_with_prev` runs. -/
inductive Caller
  /-- A `Dequeue` or `Pop`, dropped or consumed by `try_set_queue_state`. -/
  | handle
  /-- `NodeQueued::dequeue` or `dequeue_try_set_queue_state`. -/
  | queued
  /-- `Node::drop`. -/
  | nodeDrop
  deriving DecidableEq

/-- The arguments and locals of `remove_with_prev`. `newTail` is the state that `new_tail` encodes
(the null state for `ptr::null_mut()`). -/
structure Removal (S : Type) where
  node : NodeId
  newTail : S
  prev : Ptr
  caller : Caller

/-- `prev_next`. -/
def Removal.prevNext {S : Type} (r : Removal S) : Loc := r.prev.prevNext

/-- The `new_tail` of the tail CAS: the predecessor unless the node is the head. -/
def Removal.casTail {S : Type} (r : Removal S) : StateOrPtr S :=
  match r.prev with
  | .to a => .ptr a
  | _ => .state r.newTail

/-- Where `get_next` returns to. -/
inductive GetCont (S : Type)
  /-- `LockedQueue::dequeue`. -/
  | dequeue
  /-- `remove_with_prev` with `wait_enqueued`. -/
  | waitEnqueued (r : Removal S)
  /-- `remove_with_prev` after a failed tail CAS. -/
  | relink (r : Removal S)
  /-- `Drain::new`. -/
  | drainNew (d : DrainId) (s : S)
  /-- `NodeDrained::drop`, of a node yielded by `next` or (`flush`) in `Drain::drain`. -/
  | drained (d : DrainId) (a : Addr) (flush : Bool)

/-- The instruction of `get_next` and `wait_for_next`. -/
inductive GetPc
  | load
  | spin (n : ℕ)
  | cas
  | setParked
  | park
  | reload
  | clear (v : Ptr)
  deriving DecidableEq

/-- What is freed when the mutex is released at the end of an operation. -/
inductive Release
  /-- `state_from_raw` found the node dequeued. -/
  | state (x : NodeId)
  /-- `Node::drop`. -/
  | node (x : NodeId)
  /-- An `*_or_lock` call that returns no guard. -/
  | thread (t : ThreadId)
  deriving DecidableEq

/-- The holder of the queue mutex. -/
inductive HolderPc (S : Type)
  /-- A `LockedQueue`. -/
  | guard
  /-- `get_next` of a link. -/
  | get (l : Loc) (g : GetPc) (k : GetCont S)
  /-- A `Dequeue`. -/
  | dequeue (x : NodeId)
  /-- A `Pop`. -/
  | pop (x : NodeId)
  /-- `remove`: the load of `node.prev`. -/
  | rmPrev (x : NodeId) (s : S) (waitEnqueued : Bool) (k : Caller)
  /-- `remove_with_prev`: the load of `node.next`. -/
  | rmNext (r : Removal S)
  /-- `remove_with_prev`: `prev_next` is cleared. -/
  | rmClear (r : Removal S)
  /-- `remove_with_prev`: the tail CAS. -/
  | rmCas (r : Removal S)
  /-- `remove_with_prev`: the store of `next.prev`. -/
  | rmSetPrev (r : Removal S) (next : Addr)
  /-- `remove_with_prev`: the store of `prev_next`. -/
  | rmSetNext (r : Removal S) (next : Addr)
  /-- `remove_with_prev`: the store of `Dequeued`; it then returns `isEmpty`. -/
  | rmDone (r : Removal S) (isEmpty : Bool)
  /-- `state_from_raw(Queued)`: the second load of the raw state. -/
  | recheck (x : NodeId)
  /-- A `NodeQueued`. -/
  | queued (x : NodeId)
  /-- `Node::dequeue`: the second load of the raw state. -/
  | dropRecheck (x : NodeId)
  /-- The mutex is released next. -/
  | release (k : Release)
  /-- `Drain::new`: `head` is cleared. -/
  | drainClear (d : DrainId) (a : Addr) (s : S)
  /-- `Drain::new`: the tail swap. -/
  | drainSwap (d : DrainId) (a : Addr) (s : S)
  /-- A `Drain` with its lock. -/
  | drain (d : DrainId)
  /-- A `NodeDrained`. -/
  | drained (d : DrainId) (a : Addr)
  /-- `NodeDrained::drop`: the load of the sentinel's `prev`. -/
  | ddPrev (d : DrainId) (a : Addr) (flush : Bool)
  /-- `NodeDrained::drop`: `set_head`. -/
  | ddSetHead (d : DrainId) (a : Addr) (v : Ptr) (flush : Bool)
  /-- `NodeDrained::drop`: the store of `Dequeued`. -/
  | ddDone (d : DrainId) (a : Addr) (flush : Bool)
  /-- `execute_unlocked`: the store of the first node's `prev`. -/
  | exPrev (d : DrainId) (a : Addr)
  /-- `execute_unlocked`: the load of the sentinel's `prev`. -/
  | exTail (d : DrainId)
  /-- `execute_unlocked`: the store of the last node's `next`. -/
  | exTailStore (d : DrainId) (a : Addr)
  /-- `execute_unlocked`: the mutex is released; `linked` when the list was made circular. -/
  | exUnlock (d : DrainId) (linked : Bool)
  /-- `execute_unlocked`, mutex reacquired: the comparison of the head with the sentinel. -/
  | exCheck (d : DrainId)
  /-- `execute_unlocked`: `set_head(null)`. -/
  | exSetNull (d : DrainId)
  /-- `Drain::drain`: the loop test. -/
  | dropLoop (d : DrainId)
  /-- `Drain::drop`: the guard of the `Drain` is released next. -/
  | drainFree (d : DrainId)
  /-- The second half of an `*_or_lock` call of `t`, in `UpdPc`. -/
  | upd (t : ThreadId)
  /-- An `unreachable_unchecked`, or the dereference of a pointer that is no address. -/
  | fault

/-- A `Drain` while it does not hold its lock. `linked` when its list is circular through the
sentinel, that is, when it was not empty at the last `execute_unlocked`. -/
inductive DrainPc
  /-- Not created yet. -/
  | none
  /-- The `Drain` holds the lock: it is in `HolderPc`. -/
  | held
  /-- The closure of `execute_unlocked` runs. -/
  | running (linked : Bool)
  /-- The closure has returned; waiting for the mutex. -/
  | relock (linked : Bool)
  /-- The closure has unwound. -/
  | loose (linked : Bool)
  /-- `Drain::drop` after an unwinding: waiting for the mutex. -/
  | dropLock (linked : Bool)
  /-- Dropped. -/
  | gone
  deriving DecidableEq

/-- The closure of `fetch_update_state`: the outcome of its `i`-th call. -/
abbrev UpdateFn (S : Type) := ℕ → S → Option S

/-- The closure `|s| Some(f(s))`. -/
def UpdateFn.ofTotal {S : Type} (f : ℕ → S → S) : UpdateFn S := fun i s => some (f i s)

/-- Which attempt of a `fetch_update_state` runs. -/
inductive Attempt
  /-- `fetch_update_state` itself. -/
  | plain
  /-- The first attempt of `fetch_update_state_or_lock`. -/
  | first
  /-- The second attempt, under the lock. -/
  | second
  deriving DecidableEq

/-- A thread that updates the queue's state. -/
inductive UpdPc (S : Type)
  | idle
  /-- `fetch_update_state`: the `i`-th call of `f`, on `s`, and the CAS. -/
  | attempt (f : UpdateFn S) (i : ℕ) (k : Attempt) (s : S)
  /-- `fetch_update_state_or_lock`: waiting for the mutex. -/
  | waitLock (f : UpdateFn S) (i : ℕ)
  /-- `fetch_update_state_or_lock`: the load of the second attempt. -/
  | secondLoad (f : UpdateFn S) (i : ℕ)
  /-- `is_empty_or_lock`: waiting for the mutex. -/
  | waitEmpty
  /-- `is_empty_or_lock`: the load under the lock. -/
  | emptyLoad
  /-- The call returns without a guard; the mutex is released next. -/
  | releasing

/-- The state of the machine. -/
structure State (S T : Type) where
  mem : Mem S T
  own : NodeId → OwnPc S
  mutex : Option (HolderPc S)
  drains : DrainId → DrainPc
  upd : ThreadId → UpdPc S

namespace State

variable {S T : Type} (c : State S T)

/-- `Queue::with_state`; `Queue::new` is the null state. No node exists yet. -/
def init (s : S) (v : T) : State S T where
  mem :=
    { tail := .state s
      prev := fun _ => .null
      link := fun _ => .null
      parkedNext := none
      token := false
      data := fun _ => v }
  own := fun _ => .dead
  mutex := none
  drains := fun _ => .none
  upd := fun _ => .idle

/-- Replace the memory. -/
def withMem (m : Mem S T) : State S T := { c with mem := m }

/-- Move the owner of `x`. -/
def setOwn (x : NodeId) (p : OwnPc S) : State S T := { c with own := Function.update c.own x p }

/-- Move the holder, or lock the mutex. -/
def hold (p : HolderPc S) : State S T := { c with mutex := some p }

/-- Unlock the mutex. -/
def free : State S T := { c with mutex := none }

/-- Move the `Drain` `d`. -/
def setDrain (d : DrainId) (p : DrainPc) : State S T :=
  { c with drains := Function.update c.drains d p }

/-- Move the thread `t`. -/
def setUpd (t : ThreadId) (p : UpdPc S) : State S T := { c with upd := Function.update c.upd t p }

section Fields

variable (m : Mem S T) (x : NodeId) (o : OwnPc S) (p : HolderPc S) (d : DrainId) (q : DrainPc)
  (t : ThreadId) (u : UpdPc S)

@[simp] theorem mem_withMem : (c.withMem m).mem = m := rfl
@[simp] theorem own_withMem : (c.withMem m).own = c.own := rfl
@[simp] theorem mutex_withMem : (c.withMem m).mutex = c.mutex := rfl
@[simp] theorem drains_withMem : (c.withMem m).drains = c.drains := rfl
@[simp] theorem upd_withMem : (c.withMem m).upd = c.upd := rfl
@[simp] theorem mem_setOwn : (c.setOwn x o).mem = c.mem := rfl
@[simp] theorem own_setOwn : (c.setOwn x o).own = Function.update c.own x o := rfl
@[simp] theorem mutex_setOwn : (c.setOwn x o).mutex = c.mutex := rfl
@[simp] theorem drains_setOwn : (c.setOwn x o).drains = c.drains := rfl
@[simp] theorem upd_setOwn : (c.setOwn x o).upd = c.upd := rfl
@[simp] theorem mem_hold : (c.hold p).mem = c.mem := rfl
@[simp] theorem own_hold : (c.hold p).own = c.own := rfl
@[simp] theorem mutex_hold : (c.hold p).mutex = some p := rfl
@[simp] theorem drains_hold : (c.hold p).drains = c.drains := rfl
@[simp] theorem upd_hold : (c.hold p).upd = c.upd := rfl
@[simp] theorem mem_free : c.free.mem = c.mem := rfl
@[simp] theorem own_free : c.free.own = c.own := rfl
@[simp] theorem mutex_free : c.free.mutex = none := rfl
@[simp] theorem drains_free : c.free.drains = c.drains := rfl
@[simp] theorem upd_free : c.free.upd = c.upd := rfl
@[simp] theorem mem_setDrain : (c.setDrain d q).mem = c.mem := rfl
@[simp] theorem own_setDrain : (c.setDrain d q).own = c.own := rfl
@[simp] theorem mutex_setDrain : (c.setDrain d q).mutex = c.mutex := rfl
@[simp] theorem drains_setDrain : (c.setDrain d q).drains = Function.update c.drains d q := rfl
@[simp] theorem upd_setDrain : (c.setDrain d q).upd = c.upd := rfl
@[simp] theorem mem_setUpd : (c.setUpd t u).mem = c.mem := rfl
@[simp] theorem own_setUpd : (c.setUpd t u).own = c.own := rfl
@[simp] theorem mutex_setUpd : (c.setUpd t u).mutex = c.mutex := rfl
@[simp] theorem drains_setUpd : (c.setUpd t u).drains = c.drains := rfl
@[simp] theorem upd_setUpd : (c.setUpd t u).upd = Function.update c.upd t u := rfl

end Fields

end State

/-- What a step does that is visible from outside: the linearization points of the operations and
their results. -/
inductive Event (S : Type)
  | tau
  /-- The successful tail CAS of `enqueue`. -/
  | enqueue (x : NodeId)
  /-- `enqueue` returns `false`. -/
  | refused (x : NodeId)
  /-- `check_tail` unwinds. -/
  | unwound (x : NodeId)
  /-- A successful CAS of the queue's state. -/
  | update (t : ThreadId) (s s' : S)
  /-- An `*_or_lock` call returns a guard. -/
  | guarded (t : ThreadId)
  | unlock
  /-- `LockedQueue::dequeue` returns. -/
  | dequeue (x : Option NodeId)
  /-- `LockedQueue::pop` returns. -/
  | pop (x : Option NodeId)
  | requeue (x : NodeId)
  /-- A node leaves its list in `remove_with_prev`; `s` is the state to leave behind. -/
  | remove (x : NodeId) (s : S)
  /-- `remove_with_prev` has stored `Dequeued` and returns `isEmpty`. -/
  | removed (x : NodeId) (isEmpty : Bool)
  /-- `Drain::new` takes the nodes (the tail swap), or finds none. -/
  | drain (d : DrainId) (s : S)
  | drainEmpty (d : DrainId)
  /-- `Drain::next` returns. -/
  | next (d : DrainId) (a : Option Addr)
  /-- A node leaves the list of a `Drain` in `NodeDrained::drop`. -/
  | drainRemove (d : DrainId) (x : NodeId) (flush : Bool)
  /-- `NodeDrained::drop` has stored `Dequeued`. -/
  | drained (d : DrainId) (a : Addr)
  /-- A `Drain` has been dropped. -/
  | dropDrain (d : DrainId)
  /-- `NodeDequeued::reset`. -/
  | reset (x : NodeId)
  /-- `Node::with_data`. -/
  | create (x : NodeId)
  deriving DecidableEq

/-- A call of a node's owner. -/
inductive OwnerCall (S T : Type)
  | create (v : T)
  | state
  | enqueue (f : MatchState S)
  | release
  | reset
  | withDataMut (g : T → T)
  | drop

/-- A call of the holder of the mutex on the value it holds. -/
inductive HolderCall (S T : Type)
  /-- On a `LockedQueue`. -/
  | dequeue
  | pop
  | drain (d : DrainId) (s : S)
  | unlock
  /-- On a `Dequeue`, `Pop`, `NodeQueued` or `NodeDrained`: dropping it. -/
  | drop
  /-- On a `Dequeue` or `Pop`, or forgetting a `NodeDrained`. -/
  | requeue
  | trySetQueueState (s : S)
  /-- On a `NodeQueued`. -/
  | dequeueSelf
  | dequeueTrySetQueueState (s : S)
  | withDataMut (g : T → T)
  /-- On a `Drain`. -/
  | next
  | executeUnlocked
  | dropDrain

/-- A call of a thread. -/
inductive ThreadCall (S : Type)
  | compareExchangeState (cur new : S)
  | fetchUpdateState (f : UpdateFn S)
  | fetchUpdateStateOrLock (f : ℕ → S → S)
  | fetchUpdateStateLocked (f : ℕ → S → S)
  | isEmptyOrLock

/-- What a `Drain` without its lock does. -/
inductive DrainCall
  | return
  | unwind
  | drop
  | lock

/-- Who moves. `weak` lets a weak CAS fail spuriously. -/
inductive Act (S T : Type)
  /-- `Queue::lock`. -/
  | lock
  | holder
  | holderCall (k : HolderCall S T)
  | owner (x : NodeId) (weak : Bool)
  | ownerCall (x : NodeId) (k : OwnerCall S T)
  | thread (t : ThreadId) (weak : Bool)
  | threadCall (t : ThreadId) (k : ThreadCall S)
  | drain (d : DrainId) (k : DrainCall)

end Aiq
