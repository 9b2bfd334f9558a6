import Aiq.Machine.State

/-!
# The steps of the machine

`step cfg c a` is the atomic step that `a` makes from `c`: the new state and the visible event, or
`none` when that party cannot move (it is blocked in `lock` or `park`, or the call is not one that
the value it holds offers). Every load, store, swap and CAS of `queue.rs`, `queue/drain.rs` and
`node.rs` is one step, on the control states of `Aiq.Machine.State`; a call that begins with a load
makes that load. What a closure of the user computes is an argument of the call that receives it.
-/

namespace Aiq

open State

variable {S T : Type}

/-! ## `enqueue` and the other operations of a node's owner -/

/-- Phase 2 of `enqueue`: the write of the predecessor's link, and what follows it. -/
def linkStep (cfg : Config) (c : State S T) (x : NodeId) (l : Loc) : State S T :=
  let c' := c.withMem (c.mem.setLink l (.to (.node x)))
  match cfg.variant with
  | .neverBlocks => c'.setOwn x .idle
  | .x86 => c'.setOwn x (if c.mem.link l = .null then .idle else .unpark)
  | .parkedNext => c'.setOwn x (.parkedLoad l)

/-- The next instruction of the owner of `x`. -/
def ownerStep [DecidableEq S] (cfg : Config) (c : State S T) (x : NodeId) (weak : Bool) :
    Option (State S T × Event S) :=
  match c.own x with
  | .check f i t =>
    match f i t.state? with
    | .accept => some (c.setOwn x (.store f i t), .tau)
    | .refuse => some (c.setOwn x .refuse, .tau)
    | .unwind => some (c.setOwn x .idle, .unwound x)
  | .refuse =>
    some ((c.withMem (c.mem.setPrev (.node x) RawNodeState.unqueued.intoPtr)).setOwn x .unqueued,
      .refused x)
  | .store f i t =>
    some ((c.withMem (c.mem.setPrev (.node x) (prevPtr t.tail?))).setOwn x (.cas f i t), .tau)
  | .cas f i t =>
    if c.mem.tail = t ∧ weak = false then
      some ((c.withMem (c.mem.setTail (.ptr (.node x)))).setOwn x (.link t.tail?), .enqueue x)
    else
      some (c.setOwn x (.check f (i + 1) c.mem.tail), .tau)
  | .link p => some (linkStep cfg c x (prevLoc p), .tau)
  | .parkedLoad l => some (c.setOwn x (if c.mem.parkedNext = some l then .unpark else .idle), .tau)
  | .unpark => some ((c.withMem (c.mem.setToken true)).setOwn x .idle, .tau)
  | .resetNext =>
    some ((c.withMem (c.mem.setLink (.next (.node x)) .null)).setOwn x .unqueued, .tau)
  | .waitState =>
    match c.mutex with
    | none => some ((c.setOwn x .locked).hold (.recheck x), .tau)
    | some _ => none
  | .waitDrop =>
    match c.mutex with
    | none => some ((c.setOwn x .locked).hold (.dropRecheck x), .tau)
    | some _ => none
  | _ => none

/-- A call of the owner of `x`. -/
def ownerCall (c : State S T) (x : NodeId) (k : OwnerCall S T) : Option (State S T × Event S) :=
  match c.own x, k with
  | .dead, .create v =>
    some ((c.withMem (((c.mem.setPrev (.node x) .null).setLink (.next (.node x)) .null).setData x
      v)).setOwn x .idle, .create x)
  | .idle, .state =>
    match c.mem.rawState x with
    | .unqueued => some (c.setOwn x .unqueued, .tau)
    | .queued => some (c.setOwn x .waitState, .tau)
    | .dequeued => some (c.setOwn x .dequeued, .tau)
  | .idle, .drop =>
    match c.mem.rawState x with
    | .queued => some (c.setOwn x .waitDrop, .tau)
    | _ => some (c.setOwn x .dead, .tau)
  | .unqueued, .enqueue f => some (c.setOwn x (.check f 0 c.mem.tail), .tau)
  | .unqueued, .release => some (c.setOwn x .idle, .tau)
  | .unqueued, .withDataMut g => some (c.withMem (c.mem.setData x (g (c.mem.data x))), .tau)
  | .dequeued, .release => some (c.setOwn x .idle, .tau)
  | .dequeued, .withDataMut g => some (c.withMem (c.mem.setData x (g (c.mem.data x))), .tau)
  | .dequeued, .reset =>
    some ((c.withMem (c.mem.setPrev (.node x) RawNodeState.unqueued.intoPtr)).setOwn x .resetNext,
      .reset x)
  | _, _ => none

/-! ## `get_next` -/

/-- Where the caller of `get_next` goes on with the value returned. -/
def GetCont.resume (k : GetCont S) (v : Ptr) : HolderPc S :=
  match k, v with
  | .dequeue, .to (.node x) => .dequeue x
  | .waitEnqueued r, .to _ => .rmNext r
  | .relink r, .to a => .rmSetPrev r a
  | .drainNew d s, .to a => .drainClear d a s
  | .drained d a flush, .to b => .ddSetHead d a (.to b) flush
  | _, _ => .fault

/-- `LockedQueue::dequeue` returns when its `get_next` does. -/
def GetCont.event (k : GetCont S) (v : Ptr) : Event S :=
  match k, v with
  | .dequeue, .to (.node x) => .dequeue (some x)
  | _, _ => .tau

/-- `wait_for_next` with `n` loads of the spin loop to go. -/
def Config.afterSpin (cfg : Config) : ℕ → GetPc
  | 0 => if cfg.variant = .x86 then .cas else .setParked
  | n + 1 => .spin n

/-- The start of `wait_for_next`. -/
def Config.waitForNext (cfg : Config) : GetPc :=
  if cfg.variant = .neverBlocks then .park else cfg.afterSpin cfg.spinBeforePark

/-- One instruction of `get_next(l)`. -/
def getStep (cfg : Config) (c : State S T) (l : Loc) (g : GetPc) (k : GetCont S) :
    Option (State S T × Event S) :=
  let goto (m : Mem S T) (g' : GetPc) := some ((c.withMem m).hold (.get l g' k), Event.tau)
  let ret (m : Mem S T) (v : Ptr) := some ((c.withMem m).hold (k.resume v), k.event v)
  match g with
  | .load => if c.mem.link l = .null then goto c.mem cfg.waitForNext else ret c.mem (c.mem.link l)
  | .spin n => if c.mem.link l = .null then goto c.mem (cfg.afterSpin n) else ret c.mem (c.mem.link l)
  | .cas =>
    if c.mem.link l = .null then goto (c.mem.setLink l parked) .park else ret c.mem (c.mem.link l)
  | .setParked => goto (c.mem.setParkedNext (some l)) .reload
  | .park =>
    if cfg.variant = .neverBlocks then goto c.mem .reload
    else if c.mem.token then goto (c.mem.setToken false) .reload
    else none
  | .reload =>
    match cfg.variant with
    | .neverBlocks => if c.mem.link l = .null then goto c.mem .park else ret c.mem (c.mem.link l)
    | .x86 => if c.mem.link l = parked then goto c.mem .park else ret c.mem (c.mem.link l)
    | .parkedNext =>
      if c.mem.link l = .null then goto c.mem .park else goto c.mem (.clear (c.mem.link l))
  | .clear v => ret (c.mem.setParkedNext none) v

/-! ## The holder of the mutex -/

/-- The return of `remove_with_prev`: a `LockedQueue` is left, or released by `Node::drop`. -/
def Removal.return (r : Removal S) (c : State S T) : State S T :=
  match r.caller with
  | .handle => c.hold .guard
  | .queued => (c.setOwn r.node .idle).hold .guard
  | .nodeDrop => c.hold (.release (.node r.node))

/-- The release of the mutex at the end of an operation. -/
def Release.apply (k : Release) (c : State S T) : State S T :=
  match k with
  | .state x => (c.setOwn x .dequeued).free
  | .node x => (c.setOwn x .dead).free
  | .thread t => (c.setUpd t .idle).free

/-- `Drain::new` after the swap: the sentinel is built between `head` and the swapped tail. -/
def Mem.newSentinel (m : Mem S T) (d : DrainId) (tail head : Ptr) : Mem S T :=
  (m.setPrev (.sentinel d) tail).setLink (.next (.sentinel d)) head

/-- The next instruction of the holder. -/
def holderStep [DecidableEq S] [QueueState S] (cfg : Config) (c : State S T) (p : HolderPc S) :
    Option (State S T × Event S) :=
  let fault := some (c.hold .fault, Event.tau)
  match p with
  | .get l g k => getStep cfg c l g k
  | .rmPrev x s w k =>
    let r : Removal S := ⟨x, s, c.mem.prev (.node x), k⟩
    if r.prev.state = .queued then
      some (c.hold (if w then .get r.prevNext .load (.waitEnqueued r) else .rmNext r), .tau)
    else fault
  | .rmNext r =>
    match c.mem.link (.next (.node r.node)) with
    | .null => some (c.hold (.rmClear r), .tau)
    | .to a => some (c.hold (.rmSetPrev r a), .tau)
    | _ => fault
  | .rmClear r => some ((c.withMem (c.mem.setLink r.prevNext .null)).hold (.rmCas r), .tau)
  | .rmCas r =>
    if c.mem.tail = .ptr (.node r.node) then
      some ((c.withMem (c.mem.setTail r.casTail)).hold (.rmDone r true), .remove r.node r.newTail)
    else some (c.hold (.get (.next (.node r.node)) .load (.relink r)), .tau)
  | .rmSetPrev r a =>
    some ((c.withMem (c.mem.setPrev a r.prev)).hold (.rmSetNext r a), .remove r.node r.newTail)
  | .rmSetNext r a =>
    some ((c.withMem (c.mem.setLink r.prevNext (.to a))).hold (.rmDone r false), .tau)
  | .rmDone r e =>
    some (r.return (c.withMem (c.mem.setPrev (.node r.node) RawNodeState.dequeued.intoPtr)),
      .removed r.node e)
  | .recheck x =>
    match c.mem.rawState x with
    | .unqueued => fault
    | .queued => some (c.hold (.queued x), .tau)
    | .dequeued => some (c.hold (.release (.state x)), .tau)
  | .dropRecheck x =>
    if c.mem.rawState x = .queued then
      some (c.hold (.rmPrev x QueueState.null false .nodeDrop), .tau)
    else some (c.hold (.release (.node x)), .tau)
  | .release k => some (k.apply c, .unlock)
  | .drainClear d a s => some ((c.withMem (c.mem.setLink .head .null)).hold (.drainSwap d a s), .tau)
  | .drainSwap d a s =>
    match c.mem.tail with
    | .ptr b =>
      some (((c.withMem ((c.mem.setTail (.state s)).newSentinel d (.to b) (.to a))).setDrain d
        .held).hold (.drain d), .drain d s)
    | .state _ => fault
  | .ddPrev d a flush =>
    if c.mem.prev (.sentinel d) = .to a then some (c.hold (.ddSetHead d a .null flush), .tau)
    else some (c.hold (.get (.next a) .load (.drained d a flush)), .tau)
  | .ddSetHead d a v flush =>
    some ((c.withMem (c.mem.setLink (.next (.sentinel d)) v)).hold (.ddDone d a flush),
      match a with
      | .node x => .drainRemove d x flush
      | .sentinel _ => .tau)
  | .ddDone d a flush =>
    some ((c.withMem (c.mem.setPrev a RawNodeState.dequeued.intoPtr)).hold
      (if flush then .dropLoop d else .drain d), .drained d a)
  | .exPrev d a => some ((c.withMem (c.mem.setPrev a (.to (.sentinel d)))).hold (.exTail d), .tau)
  | .exTail d =>
    match c.mem.prev (.sentinel d) with
    | .to b => some (c.hold (.exTailStore d b), .tau)
    | _ => fault
  | .exTailStore d b =>
    some ((c.withMem (c.mem.setLink (.next b) (.to (.sentinel d)))).hold (.exUnlock d true), .tau)
  | .exUnlock d linked => some ((c.setDrain d (.running linked)).free, .unlock)
  | .exCheck d =>
    some (c.hold (if c.mem.link (.next (.sentinel d)) = .to (.sentinel d) then .exSetNull d
      else .drain d), .tau)
  | .exSetNull d =>
    some ((c.withMem (c.mem.setLink (.next (.sentinel d)) .null)).hold (.drain d), .tau)
  | .dropLoop d =>
    match c.mem.link (.next (.sentinel d)) with
    | .null => some (c.hold (.drainFree d), .tau)
    | .to a => some (c.hold (.ddPrev d a true), .tau)
    | _ => fault
  | .drainFree d => some ((c.setDrain d .gone).free, .dropDrain d)
  | .guard | .dequeue _ | .pop _ | .queued _ | .drain _ | .drained _ _ | .upd _ | .fault => none

/-- A call on a `LockedQueue`. -/
def guardCall (c : State S T) (k : HolderCall S T) : Option (State S T × Event S) :=
  match k with
  | .dequeue =>
    match c.mem.tail with
    | .state _ => some (c, .dequeue none)
    | .ptr _ => some (c.hold (.get .head .load .dequeue), .tau)
  | .pop =>
    match c.mem.tail with
    | .state _ => some (c, .pop none)
    | .ptr (.node x) => some (c.hold (.pop x), .pop (some x))
    | .ptr (.sentinel _) => some (c.hold .fault, .tau)
  | .drain d s =>
    if c.drains d = .none then
      match c.mem.tail with
      | .state _ =>
        some (((c.withMem (c.mem.newSentinel d .null .null)).setDrain d .held).hold (.drain d),
          .drainEmpty d)
      | .ptr _ => some (c.hold (.get .head .load (.drainNew d s)), .tau)
    else none
  | .unlock => some (c.free, .unlock)
  | _ => none

/-- A call on a `Drain` that holds its lock. -/
def drainLockedCall (c : State S T) (d : DrainId) (k : HolderCall S T) :
    Option (State S T × Event S) :=
  match k with
  | .next =>
    match c.mem.link (.next (.sentinel d)) with
    | .null => some (c, .next d none)
    | .to a => some (c.hold (.drained d a), .next d (some a))
    | _ => some (c.hold .fault, .tau)
  | .executeUnlocked =>
    match c.mem.link (.next (.sentinel d)) with
    | .null => some (c.hold (.exUnlock d false), .tau)
    | .to a => some (c.hold (.exPrev d a), .tau)
    | _ => some (c.hold .fault, .tau)
  | .dropDrain =>
    if c.mem.link (.next (.sentinel d)) = .null then some (c.hold (.drainFree d), .tau)
    else some (c.hold (.dropLoop d), .tau)
  | _ => none

/-- A call of the holder on the value it holds. -/
def holderCall [QueueState S] (c : State S T) (p : HolderPc S) (k : HolderCall S T) :
    Option (State S T × Event S) :=
  match p, k with
  | .guard, k => guardCall c k
  | .dequeue x, .drop => some (c.hold (.rmNext ⟨x, QueueState.null, headMarker, .handle⟩), .tau)
  | .dequeue x, .trySetQueueState s => some (c.hold (.rmNext ⟨x, s, headMarker, .handle⟩), .tau)
  | .dequeue x, .requeue => some (c.hold .guard, .requeue x)
  | .dequeue x, .withDataMut g => some (c.withMem (c.mem.setData x (g (c.mem.data x))), .tau)
  | .pop x, .drop => some (c.hold (.rmPrev x QueueState.null true .handle), .tau)
  | .pop x, .trySetQueueState s => some (c.hold (.rmPrev x s true .handle), .tau)
  | .pop x, .requeue => some (c.hold .guard, .requeue x)
  | .pop x, .withDataMut g => some (c.withMem (c.mem.setData x (g (c.mem.data x))), .tau)
  | .queued x, .drop => some ((c.setOwn x .idle).free, .unlock)
  | .queued x, .dequeueSelf => some (c.hold (.rmPrev x QueueState.null false .queued), .tau)
  | .queued x, .dequeueTrySetQueueState s => some (c.hold (.rmPrev x s false .queued), .tau)
  | .queued x, .withDataMut g => some (c.withMem (c.mem.setData x (g (c.mem.data x))), .tau)
  | .drain d, k => drainLockedCall c d k
  | .drained d a, .drop => some (c.hold (.ddPrev d a false), .tau)
  | .drained d _, .requeue => some (c.hold (.drain d), .tau)
  | .drained _ (.node x), .withDataMut g =>
    some (c.withMem (c.mem.setData x (g (c.mem.data x))), .tau)
  | _, _ => none

/-! ## A `Drain` without its lock -/

/-- A step of the `Drain` `d` while its lock is released. The `drop` is `Drop for Drain` on the
unwinding path, whose first load is not protected by the lock. -/
def drainStep (c : State S T) (d : DrainId) (k : DrainCall) : Option (State S T × Event S) :=
  match c.drains d, k with
  | .running l, .return => some (c.setDrain d (.relock l), .tau)
  | .running l, .unwind => some (c.setDrain d (.loose l), .tau)
  | .relock _, .lock =>
    match c.mutex with
    | none => some ((c.setDrain d .held).hold (.exCheck d), .tau)
    | some _ => none
  | .loose l, .drop =>
    if c.mem.link (.next (.sentinel d)) = .null then some (c.setDrain d .gone, .dropDrain d)
    else some (c.setDrain d (.dropLock l), .tau)
  | .dropLock _, .lock =>
    match c.mutex with
    | none => some ((c.setDrain d .held).hold (.dropLoop d), .tau)
    | some _ => none
  | _, _ => none

/-! ## Threads that update the state -/

/-- The return of a `fetch_update_state` that made its update. -/
def Attempt.ok (k : Attempt) (c : State S T) (t : ThreadId) : State S T :=
  match k with
  | .plain | .first => c.setUpd t .idle
  | .second => (c.setUpd t .releasing).hold (.release (.thread t))

/-- The return of a `fetch_update_state` that made none, after `i` calls of `f`. -/
def Attempt.err (k : Attempt) (c : State S T) (t : ThreadId) (f : UpdateFn S) (i : ℕ) :
    State S T × Event S :=
  match k with
  | .plain => (c.setUpd t .idle, .tau)
  | .first => (c.setUpd t (.waitLock f i), .tau)
  | .second => ((c.setUpd t .idle).hold .guard, .guarded t)

/-- The loop test of `fetch_update_state`, on the tail just loaded. -/
def Attempt.test (k : Attempt) (c : State S T) (t : ThreadId) (f : UpdateFn S) (i : ℕ) :
    State S T × Event S :=
  match c.mem.tail with
  | .state s => (c.setUpd t (.attempt f i k s), .tau)
  | .ptr _ => k.err c t f i

/-- The next instruction of the thread `t`. -/
def threadStep [DecidableEq S] (c : State S T) (t : ThreadId) (weak : Bool) :
    Option (State S T × Event S) :=
  match c.upd t with
  | .attempt f i k s =>
    match f i s with
    | none => some (k.err c t f (i + 1))
    | some s' =>
      if c.mem.tail = .state s ∧ weak = false then
        some (k.ok (c.withMem (c.mem.setTail (.state s'))) t, .update t s s')
      else some (k.test c t f (i + 1))
  | .waitLock f i =>
    match c.mutex with
    | none => some ((c.setUpd t (.secondLoad f i)).hold (.upd t), .tau)
    | some _ => none
  | .secondLoad f i => some (Attempt.second.test c t f i)
  | .waitEmpty =>
    match c.mutex with
    | none => some ((c.setUpd t .emptyLoad).hold (.upd t), .tau)
    | some _ => none
  | .emptyLoad =>
    match c.mem.tail with
    | .state _ => some ((c.setUpd t .releasing).hold (.release (.thread t)), .tau)
    | .ptr _ => some ((c.setUpd t .idle).hold .guard, .guarded t)
  | .idle | .releasing => none

/-- A call of the thread `t`. -/
def threadCall [DecidableEq S] (c : State S T) (t : ThreadId) (k : ThreadCall S) :
    Option (State S T × Event S) :=
  match c.upd t, k with
  | .idle, .compareExchangeState cur new =>
    if c.mem.tail = .state cur then
      some (c.withMem (c.mem.setTail (.state new)), .update t cur new)
    else some (c, .tau)
  | .idle, .fetchUpdateState f => some (Attempt.plain.test c t f 0)
  | .idle, .fetchUpdateStateOrLock f => some (Attempt.first.test c t (.ofTotal f) 0)
  | .idle, .fetchUpdateStateLocked f => some (c.setUpd t (.waitLock (.ofTotal f) 0), .tau)
  | .idle, .isEmptyOrLock =>
    match c.mem.tail with
    | .state _ => some (c, .tau)
    | .ptr _ => some (c.setUpd t .waitEmpty, .tau)
  | _, _ => none

/-! ## The machine -/

/-- One atomic step. -/
def step [DecidableEq S] [QueueState S] (cfg : Config) (c : State S T) (a : Act S T) :
    Option (State S T × Event S) :=
  match a with
  | .lock =>
    match c.mutex with
    | none => some (c.hold .guard, .tau)
    | some _ => none
  | .holder =>
    match c.mutex with
    | none => none
    | some p => holderStep cfg c p
  | .holderCall k =>
    match c.mutex with
    | none => none
    | some p => holderCall c p k
  | .owner x weak => ownerStep cfg c x weak
  | .ownerCall x k => ownerCall c x k
  | .thread t weak => threadStep c t weak
  | .threadCall t k => threadCall c t k
  | .drain d k => drainStep c d k

end Aiq
