import Aiq.Task.Op

/-!
# Tasks

The users of a queue are tasks: each runs a program that calls the operations of the queue and of a
node that the task owns, one after the other. A `Client` is such a program, given by what a task does
next when the operation it called has returned (`Client.next`). While an operation is under way the
task makes the instructions of that operation (`World.instruction`), so an execution of a client is an
execution of the machine in which every step is made by some task, in any order of the tasks.

A task that has the lock is recorded in `lockedBy`; the calls on what it holds the lock with are calls
of that task.
-/

namespace Aiq

/-- Identities of tasks. The task `i` owns the node `i` and updates the queue's state as the thread
`i`. -/
abbrev TaskId := ℕ

/-- A `match_state` closure that does not unwind. -/
def MatchState.ofBool {S : Type} (m : Option S → Bool) : MatchState S := fun _ s =>
  if m s then .accept else .refuse

/-- A call of a task: on its own node, on the queue, or on what it holds the lock with. -/
inductive Call (S T : Type)
  | create (v : T)
  | state
  | tryEnqueue (m : Option S → Bool)
  | release
  | reset
  | withDataMut (g : T → T)
  | drop
  | thread (k : ThreadCall S)
  | lock
  | holder (k : HolderCall S T)
  /-- The closure of `execute_unlocked` returns. -/
  | drainReturn (d : DrainId)
  /-- `execute_unlocked` locks the mutex again. -/
  | drainLock (d : DrainId)

/-- The call, made by the task `i`. -/
def Call.act {S T : Type} (i : TaskId) : Call S T → Act S T
  | .create v => .ownerCall i (.create v)
  | .state => .ownerCall i .state
  | .tryEnqueue m => .ownerCall i (.enqueue (.ofBool m))
  | .release => .ownerCall i .release
  | .reset => .ownerCall i .reset
  | .withDataMut g => .ownerCall i (.withDataMut g)
  | .drop => .ownerCall i .drop
  | .thread k => .threadCall i k
  | .lock => .lock
  | .holder k => .holderCall k
  | .drainReturn d => .drain d .return
  | .drainLock d => .drain d .lock

/-- The call is one on what the lock is held with. -/
def Call.onLock {S T : Type} : Call S T → Bool
  | .holder _ => true
  | _ => false

/-- The state of a client: the queue, the task that has the lock, the control states of the tasks, and
the memory `G` that they share besides the queue. -/
structure World (S T P G : Type) where
  q : State S T
  lockedBy : Option TaskId
  pc : TaskId → P
  shared : G

/-- What a task does next: a call on the queue, if any, and where the task goes on, which may depend on
the event of the call and on the state after it. -/
structure Instr (S T P G : Type) where
  call : Option (Call S T)
  pc : Event S → State S T → P
  shared : G

/-- The program of the tasks. `next w i n` is what the task `i` does in `w` on the input `n`, given
that no operation of it is under way; `observe w i e q` is where it goes on after an instruction of its
operation with the event `e`, which leads to `q`. -/
structure Client (S T P G I : Type) where
  next : World S T P G → TaskId → I → Option (Instr S T P G)
  observe : World S T P G → TaskId → Event S → State S T → P × G

section Step

variable {S T P G I : Type}

/-- The task that has the lock after a step of `i` that leads to `q`. -/
def nextLock (l : Option TaskId) (i : TaskId) (q : State S T) : Option TaskId :=
  if q.mutex.isSome then some (l.getD i) else none

/-- The instruction of the operation of the task `i` that is under way. -/
def World.instruction (w : World S T P G) (i : TaskId) (weak : Bool) : Option (Act S T) :=
  if (w.q.own i).runs then some (.owner i weak)
  else if (w.q.upd i).runs then some (.thread i weak)
  else if w.lockedBy = some i ∧ w.q.mutex.any HolderPc.runs then some .holder
  else none

/-- The state after a step of the task `i`. -/
def World.moved (w : World S T P G) (i : TaskId) (q : State S T) (p : P) (g : G) : World S T P G :=
  ⟨q, nextLock w.lockedBy i q, Function.update w.pc i p, g⟩

variable [DecidableEq S] [QueueState S]

/-- The task `i` makes the call `k`. -/
def World.call (cfg : Config) (w : World S T P G) (i : TaskId) (k : Call S T) :
    Option (State S T × Event S) :=
  if k.onLock = true ∧ w.lockedBy ≠ some i then none else step cfg w.q (k.act i)

/-- One step of the task `i`. -/
def Client.step (C : Client S T P G I) (cfg : Config) (w : World S T P G) (i : TaskId) (weak : Bool)
    (n : I) : Option (World S T P G) :=
  match w.instruction i weak with
  | some k =>
    match Aiq.step cfg w.q k with
    | none => none
    | some (q, e) => some (w.moved i q (C.observe w i e q).1 (C.observe w i e q).2)
  | none =>
    match C.next w i n with
    | none => none
    | some r =>
      match r.call with
      | none => some { w with pc := Function.update w.pc i (r.pc .tau w.q), shared := r.shared }
      | some k =>
        match w.call cfg i k with
        | none => none
        | some (q, e) => some (w.moved i q (r.pc e q) r.shared)

/-- The event of a step of the task `i`. -/
def Client.event (C : Client S T P G I) (cfg : Config) (w : World S T P G) (i : TaskId) (weak : Bool)
    (n : I) : Option (Event S) :=
  match w.instruction i weak with
  | some k => (Aiq.step cfg w.q k).map Prod.snd
  | none =>
    match C.next w i n with
    | none => none
    | some r =>
      match r.call with
      | none => some .tau
      | some k => (w.call cfg i k).map Prod.snd

end Step

end Aiq
