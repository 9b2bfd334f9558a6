import Mathlib.Data.Nat.Notation
import Mathlib.Logic.Function.Basic

/-!
# The shared memory of a queue

The words a queue and its nodes share between threads (`queue.rs`, `node.rs`): the `tail`, the
`prev` and `next` fields of every `NodeLink`, the queue's `head`, the `parked_next` word and the
parker's token. A `NodeLink` is a node of a user or the sentinel of a `Drain`; both are addressed
by `Addr`. A `*mut NodeLink` is a `Ptr`: an address or one of the small values `0`, `1`, `2`, which
no `NodeLink` has because it is aligned to four bytes. A `&AtomicPtr<NodeLink>` that holds a forward
link is a `Loc`: the queue's `head` or the `next` field of a `NodeLink`.

The tail word is kept decoded, as the `StateOrPtr` that `tail_to_enum` reads from it. Since the
encoding of the states that the queue accepts is injective, comparing decoded values is comparing
words.
-/

namespace Aiq

/-- Addresses of user nodes. -/
abbrev NodeId := ℕ

/-- Identities of `Drain` values. -/
abbrev DrainId := ℕ

/-- Identities of the threads that update the queue's state or ask for its lock. -/
abbrev ThreadId := ℕ

/-- The address of a `NodeLink`. -/
inductive Addr
  | node (x : NodeId)
  | sentinel (d : DrainId)
  deriving DecidableEq

/-- A `*mut NodeLink`: null, the small values `1` and `2`, or an address. -/
inductive Ptr
  | null
  | one
  | two
  | to (a : Addr)
  deriving DecidableEq

/-- A `&AtomicPtr<NodeLink>` holding a forward link. -/
inductive Loc
  | head
  | next (a : Addr)
  deriving DecidableEq

/-- `RawNodeState`. -/
inductive RawNodeState
  | unqueued
  | queued
  | dequeued
  deriving DecidableEq

/-- `RawNodeState::into_ptr`. -/
def RawNodeState.intoPtr : RawNodeState → Ptr
  | .unqueued => .null
  | .queued => .two
  | .dequeued => .one

/-- `HEAD_MARKER`. -/
def headMarker : Ptr := RawNodeState.queued.intoPtr

/-- The `PARKED` marker of `wait_for_next`. -/
def parked : Ptr := .one

/-- `NodeLink::state` as a function of the `prev` word: `addr().min(2)`. -/
def Ptr.state : Ptr → RawNodeState
  | .null => .unqueued
  | .one => .dequeued
  | .two => .queued
  | .to _ => .queued

theorem Ptr.state_eq_unqueued {p : Ptr} : p.state = .unqueued ↔ p = .null := by
  cases p <;> simp [state]

theorem Ptr.state_eq_dequeued {p : Ptr} : p.state = .dequeued ↔ p = .one := by
  cases p <;> simp [state]

/-- `StateOrPtr`, the decoded tail. -/
inductive StateOrPtr (S : Type)
  | state (s : S)
  | ptr (a : Addr)
  deriving DecidableEq

/-- `StateOrPtr::state`. -/
def StateOrPtr.state? {S : Type} : StateOrPtr S → Option S
  | .state s => some s
  | .ptr _ => none

/-- `StateOrPtr::tail`. -/
def StateOrPtr.tail? {S : Type} : StateOrPtr S → Option Addr
  | .state _ => none
  | .ptr a => some a

/-- The states a queue can hold. `null` is the state that the null tail decodes to. -/
class QueueState (S : Type) where
  null : S

instance : QueueState Unit where
  null := ()

instance : QueueState ℕ where
  null := 0

/-- The `prev` value and the link location of a node whose predecessor is `p`:
`prev.map_or(HEAD_MARKER, as_ptr)` and `prev.map_or(&self.head, |p| &p.next)`. -/
def prevPtr : Option Addr → Ptr
  | none => headMarker
  | some a => .to a

/-- See `prevPtr`. -/
def prevLoc : Option Addr → Loc
  | none => .head
  | some a => .next a

/-- The link location that `remove_with_prev` computes from a `prev` word. Only `HEAD_MARKER` and
addresses are passed. -/
def Ptr.prevNext : Ptr → Loc
  | .to a => .next a
  | _ => .head

/-- The shared memory. `S` is the type of queue states, `T` that of node data. -/
structure Mem (S T : Type) where
  tail : StateOrPtr S
  prev : Addr → Ptr
  link : Loc → Ptr
  parkedNext : Option Loc
  token : Bool
  data : NodeId → T

namespace Mem

variable {S T : Type} (m : Mem S T)

/-- `tail` store. -/
def setTail (t : StateOrPtr S) : Mem S T := { m with tail := t }

/-- `prev` store. -/
def setPrev (a : Addr) (p : Ptr) : Mem S T := { m with prev := Function.update m.prev a p }

/-- `next` or `head` store. -/
def setLink (l : Loc) (p : Ptr) : Mem S T := { m with link := Function.update m.link l p }

/-- `parked_next` store. -/
def setParkedNext (l : Option Loc) : Mem S T := { m with parkedNext := l }

/-- The parker's token: set by `unpark`, consumed by `park`. -/
def setToken (b : Bool) : Mem S T := { m with token := b }

/-- A write to a node's data. -/
def setData (x : NodeId) (v : T) : Mem S T := { m with data := Function.update m.data x v }

/-- `Node::raw_state`. -/
def rawState (x : NodeId) : RawNodeState := (m.prev (.node x)).state

/-- `Queue::state`. -/
def queueState : Option S := m.tail.state?

section Fields

variable (t : StateOrPtr S) (a b : Addr) (l k : Loc) (p : Ptr) (o : Option Loc) (e : Bool)
  (x : NodeId) (v : T)

@[simp] theorem tail_setTail : (m.setTail t).tail = t := rfl
@[simp] theorem prev_setTail : (m.setTail t).prev = m.prev := rfl
@[simp] theorem link_setTail : (m.setTail t).link = m.link := rfl
@[simp] theorem parkedNext_setTail : (m.setTail t).parkedNext = m.parkedNext := rfl
@[simp] theorem token_setTail : (m.setTail t).token = m.token := rfl
@[simp] theorem tail_setPrev : (m.setPrev a p).tail = m.tail := rfl
@[simp] theorem link_setPrev : (m.setPrev a p).link = m.link := rfl
@[simp] theorem parkedNext_setPrev : (m.setPrev a p).parkedNext = m.parkedNext := rfl
@[simp] theorem token_setPrev : (m.setPrev a p).token = m.token := rfl
@[simp] theorem tail_setLink : (m.setLink l p).tail = m.tail := rfl
@[simp] theorem prev_setLink : (m.setLink l p).prev = m.prev := rfl
@[simp] theorem parkedNext_setLink : (m.setLink l p).parkedNext = m.parkedNext := rfl
@[simp] theorem token_setLink : (m.setLink l p).token = m.token := rfl
@[simp] theorem tail_setParkedNext : (m.setParkedNext o).tail = m.tail := rfl
@[simp] theorem prev_setParkedNext : (m.setParkedNext o).prev = m.prev := rfl
@[simp] theorem link_setParkedNext : (m.setParkedNext o).link = m.link := rfl
@[simp] theorem parkedNext_setParkedNext : (m.setParkedNext o).parkedNext = o := rfl
@[simp] theorem token_setParkedNext : (m.setParkedNext o).token = m.token := rfl
@[simp] theorem tail_setToken : (m.setToken e).tail = m.tail := rfl
@[simp] theorem prev_setToken : (m.setToken e).prev = m.prev := rfl
@[simp] theorem link_setToken : (m.setToken e).link = m.link := rfl
@[simp] theorem parkedNext_setToken : (m.setToken e).parkedNext = m.parkedNext := rfl
@[simp] theorem token_setToken : (m.setToken e).token = e := rfl
@[simp] theorem tail_setData : (m.setData x v).tail = m.tail := rfl
@[simp] theorem prev_setData : (m.setData x v).prev = m.prev := rfl
@[simp] theorem link_setData : (m.setData x v).link = m.link := rfl
@[simp] theorem parkedNext_setData : (m.setData x v).parkedNext = m.parkedNext := rfl
@[simp] theorem token_setData : (m.setData x v).token = m.token := rfl

@[simp] theorem data_setTail : (m.setTail t).data = m.data := rfl
@[simp] theorem data_setPrev : (m.setPrev a p).data = m.data := rfl
@[simp] theorem data_setLink : (m.setLink l p).data = m.data := rfl
@[simp] theorem data_setParkedNext : (m.setParkedNext o).data = m.data := rfl
@[simp] theorem data_setToken : (m.setToken e).data = m.data := rfl

theorem data_setData (y : NodeId) : (m.setData x v).data y = if y = x then v else m.data y := by
  simp [setData, Function.update_apply]

theorem prev_setPrev : (m.setPrev a p).prev b = if b = a then p else m.prev b := by
  simp [setPrev, Function.update_apply]

theorem link_setLink : (m.setLink l p).link k = if k = l then p else m.link k := by
  simp [setLink, Function.update_apply]

@[simp] theorem prev_setPrev_self : (m.setPrev a p).prev a = p := by simp [prev_setPrev]

@[simp] theorem link_setLink_self : (m.setLink l p).link l = p := by simp [link_setLink]

end Fields

end Mem

end Aiq
