import Aiq.Machine.State

/-!
# What the queue is for

The abstract object behind a queue: the list of its nodes in the order in which they were enqueued,
the state that the queue holds while that list is empty, and for every `Drain` the nodes that it
took and what became of them. An event of the machine changes it in one atomic step (`Abs.apply`),
and there are things it may not do (`Abs.Allows`): enqueue a node twice, return from `dequeue`
another node than the first, update the state of a queue that has nodes, and so on.
-/

namespace Aiq

/-- The nodes that a `Drain` took from the queue. -/
structure DrainLog where
  /-- The queue at the tail swap. -/
  orig : List NodeId
  /-- Removed by dropping a `NodeDrained` that `next` returned. -/
  yielded : List NodeId
  /-- Removed by `Drain::drop`. -/
  flushed : List NodeId
  /-- Removed by their owners. -/
  left : List NodeId
  /-- Not removed yet. -/
  rest : List NodeId

namespace DrainLog

/-- No node was taken. -/
def empty : DrainLog := ⟨[], [], [], [], []⟩

/-- The nodes `l` were taken. -/
def start (l : List NodeId) : DrainLog := ⟨l, [], [], [], l⟩

/-- The owner of `x` removes it. -/
def leave (g : DrainLog) (x : NodeId) : DrainLog :=
  if x ∈ g.rest then { g with left := g.left ++ [x], rest := g.rest.erase x } else g

/-- The `Drain` removes `x`. -/
def remove (g : DrainLog) (x : NodeId) (flush : Bool) : DrainLog :=
  if flush then { g with flushed := g.flushed ++ [x], rest := g.rest.erase x }
  else { g with yielded := g.yielded ++ [x], rest := g.rest.erase x }

@[simp] theorem rest_leave (g : DrainLog) (x : NodeId) : (g.leave x).rest = g.rest.erase x := by
  unfold leave
  split
  · rfl
  · rename_i h
    exact (List.erase_of_not_mem h).symm

@[simp] theorem rest_remove (g : DrainLog) (x : NodeId) (flush : Bool) :
    (g.remove x flush).rest = g.rest.erase x := by
  cases flush <;> rfl

end DrainLog

/-- The abstract queue. `state` is its state while `queue` is empty. -/
structure Abs (S : Type) where
  queue : List NodeId
  state : S
  drained : DrainId → DrainLog

namespace Abs

variable {S : Type}

/-- An empty queue. -/
def init (s : S) : Abs S := ⟨[], s, fun _ => .empty⟩

/-- The tail word of the queue. -/
def tail (a : Abs S) : StateOrPtr S :=
  match a.queue.getLast? with
  | none => .state a.state
  | some x => .ptr (.node x)

theorem tail_eq_state_iff {a : Abs S} {s : S} : a.tail = .state s ↔ a.queue = [] ∧ a.state = s := by
  unfold tail
  cases h : a.queue.getLast? with
  | none => simp [List.getLast?_eq_none_iff.1 h]
  | some x =>
    have hne : a.queue ≠ [] := by rintro e; simp [e] at h
    simp [hne]

theorem tail_eq_ptr_iff {a : Abs S} {b : Addr} :
    a.tail = .ptr b ↔ ∃ x, a.queue.getLast? = some x ∧ b = .node x := by
  unfold tail
  cases a.queue.getLast? <;> simp [eq_comm]

theorem queue_ne_nil_of_tail {a : Abs S} {b : Addr} (h : a.tail = .ptr b) : a.queue ≠ [] := by
  obtain ⟨x, hx, -⟩ := tail_eq_ptr_iff.1 h
  rintro e
  simp [e] at hx

/-- The effect of an event. -/
def apply (a : Abs S) : Event S → Abs S
  | .enqueue x => { a with queue := a.queue ++ [x] }
  | .update _ _ s' => { a with state := s' }
  | .remove x s =>
    { queue := a.queue.erase x
      state := if a.queue = [x] then s else a.state
      drained := fun d => (a.drained d).leave x }
  | .drain d s =>
    { queue := []
      state := s
      drained := Function.update a.drained d (.start a.queue) }
  | .drainEmpty d => { a with drained := Function.update a.drained d .empty }
  | .drainRemove d x flush =>
    { a with drained := Function.update a.drained d ((a.drained d).remove x flush) }
  | _ => a

/-- The node `x` is in the queue or in the list of some `Drain`. -/
def Member (a : Abs S) (x : NodeId) : Prop := x ∈ a.queue ∨ ∃ d, x ∈ (a.drained d).rest

/-- The events that may happen. -/
def Allows (a : Abs S) : Event S → Prop
  | .enqueue x => ¬ a.Member x
  | .update _ s _ => a.queue = [] ∧ a.state = s
  | .guarded _ => a.queue ≠ []
  | .dequeue o => a.queue.head? = o
  | .pop o => a.queue.getLast? = o
  | .requeue x => x ∈ a.queue
  | .remove x _ => a.Member x
  | .drain _ _ => a.queue ≠ []
  | .drainEmpty _ => a.queue = []
  | .next d o => (a.drained d).rest.head?.map Addr.node = o
  | .drainRemove d x _ => (a.drained d).rest.head? = some x
  | .dropDrain d => (a.drained d).rest = []
  | _ => True

end Abs

end Aiq
