import Aiq.Inv.Chain
import Aiq.Machine.Run

/-!
# The invariant

`Inv cfg c a`: the state `c` of the machine represents the abstract queue `a`. Besides the shape of
the lists it says, for every party, what its control state knows: an owner inside the CAS loop of
`enqueue` has its node in no list and with a null `next` (`OwnOk`), a lock holder inside
`remove_with_prev` knows the place of its node (`Removing`), and so on (`HolderOk`). Every fact that
a party relies on is kept by the steps of the others; what the holder knows about the queue is
therefore only said of its present elements, to which enqueuers add behind.
-/

namespace Aiq

variable {S T : Type}

/-! ## Views of the control states -/

/-- The link that an enqueuer has yet to write. -/
def OwnPc.pend : OwnPc S → Option Loc
  | .link p => some (prevLoc p)
  | _ => none

/-- The element whose link the holder has yet to write. -/
def HolderPc.hole : HolderPc S → Option Addr
  | .rmCas r => some (.node r.node)
  | .get _ _ (.relink r) => some (.node r.node)
  | .rmSetPrev r _ => some (.node r.node)
  | .rmSetNext _ b => some b
  | .drainSwap _ b _ => some b
  | _ => none

/-- The node that is out of its list and not marked as dequeued yet. -/
def HolderPc.leaving : HolderPc S → Option NodeId
  | .rmSetNext r _ => some r.node
  | .rmDone r _ => some r.node
  | .ddDone _ (.node x) _ => some x
  | _ => none

/-- The link that holds the `PARKED` marker. -/
def HolderPc.parkedAt : HolderPc S → Option Loc
  | .get l .park _ => some l
  | .get l .reload _ => some l
  | _ => none

/-- The `Drain` that holds the lock. -/
def HolderPc.drainId : HolderPc S → Option DrainId
  | .get _ _ (.drained d _ _) => some d
  | .drain d | .drained d _ | .ddPrev d _ _ | .ddSetHead d _ _ _ | .ddDone d _ _ | .exPrev d _
  | .exTail d | .exTailStore d _ | .exUnlock d _ | .exCheck d | .exSetNull d | .dropLoop d
  | .drainFree d => some d
  | _ => none

namespace State

variable (c : State S T)

/-- See `OwnPc.pend`. -/
def pend (x : NodeId) : Option Loc := (c.own x).pend

/-- See `HolderPc.hole`. -/
def hole : Option Addr := c.mutex.bind HolderPc.hole

/-- See `HolderPc.leaving`. -/
def leaving : Option NodeId := c.mutex.bind HolderPc.leaving

/-- See `HolderPc.parkedAt`. -/
def parkedAt : Option Loc := c.mutex.bind HolderPc.parkedAt

/-- Whether the list of `d` is circular. -/
def lk (d : DrainId) : Bool := (c.drains d).linked

/-- The elements of the lists. -/
def ch (a : Abs S) : ListId → List Addr := chain a c.drains

end State

/-! ## Owners -/

/-- The node is in no list, and is not on its way out of one. -/
def Out (ch : ListId → List Addr) (lv : Option NodeId) (x : NodeId) : Prop :=
  (∀ i, Addr.node x ∉ ch i) ∧ lv ≠ some x

/-- A pointer that is not to a sentinel. -/
def Ptr.NoSentinel (p : Ptr) : Prop := ∀ d, p ≠ .to (.sentinel d)

/-- A tail that is not a sentinel. -/
def StateOrPtr.NoSentinel (t : StateOrPtr S) : Prop := ∀ d, t ≠ .ptr (.sentinel d)

/-- What the owner of `x` knows. -/
def OwnOk (m : Mem S T) (ch : ListId → List Addr) (lv : Option NodeId) (x : NodeId) :
    OwnPc S → Prop
  | .dead => Out ch lv x ∧ (m.prev (.node x)).state ≠ .queued
  | .idle | .parkedLoad _ | .unpark => Out ch lv x →
      m.prev (.node x) = .one ∨ m.prev (.node x) = .null ∧ m.link (.next (.node x)) = .null
  | .unqueued => Out ch lv x ∧ m.prev (.node x) = .null ∧ m.link (.next (.node x)) = .null
  | .dequeued => Out ch lv x ∧ m.prev (.node x) = .one
  | .resetNext => Out ch lv x ∧ m.prev (.node x) = .null
  | .waitState | .waitDrop | .locked => Out ch lv x → m.prev (.node x) = .one
  | .check _ i t => Out ch lv x ∧ m.link (.next (.node x)) = .null ∧
      (m.prev (.node x)).NoSentinel ∧ t.NoSentinel ∧ (i = 0 → m.prev (.node x) = .null)
  | .refuse => Out ch lv x ∧ m.link (.next (.node x)) = .null ∧ (m.prev (.node x)).NoSentinel
  | .store f i t => Out ch lv x ∧ m.link (.next (.node x)) = .null ∧
      (m.prev (.node x)).NoSentinel ∧ t.NoSentinel ∧ f i t.state? = .accept
  | .cas f i t => Out ch lv x ∧ m.link (.next (.node x)) = .null ∧
      m.prev (.node x) = prevPtr t.tail? ∧ t.NoSentinel ∧ f i t.state? = .accept
  | .link _ => True

/-! ## Drains and threads -/

/-- The sentinel of a `Drain` that holds its lock. The second alternative of `empty` is the one that
`execute_unlocked` finds when all nodes removed themselves. -/
structure OpenOk (m : Mem S T) (l : List NodeId) (d : DrainId) : Prop where
  last : ∀ {z}, l.getLast? = some z → m.prev (.sentinel d) = .to (.node z) ∧
    (m.link (.next (.node z)) = .null ∨ m.link (.next (.node z)) = .to (.sentinel d))
  empty : l = [] → m.link (.next (.sentinel d)) = .null ∨
    m.link (.next (.sentinel d)) = .to (.sentinel d) ∧ m.prev (.sentinel d) = .to (.sentinel d)

/-- What is known of the `Drain` `d`. -/
def DrainOk (m : Mem S T) (l : List NodeId) (d : DrainId) : DrainPc → Prop
  | .none | .gone => l = []
  | .held => OpenOk m l d
  | .running lk | .relock lk | .loose lk | .dropLock lk =>
    lk = false → l = [] ∧ m.link (.next (.sentinel d)) = .null

/-- The update closure always makes an update. -/
def UpdateFn.Total (f : UpdateFn S) : Prop := ∀ i s, f i s ≠ none

/-- A thread in the second half of an `*_or_lock` call holds the mutex. -/
def ThreadOk (p : Option (HolderPc S)) (t : ThreadId) : UpdPc S → Prop
  | .attempt f _ .first _ | .waitLock f _ => f.Total
  | .secondLoad f _ | .attempt f _ .second _ => f.Total ∧ p = some (.upd t)
  | .emptyLoad => p = some (.upd t)
  | .releasing => p = some (.release (.thread t))
  | _ => True

/-! ## The holder -/

section Holder

variable (cfg : Config) (c : State S T) (a : Abs S)

/-- The owner of `r.node` waits for the end of the removal, if the removal is its own. -/
def OwnerWaits (r : Removal S) : Prop := r.caller ≠ .handle → c.own r.node = .locked

/-- The node to remove is the element `r.node` of the list `i`, and `r.prev` is its `prev`. -/
structure Removing (r : Removal S) (i : ListId) : Prop where
  mem : .node r.node ∈ c.ch a i
  prev : r.prev = inPrev (c.ch a) i (.node r.node)
  waits : OwnerWaits c r

/-- The enqueuer of `b` is not between its tail CAS and its link write. -/
def Written (b : Addr) : Prop := ∀ x, b = .node x → c.pend x = none

/-- The sentinel of `d` is in use: the list of `d` is circular, or `d` holds the lock. -/
def Live (d : DrainId) : Prop := c.lk d = true ∨ c.drains d = .held

/-- The node `x` is out of its list, still marked as queued, and its words are as they were. -/
structure Leaving (x : NodeId) : Prop where
  out : ∀ i, .node x ∉ c.ch a i
  queued : (c.mem.prev (.node x)).state = .queued
  prev : ∀ {d}, c.mem.prev (.node x) = .to (.sentinel d) → Live c d
  next : ∀ {d}, c.mem.link (.next (.node x)) = .to (.sentinel d) → Live c d

/-- The element `y` of the list `i` that `get_next` waits for. -/
def Awaited (k : GetCont S) (i : ListId) (y : Addr) : Prop :=
  match k with
  | .dequeue => i = .queue ∧ (c.ch a i).head? = some y
  | .waitEnqueued r => y = .node r.node ∧ Removing c a r i
  | .relink r => (c.ch a i).predOf y = some (.node r.node) ∧ Removing c a r i ∧
      c.pend r.node = none
  | .drainNew d _ => i = .queue ∧ (c.ch a i).head? = some y ∧ c.drains d = .none
  | .drained d b _ => i = .drain d ∧ (c.ch a i).head? = some b ∧ (c.ch a i).predOf y = some b

/-- What `get_next` knows at each of its instructions. -/
def GetPcOk (l : Loc) : GetPc → Prop
  | .load => True
  | .spin _ => cfg.variant ≠ .neverBlocks
  | .cas => cfg.variant = .x86
  | .setParked => cfg.variant = .parkedNext
  | .park | .reload => (cfg.variant = .x86 → c.mem.link l ≠ .null) ∧
      (cfg.variant = .parkedNext → c.mem.parkedNext = some l)
  | .clear v => cfg.variant = .parkedNext ∧ c.mem.link l = v ∧ v ≠ .null

/-- The first node's `prev` is the sentinel. -/
def FirstPrev (d : DrainId) : Prop :=
  ∃ x, (a.drained d).rest.head? = some x ∧ c.mem.prev (.node x) = .to (.sentinel d)

/-- An exhausted list has a null head. -/
def Exhausted (d : DrainId) : Prop :=
  (a.drained d).rest = [] → c.mem.link (.next (.sentinel d)) = .null

/-- What the holder of the mutex knows. -/
def HolderOk : HolderPc S → Prop
  | .guard => True
  | .get l g k => (∃ i y, y ∈ c.ch a i ∧ inLoc (c.ch a) i y = l ∧ Awaited c a k i y) ∧
      GetPcOk cfg c l g ∧ ∀ r, k = .relink r → (c.mem.link r.prevNext).NoSentinel
  | .dequeue x => a.queue.head? = some x ∧ c.pend x = none
  | .pop x => x ∈ a.queue
  | .rmPrev x _ w k => (∃ i, .node x ∈ c.ch a i) ∧ (w = false → c.pend x = none) ∧
      (k ≠ .handle → c.own x = .locked)
  | .rmNext r | .rmClear r => (∃ i, Removing c a r i) ∧ c.pend r.node = none
  | .rmCas r => (∃ i, Removing c a r i) ∧ c.pend r.node = none ∧ c.mem.link r.prevNext = .null
  | .rmSetPrev r b => (∃ i, Removing c a r i ∧ (c.ch a i).predOf b = some (.node r.node)) ∧
      c.pend r.node = none ∧ Written c b ∧ (c.mem.link r.prevNext).NoSentinel
  | .rmSetNext r b => (∃ i, b ∈ c.ch a i ∧ r.prev = inPrev (c.ch a) i b) ∧ Written c b ∧
      Leaving c a r.node ∧ OwnerWaits c r ∧ (c.mem.link r.prevNext).NoSentinel
  | .rmDone r _ => Leaving c a r.node ∧ OwnerWaits c r
  | .recheck x | .dropRecheck x => c.own x = .locked
  | .queued x => c.own x = .locked ∧ ∃ i, .node x ∈ c.ch a i
  | .release (.state x) => c.own x = .locked ∧ (∀ i, .node x ∉ c.ch a i) ∧
      c.mem.prev (.node x) = .one
  | .release (.node x) => c.own x = .locked ∧ ∀ i, .node x ∉ c.ch a i
  | .release (.thread _) => True
  | .drainClear d b _ => (c.ch a .queue).head? = some b ∧ Written c b ∧ c.drains d = .none
  | .drainSwap d b _ => (c.ch a .queue).head? = some b ∧ Written c b ∧ c.drains d = .none ∧
      c.mem.link .head = .null
  | .drain d => Exhausted c a d
  | .drained d b => (c.ch a (.drain d)).head? = some b
  | .ddPrev d b flush => (c.ch a (.drain d)).head? = some b ∨
      flush = true ∧ (a.drained d).rest = [] ∧ b = .sentinel d ∧
        c.mem.prev (.sentinel d) = .to (.sentinel d)
  | .ddSetHead d b v flush =>
      (∃ x l, (a.drained d).rest = x :: l ∧ b = .node x ∧
        v = l.head?.elim .null (fun y => .to (.node y)) ∧ ∀ y, l.head? = some y → c.pend y = none) ∨
      flush = true ∧ (a.drained d).rest = [] ∧ b = .sentinel d ∧ v = .null
  | .ddDone d b _ => Exhausted c a d ∧
      ((∃ x, b = .node x ∧ Leaving c a x) ∨ (a.drained d).rest = [] ∧ b = .sentinel d)
  | .exPrev d b => (c.ch a (.drain d)).head? = some b
  | .exTail d => FirstPrev c a d
  | .exTailStore d b => FirstPrev c a d ∧ (c.ch a (.drain d)).getLast? = some b
  | .exUnlock d true => FirstPrev c a d ∧ ∃ z, (a.drained d).rest.getLast? = some z ∧
      c.mem.link (.next (.node z)) = .to (.sentinel d)
  | .exUnlock d false => (a.drained d).rest = [] ∧ c.mem.link (.next (.sentinel d)) = .null
  | .exCheck _ | .dropLoop _ => True
  | .exSetNull d | .drainFree d => (a.drained d).rest = []
  | .upd _ => True
  | .fault => False

end Holder

/-- The invariant. -/
structure Inv (cfg : Config) (c : State S T) (a : Abs S) : Prop where
  shape : Shape c.mem (c.ch a) c.lk c.pend c.hole
  tail : c.mem.tail = a.tail
  last : c.mem.link (prevLoc (a.queue.getLast?.map .node)) = .null
  parked : ∀ {l}, c.mem.link l = .one → c.parkedAt = some l ∧ cfg.variant = .x86
  own : ∀ x, OwnOk c.mem (c.ch a) c.leaving x (c.own x)
  drain : ∀ d, DrainOk c.mem (a.drained d).rest d (c.drains d)
  held : ∀ d, c.drains d = .held ↔ c.mutex.bind HolderPc.drainId = some d
  thread : ∀ t, ThreadOk c.mutex t (c.upd t)
  holder : ∀ {p}, c.mutex = some p → HolderOk cfg c a p

/-- The empty queue. -/
theorem Inv.init (cfg : Config) (s : S) (v : T) : Inv cfg (State.init s v) (Abs.init s) := by
  have hch : ∀ i, (State.init s v : State S T).ch (Abs.init s) i = [] := by
    intro i
    cases i <;> simp [State.ch, chain, Abs.init, DrainLog.empty, State.init, DrainPc.linked]
  have hpend : ∀ x, (State.init s v : State S T).pend x = none := fun _ => rfl
  exact
    { shape := by constructor <;> simp [hch, hpend]
      tail := rfl
      last := rfl
      parked := fun h => by simp [State.init] at h
      own := fun x => ⟨⟨fun i => by simp [hch], by simp [State.leaving, State.init]⟩,
        by simp [State.init, Ptr.state]⟩
      drain := fun d => rfl
      held := fun d => by simp [State.init]
      thread := fun t => trivial
      holder := fun h => by simp [State.init] at h }

end Aiq
