import Aiq.UpdateOrLock

/-!
# Operations seen from outside

A user of the queue does not see the instructions of an operation, only that it is under way or has
returned. This module gives the control states of the machine that coarser view: what the holder of the
mutex is doing (`HolderPc.op`), and whether a party has an instruction to make by itself
(`HolderPc.runs`, `OwnPc.runs`, `UpdPc.runs`). One step of the holder goes on with its operation or ends
it (`holderStep_op`), and the data of the nodes changes only where a handle or an owner writes to it.
-/

namespace Aiq

variable {S T : Type} {cfg : Config} {c c' : State S T} {a : Abs S} {e : Event S} {x : NodeId}

/-- What the holder of the mutex is doing. -/
inductive HolderOp (S : Type)
  | guard
  | dequeuing
  /-- A `Dequeue` or a `Pop`. -/
  | handle (x : NodeId)
  /-- `remove_with_prev`, up to the store of `Dequeued`. -/
  | removing (x : NodeId) (s : S) (k : Caller)
  | checking (x : NodeId)
  | queued (x : NodeId)
  | dropping (x : NodeId)
  | releasing (k : Release)
  | newDrain (d : DrainId) (s : S)
  | drain (d : DrainId)
  /-- A `NodeDrained`. -/
  | drained (d : DrainId) (b : Addr)
  | dropDrained (d : DrainId) (b : Addr)
  | unlocking (d : DrainId)
  | relocking (d : DrainId)
  | closing (d : DrainId)
  | upd (t : ThreadId)
  | fault

/-- The operation that returns when `get_next` does. -/
def GetCont.op : GetCont S → HolderOp S
  | .dequeue => .dequeuing
  | .waitEnqueued r | .relink r => .removing r.node r.newTail r.caller
  | .drainNew d s => .newDrain d s
  | .drained d b flush => if flush then .closing d else .dropDrained d b

/-- The operation that a control state of the holder belongs to. -/
def HolderPc.op : HolderPc S → HolderOp S
  | .guard => .guard
  | .get _ _ k => k.op
  | .dequeue x | .pop x => .handle x
  | .rmPrev x s _ k => .removing x s k
  | .rmNext r | .rmClear r | .rmCas r | .rmSetPrev r _ | .rmSetNext r _ | .rmDone r _ =>
    .removing r.node r.newTail r.caller
  | .recheck x => .checking x
  | .queued x => .queued x
  | .dropRecheck x => .dropping x
  | .release k => .releasing k
  | .drainClear d _ s | .drainSwap d _ s => .newDrain d s
  | .drain d => .drain d
  | .drained d b => .drained d b
  | .ddPrev d b flush | .ddSetHead d b _ flush | .ddDone d b flush =>
    if flush then .closing d else .dropDrained d b
  | .exPrev d _ | .exTail d | .exTailStore d _ | .exUnlock d _ => .unlocking d
  | .exCheck d | .exSetNull d => .relocking d
  | .dropLoop d | .drainFree d => .closing d
  | .upd t => .upd t
  | .fault => .fault

/-- The holder has an instruction to make: it does not hold a value that waits for a call. -/
def HolderPc.runs : HolderPc S → Bool
  | .guard | .dequeue _ | .pop _ | .queued _ | .drain _ | .drained _ _ | .upd _ | .fault => false
  | _ => true

/-- The owner has an instruction to make. -/
def OwnPc.runs : OwnPc S → Bool
  | .dead | .idle | .unqueued | .dequeued | .locked => false
  | _ => true

/-- The thread has an instruction to make. -/
def UpdPc.runs : UpdPc S → Bool
  | .idle | .releasing => false
  | _ => true

/-- What the holder of the mutex is doing, if it is locked. -/
def State.op (c : State S T) : Option (HolderOp S) := c.mutex.map HolderPc.op

/-- The operation may go on for more than one instruction. -/
def HolderOp.long : HolderOp S → Bool
  | .dequeuing | .removing _ _ _ | .newDrain _ _ | .dropDrained _ _ | .unlocking _ | .relocking _
  | .closing _ => true
  | _ => false

/-- One step of an operation `o` under the lock, with its event: what the holder does next, or `none`
when the mutex is released. -/
inductive OpStep [QueueState S] : HolderOp S → Event S → Option (HolderOp S) → Prop
  | more (o : HolderOp S) (h : o.long = true) : OpStep o .tau (some o)
  | dequeue (x : NodeId) : OpStep .dequeuing (.dequeue (some x)) (some (.handle x))
  | remove (x : NodeId) (s : S) (k : Caller) :
      OpStep (.removing x s k) (.remove x s) (some (.removing x s k))
  | removed (x : NodeId) (s : S) (k : Caller) (b : Bool) (h : k ≠ .nodeDrop) :
      OpStep (.removing x s k) (.removed x b) (some .guard)
  | dropped (x : NodeId) (s : S) (b : Bool) :
      OpStep (.removing x s .nodeDrop) (.removed x b) (some (.releasing (.node x)))
  | queued (x : NodeId) : OpStep (.checking x) .tau (some (.queued x))
  | dequeued (x : NodeId) : OpStep (.checking x) .tau (some (.releasing (.state x)))
  | drop (x : NodeId) :
      OpStep (.dropping x) .tau (some (.removing x QueueState.null .nodeDrop))
  | free (x : NodeId) : OpStep (.dropping x) .tau (some (.releasing (.node x)))
  | release (k : Release) : OpStep (.releasing k) .unlock none
  | drain (d : DrainId) (s : S) : OpStep (.newDrain d s) (.drain d s) (some (.drain d))
  | leave (d : DrainId) (x : NodeId) :
      OpStep (.dropDrained d (.node x)) (.drainRemove d x false) (some (.dropDrained d (.node x)))
  | drained (d : DrainId) (b : Addr) :
      OpStep (.dropDrained d b) (.drained d b) (some (.drain d))
  | unlock (d : DrainId) : OpStep (.unlocking d) .unlock none
  | relock (d : DrainId) : OpStep (.relocking d) .tau (some (.drain d))
  | flush (d : DrainId) (x : NodeId) :
      OpStep (.closing d) (.drainRemove d x true) (some (.closing d))
  | flushed (d : DrainId) (b : Addr) : OpStep (.closing d) (.drained d b) (some (.closing d))
  | close (d : DrainId) : OpStep (.closing d) (.dropDrain d) none

theorem getStep_op [QueueState S] {l : Loc} {g : GetPc} {k : GetCont S}
    (hs : getStep cfg c l g k = some (c', e)) (hf : c'.mutex ≠ some .fault) :
    OpStep k.op e c'.op := by
  have hret : ∀ m v, (k.resume v) ≠ .fault →
      OpStep k.op (k.event v) (((c.withMem m).hold (k.resume v)).op) := by
    intro m v hv
    cases k <;> cases v <;> try exact absurd rfl hv
    case dequeue.to b =>
      cases b with
      | node x => exact .dequeue x
      | sentinel d => exact absurd rfl hv
    case drained.to d b flush b' => cases flush <;> exact .more _ rfl
    all_goals exact .more _ rfl
  have hlong : k.op.long = true := by
    cases k <;> try rfl
    case drained d b flush => cases flush <;> rfl
  have hf' : ∀ m v, ((c.withMem m).hold (k.resume v)).mutex ≠ some .fault → k.resume v ≠ .fault :=
    fun m v h hv => h (by simp [hv])
  unfold getStep at hs
  repeat' split at hs
  all_goals
    first
    | (obtain ⟨rfl, rfl⟩ := Prod.mk.inj (Option.some.inj hs)
       first
       | exact .more _ hlong
       | exact hret _ _ (hf' _ _ hf))
    | simp at hs

theorem op_return [QueueState S] {r : Removal S} (b : Bool) :
    OpStep (.removing r.node r.newTail r.caller) (.removed r.node b) (r.return c).op := by
  obtain ⟨x, s, v, k⟩ := r
  cases k
  · exact .removed x s .handle b (by simp)
  · exact .removed x s .queued b (by simp)
  · exact .dropped x s b

/-- A step of the holder goes on with its operation, or ends it. -/
theorem holderStep_op [DecidableEq S] [QueueState S] {p : HolderPc S}
    (hs : holderStep cfg c p = some (c', e)) (hf : c'.mutex ≠ some .fault) : OpStep p.op e c'.op := by
  cases p <;> simp only [holderStep, reduceCtorEq] at hs
  case get l g k => exact getStep_op hs hf
  case rmPrev x s w k =>
    split at hs
    · obtain ⟨rfl, rfl⟩ := Prod.mk.inj (Option.some.inj hs)
      cases w <;> exact .more _ rfl
    · obtain ⟨rfl, rfl⟩ := Prod.mk.inj (Option.some.inj hs)
      exact absurd rfl hf
  case rmCas r =>
    split at hs <;> obtain ⟨rfl, rfl⟩ := Prod.mk.inj (Option.some.inj hs)
    · exact .remove ..
    · exact .more _ rfl
  case rmDone r b =>
    obtain ⟨rfl, rfl⟩ := Prod.mk.inj (Option.some.inj hs)
    exact op_return b
  case recheck x =>
    split at hs <;> obtain ⟨rfl, rfl⟩ := Prod.mk.inj (Option.some.inj hs)
    · exact absurd rfl hf
    · exact .queued x
    · exact .dequeued x
  case dropRecheck x =>
    split at hs <;> obtain ⟨rfl, rfl⟩ := Prod.mk.inj (Option.some.inj hs)
    · exact .drop x
    · exact .free x
  case release k =>
    obtain ⟨rfl, rfl⟩ := Prod.mk.inj (Option.some.inj hs)
    rw [State.op, mutex_release]
    exact .release k
  case drainSwap d b s =>
    split at hs <;> obtain ⟨rfl, rfl⟩ := Prod.mk.inj (Option.some.inj hs)
    · exact .drain d s
    · exact absurd rfl hf
  case ddPrev d b flush =>
    split at hs <;> obtain ⟨rfl, rfl⟩ := Prod.mk.inj (Option.some.inj hs) <;> cases flush <;>
      exact .more _ rfl
  case ddSetHead d b v flush =>
    obtain ⟨rfl, rfl⟩ := Prod.mk.inj (Option.some.inj hs)
    cases b <;> cases flush
    · exact .leave ..
    · exact .flush ..
    · exact .more _ rfl
    · exact .more _ rfl
  case ddDone d b flush =>
    obtain ⟨rfl, rfl⟩ := Prod.mk.inj (Option.some.inj hs)
    cases flush
    · exact .drained ..
    · exact .flushed ..
  case exTail d =>
    split at hs <;> obtain ⟨rfl, rfl⟩ := Prod.mk.inj (Option.some.inj hs)
    · exact .more _ rfl
    · exact absurd rfl hf
  case exUnlock d linked =>
    obtain ⟨rfl, rfl⟩ := Prod.mk.inj (Option.some.inj hs)
    exact .unlock d
  case exCheck d =>
    obtain ⟨rfl, rfl⟩ := Prod.mk.inj (Option.some.inj hs)
    simp only [State.op, State.mutex_hold]
    split
    · exact .more _ rfl
    · exact .relock d
  case exSetNull d =>
    obtain ⟨rfl, rfl⟩ := Prod.mk.inj (Option.some.inj hs)
    exact .relock d
  case dropLoop d =>
    split at hs <;> obtain ⟨rfl, rfl⟩ := Prod.mk.inj (Option.some.inj hs)
    · exact .more _ rfl
    · exact .more _ rfl
    · exact absurd rfl hf
  case drainFree d =>
    obtain ⟨rfl, rfl⟩ := Prod.mk.inj (Option.some.inj hs)
    exact .close d
  case rmNext r =>
    split at hs <;> obtain ⟨rfl, rfl⟩ := Prod.mk.inj (Option.some.inj hs)
    · exact .more _ rfl
    · exact .more _ rfl
    · exact absurd rfl hf
  case rmSetPrev r b =>
    obtain ⟨rfl, rfl⟩ := Prod.mk.inj (Option.some.inj hs)
    exact .remove ..
  all_goals
    obtain ⟨rfl, rfl⟩ := Prod.mk.inj (Option.some.inj hs)
    exact .more _ rfl

/-! ## What an operation leaves alone -/

theorem holderStep_data [DecidableEq S] [QueueState S] {p : HolderPc S}
    (hs : holderStep cfg c p = some (c', e)) : c'.mem.data = c.mem.data := by
  unfold holderStep getStep Mem.newSentinel at hs
  repeat' split at hs
  all_goals grind [State.mem_hold, State.mem_free, State.mem_withMem, State.mem_setDrain, mem_return,
    mem_release, Mem.data_setLink, Mem.data_setTail, Mem.data_setPrev, Mem.data_setParkedNext,
    Mem.data_setToken]

theorem ownerStep_data [DecidableEq S] {weak : Bool} (hs : ownerStep cfg c x weak = some (c', e)) :
    c'.mem.data = c.mem.data := by
  unfold ownerStep at hs
  repeat' split at hs
  all_goals grind [State.mem_hold, State.mem_withMem, State.mem_setOwn, mem_linkStep,
    Mem.data_setLink, Mem.data_setTail, Mem.data_setPrev, Mem.data_setToken]

/-- The owners of the nodes in a step of the holder. -/
theorem holderStep_owner [DecidableEq S] [QueueState S] {p : HolderPc S}
    (hs : holderStep cfg c p = some (c', e)) (x : NodeId) :
    c'.own x = c.own x ∨ p.actor = some x ∧ (∃ b, e = .removed x b) ∧ c'.own x = .idle ∨
      p.op = .releasing (.state x) ∧ c'.own x = .dequeued ∨
      p.op = .releasing (.node x) ∧ c'.own x = .dead := by
  have key := own_setOwn_apply (S := S) (T := T) x
  unfold holderStep getStep Removal.return Release.apply at hs
  unfold HolderPc.op HolderPc.actor
  repeat' split at hs
  all_goals grind [State.own_hold, State.own_free, State.own_withMem, State.own_setDrain,
    State.own_setUpd]

/-- The threads in a step of the holder. -/
theorem holderStep_upd [DecidableEq S] [QueueState S] {p : HolderPc S}
    (hs : holderStep cfg c p = some (c', e)) (t : ThreadId) :
    c'.upd t = c.upd t ∨ p.op = .releasing (.thread t) ∧ c'.upd t = .idle := by
  have key := upd_setUpd_apply (S := S) (T := T) t
  unfold holderStep getStep Removal.return Release.apply at hs
  unfold HolderPc.op
  repeat' split at hs
  all_goals grind [State.upd_hold, State.upd_free, State.upd_withMem, State.upd_setDrain,
    State.upd_setOwn]

end Aiq
