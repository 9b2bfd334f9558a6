import Aiq.Task.Hand

/-!
# The stages of an operation

The views that a task can have from the call of an operation to its return, for the operations of several
instructions that programs call: `state`, `try_enqueue_with_queue_state`, `dequeue_try_set_queue_state`, the
drop of a node, and `fetch_update_state_or_lock`. An instruction stays in its operation (`View.Asked.instr`
and the lemmas of the same name), and a task that rests is at one of its returns (`View.Asked.rests`).
-/

namespace Aiq

variable {S T : Type} [QueueState S] {i : TaskId} {s : Option S} {raw : RawNodeState} {e : Event S}
  {v v' : View S} {f : MatchState S} {t : S} {x : OwnOp S} {g : Option (UpdateFn S)}

/-! ## `state` -/

/-- The view of a task that has called `state`. -/
def View.Asked (i : TaskId) (v : View S) : Prop :=
  v = ⟨.unqueued, .idle, none⟩ ∨ v = ⟨.dequeued, .idle, none⟩ ∨ v = ⟨.waitState, .idle, none⟩ ∨
    v = ⟨.locked, .idle, some (.checking i)⟩ ∨ v = ⟨.locked, .idle, some (.queued i)⟩ ∨
    v = ⟨.locked, .idle, some (.releasing (.state i))⟩

theorem View.Asked.instr (h : v.Asked i) (hs : InstrStep i s v e v') :
    v'.Asked i ∧ (e = .tau ∨ e = .unlock) := by
  rcases h with rfl | rfl | rfl | rfl | rfl | rfl <;> cases hs
  case inr.inr.inl.lockState => simp [Asked]
  all_goals
    rename_i h
    cases h <;> simp_all [Asked, HolderOp.ownAfter, HolderOp.updAfter, HolderOp.long]

omit [QueueState S] in
/-- What `state` has returned. -/
theorem View.Asked.rests (h : v.Asked i) (hr : v.Rests) :
    v = ⟨.unqueued, .idle, none⟩ ∨ v = ⟨.dequeued, .idle, none⟩ ∨
      v = ⟨.locked, .idle, some (.queued i)⟩ := by
  rcases h with rfl | rfl | rfl | rfl | rfl | rfl
  · exact .inl rfl
  · exact .inr (.inl rfl)
  · cases hr.own
  · cases hr.op rfl
  · exact .inr (.inr rfl)
  · cases hr.op rfl

theorem CallStep.asked (h : CallStep i s raw (.state : Call S T) ⟨.idle, .idle, none⟩ e v') :
    v'.Asked i ∧ e = .tau := by
  cases h <;> simp [View.Asked]

/-! ## `try_enqueue_with_queue_state` -/

/-- The view of a task that has called `try_enqueue_with_queue_state`. -/
def View.Entering (f : MatchState S) (v : View S) : Prop :=
  v = ⟨.inserting f, .idle, none⟩ ∨ v = ⟨.refusing, .idle, none⟩ ∨ v = ⟨.unqueued, .idle, none⟩ ∨
    v = ⟨.linking, .idle, none⟩ ∨ v = ⟨.idle, .idle, none⟩

theorem View.Entering.instr (h : v.Entering f) (hs : InstrStep i s v e v') : v'.Entering f := by
  rcases h with rfl | rfl | rfl | rfl | rfl <;> cases hs <;> simp [Entering]

omit [QueueState S] in
/-- What it has returned: the `NodeUnqueued`, or nothing. -/
theorem View.Entering.rests (h : v.Entering f) (hr : v.Rests) :
    v = ⟨.unqueued, .idle, none⟩ ∨ v = ⟨.idle, .idle, none⟩ := by
  rcases h with rfl | rfl | rfl | rfl | rfl
  · cases hr.own
  · cases hr.own
  · exact .inl rfl
  · cases hr.own
  · exact .inr rfl

/-! ## `dequeue_try_set_queue_state` -/

/-- The view of a task that has called `dequeue_try_set_queue_state` with the state `t`. -/
def View.Leaving (i : TaskId) (t : S) (v : View S) : Prop :=
  v = ⟨.locked, .idle, some (.removing i t .queued)⟩ ∨ v = ⟨.idle, .idle, some .guard⟩

theorem View.Leaving.instr (h : v.Leaving i t) (hs : InstrStep i s v e v') : v'.Leaving i t := by
  rcases h with rfl | rfl <;> cases hs <;> rename_i h <;> cases h <;>
    simp_all [Leaving, HolderOp.ownAfter, HolderOp.updAfter, HolderOp.long]

omit [QueueState S] in
theorem View.Leaving.rests (h : v.Leaving i t) (hr : v.Rests) : v = ⟨.idle, .idle, some .guard⟩ := by
  rcases h with rfl | rfl
  · cases hr.op rfl
  · rfl

/-! ## The drop of a node -/

/-- The view of a task that drops its node. -/
def View.Dropping (i : TaskId) (v : View S) : Prop :=
  v = ⟨.waitDrop, .idle, none⟩ ∨ v = ⟨.dead, .idle, none⟩ ∨ v = ⟨.locked, .idle, some (.dropping i)⟩ ∨
    v = ⟨.locked, .idle, some (.removing i QueueState.null .nodeDrop)⟩ ∨
    v = ⟨.locked, .idle, some (.releasing (.node i))⟩

theorem View.Dropping.instr (h : v.Dropping i) (hs : InstrStep i s v e v') : v'.Dropping i := by
  rcases h with rfl | rfl | rfl | rfl | rfl <;> cases hs <;>
    first
    | (simp [Dropping]; done)
    | (rename_i h
       cases h <;> simp_all [Dropping, HolderOp.ownAfter, HolderOp.updAfter, HolderOp.long])

theorem View.Dropping.rests (h : v.Dropping i) (hr : v.Rests) : v = ⟨.dead, .idle, none⟩ := by
  rcases h with rfl | rfl | rfl | rfl | rfl
  · cases hr.own
  · rfl
  all_goals cases hr.op rfl

theorem CallStep.dropping (h : CallStep i s raw (.drop : Call S T) ⟨.idle, .idle, none⟩ e v') :
    v'.Dropping i ∧ e = .tau := by
  cases h <;> simp [View.Dropping]

/-! ## `fetch_update_state_or_lock` -/

/-- The view of a task that has called `fetch_update_state_or_lock`, or `is_empty_or_lock`, while it does
`x` with its node. -/
def View.Asking (i : TaskId) (x : OwnOp S) (g : Option (UpdateFn S)) (v : View S) : Prop :=
  v = ⟨x, .asking g, none⟩ ∨ v = ⟨x, .deciding g, some (.upd i)⟩ ∨
    v = ⟨x, .releasing, some (.releasing (.thread i))⟩

/-- An instruction of it: it goes on, or returns without the lock, or with it. -/
theorem View.Asking.instr (h : v.Asking i x g) (hx : x.runs = false) (hs : InstrStep i s v e v') :
    e ≠ .guarded i ∧ (v'.upd ≠ .idle ∧ v'.Asking i x g ∨ v' = ⟨x, .idle, none⟩) ∨
      e = .guarded i ∧ s = none ∧ v' = ⟨x, .idle, some .guard⟩ := by
  rcases h with rfl | rfl | rfl <;> cases hs
  all_goals
    first
    | (simp [OwnOp.runs] at hx; done)
    | (simp_all [Asking]; done)
    | (rename_i h
       cases h <;> simp_all [Asking, HolderOp.ownAfter, HolderOp.updAfter, HolderOp.long])

/-- When it returns without the lock, it has made its update, now or before. -/
theorem View.Asking.returned (h : v.Asking i x g) (hs : InstrStep i s v e v') (hx : x.runs = false)
    (hv' : v'.upd = .idle) (he : e ≠ .guarded i) (hu : ∀ t s s', e ≠ .update t s s') :
    v.upd.runs = false ∧ ∀ y, ¬ e.Removes y := by
  rcases h with rfl | rfl | rfl <;> cases hs
  all_goals
    first
    | exact absurd rfl (hu _ _ _)
    | exact absurd rfl he
    | cases hx
    | (rename_i h
       cases h <;> first | exact ⟨rfl, by simp [Event.Removes]⟩ | cases hv')
    | cases hv'

end Aiq
