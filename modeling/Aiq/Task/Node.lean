import Aiq.Task.ForEach

/-!
# Nodes of tasks

What the steps of tasks do to a node, as far as the programs care: whether the node is in a list, and
what data it has. A node enters a list by the `enqueue` of its task only (`Client.Moves.member`), its
data is written by its task while it is in no list, and by the task that has the lock while it is in
one (`Client.Moves.data`), and the node that a task has in hand under the lock stays in hand until it
has left its list (`OpStep.target`).
-/

namespace Aiq

variable {S T P G I : Type} {cfg : Config} {a : Abs S} {e : Event S} {i j : TaskId} {x y : NodeId}

/-! ## Under the lock -/

/-- The node that is to be removed, or may be, by what the lock is held with. -/
def HolderOp.target : HolderOp S → Option NodeId
  | .handle x | .removing x _ .handle | .drained _ (.node x) | .dropDrained _ (.node x) => some x
  | _ => none

theorem HolderOp.eq_of_node {o : HolderOp S} (hx : o.node = some x) (hy : o.target = some y) : x = y := by
  unfold HolderOp.node at hx
  unfold HolderOp.target at hy
  grind

/-- A node stays in hand until it leaves its list, or has left it. -/
theorem OpStep.target [QueueState S] {o : HolderOp S} {o' : Option (HolderOp S)} (h : OpStep o e o')
    (hx : o.target = some x) :
    o'.bind HolderOp.target = some x ∨ e.Removes x ∨ e.Dequeues x := by
  cases h
  case more h => exact .inl hx
  case remove y s k =>
    cases k <;> simp only [HolderOp.target, reduceCtorEq, Option.some.injEq] at hx
    exact .inr (.inl (.inl ⟨s, by rw [hx]⟩))
  case removed y s k b h =>
    cases k <;> simp only [HolderOp.target, reduceCtorEq, Option.some.injEq] at hx
    exact .inr (.inr (.inl ⟨b, by rw [hx]⟩))
  case leave d y =>
    obtain rfl : y = x := Option.some.inj hx
    exact .inr (.inl (.inr ⟨d, false, rfl⟩))
  case drained d b =>
    cases b <;> simp only [HolderOp.target, reduceCtorEq, Option.some.injEq] at hx
    exact .inr (.inr (.inr ⟨d, by rw [hx]⟩))
  all_goals simp [HolderOp.target] at hx

/-- Dropping what is in hand keeps the node in hand. -/
theorem HolderCallStep.drop_target [QueueState S] {s : Option S} {o : HolderOp S}
    {o' : Option (HolderOp S)} (h : HolderCallStep (T := T) s .drop o e o')
    (hx : o.target = some x) : o'.bind HolderOp.target = some x := by
  cases h
  case dropHandle => exact hx
  case dropQueued => simp [HolderOp.target] at hx
  case dropDrained d b => cases b <;> exact hx

/-- A node that comes into hand is dequeued. -/
theorem OpStep.target_inv [QueueState S] {o o' : HolderOp S} (h : OpStep o e (some o'))
    (hx : o'.target = some x) : o.target = some x ∨ o = .dequeuing := by
  generalize hr : some o' = r at h
  cases h <;> simp only [Option.some.injEq, reduceCtorEq] at hr <;> subst hr <;>
    first | exact .inl hx | exact .inr rfl | simp [HolderOp.target] at hx

theorem HolderCallStep.drop_target_inv [QueueState S] {s : Option S} {o o' : HolderOp S}
    (h : HolderCallStep (T := T) s .drop o e (some o')) (hx : o'.target = some x) :
    o.target = some x := by
  generalize hr : some o' = r at h
  cases h <;> simp only [Option.some.injEq, reduceCtorEq] at hr <;> subst hr
  case dropHandle => exact hx
  case dropDrained d b => cases b <;> exact hx

/-- A node leaves its list by the removal of the handle that it is in hand with, by a removal of its own
task, or by the drop of a `Drain`. -/
theorem OpStep.removes [QueueState S] {o : HolderOp S} {o' : Option (HolderOp S)} (h : OpStep o e o')
    (he : e.Removes x) :
    o.target = some x ∧ o.runs = true ∨ (∃ s k, o = .removing x s k ∧ k ≠ .handle) ∨
      ∃ d, o = .closing d ∧ e = .drainRemove d x true := by
  cases h <;> simp [Event.Removes] at he
  case remove y s k =>
    obtain rfl := he
    cases k
    · exact .inl ⟨rfl, rfl⟩
    · exact .inr (.inl ⟨s, _, rfl, by simp⟩)
    · exact .inr (.inl ⟨s, _, rfl, by simp⟩)
  case leave d y =>
    obtain rfl := he
    exact .inl ⟨rfl, rfl⟩
  case flush d y =>
    obtain rfl := he
    exact .inr (.inr ⟨d, rfl, rfl⟩)

/-- What the lock is held with while a node is on its way out. -/
theorem HolderPc.op_of_leaving {p : HolderPc S} (h : p.leaving = some x) :
    (∃ s k, p.op = .removing x s k) ∨ ∃ d, p.op = .dropDrained d (.node x) ∨ p.op = .closing d := by
  cases p <;> simp only [HolderPc.leaving, reduceCtorEq, Option.some.injEq] at h
  case rmSetNext r b => exact .inl ⟨_, _, by rw [← h]; rfl⟩
  case rmDone r b => exact .inl ⟨_, _, by rw [← h]; rfl⟩
  case ddDone d b flush =>
    cases b <;> simp only [reduceCtorEq, Option.some.injEq] at h
    subst h
    cases flush
    · exact .inr ⟨d, .inl rfl⟩
    · exact .inr ⟨d, .inr rfl⟩

/-! ## Inversions -/

section Inversion

variable [QueueState S] {s : Option S} {r : RawNodeState} {k : Call S T} {v v' : View S}

theorem InstrStep.enqueue_inv (h : InstrStep i s v (.enqueue x) v') :
    x = i ∧ ∃ f m u o, v = ⟨.inserting f, u, o⟩ ∧ f m s = .accept ∧ v' = ⟨.linking, u, o⟩ := by
  cases h
  case enqueue f u o m h => exact ⟨rfl, f, m, u, o, rfl, h, rfl⟩
  case holder h => cases h

theorem CallStep.ne_enqueue (h : CallStep i s r k v e v') : e ≠ .enqueue x := by
  cases h
  case holder h => cases h <;> simp
  all_goals simp

theorem InstrStep.drain_inv {d : DrainId} {s' : S} (h : InstrStep i s v (.drain d s') v') :
    v.op = some (.newDrain d s') := by
  cases h
  case holder h =>
    cases h
    rfl

theorem CallStep.ne_drain {d : DrainId} {s' : S} (h : CallStep i s r k v e v') : e ≠ .drain d s' := by
  cases h
  case holder h => cases h <;> simp
  all_goals simp

theorem CallStep.not_removes (h : CallStep i s r k v e v') : ¬ e.Removes x := by
  cases h
  case holder h => cases h <;> simp [Event.Removes]
  all_goals simp [Event.Removes]

theorem CallStep.create_inv {t : T} (h : CallStep i s r (.create t) v e v') : v.own = .dead := by
  cases h
  rfl

theorem CallStep.create_event {t : T} (h : CallStep i s r (.create t) v e v') : e = .create i := by
  cases h
  rfl

theorem CallStep.tryEnqueue_inv {m : Option S → Bool}
    (h : CallStep (T := T) i s r (.tryEnqueue m) v e v') :
    v.own = .unqueued ∧ v' = { v with own := .inserting (.ofBool m) } := by
  cases h
  exact ⟨rfl, rfl⟩

theorem CallStep.isEmptyOrLock_inv (h : CallStep (T := T) i s r (.thread .isEmptyOrLock) v e v') :
    s ≠ none ∧ e = .tau ∨ v'.upd = .asking none := by
  cases h
  · exact .inl ⟨‹_›, rfl⟩
  · exact .inr rfl

theorem CallStep.withDataMut_inv {g : T → T} (h : CallStep i s r (.withDataMut g) v e v') :
    (v.own = .unqueued ∨ v.own = .dequeued) ∧ v' = v := by
  cases h
  · exact ⟨.inl rfl, rfl⟩
  · exact ⟨.inr rfl, rfl⟩

theorem HolderCallStep.withDataMut_inv {g : T → T} {o : HolderOp S} {o' : Option (HolderOp S)}
    (h : HolderCallStep s (.withDataMut g) o e o') : o' = some o := by
  cases h <;> rfl

theorem HolderCallStep.withDataMut_event {g : T → T} {o : HolderOp S} {o' : Option (HolderOp S)}
    (h : HolderCallStep s (.withDataMut g) o e o') : e = .tau := by
  cases h <;> rfl

end Inversion

/-! ## Lists -/

/-- The node is in no list. -/
def OwnOp.out : OwnOp S → Bool
  | .dead | .unqueued | .dequeued | .resetting | .inserting _ | .refusing => true
  | _ => false

theorem Inv.out_of_own {c : State S T} (h : Inv cfg c a) (hx : (c.own x).op.out = true) :
    Out (c.ch a) c.leaving x := by
  have hok := h.own x
  cases ho : c.own x <;> rw [ho] at hx hok <;> simp only [OwnPc.op, OwnOp.out, reduceCtorEq] at hx <;>
    exact hok.1

theorem Inv.not_member_of_out {c : State S T} (h : Inv cfg c a) (hx : (c.own x).op.out = true) :
    ¬ a.Member x :=
  (out_iff.1 (h.out_of_own hx)).1

theorem Inv.member_of_node {c : State S T} (h : Inv cfg c a) (hx : c.op.bind HolderOp.node = some x) :
    a.Member x := by
  obtain ⟨o, ho, hx⟩ := Option.bind_eq_some_iff.1 hx
  obtain ⟨p, hp, rfl⟩ := Option.map_eq_some_iff.1 ho
  have hk := h.holder hp
  cases p <;> simp only [HolderPc.op, HolderOp.node, reduceCtorEq, Option.some.injEq] at hx
  case get l g k =>
    cases k <;> simp [GetCont.op] at hx
    case drained d b flush => cases flush <;> simp at hx
  case ddPrev d b flush => cases flush <;> simp at hx
  case ddSetHead d b v flush => cases flush <;> simp at hx
  case ddDone d b flush => cases flush <;> simp at hx
  case dequeue y => exact hx ▸ .inl (List.mem_of_head? hk.1)
  case pop y => exact hx ▸ .inl hk
  case queued y => exact hx ▸ member_iff.2 hk.2
  case drained d b =>
    cases b <;> simp only [reduceCtorEq, Option.some.injEq] at hx
    exact hx ▸ member_iff.2 ⟨_, List.mem_of_head? hk⟩

/-- The node in hand is in a list, or on its way out of one. -/
theorem Inv.member_of_target {c : State S T} (h : Inv cfg c a)
    (hx : c.op.bind HolderOp.target = some x) : a.Member x ∨ c.leaving = some x := by
  obtain ⟨o, ho, hx⟩ := Option.bind_eq_some_iff.1 hx
  obtain ⟨p, hp, rfl⟩ := Option.map_eq_some_iff.1 ho
  have hk := h.holder hp
  have hmem : ∀ {i : ListId}, .node x ∈ c.ch a i → a.Member x ∨ c.leaving = some x :=
    fun hi => .inl (member_iff.2 ⟨_, hi⟩)
  have hrm : ∀ {r : Removal S}, (HolderOp.removing r.node r.newTail r.caller).target = some x →
      r.node = x := by
    rintro ⟨z, s, v, k⟩ hx
    cases k <;> simp only [HolderOp.target, reduceCtorEq, Option.some.injEq] at hx
    exact hx
  have hdd : ∀ {d b flush}, (if flush = true then .closing d else .dropDrained d b :
      HolderOp S).target = some x → b = .node x := by
    intro d b flush hx
    cases flush <;> cases b <;> simp [HolderOp.target] at hx
    rw [hx]
  cases p <;> simp only [HolderPc.op] at hx
  case get l g k =>
    obtain ⟨⟨i, y, -, -, hk⟩, -⟩ := hk
    cases k <;> simp only [GetCont.op] at hx
    case dequeue => simp [HolderOp.target] at hx
    case drainNew => simp [HolderOp.target] at hx
    case waitEnqueued r => exact hmem (hrm hx ▸ hk.2.mem)
    case relink r => exact hmem (hrm hx ▸ hk.2.1.mem)
    case drained d b flush => exact hmem (hdd hx ▸ List.mem_of_head? hk.2.1)
  case dequeue y =>
    obtain rfl : y = x := Option.some.inj hx
    exact .inl (.inl (List.mem_of_head? hk.1))
  case pop y =>
    obtain rfl : y = x := Option.some.inj hx
    exact .inl (.inl hk)
  case rmPrev y s v k =>
    obtain ⟨i, hi⟩ := hk.1
    cases k <;> simp only [HolderOp.target, reduceCtorEq, Option.some.injEq] at hx
    exact hmem (hx ▸ hi)
  case rmNext r =>
    obtain ⟨i, hi⟩ := hk.1
    exact hmem (hrm hx ▸ hi.mem)
  case rmClear r =>
    obtain ⟨i, hi⟩ := hk.1
    exact hmem (hrm hx ▸ hi.mem)
  case rmCas r =>
    obtain ⟨i, hi⟩ := hk.1
    exact hmem (hrm hx ▸ hi.mem)
  case rmSetPrev r b =>
    obtain ⟨i, hi, -⟩ := hk.1
    exact hmem (hrm hx ▸ hi.mem)
  case rmSetNext r b => exact .inr (by simp [State.leaving, hp, HolderPc.leaving, hrm hx])
  case rmDone r b => exact .inr (by simp [State.leaving, hp, HolderPc.leaving, hrm hx])
  case drained d b =>
    cases b <;> simp only [HolderOp.target, reduceCtorEq, Option.some.injEq] at hx
    exact hmem (hx ▸ List.mem_of_head? hk)
  case ddPrev d b flush =>
    obtain rfl := hdd hx
    rcases hk with hk | ⟨-, -, hk, -⟩
    · exact hmem (List.mem_of_head? hk)
    · simp at hk
  case ddSetHead d b v flush =>
    obtain rfl := hdd hx
    rcases hk with ⟨y, l, hl, hk, -⟩ | ⟨-, -, hk, -⟩
    · obtain rfl := Addr.node.inj hk
      exact .inl (.inr ⟨d, by simp [hl]⟩)
    · simp at hk
  case ddDone d b flush =>
    obtain rfl := hdd hx
    exact .inr (by simp [State.leaving, hp, HolderPc.leaving])
  all_goals simp [HolderOp.target] at hx

section World

variable {w w' : World S T P G}

/-- What a task has under the lock is what the lock is held with. -/
theorem World.op_of_view {o : HolderOp S} (h : (w.view i).op = some o) :
    w.lockedBy = some i ∧ w.q.op = some o := by
  simp only [World.view, State.view, heldOp] at h
  split at h
  · exact ⟨‹_›, h⟩
  · simp at h

/-- At most one task has the lock. -/
theorem World.op_unique {o o' : HolderOp S} (h : (w.view i).op = some o) (h' : (w.view j).op = some o') :
    i = j :=
  Option.some.inj ((World.op_of_view h).1.symm.trans (World.op_of_view h').1)

theorem State.mutex_of_op_guard {c : State S T} (h : c.op = some .guard) : c.mutex = some .guard := by
  obtain ⟨p, hp, ho⟩ := Option.map_eq_some_iff.1 h
  rw [hp]
  unfold HolderPc.op GetCont.op at ho
  grind

theorem State.mutex_of_op_releasing {c : State S T} {k : Release} (h : c.op = some (.releasing k)) :
    c.mutex = some (.release k) := by
  obtain ⟨p, hp, ho⟩ := Option.map_eq_some_iff.1 h
  rw [hp]
  unfold HolderPc.op GetCont.op at ho
  grind

theorem State.mutex_of_op_handle {c : State S T} (h : c.op = some (.handle x)) :
    c.mutex = some (.dequeue x) ∨ c.mutex = some (.pop x) := by
  obtain ⟨p, hp, ho⟩ := Option.map_eq_some_iff.1 h
  rw [hp]
  unfold HolderPc.op GetCont.op at ho
  grind

theorem State.mutex_of_op_queued {c : State S T} (h : c.op = some (.queued x)) :
    c.mutex = some (.queued x) := by
  obtain ⟨p, hp, ho⟩ := Option.map_eq_some_iff.1 h
  rw [hp]
  unfold HolderPc.op GetCont.op at ho
  grind

theorem State.mutex_of_op_checking {c : State S T} (h : c.op = some (.checking x)) :
    c.mutex = some (.recheck x) := by
  obtain ⟨p, hp, ho⟩ := Option.map_eq_some_iff.1 h
  rw [hp]
  unfold HolderPc.op GetCont.op at ho
  grind

/-- A task that does nothing under the lock does not have it. -/
theorem World.Ok.lockedBy_ne (h : w.Ok cfg a) (ho : (w.view i).op = none) : w.lockedBy ≠ some i := by
  intro hl
  obtain ⟨p, hp⟩ : ∃ p, w.q.mutex = some p := by
    rw [← Option.isSome_iff_exists, h.lock.isSome, hl]
    rfl
  simp [World.view, State.view, heldOp, hl, State.op, hp] at ho

theorem World.Ok.not_member (h : w.Ok cfg a) (hx : (w.view x).own.out = true) : ¬ a.Member x :=
  h.inv.not_member_of_out hx

theorem World.Ok.member_of_node {o : HolderOp S} (h : w.Ok cfg a) (ho : (w.view i).op = some o)
    (hx : o.node = some x) : a.Member x :=
  h.inv.member_of_node (by rw [(World.op_of_view ho).2]; exact hx)

/-- Who writes to the data of the node `y`, in a call `k` of the task `i`: its task, while the node is
in no list, or the task that has it in hand under the lock. -/
inductive DataStep (w : World S T P G) (i : TaskId) (y : NodeId) (v' : T) : Call S T → Prop
  | create (hy : y = i) (h : (w.view i).own = .dead) : DataStep w i y v' (.create v')
  | owner (g : T → T) (hy : y = i) (h : (w.view i).own = .unqueued ∨ (w.view i).own = .dequeued)
      (hv : v' = g (w.q.mem.data y)) : DataStep w i y v' (.withDataMut g)
  | holder (g : T → T) (o : HolderOp S) (ho : (w.view i).op = some o) (h : o.node = some y)
      (hv : v' = g (w.q.mem.data y)) : DataStep w i y v' (.holder (.withDataMut g))

/-- A node whose data is written is in no list if its task does it. -/
theorem DataStep.member {v' : T} {k : Call S T} (h : DataStep w i y v' k) (hw : w.Ok cfg a)
    (hy : a.Member y) : ∃ g o, k = .holder (.withDataMut g) ∧ (w.view i).op = some o ∧
      o.node = some y ∧ v' = g (w.q.mem.data y) := by
  cases h with
  | create hy' ho => exact absurd hy (hy' ▸ hw.not_member (by rw [ho]; rfl))
  | owner g hy' ho hv =>
    refine absurd hy (hy' ▸ hw.not_member ?_)
    rcases ho with ho | ho <;> rw [ho] <;> rfl
  | holder g o ho hn hv => exact ⟨g, o, rfl, ho, hn, hv⟩

variable [DecidableEq S] [QueueState S] {C : Client S T P G I} {n : I}

/-- A node is enqueued by its task. -/
theorem Client.Moves.enqueue_inv (hm : C.Moves cfg a w i n w' (.enqueue x)) :
    x = i ∧ ∃ f u o, w.view i = ⟨.inserting f, u, o⟩ := by
  cases hm with
  | op hk hs hw =>
    obtain ⟨rfl, f, m, u, o, hv, -, -⟩ := (hs.view_instr hk).enqueue_inv
    exact ⟨rfl, f, u, o, hv⟩
  | call hi hr hk hl hs hw => exact absurd rfl hs.view_call.ne_enqueue

/-- The queue is drained by a task that has called `drain`. -/
theorem Client.Moves.drain_inv {d : DrainId} {s : S} (hm : C.Moves cfg a w i n w' (.drain d s)) :
    (w.view i).op = some (.newDrain d s) := by
  cases hm with
  | op hk hs hw => exact (hs.view_instr hk).drain_inv
  | call hi hr hk hl hs hw => exact absurd rfl hs.view_call.ne_drain

/-- A node enters a list by the `enqueue` of its task. -/
theorem Client.Moves.member (hm : C.Moves cfg a w i n w' e) (hx : (a.apply e).Member x) :
    a.Member x ∨ x = i ∧ e = .enqueue i ∧ ∃ f u o, w.view i = ⟨.inserting f, u, o⟩ := by
  by_cases he : e = .enqueue x
  · subst he
    obtain ⟨rfl, hv⟩ := hm.enqueue_inv
    exact .inr ⟨rfl, rfl, hv⟩
  · exact .inl (Abs.member_apply hx he)

omit [DecidableEq S] [QueueState S] in
theorem Abs.mem_queue_apply (h : x ∈ (a.apply e).queue) : x ∈ a.queue ∨ e = .enqueue x := by
  cases e <;> try exact .inl h
  case enqueue y =>
    rcases List.mem_append.1 h with h | h
    · exact .inl h
    · obtain rfl : x = y := by simpa using h
      exact .inr rfl
  case remove y s => exact .inl (List.mem_of_mem_erase h)
  case drain d s => simp [Abs.apply] at h

omit [DecidableEq S] [QueueState S] in
/-- A node leaves its list by a removal, unless a `Drain` is used again. -/
theorem Abs.member_or (h : a.Member x) :
    (a.apply e).Member x ∨ e.Removes x ∨ ∃ d, e.Starts d ∧ x ∈ (a.drained d).rest := by
  by_cases hr : e.Removes x
  · exact .inr (.inl hr)
  rcases h with h | ⟨d, h⟩
  · by_cases hd : ∃ d s, e = .drain d s
    · obtain ⟨d, s, rfl⟩ := hd
      exact .inl (.inr ⟨d, by simpa [apply, DrainLog.start] using h⟩)
    · refine .inl (.inl ?_)
      cases e <;> try exact h
      case enqueue y => exact List.mem_append_left _ h
      case remove y s =>
        refine (List.mem_erase_of_ne ?_).2 h
        rintro rfl
        exact hr (.inl ⟨s, rfl⟩)
      case drain d s => exact absurd ⟨d, s, rfl⟩ hd
  · by_cases hs : e.Starts d
    · exact .inr (.inr ⟨d, hs, h⟩)
    · refine .inl (.inr ⟨d, ?_⟩)
      rcases Abs.drained_apply (a := a) hs with h' | ⟨y, s, rfl, h'⟩ | ⟨y, flush, rfl, h'⟩ <;> rw [h']
      · exact h
      · rw [DrainLog.rest_leave]
        refine (List.mem_erase_of_ne ?_).2 h
        rintro rfl
        exact hr (.inl ⟨s, rfl⟩)
      · rw [DrainLog.rest_remove]
        refine (List.mem_erase_of_ne ?_).2 h
        rintro rfl
        exact hr (.inr ⟨d, flush, rfl⟩)

/-- A node that leaves its list, or has left it, is in no list after the step. -/
theorem TaskStep.not_member {k : Act S T} {q' : State S T} (h : TaskStep cfg a w i k e q')
    (he : e.Removes x ∨ e.Dequeues x) : ¬ (a.apply e).Member x := by
  rcases he with he | he
  · exact h.sound.not_member he
  · have hl := h.sound.inv.leaving_ok (h.sound.dequeues he).1
    intro hx
    refine absurd (member_iff.1 (Abs.member_apply hx ?_)) (not_exists.2 hl.out)
    rcases he with ⟨b, rfl⟩ | ⟨d, rfl⟩ <;> simp

/-! ## Data -/

theorem TaskStep.data_instr {k : Act S T} {q' : State S T} {weak : Bool}
    (h : TaskStep cfg a w i k e q') (hk : w.instruction i weak = some k) :
    q'.mem.data = w.q.mem.data := by
  funext y
  unfold World.instruction at hk
  rcases step_data h.step y with hd | ⟨v, hd, -⟩ | ⟨g, hd, -⟩ | ⟨g, hd, -⟩
  · exact hd
  all_goals
    subst hd
    repeat' split at hk
    all_goals simp at hk

theorem TaskStep.data_call {k : Call S T} {q' : State S T} (h : TaskStep cfg a w i (k.act i) e q')
    (y : NodeId) :
    q'.mem.data y = w.q.mem.data y ∨ DataStep w i y (q'.mem.data y) k := by
  have hv := h.view_call
  rcases step_data h.step y with hd | ⟨v, hd, hv'⟩ | ⟨g, hd, hv'⟩ | ⟨g, hd, ho, hv'⟩
  · exact .inl hd
  · right
    cases k <;> simp only [Call.act, Act.ownerCall.injEq, reduceCtorEq, and_false] at hd
    obtain ⟨rfl, hd⟩ := hd
    obtain rfl := OwnerCall.create.inj hd
    rw [hv']
    exact .create rfl hv.create_inv
  · right
    cases k <;> simp only [Call.act, Act.ownerCall.injEq, reduceCtorEq, and_false] at hd
    obtain ⟨rfl, hd⟩ := hd
    obtain rfl := OwnerCall.withDataMut.inj hd
    exact .owner _ rfl hv.withDataMut_inv.1 hv'
  · right
    cases k <;> simp only [Call.act, Act.holderCall.injEq, reduceCtorEq] at hd
    subst hd
    obtain ⟨x, u, o, o', hw, -, -⟩ := hv.holder_inv
    obtain ⟨-, hop⟩ := World.op_of_view (w := w) (i := i) (by rw [hw])
    rw [hop] at ho
    exact .holder _ o (by rw [hw]) ho hv'

/-- The call writes to the data of a node. -/
def Call.setsData : Call S T → Bool
  | .create _ | .withDataMut _ | .holder (.withDataMut _) => true
  | _ => false

theorem TaskStep.data_of_call {k : Call S T} {q' : State S T}
    (h : TaskStep cfg a w i (k.act i) e q') (hk : k.setsData = false) :
    q'.mem.data = w.q.mem.data :=
  funext fun y => (h.data_call y).resolve_right fun hd => by cases hd <;> cases hk

theorem TaskStep.data_owner {g : T → T} {q' : State S T}
    (h : TaskStep cfg a w i (.ownerCall i (.withDataMut g)) e q') :
    q'.mem.data i = g (w.q.mem.data i) := by
  have hs := h.step
  simp only [Aiq.step, ownerCall] at hs
  cases ho : w.q.own i <;> simp only [ho, reduceCtorEq] at hs <;>
    obtain ⟨rfl, -⟩ := Prod.mk.inj (Option.some.inj hs) <;> simp [Mem.setData]

theorem TaskStep.data_holder {g : T → T} {q' : State S T}
    (h : TaskStep cfg a w i (.holderCall (.withDataMut g)) e q')
    (hx : w.q.op.bind HolderOp.node = some x) : q'.mem.data x = g (w.q.mem.data x) := by
  have hs := h.step
  obtain ⟨o, ho, hx⟩ := Option.bind_eq_some_iff.1 hx
  obtain ⟨p, hp, rfl⟩ := Option.map_eq_some_iff.1 ho
  simp only [Aiq.step, hp] at hs
  cases p <;> simp only [HolderPc.op] at hx
  case get l g k =>
    cases k <;> simp [GetCont.op, HolderOp.node] at hx
    case drained d b flush => cases flush <;> simp at hx
  case ddPrev d b flush => cases flush <;> simp [HolderOp.node] at hx
  case ddSetHead d b v flush => cases flush <;> simp [HolderOp.node] at hx
  case ddDone d b flush => cases flush <;> simp [HolderOp.node] at hx
  case drained d b =>
    cases b <;> simp only [HolderOp.node, reduceCtorEq, Option.some.injEq] at hx
    subst hx
    obtain ⟨rfl, -⟩ := Prod.mk.inj (Option.some.inj hs)
    simp [Mem.setData]
  all_goals
    simp only [HolderOp.node, reduceCtorEq, Option.some.injEq] at hx
    try
      subst hx
      obtain ⟨rfl, -⟩ := Prod.mk.inj (Option.some.inj hs)
      simp [Mem.setData]

theorem TaskStep.data_create {v : T} {q' : State S T}
    (h : TaskStep cfg a w i (.ownerCall i (.create v)) e q') :
    q'.mem.data = Function.update w.q.mem.data i v := by
  have hs := h.step
  simp only [Aiq.step, ownerCall] at hs
  cases ho : w.q.own i <;> simp only [ho, reduceCtorEq] at hs
  obtain ⟨rfl, -⟩ := Prod.mk.inj (Option.some.inj hs)
  rfl

/-- The owner writes to the data of its own node only. -/
theorem TaskStep.data_eq_owner {g : T → T} {q' : State S T}
    (h : TaskStep cfg a w i (.ownerCall i (.withDataMut g)) e q') :
    q'.mem.data = Function.update w.q.mem.data i (g (w.q.mem.data i)) := by
  funext y
  by_cases hy : y = i
  · rw [hy, Function.update_self, h.data_owner]
  · rw [Function.update_of_ne hy]
    refine (TaskStep.data_call (k := .withDataMut g) h y).resolve_right fun hd => ?_
    cases hd with
    | owner g hi ho hv => exact hy hi

/-- A write through what the lock is held with changes the data of that node only. -/
theorem TaskStep.data_eq_holder {g : T → T} {q' : State S T}
    (h : TaskStep cfg a w i (.holderCall (.withDataMut g)) e q')
    (hx : w.q.op.bind HolderOp.node = some x) :
    q'.mem.data = Function.update w.q.mem.data x (g (w.q.mem.data x)) := by
  funext y
  by_cases hy : y = x
  · rw [hy, Function.update_self, h.data_holder hx]
  · rw [Function.update_of_ne hy]
    refine (TaskStep.data_call (k := .holder (.withDataMut g)) h y).resolve_right fun hd => ?_
    cases hd with
    | holder g o ho hn hv =>
      rw [(World.op_of_view ho).2] at hx
      exact hy (Option.some.inj (hn.symm.trans hx))

/-! ## The task that moves, and the others -/

/-- What a step from `w` to `w'` does to the task `i` that makes it. -/
inductive Client.Mover (C : Client S T P G I) (cfg : Config) (a : Abs S) (w : World S T P G)
    (i : TaskId) (n : I) (w' : World S T P G) : Event S → Prop
  | op {k : Act S T} {e : Event S} (hs : TaskStep cfg a w i k e w'.q)
      (hd : w'.q.mem.data = w.q.mem.data)
      (hv : InstrStep i w.q.mem.queueState (w.view i) e (w'.view i))
      (hp : w'.pc i = (C.observe w i e w'.q).1) (hg : w'.shared = (C.observe w i e w'.q).2) :
      Mover C cfg a w i n w' e
  | call {r : Instr S T P G} {k : Call S T} {e : Event S} (hr : C.next w i n = some r)
      (hk : r.call = some k) (hrest : (w.view i).Rests) (hs : TaskStep cfg a w i (k.act i) e w'.q)
      (hv : CallStep i w.q.mem.queueState (w.q.mem.rawState i) k (w.view i) e (w'.view i))
      (hp : w'.pc i = r.pc e w'.q) (hg : w'.shared = r.shared) : Mover C cfg a w i n w' e
  | own {r : Instr S T P G} (hr : C.next w i n = some r) (hk : r.call = none)
      (hrest : (w.view i).Rests) (hq : w'.q = w.q) (hv : w'.view i = w.view i)
      (hp : w'.pc i = r.pc .tau w.q) (hg : w'.shared = r.shared) : Mover C cfg a w i n w' .tau

theorem Client.Moves.mover (hm : C.Moves cfg a w i n w' e) : C.Mover cfg a w i n w' e := by
  cases hm with
  | op hk hs hw =>
    subst hw
    exact .op hs (hs.data_instr hk) (hs.view_instr hk) (Function.update_self ..) rfl
  | call hi hr hk hl hs hw =>
    subst hw
    exact .call hr hk (World.rests hi) hs hs.view_call (Function.update_self ..) rfl
  | own hi hr hk hw =>
    subst hw
    exact .own hr hk (World.rests hi) rfl rfl (Function.update_self ..) rfl

theorem Client.Moves.pc_ne (hm : C.Moves cfg a w i n w' e) (hj : j ≠ i) : w'.pc j = w.pc j := by
  cases hm with
  | op hk hs hw => exact hw ▸ Function.update_of_ne hj ..
  | call hi hr hk hl hs hw => exact hw ▸ Function.update_of_ne hj ..
  | own hi hr hk hw => exact hw ▸ Function.update_of_ne hj ..

theorem Client.Moves.view_ne (hm : C.Moves cfg a w i n w' e) (hj : j ≠ i) :
    w'.view j = w.view j := by
  cases hm with
  | op hk hs hw => exact hw ▸ hs.view_ne hj
  | call hi hr hk hl hs hw => exact hw ▸ hs.view_ne hj
  | own hi hr hk hw => exact hw ▸ rfl

theorem Client.Moves.own_ne (hm : C.Moves cfg a w i n w' e) (hj : j ≠ i) :
    w'.q.own j = w.q.own j := by
  cases hm with
  | op hk hs hw => exact hw ▸ hs.own_ne hj
  | call hi hr hk hl hs hw => exact hw ▸ hs.own_ne hj
  | own hi hr hk hw => exact hw ▸ rfl

/-- A node that is in no list stays out of the lists until it is enqueued. -/
theorem Client.Moves.out (hm : C.Moves cfg a w i n w' e) (he : e ≠ .enqueue x)
    (hx : Out (w.q.ch a) w.q.leaving x) : Out (w'.q.ch (a.apply e)) w'.q.leaving x := by
  cases hm with
  | op hk hs hw => exact hw ▸ hs.sound.out he hx
  | call hi hr hk hl hs hw => exact hw ▸ hs.sound.out he hx
  | own hi hr hk hw => exact hw ▸ hx

/-- The data of a node that is in no list is not written by other tasks. -/
theorem Client.Moves.data_ne (hm : C.Moves cfg a w i n w' e) (hw : w.Ok cfg a) (hj : j ≠ i)
    (hx : (w.view j).own.out = true) : w'.q.mem.data j = w.q.mem.data j := by
  cases hm.mover with
  | op hs hd hv hp hg => rw [hd]
  | own hr hk hrest hq hv hp hg => rw [hq]
  | call hr hk hrest hs hv hp hg =>
    rcases hs.data_call j with hd | hd
    · exact hd
    · cases hd with
      | create hy h => exact absurd hy hj
      | owner g hy h hv' => exact absurd hy hj
      | holder g o ho h hv' => exact absurd (hw.member_of_node ho h) (hw.not_member hx)

/-- The other tasks make no event of the holder. -/
theorem TaskStep.event_ne {k : Act S T} {q' : State S T} (h : TaskStep cfg a w i k e q')
    (hl : w.lockedBy = some j) (hj : j ≠ i) : e.byHolder = false := by
  refine step_event ?_ h.step
  by_contra hk
  have := h.byTask
  cases k <;> simp [Act.isHolder] at hk <;> exact hj (Option.some.inj (hl.symm.trans this))

/-- The other tasks do not take nodes out of the queue. -/
theorem Client.Moves.queue_ne_nil (hm : C.Moves cfg a w i n w' e) (hl : w.lockedBy = some j)
    (hj : j ≠ i) (ha : a.queue ≠ []) : (a.apply e).queue ≠ [] := by
  have key : e.byHolder = false → (a.apply e).queue ≠ [] := fun he => by
    cases e <;> simp only [Event.byHolder, reduceCtorEq] at he <;> first | exact ha | simp [Abs.apply]
  cases hm with
  | op hk hs hw => exact key (hs.event_ne hl hj)
  | call hi hr hk hl' hs hw => exact key (hs.event_ne hl hj)
  | own hi hr hk hw => exact ha

/-! ## Steps that can be made -/

omit [DecidableEq S] [QueueState S] in
/-- A task that rests has no instruction to make. -/
theorem World.instruction_of_rests (h : (w.view i).Rests) (weak : Bool) :
    w.instruction i weak = none := by
  have ho : (w.q.own i).runs = false := by rw [← OwnPc.runs_op]; exact h.own
  have hu : (w.q.upd i).runs = false := by rw [← UpdPc.runs_op]; exact h.upd
  have hl : ¬ (w.lockedBy = some i ∧ w.q.mutex.any HolderPc.runs = true) := by
    rintro ⟨hl, hm⟩
    obtain ⟨p, hp, hr⟩ := (Option.any_eq_true _ _).1 hm
    have hop : (w.view i).op = some p.op := by simp [World.view, State.view, heldOp, hl, State.op, hp]
    have := h.op hop
    rw [HolderPc.runs_op, hr] at this
    simp at this
  simp [World.instruction, ho, hu, hl]

theorem Client.step_call {weak : Bool} {r : Instr S T P G} {k : Call S T} {q : State S T}
    (h : (w.view i).Rests) (hr : C.next w i n = some r) (hk : r.call = some k)
    (hl : k.onLock = false) (hs : Aiq.step cfg w.q (k.act i) = some (q, e)) :
    C.step cfg w i weak n = some (w.moved i q (r.pc e q) r.shared) := by
  simp [Client.step, World.instruction_of_rests h, hr, hk, World.call, hl, hs]

theorem Client.step_own {weak : Bool} {r : Instr S T P G} (h : (w.view i).Rests)
    (hr : C.next w i n = some r) (hk : r.call = none) :
    C.step cfg w i weak n =
      some { w with pc := Function.update w.pc i (r.pc .tau w.q), shared := r.shared } := by
  simp [Client.step, World.instruction_of_rests h, hr, hk]

theorem Client.step_owner {weak : Bool} {q : State S T} (h : (w.q.own i).runs = true)
    (hs : ownerStep cfg w.q i weak = some (q, e)) :
    C.step cfg w i weak n = some (w.moved i q (C.observe w i e q).1 (C.observe w i e q).2) := by
  simp [Client.step, World.instruction, h, Aiq.step, hs]

end World

end Aiq
