import Aiq.WaitQueue.Control

/-!
# Waiters have wakers

A waiter that is in the queue or in the list of a `Drain` has a waker, unless a call has it in hand and
has just taken its waker (`Wakers.waker`). The poll stores the waker before it enqueues the node and only
replaces it while the node is queued; a call that takes it goes on to remove the node before it does
anything else. So no `unwrap_unchecked` of `notify_one`, `notify_last`, `notify_many` and `drain_queue`
is applied to `None` (`waker_of_member`).
-/

namespace Aiq.WaitQueue

variable {W : Type} {willWake : W → W → Bool} {cfg : Config} {a : Abs ℕ} {w w' : WorldOf W}
  {i j : TaskId} {e : Event ℕ} {n : Input W} {r : InstrOf W} {q : State ℕ (Waiter W)} {x : NodeId}

/-! ## Steps of the programs -/

/-- The call is for one waiter, which it expects to be there. -/
def Rest.single : Rest → Bool
  | .many _ _ => false
  | _ => true

/-- The call has taken the waker of the waiter that it has in hand. -/
def Pc.taken : Pc W → Bool
  | .call (.taken _ _) | .call (.dropped _ _) | .call (.forEach _ (.drop _ _))
  | .call (.forEach _ (.dropped _ _)) => true
  | _ => false

/-- The poll has stored its waker and not enqueued the node yet, or has just done so. -/
def Pc.stores : Pc W → Bool
  | .fut _ (.stored _ _) | .fut _ (.enqueued _ _) => true
  | _ => false

@[grind =] theorem stores_pending (k k' : Kind) (wk : W) (m : ℕ) :
    (Pc.fut k' (k.pending wk m)).stores = false := by
  unfold Kind.pending
  split <;> rfl

@[grind =] theorem stores_ready (k k' : Kind) (wk : W) (m : ℕ) :
    (Pc.fut k' (k.ready wk m)).stores = false := by
  unfold Kind.ready
  split <;> rfl

@[grind =] theorem waker_takeWaker (v : Waiter W) : takeWaker.waker v = v.waker := rfl

theorem Waiter.waker_refresh {wk : W} {v : Waiter W} (h : v.waker ≠ none) :
    (v.refresh willWake wk).waker ≠ none := by
  unfold refresh
  split
  · simp
  · exact h

/-- No step but the return of an `*_or_lock` call leads to the start of a single notification. -/
theorem next_take {r' : Rest} {ws : List W} (hr : next willWake w i n = some r)
    (hp : r.pc e q = .call (.take r' ws)) : r'.single = false := by
  unfold next futNext callNext start ForEachPc.next at hr
  repeat' split at hr
  all_goals grind [Rest.single, CallKind.ret]

theorem next_dequeued {r' : Rest} {ws : List W} (hr : next willWake w i n = some r)
    (hp : r.pc e q = .call (.dequeued r' ws)) (h : r'.single = true) :
    w.pc i = .call (.take r' ws) ∧
      (r.call = some (.holder .dequeue) ∨ r.call = some (.holder .pop)) := by
  unfold next futNext callNext start ForEachPc.next at hr
  repeat' split at hr
  all_goals grind [Rest.single, CallKind.ret]

/-- Where an `unwrap_unchecked` is applied to `None`. -/
theorem next_fault (hr : next willWake w i n = some r) (hp : r.pc e q = .fault) :
    (∃ r' ws, w.pc i = .call (.dequeued r' ws) ∧ r'.single = true ∧ w.q.mutex = some .guard) ∨
      ((∃ r' ws, w.pc i = .call (.notified r' ws)) ∨ ∃ k d ws, w.pc i = .call (.forEach k (.node d ws))) ∧
        ∃ x, w.q.op.bind HolderOp.node = some x ∧ (w.q.mem.data x).waker = none := by
  unfold next futNext callNext start ForEachPc.next at hr
  unfold State.op
  repeat' split at hr
  all_goals grind [Rest.single, CallKind.ret, HolderPc.op, HolderOp.node]

/-- Who writes to the data of the node that it has in hand, and what. -/
theorem next_withDataMut {g : Waiter W → Waiter W} (hr : next willWake w i n = some r)
    (hk : r.call = some (.holder (.withDataMut g))) :
    (∃ k wk, w.pc i = .fut k (.state wk) ∧ g = Waiter.refresh willWake wk ∧
      r.pc = fun _ _ => .fut k (.refreshed wk w.shared.woken.length)) ∨
    (∃ r' ws, w.pc i = .call (.dequeued r' ws) ∧
      g = (fun v => { v with notification := some r'.notification }) ∧
      r.pc = fun _ _ => .call (.notified r' ws)) ∨
    (∃ r' ws x wk, w.pc i = .call (.notified r' ws) ∧ w.q.op.bind HolderOp.node = some x ∧
      (w.q.mem.data x).waker = some wk ∧ g = (fun v => { v with waker := none }) ∧
      r.pc = fun _ _ => .call (.taken r' (ws ++ [wk]))) ∨
    ∃ k d ws x wk, w.pc i = .call (.forEach k (.node d ws)) ∧ w.q.op.bind HolderOp.node = some x ∧
      (w.q.mem.data x).waker = some wk ∧ g = (fun v => { v with waker := none }) ∧
      r.pc = fun _ _ => .call (.forEach k (.drop d (ws ++ [wk]))) := by
  unfold next futNext callNext start at hr
  by_cases hp : ∃ k p, w.pc i = .call (.forEach k p)
  · obtain ⟨k, p, hp⟩ := hp
    rw [hp] at hr ⊢
    obtain ⟨d, ws, x, rfl, hx, rfl, hw, hpc⟩ := ForEachPc.next_withDataMut hr hk
    obtain ⟨wk, hwk⟩ := Option.ne_none_iff_exists'.1 fun h => hw ⟨rfl, h⟩
    rw [hwk] at hpc
    exact .inr (.inr (.inr ⟨k, d, ws, x, wk, rfl, hx, hwk, rfl, hpc⟩))
  · unfold State.op
    repeat' split at hr
    all_goals grind [CallKind.ret, HolderPc.op, HolderOp.node]

/-- Who writes to the data of its own node, and what. -/
theorem next_withDataMut_own {g : Waiter W → Waiter W} (hr : next willWake w i n = some r)
    (hk : r.call = some (.withDataMut g)) :
    ∃ k wk, w.pc i = .fut k (.state wk) ∧ g = (fun v => { v with waker := some wk }) ∧
      r.pc = fun _ _ => .fut k (.stored wk w.shared.woken.length) := by
  unfold next futNext callNext start ForEachPc.next at hr
  repeat' split at hr
  all_goals grind

/-- The waker is stored before the node is enqueued. -/
theorem next_stores (hr : next willWake w i n = some r) (hp : (r.pc e q).stores = true) :
    (∃ g, r.call = some (.withDataMut g)) ∨
      (∃ k wk m, w.pc i = .fut k (.stored wk m) ∧ r.call = some (.tryEnqueue matchEmpty)) := by
  unfold next futNext callNext start ForEachPc.next at hr
  repeat' split at hr
  all_goals grind [CallKind.ret, Pc.stores]

/-- Only polls enqueue nodes. -/
theorem stores_of_inserting {p : Pc W} {v : View ℕ} {f : MatchState ℕ} (hf : p.Fits i v)
    (hv : v.own = .inserting f) (hp : p ≠ .fault) : p.stores = true := by
  obtain ⟨x, u, o⟩ := v
  obtain rfl : x = .inserting f := hv
  cases p with
  | idle => cases hf
  | fut k p => cases p <;> simp_all [Pc.Fits, FutPc.Fits, Pc.stores]
  | call p =>
    cases p <;> simp_all [Pc.Fits, CallPc.Fits, Asks]
    case final k ws b => cases b <;> simp_all
  | fault => exact absurd rfl hp

theorem taken_view {p : Pc W} {v : View ℕ} (h : p.taken = true) (hf : p.Fits i v) :
    v.own = .dead ∧ v.upd = .idle := by
  unfold Pc.taken at h
  split at h
  · obtain ⟨y, rfl⟩ := hf
    exact ⟨rfl, rfl⟩
  · rcases hf with ⟨y, rfl⟩ | rfl <;> exact ⟨rfl, rfl⟩
  · exact ⟨hf.1, hf.2.1⟩
  · exact ⟨hf.1, hf.2.1⟩
  · simp at h

/-- A call that has taken the waker of a waiter drops the waiter next. -/
theorem next_taken (hr : next willWake w i n = some r) (h : (w.pc i).taken = true)
    (hf : (w.pc i).Fits i (w.view i)) (hrest : (w.view i).Rests)
    (hx : (w.view i).op.bind HolderOp.target = some x) :
    r.call = some (.holder .drop) ∧ ∀ e q, (r.pc e q).taken = true := by
  have hbusy : ∀ {o}, (w.view i).op = some o → o.runs = true ∨ o.target = none → False := by
    rintro o ho (h | h)
    · simp [hrest.op ho] at h
    · simp [ho, h] at hx
  generalize hp : w.pc i = p at h hf
  unfold Pc.taken at h
  split at h
  · simp only [next, hp, callNext, Option.some.injEq] at hr
    subst hr
    exact ⟨rfl, fun _ _ => rfl⟩
  · rcases hf with ⟨y, hv⟩ | hv
    · exact (hbusy (congrArg View.op hv) (.inl rfl)).elim
    · exact (hbusy (congrArg View.op hv) (.inr rfl)).elim
  · simp only [next, hp, callNext, ForEachPc.next, Option.some.injEq] at hr
    subst hr
    exact ⟨rfl, fun _ _ => rfl⟩
  · rcases hf.2.2 with ⟨b, hv⟩ | hv
    · exact (hbusy hv (.inl rfl)).elim
    · exact (hbusy hv (.inr rfl)).elim
  · simp at h

/-! ## The invariant -/

/-- The task `i` has taken the waker of the waiter `x`, which it has in hand. -/
def Took (w : WorldOf W) (i : TaskId) (x : NodeId) : Prop :=
  (w.pc i).taken = true ∧ (w.view i).op.bind HolderOp.target = some x

/-- The waiters in the lists have wakers. -/
structure Wakers (w : WorldOf W) (a : Abs ℕ) : Prop where
  waker : ∀ {x}, a.Member x → (w.q.mem.data x).waker ≠ none ∨ ∃ i, Took w i x
  stored : ∀ {i}, (w.pc i).stores = true → (w.view i).own.out = true →
    (w.q.mem.data i).waker ≠ none
  take : ∀ {i r ws}, w.pc i = .call (.take r ws) → r.single = true → a.queue ≠ []
  dequeued : ∀ {i r ws}, w.pc i = .call (.dequeued r ws) → r.single = true →
    (w.view i).op ≠ some .guard
  fault : ∀ i, w.pc i ≠ .fault

theorem Wakers.init : Wakers (init : WorldOf W) (.init empty) where
  waker := fun {x} hx => by
    rcases hx with h | ⟨d, h⟩
    · simp [Abs.init] at h
    · simp [Abs.init, DrainLog.empty] at h
  stored := fun h => by simp [WaitQueue.init, Pc.stores] at h
  take := fun h => by simp [WaitQueue.init] at h
  dequeued := fun h => by simp [WaitQueue.init] at h
  fault := fun _ => by simp [WaitQueue.init]

/-- What `observe` does not change. -/
theorem observe_eq (h : ∀ k, w.pc i ≠ .call (.ask k)) (h' : ∀ c m, w.pc i ≠ .call (.relock c m)) :
    observe w i e q = (w.pc i, w.shared) := by
  unfold observe
  split
  · exact absurd ‹_› (h _)
  · exact absurd ‹_› (h' _ _)
  · rfl

/-- Where `observe` goes on. -/
theorem observe_pc {p : Pc W} (h : p = (observe w i e q).1) :
    p = w.pc i ∨ e = .guarded i ∧ (∃ r, p = .call (.take r [])) ∨
      e = .guarded i ∧ (∃ k, p = .call (.drain k)) ∨ ∃ k, p = .call (.final k [] false) := by
  subst h
  unfold observe
  split
  · rename_i k _
    split
    · cases k <;> simp_all [CallKind.locked]
    · split <;> simp_all
  · split
    · simp_all
    · split <;> simp_all
  · exact .inl rfl

/-- A taken waiter stays in hand as long as it is in a list. -/
theorem Took.step (h : Took w i x) (hc : Control w) (hm : (waitQueue willWake).Moves cfg a w i n w' e)
    (hx : (a.apply e).Member x) : Took w' i x := by
  obtain ⟨hp, ht⟩ := h
  have hf := hc i
  cases hm.mover with
  | op hs hd hv hp' hg =>
    have ho : observe w i e w'.q = (w.pc i, w.shared) :=
      observe_eq (fun k h => by simp [h, Pc.taken] at hp) fun c m h => by simp [h, Pc.taken] at hp
    refine ⟨by rw [hp']; exact (congrArg (fun p => p.1.taken) ho).trans hp, ?_⟩
    obtain ⟨o, ho, ht⟩ := Option.bind_eq_some_iff.1 ht
    obtain ⟨hown, hupd⟩ := taken_view hp hf
    obtain ⟨o₁, o₂, h₁, h₂, hw'⟩ := hv.holder_inv (by rw [hown]; rfl) (by rw [hupd]; rfl)
    obtain rfl := Option.some.inj (ho.symm.trans h₁)
    rw [hw']
    exact (h₂.target ht).resolve_right fun h => hs.not_member h hx
  | call hr hk hrest hs hv hp' hg =>
    obtain ⟨hk', hpc⟩ := next_taken hr hp hf hrest ht
    obtain rfl := Option.some.inj (hk.symm.trans hk')
    refine ⟨by rw [hp']; exact hpc _ _, ?_⟩
    obtain ⟨y, u, o, o', hw, hcs, hw'⟩ := hv.holder_inv
    rw [hw'] 
    rw [hw] at ht
    exact hcs.drop_target ht
  | own hr hk hrest hq hv hp' hg => simp [(next_taken hr hp hf hrest ht).1] at hk

theorem Wakers.waker_step (h : Wakers w a) (hw : w.Ok cfg a) (hc : Control w)
    (hm : (waitQueue willWake).Moves cfg a w i n w' e) (hx : (a.apply e).Member x) :
    (w'.q.mem.data x).waker ≠ none ∨ ∃ i, Took w' i x := by
  rcases hm.member hx with hx' | ⟨rfl, rfl, f, u, o, hv⟩
  · rcases h.waker hx' with hwk | ⟨j, hj⟩
    · cases hm.mover with
      | op hs hd hv hp hg => exact .inl (by rwa [hd])
      | own hr hk hrest hq hv hp hg => exact .inl (by rwa [hq])
      | call hr hk hrest hs hv hp hg =>
        rcases hs.data_call x with hd | hd
        · exact .inl (by rwa [hd])
        obtain ⟨g, o, rfl, ho, hn, hd⟩ := hd.member hw hx'
        have hop : (w'.view i).op = some o := by
          obtain ⟨y, u, o₁, o₂, hw₁, hcs, hw₂⟩ := hv.holder_inv
          rw [hw₂, hcs.withDataMut_inv, ← ho, hw₁]
        rw [hd]
        rcases next_withDataMut hr hk with ⟨k, wk, -, rfl, -⟩ | ⟨r', ws, -, rfl, -⟩ |
          ⟨r', ws, y, wk, hpc, -, -, -, hpc'⟩ | ⟨k, d, ws, y, wk, hpc, -, -, -, hpc'⟩
        · exact .inl (Waiter.waker_refresh hwk)
        · exact .inl hwk
        · right
          have hf := hc i
          rw [hpc] at hf
          obtain ⟨z, hz⟩ := hf
          obtain rfl : o = .handle z := Option.some.inj (ho.symm.trans (congrArg View.op hz))
          exact ⟨i, by rw [hp, hpc']; rfl, by rw [hop]; exact hn⟩
        · right
          have hf := hc i
          rw [hpc] at hf
          obtain ⟨b, hb⟩ := hf.2.2
          obtain rfl : o = .drained d b := Option.some.inj (ho.symm.trans hb)
          refine ⟨i, by rw [hp, hpc']; rfl, ?_⟩
          rw [hop]
          cases b <;> exact hn
    · right
      by_cases hji : j = i
      · subst hji
        exact ⟨j, hj.step hc hm hx⟩
      · exact ⟨j, by rw [hm.pc_ne hji]; exact hj.1, by rw [hm.view_ne hji]; exact hj.2⟩
  · left
    have hst := stores_of_inserting (hc x) (congrArg View.own hv) (h.fault x)
    have hwk := h.stored hst (by rw [hv]; rfl)
    cases hm.mover with
    | op hs hd hv hp hg => rwa [hd]
    | call hr hk hrest hs hv hp hg => exact absurd rfl hv.ne_enqueue

theorem Wakers.stored_step (h : Wakers w a) (hw : w.Ok cfg a) (hc : Control w)
    (hm : (waitQueue willWake).Moves cfg a w i n w' e) (hp : (w'.pc j).stores = true)
    (ho : (w'.view j).own.out = true) : (w'.q.mem.data j).waker ≠ none := by
  by_cases hj : j = i
  · subst hj
    cases hm.mover with
    | op hs hd hv hp' hg =>
      have hst : (w.pc j).stores = true := by
        rcases observe_pc hp' with ho | ⟨-, r, ho⟩ | ⟨-, k, ho⟩ | ⟨k, ho⟩ <;> rw [ho] at hp
        · exact hp
        all_goals simp [Pc.stores] at hp
      rw [hd]
      refine h.stored hst ?_
      have hf := hc j
      generalize w.view j = v at hv hf ⊢
      generalize w'.view j = v' at hv ho
      unfold Pc.stores at hst
      split at hst
      · rename_i k wk m hpc
        rw [hpc] at hf
        obtain rfl : v = ⟨.unqueued, .idle, none⟩ := hf
        rfl
      · rename_i k wk m hpc
        rw [hpc] at hf
        rcases hf with rfl | rfl | rfl | rfl | rfl <;> first | rfl | cases hv <;> simp [OwnOp.out] at ho
      · simp at hst
    | own hr hk hrest hq hv hp' hg =>
      rw [hp'] at hp
      rcases next_stores hr hp with ⟨g, hk'⟩ | ⟨k, wk, m, -, hk'⟩ <;> simp [hk'] at hk
    | call hr hk hrest hs hv hp' hg =>
      rw [hp'] at hp
      rcases next_stores hr hp with ⟨g, hk'⟩ | ⟨k, wk, m, hpc, hk'⟩
      · obtain rfl := Option.some.inj (hk.symm.trans hk')
        obtain ⟨k, wk, -, rfl, -⟩ := next_withDataMut_own hr hk'
        rw [TaskStep.data_owner hs]
        simp
      · obtain rfl := Option.some.inj (hk.symm.trans hk')
        have hf := hc j
        rw [hpc] at hf
        rcases hs.data_call j with hd | hd
        · rw [hd]
          exact h.stored (by rw [hpc]; rfl) (by rw [show w.view j = _ from hf]; rfl)
        · cases hd
  · rw [hm.pc_ne hj] at hp
    rw [hm.view_ne hj] at ho
    rw [hm.data_ne hw hj ho]
    exact h.stored hp ho

theorem Wakers.take_step (h : Wakers w a) (hc : Control w)
    (hm : (waitQueue willWake).Moves cfg a w i n w' e) {r : Rest} {ws : List W}
    (hp : w'.pc j = .call (.take r ws)) (hr : r.single = true) : (a.apply e).queue ≠ [] := by
  by_cases hj : j = i
  · subst hj
    cases hm.mover with
    | op hs hd hv hp' hg =>
      rcases observe_pc hp' with ho | ⟨rfl, r, ho⟩ | ⟨-, k, ho⟩ | ⟨k, ho⟩
      · have hf := hc j
        rw [← ho, hp] at hf
        rw [show w.view j = ⟨.dead, .idle, some .guard⟩ from hf] at hv
        obtain ⟨o, o', ho, hop, -⟩ := hv.holder_inv rfl rfl
        obtain rfl := Option.some.inj ho
        cases hop
        simp [HolderOp.long] at *
      · exact hs.allows
      all_goals simp [ho] at hp
    | own hr' hk hrest hq hv hp' hg => simp [next_take hr' (hp'.symm.trans hp)] at hr
    | call hr' hk hrest hs hv hp' hg => simp [next_take hr' (hp'.symm.trans hp)] at hr
  · rw [hm.pc_ne hj] at hp
    have hf := hc j
    rw [hp] at hf
    exact hm.queue_ne_nil (World.op_of_view (congrArg View.op hf)).1 hj (h.take hp hr)

theorem Wakers.dequeued_step (h : Wakers w a) (hw : w.Ok cfg a) (hc : Control w)
    (hm : (waitQueue willWake).Moves cfg a w i n w' e) {r : Rest} {ws : List W}
    (hp : w'.pc j = .call (.dequeued r ws)) (hr : r.single = true) :
    (w'.view j).op ≠ some .guard := by
  by_cases hj : j = i
  · subst hj
    cases hm.mover with
    | op hs hd hv hp' hg =>
      have hpc : w.pc j = .call (.dequeued r ws) := by
        rcases observe_pc hp' with ho | ⟨-, r, ho⟩ | ⟨-, k, ho⟩ | ⟨k, ho⟩
        · exact ho.symm.trans hp
        all_goals simp [ho] at hp
      have hf := hc j
      have hne := h.dequeued hpc hr
      rw [hpc] at hf
      generalize w.view j = v at hv hf hne
      generalize w'.view j = v' at hv
      have hrun : v.own.runs = false ∧ v.upd.runs = false := by
        rcases hf with rfl | rfl | ⟨x, rfl⟩ <;> exact ⟨rfl, rfl⟩
      obtain ⟨o, o', ho, hop, rfl⟩ := hv.holder_inv hrun.1 hrun.2
      rcases hf with rfl | rfl | ⟨x, rfl⟩
      · obtain rfl := Option.some.inj ho
        cases hop <;> simp
      · exact absurd rfl hne
      · obtain rfl := Option.some.inj ho
        cases hop
        simp
    | own hr' hk hrest hq hv hp' hg =>
      rcases (next_dequeued hr' (hp'.symm.trans hp) hr).2 with hk' | hk' <;> simp [hk'] at hk
    | call hr' hk hrest hs hv hp' hg =>
      obtain ⟨hpc, hk'⟩ := next_dequeued hr' (hp'.symm.trans hp) hr
      have hqs := hw.inv.queueState_eq_none.2 (h.take hpc hr)
      rcases hk' with hk' | hk' <;> obtain rfl := Option.some.inj (hk.symm.trans hk') <;>
        obtain ⟨y, u, o, o', -, hcs, hw'⟩ := hv.holder_inv <;> rw [hw'] <;> cases hcs <;> simp_all
  · rw [hm.pc_ne hj] at hp
    rw [hm.view_ne hj]
    exact h.dequeued hp hr

/-- The node that a call has in hand has a waker, unless the call took it. -/
theorem Wakers.of_node (h : Wakers w a) (hw : w.Ok cfg a) {o : HolderOp ℕ}
    (ho : (w.view i).op = some o) (hp : (w.pc i).taken = false)
    (hx : w.q.op.bind HolderOp.node = some x) : (w.q.mem.data x).waker ≠ none := by
  obtain ⟨hl, hop⟩ := World.op_of_view ho
  refine (h.waker (hw.inv.member_of_node hx)).resolve_right ?_
  rintro ⟨j, hp', ht⟩
  obtain ⟨o', ho', -⟩ := Option.bind_eq_some_iff.1 ht
  obtain rfl := Option.some.inj (hl.symm.trans (World.op_of_view ho').1)
  simp [hp'] at hp

theorem Wakers.fault_step (h : Wakers w a) (hw : w.Ok cfg a) (hc : Control w)
    (hm : (waitQueue willWake).Moves cfg a w i n w' e) (j : TaskId) : w'.pc j ≠ .fault := by
  by_cases hj : j = i
  · subst hj
    intro hp
    have key : ∀ {r : InstrOf W} {e q}, next willWake w j n = some r → r.pc e q = .fault → False := by
      intro r e q hr hp
      have hf := hc j
      rcases next_fault hr hp with ⟨r', ws, hpc, hr', hmx⟩ | ⟨hpc, x, hx, hd⟩
      · rw [hpc] at hf
        have hop : ∃ o, (w.view j).op = some o := by
          rcases hf with hv | hv | ⟨y, hv⟩ <;> exact ⟨_, congrArg View.op hv⟩
        obtain ⟨o, ho⟩ := hop
        have := (World.op_of_view ho).2
        obtain rfl : .guard = o := by simpa [State.op, hmx, HolderPc.op] using this
        exact h.dequeued hpc hr' ho
      · rcases hpc with ⟨r', ws, hpc⟩ | ⟨k, d, ws, hpc⟩ <;> rw [hpc] at hf
        · obtain ⟨y, hv⟩ := hf
          exact h.of_node hw (congrArg View.op hv) (by rw [hpc]; rfl) hx hd
        · obtain ⟨b, hv⟩ := hf.2.2
          exact h.of_node hw hv (by rw [hpc]; rfl) hx hd
    cases hm.mover with
    | op hs hd hv hp' hg =>
      rcases observe_pc hp' with ho | ⟨-, r, ho⟩ | ⟨-, k, ho⟩ | ⟨k, ho⟩
      · exact h.fault j (ho.symm.trans hp)
      all_goals simp [ho] at hp
    | own hr hk hrest hq hv hp' hg => exact key hr (hp'.symm.trans hp)
    | call hr hk hrest hs hv hp' hg => exact key hr (hp'.symm.trans hp)
  · rw [hm.pc_ne hj]
    exact h.fault j

theorem Wakers.step (h : Wakers w a) (hw : w.Ok cfg a) (hc : Control w)
    (hm : (waitQueue willWake).Moves cfg a w i n w' e) : Wakers w' (a.apply e) where
  waker := h.waker_step hw hc hm
  stored := h.stored_step hw hc hm
  take := h.take_step hc hm
  dequeued := h.dequeued_step hw hc hm
  fault := h.fault_step hw hc hm

/-! ## Every run -/

variable {ls : List (TaskId × Bool × Input W)}

/-- What holds in every state that a `WaitQueue` reaches. -/
structure Reached (cfg : Config) (w : WorldOf W) (a : Abs ℕ) : Prop where
  ok : w.Ok cfg a
  control : Control w
  wakers : Wakers w a

theorem Reached.step (h : Reached cfg w a) (hm : (waitQueue willWake).Moves cfg a w i n w' e) :
    Reached cfg w' (a.apply e) :=
  ⟨hm.ok' h.ok, h.control.step hm, h.wakers.step h.ok h.control hm⟩

theorem Reached.init : Reached cfg (init : WorldOf W) (.init empty) :=
  ⟨World.init_ok .., Control.init, Wakers.init⟩

/-- The induction rule for a `WaitQueue`. -/
theorem Reached.induct {Q : WorldOf W → Abs ℕ → Prop} (h : Reached cfg w a)
    (hr : (waitQueue willWake).Runs cfg w ls w') (h₀ : Q w a)
    (hQ : ∀ l ∈ ls, ∀ w a w' e, Reached cfg w a →
      (waitQueue willWake).step cfg w l.1 l.2.1 l.2.2 = some w' →
      (waitQueue willWake).Moves cfg a w l.1 l.2.2 w' e → Q w a → Q w' (a.apply e)) :
    ∃ a', Reached cfg w' a' ∧ Q w' a' :=
  hr.induct Reached.ok Reached.step h h₀ hQ

theorem runs_reached (h : (waitQueue willWake).Runs cfg init ls w) : ∃ a, Reached cfg w a := by
  obtain ⟨a, hw, -⟩ := Reached.init.induct (Q := fun _ _ => True) h trivial fun _ _ _ _ _ _ _ _ _ _ =>
    trivial
  exact ⟨a, hw⟩

/-- **Waiters have wakers.** After every run of a `WaitQueue`, if the mutex is free, every waiter that is
in the queue or in the list of a `Drain` has a waker, and no `unwrap_unchecked` has been applied to
`None`. -/
theorem waker_of_member (h : (waitQueue willWake).Runs cfg init ls w) :
    ∃ a, w.Ok cfg a ∧
      (w.q.mutex = none → ∀ x, a.Member x → (w.q.mem.data x).waker ≠ none) ∧
      ∀ i, w.pc i ≠ .fault := by
  obtain ⟨a, hw, -, hwk⟩ := runs_reached h
  refine ⟨a, hw, fun hm x hx => (hwk.waker hx).resolve_right ?_, hwk.fault⟩
  rintro ⟨i, -, ht⟩
  obtain ⟨o, ho, -⟩ := Option.bind_eq_some_iff.1 ht
  have := (World.op_of_view ho).2
  simp [State.op, hm] at this

/-- The future `i` is created and polled with the waker `wk`, and its node is enqueued. -/
def pollActs (i : TaskId) (k : Kind) (wk : ℕ) : List (TaskId × Bool × Input ℕ) :=
  (i, false, .create k) :: (i, false, .poll wk) :: List.replicate 7 (i, false, .none)

theorem waker_of_member_pollActs :
    let w := (waitQueue fun _ _ => true).after ⟨.x86, 0⟩ init (pollActs 3 .wait 7)
    w.q.mutex = none ∧ w.q.mem.rawState 3 = .queued ∧
      ∃ a, w.Ok ⟨.x86, 0⟩ a ∧ (∀ x, a.Member x → (w.q.mem.data x).waker ≠ none) ∧
        ∀ i, w.pc i ≠ .fault := by
  intro w
  have h : ((waitQueue fun _ _ => true).perform ⟨.x86, 0⟩ init (pollActs 3 .wait 7)).isSome := by
    decide +kernel
  have hm : w.q.mutex = none := by decide +kernel
  obtain ⟨a, hw, hwk, hf⟩ := waker_of_member (Client.runs_after h)
  exact ⟨hm, by decide +kernel, a, hw, hwk hm, hf⟩

end Aiq.WaitQueue
