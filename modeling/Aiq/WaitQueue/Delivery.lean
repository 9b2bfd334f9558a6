import Aiq.WaitQueue.Drop

/-!
# Wakers are delivered

From the moment at which a poll has enqueued its node, or has found it queued, the future waits with the
waker of that poll. The waker, or an equivalent one, is then in the node, which is in a list, or a call
has taken it and has yet to call it, or it has been called since (`Delivers`). Every step of every task
keeps this (`Delivery.step`): a node that waits leaves its list only by way of a call that has taken its
waker, since a `Drain` is dropped when it is empty.
-/

namespace Aiq.WaitQueue

variable {W : Type} {willWake : W → W → Bool} {cfg : Config} {a : Abs ℕ} {w w' : WorldOf W}
  {i j : TaskId} {e : Event ℕ} {n : Input W} {r : InstrOf W} {q : State ℕ (Waiter W)} {x : NodeId}
  {wk wk₀ : W} {m : ℕ}

/-! ## The `Drain`s of the calls -/

/-- The `for_each` that a call is in. -/
def Pc.forEach? : Pc W → Option (ForEachPc W)
  | .call (.forEach _ p) => some p
  | _ => none

theorem forEach?_eq_some {p : Pc W} {f : ForEachPc W} (h : p.forEach? = some f) :
    ∃ k, p = .call (.forEach k f) := by
  unfold Pc.forEach? at h
  split at h
  · obtain rfl := Option.some.inj h
    exact ⟨_, rfl⟩
  · simp at h

/-- A `for_each` starts at its head. -/
theorem next_forEach {f : ForEachPc W} (hp : (w.pc i).forEach? = none)
    (hr : next willWake w i n = some r) (h : (r.pc e q).forEach? = some f) :
    ∃ d ws, f = .head d ws := by
  obtain ⟨k, h⟩ := forEach?_eq_some h
  unfold next futNext callNext start at hr
  by_cases hf : ∃ k p, w.pc i = .call (.forEach k p)
  · obtain ⟨k, p, hf⟩ := hf
    simp [hf, Pc.forEach?] at hp
  · repeat' split at hr
    all_goals grind [CallKind.ret]

theorem hasForEach :
    (waitQueue willWake).HasForEach (Pc.forEach? : Pc W → Option (ForEachPc W)) .fault where
  observe := fun w i e q => by
    rcases observe_pc (w := w) (i := i) (e := e) (q := q) rfl with h | ⟨-, r, h⟩ | ⟨-, k, h⟩ | ⟨k, h⟩
    · exact congrArg Pc.forEach? h
    all_goals
      have hp : (w.pc i).forEach? = none := by
        by_contra hne
        obtain ⟨f, hf⟩ := Option.ne_none_iff_exists'.1 hne
        obtain ⟨k', hk'⟩ := forEach?_eq_some hf
        have := observe_eq (w := w) (i := i) (e := e) (q := q) (by simp [hk']) (by simp [hk'])
        rw [this, hk'] at h
        simp at h
      rw [hp]
      exact congrArg Pc.forEach? h
  next := fun {w i n r p} hp hr => by
    obtain ⟨k, hk⟩ := forEach?_eq_some hp
    simp only [waitQueue, next, hk, callNext] at hr
    exact ⟨_, _, _, _, hr, fun _ => rfl, fun _ => rfl⟩
  start := fun hp hr h => by
    obtain ⟨d, ws, rfl⟩ := next_forEach hp hr h
    rfl

theorem Control.forEachFits (h : Control w) (hf : ∀ i, w.pc i ≠ .fault) :
    ForEachFits (Pc.forEach? : Pc W → Option (ForEachPc W)) w where
  fits := fun {i p} hp => by
    obtain ⟨k, hk⟩ := forEach?_eq_some hp
    have hi := h i
    rw [hk] at hi
    exact ⟨_, hi.2.2⟩
  holds := fun {i o d} ho hd => by
    have hi := h i
    have hfi := hf i
    generalize w.view i = v at ho hi
    generalize w.pc i = p at hi hfi
    cases p with
    | idle =>
      obtain rfl : v = ⟨.dead, .idle, none⟩ := hi
      simp at ho
    | fut k p => cases p <;> simp only [Pc.Fits, FutPc.Fits] at hi <;> grind [HolderOp.drainId]
    | call p =>
      cases p with
      | forEach k p =>
        refine ⟨p, rfl, ?_⟩
        have hp := hi.2.2
        rw [ho] at hp
        cases p <;> simp only [ForEachPc.Fits] at hp <;> grind [HolderOp.drainId, ForEachPc.id]
      | final k ws b =>
        cases b <;> simp only [Pc.Fits, CallPc.Fits] at hi <;> grind [HolderOp.drainId]
      | _ =>
        simp only [Pc.Fits, CallPc.Fits, Asks] at hi
        grind [HolderOp.drainId]
    | fault => exact absurd rfl hfi

/-! ## Wakers in hand -/

/-- The wakers that a task has taken and not called. -/
def Pc.wakers : Pc W → List W
  | .call (.take _ ws) | .call (.dequeued _ ws) | .call (.notified _ ws) | .call (.taken _ ws)
  | .call (.dropped _ ws) | .call (.batch _ _ ws) | .call (.final _ ws _) => ws
  | .call (.forEach _ p) => p.wakers
  | _ => []

theorem next_woken (hr : next willWake w i n = some r) :
    r.shared.woken = w.shared.woken ∨ ∃ wk, r.shared.woken = w.shared.woken ++ [wk] := by
  unfold next futNext callNext start ForEachPc.next at hr
  repeat' split at hr
  all_goals grind [CallKind.ret, Shared.wake]

/-- A waker that has been taken is kept until it is called. -/
theorem next_wakers (hr : next willWake w i n = some r) (hwk : wk ∈ (w.pc i).wakers)
    (hf : r.pc e q ≠ .fault) :
    wk ∈ (r.pc e q).wakers ∨ r.shared.woken = w.shared.woken ++ [wk] := by
  unfold Pc.wakers at hwk
  unfold next callNext at hr
  repeat' split at hwk
  case h_8 k p hp =>
    rw [hp] at hr
    unfold ForEachPc.next at hr
    unfold ForEachPc.wakers at hwk
    unfold Pc.wakers ForEachPc.wakers
    repeat' split at hr
    all_goals grind [Shared.wake]
  all_goals
    unfold Pc.wakers
    repeat' split at hr
    all_goals grind [CallKind.ret, Shared.wake]

/-- Only the mover's wakers change, and the calls of wakers are recorded. -/
theorem woken_step (hm : (waitQueue willWake).Moves cfg a w i n w' e) :
    w'.shared.woken = w.shared.woken ∨ ∃ wk, w'.shared.woken = w.shared.woken ++ [wk] := by
  cases hm.mover with
  | op hs hd hv hp hg => exact .inl (by rw [hg]; exact congrArg Shared.woken (observe_spec _).2)
  | call hr hk hrest hs hv hp hg => rw [hg]; exact next_woken hr
  | own hr hk hrest hq hv hp hg => rw [hg]; exact next_woken hr

theorem wakers_step (hm : (waitQueue willWake).Moves cfg a w i n w' e) (hf : w'.pc i ≠ .fault)
    (hwk : wk ∈ (w.pc j).wakers) :
    wk ∈ (w'.pc j).wakers ∨ w'.shared.woken = w.shared.woken ++ [wk] := by
  by_cases hj : j = i
  · subst hj
    cases hm.mover with
    | op hs hd hv hp hg =>
      have ho : observe w j e w'.q = (w.pc j, w.shared) :=
        observe_eq (fun k h => by simp [h, Pc.wakers] at hwk) fun c m h => by simp [h, Pc.wakers] at hwk
      exact .inl (by rw [hp]; exact (congrArg Prod.fst ho) ▸ hwk)
    | call hr hk hrest hs hv hp hg =>
      rw [hp] at hf ⊢
      rw [hg]
      exact next_wakers hr hwk hf
    | own hr hk hrest hq hv hp hg =>
      rw [hp] at hf ⊢
      rw [hg]
      exact next_wakers hr hwk hf
  · exact .inl (by rwa [hm.pc_ne hj])

/-- Where a call has taken a waker, it has just done so or is dropping the waiter. -/
theorem next_taken_inv (hr : next willWake w i n = some r) (h : (r.pc e q).taken = true) :
    (∃ g, r.call = some (.holder (.withDataMut g))) ∨
      (w.pc i).taken = true ∧ r.call = some (.holder .drop) := by
  have hp : (∃ r' ws, r.pc e q = .call (.taken r' ws)) ∨ (∃ r' ws, r.pc e q = .call (.dropped r' ws)) ∨
      ∃ k d ws, r.pc e q = .call (.forEach k (.drop d ws)) ∨
        r.pc e q = .call (.forEach k (.dropped d ws)) := by
    unfold Pc.taken at h
    split at h <;> simp_all
  unfold next futNext callNext start ForEachPc.next at hr
  repeat' split at hr
  all_goals grind [CallKind.ret, Pc.taken]

/-- A waiter whose waker is taken had it in hand, or its waker is taken in the step. -/
theorem Took.step_inv (h : Took w' j x) (hc : Control w)
    (hm : (waitQueue willWake).Moves cfg a w i n w' e) :
    Took w j x ∨ j = i ∧ ∃ wk, (w.q.mem.data x).waker = some wk ∧
      (w'.pc i).wakers = (w.pc i).wakers ++ [wk] := by
  obtain ⟨hp, ht⟩ := h
  by_cases hj : j = i
  · subst hj
    cases hm.mover with
    | op hs hd hv hp' hg =>
      have hpc : w'.pc j = w.pc j := by
        rcases observe_pc hp' with ho | ⟨-, r, ho⟩ | ⟨-, k, ho⟩ | ⟨k, ho⟩
        · exact ho
        all_goals simp [ho, Pc.taken] at hp
      rw [hpc] at hp
      refine .inl ⟨hp, ?_⟩
      obtain ⟨hown, hupd⟩ := taken_view hp (hc j)
      obtain ⟨o, o', ho, hop, hw'⟩ := hv.holder_inv (by rw [hown]; rfl) (by rw [hupd]; rfl)
      rw [hw'] at ht
      obtain ⟨o'', rfl, ht⟩ := Option.bind_eq_some_iff.1 ht
      rcases hop.target_inv ht with ht | rfl
      · rw [ho]
        exact ht
      · have hf := hc j
        generalize w.pc j = p at hp hf
        generalize w.view j = v at ho hf
        unfold Pc.taken at hp
        split at hp <;> simp only [Pc.Fits, CallPc.Fits, ForEachPc.Fits] at hf <;> grind
    | own hr hk hrest hq hv hp' hg =>
      rw [hp'] at hp
      rcases next_taken_inv hr hp with ⟨g, hk'⟩ | ⟨-, hk'⟩ <;> simp [hk'] at hk
    | call hr hk hrest hs hv hp' hg =>
      rw [hp'] at hp
      rcases next_taken_inv hr hp with ⟨g, hk'⟩ | ⟨hp₀, hk'⟩ <;>
        obtain rfl := Option.some.inj (hk.symm.trans hk') <;>
        obtain ⟨y, u, o, o', hw, hcs, hw'⟩ := hv.holder_inv <;> rw [hw'] at ht
      · obtain rfl := hcs.withDataMut_inv
        have hx : o.target = some x := ht
        have hop : w.q.op = some o := (World.op_of_view (congrArg View.op hw)).2
        rcases next_withDataMut hr hk' with ⟨k, wk, -, -, hpc'⟩ | ⟨r', ws, -, -, hpc'⟩ |
          ⟨r', ws, z, wk, hpc, hz, hwk, -, hpc'⟩ | ⟨k, d, ws, z, wk, hpc, hz, hwk, -, hpc'⟩
        · simp [hpc', Pc.taken] at hp
        · simp [hpc', Pc.taken] at hp
        all_goals
          rw [hop] at hz
          obtain rfl := HolderOp.eq_of_node hz hx
          exact .inr ⟨rfl, wk, hwk, by rw [hp', hpc', hpc]; rfl⟩
      · refine .inl ⟨hp₀, ?_⟩
        obtain ⟨o'', rfl, ht⟩ := Option.bind_eq_some_iff.1 ht
        rw [hw]
        exact hcs.drop_target_inv ht
  · exact .inl ⟨by rwa [← hm.pc_ne hj], by rwa [← hm.view_ne hj]⟩

/-! ## Futures that wait -/

/-- The waker with which a future waits, and the number of calls of wakers before it was stored, or an
equivalent one was found. -/
def Pc.waits : Pc W → OwnOp ℕ → Option (W × ℕ)
  | .fut _ (.idle (.pending wk m)), _ | .fut _ (.ifPredicate wk m), _ | .fut _ (.second wk m false), _
  | .fut _ (.refreshed wk m), _ | .fut _ (.enqueued wk m), .linking | .fut _ (.enqueued wk m), .idle =>
    some (wk, m)
  | _, _ => none

/-- The poll has stored its waker, and the node is not enqueued yet. -/
def Pc.pends : Pc W → OwnOp ℕ → Option (W × ℕ)
  | .fut _ (.stored wk m), _ | .fut _ (.enqueued wk m), .inserting _ => some (wk, m)
  | _, _ => none

@[simp] theorem waits_pending (k k' : Kind) (x : OwnOp ℕ) :
    (Pc.fut k' (k.pending wk m)).waits x = some (wk, m) := by
  unfold Kind.pending
  split <;> rfl

@[simp] theorem waits_ready (k k' : Kind) (x : OwnOp ℕ) :
    (Pc.fut k' (k.ready wk m)).waits x = none := by
  unfold Kind.ready
  split <;> rfl

theorem callNext_waits {p : CallPc W} {y : OwnOp ℕ} (hr : callNext w i p n = some r) :
    (r.pc e q).waits y = none := by
  unfold callNext ForEachPc.next at hr
  repeat' split at hr
  all_goals first | contradiction | obtain rfl := Option.some.inj hr
  all_goals first | rfl | (dsimp only; split <;> rfl)

/-- Where a future starts to wait, or goes on. -/
theorem next_waits {y : OwnOp ℕ} (hr : next willWake w i n = some r)
    (h : (r.pc e q).waits y = some (wk, m)) :
    (∃ k, w.pc i = .fut k (.state wk) ∧ m = w.shared.woken.length ∧
      r.call = some (.holder (.withDataMut (Waiter.refresh willWake wk)))) ∨
    (∃ k wk' m', r.pc e q = .fut k (.enqueued wk' m') ∧ r.call = some (.tryEnqueue matchEmpty)) ∨
    (w.pc i).waits .idle = some (wk, m) ∧
      ∀ k, w.pc i = .fut k (.enqueued wk m) → w.q.own i ≠ .unqueued := by
  unfold next at hr
  split at hr
  case h_1 =>
    obtain rfl := Option.some.inj hr
    simp [Pc.waits] at h
  case h_2 k hp =>
    obtain rfl := Option.some.inj hr
    have hs : ((start w i k).pc e q).waits y = none := by
      cases k <;> first | rfl | (simp only [start]; split <;> rfl)
    simp [hs] at h
  case h_3 k p hp =>
    rw [hp]
    unfold futNext at hr
    repeat' split at hr
    all_goals first | contradiction | obtain rfl := Option.some.inj hr
    all_goals try simp only [waits_pending, waits_ready] at h
    all_goals simp_all [Pc.waits]
  case h_4 p hp => simp [callNext_waits hr] at h
  case h_5 => simp at hr

theorem waits_fut {p : Pc W} {y : OwnOp ℕ} (h : p.waits y = some (wk, m)) : ∃ k p', p = .fut k p' := by
  unfold Pc.waits at h
  split at h <;> first | exact ⟨_, _, rfl⟩ | simp at h

theorem pends_fut {p : Pc W} {y : OwnOp ℕ} (h : p.pends y = some (wk, m)) : ∃ k p', p = .fut k p' := by
  unfold Pc.pends at h
  split at h <;> first | exact ⟨_, _, rfl⟩ | simp at h

theorem waits_of_rests {p : Pc W} {v : View ℕ} (hf : p.Fits i v) (hrest : v.Rests)
    (h : p.waits .idle = some (wk, m)) (hne : ∀ k, p = .fut k (.enqueued wk m) → v.own ≠ .unqueued) :
    p.waits v.own = some (wk, m) := by
  obtain ⟨k, p, rfl⟩ := waits_fut h
  cases p
  case enqueued wk' m' =>
    obtain ⟨rfl, rfl⟩ : wk' = wk ∧ m' = m := by simpa [Pc.waits] using h
    rcases hf with rfl | rfl | rfl | rfl | rfl
    · simpa [OwnOp.runs] using hrest.own
    · simpa [OwnOp.runs] using hrest.own
    · exact absurd rfl (hne k rfl)
    · simpa [OwnOp.runs] using hrest.own
    · exact h
  case idle r => cases r <;> exact h
  case second wk' m' b => cases b <;> exact h
  all_goals exact h

/-- The future of the task that moves starts to wait, or goes on. -/
theorem waits_step (hc : Control w) (hm : (waitQueue willWake).Moves cfg a w i n w' e)
    (h : (w'.pc i).waits (w'.view i).own = some (wk, m)) :
    (w.pc i).waits (w.view i).own = some (wk, m) ∨
      (w.pc i).pends (w.view i).own = some (wk, m) ∧ e = .enqueue i ∧ w'.q.mem.data = w.q.mem.data ∨
      m = w.shared.woken.length ∧ (∃ k, w.pc i = .fut k (.state wk)) ∧ e = .tau ∧
        (w.view i).op = some (.queued i) ∧
        w'.q.mem.data i = (w.q.mem.data i).refresh willWake wk := by
  obtain ⟨k, p, hp⟩ := waits_fut h
  have hf := hc i
  cases hm.mover with
  | op hs hd hv hp' hg =>
    have hpc : w.pc i = .fut k p := by
      rcases observe_pc hp' with ho | ⟨-, r, ho⟩ | ⟨-, k, ho⟩ | ⟨k, ho⟩
      · rw [← ho, hp]
      all_goals simp [ho] at hp
    rw [hp] at h
    rw [hpc] at hf ⊢
    cases p
    case enqueued wk' m' =>
      generalize w.view i = v at hf hv ⊢
      generalize w'.view i = v' at hv h
      rcases hf with rfl | rfl | rfl | rfl | rfl <;> cases hv
      case inl.enqueue => exact .inr (.inl ⟨h, rfl, hd⟩)
      case inr.inr.inr.inl.linked => exact .inl h
      case inr.inr.inr.inl.link => exact .inl h
      all_goals simp [Pc.waits] at h
    case idle r => cases r <;> exact .inl h
    case second wk' m' b => cases b <;> exact .inl h
    all_goals exact .inl h
  | call hr hk hrest hs hv hp' hg =>
    rw [hp'] at h
    rcases next_waits hr h with ⟨k', hpc, rfl, hk'⟩ | ⟨k', wk', m', hpc, hk'⟩ | ⟨h₀, hq⟩
    · obtain rfl := Option.some.inj (hk.symm.trans hk')
      rw [hpc] at hf
      obtain ⟨y, u, o, o', hw, hcs, hw'⟩ := hv.holder_inv
      have ho : (w.view i).op = some (.queued i) := by
        rw [hw] at hf ⊢
        rcases hf with hf | hf | hf | hf | hf | hf | hf <;> cases hf <;> first | rfl | cases hcs
      have hdata := hs.data_holder (x := i) (by rw [(World.op_of_view ho).2]; rfl)
      exact .inr (.inr ⟨rfl, ⟨k', hpc⟩, hcs.withDataMut_event, ho, hdata⟩)
    · obtain rfl := Option.some.inj (hk.symm.trans hk')
      simp [hpc, hv.tryEnqueue_inv.2, Pc.waits] at h
    · exact .inl (waits_of_rests hf hrest h₀ fun k hk' ho => hq k hk' (OwnPc.op_eq_unqueued.1 ho))
  | own hr hk hrest hq hv hp' hg =>
    rw [hp'] at h
    rcases next_waits hr h with ⟨k', -, -, hk'⟩ | ⟨k', wk', m', -, hk'⟩ | ⟨h₀, hq⟩
    · simp [hk'] at hk
    · simp [hk'] at hk
    · exact .inl (waits_of_rests hf hrest h₀ fun k hk' ho => hq k hk' (OwnPc.op_eq_unqueued.1 ho))

theorem next_pends {y : OwnOp ℕ} (hr : next willWake w i n = some r)
    (h : (r.pc e q).pends y = some (wk, m)) :
    (∃ k, w.pc i = .fut k (.state wk) ∧ m = w.shared.woken.length ∧
      r.call = some (.withDataMut fun v => { v with waker := some wk })) ∨
    ∃ k, w.pc i = .fut k (.stored wk m) ∧ r.call = some (.tryEnqueue matchEmpty) := by
  have hp : (∃ k, r.pc e q = .fut k (.stored wk m)) ∨ ∃ k, r.pc e q = .fut k (.enqueued wk m) := by
    unfold Pc.pends at h
    split at h <;> simp_all
  have hst : (r.pc e q).stores = true := by
    rcases hp with ⟨k, hp⟩ | ⟨k, hp⟩ <;> rw [hp] <;> rfl
  unfold next futNext callNext start ForEachPc.next at hr
  repeat' split at hr
  all_goals grind [CallKind.ret]

/-- A poll stores its waker and keeps it until the node is enqueued. -/
theorem pends_step (hc : Control w) (hm : (waitQueue willWake).Moves cfg a w i n w' e)
    (h : (w'.pc i).pends (w'.view i).own = some (wk, m)) :
    (w.pc i).pends (w.view i).own = some (wk, m) ∧ w'.q.mem.data i = w.q.mem.data i ∨
      m = w.shared.woken.length ∧ (w'.q.mem.data i).waker = some wk := by
  obtain ⟨k, p, hp⟩ := pends_fut h
  have hf := hc i
  cases hm.mover with
  | op hs hd hv hp' hg =>
    have hpc : w.pc i = .fut k p := by
      rcases observe_pc hp' with ho | ⟨-, r, ho⟩ | ⟨-, k, ho⟩ | ⟨k, ho⟩
      · rw [← ho, hp]
      all_goals simp [ho] at hp
    rw [hp] at h
    rw [hpc] at hf ⊢
    refine .inl ⟨?_, by rw [hd]⟩
    generalize w.view i = v at hf hv ⊢
    generalize w'.view i = v' at hv h
    cases p <;> simp only [Pc.pends, reduceCtorEq] at h
    case stored wk' m' =>
      obtain rfl : v = ⟨.unqueued, .idle, none⟩ := hf
      cases hv
    case enqueued wk' m' =>
      rcases hf with rfl | rfl | rfl | rfl | rfl <;> cases hv <;> simp_all [Pc.pends]
  | call hr hk hrest hs hv hp' hg =>
    rw [hp'] at h
    rcases next_pends hr h with ⟨k', hpc, rfl, hk'⟩ | ⟨k', hpc, hk'⟩ <;>
      obtain rfl := Option.some.inj (hk.symm.trans hk')
    · exact .inr ⟨rfl, by rw [TaskStep.data_owner hs]⟩
    · refine .inl ⟨by rw [hpc]; rfl, ?_⟩
      rcases hs.data_call i with hd | hd
      · exact hd
      · cases hd
  | own hr hk hrest hq hv hp' hg =>
    rw [hp'] at h
    rcases next_pends hr h with ⟨k', -, -, hk'⟩ | ⟨k', -, hk'⟩ <;> simp [hk'] at hk

/-- The waker `wk₀` is `wk`, or wakes the same task. -/
def Serves (willWake : W → W → Bool) (wk₀ wk : W) : Prop := wk₀ = wk ∨ willWake wk₀ wk = true

theorem Waiter.refresh_serves (willWake : W → W → Bool) (wk : W) (v : Waiter W) :
    ∃ wk₀, Serves willWake wk₀ wk ∧ (v.refresh willWake wk).waker = some wk₀ := by
  unfold Waiter.refresh
  split
  · exact ⟨wk, .inl rfl, rfl⟩
  · cases hv : v.waker with
    | none => simp_all
    | some wk₀ => exact ⟨wk₀, .inr (by simp_all), rfl⟩

/-- Where a waker is that serves a future which waits with `wk` since the `m`-th call of a waker. -/
inductive Delivers (willWake : W → W → Bool) (w : WorldOf W) (a : Abs ℕ) (i : TaskId) (wk : W) (m : ℕ) :
    Prop
  | stored {wk₀ : W} (h : Serves willWake wk₀ wk) (hi : a.Member i)
      (hd : (w.q.mem.data i).waker = some wk₀) (ht : ∀ j, ¬ Took w j i)
  | taken {wk₀ : W} (h : Serves willWake wk₀ wk) (j : TaskId) (hj : wk₀ ∈ (w.pc j).wakers)
  | called {wk₀ : W} (h : Serves willWake wk₀ wk) (k : ℕ) (hk : m ≤ k)
      (hw : w.shared.woken[k]? = some wk₀)

/-- Every future that waits is served. -/
structure Delivery (willWake : W → W → Bool) (w : WorldOf W) (a : Abs ℕ) : Prop where
  pends : ∀ {i wk m}, (w.pc i).pends (w.view i).own = some (wk, m) →
    (w.q.mem.data i).waker = some wk ∧ m ≤ w.shared.woken.length
  waits : ∀ {i wk m}, (w.pc i).waits (w.view i).own = some (wk, m) →
    m ≤ w.shared.woken.length ∧ Delivers willWake w a i wk m

/-! ## Every step -/

/-- A call removes the waiter that it has in hand after it has taken the waker. -/
theorem taken_of_runs {p : Pc W} {v : View ℕ} {o : HolderOp ℕ} (hf : p.Fits i v) (hp : p ≠ .fault)
    (ho : v.op = some o) (hr : o.runs = true) (hx : o.target = some x) : p.taken = true := by
  cases p with
  | idle =>
    obtain rfl : v = ⟨.dead, .idle, none⟩ := hf
    simp at ho
  | fut k p =>
    cases p <;> simp only [Pc.Fits, FutPc.Fits] at hf <;> grind [HolderOp.target]
  | call p =>
    cases p with
    | forEach k p =>
      have hp := hf.2.2
      rw [ho] at hp
      cases p <;> simp only [ForEachPc.Fits] at hp <;>
        grind [HolderOp.target, HolderOp.runs, Pc.taken]
    | final k ws b =>
      cases b <;> simp only [Pc.Fits, CallPc.Fits] at hf <;> grind [HolderOp.target]
    | _ =>
      simp only [Pc.Fits, CallPc.Fits, Asks] at hf
      grind [HolderOp.target, HolderOp.runs, Pc.taken]
  | fault => exact absurd rfl hp

/-- A task removes its own node when it drops its future. -/
theorem Pc.Fits.removing_self {p : Pc W} {v : View ℕ} {s : ℕ} {k : Caller} (hf : p.Fits i v)
    (hp : p ≠ .fault) (hv : v.op = some (.removing x s k)) (hk : k ≠ .handle) :
    x = i ∧ ∃ k, p = .fut k .dropping := by
  cases p with
  | idle =>
    obtain rfl : v = ⟨.dead, .idle, none⟩ := hf
    simp at hv
  | fut k p => cases p <;> simp only [Pc.Fits, FutPc.Fits] at hf <;> grind
  | call p =>
    cases p with
    | forEach k p =>
      have hp := hf.2.2
      rw [hv] at hp
      cases p <;> simp [ForEachPc.Fits] at hp
    | final k ws b => cases b <;> simp only [Pc.Fits, CallPc.Fits] at hf <;> grind
    | _ =>
      simp only [Pc.Fits, CallPc.Fits, Asks] at hf
      grind
  | fault => exact absurd rfl hp

/-- A node that waits stays in its list, unless its waker has been taken. -/
theorem member_step (hw : Reached cfg w a) (hd : DrainsOk Pc.forEach? w a)
    (hm : (waitQueue willWake).Moves cfg a w j n w' e) (hi : a.Member i) (ht : ∀ j, ¬ Took w j i)
    (hwait : (w.pc i).waits (w.view i).own = some (wk, m)) : (a.apply e).Member i := by
  by_contra hx
  obtain ⟨-, o, ho, h⟩ := hm.removes hi hx
  have hf := hw.control j
  have hnf := hw.wakers.fault j
  rcases h with ⟨htg, hr⟩ | ⟨s, k, rfl, hk⟩ | ⟨d, rfl, hrest⟩
  · exact ht j ⟨taken_of_runs hf hnf ho hr htg, by rw [ho]; exact htg⟩
  · obtain ⟨rfl, k', hp⟩ := hf.removing_self hnf ho hk
    simp [hp, Pc.waits] at hwait
  · have hff := hw.control.forEachFits hw.wakers.fault
    obtain ⟨p, hp, rfl⟩ := hff.holds ho rfl
    have hdone : p.isDone = true := by
      obtain ⟨st, hfit⟩ := hff.fits hp
      rw [ho] at hfit
      cases p <;> simp [ForEachPc.Fits, ForEachPc.isDone] at hfit ⊢
    simp [hd.done hp hdone] at hrest

/-- What a step does to the waker of a node that is in a list. -/
theorem waker_step (hw : Reached cfg w a) (hm : (waitQueue willWake).Moves cfg a w j n w' e)
    (hi : a.Member i) (hd : (w.q.mem.data i).waker = some wk₀)
    (hwait : (w.pc i).waits (w.view i).own = some (wk, m)) :
    (w'.q.mem.data i).waker = some wk₀ ∨ wk₀ ∈ (w'.pc j).wakers := by
  cases hm.mover with
  | op hs hd' hv hp hg => exact .inl (by rw [hd', hd])
  | own hr hk hrest hq hv hp hg => exact .inl (by rw [hq, hd])
  | call hr hk hrest hs hv hp hg =>
    rcases hs.data_call i with hd' | hd'
    · exact .inl (by rw [hd', hd])
    obtain ⟨g, o, rfl, ho, hn, hd'⟩ := hd'.member hw.ok hi
    have hop : w.q.op.bind HolderOp.node = some i := by
      rw [(World.op_of_view ho).2]
      exact hn
    rcases next_withDataMut hr hk with ⟨k, wk', hpc, rfl, -⟩ | ⟨r', ws, -, rfl, -⟩ |
      ⟨r', ws, x, wk', -, hx, hwk', -, hpc⟩ | ⟨k, d, ws, x, wk', -, hx, hwk', -, hpc⟩
    · have hf := hw.control j
      rw [hpc] at hf
      have hji : i = j := by
        simp only [Pc.Fits, FutPc.Fits] at hf
        grind [HolderOp.node]
      subst hji
      simp [hpc, Pc.waits] at hwait
    · exact .inl (by rw [hd']; exact hd)
    all_goals
      obtain rfl := Option.some.inj (hx.symm.trans hop)
      obtain rfl := Option.some.inj (hwk'.symm.trans hd)
      exact .inr (by rw [hp, hpc]; simp [Pc.wakers, ForEachPc.wakers])

/-- Every step keeps a future that waits served. -/
theorem Delivers.step (h : Delivers willWake w a i wk m) (hw : Reached cfg w a)
    (hd : DrainsOk Pc.forEach? w a) (hm : (waitQueue willWake).Moves cfg a w j n w' e)
    (hf : w'.pc j ≠ .fault) (hwait : (w.pc i).waits (w.view i).own = some (wk, m))
    (hle : m ≤ w.shared.woken.length) : Delivers willWake w' (a.apply e) i wk m := by
  cases h with
  | stored hs hi hdata ht =>
    rcases waker_step hw hm hi hdata hwait with hdata' | hwk
    · by_cases ht' : ∃ k, Took w' k i
      · obtain ⟨k, hk⟩ := ht'
        rcases hk.step_inv hw.control hm with hk | ⟨rfl, wk', hwk', hmem⟩
        · exact absurd hk (ht k)
        · obtain rfl := Option.some.inj (hwk'.symm.trans hdata)
          exact .taken hs _ (by rw [hmem]; simp)
      · exact .stored hs (member_step hw hd hm hi ht hwait) hdata' (not_exists.1 ht')
    · exact .taken hs j hwk
  | taken hs k hk =>
    rcases wakers_step hm hf hk with hk' | hwk
    · exact .taken hs k hk'
    · exact .called hs w.shared.woken.length hle (by simp [hwk])
  | called hs k hk hwk =>
    refine .called hs k hk ?_
    rcases woken_step hm with h | ⟨wk', h⟩ <;> rw [h]
    · exact hwk
    · obtain ⟨hlt, -⟩ := List.getElem?_eq_some_iff.1 hwk
      rw [List.getElem?_append_left hlt, hwk]

theorem woken_length (hm : (waitQueue willWake).Moves cfg a w j n w' e) :
    w.shared.woken.length ≤ w'.shared.woken.length := by
  rcases woken_step hm with h | ⟨wk, h⟩ <;> simp [h]

/-- The data of a node that pends is its own task's. -/
theorem out_of_pends {p : Pc W} {v : View ℕ} (hf : p.Fits i v) (h : p.pends v.own = some (wk, m)) :
    v.own.out = true := by
  unfold Pc.pends at h
  split at h
  · rw [show v = _ from hf]
    rfl
  · rename_i ho
    rw [ho]
    rfl
  · simp at h

theorem Delivery.step (h : Delivery willWake w a) (hw : Reached cfg w a)
    (hd : DrainsOk Pc.forEach? w a) (hm : (waitQueue willWake).Moves cfg a w j n w' e)
    (hf : w'.pc j ≠ .fault) : Delivery willWake w' (a.apply e) where
  pends := fun {i wk m} hp => by
    by_cases hj : i = j
    · subst hj
      rcases pends_step hw.control hm hp with ⟨h₀, hdata⟩ | ⟨rfl, hdata⟩
      · obtain ⟨h₁, h₂⟩ := h.pends h₀
        exact ⟨by rw [hdata, h₁], h₂.trans (woken_length hm)⟩
      · exact ⟨hdata, woken_length hm⟩
    · rw [hm.pc_ne hj, hm.view_ne hj] at hp
      obtain ⟨h₁, h₂⟩ := h.pends hp
      refine ⟨?_, h₂.trans (woken_length hm)⟩
      rw [hm.data_ne hw.ok hj (out_of_pends (hw.control i) hp), h₁]
  waits := fun {i wk m} hp => by
    have key : (w.pc i).waits (w.view i).own = some (wk, m) →
        m ≤ w'.shared.woken.length ∧ Delivers willWake w' (a.apply e) i wk m := fun h₀ => by
      obtain ⟨hle, hdel⟩ := h.waits h₀
      exact ⟨hle.trans (woken_length hm), hdel.step hw hd hm hf h₀ hle⟩
    by_cases hj : i = j
    · subst hj
      have hnot : ∀ {k}, Took w' k i → ¬ Took w k i → False := fun hk hk₀ => by
        rcases hk.step_inv hw.control hm with h | ⟨rfl, wk', -, hwk'⟩
        · exact hk₀ h
        · obtain ⟨k', p, hpc⟩ := waits_fut hp
          simp [hpc, Pc.wakers] at hwk'
      rcases waits_step hw.control hm hp with h₀ | ⟨h₀, rfl, hdata⟩ | ⟨rfl, ⟨k', hpc⟩, rfl, ho, hdata⟩
      · exact key h₀
      · obtain ⟨h₁, h₂⟩ := h.pends h₀
        refine ⟨h₂.trans (woken_length hm), .stored (.inl rfl) ?_ (by rw [hdata, h₁]) ?_⟩
        · exact .inl (by simp [Abs.apply])
        · exact fun k hk => hnot hk fun hk₀ => by
            have hout := out_iff.1 (hw.ok.inv.out_of_own (out_of_pends (hw.control i) h₀))
            obtain ⟨o, ho, htg⟩ := Option.bind_eq_some_iff.1 hk₀.2
            rcases hw.ok.inv.member_of_target (by rw [(World.op_of_view ho).2]; exact htg) with h | h
            · exact hout.1 h
            · exact hout.2 h
      · have hi : a.Member i := hw.ok.member_of_node ho rfl
        refine ⟨woken_length hm, ?_⟩
        have hnt : ∀ k, ¬ Took w' k i := fun k hk => hnot hk fun hk₀ => by
          obtain ⟨o, ho', -⟩ := Option.bind_eq_some_iff.1 hk₀.2
          obtain rfl := Option.some.inj
            ((World.op_of_view ho').1.symm.trans (World.op_of_view ho).1)
          simp [Took, hpc, Pc.taken] at hk₀
        rcases Waiter.refresh_serves willWake wk (w.q.mem.data i) with ⟨wk₀, h₁, h₂⟩
        exact .stored h₁ hi (by rw [hdata, h₂]) hnt
    · rw [hm.pc_ne hj, hm.view_ne hj] at hp
      exact key hp

/-! ## Every run -/

/-- What is known of the futures that wait, in every state that a `WaitQueue` reaches. -/
structure Served (willWake : W → W → Bool) (cfg : Config) (w : WorldOf W) (a : Abs ℕ) : Prop where
  reached : Reached cfg w a
  drains : DrainsOk Pc.forEach? w a
  delivery : Delivery willWake w a

theorem Served.init : Served willWake cfg (init : WorldOf W) (.init empty) where
  reached := Reached.init
  drains := ⟨fun h => absurd rfl h, fun h => by simp [WaitQueue.init, Pc.forEach?] at h,
    fun h => by simp [WaitQueue.init, Pc.forEach?] at h⟩
  delivery := ⟨fun h => by simp [WaitQueue.init, Pc.pends] at h,
    fun h => by simp [WaitQueue.init, Pc.waits] at h⟩

theorem Served.step (h : Served willWake cfg w a) (hm : (waitQueue willWake).Moves cfg a w i n w' e) :
    Served willWake cfg w' (a.apply e) := by
  have hr := h.reached.step hm
  have hf := h.reached.control.forEachFits h.reached.wakers.fault
  have hf' := hr.control.forEachFits hr.wakers.fault
  have hnf := hr.wakers.fault i
  exact ⟨hr, h.drains.step hasForEach hf hf' h.reached.ok hm hnf,
    h.delivery.step h.reached h.drains hm hnf⟩

end Aiq.WaitQueue
