import Aiq.WaitQueue.Wakers

/-!
# A closed `WaitQueue`

The states of the queue are `EMPTY` and `CLOSED`: the removal of the last waiter and `notify_all` store
`EMPTY`, `close` stores `CLOSED`, and nothing else is stored (`State01`). While the state is `CLOSED`
there are no waiters to remove or to drain, and `poll_wait` does not enqueue, so the queue stays closed
(`IsClosed.step`). Once no waiter is left in a list, every poll of a `Wait` returns `Ready`
(`close_is_final`).
-/

namespace Aiq.WaitQueue

variable {W : Type} {willWake : W → W → Bool} {cfg : Config} {a : Abs ℕ} {w w' : WorldOf W}
  {i j : TaskId} {e : Event ℕ} {n : Input W} {r : InstrOf W} {q : State ℕ (Waiter W)} {x : NodeId}
  {p : Pc W} {v : View ℕ}

/-! ## What is stored in the tail -/

theorem Pc.Fits.removing {s : ℕ} {k : Caller} (hf : p.Fits i v) (hp : p ≠ .fault)
    (hv : v.op = some (.removing x s k)) : s = empty := by
  obtain ⟨y, u, o⟩ := v
  obtain rfl : o = some (.removing x s k) := hv
  cases p with
  | idle => cases hf
  | fut k p => cases p <;> simp_all [Pc.Fits, FutPc.Fits]
  | call p =>
    cases p <;> simp_all [Pc.Fits, CallPc.Fits, Asks]
    case forEach k p => cases p <;> simp_all [ForEachPc.Fits]
    case final k ws b => cases b <;> simp_all
  | fault => exact absurd rfl hp

theorem Pc.Fits.newDrain {d : DrainId} {s : ℕ} (hf : p.Fits i v) (hp : p ≠ .fault)
    (hv : v.op = some (.newDrain d s)) : s = empty ∨ s = closed := by
  obtain ⟨y, u, o⟩ := v
  obtain rfl : o = some (.newDrain d s) := hv
  have hst : ∀ k : CallKind, k.drainState = empty ∨ k.drainState = closed := by
    intro k
    cases k <;> simp [CallKind.drainState]
  cases p with
  | idle => cases hf
  | fut k p => cases p <;> simp_all [Pc.Fits, FutPc.Fits]
  | call p =>
    cases p <;> simp_all [Pc.Fits, CallPc.Fits, Asks]
    case forEach k p => cases p <;> simp_all [ForEachPc.Fits]
    case final k ws b => cases b <;> simp_all
  | fault => exact absurd rfl hp

/-- The only updates of the state are those of `close`. -/
theorem Pc.Fits.upd (hf : p.Fits i v) (hp : p ≠ .fault) :
    v.upd = .idle ∨ v.upd = .releasing ∨
      ∃ k : CallKind, v.upd = .asking k.update ∨ v.upd = .deciding k.update := by
  cases p with
  | idle => exact .inl (congrArg View.upd hf)
  | fut k p => cases p <;> simp only [Pc.Fits, FutPc.Fits] at hf <;> grind
  | call p =>
    cases p <;> simp only [Pc.Fits, CallPc.Fits, Asks] at hf
    case relock c m =>
      rcases hf with rfl | rfl | rfl
      · exact .inr (.inr ⟨.notifyAll, .inl rfl⟩)
      · exact .inr (.inr ⟨.notifyAll, .inr rfl⟩)
      · exact .inr (.inl rfl)
    case final k ws b => cases b <;> simp only at hf <;> exact .inl (congrArg View.upd hf)
    all_goals grind
  | fault => exact absurd rfl hp

theorem Pc.Fits.inserting {f : MatchState ℕ} (hf : p.Fits i v) (hp : p ≠ .fault)
    (hv : v.own = .inserting f) : f = .ofBool matchEmpty := by
  obtain ⟨y, u, o⟩ := v
  obtain rfl : y = .inserting f := hv
  cases p with
  | idle => cases hf
  | fut k p => cases p <;> simp_all [Pc.Fits, FutPc.Fits]
  | call p =>
    cases p <;> simp_all [Pc.Fits, CallPc.Fits, Asks]
    case final k ws b => cases b <;> simp_all
  | fault => exact absurd rfl hp

/-- No other call on the state is made than `is_empty_or_lock` and the `fetch_update_state_or_lock` of
`close`. -/
theorem next_thread {k : ThreadCall ℕ} (hr : next willWake w i n = some r)
    (hk : r.call = some (.thread k)) :
    k = .isEmptyOrLock ∨ k = .fetchUpdateStateOrLock fun _ _ => closed := by
  unfold next futNext callNext start ForEachPc.next at hr
  repeat' split at hr
  all_goals grind

/-- What a step may store in the tail. -/
structure Stores (s : Option ℕ) (e : Event ℕ) : Prop where
  remove : ∀ {x s}, e = .remove x s → s = empty
  drain : ∀ {d s}, e = .drain d s → s = empty ∨ s = closed
  update : ∀ {t s s'}, e = .update t s s' → s' = closed
  enqueue : ∀ {x}, e = .enqueue x → matchEmpty s = true

theorem CallStep.stores {s : Option ℕ} {raw : RawNodeState} {k : Call ℕ (Waiter W)} {v' : View ℕ}
    (h : CallStep i s raw k v e v') (hk : ∀ s s', k ≠ .thread (.compareExchangeState s s')) :
    Stores s e := by
  cases h
  case compareExchange v v' h => exact absurd rfl (hk _ _)
  case holder h => cases h <;> constructor <;> simp
  all_goals constructor <;> simp

theorem InstrStep.stores {s : Option ℕ} {v' : View ℕ} (h : InstrStep i s v e v') (hf : p.Fits i v)
    (hp : p ≠ .fault) : Stores s e where
  remove := fun {y s} he => by
    subst he
    cases h
    rename_i h
    cases h
    exact hf.removing hp rfl
  drain := fun {d s} he => by
    subst he
    cases h
    rename_i h
    cases h
    exact hf.newDrain hp rfl
  update := fun {t s s'} he => by
    have hu := hf.upd hp
    subst he
    cases h
    case holder h => cases h
    all_goals simp at hu
    all_goals
      obtain ⟨k, hk⟩ := hu
      cases k <;> simp [CallKind.update] at hk
      subst hk
      simp_all [UpdateFn.ofTotal]
  enqueue := fun {y} he => by
    subst he
    obtain ⟨-, f, m, u, o, hv, hacc, -⟩ := h.enqueue_inv
    obtain rfl := hf.inserting hp (congrArg View.own hv)
    simp only [MatchState.ofBool] at hacc
    split at hacc
    · assumption
    · simp at hacc

theorem Control.stores (hc : Control w) (hf : w.pc i ≠ .fault)
    (hm : (waitQueue willWake).Moves cfg a w i n w' e) : Stores w.q.mem.queueState e := by
  cases hm.mover with
  | op hs hd hv hp hg => exact InstrStep.stores hv (hc i) hf
  | own hr hk hrest hq hv hp hg => constructor <;> simp
  | call hr hk hrest hs hv hp hg =>
    refine CallStep.stores hv ?_
    rintro s s' rfl
    have := next_thread hr hk
    simp at this

/-! ## The state of the queue -/

/-- The state of the queue is `EMPTY` or `CLOSED`. -/
def KnownState (a : Abs ℕ) : Prop := a.state = empty ∨ a.state = closed

theorem KnownState.step {s : Option ℕ} (h : KnownState a) (hs : Stores s e) :
    KnownState (a.apply e) := by
  cases e <;> try exact h
  case update t v v' => exact .inr (hs.update rfl)
  case drain d v => exact hs.drain rfl
  case remove y v =>
    unfold KnownState Abs.apply
    dsimp only
    split
    · exact .inl (hs.remove rfl)
    · exact h

/-- The queue is closed. -/
def IsClosed (a : Abs ℕ) : Prop := a.queue = [] ∧ a.state = closed

theorem Inv.isClosed_iff {c : State ℕ (Waiter W)} (h : Inv cfg c a) :
    c.mem.tail = .state closed ↔ IsClosed a := by
  rw [h.tail, Abs.tail_eq_state_iff]
  rfl

/-- Nothing is enqueued in a closed queue, and it stays closed. -/
theorem IsClosed.step (h : IsClosed a) (hw : Reached cfg w a)
    (hm : (waitQueue willWake).Moves cfg a w i n w' e) :
    IsClosed (a.apply e) ∧ ∀ y, e ≠ .enqueue y := by
  have hst := hw.control.stores (hw.wakers.fault i) hm
  have hq : w.q.mem.queueState = some closed := by
    rw [Mem.queueState, (Inv.isClosed_iff hw.ok.inv).2 h]
    rfl
  have ha : a.Allows e := by
    cases hm.mover with
    | op hs hd hv hp hg => exact hs.allows
    | call hr hk hrest hs hv hp hg => exact hs.allows
    | own hr hk hrest hq hv hp hg => trivial
  have hne : ∀ y, e ≠ .enqueue y := fun y he => by
    have := hst.enqueue he
    simp [hq, matchEmpty, closed, empty] at this
  refine ⟨?_, hne⟩
  obtain ⟨h₁, h₂⟩ := h
  cases e <;> try exact ⟨h₁, h₂⟩
  case enqueue y => exact absurd rfl (hne y)
  case update t v v' => exact ⟨h₁, hst.update rfl⟩
  case remove y v => simp [IsClosed, Abs.apply, h₁, h₂]
  case drain d v => exact absurd h₁ ha

/-! ## Polls of a closed queue -/

/-- The poll is under way. -/
def FutPc.polling : FutPc W → Bool
  | .idle _ | .dropping => false
  | _ => true

/-- The task polls its future. -/
def Pc.polling : Pc W → Bool
  | .fut _ p => p.polling
  | _ => false

/-- Where the poll of a `Wait` is that started when the queue was closed and no waiter was left. -/
def FutPc.Prompt : FutPc W → OwnPc ℕ → Prop
  | .idle _, _ | .dropping, _ | .stored _ _, _ => True
  | .state _, o => o = .unqueued ∨ o = .dequeued
  | .enqueued _ _, o =>
    (∃ m, o = .check (.ofBool matchEmpty) m (.state closed)) ∨ o = .refuse ∨ o = .unqueued
  | _, _ => False

/-- The steps that such a poll has yet to make, at most. -/
def FutPc.rank : FutPc W → OwnPc ℕ → ℕ
  | .state _, .unqueued => 5
  | .stored _ _, _ => 4
  | .enqueued _ _, .check _ _ _ => 3
  | .enqueued _ _, .refuse => 2
  | _, _ => 1

/-- The queue is closed, no waiter is left in a list, and the polls of `Wait`s do not wait. -/
structure Finished (w : WorldOf W) (a : Abs ℕ) : Prop where
  isClosed : IsClosed a
  out : ∀ x, Out (w.q.ch a) w.q.leaving x
  prompt : ∀ {i p}, w.pc i = .fut .wait p → p.Prompt (w.q.own i)

theorem ownerCall_unqueued_withDataMut (ho : q.own i = .unqueued) (g : Waiter W → Waiter W) :
    Aiq.step cfg q ((Call.withDataMut g : Call ℕ (Waiter W)).act i) =
      some (q.withMem (q.mem.setData i (g (q.mem.data i))), .tau) := by
  simp [Call.act, Aiq.step, ownerCall, ho]

theorem ownerCall_state {q' : State ℕ (Waiter W)}
    (hs : Aiq.step cfg q ((Call.state : Call ℕ (Waiter W)).act i) = some (q', e)) :
    q.own i = .idle ∧
      (q.mem.rawState i ≠ .queued → q'.own i = .unqueued ∨ q'.own i = .dequeued) := by
  simp only [Call.act, Aiq.step, ownerCall] at hs
  cases ho : q.own i <;> simp only [ho, reduceCtorEq] at hs
  refine ⟨rfl, fun hr => ?_⟩
  cases hq : q.mem.rawState i <;> simp only [hq] at hs <;>
    obtain ⟨rfl, -⟩ := Prod.mk.inj (Option.some.inj hs)
  · simp
  · exact absurd hq hr
  · simp

theorem ownerCall_release (ho : q.own i = .unqueued ∨ q.own i = .dequeued) :
    Aiq.step cfg q ((Call.release : Call ℕ (Waiter W)).act i) = some (q.setOwn i .idle, .tau) := by
  rcases ho with ho | ho <;> simp [Call.act, Aiq.step, ownerCall, ho]

theorem ownerCall_enqueue (ho : q.own i = .unqueued) (m : Option ℕ → Bool) :
    Aiq.step cfg q ((Call.tryEnqueue m : Call ℕ (Waiter W)).act i) =
      some (q.setOwn i (.check (.ofBool m) 0 q.mem.tail), .tau) := by
  simp [Call.act, Aiq.step, ownerCall, ho]

/-- A future that has found its node `Unqueued` or `Dequeued` has nothing under way. -/
theorem FutPc.Fits.rests {p : FutPc W} (hf : p.Fits i v) (ho : v.own = .unqueued ∨ v.own = .dequeued) :
    v.Rests := by
  have hv : v = ⟨.unqueued, .idle, none⟩ ∨ v = ⟨.dequeued, .idle, none⟩ := by
    cases p <;> simp only [FutPc.Fits] at hf <;> grind
  rcases hv with rfl | rfl <;> exact ⟨rfl, rfl, fun h => by simp at h⟩

/-- A call that a future makes on its node. -/
theorem step_futCall (cfg : Config) (weak : Bool) {k : Kind} {p p' : FutPc W}
    {c : Call ℕ (Waiter W)}
    (hp : w.pc i = .fut k p) (hrest : (w.view i).Rests)
    (hr : futNext willWake w i k p n = some ⟨some c, fun _ _ => .fut k p', w.shared⟩)
    (hl : c.onLock = false) (hs : Aiq.step cfg w.q (c.act i) = some (q, e)) :
    ∃ w', (waitQueue willWake).step cfg w i weak n = some w' ∧ w'.pc i = .fut k p' ∧ w'.q = q := by
  have hnext : (waitQueue willWake).next w i n = some ⟨some c, fun _ _ => .fut k p', w.shared⟩ := by
    rw [← hr]
    simp [waitQueue, next, hp]
  exact ⟨_, Client.step_call hrest hnext rfl hl hs, Function.update_self .., rfl⟩

/-- An instruction that a future makes on its node. -/
theorem step_futOwner (willWake : W → W → Bool) (n : Input W) {k : Kind} {p : FutPc W} {weak : Bool}
    (hp : w.pc i = .fut k p)
    (ho : (w.q.own i).runs = true) (hs : ownerStep cfg w.q i weak = some (q, e)) :
    ∃ w', (waitQueue willWake).step cfg w i weak n = some w' ∧ w'.pc i = .fut k p ∧ w'.q = q := by
  refine ⟨_, Client.step_owner ho hs, ?_, rfl⟩
  simp [World.moved, waitQueue, observe, hp]

/-- The step that a poll of a `Wait` makes on a closed queue. -/
theorem Finished.poll_step (willWake : W → W → Bool) (h : Finished w a) (hw : Reached cfg w a) {p : FutPc W}
    (hp : w.pc i = .fut .wait p) (hpoll : p.polling = true) (weak : Bool) (n : Input W) :
    ∃ w', (waitQueue willWake).step cfg w i weak n = some w' ∧
      (w'.pc i = .fut .wait (.idle .ready) ∨ ∃ p', w'.pc i = .fut .wait p' ∧ p'.polling = true ∧
        p'.Prompt (w'.q.own i) ∧ p'.rank (w'.q.own i) < p.rank (w.q.own i)) := by
  have hf : p.Fits i (w.view i) := by
    have := hw.control i
    rwa [hp] at this
  have hpr := h.prompt hp
  have htail := (Inv.isClosed_iff hw.ok.inv).2 h.isClosed
  have hv : (w.view i).own = (w.q.own i).op := rfl
  have hrest : w.q.own i = .unqueued ∨ w.q.own i = .dequeued → (w.view i).Rests := by
    rintro (ho | ho)
    · exact hf.rests (.inl (by rw [hv, ho]; rfl))
    · exact hf.rests (.inr (by rw [hv, ho]; rfl))
  cases p <;> simp only [FutPc.polling, reduceCtorEq] at hpoll <;> simp only [FutPc.Prompt] at hpr
  case state wk =>
    rcases hpr with ho | ho
    · have hr : futNext willWake w i .wait (.state wk) n =
          some ⟨some (.withDataMut fun v => { v with waker := some wk }),
            fun _ _ => .fut .wait (.stored wk w.shared.woken.length), w.shared⟩ := by
        simp only [futNext, ho]
      obtain ⟨w', hs, hp', -⟩ := step_futCall cfg weak hp (hrest (.inl ho)) hr rfl
        (ownerCall_unqueued_withDataMut ho _)
      exact ⟨w', hs, .inr ⟨_, hp', rfl, trivial, by simp [FutPc.rank, ho]⟩⟩
    · have hr : futNext willWake w i .wait (.state wk) n =
          some ⟨some .release, fun _ _ => .fut .wait (.idle .ready), w.shared⟩ := by
        simp [futNext, ho, Kind.requeue, Kind.ready]
      obtain ⟨w', hs, hp', -⟩ := step_futCall cfg weak hp (hrest (.inr ho)) hr rfl
        (ownerCall_release (.inr ho))
      exact ⟨w', hs, .inl hp'⟩
  case stored wk m =>
    have ho : w.q.own i = .unqueued := by
      have := congrArg View.own (show w.view i = ⟨.unqueued, .idle, none⟩ from hf)
      rw [hv] at this
      cases hq : w.q.own i <;> simp_all [OwnPc.op]
    obtain ⟨w', hs, hp', hq⟩ := step_futCall cfg weak hp (hrest (.inl ho))
      (show futNext willWake w i .wait (.stored wk m) n = _ from rfl) rfl (ownerCall_enqueue ho _)
    refine ⟨w', hs, .inr ⟨_, hp', rfl, .inl ⟨0, ?_⟩, ?_⟩⟩
    · simp [hq, htail]
    · simp [hq, FutPc.rank]
  case enqueued wk m =>
    rcases hpr with ⟨m', ho⟩ | ho | ho
    · have hso : ownerStep cfg w.q i weak = some (w.q.setOwn i .refuse, .tau) := by
        simp [ownerStep, ho, MatchState.ofBool, StateOrPtr.state?, matchEmpty, closed, empty]
      obtain ⟨w', hs, hp', hq⟩ := step_futOwner willWake n hp
        (by simp [ho, OwnPc.runs]) hso
      refine ⟨w', hs, .inr ⟨_, hp', rfl, .inr (.inl ?_), ?_⟩⟩
      · simp [hq]
      · simp [hq, FutPc.rank, ho]
    · have hso : ownerStep cfg w.q i weak =
          some ((w.q.withMem (w.q.mem.setPrev (.node i) RawNodeState.unqueued.intoPtr)).setOwn i
            .unqueued, .refused i) := by
        simp [ownerStep, ho]
      obtain ⟨w', hs, hp', hq⟩ := step_futOwner willWake n hp
        (by simp [ho, OwnPc.runs]) hso
      refine ⟨w', hs, .inr ⟨_, hp', rfl, .inr (.inr ?_), ?_⟩⟩
      · simp [hq]
      · simp [hq, FutPc.rank, ho]
    · have hr : futNext willWake w i .wait (.enqueued wk m) n =
          some ⟨some .release, fun _ _ => .fut .wait (.idle .ready), w.shared⟩ := by
        simp [futNext, ho, Kind.ready]
      obtain ⟨w', hs, hp', -⟩ := step_futCall cfg weak hp (hrest (.inl ho)) hr rfl
        (ownerCall_release (.inl ho))
      exact ⟨w', hs, .inl hp'⟩

/-- How a poll of a `Wait` starts. -/
theorem next_wait {p : FutPc W} (hr : next willWake w i n = some r) (hp : r.pc e q = .fut .wait p) :
    (∃ p', w.pc i = .fut .wait p' ∧ p'.polling = true) ∨ p.polling = false ∨
      r.call = some .state ∧ ∃ wk, p = .state wk := by
  unfold next futNext callNext start ForEachPc.next at hr
  repeat' split at hr
  all_goals grind [CallKind.ret, FutPc.polling]

theorem FutPc.prompt_of_not_polling {p : FutPc W} {o : OwnPc ℕ} (h : p.polling = false) :
    p.Prompt o := by
  cases p <;> simp [polling] at h <;> trivial

theorem Finished.step (h : Finished w a) (hw : Reached cfg w a) {weak : Bool}
    (hs : (waitQueue willWake).step cfg w i weak n = some w')
    (hm : (waitQueue willWake).Moves cfg a w i n w' e) : Finished w' (a.apply e) := by
  obtain ⟨hcl, hne⟩ := h.isClosed.step hw hm
  refine ⟨hcl, fun x => hm.out (hne x) (h.out x), fun {j p} hp => ?_⟩
  by_cases hj : j = i
  · subst hj
    by_cases hpoll : ∃ p', w.pc j = .fut .wait p' ∧ p'.polling = true
    · obtain ⟨p', hp', hpoll⟩ := hpoll
      obtain ⟨w'', hs', hres⟩ := h.poll_step willWake hw hp' hpoll weak n
      obtain rfl := Option.some.inj (hs.symm.trans hs')
      rcases hres with hr | ⟨p'', hp'', -, hpr, -⟩
      · obtain rfl : p = .idle .ready := by simpa [hp] using hr
        trivial
      · obtain rfl : p = p'' := by simpa [hp] using hp''
        exact hpr
    · cases hm.mover with
      | op hs hd hv hp' hg =>
        rcases observe_pc hp' with ho | ⟨-, r, ho⟩ | ⟨-, k, ho⟩ | ⟨k, ho⟩
        · refine FutPc.prompt_of_not_polling ?_
          by_contra hne
          exact hpoll ⟨p, ho.symm.trans hp, by simpa using hne⟩
        all_goals simp [ho] at hp
      | own hr hk hrest hq hv hp' hg =>
        rcases next_wait hr (hp'.symm.trans hp) with hp' | hp' | ⟨hk', -⟩
        · exact absurd hp' hpoll
        · exact FutPc.prompt_of_not_polling hp'
        · simp [hk'] at hk
      | call hr hk hrest hs hv hp' hg =>
        rcases next_wait hr (hp'.symm.trans hp) with hp' | hp' | ⟨hk', wk, rfl⟩
        · exact absurd hp' hpoll
        · exact FutPc.prompt_of_not_polling hp'
        · obtain rfl := Option.some.inj (hk.symm.trans hk')
          obtain ⟨hown, hst⟩ := ownerCall_state hs.step
          exact hst (hw.ok.inv.rawState_ne_queued (by rw [hown]; rfl) (h.out j))
  · rw [hm.own_ne hj]
    rw [hm.pc_ne hj] at hp
    exact h.prompt hp

theorem FutPc.one_le_rank (p : FutPc W) (o : OwnPc ℕ) : 1 ≤ p.rank o := by
  unfold rank
  split <;> omega

theorem FutPc.rank_le (p : FutPc W) (o : OwnPc ℕ) : p.rank o ≤ 5 := by
  unfold rank
  split <;> omega

/-- A poll of a `Wait` that is under way on a closed queue, made to its end. -/
theorem Finished.poll_returns (willWake : W → W → Bool) (h : Finished w a) (hw : Reached cfg w a)
    {p : FutPc W}
    (hp : w.pc i = .fut .wait p) (hpoll : p.polling = true) :
    ∃ m ≤ p.rank (w.q.own i), ∃ w', (waitQueue willWake).Runs cfg w
      (List.replicate m (i, false, .none)) w' ∧ w'.pc i = .fut .wait (.idle .ready) := by
  induction hr : p.rank (w.q.own i) using Nat.strong_induction_on generalizing w a p with
  | _ r ih =>
    obtain ⟨w₁, hs, hres⟩ := h.poll_step willWake hw hp hpoll false .none
    rcases hres with hp₁ | ⟨p₁, hp₁, hpoll₁, -, hlt⟩
    · exact ⟨1, hr ▸ p.one_le_rank _, w₁, .single hs, hp₁⟩
    · obtain ⟨e, hm⟩ := Client.moves hw.ok hs
      obtain ⟨m, hm', w', hrun, hp'⟩ := ih _ (hr ▸ hlt) (h.step hw hs hm) (hw.step hm) hp₁ hpoll₁ rfl
      refine ⟨m + 1, by omega, w', ?_, hp'⟩
      rw [List.replicate_succ]
      exact .cons hs hrun

/-- A poll of a `Wait` that starts on a closed queue, made to its end. -/
theorem Finished.poll_starts (h : Finished w a) (hw : Reached cfg w a) {r : Polled W} (wk : W)
    (hp : w.pc i = .fut .wait (.idle r)) :
    ∃ m ≤ 5, ∃ w', (waitQueue willWake).Runs cfg w
      ((i, false, .poll wk) :: List.replicate m (i, false, .none)) w' ∧
      w'.pc i = .fut .wait (.idle .ready) := by
  have hv : w.view i = ⟨.idle, .idle, none⟩ := by
    have := hw.control i
    rwa [hp] at this
  have hown : w.q.own i = .idle := by
    have := congrArg View.own hv
    change (w.q.own i).op = .idle at this
    cases ho : w.q.own i <;> simp_all [OwnPc.op]
  have hrest : (w.view i).Rests := by
    rw [hv]
    exact ⟨rfl, rfl, fun h => by simp at h⟩
  have hraw := hw.ok.inv.rawState_ne_queued (x := i) (by rw [hown]; rfl) (h.out i)
  obtain ⟨q, hq⟩ : ∃ q, Aiq.step cfg w.q ((Call.state : Call ℕ (Waiter W)).act i) = some (q, .tau) := by
    simp only [Call.act, Aiq.step, ownerCall, hown]
    cases hq : w.q.mem.rawState i
    · exact ⟨_, rfl⟩
    · exact absurd hq hraw
    · exact ⟨_, rfl⟩
  obtain ⟨w₁, hs, hp₁, -⟩ := step_futCall cfg false hp hrest
    (show futNext willWake w i .wait (.idle r) (.poll wk) = _ from rfl) rfl hq
  obtain ⟨e, hm⟩ := Client.moves hw.ok hs
  obtain ⟨m, hm', w', hrun, hp'⟩ := (h.step hw hs hm).poll_returns willWake (hw.step hm)
    hp₁ rfl
  exact ⟨m, hm'.trans (FutPc.rank_le ..), w', .cons hs hrun, hp'⟩

/-! ## Every run -/

variable {ls : List (TaskId × Bool × Input W)}

theorem runs_knownState (h : (waitQueue willWake).Runs cfg init ls w) :
    ∃ a, Reached cfg w a ∧ KnownState a :=
  Reached.init.induct (Q := fun _ a => KnownState a) h (.inl rfl) fun _ _ _ _ _ _ hw _ hm hk =>
    hk.step (hw.control.stores (hw.wakers.fault _) hm)

/-- A closed queue stays closed, and nothing is enqueued in it. -/
theorem IsClosed.runs (h : IsClosed a) (hw : Reached cfg w a)
    (hr : (waitQueue willWake).Runs cfg w ls w') :
    ∃ a', Reached cfg w' a' ∧ IsClosed a' ∧ ∀ x, a'.Member x → a.Member x := by
  refine hw.induct (Q := fun _ a' => IsClosed a' ∧ ∀ x, a'.Member x → a.Member x) hr ⟨h, fun _ h => h⟩ ?_
  rintro l - w₁ a₁ w₂ e hw₁ hs hm ⟨h₁, h₂⟩
  obtain ⟨h₃, hne⟩ := h₁.step hw₁ hm
  exact ⟨h₃, fun x hx => h₂ x (Abs.member_apply hx (hne x))⟩

theorem Finished.runs (h : Finished w a) (hw : Reached cfg w a)
    (hr : (waitQueue willWake).Runs cfg w ls w') : ∃ a', Reached cfg w' a' ∧ Finished w' a' :=
  hw.induct hr h fun _ _ _ _ _ _ hw hs hm h => h.step hw hs hm

/-- A node whose future is not polled is not being inserted. -/
theorem Pc.Fits.not_inLoop (hf : (w.pc i).Fits i (w.view i)) (hp : (w.pc i).polling = false)
    (hne : w.pc i ≠ .fault) : (w.q.own i).inLoop = false := by
  by_contra hl
  have hv : (w.view i).own = (w.q.own i).op := rfl
  have hown : (∃ f, (w.view i).own = .inserting f) ∨ (w.view i).own = .refusing := by
    rw [hv]
    cases ho : w.q.own i <;> simp_all [OwnPc.inLoop, OwnPc.op]
  generalize w.pc i = p at hf hp hne
  generalize w.view i = v at hf hown
  cases p with
  | idle =>
    obtain rfl : v = _ := hf
    simp at hown
  | fut k p =>
    cases p <;> simp only [Pc.polling, FutPc.polling, reduceCtorEq] at hp <;>
      simp only [Pc.Fits, FutPc.Fits] at hf <;> grind
  | call p =>
    cases p <;> simp only [Pc.Fits, CallPc.Fits, Asks] at hf
    case final k ws b => cases b <;> simp only at hf <;> grind
    all_goals grind
  | fault => exact absurd rfl hne

/-- When the queue is closed, the mutex is free, there is no `Drain` and no poll is under way, no waiter
is left. -/
theorem Reached.finished (hw : Reached cfg w a) (hcl : w.q.mem.tail = .state closed)
    (hm : w.q.mutex = none) (hd : ∀ d, w.q.drains d = .none ∨ w.q.drains d = .gone)
    (hp : ∀ i, (w.pc i).polling = false) : Finished w a := by
  have hcl' := (Inv.isClosed_iff hw.ok.inv).1 hcl
  refine ⟨hcl', fun x => out_iff.2 ⟨?_, by simp [State.leaving, hm]⟩, fun {i p} hpc => ?_⟩
  · rintro (h | ⟨d, h⟩)
    · simp [hcl'.1] at h
    · have hok := hw.ok.inv.drain d
      rcases hd d with hd | hd <;> rw [hd] at hok <;> simp [show (a.drained d).rest = [] from hok] at h
  · have := hp i
    rw [hpc] at this
    exact FutPc.prompt_of_not_polling this

/-- **Closing is final and complete.** After every run of a `WaitQueue` the tail is `EMPTY`, `CLOSED` or a
node. If it is `CLOSED`, it is so after every continuation of the run, and no node has been enqueued in
it. If moreover the mutex is free, no `Drain` is in progress and no poll is under way, then no node is
`Queued`; and after every continuation a poll of a `Wait`, whether it starts there or is under way,
returns `Ready` after at most six steps of its task, and in any case does not return `Pending`. -/
theorem close_is_final (h : (waitQueue willWake).Runs cfg init ls w) :
    ∃ a, w.Ok cfg a ∧
      (w.q.mem.tail = .state empty ∨ w.q.mem.tail = .state closed ∨
        ∃ x, w.q.mem.tail = .ptr (.node x)) ∧
      (w.q.mem.tail = .state closed → ∀ ls' w', (waitQueue willWake).Runs cfg w ls' w' →
        w'.q.mem.tail = .state closed ∧ ∃ a', w'.Ok cfg a' ∧ ∀ x, a'.Member x → a.Member x) ∧
      (w.q.mem.tail = .state closed → w.q.mutex = none →
        (∀ d, w.q.drains d = .none ∨ w.q.drains d = .gone) → (∀ i, (w.pc i).polling = false) →
        (∀ x, w.q.mem.rawState x ≠ .queued) ∧
        ∀ ls' w', (waitQueue willWake).Runs cfg w ls' w' → ∀ i,
          (∀ r wk, w'.pc i = .fut .wait (.idle r) →
            ∃ m ≤ 5, ∃ w'', (waitQueue willWake).Runs cfg w'
              ((i, false, .poll wk) :: List.replicate m (i, false, .none)) w'' ∧
              w''.pc i = .fut .wait (.idle .ready)) ∧
          ∀ p, w'.pc i = .fut .wait p → p.polling = true →
            (∃ m ≤ 5, ∃ w'', (waitQueue willWake).Runs cfg w' (List.replicate m (i, false, .none)) w'' ∧
              w''.pc i = .fut .wait (.idle .ready)) ∧
            ∀ weak n w'' r, (waitQueue willWake).step cfg w' i weak n = some w'' →
              w''.pc i = .fut .wait (.idle r) → r = .ready) := by
  obtain ⟨a, hw, hk⟩ := runs_knownState h
  refine ⟨a, hw.ok, ?_, fun hcl ls' w' hr => ?_, fun hcl hm hd hp => ⟨fun x => ?_, fun ls' w' hr i => ?_⟩⟩
  · rw [hw.ok.inv.tail]
    cases ht : a.tail with
    | state s =>
      obtain ⟨-, rfl⟩ := Abs.tail_eq_state_iff.1 ht
      rcases hk with hk | hk
      · exact .inl (by rw [hk])
      · exact .inr (.inl (by rw [hk]))
    | ptr b =>
      obtain ⟨x, -, rfl⟩ := Abs.tail_eq_ptr_iff.1 ht
      exact .inr (.inr ⟨x, rfl⟩)
  · obtain ⟨a', hw', hcl', hmem⟩ := ((Inv.isClosed_iff hw.ok.inv).1 hcl).runs hw hr
    exact ⟨(Inv.isClosed_iff hw'.ok.inv).2 hcl', a', hw'.ok, hmem⟩
  · refine hw.ok.inv.rawState_ne_queued ?_ ((hw.finished hcl hm hd hp).out x)
    exact (hw.control x).not_inLoop (hp x) (hw.wakers.fault x)
  · obtain ⟨a', hw', hfin⟩ := (hw.finished hcl hm hd hp).runs hw hr
    refine ⟨fun r wk hpc => hfin.poll_starts hw' wk hpc, fun p hpc hpoll => ⟨?_, ?_⟩⟩
    · obtain ⟨m, hm', w'', hrun, hp'⟩ := hfin.poll_returns willWake hw' hpc hpoll
      exact ⟨m, hm'.trans (FutPc.rank_le ..), w'', hrun, hp'⟩
    · intro weak n w'' r hs hpc'
      obtain ⟨w₁, hs₁, hres⟩ := hfin.poll_step willWake hw' hpc hpoll weak n
      obtain rfl := Option.some.inj (hs.symm.trans hs₁)
      rcases hres with hr | ⟨p', hp', hpoll', -⟩
      · simpa [hpc'] using hr
      · obtain rfl : .idle r = p' := by simpa [hpc'] using hp'
        simp [FutPc.polling] at hpoll'

/-- A `Wait` is enqueued, and another task closes the queue. -/
def closeActs : List (TaskId × Bool × Input ℕ) :=
  pollActs 3 .wait 7 ++ (0, false, .call .close) :: List.replicate 19 (0, false, .drain 5)

theorem close_is_final_closeActs :
    let w := (waitQueue fun _ _ => true).after ⟨.x86, 0⟩ init closeActs
    w.q.mem.tail = .state closed ∧ w.q.mem.rawState 3 = .dequeued ∧
      ∀ ls' w', (waitQueue fun _ _ => true).Runs ⟨.x86, 0⟩ w ls' w' → w'.q.mem.tail = .state closed := by
  intro w
  have h : ((waitQueue fun _ _ => true).perform ⟨.x86, 0⟩ init closeActs).isSome := by decide +kernel
  have ht : w.q.mem.tail = .state closed := by decide +kernel
  obtain ⟨a, -, -, hcl, -⟩ := close_is_final (Client.runs_after h)
  exact ⟨ht, by decide +kernel, fun ls' w' hr => (hcl ht ls' w' hr).1⟩

end Aiq.WaitQueue
