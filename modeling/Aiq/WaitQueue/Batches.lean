import Aiq.Task.Trace
import Aiq.WaitQueue.Calls

/-!
# Batched notification

What a notifying call does is written down along a run (`Log`): the waiters that it dequeues, each with
the waker that was stored last in it, and the wakers that it calls. The wakers that it has taken and not
called make up the difference (`Balanced`), so when the call has returned, the wakers of the waiters that it
has dequeued, in this order, are those that it has called. No list of wakers gets longer than its capacity
(`Pc.InCapacity`).
-/

namespace Aiq.WaitQueue

variable {W : Type} {willWake : W → W → Bool} {cfg : Config} {a : Abs ℕ} {w w' : WorldOf W}
  {i j : TaskId} {e : Event ℕ} {n : Input W} {r : InstrOf W} {q : State ℕ (Waiter W)} {x : NodeId}
  {wk : W} {p : CallPc W}

/-! ## The capacity of the lists of wakers -/

/-- A waker is pushed to the list of wakers next. -/
def Pc.pushes : Pc W → Bool
  | .call (.notified _ _) | .call (.forEach _ (.node _ _)) => true
  | _ => false

/-- The list of wakers is not full where a waiter is taken, and never exceeds its capacity. -/
def Pc.InCapacity : Pc W → Prop
  | .call (.take _ ws) | .call (.dequeued _ ws) | .call (.notified _ ws)
  | .call (.forEach _ (.head _ ws)) | .call (.forEach _ (.node _ ws)) => ws.length < wakersCapacity
  | p => p.wakers.length ≤ wakersCapacity

theorem Pc.InCapacity.length_le {p : Pc W} (h : p.InCapacity) : p.wakers.length ≤ wakersCapacity := by
  unfold InCapacity at h
  split at h
  all_goals first | exact Nat.le_of_lt h | exact h

theorem Pc.InCapacity.length_lt {p : Pc W} (h : p.InCapacity) (hp : p.pushes = true) :
    p.wakers.length < wakersCapacity := by
  unfold pushes at hp
  split at hp
  · exact h
  · exact h
  · simp at hp

theorem CallPc.Goes.inCapacity {p' : Pc W} {k : Option (Call ℕ (Waiter W))} {l : List W}
    (h : p.Goes w i e q k l p') (hp : (Pc.call p).InCapacity) : p'.InCapacity := by
  cases h <;>
    simp only [Pc.InCapacity, Pc.wakers, ForEachPc.wakers, List.length_append, List.length_cons,
      List.length_nil] at hp ⊢ <;>
    first | omega | (simp only [wakersCapacity] at *; omega)

theorem Pc.inCapacity_of_nil {p : Pc W} (h : p.wakers = []) : p.InCapacity := by
  have hl : p.wakers.length ≤ 0 := by simp [h]
  unfold InCapacity
  split
  all_goals first | exact Nat.lt_of_le_of_lt hl (by decide) | exact hl.trans (Nat.zero_le _)

theorem futNext_wakers {k : Kind} {p : FutPc W} (hr : futNext willWake w i k p n = some r) :
    (r.pc e q).wakers = [] := by
  unfold futNext at hr
  repeat' split at hr
  all_goals first | contradiction | obtain rfl := Option.some.inj hr
  all_goals rfl

theorem next_inCapacity (hr : next willWake w i n = some r) (hf : r.pc e q ≠ .fault)
    (h : (w.pc i).InCapacity) : (r.pc e q).InCapacity := by
  unfold next at hr
  split at hr
  · obtain rfl := Option.some.inj hr
    exact Pc.inCapacity_of_nil rfl
  · rename_i k hp
    obtain rfl := Option.some.inj hr
    refine Pc.inCapacity_of_nil ?_
    cases k <;> simp only [start] <;> first | rfl | (split <;> rfl)
  · exact Pc.inCapacity_of_nil (futNext_wakers hr)
  · rename_i p n hp
    rw [hp] at h
    obtain ⟨l, hgo, -⟩ := callNext_goes hr hf
    exact hgo.inCapacity h
  · simp at hr

theorem observe_inCapacity (q : State ℕ (Waiter W)) (h : (w.pc i).InCapacity) :
    (observe w i e q).1.InCapacity := by
  unfold observe
  split
  · split
    · rename_i k _ _
      exact Pc.inCapacity_of_nil (by cases k <;> rfl)
    · split
      · exact Pc.inCapacity_of_nil rfl
      · exact h
  · split
    · exact Pc.inCapacity_of_nil rfl
    · split
      · exact Pc.inCapacity_of_nil rfl
      · exact h
  · exact h

/-! ## What a call has done -/

/-- The node that is taken out of its list. -/
def removedNode : Event ℕ → Option NodeId
  | .remove x _ | .drainRemove _ x _ => some x
  | _ => none

/-- The node that is enqueued. -/
def enqueuedNode : Event ℕ → Option NodeId
  | .enqueue x => some x
  | _ => none

theorem removedNode_eq_some : removedNode e = some x ↔ e.Removes x := by
  unfold removedNode Event.Removes
  split <;> simp_all

/-- The waiters that a call has dequeued, each with the waker that was stored last in it; the wakers that
the call has called; and the nodes that all tasks have enqueued since it started. -/
structure Log (W : Type) where
  stored : NodeId → Option W
  dequeued : List (NodeId × Option W)
  called : List W
  enqueued : List NodeId

/-- At the start of a call. -/
def Log.start (w : WorldOf W) : Log W := ⟨fun x => (w.q.mem.data x).waker, [], [], []⟩

/-- What a step from `w` to `w'` adds; `mine` when the call makes it. -/
def Log.record (mine : Bool) (e : Event ℕ) (w w' : WorldOf W) (L : Log W) : Log W where
  stored := fun x => (w'.q.mem.data x).waker.or (L.stored x)
  dequeued := L.dequeued ++ if mine then (removedNode e).toList.map fun x => (x, L.stored x) else []
  called := L.called ++ if mine then w'.shared.woken.drop w.shared.woken.length else []
  enqueued := L.enqueued ++ (enqueuedNode e).toList

/-- What the call of the task `i` has dequeued and called, with the wakers that it has in hand. -/
inductive Balanced (w : WorldOf W) (a : Abs ℕ) (i : TaskId) (L : Log W) : Prop
  | even (h : ∀ x, Took w i x → ¬ a.Member x)
      (hl : L.dequeued.map Prod.snd = (L.called ++ (w.pc i).wakers).map some)
  /-- The waker of the waiter `x` is taken, and the waiter is not removed yet. -/
  | owing (x : NodeId) (h : Took w i x) (hx : a.Member x)
      (hl : L.dequeued.map Prod.snd ++ [L.stored x] = (L.called ++ (w.pc i).wakers).map some)

/-- The wakers stored last are those that are in the waiters. -/
def Log.Current (L : Log W) (w : WorldOf W) : Prop :=
  ∀ {x wk}, (w.q.mem.data x).waker = some wk → L.stored x = some wk

/-- The task is in a call. -/
def Pc.inCall : Pc W → Bool
  | .call _ => true
  | _ => false

theorem inCall_iff {p : Pc W} : p.inCall = true ↔ ∃ p', p = .call p' := by
  cases p <;> simp [Pc.inCall]

theorem Took.unique {y : NodeId} (hx : Took w i x) (hy : Took w i y) : x = y :=
  Option.some.inj (hx.2.symm.trans hy.2)

theorem Took.lock (h : Took w i x) : ∃ o, (w.view i).op = some o ∧ o.target = some x :=
  Option.bind_eq_some_iff.1 h.2

/-- A waiter in hand that has left its list does not come back. -/
theorem Took.not_member (h : Took w i x) (hw : w.Ok cfg a) (hm : (waitQueue willWake).Moves cfg a w j n w' e)
    (hx : ¬ a.Member x) : ¬ (a.apply e).Member x := fun hx' => by
  rcases hm.member hx' with h' | ⟨rfl, -, f, u, o, hv⟩
  · exact hx h'
  · have hout := out_iff.1 (hw.inv.out_of_own (x := x) (by
      have := congrArg View.own hv
      rw [show (w.q.own x).op = _ from this]
      rfl))
    obtain ⟨o, ho, ht⟩ := h.lock
    rcases hw.inv.member_of_target (by rw [(World.op_of_view ho).2]; exact ht) with h' | h'
    · exact hx h'
    · exact hout.2 h'

/-- A waiter in hand is removed by nobody else. -/
theorem Took.member (h : Took w i x) (hm : (waitQueue willWake).Moves cfg a w j n w' e) (hx : a.Member x)
    (hj : i ≠ j) : (a.apply e).Member x := by
  by_contra hx'
  obtain ⟨-, o, ho, -⟩ := hm.removes hx hx'
  obtain ⟨o', ho', -⟩ := h.lock
  exact hj (Option.some.inj ((World.op_of_view ho').1.symm.trans (World.op_of_view ho).1))

/-- What a call removes is the waiter whose waker it has taken. -/
theorem Served.took_of_removes (hs : Served willWake cfg w a)
    (hm : (waitQueue willWake).Moves cfg a w i n w' e) (hp : (w.pc i).inCall = true) (he : e.Removes x) :
    Took w i x ∧ a.Member x ∧ ¬ (a.apply e).Member x := by
  obtain ⟨p, hp⟩ := inCall_iff.1 hp
  have hmem : a.Member x ∧ ¬ (a.apply e).Member x := by
    cases hm.mover with
    | op hts hd hv hp hg => exact ⟨Abs.member_of_removes he hts.allows, hts.not_member (.inl he)⟩
    | call hr hk hrest hts hv hp hg => exact absurd he hv.not_removes
    | own => simp [Event.Removes] at he
  refine ⟨?_, hmem⟩
  obtain ⟨-, o, ho, h⟩ := hm.removes hmem.1 hmem.2
  have hf := hs.reached.control i
  have hnf := hs.reached.wakers.fault i
  rcases h with ⟨htg, hr⟩ | ⟨s, k, rfl, hk⟩ | ⟨d, rfl, hrest⟩
  · exact ⟨taken_of_runs hf hnf ho hr htg, by rw [ho]; exact htg⟩
  · obtain ⟨-, k', hp'⟩ := hf.removing_self hnf ho hk
    simp [hp'] at hp
  · have hff := hs.reached.control.forEachFits hs.reached.wakers.fault
    obtain ⟨p, hp, rfl⟩ := hff.holds ho rfl
    have hdone : p.isDone = true := by
      obtain ⟨st, hfit⟩ := hff.fits hp
      rw [ho] at hfit
      cases p <;> simp [ForEachPc.Fits, ForEachPc.isDone] at hfit ⊢
    simp [hs.drains.done hp hdone] at hrest

/-- What a step of a call does to the list of wakers. -/
theorem CallPc.Goes.wakers {p' : Pc W} {k : Option (Call ℕ (Waiter W))} {l : List W}
    (h : p.Goes w i e q k l p') :
    (Pc.call p).wakers = l ++ p'.wakers ∨ l = [] ∧ (Pc.call p).taken = false ∧ p'.taken = true ∧
      k = some (.holder (.withDataMut fun v => { v with waker := none })) ∧
      ∃ x wk, w.q.op.bind HolderOp.node = some x ∧ (w.q.mem.data x).waker = some wk ∧
        (Pc.call p).wakers ++ [wk] = p'.wakers := by
  cases h with
  | takeWaker r ws x wk hx hw => exact .inr ⟨rfl, rfl, rfl, rfl, x, wk, hx, hw, rfl⟩
  | onNext k d ws x wk hx hw => exact .inr ⟨rfl, rfl, rfl, rfl, x, wk, hx, hw, rfl⟩
  | _ => exact .inl rfl

theorem observe_wakers (q : State ℕ (Waiter W)) : (observe w i e q).1.wakers = (w.pc i).wakers := by
  unfold observe
  split
  · rename_i k hp
    rw [hp]
    split
    · cases k <;> rfl
    · split <;> rfl
  · rename_i c m hp
    rw [hp]
    repeat' split
    all_goals rfl
  · rfl

/-- The node that a call has in hand is not its own. -/
theorem Pc.Fits.target_of_node {v : View ℕ} {o : HolderOp ℕ} (hf : (Pc.call p).Fits i v)
    (ho : v.op = some o) (hx : o.node = some x) : o.target = some x := by
  have hq : ∀ y, o ≠ .queued y := by
    rintro y rfl
    cases p with
    | forEach k p =>
      have hp := hf.2.2
      rw [ho] at hp
      cases p <;> simp [ForEachPc.Fits] at hp
    | final k ws b => cases b <;> simp only [Pc.Fits, CallPc.Fits] at hf <;> grind
    | _ =>
      simp only [Pc.Fits, CallPc.Fits, Asks] at hf
      grind
  unfold HolderOp.node at hx
  split at hx
  · exact hx
  · exact absurd rfl (hq _)
  · exact hx
  · simp at hx

/-- The wakers that the call of the mover takes and calls. -/
theorem Served.wakers_moved (hs : Served willWake cfg w a)
    (hm : (waitQueue willWake).Moves cfg a w i n w' e) (hp : (w.pc i).inCall = true)
    (hf : w'.pc i ≠ .fault) :
    ∃ l, w'.shared.woken = w.shared.woken ++ l ∧
      ((w.pc i).wakers = l ++ (w'.pc i).wakers ∨ l = [] ∧ (w.pc i).taken = false ∧
        ∃ x wk, Took w' i x ∧ a.Member x ∧ ¬ e.Removes x ∧ (w.q.mem.data x).waker = some wk ∧
          (w'.q.mem.data x).waker = none ∧ (w.pc i).wakers ++ [wk] = (w'.pc i).wakers) := by
  obtain ⟨p, hp⟩ := inCall_iff.1 hp
  cases hm.mover with
  | op hts hd hv hp' hg =>
    have hwoken : (observe w i e w'.q).2 = w.shared := (observe_spec w'.q).2
    refine ⟨[], ?_, .inl ?_⟩
    · rw [hg, List.append_nil]
      exact congrArg Shared.woken hwoken
    · rw [hp']
      exact (observe_wakers w'.q).symm
  | own hr hk hrest hq hv hp' hg =>
    simp only [waitQueue, next, hp] at hr
    rw [hp'] at hf ⊢
    obtain ⟨l, hgo, hl⟩ := callNext_goes hr hf
    refine ⟨l, by rw [hg, hl], ?_⟩
    rw [hp]
    rcases hgo.wakers with h | ⟨-, -, -, hk', -⟩
    · exact .inl h
    · simp [hk] at hk'
  | call hr hk hrest hts hv hp' hg =>
    simp only [waitQueue, next, hp] at hr
    have hf' := hf
    rw [hp'] at hf'
    obtain ⟨l, hgo, hl⟩ := callNext_goes hr hf'
    refine ⟨l, by rw [hg, hl], ?_⟩
    rcases hgo.wakers with h | ⟨rfl, ht, ht', hk', x, wk, hx, hwk, hws⟩
    · exact .inl (by rw [hp, hp', h])
    · obtain rfl := Option.some.inj (hk.symm.trans hk')
      obtain ⟨y, u, o, o', hw, hcs, hw'⟩ := hv.holder_inv
      have hop : w.q.op = some o := (World.op_of_view (congrArg View.op hw)).2
      rw [hop] at hx
      have htg : o.target = some x := by
        have hf := hs.reached.control i
        rw [hp] at hf
        exact hf.target_of_node (congrArg View.op hw) hx
      refine .inr ⟨rfl, by rw [hp, ht], x, wk, ⟨by rw [hp', ht'], ?_⟩, ?_, ?_, hwk, ?_, ?_⟩
      · rw [hw', hcs.withDataMut_inv]
        exact htg
      · exact hs.reached.ok.member_of_node (congrArg View.op hw) hx
      · exact hv.not_removes
      · rw [TaskStep.data_holder hts (by rw [hop]; exact hx)]
      · rw [hp, hp', hws]

variable {L : Log W}

/-! ## Every step -/

/-- The data of a waiter in hand whose waker is taken is left alone. -/
theorem Took.data_eq (h : Took w i x) (hw : Reached cfg w a)
    (hm : (waitQueue willWake).Moves cfg a w j n w' e) (hx : a.Member x) :
    w'.q.mem.data x = w.q.mem.data x := by
  cases hm.mover with
  | op hs hd hv hp hg => rw [hd]
  | own hr hk hrest hq hv hp hg => rw [hq]
  | call hr hk hrest hs hv hp hg =>
    refine (hs.data_call x).resolve_right fun hd => ?_
    obtain ⟨g, o, rfl, ho, -, -⟩ := hd.member hw.ok hx
    obtain ⟨o', ho', -⟩ := h.lock
    obtain rfl : i = j :=
      Option.some.inj ((World.op_of_view ho').1.symm.trans (World.op_of_view ho).1)
    have := (next_taken hr h.1 (hw.control i) hrest h.2).1
    simp [hk] at this

theorem Log.Current.record {b : Bool} (w₀ : WorldOf W) : (L.record b e w₀ w').Current w' := by
  intro x wk h
  simp [Log.record, h]

theorem Log.Current.stored_eq {b : Bool} (h : L.Current w)
    (hd : w'.q.mem.data x = w.q.mem.data x) : (L.record b e w w').stored x = L.stored x := by
  simp only [Log.record, hd]
  cases hwk : (w.q.mem.data x).waker with
  | none => rfl
  | some wk => exact (h hwk).symm

theorem Log.record_not_mine : (L.record false e w w').dequeued = L.dequeued ∧
    (L.record false e w w').called = L.called := by
  simp [Log.record]

theorem Log.record_called {l : List W} (h : w'.shared.woken = w.shared.woken ++ l) :
    (L.record true e w w').called = L.called ++ l := by
  simp [Log.record, h]

theorem Log.record_dequeued (h : ∀ x, ¬ e.Removes x) : (L.record true e w w').dequeued = L.dequeued := by
  have : removedNode e = none := by
    by_contra hne
    obtain ⟨x, hx⟩ := Option.ne_none_iff_exists'.1 hne
    exact h x (removedNode_eq_some.1 hx)
  simp [Log.record, this]

theorem Log.record_removed (h : e.Removes x) :
    (L.record true e w w').dequeued = L.dequeued ++ [(x, L.stored x)] := by
  simp [Log.record, removedNode_eq_some.2 h]

/-- The step of another task. -/
theorem Balanced.step_ne (h : Balanced w a i L) (hw : Reached cfg w a) (hc : L.Current w)
    (hm : (waitQueue willWake).Moves cfg a w j n w' e) (hj : i ≠ j) :
    Balanced w' (a.apply e) i (L.record false e w w') := by
  have htook : ∀ {y}, Took w' i y ↔ Took w i y := by
    intro y
    rw [Took, Took, hm.pc_ne hj, hm.view_ne hj]
  cases h with
  | even ht hl =>
    refine .even (fun y hy => (htook.1 hy).not_member hw.ok hm (ht y (htook.1 hy))) ?_
    rw [hm.pc_ne hj, Log.record_not_mine.1, Log.record_not_mine.2, hl]
  | owing x ht hx hl =>
    refine .owing x (htook.2 ht) (ht.member hm hx hj) ?_
    rw [hm.pc_ne hj, Log.record_not_mine.1, Log.record_not_mine.2,
      hc.stored_eq (ht.data_eq hw hm hx), hl]

/-- The step of the task that is in the call. -/
theorem Balanced.step_self (h : Balanced w a i L) (hs : Served willWake cfg w a) (hc : L.Current w)
    (hm : (waitQueue willWake).Moves cfg a w i n w' e) (hp : (w.pc i).inCall = true)
    (hf : w'.pc i ≠ .fault) : Balanced w' (a.apply e) i (L.record true e w w') := by
  obtain ⟨l, hwoken, hws⟩ := hs.wakers_moved hm hp hf
  have hcalled : (L.record true e w w').called = L.called ++ l := Log.record_called hwoken
  rcases hws with hws | ⟨rfl, hnt, x, wk, htook, hx, hne, hwk, hnone, hws⟩
  · have htook : ∀ {y}, Took w' i y → Took w i y := fun hy => by
      refine (hy.step_inv hs.reached.control hm).resolve_right ?_
      rintro ⟨-, wk, -, hws'⟩
      have := congrArg List.length hws
      simp [hws'] at this
      omega
    cases h with
    | even ht hl =>
      refine .even (fun y hy => (htook hy).not_member hs.reached.ok hm (ht y (htook hy))) ?_
      rw [hcalled, List.append_assoc, ← hws, ← hl, Log.record_dequeued fun y hy => ?_]
      obtain ⟨ht', hmem, -⟩ := hs.took_of_removes hm hp hy
      exact ht y ht' hmem
    | owing x ht hx hl =>
      by_cases he : e.Removes x
      · obtain ⟨-, -, hx'⟩ := hs.took_of_removes hm hp he
        refine .even (fun y hy => (htook hy).unique ht ▸ hx') ?_
        rw [hcalled, List.append_assoc, ← hws, ← hl, Log.record_removed he, List.map_append]
        rfl
      · have hx' : (a.apply e).Member x := by
          by_contra hx'
          exact he (hm.removes hx hx').1
        refine .owing x (ht.step hs.reached.control hm hx') hx' ?_
        rw [hcalled, List.append_assoc, ← hws, ← hl, hc.stored_eq (ht.data_eq hs.reached hm hx),
          Log.record_dequeued fun y hy => ?_]
        obtain ⟨ht', -, -⟩ := hs.took_of_removes hm hp hy
        exact he (ht.unique ht' ▸ hy)
  · have hnot : ∀ y, ¬ Took w i y := fun y hy => by simp [Took, hnt] at hy
    have hx' : (a.apply e).Member x := by
      by_contra hx'
      exact hne (hm.removes hx hx').1
    cases h with
    | owing y ht => exact absurd ht (hnot y)
    | even ht hl =>
      refine .owing x htook hx' ?_
      rw [hcalled, List.append_nil, ← hws, ← List.append_assoc, List.map_append, ← hl,
        Log.record_dequeued fun y hy => hnot y (hs.took_of_removes hm hp hy).1]
      simp [Log.record, hnone, hc hwk]

/-! ## `notify_many` -/

/-- The argument of the `notify_many` that the task is in. -/
def Pc.count : Pc W → Option ℕ
  | .call (.ask (.notifyMany c)) | .call (.take (.many c _) _) | .call (.dequeued (.many c _) _)
  | .call (.notified (.many c _) _) | .call (.taken (.many c _) _) | .call (.dropped (.many c _) _)
  | .call (.batch c _ _) | .call (.relock c _) | .call (.final (.notifyMany c) _ _) => some c
  | _ => none

/-- How many wakers it may yet take. -/
def Pc.rest : Pc W → ℕ
  | .call (.ask (.notifyMany c)) => c
  | .call (.dequeued (.many _ m) _) | .call (.notified (.many _ m) _) => m + 1
  | .call (.take (.many _ m) _) | .call (.taken (.many _ m) _) | .call (.dropped (.many _ m) _)
  | .call (.batch _ m _) | .call (.relock _ m) => m
  | _ => 0

variable {c : ℕ}

theorem Pc.inCall_of_count {p : Pc W} (h : p.count = some c) : p.inCall = true := by
  cases p <;> first | rfl | simp [Pc.count] at h

/-- A call that goes on leaves the number of the wakers that it takes; it may end earlier when it finds
the queue empty. -/
theorem CallPc.Goes.count {p' : Pc W} {k : Option (Call ℕ (Waiter W))} {l : List W}
    (h : p.Goes w i e q k l p') (hc : (Pc.call p).count = some c) :
    (p'.count = some c ∨ p' = .idle) ∧
      (l.length + p'.wakers.length + p'.rest = (Pc.call p).wakers.length + (Pc.call p).rest ∨
        l = [] ∧ p'.wakers = (Pc.call p).wakers ∧ p'.rest = 0 ∧ k ≠ none ∧
          ((∃ r ws, p = .dequeued r ws) ∧ w.q.mutex = some .guard ∨
            k = some (.thread .isEmptyOrLock) ∧ q.upd i = .idle)) := by
  cases h with
  | empty c m ws h => exact ⟨.inl hc, .inr ⟨rfl, rfl, rfl, by simp, .inl ⟨⟨_, _, rfl⟩, h⟩⟩⟩
  | relockEmpty c m h => exact ⟨.inl hc, .inr ⟨rfl, rfl, rfl, by simp, .inr ⟨rfl, h⟩⟩⟩
  | notify r ws => cases r <;> simp_all [Pc.count, Pc.wakers, Pc.rest]
  | takeWaker r ws x wk =>
    cases r <;> simp_all [Pc.count, Pc.wakers, Pc.rest]
    omega
  | drop r ws => cases r <;> simp_all [Pc.count, Pc.wakers, Pc.rest]
  | wakeLast k wk ws b =>
    cases k <;> simp_all [Pc.count, Pc.wakers, Pc.rest]
    omega
  | unlock k => cases k <;> simp_all [Pc.count, Pc.wakers, Pc.rest]
  | «return» k => simp [Pc.wakers, Pc.rest]
  | wake c m wk ws =>
    refine ⟨.inl hc, .inl ?_⟩
    simp only [Pc.wakers, Pc.rest, List.length_cons, List.length_nil]
    omega
  | _ => simp_all [Pc.count, Pc.wakers, Pc.rest]

theorem next_pop (hr : next willWake w i n = some r) (hk : r.call = some (.holder .pop)) :
    ∃ ws, w.pc i = .call (.take .last ws) := by
  unfold next futNext callNext start ForEachPc.next at hr
  repeat' split at hr
  all_goals grind

theorem observe_count (q : State ℕ (Waiter W)) (hc : (w.pc i).count = some c) :
    (observe w i e q).1.count = some c ∧
      ((observe w i e q).1.rest = (w.pc i).rest ∨ (observe w i e q).1.rest = 0 ∧
        (∀ v, (w.pc i).Fits i v → Asks i none v) ∧ e ≠ .guarded i ∧ q.upd i = .idle) := by
  unfold observe
  split
  · rename_i k hp
    rw [hp] at hc ⊢
    obtain rfl : k = .notifyMany c := by cases k <;> simp_all [Pc.count]
    split
    · exact ⟨rfl, .inl rfl⟩
    · split
      · exact ⟨rfl, .inr ⟨rfl, fun _ h => h, ‹_›, ‹_›⟩⟩
      · exact ⟨rfl, .inl rfl⟩
  · rename_i c' m hp
    rw [hp] at hc ⊢
    obtain rfl := Option.some.inj hc
    split
    · exact ⟨rfl, .inl rfl⟩
    · split
      · exact ⟨rfl, .inr ⟨rfl, fun _ h => h, ‹_›, ‹_›⟩⟩
      · exact ⟨rfl, .inl rfl⟩
  · exact ⟨hc, .inl rfl⟩

/-- The call has found the queue empty. -/
def FoundEmpty (w : WorldOf W) (i : TaskId) : Prop :=
  (∃ r ws, w.pc i = .call (.dequeued r ws)) ∧ w.lockedBy = some i ∧ w.q.mutex = some .guard ∨
    (w.view i).upd = .releasing

theorem Reached.empty_of_queueState (hw : Reached cfg w a) (h : w.q.mem.queueState ≠ none) :
    a.queue = [] := by
  by_contra hne
  exact h (hw.ok.inv.queueState_eq_none.2 hne)

/-- The wakers that a `notify_many` takes and calls. -/
theorem Served.counted (hs : Served willWake cfg w a) (hm : (waitQueue willWake).Moves cfg a w i n w' e)
    (hc : (w.pc i).count = some c) (hf : w'.pc i ≠ .fault) :
    ((w'.pc i).count = some c ∨ w'.pc i = .idle) ∧ ∃ l, w'.shared.woken = w.shared.woken ++ l ∧
      (l.length + (w'.pc i).wakers.length + (w'.pc i).rest = (w.pc i).wakers.length + (w.pc i).rest ∨
        l = [] ∧ (w'.pc i).wakers = (w.pc i).wakers ∧ (w'.pc i).rest = 0 ∧
          (FoundEmpty w i ∨ a.queue = [])) := by
  obtain ⟨p, hp⟩ := inCall_iff.1 (Pc.inCall_of_count hc)
  have hfit := hs.reached.control i
  cases hm.mover with
  | op hts hd hv hpc hg =>
    obtain ⟨h₁, h₂⟩ := observe_count (e := e) w'.q hc
    have hwk := observe_wakers (w := w) (i := i) (e := e) w'.q
    have hwoken : w'.shared.woken = w.shared.woken := by
      rw [hg]
      exact congrArg Shared.woken (observe_spec w'.q).2
    rw [show (observe w i e w'.q).1 = w'.pc i from hpc.symm] at h₁ h₂ hwk
    refine ⟨.inl h₁, [], by simp [hwoken], ?_⟩
    rcases h₂ with h₂ | ⟨h₂, hask, he, hu⟩
    · exact .inl (by simp [hwk, h₂])
    · refine .inr ⟨rfl, hwk, h₂, ?_⟩
      have hu' : (w'.view i).upd = .idle := by simp [World.view, State.view, hu, UpdPc.op]
      refine (Asks.passed (hask _ hfit) hv (.inr ⟨he, hu'⟩)).imp .inr ?_
      exact fun h => hs.reached.empty_of_queueState h.1
  | call hr hk hrest hts hv hpc hg =>
    simp only [waitQueue, next, hp] at hr
    rw [hpc] at hf ⊢
    obtain ⟨l, hgo, hl⟩ := callNext_goes hr hf
    rw [hp] at hc ⊢
    obtain ⟨h₁, h₂⟩ := hgo.count hc
    refine ⟨h₁, l, by rw [hg, hl], h₂.imp_right ?_⟩
    rintro ⟨rfl, hws, hrs, -, ⟨hpd, hmx⟩ | ⟨hk', hu⟩⟩
    · refine ⟨rfl, hws, hrs, .inl (.inl ⟨?_, ?_, hmx⟩)⟩
      · obtain ⟨r', ws, rfl⟩ := hpd
        exact ⟨r', ws, hp⟩
      · obtain ⟨r', ws, rfl⟩ := hpd
        rw [hp] at hfit
        rcases hfit with ho | ho | ⟨x, ho⟩ <;> exact (World.op_of_view (congrArg View.op ho)).1
    · refine ⟨rfl, hws, hrs, .inr ?_⟩
      obtain rfl := Option.some.inj (hk.symm.trans hk')
      refine hs.reached.empty_of_queueState (hv.isEmptyOrLock_inv.resolve_right fun h => ?_).1
      simp [World.view, State.view, hu, UpdPc.op] at h
  | own hr hk hrest hq hv hpc hg =>
    simp only [waitQueue, next, hp] at hr
    rw [hpc] at hf ⊢
    obtain ⟨l, hgo, hl⟩ := callNext_goes hr hf
    rw [hp] at hc ⊢
    obtain ⟨h₁, h₂⟩ := hgo.count hc
    refine ⟨h₁, l, by rw [hg, hl], h₂.imp_right ?_⟩
    rintro ⟨-, -, -, hne, -⟩
    exact absurd hk hne

/-- What the `notify_many(c)` of the task `i` has done, on a queue that was `l` when it started. -/
structure Many (c : ℕ) (l : List NodeId) (w : WorldOf W) (a : Abs ℕ) (i : TaskId) (L : Log W) : Prop where
  count : (w.pc i).count = some c ∨ w.pc i = .idle
  le : L.called.length + (w.pc i).wakers.length + (w.pc i).rest ≤ c
  head : w.lockedBy = some i → w.q.AtHead
  order : (L.dequeued.map Prod.fst ++ a.queue).Sublist (l ++ L.enqueued)

theorem queue_apply_sublist : (a.apply e).queue.Sublist (a.queue ++ (enqueuedNode e).toList) := by
  cases e <;> simp only [Abs.apply, enqueuedNode, Option.toList_some, Option.toList_none, List.append_nil,
    List.Sublist.refl]
  · exact List.erase_sublist
  · exact List.nil_sublist _

/-- While the task `i` makes no call of `pop`, what it has in hand it has taken from the head. -/
theorem head_step (hw : w.Ok cfg a) (hm : (waitQueue willWake).Moves cfg a w j n w' e)
    (h : w.lockedBy = some i → w.q.AtHead)
    (hpop : i = j → ∀ r, next willWake w j n = some r → r.call ≠ some (.holder .pop))
    (hl : w'.lockedBy = some i) : w'.q.AtHead := by
  have hgetD : w.lockedBy.getD j = i := by
    have key : ∀ q' : State ℕ (Waiter W), nextLock w.lockedBy j q' = some i → w.lockedBy.getD j = i := by
      intro q' h
      unfold nextLock at h
      split at h
      · exact Option.some.inj h
      · simp at h
    cases hm with
    | op hk hs hw => exact key _ (hw ▸ hl)
    | call hi hr hk hl' hs hw => exact key _ (hw ▸ hl)
    | own hi hr hk hw =>
      subst hw
      have : w.lockedBy = some i := hl
      simp [this]
  cases hlock : w.lockedBy with
  | some k =>
    obtain rfl : k = i := by simpa [hlock] using hgetD
    by_cases hj : k = j
    · exact hm.atHead (h hlock) (hpop hj)
    · exact fun p hp => h hlock p (hm.mutex_ne hlock hj ▸ hp)
  | none =>
    obtain rfl : j = i := by simpa [hlock] using hgetD
    refine hm.atHead (fun p hp => ?_) (hpop rfl)
    have := hw.lock.isSome
    simp [hlock, hp] at this

/-- What a `notify_many` removes is the first of the queue. -/
theorem Served.remove_many (hs : Served willWake cfg w a)
    (hm : (waitQueue willWake).Moves cfg a w i n w' e) (hc : (w.pc i).count = some c)
    (hat : w.lockedBy = some i → w.q.AtHead) (he : e.Removes x) : a.queue = x :: (a.apply e).queue := by
  obtain ⟨⟨ht, htg⟩, -, -⟩ := hs.took_of_removes hm (Pc.inCall_of_count hc) he
  have hf := hs.reached.control i
  obtain ⟨o, ho, hx⟩ := Option.bind_eq_some_iff.1 htg
  cases hm.mover with
  | call hr hk hrest hts hv hp hg => exact absurd he hv.not_removes
  | own => simp [Event.Removes] at he
  | op hts hd hv hp hg =>
    obtain ⟨hown, hupd⟩ := taken_view ht hf
    obtain ⟨o', o'', ho', hop, -⟩ := hv.holder_inv (by rw [hown]; rfl) (by rw [hupd]; rfl)
    obtain rfl := Option.some.inj (ho.symm.trans ho')
    have hrun := hop.runs
    obtain ⟨s, rfl⟩ : ∃ s, o = .removing x s .handle := by
      unfold Pc.taken at ht
      split at ht
      · rename_i hpc
        rw [hpc] at hf
        obtain ⟨y, hy⟩ := hf
        rw [hy] at ho
        obtain rfl := Option.some.inj ho
        cases hrun
      · rename_i hpc
        rw [hpc] at hf
        rcases hf with ⟨y, hy⟩ | hy <;> rw [hy] at ho <;> obtain rfl := Option.some.inj ho
        · obtain rfl := Option.some.inj hx
          exact ⟨_, rfl⟩
        · cases hrun
      · rename_i hpc
        simp [hpc, Pc.count] at hc
      · rename_i hpc
        simp [hpc, Pc.count] at hc
      · simp at ht
    obtain ⟨s', rfl⟩ : ∃ s', e = .remove x s' := by
      rcases he with ⟨s', rfl⟩ | ⟨d, b, rfl⟩
      · exact ⟨s', rfl⟩
      · cases hop
    obtain rfl : s' = s := by cases hop; rfl
    obtain ⟨l, -, hl, -⟩ := hm.remove_handle (hat (World.op_of_view ho).1) ho
    rw [hl]
    simp [Abs.apply, hl]

variable {l : List NodeId}

theorem Many.order_step (h : Many c l w a i L) {b : Bool}
    (hd : (L.record b e w w').dequeued = L.dequeued ∨ ∃ x,
      (L.record b e w w').dequeued = L.dequeued ++ [(x, L.stored x)] ∧ a.queue = x :: (a.apply e).queue) :
    (((L.record b e w w').dequeued.map Prod.fst) ++ (a.apply e).queue).Sublist
      (l ++ (L.record b e w w').enqueued) := by
  have ho := h.order
  change List.Sublist _ (l ++ (L.enqueued ++ (enqueuedNode e).toList))
  rw [← List.append_assoc]
  rcases hd with hd | ⟨x, hd, hq⟩
  · rw [hd]
    refine List.Sublist.trans ?_ (ho.append_right _)
    rw [List.append_assoc]
    exact queue_apply_sublist.append_left _
  · rw [hd, List.map_append, List.append_assoc]
    rw [hq] at ho
    exact ho.trans (List.sublist_append_left ..)

/-- The step of another task. -/
theorem Many.step_ne (h : Many c l w a i L) (hw : w.Ok cfg a)
    (hm : (waitQueue willWake).Moves cfg a w j n w' e) (hj : i ≠ j) :
    Many c l w' (a.apply e) i (L.record false e w w') where
  count := by rw [hm.pc_ne hj]; exact h.count
  le := by rw [hm.pc_ne hj, Log.record_not_mine.2]; exact h.le
  head := head_step hw hm h.head fun hij => absurd hij hj
  order := h.order_step (.inl Log.record_not_mine.1)

/-- The step of the task that is in the call. -/
theorem Many.step_self (h : Many c l w a i L) (hs : Served willWake cfg w a)
    (hm : (waitQueue willWake).Moves cfg a w i n w' e) (hp : (w.pc i).inCall = true)
    (hf : w'.pc i ≠ .fault) : Many c l w' (a.apply e) i (L.record true e w w') := by
  have hc : (w.pc i).count = some c := h.count.resolve_right fun hi => by simp [hi, Pc.inCall] at hp
  have hle := h.le
  have hpop : ∀ r, next willWake w i n = some r → r.call ≠ some (.holder .pop) := fun r hr hk => by
    obtain ⟨ws, hpc⟩ := next_pop hr hk
    simp [hpc, Pc.count] at hc
  obtain ⟨hcount, l', hwoken, hsum⟩ := hs.counted hm hc hf
  have hsum : l'.length + (w'.pc i).wakers.length + (w'.pc i).rest ≤
      (w.pc i).wakers.length + (w.pc i).rest := by
    rcases hsum with hsum | ⟨rfl, hws, hrs, -⟩
    · exact hsum.le
    · simp [hws, hrs]
  refine ⟨hcount, ?_, head_step hs.reached.ok hm h.head fun _ => hpop, h.order_step ?_⟩
  · rw [Log.record_called hwoken, List.length_append]
    omega
  · by_cases he : ∃ x, e.Removes x
    · obtain ⟨x, he⟩ := he
      exact .inr ⟨x, Log.record_removed he, hs.remove_many hm hc h.head he⟩
    · exact .inl (Log.record_dequeued (not_exists.1 he))

/-! ## Every run -/

variable {u u' : WorldOf W × Abs ℕ} {v v' : (WorldOf W × Abs ℕ) × Log W} {t : TaskId × Bool × Input W}
  {ts : List (TaskId × Bool × Input W)}

/-- A step, with what it adds to the log of the call of the task `i`. -/
def Logged (willWake : W → W → Bool) (cfg : Config) (i : TaskId) (v : (WorldOf W × Abs ℕ) × Log W)
    (t : TaskId × Bool × Input W) (v' : (WorldOf W × Abs ℕ) × Log W) : Prop :=
  (waitQueue willWake).Steps cfg v.1 t v'.1 ∧
    ∃ e, (waitQueue willWake).event cfg v.1.1 t.1 t.2.1 t.2.2 = some e ∧
      v'.2 = v.2.record (t.1 = i) e v.1.1 v'.1.1

/-- Such a step while the task `i` is in a call. -/
def LoggedCall (willWake : W → W → Bool) (cfg : Config) (i : TaskId) (v : (WorldOf W × Abs ℕ) × Log W)
    (t : TaskId × Bool × Input W) (v' : (WorldOf W × Abs ℕ) × Log W) : Prop :=
  Logged willWake cfg i v t v' ∧ (v.1.1.pc i).inCall = true

/-- In every state that a `WaitQueue` reaches, no list of wakers exceeds its capacity. -/
theorem served_of_traces (h : (waitQueue willWake).Traces cfg (init, .init empty) ts u) :
    Served willWake cfg u.1 u.2 ∧ ∀ i, (u.1.pc i).InCapacity := by
  refine Lts.Run.prefixed (P := fun _ u => Served willWake cfg u.1 u.2 ∧ ∀ i, (u.1.pc i).InCapacity) h
    ⟨Served.init, fun _ => Nat.zero_le _⟩ ?_
  rintro - t ⟨w, a⟩ ⟨w', a'⟩ - hl ⟨hs, hcap⟩
  obtain ⟨e, hm, rfl⟩ := hl.moves hs.reached.ok
  have hs' := hs.step hm
  refine ⟨hs', fun j => ?_⟩
  by_cases hj : j = t.1
  · subst hj
    have hnf : w'.pc t.1 ≠ .fault := hs'.reached.wakers.fault t.1
    cases hm.mover with
    | op hts hd hv hp hg => rw [hp]; exact observe_inCapacity w'.q (hcap t.1)
    | call hr hk hrest hts hv hp hg =>
      rw [hp] at hnf ⊢
      exact next_inCapacity hr hnf (hcap t.1)
    | own hr hk hrest hq hv hp hg =>
      rw [hp] at hnf ⊢
      exact next_inCapacity hr hnf (hcap t.1)
  · rw [hm.pc_ne hj]
    exact hcap j

/-- What holds in a call of the task `i`. -/
structure Accounted (willWake : W → W → Bool) (cfg : Config) (i : TaskId)
    (v : (WorldOf W × Abs ℕ) × Log W) : Prop where
  served : Served willWake cfg v.1.1 v.1.2
  current : v.2.Current v.1.1
  balanced : Balanced v.1.1 v.1.2 i v.2

theorem Logged.moves (h : Logged willWake cfg i v t v') (hw : v.1.1.Ok cfg v.1.2) :
    ∃ e, (waitQueue willWake).Moves cfg v.1.2 v.1.1 t.1 t.2.2 v'.1.1 e ∧ v'.1.2 = v.1.2.apply e ∧
      v'.2 = v.2.record (t.1 = i) e v.1.1 v'.1.1 := by
  obtain ⟨⟨hs, ha⟩, e, he, hL⟩ := h
  rw [he] at ha
  exact ⟨e, Client.moves_of_event hw hs he, (Option.some.inj ha).symm, hL⟩

theorem Accounted.step (h : Accounted willWake cfg i v) (ht : LoggedCall willWake cfg i v t v') :
    Accounted willWake cfg i v' := by
  obtain ⟨⟨w, a⟩, L⟩ := v
  obtain ⟨⟨w', a'⟩, L'⟩ := v'
  obtain ⟨ht, hp⟩ := ht
  obtain ⟨e, hm, ha, hL⟩ := ht.moves h.served.reached.ok
  dsimp only at hm ha hL hp
  subst ha hL
  have hs' := h.served.step hm
  refine ⟨hs', Log.Current.record w, ?_⟩
  by_cases hj : t.1 = i
  · subst hj
    simp only [decide_true]
    exact h.balanced.step_self h.served h.current hm hp (hs'.reached.wakers.fault _)
  · simp only [hj, decide_false]
    exact h.balanced.step_ne h.served.reached h.current hm (Ne.symm hj)

theorem Many.step (h : Many c l v.1.1 v.1.2 i v.2) (ha : Accounted willWake cfg i v)
    (ht : LoggedCall willWake cfg i v t v') : Many c l v'.1.1 v'.1.2 i v'.2 := by
  obtain ⟨⟨w, a⟩, L⟩ := v
  obtain ⟨⟨w', a'⟩, L'⟩ := v'
  obtain ⟨ht, hp⟩ := ht
  obtain ⟨e, hm, ha', hL⟩ := ht.moves ha.served.reached.ok
  dsimp only at hm ha' hL hp
  subst ha' hL
  by_cases hj : t.1 = i
  · subst hj
    simp only [decide_true]
    exact h.step_self ha.served hm hp ((ha.served.step hm).reached.wakers.fault _)
  · simp only [hj, decide_false]
    exact h.step_ne ha.served.reached.ok hm (Ne.symm hj)

/-- In a call, and at its end. -/
theorem accounted_of_run (h : Accounted willWake cfg i v)
    (hrun : Lts.Run (LoggedCall willWake cfg i) v ts v') : Accounted willWake cfg i v' :=
  Lts.Run.prefixed (P := fun _ v => Accounted willWake cfg i v) hrun h fun _ _ _ _ _ hl hp => hp.step hl

theorem many_of_run (h : Many c l v.1.1 v.1.2 i v.2) (ha : Accounted willWake cfg i v)
    (hrun : Lts.Run (LoggedCall willWake cfg i) v ts v') : Many c l v'.1.1 v'.1.2 i v'.2 := by
  refine (Lts.Run.prefixed (P := fun _ v => Accounted willWake cfg i v ∧ Many c l v.1.1 v.1.2 i v.2) hrun
    ⟨ha, h⟩ ?_).2
  rintro - t v₁ v₂ - ht ⟨ha, hm⟩
  exact ⟨ha.step ht, hm.step ha ht⟩

/-- The first step of a call. -/
theorem Served.start (hs : Served willWake cfg w a) (hi : w.pc i = .idle) {k : CallKind}
    (hm : (waitQueue willWake).Moves cfg a w i (.call k) w' e) :
    Accounted willWake cfg i ((w', a.apply e), .start w') ∧ (w'.pc i).inCall = true ∧
      w'.shared.woken = w.shared.woken ∧ (a.apply e).queue = a.queue ∧
      ∀ c, k = .notifyMany c → Many c a.queue w' (a.apply e) i (.start w') := by
  have hs' := hs.step hm
  have hf := hs.reached.control i
  rw [hi] at hf
  have hv : w.view i = ⟨.dead, .idle, none⟩ := hf
  have hpc : (w'.pc i).wakers = [] ∧ (w'.pc i).taken = false ∧ (w'.pc i).inCall = true ∧
      w'.shared.woken = w.shared.woken ∧ (a.apply e).queue = a.queue ∧
      ∀ c, k = .notifyMany c → (w'.pc i).count = some c ∧ (w'.pc i).rest ≤ c := by
    cases hm.mover with
    | op hts hd hv' hp hg =>
      rw [hv] at hv'
      cases hv'
    | call hr hk hrest hts hv' hp hg =>
      simp only [waitQueue, next, hi, Option.some.injEq] at hr
      subst hr
      rw [hp, hg]
      have hq : (a.apply e).queue = a.queue := by
        rw [hv] at hv'
        generalize w'.view i = v' at hv'
        cases k <;> simp only [WaitQueue.start, Option.some.injEq, reduceCtorEq] at hk <;> subst hk <;>
          cases hv' <;> rfl
      refine ⟨?_, ?_, ?_, ?_, hq, ?_⟩
      · cases k <;> simp only [WaitQueue.start] <;> first | rfl | (split <;> rfl)
      · cases k <;> simp only [WaitQueue.start] <;> first | rfl | (split <;> rfl)
      · cases k <;> simp only [WaitQueue.start] <;> first | rfl | (split <;> rfl)
      · cases k <;> rfl
      · rintro c rfl
        simp only [WaitQueue.start]
        split <;> simp [Pc.count, Pc.rest]
    | own hr hk hrest hq hv' hp hg =>
      simp only [waitQueue, next, hi, Option.some.injEq] at hr
      subst hr
      rw [hp, hg]
      cases k <;> simp only [WaitQueue.start, reduceCtorEq] at hk
      exact ⟨rfl, rfl, rfl, rfl, rfl, by simp⟩
  obtain ⟨hws, ht, hcall, hwoken, hq, hmany⟩ := hpc
  refine ⟨⟨hs', fun h => h, .even (fun x hx => by simp [Took, ht] at hx) ?_⟩, hcall, hwoken, hq, ?_⟩
  · simp [Log.start, hws]
  · intro c hk
    obtain ⟨hc, hle⟩ := hmany c hk
    refine ⟨.inl hc, ?_, ?_, ?_⟩
    · simpa [Log.start, hws] using hle
    · exact head_step hs.reached.ok hm (fun hl => absurd hl (hs.reached.ok.lockedBy_ne (by rw [hv])))
        fun _ r hr hk' => by
          obtain ⟨ws, hpc⟩ := next_pop hr hk'
          simp [hi] at hpc
    · simp [Log.start, hq]

/-- When a call has returned, the wakers of the waiters that it has dequeued are those that it has
called. -/
theorem Accounted.returned (h : Accounted willWake cfg i v) (hi : v.1.1.pc i = .idle) :
    v.2.dequeued.map Prod.snd = v.2.called.map some := by
  cases h.balanced with
  | even ht hl => simpa [hi, Pc.wakers] using hl
  | owing x ht hx hl => simp [Took, hi, Pc.taken] at ht

end Aiq.WaitQueue
