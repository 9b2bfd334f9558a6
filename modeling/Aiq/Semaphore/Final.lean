import Aiq.Semaphore.Fair
import Aiq.Task.Stage

/-!
# A closed `Semaphore`

When `close` returns, the semaphore is closed (`Closes`). From then on it stays closed, no node is enqueued,
and permits go only to an `Acquire` that had found its node dequeued before (`closed_for_good`). Every
acquisition that starts later fails (`refused_when_closed`).
-/

namespace Aiq.Semaphore

variable {W : Type} {willWake : W → W → Bool} {cfg : Config} {a : Abs ℕ} {w w' : WorldOf W}
  {i j x : TaskId} {e : Event ℕ} {n : Input W} {v v' : View ℕ} {k : Kind} {r : InstrOf W}

theorem Reached.shut_iff (h : Reached cfg w a) : isClosed w.q = true ↔ Shut a := by
  by_cases ha : a.queue = []
  · rw [World.Ok.isClosed_of_nil h.ok ha]
    exact ⟨fun hc => ⟨ha, hc⟩, fun hs => hs.2⟩
  · rw [World.Ok.isClosed_of_ne_nil h.ok ha]
    exact ⟨fun hc => absurd hc Bool.false_ne_true, fun hs => absurd hs.1 ha⟩

/-! ## The calls of `close` -/

/-- What a `close` has done at the control state. -/
def ClosePc.Closes (a : Abs ℕ) (v : View ℕ) : ClosePc W → Prop
  | .ask => v.upd = .releasing → Shut a
  | .drain => a.queue ≠ []
  | .forEach _ => (∃ d, v.op = some (.newDrain d closed)) ∧ a.queue ≠ [] ∨ Shut a
  | _ => Shut a

/-- See `ClosePc.Closes`. -/
def Closes (w : WorldOf W) (a : Abs ℕ) : Prop := ∀ i p, w.pc i = .close p → p.Closes a (w.view i)

theorem Closes.init (s : ℕ) : Closes (init s : WorldOf W) (.init s) := fun i p h => by cases h

/-- A `close` that rests and has the lock behind it has closed the semaphore. -/
theorem ClosePc.Closes.shut {p : ClosePc W} (h : p.Closes a v) (hr : v.Rests) (h₁ : p ≠ .ask)
    (h₂ : p ≠ .drain) : Shut a := by
  cases p with
  | ask => exact absurd rfl h₁
  | drain => exact absurd rfl h₂
  | forEach p =>
    refine h.resolve_left ?_
    rintro ⟨⟨d, hd⟩, -⟩
    have := hr.op hd
    cases this
  | _ => exact h

theorem Reached.shut_of_update {s s' : ℕ} (h : Reached cfg w a) (hi : w.pc i = .close .ask)
    (hm : (semaphore willWake).Moves cfg a w i n w' (.update j s s')) :
    Shut (a.apply (.update j s s')) := by
  have hwr := writes h.control hm rfl
  rw [hi] at hwr
  cases hwr
  exact ⟨hm.allows.1, isClosedState_iff.2 (by rw [closed]; exact Nat.or_mod_two_eq_one.2 (.inr rfl))⟩

theorem observe_ask {q : State ℕ (Waiter W)} (hi : w.pc i = .close .ask) :
    (observe w i e q).1 =
      if e = .guarded i then (.close .drain : Pc W) else if q.upd i = .idle then .idle .ok
      else .close .ask := by
  unfold observe
  simp only [hi]
  repeat' split
  all_goals rfl

theorem observe_close {p : ClosePc W} {q : State ℕ (Waiter W)} (hi : w.pc i = .close p)
    (hp : p ≠ .ask) : (observe w i e q).1 = .close p := by
  unfold observe
  simp only [hi]
  cases p <;> try rfl
  exact absurd rfl hp

/-- An instruction of a `close`. -/
theorem ClosePc.Closes.instr {p : ClosePc W} (h : p.Closes a (w.view i)) (hw : Reached cfg w a)
    (hm : (semaphore willWake).Moves cfg a w i n w' e) (hi : w.pc i = .close p)
    (hv : InstrStep i w.q.mem.queueState (w.view i) e (w'.view i))
    (hp : w'.pc i = (observe w i e w'.q).1) :
    (∃ p', w'.pc i = .close p' ∧ p'.Closes (a.apply e) (w'.view i)) ∨
      w'.pc i = .idle .ok ∧ Shut (a.apply e) := by
  have hf := hw.control i
  rw [hi] at hf
  cases p with
  | ask =>
    rw [observe_ask hi] at hp
    have hask : (w.view i).Asking i .dead (some (.ofTotal fun _ s => s ||| closed)) := hf
    have hidle : w'.q.upd i = .idle ↔ (w'.view i).upd = .idle := UpdPc.op_eq_idle.symm
    by_cases hu : ∃ t s s', e = .update t s s'
    · obtain ⟨t, s, s', rfl⟩ := hu
      have hs := hw.shut_of_update hi hm
      rw [if_neg (by simp)] at hp
      split at hp
      · exact .inr ⟨hp, hs⟩
      · exact .inl ⟨.ask, hp, fun _ => hs⟩
    · have hu' : ∀ t s s', e ≠ .update t s s' := fun t s s' he => hu ⟨t, s, s', he⟩
      rcases hask.instr rfl hv with ⟨hne, ⟨hv', -⟩ | hv'⟩ | ⟨rfl, -, -⟩
      · rw [if_neg hne, if_neg (mt hidle.1 hv')] at hp
        refine .inl ⟨.ask, hp, fun hrel => Shut.step (h ?_) hw hm⟩
        generalize w.view i = v₁ at hv hask
        generalize w'.view i = v₂ at hv hrel
        rcases hask with rfl | rfl | rfl <;> cases hv <;> first | rfl | cases hrel
        exact absurd rfl (hu' _ _ _)
      · have hv₁ : (w'.view i).upd = .idle := congrArg View.upd hv'
        rw [if_neg hne, if_pos (hidle.2 hv₁)] at hp
        refine .inr ⟨hp, Shut.step (h ?_) hw hm⟩
        have hruns := (hask.returned hv rfl hv₁ hne hu').1
        rcases hask with hv₂ | hv₂ | hv₂ <;> rw [hv₂] at hruns ⊢
        · cases hruns
        · cases hruns
      · rw [if_pos rfl] at hp
        exact .inl ⟨.drain, hp, hm.allows⟩
  | drain =>
    rw [show w.view i = _ from hf] at hv
    generalize w'.view i = v' at hv
    cases hv with
    | holder _ _ _ _ _ h => cases h.runs
  | forEach p =>
    rw [observe_close hi (by simp)] at hp
    refine .inl ⟨.forEach p, hp, ?_⟩
    obtain ⟨h₁, h₂, h₃⟩ := hf
    rcases h with ⟨⟨d, hd⟩, hne⟩ | h
    · obtain ⟨o, o', ho, hos, hv'⟩ := hv.holder_inv (by rw [h₁]; rfl) (by rw [h₂]; rfl)
      obtain rfl := Option.some.inj (hd.symm.trans ho)
      cases hos with
      | more => exact .inl ⟨⟨d, by rw [hv']⟩, hne⟩
      | drain => exact .inr ⟨rfl, isClosedState_iff.2 rfl⟩
    · exact .inr (h.step hw hm)
  | _ =>
    rw [observe_close hi (by simp)] at hp
    exact .inl ⟨_, hp, Shut.step h hw hm⟩

/-- A step of a `close` that its program makes. -/
theorem ClosePc.Closes.next {p : ClosePc W} {q : State ℕ (Waiter W)} (h : p.Closes a (w.view i))
    (hw : Reached cfg w a) (hm : (semaphore willWake).Moves cfg a w i n w' e)
    (hr : closeNext w p n = some r) (hrest : (w.view i).Rests) (hp : w'.pc i = r.pc e q)
    (hdrain : p = .drain → ∃ d, (w'.view i).op = some (.newDrain d closed) ∧ e = .tau) :
    (∃ p', w'.pc i = .close p' ∧ p'.Closes (a.apply e) (w'.view i)) ∨
      (∃ r', w'.pc i = .idle r') ∧ Shut (a.apply e) := by
  by_cases hd : p = .drain
  · subst hd
    obtain ⟨d, hd, rfl⟩ := hdrain rfl
    cases n <;> simp only [closeNext, reduceCtorEq] at hr
    obtain rfl := Option.some.inj hr
    exact .inl ⟨_, hp, .inl ⟨⟨d, hd⟩, h⟩⟩
  have hask : p ≠ .ask := by
    rintro rfl
    simp [closeNext] at hr
  have hs : Shut (a.apply e) := (h.shut hrest hask hd).step hw hm
  have hgo : ∀ p' : ClosePc W, p' ≠ .ask → p' ≠ .drain → p'.Closes (a.apply e) (w'.view i) := by
    intro p' h₁ h₂
    cases p' with
    | ask => exact absurd rfl h₁
    | drain => exact absurd rfl h₂
    | forEach p => exact .inr hs
    | _ => exact hs
  cases p with
  | ask => exact absurd rfl hask
  | drain => exact absurd rfl hd
  | forEach p =>
    simp only [closeNext] at hr
    rcases ForEachPc.next_pc (e := e) (c := q) hr with ⟨p', h'⟩ | ⟨ws, h'⟩ | h'
    · exact .inl ⟨_, hp.trans h', hgo _ (by simp) (by simp)⟩
    · exact .inl ⟨_, hp.trans h', hgo _ (by simp) (by simp)⟩
    · exact .inl ⟨_, hp.trans h', hgo _ (by simp) (by simp)⟩
  | final ws =>
    cases ws <;> obtain rfl := Option.some.inj hr
    · exact .inr ⟨⟨_, hp⟩, hs⟩
    · exact .inl ⟨_, hp, hgo _ (by simp) (by simp)⟩
  | closing =>
    obtain rfl := Option.some.inj hr
    exact .inr ⟨⟨_, hp⟩, hs⟩
  | _ =>
    obtain rfl := Option.some.inj hr
    exact .inl ⟨_, hp, hgo _ (by simp) (by simp)⟩

/-- A step of a `close`. -/
theorem ClosePc.Closes.step {p : ClosePc W} (h : p.Closes a (w.view i)) (hw : Reached cfg w a)
    (hm : (semaphore willWake).Moves cfg a w i n w' e) (hi : w.pc i = .close p) :
    (∃ p', w'.pc i = .close p' ∧ p'.Closes (a.apply e) (w'.view i)) ∨
      (∃ r', w'.pc i = .idle r') ∧ Shut (a.apply e) := by
  have hnext : ∀ {r}, Semaphore.next willWake w i n = some r → closeNext w p n = some r := fun hr => by
    simpa only [Semaphore.next, hi] using hr
  cases hm.mover with
  | op hs hd hv hp hg =>
    rcases h.instr hw hm hi hv hp with h | ⟨hp, h⟩
    · exact .inl h
    · exact .inr ⟨⟨_, hp⟩, h⟩
  | call hr hk hrest hs hv hp hg =>
    refine h.next hw hm (hnext hr) hrest hp ?_
    rintro rfl
    have hf := hw.control i
    rw [hi] at hf
    rw [show w.view i = _ from hf] at hv
    have hr := hnext hr
    cases n <;> simp only [closeNext, reduceCtorEq] at hr
    obtain rfl := Option.some.inj hr
    obtain rfl := Option.some.inj hk
    generalize w'.view i = v at hv
    cases hv with
    | holder _ _ _ _ _ _ hc =>
      cases hc with
      | drain => exact ⟨_, rfl, rfl⟩
      | drainEmpty => exact absurd hm.allows h
  | own hr hk hrest hq hv hp hg =>
    refine h.next hw hm (hnext hr) hrest hp ?_
    rintro rfl
    have hr := hnext hr
    cases n <;> simp only [closeNext, reduceCtorEq] at hr
    obtain rfl := Option.some.inj hr
    cases hk

/-- Where a `close` comes from. -/
theorem next_close {p' : ClosePc W} {q : State ℕ (Waiter W)} (hr : next willWake w i n = some r)
    (hp : r.pc e q = .close p') : (∃ p, w.pc i = .close p) ∨
      p' = .ask ∧ r.call = some (.thread (.fetchUpdateStateOrLock fun _ s => s ||| closed)) := by
  have hfetch : ∀ {c : FetchCont W} {g : Shared W}, (fetch i g c).pc e q ≠ .close p' := fun {c g} h => by
    unfold fetch at h
    dsimp only at h
    split at h
    · cases c <;> simp only [FetchCont.err, reduceCtorEq] at h
      case add o again l m => cases l <;> cases h
    · cases h
  unfold next at hr
  cases hi : w.pc i <;> simp only [hi, reduceCtorEq] at hr
  case idle r' =>
    right
    unfold start permitNext at hr
    repeat' split at hr
    all_goals
      first
      | contradiction
      | obtain rfl := Option.some.inj hr
      | obtain ⟨m, -, rfl⟩ := Option.map_eq_some_iff.1 hr
    all_goals
      first
      | exact absurd hp hfetch
      | (obtain rfl := Pc.close.inj hp
         exact ⟨rfl, rfl⟩)
      | cases hp
      | (split at hp <;> cases hp)
  case fut k p =>
    unfold futNext at hr
    repeat' split at hr
    all_goals first | contradiction | obtain rfl := Option.some.inj hr
    all_goals first | exact absurd hp hfetch | cases hp
  case add o p =>
    have hret : ∀ b, (o.ret b : Pc W) ≠ .close p' := fun b h => by cases o <;> cases h
    cases p <;> simp only [addNext] at hr
    all_goals repeat' split at hr
    all_goals first | contradiction | obtain rfl := Option.some.inj hr
    all_goals first | exact absurd hp hfetch | exact absurd hp (hret _) | cases hp
  case close p => exact .inl ⟨p, rfl⟩

theorem close_inv {p' : ClosePc W} (hm : (semaphore willWake).Moves cfg a w i n w' e)
    (hp : w'.pc i = .close p') : (∃ p, w.pc i = .close p) ∨ p' = .ask ∧ (w'.view i).upd ≠ .releasing := by
  cases hm.mover with
  | op hs hd hv hp' hg =>
    left
    rcases observe_pc w i e w'.q with ho | ho <;>
      rw [show (observe w i e w'.q).1 = _ from hp'.symm, hp] at ho
    · exact ⟨p', ho.symm⟩
    · have hret : ∀ {o : AddOwner} {b}, (Pc.close p' : Pc W) ≠ o.ret b := fun {o b} h => by
        cases o <;> cases h
      generalize w.pc i = p at ho
      generalize hy : (Pc.close p' : Pc W) = y at ho
      cases ho with
      | ok hs =>
        rename_i c s
        cases c <;> try cases hy
        case add o again l m => cases l <;> first | exact absurd hy hret | cases hy
      | err hs =>
        rename_i c st
        cases c <;> try cases hy
        case add o again l m => cases st <;> cases l <;> first | exact absurd hy hret | cases hy
      | guarded => exact ⟨_, rfl⟩
      | closed => exact ⟨_, rfl⟩
      | _ => cases hy
  | call hr hk hrest hs hv hp' hg =>
    refine (next_close hr (hp' ▸ hp)).imp_right ?_
    rintro ⟨h, hc⟩
    refine ⟨h, ?_⟩
    obtain rfl := Option.some.inj (hk.symm.trans hc)
    generalize w.view i = v at hv
    generalize w'.view i = v' at hv
    cases hv
    simp
  | own hr hk hrest hq hv hp' hg =>
    refine (next_close hr (hp' ▸ hp)).imp_right ?_
    rintro ⟨h, hc⟩
    simp [hk] at hc

theorem Closes.step (h : Closes w a) (hw : Reached cfg w a)
    (hm : (semaphore willWake).Moves cfg a w i n w' e) : Closes w' (a.apply e) := by
  intro j p' hp
  by_cases hj : j = i
  · subst hj
    rcases close_inv hm hp with ⟨p, hi⟩ | ⟨rfl, hu⟩
    · rcases (h j p hi).step hw hm hi with ⟨p'', hp', h'⟩ | ⟨⟨r, hp'⟩, -⟩
      · obtain rfl := Pc.close.inj (hp.symm.trans hp')
        exact h'
      · cases hp.symm.trans hp'
    · exact fun hr => absurd hr hu
  · rw [hm.pc_ne hj] at hp
    have hf := hw.control j
    have hc := h j p' hp
    rw [hp] at hf
    rw [hm.view_ne hj]
    cases p' with
    | ask => exact fun hr => (hc hr).step hw hm
    | drain =>
      have ho := congrArg View.op (show w.view j = _ from hf)
      exact hm.queue_ne_nil (World.op_of_view ho).1 hj hc
    | forEach p =>
      rcases hc with ⟨⟨d, hd⟩, hne⟩ | hs
      · exact .inl ⟨⟨d, hd⟩, hm.queue_ne_nil (World.op_of_view hd).1 hj hne⟩
      · exact .inr (hs.step hw hm)
    | _ => exact Shut.step hc hw hm

/-! ## Acquisitions that start when the semaphore is closed -/

/-- An acquisition is under way: it is tried, polled or dropped. -/
def Pc.acquires : Pc W → Bool
  | .fetch (.add (.cancel _ _) _ _ _) | .add (.cancel _ _) _ => true
  | .fetch c => c.acquires
  | .fut _ .created | .fut _ .suspended => false
  | .fut _ _ => true
  | _ => false

/-- See `Pc.Denied`. -/
def AddOwner.Denied : AddOwner → Prop
  | .user => True
  | .cancel _ e => e ≠ .ok

/-- See `Pc.Denied`. -/
def FetchCont.Denied (v : View ℕ) : FetchCont W → Prop
  | .add o _ _ _ => o.Denied
  | .forget _ => True
  | _ => ∀ f m s, v.upd = .trying f m s → isClosedState s = true

/-- See `Pc.Denied`. -/
def FutPc.Denied : FutPc W → Prop
  | .failed _ st => st.any isClosedState = true
  | .queued _ b | .dequeued b => b = true
  | .refreshed e => e = some .err
  | .stored _ _ | .enqueued _ _ | .got => False
  | .ready e | .cancel e | .removing e _ | .removed e _ | .unlock e _ | .canceled e | .dropping e =>
    e ≠ .ok
  | _ => True

/-- If an acquisition is under way in the task, what it has seen of the semaphore is that it is closed. -/
def Pc.Denied (v : View ℕ) : Pc W → Prop
  | .fetch c => c.Denied v
  | .fut _ p => p.Denied
  | .add o _ => o.Denied
  | _ => True

/-- An acquisition does not end with permits, and not by waiting. -/
structure Denies (p p' : Pc W) (v' : View ℕ) : Prop where
  denied : p'.Denied v'
  ends : p.acquires = true → p'.acquires = false →
    ∃ r, p' = .idle r ∧ (r = .closed ∨ r = .dropped ∨ r = .panicked)

theorem Denies.of_eq {p p' : Pc W} (h : p'.Denied v') (hp : p.acquires = p'.acquires) : Denies p p' v' :=
  ⟨h, fun h₁ h₂ => by simp [hp, h₂] at h₁⟩

theorem Denies.of_not {p p' : Pc W} (h : p'.Denied v') (hp : p.acquires = false) : Denies p p' v' :=
  ⟨h, fun h₁ => by simp [hp] at h₁⟩

theorem AddOwner.Denied.ret {o : AddOwner} {p : Pc W} (h : o.Denied) (b : Bool)
    (hp : p.acquires = (Pc.add o (.start b 0) : Pc W).acquires) : Denies p (o.ret b) v' := by
  cases o with
  | user => exact .of_not trivial hp
  | cancel k e =>
    refine .of_eq ?_ hp
    cases b
    · exact h
    · exact Ending.noConfusion

theorem acquire_closed {s m : ℕ} (h : isClosedState s = true) : checkAcquirePermits s m = none := by
  simp [checkAcquirePermits, h]

/-- An instruction of an operation of a task that is denied. -/
theorem Pc.Denied.instr {q : State ℕ (Waiter W)} {s : ℕ} (h : (w.pc i).Denied (w.view i))
    (hf : (w.pc i).Fits i (w.view i)) (hs : w.q.mem.queueState = some s) (hc : isClosedState s = true)
    (hv : InstrStep i w.q.mem.queueState (w.view i) e v') (hq : (q.upd i).op = v'.upd) :
    Denies (w.pc i) (observe w i e q).1 v' := by
  unfold observe
  cases hp : w.pc i with
  | idle r => exact .of_not trivial rfl
  | fetch c =>
    rw [hp] at h hf
    obtain ⟨m, s', hv₀⟩ := hf
    rcases World.fetched_cases c.own_runs c.op_runs hv₀ hv hq with
      ⟨hfe, -, m', s'', rfl, hst⟩ | ⟨r, hfe, rfl, hr⟩
    · simp only [hfe]
      refine .of_eq ?_ rfl
      have hload : ∀ f m t, UpdOp.trying c.fn m' s'' = .trying f m t → isClosedState t = true :=
        fun f m t ht => by
          obtain ⟨-, -, rfl⟩ := UpdOp.trying.inj ht
          rwa [Option.some.inj (hst.symm.trans hs)]
      cases c <;> first | exact h | exact hload
    · simp only [hfe]
      have hloaded : c.acquires = true → isClosedState s' = true := fun hac => by
        cases c <;> first | cases hac; done | exact h _ _ _ (congrArg View.upd hv₀)
      cases hr with
      | ok h₁ h₂ =>
        cases c with
        | forget n => exact .of_not trivial rfl
        | add o again l p =>
          have ho : o.Denied := h
          cases l
          · exact ho.ret false (by cases o <;> rfl)
          · exact .of_eq ho (by cases o <;> rfl)
        | _ =>
          simp only [FetchCont.fn] at h₁
          rw [acquire_closed (hloaded rfl)] at h₁
          cases h₁
      | refused h₁ =>
        cases c with
        | forget n => exact .of_not trivial rfl
        | acquire k wk => exact .of_eq trivial rfl
        | retry k wk => exact .of_eq (hloaded rfl) rfl
        | tryAcquire k =>
          exact ⟨trivial, fun _ _ => ⟨_, rfl, .inl (if_pos (hloaded rfl))⟩⟩
        | add o again l p =>
          have ho : o.Denied := h
          cases l
          · exact ho.ret true (by cases o <;> rfl)
          · exact .of_eq ho (by cases o <;> rfl)
      | blocked h₁ h₂ => cases hs.symm.trans h₂
  | fut k p =>
    rw [hp] at h
    cases p <;> try exact .of_eq h rfl
    case removing e' acquired =>
      cases e <;> try exact .of_eq h rfl
      case removed x b => cases b <;> exact .of_eq h rfl
  | add o p =>
    rw [hp] at h
    cases p <;> try exact .of_eq h rfl
    case set p ws =>
      cases e <;> try exact .of_eq h rfl
      case removed x b => exact .of_eq h (by cases o <;> rfl)
  | close p =>
    refine .of_not ?_ rfl
    cases p <;> try trivial
    dsimp only
    repeat' split
    all_goals trivial

theorem denied_fetch {c : FetchCont W} {g : Shared W} {q : State ℕ (Waiter W)} {s : ℕ}
    {raw : RawNodeState} (ho : ∀ o again l p, c = .add o again l p → o.Denied)
    (hs : w.q.mem.queueState = some s) (hc : isClosedState s = true)
    (hv : CallStep i w.q.mem.queueState raw (.thread (.fetchUpdateState c.fn) : Call ℕ (Waiter W)) v e v')
    (hq : (q.upd i).op = v'.upd) :
    (fetch i g c).pc e q = .fetch c ∧ (Pc.fetch c).Denied v' := by
  cases hv with
  | fetchUpdate x o f s' h =>
    have hne : q.upd i ≠ .idle := fun h => by simp [h, UpdPc.op] at hq
    refine ⟨by simp [fetch, hne], ?_⟩
    have hload : ∀ f m t, UpdOp.trying c.fn 0 s' = .trying f m t → isClosedState t = true :=
      fun f m t ht => by
        obtain ⟨-, -, rfl⟩ := UpdOp.trying.inj ht
        rwa [Option.some.inj (h.symm.trans hs)]
    cases c <;> first | exact ho _ _ _ _ rfl | exact hload | trivial
  | fetchBlocked x o f h => cases hs.symm.trans h

section Next

variable {q : State ℕ (Waiter W)}

/-- A step of the program of a future that is denied, if its calls of `fetch_update_state` are. -/
theorem FutPc.Denied.next {p : FutPc W} (h : p.Denied) (hc : isClosed w.q = true)
    (hr : futNext willWake w i k p n = some r)
    (hfetch : ∀ c g, r = fetch i g c → c.acquires = true →
      (fetch i g c).pc e q = .fetch c ∧ (Pc.fetch c).Denied v') :
    Denies (.fut k p) (r.pc e q) v' := by
  have hgo : ∀ c g, r = fetch i g c → c.acquires = true → Denies (.fut k p) (r.pc e q) v' :=
    fun c g hr ha => by
      obtain ⟨h₁, h₂⟩ := hfetch c g hr ha
      rw [hr, h₁]
      refine ⟨h₂, fun _ h => ?_⟩
      cases c <;> simp [FetchCont.acquires, Pc.acquires] at ha h
  cases p with
  | created =>
    cases n <;> simp only [futNext, reduceCtorEq] at hr <;> obtain rfl := Option.some.inj hr
    · exact hgo _ _ rfl rfl
    · exact .of_not trivial rfl
  | suspended =>
    cases n <;> simp only [futNext, reduceCtorEq] at hr <;> obtain rfl := Option.some.inj hr
    · exact .of_not trivial rfl
    · exact .of_not Ending.noConfusion rfl
  | state wk =>
    simp only [futNext] at hr
    split at hr <;> first | contradiction | obtain rfl := Option.some.inj hr
    · exact .of_eq trivial rfl
    · exact .of_eq hc rfl
    · exact .of_eq hc rfl
  | retry wk =>
    obtain rfl := Option.some.inj hr
    exact hgo _ _ rfl rfl
  | failed wk st =>
    simp only [futNext] at hr
    rw [if_pos (show st.any isClosedState = true from h)] at hr
    obtain rfl := Option.some.inj hr
    exact .of_eq Ending.noConfusion rfl
  | queued wk b =>
    obtain rfl : b = true := h
    obtain rfl := Option.some.inj hr
    exact .of_eq rfl rfl
  | refreshed e' =>
    obtain rfl : e' = some .err := h
    obtain rfl := Option.some.inj hr
    exact .of_eq Ending.noConfusion rfl
  | dequeued b =>
    obtain rfl : b = true := h
    obtain rfl := Option.some.inj hr
    exact .of_eq Ending.noConfusion rfl
  | ready e' =>
    simp only [futNext] at hr
    split at hr <;> obtain rfl := Option.some.inj hr <;> exact .of_eq h rfl
  | cancel e' =>
    simp only [futNext] at hr
    split at hr <;> first | contradiction | obtain rfl := Option.some.inj hr
    all_goals exact .of_eq h rfl
  | removed e' acquired =>
    simp only [futNext] at hr
    rw [if_pos hc] at hr
    obtain rfl := Option.some.inj hr
    exact .of_eq h rfl
  | dropping e' =>
    obtain rfl := Option.some.inj hr
    refine ⟨trivial, fun _ _ => ⟨_, rfl, ?_⟩⟩
    cases e' <;> first | exact absurd rfl h | simp [Ending.result]
  | stored wk st => cases h
  | enqueued wk st => cases h
  | got => cases h
  | removing e' acquired => simp [futNext] at hr
  | _ =>
    obtain rfl := Option.some.inj hr
    exact .of_eq h rfl

theorem AddOwner.Denied.next {o : AddOwner} {p : AddPc W} (h : o.Denied)
    (hr : addNext w i o p = some r) : Denies (.add o p) (r.pc e q) v' := by
  have hadd : ∀ p', Denies (.add o p) (.add o p' : Pc W) v' := fun p' => .of_eq h (by cases o <;> rfl)
  have hret : ∀ b, Denies (.add o p) (o.ret b : Pc W) v' := fun b => h.ret b (by cases o <;> rfl)
  have hfetch : ∀ again l m g, Denies (.add o p) ((fetch i g (.add o again l m)).pc e q) v' :=
    fun again l m g => by
      unfold fetch
      dsimp only
      split
      · cases l
        · exact hadd _
        · exact hadd _
      · exact .of_eq h (by cases o <;> rfl)
  cases p <;> simp only [addNext] at hr
  all_goals repeat' split at hr
  all_goals first | contradiction | obtain rfl := Option.some.inj hr
  all_goals first | exact hfetch .. | exact hret _ | exact hadd _

/-- A step of the program of a task that is denied. -/
theorem denied_next (h : (w.pc i).Denied (w.view i)) (hc : isClosed w.q = true)
    (hr : next willWake w i n = some r)
    (hfetch : ∀ c g, r = fetch i g c → c.acquires = true →
      (fetch i g c).pc e q = .fetch c ∧ (Pc.fetch c).Denied v') :
    Denies (w.pc i) (r.pc e q) v' := by
  unfold next at hr
  cases hp : w.pc i <;> simp only [hp, reduceCtorEq] at hr
  case idle r' =>
    refine .of_not ?_ rfl
    unfold start permitNext at hr
    repeat' split at hr
    all_goals
      first
      | contradiction
      | obtain rfl := Option.some.inj hr
      | obtain ⟨m, -, rfl⟩ := Option.map_eq_some_iff.1 hr
    case h_2 =>
      obtain ⟨h₁, h₂⟩ := hfetch _ _ rfl rfl
      rw [h₁]
      exact h₂
    all_goals
      first
      | trivial
      | (unfold fetch
         dsimp only
         split <;> trivial)
      | (split <;> trivial)
  case fut k p =>
    rw [hp] at h
    exact FutPc.Denied.next h hc hr hfetch
  case add o p =>
    rw [hp] at h
    exact AddOwner.Denied.next h hr
  case close p =>
    refine .of_not ?_ rfl
    obtain ⟨⟨p', h'⟩ | h' | h', -⟩ := closeNext_pc (e := e) hr q <;> rw [h'] <;> trivial

end Next

/-- While the semaphore is closed, a task that is denied stays so. -/
theorem Pc.Denied.step (h : (w.pc i).Denied (w.view i)) (hw : Reached cfg w a) (hs : Shut a)
    (hm : (semaphore willWake).Moves cfg a w i n w' e) : Denies (w.pc i) (w'.pc i) (w'.view i) := by
  have hst := hw.ok.queueState_of_nil hs.1
  have hcl := hw.shut_iff.2 hs
  cases hm.mover with
  | op hts hd hv hp hg =>
    rw [hp]
    exact h.instr (hw.control i) hst hs.2 hv rfl
  | call hr hk hrest hts hv hp hg =>
    rw [hp]
    refine denied_next h hcl hr fun c g hc ha => ?_
    subst hc
    obtain rfl := Option.some.inj hk
    exact denied_fetch (fun o again l p hc => by rw [hc] at ha; cases ha) hst hs.2 hv rfl
  | own hr hk hrest hq hv hp hg =>
    rw [hp]
    refine denied_next h hcl hr fun c g hc => ?_
    subst hc
    cases hk

theorem Pc.denied_of_not_acquires {p : Pc W} (hp : p.acquires = false) : p.Denied v := by
  cases p with
  | fetch c =>
    cases c <;> try first | exact Bool.noConfusion hp | trivial
    case add o again l m => cases o <;> first | exact Bool.noConfusion hp | trivial
  | fut k p => cases p <;> first | exact Bool.noConfusion hp | trivial
  | add o p => cases o <;> first | exact Bool.noConfusion hp | trivial
  | _ => trivial

/-! ## Every run -/

variable {u u' : WorldOf W × Abs ℕ} {ls ls' : List (TaskId × Bool × Input W)} {permits s : ℕ}

/-- What holds in every run from a closed semaphore. -/
theorem Shut.induct {Q : WorldOf W × Abs ℕ → Prop} (hs : Shut u.2) (hw : Reached cfg u.1 u.2)
    (h : (semaphore willWake).Traces cfg u ls u') (h₀ : Q u)
    (hQ : ∀ w a i n w' e, Reached cfg w a → Shut a → (semaphore willWake).Moves cfg a w i n w' e →
      Q (w, a) → Q (w', a.apply e)) : Reached cfg u'.1 u'.2 ∧ Shut u'.2 ∧ Q u' := by
  refine Lts.Run.prefixed (P := fun _ u => Reached cfg u.1 u.2 ∧ Shut u.2 ∧ Q u) h ⟨hw, hs, h₀⟩ ?_
  rintro - l ⟨w₁, a₁⟩ ⟨w₂, a₂⟩ - hl ⟨h₁, h₂, h₃⟩
  obtain ⟨e, hm, rfl⟩ := hl.moves h₁.ok
  exact ⟨h₁.step hm, h₂.step h₁ hm, hQ _ _ _ _ _ _ h₁ h₂ hm h₃⟩

theorem trace_closes (hs : newState permits = some s)
    (h : (semaphore willWake).Traces cfg (init s, .init s) ls u) : Closes u.1 u.2 := by
  have h' : (Reached cfg u.1 u.2 ∧ Closing u.2) ∧ Closes u.1 u.2 := by
    refine Lts.Run.prefixed (P := fun _ u => (Reached cfg u.1 u.2 ∧ Closing u.2) ∧ Closes u.1 u.2) h
      ⟨⟨Reached.init hs, Closing.init s⟩, Closes.init s⟩ ?_
    rintro - l u₁ u₂ - hl ⟨⟨h₁, h₂⟩, h₃⟩
    obtain ⟨e, hm, ha⟩ := hl.moves h₁.ok
    rw [ha]
    exact ⟨⟨h₁.step hm, h₂.step h₁ hm⟩, h₃.step h₁ hm⟩
  exact h'.2

/-- A `poll_acquire` that finds its node dequeued asks whether the semaphore is closed. -/
theorem dequeued_inv {b : Bool} (hm : (semaphore willWake).Moves cfg a w i n w' e)
    (hp : w'.pc i = .fut k (.dequeued b)) : w.pc i = .fut k (.dequeued b) ∨ b = isClosed w.q := by
  have hnext : ∀ {r : InstrOf W} {q}, next willWake w i n = some r → r.pc e q = .fut k (.dequeued b) →
      b = isClosed w.q := by
    intro r q hr hrp
    obtain ⟨p, hi, hr⟩ := next_fut hr hrp (by simp) (by simp)
    unfold futNext at hr
    repeat' split at hr
    all_goals first | contradiction | obtain rfl := Option.some.inj hr
    all_goals
      first
      | (have hf := fetch_fut hrp
         simp [FetchCont.err] at hf)
      | (obtain ⟨-, hb⟩ := Pc.fut.inj hrp
         cases hb
         rfl)
      | cases hrp
  cases hm.mover with
  | op hs hd hv hp' hg =>
    left
    rcases observe_pc w i e w'.q with ho | ho <;>
      rw [show (observe w i e w'.q).1 = _ from hp'.symm, hp] at ho
    · exact ho.symm
    · simpa using ho.fut_inv
  | call hr hk hrest hs hv hp' hg => exact .inr (hnext hr (hp' ▸ hp))
  | own hr hk hrest hq hv hp' hg => exact .inr (hnext hr (hp' ▸ hp))

/-- **A closed semaphore stays closed.** In every run, when a call of `close` returns, the semaphore is
closed. From a state in which it is closed, it is so in every later state; no step enqueues a node; and the
permits go only to an `Acquire` that had found its node dequeued before. -/
theorem closed_for_good (hs : newState permits = some s)
    (h : (semaphore willWake).Traces cfg (init s, .init s) ls u) :
    (∀ i weak n w' p r, u.1.pc i = .close p → (semaphore willWake).step cfg u.1 i weak n = some w' →
      w'.pc i = .idle r → isClosed w'.q = true) ∧
    (isClosed u.1.q = true → ∀ ls' u', (semaphore willWake).Traces cfg u ls' u' →
      isClosed u'.1.q = true ∧ ∀ i weak n w' e, (semaphore willWake).step cfg u'.1 i weak n = some w' →
        (semaphore willWake).event cfg u'.1 i weak n = some e → (∀ x, e ≠ .enqueue x) ∧
          ∀ j, Obtains u'.1 i e j → j = i ∧ ∃ k, u.1.pc i = .fut k (.dequeued false)) := by
  obtain ⟨hr, -⟩ := trace_reached hs h
  refine ⟨fun i weak n w' p r hp hstep hp' => ?_, fun hc ls' u' h' => ?_⟩
  · obtain ⟨e, hm⟩ := Client.moves hr.ok hstep
    rcases (trace_closes hs h i p hp).step hr hm hp with ⟨p', hp'', -⟩ | ⟨-, hs⟩
    · cases hp'.symm.trans hp''
    · exact (hr.step hm).shut_iff.2 hs
  · obtain ⟨hr', hs', hpc⟩ := Shut.induct
      (Q := fun u' => ∀ i k, u'.1.pc i = .fut k (.dequeued false) → u.1.pc i = .fut k (.dequeued false))
      (hr.shut_iff.1 hc) hr h' (fun _ _ h => h) fun w a i n w' e hw hsh hm hQ j k hp => by
        by_cases hj : j = i
        · subst hj
          rcases dequeued_inv hm hp with hp | hb
          · exact hQ j k hp
          · rw [hw.shut_iff.2 hsh] at hb
            cases hb
        · exact hQ j k (hm.pc_ne hj ▸ hp)
    refine ⟨hr'.shut_iff.2 hs', fun i weak n w' e hstep he => ?_⟩
    have hm := Client.moves_of_event hr'.ok hstep he
    refine ⟨fun x hx => ?_, fun j ho => ?_⟩
    · subst hx
      obtain ⟨k, wk, st, -, hst, -, hrf, -⟩ := hr'.enqueue hm
      obtain rfl := (hr'.ok.queueState_of_nil hs'.1).symm.trans hst
      have := hrf.not_closed
      simp [hs'.2] at this
    · cases ho with
      | @take c s₁ s₂ hc ha he' =>
        subst he'
        have hwr := writes hr'.control hm rfl
        rw [hc] at hwr
        cases hwr with
        | fetch c m _ _ hf =>
          obtain ⟨-, rfl⟩ := hm.allows
          cases c <;> simp only [FetchCont.acquires, Bool.false_eq_true] at ha <;>
            simp only [FetchCont.fn, acquire_closed hs'.2, reduceCtorEq] at hf
      | serve hsv =>
        have := hr'.serves hsv
        simp [hs'.1] at this
      | ready hp => exact ⟨rfl, _, hpc _ _ hp⟩

/-- The task 0 is queued, the task 1 closes the semaphore; `m` of the steps that follow the choice of the
`Drain`. -/
def closeActs (m : ℕ) : List (TaskId × Bool × Input ℕ) :=
  acquireActs 0 false 1 13 ++ (1, false, .close) :: List.replicate 2 (1, false, .none) ++
    (1, false, .drain 0) :: List.replicate m (1, false, .none)

/-- The `close` returns, and later permits are added. -/
theorem closed_for_good_closeActs :
    let u := (semaphore fun _ _ => true).followed ⟨.x86, 0⟩ (fun _ => True) (init 0, .init 0) (closeActs 15)
    let w' := (semaphore fun _ _ => true).after ⟨.x86, 0⟩ u.1 [(1, false, .none)]
    let u' := (semaphore fun _ _ => true).followed ⟨.x86, 0⟩ (fun _ => True) u
      ((2, false, .addPermits 1) :: List.replicate 2 (2, false, .none))
    isClosed w'.q = true ∧ isClosed u'.1.q = true := by
  intro u w' u'
  have h : ((semaphore fun _ _ => true).follow ⟨.x86, 0⟩ (fun _ => True) (init 0, .init 0)
      (closeActs 15)).isSome := by decide +kernel
  have h' : ((semaphore fun _ _ => true).follow ⟨.x86, 0⟩ (fun _ => True) u
      ((2, false, .addPermits 1) :: List.replicate 2 (2, false, .none))).isSome := by decide +kernel
  have hstep : (semaphore fun _ _ => true).step ⟨.x86, 0⟩ u.1 1 false .none = some w' := rfl
  have hp : u.1.pc 1 = .close (.final []) := rfl
  have hp' : w'.pc 1 = .idle .ok := rfl
  have hc : isClosed u.1.q = true := by decide +kernel
  have hs : newState 0 = some 0 := by decide
  obtain ⟨h₁, h₂⟩ := closed_for_good hs ((Client.run_followed h).mono fun _ _ _ h => h.1)
  exact ⟨h₁ 1 false .none w' _ _ hp hstep hp',
    (h₂ hc _ u' ((Client.run_followed h').mono fun _ _ _ h => h.1)).1⟩

/-- **A closed semaphore refuses.** In every run from a state in which the semaphore is closed, an
acquisition that a task starts later, or polls again later, does not wait and gets no permits: it returns
`Closed`, unless it is dropped, or panics when it gives back what it had been assigned. -/
theorem refused_when_closed (hs : newState permits = some s)
    (h : (semaphore willWake).Traces cfg (init s, .init s) ls u) (hc : isClosed u.1.q = true)
    (hi : (u.1.pc i).acquires = false) (h' : (semaphore willWake).Traces cfg u ls' u') {weak : Bool}
    (hstep : (semaphore willWake).step cfg u'.1 i weak n = some w')
    (h₁ : (u'.1.pc i).acquires = true) (h₂ : (w'.pc i).acquires = false) :
    ∃ r, w'.pc i = .idle r ∧ (r = .closed ∨ r = .dropped ∨ r = .panicked) := by
  obtain ⟨hr, -⟩ := trace_reached hs h
  obtain ⟨hr', hs', hden⟩ := Shut.induct (Q := fun u' => (u'.1.pc i).Denied (u'.1.view i))
    (hr.shut_iff.1 hc) hr h' (Pc.denied_of_not_acquires hi) fun w a j n w' e hw hsh hm hQ => by
      by_cases hj : i = j
      · subst hj
        exact (hQ.step hw hsh hm).denied
      · rw [hm.pc_ne hj, hm.view_ne hj]
        exact hQ
  obtain ⟨e, hm⟩ := Client.moves hr'.ok hstep
  exact (hden.step hr' hs' hm).ends h₁ h₂

/-- The task 2 asks for a permit of a closed semaphore. -/
theorem refused_when_closed_closeActs :
    let u := (semaphore fun _ _ => true).followed ⟨.x86, 0⟩ (fun _ => True) (init 0, .init 0) (closeActs 16)
    let u' := (semaphore fun _ _ => true).followed ⟨.x86, 0⟩ (fun _ => True) u (acquireActs 2 false 1 10)
    let w' := (semaphore fun _ _ => true).after ⟨.x86, 0⟩ u'.1 [(2, false, .none)]
    ∃ r, w'.pc 2 = .idle r ∧ (r = .closed ∨ r = .dropped ∨ r = .panicked) := by
  intro u u' w'
  have h : ((semaphore fun _ _ => true).follow ⟨.x86, 0⟩ (fun _ => True) (init 0, .init 0)
      (closeActs 16)).isSome := by decide +kernel
  have h' : ((semaphore fun _ _ => true).follow ⟨.x86, 0⟩ (fun _ => True) u
      (acquireActs 2 false 1 10)).isSome := by decide +kernel
  have hstep : (semaphore fun _ _ => true).step ⟨.x86, 0⟩ u'.1 2 false .none = some w' := rfl
  have hc : isClosed u.1.q = true := by decide +kernel
  have hs : newState 0 = some 0 := by decide
  exact refused_when_closed hs ((Client.run_followed h).mono fun _ _ _ h => h.1) hc rfl
    ((Client.run_followed h').mono fun _ _ _ h => h.1) hstep rfl rfl

end Aiq.Semaphore
