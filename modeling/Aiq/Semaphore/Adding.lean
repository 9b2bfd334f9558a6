import Aiq.Semaphore.Closed

/-!
# The steps of `add_permits`

`AddStep` says what a step of a task that adds permits can do: it goes on, calls a waker, updates the state
of an empty queue, gives permits to the first waiter, or removes it (`Reached.addStep`).
-/

namespace Aiq.Semaphore

variable {W : Type} {willWake : W → W → Bool} {cfg : Config} {a : Abs ℕ} {w w' : WorldOf W}
  {i j x : TaskId} {e : Event ℕ} {n : Input W} {r : InstrOf W} {o : AddOwner}

/-! ## Steps -/

/-- Where a call that has found a waiter goes on under the lock. -/
def AddPc.atQueue (again : Bool) (p : ℕ) : AddPc W := if again then .take p [] else .locked p

/-- The steps between control states that change neither the queue, nor a waiter, nor what the tasks
share. -/
inductive AddGoes (w w' : WorldOf W) (a : Abs ℕ) (i : TaskId) (o : AddOwner) : Pc W → Pc W → Prop
  | nothing : AddGoes w w' a i o (.add o (.start false 0)) (o.ret false)
  | fetch (again : Bool) (p : ℕ) (hq : a.queue = []) (hs : loaded w' i = some a.state) :
      AddGoes w w' a i o (.add o (.start again p)) (.fetch (.add o again false p))
  | fetchLocked (again : Bool) (p : ℕ) (hq : a.queue = []) (hs : loaded w' i = some a.state) :
      AddGoes w w' a i o (.add o (.second again p)) (.fetch (.add o again true p))
  | retry (again l : Bool) (p : ℕ) (hq : a.queue = []) (hs : loaded w' i = some a.state) :
      AddGoes w w' a i o (.fetch (.add o again l p)) (.fetch (.add o again l p))
  /-- The closure panics. -/
  | overflow (again l : Bool) (p s : ℕ) (hs : loaded w i = some s) (h : checkAddPermits s p = none)
      (hm : l = true → w'.q.mutex = some .guard) :
      AddGoes w w' a i o (.fetch (.add o again l p))
        (if l then .add o (.unlock true) else o.ret true)
  /-- The queue has a node. -/
  | blocked (again : Bool) (p : ℕ) (hq : a.queue ≠ []) :
      AddGoes w w' a i o (.fetch (.add o again false p)) (.add o (.lock again p))
  | blockedAtOnce (again : Bool) (p : ℕ) (hq : a.queue ≠ []) :
      AddGoes w w' a i o (.add o (.start again p)) (.add o (.lock again p))
  | lock (again : Bool) (p : ℕ) : AddGoes w w' a i o (.add o (.lock again p)) (.add o (.second again p))
  | queued (again : Bool) (p : ℕ) (hq : a.queue ≠ []) :
      AddGoes w w' a i o (.fetch (.add o again true p)) (.add o (.atQueue again p))
  | queuedAtOnce (again : Bool) (p : ℕ) (hq : a.queue ≠ []) :
      AddGoes w w' a i o (.add o (.second again p)) (.add o (.atQueue again p))
  | locked (p : ℕ) (h : isClosed w.q = false) :
      AddGoes w w' a i o (.add o (.locked p)) (.add o (.take p []))
  | assertion (p : ℕ) (h : isClosed w.q = true) :
      AddGoes w w' a i o (.add o (.locked p)) (.add o (.failed .assertion))
  | take (p : ℕ) (ws : List W) (h : a.queue ≠ [] → w'.q.mutex ≠ some .guard) :
      AddGoes w w' a i o (.add o (.take p ws)) (.add o (.dequeued p ws))
  | dequeue (p : ℕ) (ws : List W) (h : w'.q.mutex ≠ some .guard) :
      AddGoes w w' a i o (.add o (.dequeued p ws)) (.add o (.dequeued p ws))
  | empty (p : ℕ) (ws : List W) (h : w.q.mutex = some .guard) :
      AddGoes w w' a i o (.add o (.dequeued p ws)) (.add o (.failed .dequeue))
  | requeue (ws : List W) : AddGoes w w' a i o (.add o (.requeue ws)) (.add o (.done ws))
  | served (p : ℕ) (ws : List W) (h : shift p ≤ maxState) (hr : w'.q.result = none) :
      AddGoes w w' a i o (.add o (.served p ws)) (.add o (.set p ws))
  | exceeded (p : ℕ) (ws : List W) (h : maxState < shift p) :
      AddGoes w w' a i o (.add o (.served p ws)) (.add o (.failed .state))
  | set (p : ℕ) (ws : List W) (h : w'.q.result = w.q.result) :
      AddGoes w w' a i o (.add o (.set p ws)) (.add o (.set p ws))
  /-- `try_set_queue_state` returns `b`. -/
  | removed (p : ℕ) (ws : List W) (b : Bool) (h : w.q.result = some b) :
      AddGoes w w' a i o (.add o (.set p ws)) (.add o (if b ∨ p = 0 then .done ws
        else if ws.length = wakersCapacity then .full p ws
        else .take p ws))
  | full (p : ℕ) (ws : List W) : AddGoes w w' a i o (.add o (.full p ws)) (.add o (.batch p ws))
  | batch (p : ℕ) : AddGoes w w' a i o (.add o (.batch p [])) (.add o (.start true p))
  | done (ws : List W) : AddGoes w w' a i o (.add o (.done ws)) (.add o (.final ws))
  | final : AddGoes w w' a i o (.add o (.final [])) (o.ret false)
  | unwind (b : Bool) (h : w.q.mutex ≠ some .guard) :
      AddGoes w w' a i o (.add o (.unlock b)) (.add o (.unlock b))
  | unlock (b : Bool) : AddGoes w w' a i o (.add o (.unlock b)) (o.ret b)
  | failed (f : Failure) : AddGoes w w' a i o (.add o (.failed f)) (.add o (.unlock true))

/-- What a step of the task `i` does, while it adds permits for `o`, from one control state to another. -/
inductive AddStep (w w' : WorldOf W) (a : Abs ℕ) (i : TaskId) (o : AddOwner) :
    Pc W → Event ℕ → Pc W → Prop
  | goes {p p' e} (h : AddGoes w w' a i o p p') (he : ∀ b : Abs ℕ, b.apply e = b)
      (hd : w'.q.mem.data = w.q.mem.data) (hg : w'.shared = w.shared) : AddStep w w' a i o p e p'
  | wake (p : ℕ) (wk : W) (ws : List W) (hq : w'.q = w.q) (hg : w'.shared = w.shared.wake wk) :
      AddStep w w' a i o (.add o (.batch p (wk :: ws))) .tau (.add o (.batch p ws))
  | wakeLast (wk : W) (ws : List W) (hq : w'.q = w.q) (hg : w'.shared = w.shared.wake wk) :
      AddStep w w' a i o (.add o (.final (wk :: ws))) .tau (.add o (.final ws))
  /-- The permits are added to the state. -/
  | update (again l : Bool) (p s s' : ℕ) (hs : checkAddPermits s p = some s')
      (hm : l = true → w'.q.mutex = some .guard)
      (hd : w'.q.mem.data = w.q.mem.data) (hg : w'.shared = w.shared) :
      AddStep w w' a i o (.fetch (.add o again l p)) (.update i s s')
        (if l then .add o (.unlock false) else o.ret false)
  /-- The first waiter needs more than there is. -/
  | reduce (p : ℕ) (ws : List W) (x : NodeId) (hm : w.q.mutex = some (.dequeue x))
      (hlt : p < (w.q.mem.data x).permitsRemaining)
      (hd : w'.q.mem.data = Function.update w.q.mem.data x
        { w.q.mem.data x with permitsRemaining := (w.q.mem.data x).permitsRemaining - p })
      (hg : w'.shared = w.shared) :
      AddStep w w' a i o (.add o (.dequeued p ws)) .tau (.add o (.requeue ws))
  /-- The first waiter is satisfied. -/
  | serve (p : ℕ) (ws : List W) (x : NodeId) (wk : W) (hm : w.q.mutex = some (.dequeue x))
      (hle : (w.q.mem.data x).permitsRemaining ≤ p) (hwk : (w.q.mem.data x).waker = some wk)
      (hlen : ws.length < wakersCapacity)
      (hd : w'.q.mem.data = Function.update w.q.mem.data x ⟨none, 0⟩) (hm' : w'.q.mutex = w.q.mutex)
      (hg : w'.shared = w.shared) :
      AddStep w w' a i o (.add o (.dequeued p ws)) .tau
        (.add o (.served (p - (w.q.mem.data x).permitsRemaining) (ws ++ [wk])))
  /-- The first waiter has no waker. -/
  | unwrap (p : ℕ) (ws : List W) (x : NodeId) (hm : w.q.mutex = some (.dequeue x))
      (hle : (w.q.mem.data x).permitsRemaining ≤ p) (hwk : (w.q.mem.data x).waker = none)
      (hd : w'.q.mem.data = Function.update w.q.mem.data x ⟨none, 0⟩) (hg : w'.shared = w.shared) :
      AddStep w w' a i o (.add o (.dequeued p ws)) .tau (.add o (.failed .waker))
  /-- The first waiter is removed. -/
  | remove (p : ℕ) (ws : List W) (x : NodeId) (l : List NodeId) (hq : a.queue = x :: l)
      (hr : w.q.result = none) (hr' : w'.q.result = some l.isEmpty)
      (hd : w'.q.mem.data = w.q.mem.data) (hg : w'.shared = w.shared) :
      AddStep w w' a i o (.add o (.set p ws)) (.remove x (shift p)) (.add o (.set p ws))
  /-- A panic drops the first waiter. -/
  | drop (b : Bool) (x : NodeId) (l : List NodeId) (hq : a.queue = x :: l)
      (hm : w.q.mutex ≠ some .guard)
      (hd : w'.q.mem.data = w.q.mem.data) (hg : w'.shared = w.shared) :
      AddStep w w' a i o (.add o (.unlock b)) (.remove x 0) (.add o (.unlock b))

/-! ## Instructions -/

/-- An instruction of the `fetch_update_state` of `add_permits`. -/
theorem Reached.addStep_fetch (h : Reached cfg w a) (hm : (semaphore willWake).Moves cfg a w i n w' e)
    {again l : Bool} {p : ℕ} (hp : w.pc i = .fetch (.add o again l p)) :
    AddStep w w' a i o (w.pc i) e (w'.pc i) := by
  have hc := h.control i
  rw [hp] at hc ⊢
  obtain ⟨m, s, hv⟩ := hc
  have hload := loaded_of_trying (congrArg View.upd hv)
  cases hm.mover with
  | op hs hd hi hp' hg =>
    rcases World.fetched_cases (FetchCont.own_runs _) (FetchCont.op_runs _) hv hi rfl with
      ⟨hfe, rfl, m', s', hview, hqs⟩ | ⟨r, hfe, hview, hfr⟩
    all_goals
      simp only [semaphore, observe, hp, hfe] at hp' hg
    · obtain ⟨hq, rfl⟩ := h.ok.queueState_eq_some.1 hqs
      rw [hp']
      exact .goes (.retry _ _ _ hq (loaded_of_trying (congrArg View.upd hview))) (fun _ => rfl) hd hg
    have hm' : l = true → w'.q.mutex = some .guard := by
      rintro rfl
      exact State.mutex_of_op_guard (World.op_of_view (congrArg View.op hview)).2
    cases hfr with
    | @ok s' hfn hq =>
      have hg' : w'.shared = w.shared := hg
      have hpc : w'.pc i = if l then .add o (.unlock false) else o.ret false := by
        rw [hp']
        cases l <;> rfl
      rw [hpc]
      exact .update again l p s s' hfn hm' hd hg'
    | refused hfn =>
      have hpc : w'.pc i = if l then .add o (.unlock true) else o.ret true := by
        rw [hp']
        cases l <;> rfl
      rw [hpc]
      exact .goes (.overflow again l p s hload hfn hm') (fun _ => rfl) hd hg
    | blocked hfn hq =>
      have hne := h.ok.inv.queueState_eq_none.1 hq
      cases l
      · rw [hp']
        exact .goes (.blocked again p hne) (fun _ => rfl) hd hg
      · have hpc : w'.pc i = .add o (.atQueue again p) := by
          rw [hp']
          cases again <;> rfl
        rw [hpc]
        exact .goes (.queued again p hne) (fun _ => rfl) hd hg
  | call hr hk hrest hs hi hp' hg => simp [semaphore, next, hp] at hr
  | own hr hk hrest hq hi hp' hg => simp [semaphore, next, hp] at hr

/-- The mutex of a task that has dequeued a node. -/
theorem Reached.mutex_handle (h : Reached cfg w a) (ho : (w.view i).op = some (.handle x)) :
    w.q.mutex = some (.dequeue x) := by
  obtain ⟨p, hp, hop⟩ := mutex_of_view ho
  have hat := h.head p hp
  rw [hp]
  unfold HolderPc.op GetCont.op at hop
  grind [HolderPc.AtHead]

/-- The mutex is a guard. -/
theorem mutex_guard_iff : w.q.mutex = some .guard ↔ w.q.op = some .guard :=
  ⟨fun h => by simp [State.op, h, HolderPc.op], State.mutex_of_op_guard⟩

/-- A node that is removed through a handle is the first, and the result tells whether it is the only
one. -/
theorem Reached.remove_head {s : ℕ} (h : Reached cfg w a)
    (hm : (semaphore willWake).Moves cfg a w i n w' (.remove x s))
    (ho : (w.view i).op = some (.removing x s .handle)) :
    ∃ l, a.queue = x :: l ∧ w'.q.result = some l.isEmpty := by
  obtain ⟨l, q, hl, hq, hr⟩ := hm.remove_handle h.head ho
  exact ⟨l, hl, by simp [State.result, hq, hr.result]⟩

/-- An instruction under the lock of a task that adds permits. -/
theorem Reached.addStep_instr (h : Reached cfg w a) (hm : (semaphore willWake).Moves cfg a w i n w' e)
    {p : AddPc W} (hp : w.pc i = .add o p) (hd : w'.q.mem.data = w.q.mem.data)
    (hv : InstrStep i w.q.mem.queueState (w.view i) e (w'.view i))
    (hp' : w'.pc i = (observe w i e w'.q).1) (hg : w'.shared = (observe w i e w'.q).2) :
    AddStep w w' a i o (w.pc i) e (w'.pc i) := by
  have hc := h.control i
  rw [hp] at hc ⊢
  obtain ⟨hown, hupd, hfit⟩ := hc
  obtain ⟨op, op', hop, hos, hv'⟩ := hv.holder_inv (by rw [hown]; exact o.own_runs) (by rw [hupd]; rfl)
  have hrun := hos.runs
  have hop' : (w'.view i).op = op' := by rw [hv']
  rw [hop] at hfit
  have hshared : w'.shared = w.shared := by
    rw [hg]
    unfold observe
    rw [hp]
    cases p <;> first | rfl | (dsimp only; split <;> rfl)
  have hsame : (∀ m ws, p ≠ .set m ws) → w'.pc i = .add o p := fun hne => by
    rw [hp']
    unfold observe
    rw [hp]
    cases p <;> first | rfl | exact absurd rfl (hne _ _)
  cases p <;> simp only [AddPc.Fits, Option.some.injEq, reduceCtorEq] at hfit
  case dequeued m ws =>
    rw [hsame (by simp)]
    obtain rfl : op = .dequeuing := by
      rcases hfit with rfl | rfl | ⟨x, rfl⟩
      · rfl
      · cases hrun
      · cases hrun
    have hquiet : ∀ b : Abs ℕ, b.apply e = b := by cases hos <;> exact fun _ => rfl
    refine .goes (.dequeue m ws fun hguard => ?_) hquiet hd hshared
    have hne : op' ≠ none ∧ op' ≠ some .guard := by cases hos <;> simp
    obtain ⟨o', ho'⟩ := Option.ne_none_iff_exists'.1 hne.1
    have := (World.op_of_view (hop'.trans ho')).2
    rw [mutex_guard_iff.1 hguard, ← ho'] at this
    exact hne.2 this.symm
  case set m ws =>
    obtain ⟨x, rfl⟩ := hfit
    obtain ⟨hremove, htau, hremoved⟩ := hm.removing_result hop
    simp only [observe, hp] at hp'
    cases hos with
    | more =>
      rw [hp']
      exact .goes (.set m ws (htau rfl)) (fun _ => rfl) hd hshared
    | remove =>
      rw [hp']
      obtain ⟨l, hl, hr'⟩ := h.remove_head hm hop
      exact .remove m ws x l hl (hremove _ _ rfl).1 hr' hd hshared
    | removed _ _ _ b =>
      rw [hp']
      exact .goes (.removed m ws b (hremoved _ _ rfl)) (fun _ => rfl) hd hshared
  case unlock b =>
    rw [hsame (by simp)]
    rcases hfit with rfl | ⟨x, rfl⟩
    · cases hrun
    have hne : w.q.mutex ≠ some .guard := fun hguard => by
      have := (World.op_of_view hop).2
      rw [mutex_guard_iff.1 hguard] at this
      cases this
    cases hos with
    | more => exact .goes (.unwind b hne) (fun _ => rfl) hd hshared
    | remove =>
      obtain ⟨l, hl, -⟩ := h.remove_head hm hop
      exact .drop b x l hl hne hd hshared
    | removed => exact .goes (.unwind b hne) (fun _ => rfl) hd hshared
  case failed f =>
    cases f <;> simp only [Option.some.injEq] at hfit
    case waker => obtain ⟨x, rfl⟩ := hfit; cases hrun
    case push => obtain ⟨x, rfl⟩ := hfit; cases hrun
    case state => obtain ⟨x, rfl⟩ := hfit; cases hrun
    all_goals subst hfit; cases hrun
  case requeue ws => obtain ⟨x, rfl⟩ := hfit; cases hrun
  case served m ws => obtain ⟨x, rfl⟩ := hfit; cases hrun
  all_goals subst hfit; cases hrun

/-! ## Calls -/

/-- The node that has been dequeued is written to. -/
theorem handle_withDataMut {g : Waiter W → Waiter W} {q' : State ℕ (Waiter W)}
    (hm : w.q.mutex = some (.dequeue x)) (hs : step cfg w.q (.holderCall (.withDataMut g)) = some (q', e)) :
    e = .tau ∧ q'.mem.data = Function.update w.q.mem.data x (g (w.q.mem.data x)) ∧
      q'.mutex = w.q.mutex := by
  simp only [step, hm, holderCall, Option.some.injEq, Prod.mk.injEq] at hs
  obtain ⟨rfl, rfl⟩ := hs
  exact ⟨rfl, rfl, hm ▸ rfl⟩

/-- A call of `fetch_update_state` by a task that adds permits. -/
theorem fetch_add_pc {again l : Bool} {p : ℕ} {s : Option ℕ} {raw : RawNodeState} {v v' : View ℕ}
    (hv : CallStep i s raw (.thread (.fetchUpdateState (FetchCont.add (W := W) o again l p).fn) :
      Call ℕ (Waiter W)) v e v') (hq : (w'.q.upd i).op = v'.upd) :
    e = .tau ∧ (s = loaded w' i ∧ s ≠ none ∧
        (fetch i w.shared (.add o again l p)).pc e w'.q = .fetch (.add o again l p) ∨
      s = none ∧ (fetch i w.shared (.add o again l p)).pc e w'.q =
        (FetchCont.add o again l p : FetchCont W).err none) := by
  cases hv
  case fetchUpdate s' h =>
    have hne : w'.q.upd i ≠ .idle := fun h => by simp [h, UpdPc.op] at hq
    exact ⟨rfl, .inl ⟨h.trans (loaded_of_trying hq).symm, by simp [h], by simp [fetch, hne]⟩⟩
  case fetchBlocked h =>
    have hidle : w'.q.upd i = .idle := UpdPc.op_eq_idle.1 hq
    exact ⟨rfl, .inr ⟨h, by simp [fetch, hidle]⟩⟩

theorem Reached.state_of_loaded (h : Reached cfg w a) (hl : w.q.mem.queueState = loaded w' i)
    (hq : w.q.mem.queueState ≠ none) : a.queue = [] ∧ loaded w' i = some a.state := by
  obtain ⟨s, hs⟩ := Option.ne_none_iff_exists'.1 hq
  obtain ⟨hnil, rfl⟩ := h.ok.queueState_eq_some.1 hs
  exact ⟨hnil, hl.symm.trans hs⟩

/-- A call of a task that adds permits. -/
theorem Reached.addStep_call (h : Reached cfg w a) {p : AddPc W} {c : Call ℕ (Waiter W)}
    (hp : w.pc i = .add o p) (hr : addNext w i o p = some r) (hk : r.call = some c)
    (hs : TaskStep cfg a w i (c.act i) e w'.q)
    (hv : CallStep i w.q.mem.queueState (w.q.mem.rawState i) c (w.view i) e (w'.view i))
    (hp' : w'.pc i = r.pc e w'.q) (hg : w'.shared = r.shared) :
    AddStep w w' a i o (w.pc i) e (w'.pc i) := by
  have hc := h.control i
  rw [hp] at hc ⊢
  obtain ⟨hown, hupd, hfit⟩ := hc
  have hdata := hs.data_of_call
  cases p <;> simp only [addNext, reduceCtorEq] at hr
  case start again m =>
    split at hr <;> obtain rfl := Option.some.inj hr
    · simp at hk
    · obtain rfl := Option.some.inj hk
      obtain ⟨rfl, ⟨hload, hq, hpc⟩ | ⟨hq, hpc⟩⟩ := fetch_add_pc (w := w) hv rfl <;> rw [hp', hpc]
      · obtain ⟨hq, hst⟩ := h.state_of_loaded hload hq
        exact .goes (.fetch again m hq hst) (fun _ => rfl) (hdata rfl) hg
      · exact .goes (.blockedAtOnce again m (h.ok.inv.queueState_eq_none.1 hq)) (fun _ => rfl) (hdata rfl) hg
  case second again m =>
    obtain rfl := Option.some.inj hr
    obtain rfl := Option.some.inj hk
    obtain ⟨rfl, ⟨hload, hq, hpc⟩ | ⟨hq, hpc⟩⟩ := fetch_add_pc (w := w) hv rfl <;> rw [hp', hpc]
    · obtain ⟨hq, hst⟩ := h.state_of_loaded hload hq
      exact .goes (.fetchLocked again m hq hst) (fun _ => rfl) (hdata rfl) hg
    · have : (FetchCont.add o again true m : FetchCont W).err none = .add o (.atQueue again m) := by
        cases again <;> rfl
      rw [this]
      exact .goes (.queuedAtOnce again m (h.ok.inv.queueState_eq_none.1 hq)) (fun _ => rfl) (hdata rfl) hg
  case lock again m =>
    obtain rfl := Option.some.inj hr
    obtain rfl := Option.some.inj hk
    rw [hp']
    have he : ∀ b : Abs ℕ, b.apply e = b := by
      generalize w.view i = v at hv
      generalize w'.view i = v' at hv
      cases hv
      exact fun _ => rfl
    exact .goes (.lock again m) he (hdata rfl) hg
  case take m ws =>
    obtain rfl := Option.some.inj hr
    obtain rfl := Option.some.inj hk
    rw [hp']
    obtain ⟨y, u, op, op', hv₁, hcs, hv₂⟩ := hv.holder_inv
    have hop : (w'.view i).op = op' := by rw [hv₂]
    cases hcs with
    | dequeueNone hq =>
      refine .goes (.take m ws fun hne => ?_) (fun _ => rfl) (hdata rfl) hg
      exact absurd (h.ok.inv.queueState_eq_none.2 hne) hq
    | dequeue hq =>
      refine .goes (.take m ws fun _ hguard => ?_) (fun _ => rfl) (hdata rfl) hg
      have := (World.op_of_view hop).2
      rw [mutex_guard_iff.1 hguard] at this
      cases this
  case dequeued m ws =>
    split at hr
    · obtain rfl := Option.some.inj hr
      simp at hk
    · rename_i x hmx
      have hok : m < 2 ^ 64 ∧ ws.length < wakersCapacity := by
        have := (h.ranges.pc i)
        rw [hp] at this
        exact this.2
      split at hr <;> rename_i hlt <;> obtain rfl := Option.some.inj hr <;>
        obtain rfl := Option.some.inj hk <;> rw [hp'] <;>
        obtain ⟨rfl, hd, hm'⟩ := handle_withDataMut hmx hs.step
      · exact .reduce m ws x hmx hlt hd hg
      · cases hwk : (w.q.mem.data x).waker with
        | none => exact .unwrap m ws x hmx (by omega) hwk hd hg
        | some wk =>
          dsimp only
          rw [if_neg (by omega)]
          exact .serve m ws x wk hmx (by omega) hwk hok.2 hd hm' hg
    · simp at hr
  case requeue ws =>
    obtain rfl := Option.some.inj hr
    obtain rfl := Option.some.inj hk
    rw [hp']
    obtain ⟨y, u, op, op', hv₁, hcs, hv₂⟩ := hv.holder_inv
    cases hcs <;> exact .goes (.requeue ws) (fun _ => rfl) (hdata rfl) hg
  case served m ws =>
    split at hr <;> obtain rfl := Option.some.inj hr
    · obtain rfl := Option.some.inj hk
      rw [hp']
      have hres : w'.q.result = none := TaskStep.result_of_call hs
      obtain ⟨y, u, op, op', hv₁, hcs, hv₂⟩ := hv.holder_inv
      cases hcs
      exact .goes (.served m ws ‹_› hres) (fun _ => rfl) (hdata rfl) hg
    · simp at hk
  case full m ws =>
    obtain rfl := Option.some.inj hr
    obtain rfl := Option.some.inj hk
    rw [hp']
    obtain ⟨y, u, op, op', hv₁, hcs, hv₂⟩ := hv.holder_inv
    cases hcs
    exact .goes (.full m ws) (fun _ => rfl) (hdata rfl) hg
  case done ws =>
    obtain rfl := Option.some.inj hr
    obtain rfl := Option.some.inj hk
    rw [hp']
    obtain ⟨y, u, op, op', hv₁, hcs, hv₂⟩ := hv.holder_inv
    cases hcs
    exact .goes (.done ws) (fun _ => rfl) (hdata rfl) hg
  case unlock b =>
    obtain rfl := Option.some.inj hr
    obtain rfl := Option.some.inj hk
    rw [hp']
    obtain ⟨y, u, op, op', hv₁, hcs, hv₂⟩ := hv.holder_inv
    cases hcs
    exact .goes (.unlock b) (fun _ => rfl) (hdata rfl) hg
  case failed f =>
    cases f <;> simp only at hr <;> obtain rfl := Option.some.inj hr
    case assertion => simp at hk
    case dequeue => simp at hk
    all_goals
      obtain rfl := Option.some.inj hk
      rw [hp']
      obtain ⟨y, u, op, op', hv₁, hcs, hv₂⟩ := hv.holder_inv
      cases hcs <;> exact .goes (.failed _) (fun _ => rfl) (hdata rfl) hg
  case locked m =>
    obtain rfl := Option.some.inj hr
    simp at hk
  case batch m ws => cases ws <;> obtain rfl := Option.some.inj hr <;> simp at hk
  case final ws => cases ws <;> obtain rfl := Option.some.inj hr <;> simp at hk

/-- A step without a call of a task that adds permits. -/
theorem addStep_own {p : AddPc W} (hp : w.pc i = .add o p)
    (hr : addNext w i o p = some r) (hk : r.call = none) (hq : w'.q = w.q)
    (hp' : w'.pc i = r.pc .tau w.q) (hg : w'.shared = r.shared) :
    AddStep w w' a i o (w.pc i) .tau (w'.pc i) := by
  have hd : w'.q.mem.data = w.q.mem.data := by rw [hq]
  rw [hp]
  cases p <;> simp only [addNext, reduceCtorEq] at hr
  case start again m =>
    split at hr <;> obtain rfl := Option.some.inj hr
    · rename_i hz
      obtain ⟨rfl, rfl⟩ := hz
      rw [hp']
      exact .goes .nothing (fun _ => rfl) hd hg
    · simp [fetch] at hk
  case second again m =>
    obtain rfl := Option.some.inj hr
    simp [fetch] at hk
  case locked m =>
    obtain rfl := Option.some.inj hr
    rw [hp']
    cases hcl : isClosed w.q with
    | false => exact .goes (.locked m hcl) (fun _ => rfl) hd hg
    | true => exact .goes (.assertion m hcl) (fun _ => rfl) hd hg
  case dequeued m ws =>
    split at hr
    · obtain rfl := Option.some.inj hr
      rw [hp']
      exact .goes (.empty m ws ‹_›) (fun _ => rfl) hd hg
    · split at hr <;> obtain rfl := Option.some.inj hr <;> simp at hk
    · simp at hr
  case served m ws =>
    split at hr <;> obtain rfl := Option.some.inj hr
    · simp at hk
    · rw [hp']
      exact .goes (.exceeded m ws (by omega)) (fun _ => rfl) hd hg
  case batch m ws =>
    cases ws <;> obtain rfl := Option.some.inj hr <;> rw [hp']
    · exact .goes (.batch m) (fun _ => rfl) hd hg
    · exact .wake m _ _ hq hg
  case final ws =>
    cases ws <;> obtain rfl := Option.some.inj hr <;> rw [hp']
    · exact .goes .final (fun _ => rfl) hd hg
    · exact .wakeLast _ _ hq hg
  case failed f =>
    cases f <;> simp only at hr <;> obtain rfl := Option.some.inj hr
    case assertion =>
      rw [hp']
      exact .goes (.failed _) (fun _ => rfl) hd hg
    case dequeue =>
      rw [hp']
      exact .goes (.failed _) (fun _ => rfl) hd hg
    all_goals simp at hk
  all_goals
    obtain rfl := Option.some.inj hr
    simp at hk

/-- The task adds permits for `o`. -/
def Pc.Adds (o : AddOwner) (p : Pc W) : Prop :=
  (∃ p', p = .add o p') ∨ ∃ again l n, p = .fetch (.add o again l n)

/-- What a step of a task that adds permits does. -/
theorem Reached.addStep (h : Reached cfg w a) (hm : (semaphore willWake).Moves cfg a w i n w' e)
    (ho : (w.pc i).Adds o) : AddStep w w' a i o (w.pc i) e (w'.pc i) := by
  rcases ho with ⟨p, hp⟩ | ⟨again, l, m, hp⟩
  · cases hm.mover with
    | op hs hd hv hp' hg => exact h.addStep_instr hm hp hd hv hp' hg
    | call hr hk hrest hs hv hp' hg =>
      simp only [semaphore, next, hp] at hr
      exact h.addStep_call hp hr hk hs hv hp' hg
    | own hr hk hrest hq hv hp' hg =>
      simp only [semaphore, next, hp] at hr
      exact addStep_own hp hr hk hq hp' hg
  · exact h.addStep_fetch hm hp

end Aiq.Semaphore
