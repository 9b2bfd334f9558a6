import Aiq.Notify.Model
import Aiq.Task.Collect
import Aiq.Task.Stage

/-!
# What the tasks of a `Notify` do

At every control state of its program a task has a view of the queue that fits (`Pc.Fits`). One relation
says what a step of a task does, at every control state (`Goes`); every step is one of these and leads to a
view that fits (`Control.goes`), so the tasks are where their views say in every reachable state
(`Control.step`).
-/

namespace Aiq.Notify

variable {W : Type} {willWake : W → W → Bool} {cfg : Config} {a : Abs ℕ} {w w' : WorldOf W}
  {i j : TaskId} {e : Event ℕ} {n : Input W} {v v' : View ℕ}

/-! ## Views -/

/-- What the task does with its node while it makes a notification. -/
def Origin.own : Origin → OwnOp ℕ
  | .user => .dead
  | .cancel _ _ => .idle

/-- The view of a task whose future is at the control state. -/
def FutPc.Fits (i : TaskId) : FutPc W → View ℕ → Prop
  | .idle _, v | .cancel _, v | .canceled, v => v = ⟨.idle, .idle, none⟩
  | .state _, v | .canceling _, v => v.Asked i
  | .load _, v | .fetch _, v | .got, v => v = ⟨.unqueued, .idle, none⟩
  | .fetching _, v => ∃ m s, v = ⟨.unqueued, .trying takePermit m s, none⟩
  | .failed _ st, v | .stored _ st, v => st ≠ some notified ∧ v = ⟨.unqueued, .idle, none⟩
  | .enqueued _ st, v => st ≠ some notified ∧ v.Entering (.ofBool (· = st))
  | .stale, v | .refresh _, v | .refreshed, v => v = ⟨.locked, .idle, some (.queued i)⟩
  | .removing _, v => v.Leaving i unnotified
  | .dropping, v => v.Dropping i

/-- The view of a task whose `notify_single` is at the control state. -/
def SinglePc.Fits (i : TaskId) (o : Origin) : SinglePc W → View ℕ → Prop
  | .start, v | .final _, v => v = ⟨o.own, .idle, none⟩
  | .ask, v => v.Asking i o.own (some (.ofTotal fun _ _ => notified))
  | .take, v => v = ⟨o.own, .idle, some .guard⟩
  | .dequeued, v => v = ⟨o.own, .idle, some .dequeuing⟩ ∨ v = ⟨o.own, .idle, some .guard⟩ ∨
      ∃ x, v = ⟨o.own, .idle, some (.handle x)⟩
  | .taken _, v => ∃ x, v = ⟨o.own, .idle, some (.handle x)⟩
  | .set _, v => (∃ x, v = ⟨o.own, .idle, some (.removing x unnotified .handle)⟩) ∨
      v = ⟨o.own, .idle, some .guard⟩

/-- The view of a task whose `notify_waiters` is at the control state. -/
def WaitersPc.Fits : WaitersPc W → View ℕ → Prop
  | .locked, v | .drain, v => v = ⟨.dead, .idle, some .guard⟩
  | .forEach p, v => v.own = .dead ∧ v.upd = .idle ∧ p.Fits unnotified v.op
  | .final _, v => v = ⟨.dead, .idle, none⟩

/-- The view of a task at the control state. -/
def Pc.Fits (i : TaskId) : Pc W → View ℕ → Prop
  | .idle, v | .loaded _, v => v = ⟨.dead, .idle, none⟩
  | .created, v => v = ⟨.idle, .idle, none⟩
  | .fut _ p, v => p.Fits i v
  | .single o k p, v => k ≠ .all ∧ p.Fits i o v
  | .waiters p, v => p.Fits v
  | .fault, _ => True

/-- Every task is where its view says. -/
def Control (w : WorldOf W) : Prop := ∀ i, (w.pc i).Fits i (w.view i)

theorem Control.init : Control (init : WorldOf W) := fun _ => rfl

theorem Origin.own_runs (o : Origin) : o.own.runs = false := by cases o <;> rfl

/-- What a future returns to. -/
theorem Cause.fits_ret (c : Cause) (f : Inner) : (c.ret f : Pc W).Fits i ⟨.idle, .idle, none⟩ := by
  cases c <;> rfl

theorem Origin.fits_ret (o : Origin) : (o.ret : Pc W).Fits i ⟨o.own, .idle, none⟩ := by
  cases o with
  | user => rfl
  | cancel f c => exact c.fits_ret f

/-! ## Steps -/

/-- The step changes neither the data of the nodes nor what the tasks share. -/
structure Same (w w' : WorldOf W) : Prop where
  data : w'.q.mem.data = w.q.mem.data
  shared : w'.shared = w.shared

/-- The step changes the data of the node `x`, to `v`. -/
structure Writes (w w' : WorldOf W) (x : NodeId) (v : Waiter W) : Prop where
  data : w'.q.mem.data = Function.update w.q.mem.data x v
  shared : w'.shared = w.shared

/-- Where a future goes on by itself. -/
inductive FutGoes (w : WorldOf W) (i : TaskId) (f : Inner) : FutPc W → FutPc W → Prop
  | unqueued (cx) (hv : w.view i = ⟨.unqueued, .idle, none⟩) : FutGoes w i f (.state cx) (.load cx)
  | stale (cx) (hv : w.view i = ⟨.locked, .idle, some (.queued i)⟩)
      (hg : w.shared.generation ≠ f.generation) : FutGoes w i f (.state cx) .stale
  | refresh (wk) (hv : w.view i = ⟨.locked, .idle, some (.queued i)⟩)
      (hg : w.shared.generation = f.generation) : FutGoes w i f (.state (some wk)) (.refresh wk)
  | refreshed (hv : w.view i = ⟨.locked, .idle, some (.queued i)⟩)
      (hg : w.shared.generation = f.generation) : FutGoes w i f (.state none) .refreshed
  | fetch (cx) (hg : w.shared.generation = f.generation) : FutGoes w i f (.load cx) (.fetch cx)
  | stored (st) : FutGoes w i f (.failed none st) (.stored none st)
  | again (cx st) (hv : w.view i = ⟨.unqueued, .idle, none⟩) :
      FutGoes w i f (.enqueued cx st) (.load cx)
  | late (cx st) (hv : w.view i = ⟨.idle, .idle, none⟩) (hg : w.shared.generation ≠ f.generation) :
      FutGoes w i f (.enqueued cx st) (.cancel .poll)
  | pending (cx st) (hv : w.view i = ⟨.idle, .idle, none⟩) (hg : w.shared.generation = f.generation) :
      FutGoes w i f (.enqueued cx st) (.idle .pending)
  | drop (r) (hc : f.completed = false) : FutGoes w i f (.idle r) (.cancel .drop)
  | dropCompleted (r) (hc : f.completed = true) : FutGoes w i f (.idle r) .canceled

/-- Where a future is done with its `NodeUnqueued` or `NodeDequeued`, in `poll_notified_impl` or in
`cancel`. -/
inductive Done (w : WorldOf W) (i : TaskId) (f : Inner) : FutPc W → Cause → Prop
  | dequeued (cx) (hv : w.view i = ⟨.dequeued, .idle, none⟩) : Done w i f (.state cx) .poll
  | older (cx) (hg : w.shared.generation ≠ f.generation) : Done w i f (.load cx) .poll
  | got : Done w i f .got .poll
  | unqueued (c) (hv : w.view i = ⟨.unqueued, .idle, none⟩) : Done w i f (.canceling c) c
  | all (c) (hv : w.view i = ⟨.dequeued, .idle, none⟩)
      (hn : (w.q.mem.data i).notification = some .all) : Done w i f (.canceling c) c

/-- What a step of the task `i` does at a control state, with the event `e`. -/
inductive Goes (willWake : W → W → Bool) (w w' : WorldOf W) (i : TaskId) :
    Pc W → Event ℕ → Pc W → Prop
  /-- An instruction of an operation that is called at this control state. -/
  | instr (p e) (hv : InstrStep i w.q.mem.queueState (w.view i) e (w'.view i)) (hs : Same w w') :
      Goes willWake w w' i p e p
  -- `notified` and `notified_owned`
  | create (hd : Writes w w' i .default) : Goes willWake w w' i .idle (.create i) .created
  | created (hs : Same w w') :
      Goes willWake w w' i .created .tau (.fut ⟨w.shared.generation, false⟩ (.idle .never))
  | load (hs : Same w w') : Goes willWake w w' i .idle .tau (.loaded w.shared.generation)
  | loaded (g) (hd : Writes w w' i .default) :
      Goes willWake w w' i (.loaded g) (.create i) (.fut ⟨g, false⟩ (.idle .never))
  -- a future
  | goto (f p p') (hg : FutGoes w i f p p') (hq : w'.q = w.q) (hv : w'.view i = w.view i)
      (hs : w'.shared = w.shared) : Goes willWake w w' i (.fut f p) .tau (.fut f p')
  | state (f p p') (hp : (∃ r cx, p = .idle r ∧ p' = .state cx) ∨ ∃ c, p = .cancel c ∧ p' = .canceling c)
      (hv : CallStep i w.q.mem.queueState (w.q.mem.rawState i) (.state : Call ℕ (Waiter W)) (w.view i) .tau
        (w'.view i)) (hs : Same w w') : Goes willWake w w' i (.fut f p) .tau (.fut f p')
  | done (f p c) (h : Done w i f p c) (hd : w'.q.mem.data = w.q.mem.data)
      (hs : w'.shared = c.shared w.shared i) : Goes willWake w w' i (.fut f p) .tau (c.ret f)
  | fetching (f cx) (hs : Same w w') : Goes willWake w w' i (.fut f (.fetch cx)) .tau (.fut f (.fetching cx))
  | blocked (f cx) (hq : w.q.mem.queueState = none) (hs : Same w w') :
      Goes willWake w w' i (.fut f (.fetch cx)) .tau (.fut f (.failed cx none))
  | got (f cx) (hq : w.q.mem.queueState = some notified) (hs : Same w w') :
      Goes willWake w w' i (.fut f (.fetching cx)) (.update i notified unnotified) (.fut f .got)
  | failed (f cx st) (hs : Same w w') :
      Goes willWake w w' i (.fut f (.fetching cx)) .tau (.fut f (.failed cx st))
  | fill (f wk st) (hd : Writes w w' i (Waiter.fill wk (w.q.mem.data i))) :
      Goes willWake w w' i (.fut f (.failed (some wk) st)) .tau (.fut f (.stored (some wk) st))
  | enqueue (f cx st) (hv : w'.view i = ⟨.inserting (.ofBool (· = st)), .idle, none⟩) (hs : Same w w') :
      Goes willWake w w' i (.fut f (.stored cx st)) .tau (.fut f (.enqueued cx st))
  | remove (f p c) (hp : p = .stale ∧ c = .poll ∨ p = .canceling c)
      (hv : w.view i = ⟨.locked, .idle, some (.queued i)⟩)
      (hv' : w'.view i = ⟨.locked, .idle, some (.removing i unnotified .queued)⟩) (hs : Same w w') :
      Goes willWake w w' i (.fut f p) .tau (.fut f (.removing c))
  | removed (f c) (hv : w.view i = ⟨.idle, .idle, some .guard⟩) (hd : w'.q.mem.data = w.q.mem.data)
      (hs : w'.shared = c.shared w.shared i) :
      Goes willWake w w' i (.fut f (.removing c)) .unlock (c.ret f)
  | refresh (f wk) (hd : Writes w w' i (Waiter.refresh willWake wk (w.q.mem.data i))) :
      Goes willWake w w' i (.fut f (.refresh wk)) .tau (.fut f .refreshed)
  | pending (f) (hs : Same w w') : Goes willWake w w' i (.fut f .refreshed) .unlock (.fut f (.idle .pending))
  | unwrap (f c) (hv : w.view i = ⟨.dequeued, .idle, none⟩)
      (hn : (w.q.mem.data i).notification = none) (hs : Same w w') :
      Goes willWake w w' i (.fut f (.canceling c)) .tau .fault
  | forward (f c k) (hv : w.view i = ⟨.dequeued, .idle, none⟩)
      (hn : (w.q.mem.data i).notification = some k) (hk : k ≠ .all) (hs : Same w w') :
      Goes willWake w w' i (.fut f (.canceling c)) .tau (.single (.cancel f c) k .start)
  | drop (f) (hs : Same w w') : Goes willWake w w' i (.fut f .canceled) .tau (.fut f .dropping)
  | dropped (f) (hs : Same w w') : Goes willWake w w' i (.fut f .dropping) .tau .idle
  -- `notify_single`
  | notify (k) (hk : k ≠ .all) (hs : Same w w') : Goes willWake w w' i .idle .tau (.single .user k .start)
  | ask (o k) (hv : w'.view i = ⟨o.own, .asking (some (.ofTotal fun _ _ => notified)), none⟩)
      (hs : Same w w') : Goes willWake w w' i (.single o k .start) .tau (.single o k .ask)
  | stored (o k e) (hv : InstrStep i w.q.mem.queueState (w.view i) e (w'.view i))
      (hv' : w'.view i = ⟨o.own, .idle, none⟩) (he : e ≠ .guarded i) (hd : w'.q.mem.data = w.q.mem.data)
      (hs : w'.shared = o.shared w.shared i) : Goes willWake w w' i (.single o k .ask) e o.ret
  | guarded (o k) (hq : w.q.mem.queueState = none) (hs : Same w w') :
      Goes willWake w w' i (.single o k .ask) (.guarded i) (.single o k .take)
  | take (o k e c) (hc : c = .dequeue ∨ c = .pop) (op)
      (hv : HolderCallStep (T := Waiter W) w.q.mem.queueState c .guard e op)
      (hv' : w'.view i = ⟨o.own, .idle, op⟩) (hs : Same w w') :
      Goes willWake w w' i (.single o k .take) e (.single o k .dequeued)
  | empty (o k) (hv : w.view i = ⟨o.own, .idle, some .guard⟩) (hs : Same w w') :
      Goes willWake w w' i (.single o k .dequeued) .tau .fault
  | mark (o k x) (hv : w.view i = ⟨o.own, .idle, some (.handle x)⟩)
      (hv' : w'.view i = ⟨o.own, .idle, some (.handle x)⟩) (hd : Writes w w' x ⟨none, some k⟩) :
      Goes willWake w w' i (.single o k .dequeued) .tau (.single o k (.taken (w.q.mem.data x).waker))
  | set (o k wk x) (hv : w.view i = ⟨o.own, .idle, some (.handle x)⟩)
      (hv' : w'.view i = ⟨o.own, .idle, some (.removing x unnotified .handle)⟩) (hs : Same w w') :
      Goes willWake w w' i (.single o k (.taken wk)) .tau (.single o k (.set wk))
  | unlock (o k wk) (hv : w.view i = ⟨o.own, .idle, some .guard⟩) (hs : Same w w') :
      Goes willWake w w' i (.single o k (.set wk)) .unlock (.single o k (.final wk))
  | wake (o k wk) (hd : w'.q.mem.data = w.q.mem.data)
      (hs : w'.shared = o.shared (wk.elim w.shared fun wk => w.shared.wake wk) i) :
      Goes willWake w w' i (.single o k (.final wk)) .tau o.ret
  -- `notify_waiters`
  | lock (hv : w'.view i = ⟨.dead, .idle, some .guard⟩) (hs : Same w w') :
      Goes willWake w w' i .idle .tau (.waiters .locked)
  | generation (hq : w'.q = w.q)
      (hs : w'.shared = { w.shared with generation := w.shared.generation + 1 }) :
      Goes willWake w w' i (.waiters .locked) .tau (.waiters .drain)
  | drain (d e op) (hv : HolderCallStep (T := Waiter W) w.q.mem.queueState (.drain d unnotified) .guard e op)
      (hv' : w'.view i = ⟨.dead, .idle, op⟩) (hs : Same w w') :
      Goes willWake w w' i (.waiters .drain) e (.waiters (.forEach (.head d [])))
  | drained (d x ws ws') (hv : w.view i = ⟨.dead, .idle, some (.drained d (.node x))⟩)
      (hv' : w'.view i = ⟨.dead, .idle, some (.drained d (.node x))⟩)
      (hd : Writes w w' x ⟨none, some .all⟩) (hws : ws' = ws ++ (w.q.mem.data x).waker.toList) :
      Goes willWake w w' i (.waiters (.forEach (.node d ws))) .tau (.waiters (.forEach (.drop d ws')))
  | dropNode (d ws b) (hv : w.view i = ⟨.dead, .idle, some (.drained d b)⟩)
      (hv' : w'.view i = ⟨.dead, .idle, some (.dropDrained d b)⟩) (hs : Same w w') :
      Goes willWake w w' i (.waiters (.forEach (.drop d ws))) .tau (.waiters (.forEach (.dropped d ws)))
  | forEach (p p' e) (hp : ∀ d ws, p' ≠ .drop d ws ∧ p' ≠ .dropped d ws) (hr : (w.view i).Rests)
      (hd : w'.q.mem.data = w.q.mem.data) (hg : w'.shared.generation = w.shared.generation)
      (hs : w'.shared.ready = w.shared.ready) (hl : p.HasRoom → p'.HasRoom)
      (hw : p'.wakers = p.wakers ∧ w'.shared.woken = w.shared.woken ∨
        ∃ wk, p.wakers = wk :: p'.wakers ∧ w'.shared.woken = w.shared.woken ++ [wk])
      (hn : ∀ d ws, p ≠ .drop d ws) :
      Goes willWake w w' i (.waiters (.forEach p)) e (.waiters (.forEach p'))
  | closed (d ws) (hv : w.view i = ⟨.dead, .idle, none⟩) (hs : Same w w') :
      Goes willWake w w' i (.waiters (.forEach (.closing d ws))) .tau (.waiters (.final ws))
  | call (wk ws) (hd : w'.q.mem.data = w.q.mem.data) (hs : w'.shared = w.shared.wake wk) :
      Goes willWake w w' i (.waiters (.final (wk :: ws))) .tau (.waiters (.final ws))
  | return (hs : Same w w') : Goes willWake w w' i (.waiters (.final [])) .tau .idle

/-! ## Every step is one of these -/

/-- An instruction of an operation that a future has called. -/
theorem FutPc.Fits.instr {p : FutPc W} {s : Option ℕ} (h : p.Fits i v) (hp : ∀ cx, p ≠ .fetching cx)
    (hs : InstrStep i s v e v') : p.Fits i v' := by
  cases p <;> simp only [Fits] at h
  case state cx => exact (h.instr hs).1
  case canceling c => exact (h.instr hs).1
  case enqueued cx st => exact ⟨h.1, h.2.instr hs⟩
  case removing c => exact h.instr hs
  case dropping => exact h.instr hs
  case fetching cx => exact absurd rfl (hp cx)
  case failed cx st =>
    rw [h.2] at hs
    cases hs
  case stored cx st =>
    rw [h.2] at hs
    cases hs
  all_goals
    subst h
    cases hs
    try
      rename_i h
      cases h.runs

/-- An instruction of an operation that `wake_single` has called. -/
theorem SinglePc.Fits.instr {o : Origin} {p : SinglePc W} {s : Option ℕ} (h : p.Fits i o v)
    (hp : p ≠ .ask) (hs : InstrStep i s v e v') : p.Fits i o v' := by
  have hown := o.own_runs
  have hop : ∀ {b}, v = ⟨o.own, .idle, some b⟩ → ∃ b', OpStep b e b' ∧
      v' = ⟨b.ownAfter e o.own, b.updAfter .idle, b'⟩ := by
    rintro b rfl
    obtain ⟨b₁, b', hb, hb', rfl⟩ := hs.holder_inv hown rfl
    obtain rfl := Option.some.inj hb
    exact ⟨b', hb', rfl⟩
  have hrun : ∀ {b}, v = ⟨o.own, .idle, some b⟩ → b.runs = false → False := fun h hr => by
    obtain ⟨b', hb, -⟩ := hop h
    simp [hb.runs] at hr
  cases p <;> simp only [Fits] at h
  case ask => exact absurd rfl hp
  case take => exact (hrun h rfl).elim
  case dequeued =>
    rcases h with h | h | ⟨x, h⟩
    · obtain ⟨b', hb, rfl⟩ := hop h
      cases hb <;> simp [Fits, HolderOp.ownAfter, HolderOp.updAfter]
    · exact (hrun h rfl).elim
    · exact (hrun h rfl).elim
  case taken wk =>
    obtain ⟨x, h⟩ := h
    exact (hrun h rfl).elim
  case set wk =>
    rcases h with ⟨x, h⟩ | h
    · obtain ⟨b', hb, rfl⟩ := hop h
      cases hb <;> simp [Fits, HolderOp.ownAfter, HolderOp.updAfter]
    · exact (hrun h rfl).elim
  all_goals
    subst h
    cases o <;> cases hs

/-- An instruction of an operation that `notify_waiters` has called. -/
theorem WaitersPc.Fits.instr {p : WaitersPc W} {s : Option ℕ} (h : p.Fits v)
    (hs : InstrStep i s v e v') : p.Fits v' := by
  cases p <;> simp only [Fits] at h
  case forEach p =>
    obtain ⟨x, u, o⟩ := v
    obtain ⟨rfl, rfl, h⟩ := h
    obtain ⟨o₁, o₂, rfl, h₁, rfl⟩ := hs.holder_inv rfl rfl
    obtain ⟨h₂, h₃⟩ := h.instr h₁
    exact ⟨(h₃ _ .idle).1, (h₃ .dead _).2, h₂⟩
  all_goals
    subst h
    cases hs
    try
      rename_i h
      cases h.runs

/-- What `observe` does not change. -/
theorem observe_eq (h : ∀ f cx, w.pc i ≠ .fut f (.fetching cx)) (h' : ∀ o k, w.pc i ≠ .single o k .ask)
    (q : State ℕ (Waiter W)) : observe w i e q = (w.pc i, w.shared) := by
  unfold observe
  split
  · exact absurd ‹_› (h _ _)
  · exact absurd ‹_› (h' _ _)
  · rfl

/-- An instruction of a task. -/
theorem goes_instr (hf : (w.pc i).Fits i (w.view i))
    (hv : InstrStep i w.q.mem.queueState (w.view i) e (w'.view i))
    (hd : w'.q.mem.data = w.q.mem.data) (hp : w'.pc i = (observe w i e w'.q).1)
    (hs : w'.shared = (observe w i e w'.q).2) :
    Goes willWake w w' i (w.pc i) e (w'.pc i) ∧ (w'.pc i).Fits i (w'.view i) := by
  have hidle : w'.q.upd i = .idle ↔ (w'.view i).upd = .idle := UpdPc.op_eq_idle.symm
  have stay : (∀ f cx, w.pc i ≠ .fut f (.fetching cx)) → (∀ o k, w.pc i ≠ .single o k .ask) →
      w'.pc i = w.pc i ∧ Same w w' := fun h h' => by
    rw [observe_eq h h'] at hp hs
    exact ⟨hp, hd, hs⟩
  cases hpc : w.pc i with
  | idle =>
    rw [hpc] at hf
    rw [show w.view i = ⟨.dead, .idle, none⟩ from hf] at hv
    cases hv
  | created =>
    rw [hpc] at hf
    rw [show w.view i = ⟨.idle, .idle, none⟩ from hf] at hv
    cases hv
  | loaded g =>
    rw [hpc] at hf
    rw [show w.view i = ⟨.dead, .idle, none⟩ from hf] at hv
    cases hv
  | fut f p =>
    rw [hpc] at hf
    by_cases hcx : ∃ cx, p = .fetching cx
    · obtain ⟨cx, rfl⟩ := hcx
      obtain ⟨m, s, hvi⟩ := hf
      have hq : (w'.q.upd i).op = (w'.view i).upd := rfl
      simp only [observe, hpc] at hp hs
      rcases World.fetched_cases (o := none) rfl (by simp) hvi hv hq with
        ⟨hfe, rfl, m', s', hv', -⟩ | ⟨r, hfe, hv', hr⟩
      · rw [hfe] at hp hs
        rw [hp]
        exact ⟨.instr _ _ hv ⟨hd, hs⟩, m', s', hv'⟩
      · rw [hfe] at hp hs
        cases hr with
        | @ok s' h hq' =>
          obtain ⟨rfl, rfl⟩ : s = notified ∧ s' = unnotified := by
            unfold takePermit at h
            split at h
            · exact ⟨‹_›, (Option.some.inj h).symm⟩
            · cases h
          rw [hp]
          exact ⟨.got f cx hq' ⟨hd, hs⟩, hv'⟩
        | refused h =>
          rw [hp]
          refine ⟨.failed f cx _ ⟨hd, hs⟩, ?_, hv'⟩
          rintro h'
          obtain rfl := Option.some.inj h'
          simp [takePermit] at h
        | blocked h hq' =>
          rw [hp]
          exact ⟨.failed f cx _ ⟨hd, hs⟩, by simp, hv'⟩
    · obtain ⟨hpc', hsame⟩ := stay (fun f' cx h => hcx ⟨cx, by rw [hpc] at h; cases h; rfl⟩)
        fun o k h => by simp [hpc] at h
      rw [hpc', hpc]
      exact ⟨.instr _ _ hv hsame, FutPc.Fits.instr hf (fun cx h => hcx ⟨cx, h⟩) hv⟩
  | single o k p =>
    rw [hpc] at hf
    obtain ⟨hk, hf⟩ := hf
    by_cases hask : p = .ask
    · subst hask
      simp only [observe, hpc] at hp hs
      rcases View.Asking.instr hf o.own_runs hv with ⟨he, ⟨hu, hf'⟩ | hv'⟩ | ⟨rfl, hq, hv'⟩
      · rw [if_neg he, if_neg (mt hidle.1 hu)] at hp hs
        rw [hp]
        exact ⟨.instr _ _ hv ⟨hd, hs⟩, hk, hf'⟩
      · have hi : w'.q.upd i = .idle := hidle.2 (by rw [hv'])
        rw [if_neg he, if_pos hi] at hp hs
        rw [hp, hv']
        exact ⟨.stored o k e hv hv' he hd hs, o.fits_ret⟩
      · rw [if_pos rfl] at hp hs
        rw [hp]
        exact ⟨.guarded o k hq ⟨hd, hs⟩, hk, hv'⟩
    · obtain ⟨hpc', hsame⟩ := stay (fun f cx h => by simp [hpc] at h)
        fun o' k' h => by rw [hpc] at h; cases h; exact hask rfl
      rw [hpc', hpc]
      exact ⟨.instr _ _ hv hsame, hk, SinglePc.Fits.instr hf hask hv⟩
  | waiters p =>
    obtain ⟨hpc', hsame⟩ := stay (fun f cx h => by simp [hpc] at h) fun o k h => by simp [hpc] at h
    rw [hpc] at hf
    rw [hpc', hpc]
    exact ⟨.instr _ _ hv hsame, WaitersPc.Fits.instr hf hv⟩
  | fault =>
    obtain ⟨hpc', hsame⟩ := stay (fun f cx h => by simp [hpc] at h) fun o k h => by simp [hpc] at h
    rw [hpc', hpc]
    exact ⟨.instr _ _ hv hsame, trivial⟩

/-! ## Calls -/

section Call

variable {r : InstrOf W} {c : Call ℕ (Waiter W)} {f : Inner}

/-- A call of a future. -/
theorem goes_futCall {p : FutPc W} (h : p.Fits i (w.view i)) (hr : futNext willWake w i f p n = some r)
    (hk : r.call = some c) (hrest : (w.view i).Rests) (hs : TaskStep cfg a w i (c.act i) e w'.q)
    (hv : CallStep i w.q.mem.queueState (w.q.mem.rawState i) c (w.view i) e (w'.view i))
    (hg : w'.shared = r.shared) :
    Goes willWake w w' i (.fut f p) e (r.pc e w'.q) ∧ (r.pc e w'.q).Fits i (w'.view i) := by
  have hown : (w.view i).own = (w.q.own i).op := rfl
  have hidle : w'.q.upd i = .idle ↔ (w'.view i).upd = .idle := UpdPc.op_eq_idle.symm
  have hsame : c.setsData = false → r.shared = w.shared → Same w w' := fun hc hr =>
    ⟨hs.data_of_call hc, hg.trans hr⟩
  have hnode : w.view i = ⟨.locked, .idle, some (.queued i)⟩ → w.q.op.bind HolderOp.node = some i :=
    fun hvi => by rw [(World.op_of_view (congrArg View.op hvi)).2]; rfl
  -- the call of `state`
  have hstate : w.view i = ⟨.idle, .idle, none⟩ → ∀ p', (∃ r cx, p = .idle r ∧ p' = .state cx) ∨
      (∃ c, p = .cancel c ∧ p' = .canceling c) → c = .state → r.pc e w'.q = .fut f p' →
      r.shared = w.shared →
      Goes willWake w w' i (.fut f p) e (r.pc e w'.q) ∧ (r.pc e w'.q).Fits i (w'.view i) := by
    rintro hvi p' hp rfl hpc hsh
    obtain ⟨hv', rfl⟩ := CallStep.asked (hvi ▸ hv)
    rw [hpc]
    refine ⟨.state f p p' hp hv (hsame rfl hsh), ?_⟩
    rcases hp with ⟨r, cx, -, rfl⟩ | ⟨c, -, rfl⟩ <;> exact hv'
  -- the drop of a `NodeUnqueued` or a `NodeDequeued`
  have hdone : ∀ c', Done w i f p c' →
      w.view i = ⟨.unqueued, .idle, none⟩ ∨ w.view i = ⟨.dequeued, .idle, none⟩ → c = .release →
      r.pc e w'.q = c'.ret f → r.shared = c'.shared w.shared i →
      Goes willWake w w' i (.fut f p) e (r.pc e w'.q) ∧ (r.pc e w'.q).Fits i (w'.view i) := by
    rintro c' hd hvi rfl hpc hsh
    have hv' : e = .tau ∧ w'.view i = ⟨.idle, .idle, none⟩ := by
      generalize w'.view i = v' at hv
      rcases hvi with hvi | hvi <;> rw [hvi] at hv <;> cases hv <;> exact ⟨rfl, rfl⟩
    obtain ⟨rfl, hv'⟩ := hv'
    rw [hpc, hv']
    exact ⟨.done f p c' hd (hs.data_of_call rfl) (hg.trans hsh), c'.fits_ret f⟩
  cases p with
  | idle r' =>
    cases n <;> simp only [futNext, reduceCtorEq] at hr
    case poll wk =>
      obtain rfl := Option.some.inj hr
      exact hstate h (.state (some wk)) (.inl ⟨r', some wk, rfl, rfl⟩) (Option.some.inj hk).symm rfl rfl
    case enable =>
      obtain rfl := Option.some.inj hr
      exact hstate h (.state none) (.inl ⟨r', none, rfl, rfl⟩) (Option.some.inj hk).symm rfl rfl
    case drop =>
      split at hr <;> obtain rfl := Option.some.inj hr <;> cases hk
  | state cx =>
    simp only [futNext] at hr
    split at hr
    · obtain rfl := Option.some.inj hr
      cases hk
    · split at hr <;> obtain rfl := Option.some.inj hr <;> cases hk
    · rename_i ho
      obtain rfl := Option.some.inj hr
      have hvi : w.view i = ⟨.dequeued, .idle, none⟩ := by
        rcases View.Asked.rests h hrest with hvi | hvi | hvi
        · simp [hvi, ho, OwnPc.op] at hown
        · exact hvi
        · simp [hvi, ho, OwnPc.op] at hown
      exact hdone .poll (.dequeued cx hvi) (.inr hvi) (Option.some.inj hk).symm rfl rfl
    · cases hr
  | load cx =>
    simp only [futNext] at hr
    split at hr <;> obtain rfl := Option.some.inj hr
    · rename_i hgen
      exact hdone .poll (.older cx hgen) (.inl h) (Option.some.inj hk).symm rfl rfl
    · cases hk
  | fetch cx =>
    obtain rfl := Option.some.inj hr
    obtain rfl := Option.some.inj hk
    have hvi : w.view i = ⟨.unqueued, .idle, none⟩ := h
    rw [hvi] at hv
    generalize hv' : w'.view i = v' at hv hidle
    cases hv with
    | fetchUpdate _ _ _ s hq =>
      have hne : w'.q.upd i ≠ .idle := fun hi => by simpa using hidle.1 hi
      simp only [if_neg hne]
      exact ⟨.fetching f cx (hsame rfl rfl), 0, s, rfl⟩
    | fetchBlocked _ _ _ hq =>
      have hi : w'.q.upd i = .idle := hidle.2 rfl
      simp only [if_pos hi]
      exact ⟨.blocked f cx hq (hsame rfl rfl), by simp, rfl⟩
  | fetching cx => cases hr
  | got =>
    obtain rfl := Option.some.inj hr
    exact hdone .poll .got (.inl h) (Option.some.inj hk).symm rfl rfl
  | failed cx st =>
    cases cx with
    | none =>
      obtain rfl := Option.some.inj hr
      cases hk
    | some wk =>
      obtain rfl := Option.some.inj hr
      obtain rfl := Option.some.inj hk
      have hvi : w.view i = ⟨.unqueued, .idle, none⟩ := h.2
      have hd := TaskStep.data_eq_owner hs
      rw [hvi] at hv
      generalize w'.view i = v' at hv
      cases hv
      exact ⟨.fill f wk st ⟨hd, hg⟩, h.1, rfl⟩
  | stored cx st =>
    obtain rfl := Option.some.inj hr
    obtain rfl := Option.some.inj hk
    have hvi : w.view i = ⟨.unqueued, .idle, none⟩ := h.2
    rw [hvi] at hv
    generalize hvi' : w'.view i = v' at hv
    cases hv
    exact ⟨.enqueue f cx st hvi' (hsame rfl rfl), h.1, .inl rfl⟩
  | enqueued cx st =>
    simp only [futNext] at hr
    repeat' split at hr
    all_goals
      obtain rfl := Option.some.inj hr
      cases hk
  | stale =>
    obtain rfl := Option.some.inj hr
    obtain rfl := Option.some.inj hk
    have hvi : w.view i = ⟨.locked, .idle, some (.queued i)⟩ := h
    obtain ⟨x, u, o, o', hvo, hc, hv'⟩ := hv.holder_inv
    obtain ⟨rfl, rfl, ho⟩ := View.mk.inj (hvo.symm.trans hvi)
    obtain rfl := Option.some.inj ho
    cases hc
    exact ⟨.remove f _ _ (.inl ⟨rfl, rfl⟩) hvi hv' (hsame rfl rfl), .inl hv'⟩
  | refresh wk =>
    obtain rfl := Option.some.inj hr
    obtain rfl := Option.some.inj hk
    have hvi : w.view i = ⟨.locked, .idle, some (.queued i)⟩ := h
    have hd := TaskStep.data_eq_holder hs (hnode hvi)
    obtain ⟨x, u, o, o', hvo, hc, hv'⟩ := hv.holder_inv
    obtain ⟨rfl, rfl, ho⟩ := View.mk.inj (hvo.symm.trans hvi)
    obtain rfl := Option.some.inj ho
    cases hc
    exact ⟨.refresh f wk ⟨hd, hg⟩, hv'⟩
  | refreshed =>
    obtain rfl := Option.some.inj hr
    obtain rfl := Option.some.inj hk
    have hvi : w.view i = ⟨.locked, .idle, some (.queued i)⟩ := h
    obtain ⟨x, u, o, o', hvo, hc, hv'⟩ := hv.holder_inv
    obtain ⟨rfl, rfl, ho⟩ := View.mk.inj (hvo.symm.trans hvi)
    obtain rfl := Option.some.inj ho
    cases hc
    exact ⟨.pending f (hsame rfl rfl), hv'⟩
  | cancel c' =>
    obtain rfl := Option.some.inj hr
    exact hstate h (.canceling c') (.inr ⟨c', rfl, rfl⟩) (Option.some.inj hk).symm rfl rfl
  | canceling c' =>
    simp only [futNext] at hr
    have hvi := View.Asked.rests h hrest
    split at hr
    · rename_i ho
      obtain rfl := Option.some.inj hr
      have hvi : w.view i = ⟨.unqueued, .idle, none⟩ := by
        rcases hvi with hvi | hvi | hvi
        · exact hvi
        · simp [hvi, ho, OwnPc.op] at hown
        · simp [hvi, ho, OwnPc.op] at hown
      exact hdone c' (.unqueued c' hvi) (.inl hvi) (Option.some.inj hk).symm rfl rfl
    · rename_i ho
      obtain rfl := Option.some.inj hr
      obtain rfl := Option.some.inj hk
      have hvi : w.view i = ⟨.locked, .idle, some (.queued i)⟩ := by
        rcases hvi with hvi | hvi | hvi
        · simp [hvi, ho, OwnPc.op] at hown
        · simp [hvi, ho, OwnPc.op] at hown
        · exact hvi
      obtain ⟨x, u, o, o', hvo, hc, hv'⟩ := hv.holder_inv
      obtain ⟨rfl, rfl, ho⟩ := View.mk.inj (hvo.symm.trans hvi)
      obtain rfl := Option.some.inj ho
      cases hc
      exact ⟨.remove f _ _ (.inr rfl) hvi hv' (hsame rfl rfl), .inl hv'⟩
    · rename_i ho
      have hvi : w.view i = ⟨.dequeued, .idle, none⟩ := by
        rcases hvi with hvi | hvi | hvi
        · simp [hvi, ho, OwnPc.op] at hown
        · exact hvi
        · simp [hvi, ho, OwnPc.op] at hown
      split at hr
      · obtain rfl := Option.some.inj hr
        cases hk
      · rename_i hn
        obtain rfl := Option.some.inj hr
        exact hdone c' (.all c' hvi hn) (.inr hvi) (Option.some.inj hk).symm rfl rfl
      · rename_i k hk' hn
        obtain rfl := Option.some.inj hr
        obtain rfl := Option.some.inj hk
        rw [hvi] at hv
        generalize hv' : w'.view i = v' at hv
        cases hv
        exact ⟨.forward f c' k hvi hn hk' (hsame rfl rfl), hk', rfl⟩
    · cases hr
  | removing c' =>
    obtain rfl := Option.some.inj hr
    obtain rfl := Option.some.inj hk
    have hvi := View.Leaving.rests h hrest
    obtain ⟨x, u, o, o', hvo, hc, hv'⟩ := hv.holder_inv
    obtain ⟨rfl, rfl, ho⟩ := View.mk.inj (hvo.symm.trans hvi)
    obtain rfl := Option.some.inj ho
    cases hc
    rw [hv']
    exact ⟨.removed f c' hvi (hs.data_of_call rfl) hg, c'.fits_ret f⟩
  | canceled =>
    obtain rfl := Option.some.inj hr
    obtain rfl := Option.some.inj hk
    have hvi : w.view i = ⟨.idle, .idle, none⟩ := h
    rw [hvi] at hv
    obtain ⟨hv', rfl⟩ := hv.dropping
    exact ⟨.drop f (hsame rfl rfl), hv'⟩
  | dropping =>
    obtain rfl := Option.some.inj hr
    cases hk

/-- A step of a future without a call. -/
theorem goes_futOwn {p : FutPc W} (h : p.Fits i (w.view i)) (hr : futNext willWake w i f p n = some r)
    (hk : r.call = none) (hrest : (w.view i).Rests) (hq : w'.q = w.q) (hv : w'.view i = w.view i)
    (hg : w'.shared = r.shared) :
    Goes willWake w w' i (.fut f p) .tau (r.pc .tau w.q) ∧ (r.pc .tau w.q).Fits i (w'.view i) := by
  have hown : (w.view i).own = (w.q.own i).op := rfl
  have hgoto : ∀ p', FutGoes w i f p p' → p'.Fits i (w.view i) → r.pc .tau w.q = .fut f p' →
      r.shared = w.shared →
      Goes willWake w w' i (.fut f p) .tau (r.pc .tau w.q) ∧ (r.pc .tau w.q).Fits i (w'.view i) := by
    intro p' hp hf hpc hsh
    rw [hpc, hv]
    exact ⟨.goto f p p' hp hq hv (hg.trans hsh), hf⟩
  cases p with
  | idle r' =>
    cases n <;> simp only [futNext, reduceCtorEq] at hr
    case drop =>
      split at hr
      · rename_i hc
        obtain rfl := Option.some.inj hr
        exact hgoto .canceled (.dropCompleted r' hc) h rfl rfl
      · rename_i hc
        obtain rfl := Option.some.inj hr
        exact hgoto (.cancel .drop) (.drop r' (by simpa using hc)) h rfl rfl
    all_goals
      obtain rfl := Option.some.inj hr
      cases hk
  | state cx =>
    have hvi := View.Asked.rests h hrest
    simp only [futNext] at hr
    split at hr
    · rename_i ho
      obtain rfl := Option.some.inj hr
      have hvi : w.view i = ⟨.unqueued, .idle, none⟩ := by
        rcases hvi with hvi | hvi | hvi
        · exact hvi
        · simp [hvi, ho, OwnPc.op] at hown
        · simp [hvi, ho, OwnPc.op] at hown
      exact hgoto (.load cx) (.unqueued cx hvi) hvi rfl rfl
    · rename_i ho
      have hvi : w.view i = ⟨.locked, .idle, some (.queued i)⟩ := by
        rcases hvi with hvi | hvi | hvi
        · simp [hvi, ho, OwnPc.op] at hown
        · simp [hvi, ho, OwnPc.op] at hown
        · exact hvi
      split at hr
      · rename_i hgen
        obtain rfl := Option.some.inj hr
        exact hgoto .stale (.stale cx hvi hgen) hvi rfl rfl
      · rename_i hgen
        obtain rfl := Option.some.inj hr
        cases cx with
        | none => exact hgoto .refreshed (.refreshed hvi (not_not.1 hgen)) hvi rfl rfl
        | some wk => exact hgoto (.refresh wk) (.refresh wk hvi (not_not.1 hgen)) hvi rfl rfl
    · obtain rfl := Option.some.inj hr
      cases hk
    · cases hr
  | load cx =>
    simp only [futNext] at hr
    split at hr <;> obtain rfl := Option.some.inj hr
    · cases hk
    · rename_i hgen
      exact hgoto (.fetch cx) (.fetch cx (not_not.1 hgen)) h rfl rfl
  | fetching cx => cases hr
  | failed cx st =>
    cases cx with
    | none =>
      obtain rfl := Option.some.inj hr
      exact hgoto (.stored none st) (.stored st) h rfl rfl
    | some wk =>
      obtain rfl := Option.some.inj hr
      cases hk
  | enqueued cx st =>
    have hvi := View.Entering.rests h.2 hrest
    simp only [futNext] at hr
    split at hr
    · rename_i ho
      obtain rfl := Option.some.inj hr
      have hvi : w.view i = ⟨.unqueued, .idle, none⟩ := by
        rcases hvi with hvi | hvi
        · exact hvi
        · simp [hvi, ho, OwnPc.op] at hown
      exact hgoto (.load cx) (.again cx st hvi) hvi rfl rfl
    · rename_i ho
      have hvi : w.view i = ⟨.idle, .idle, none⟩ := by
        rcases hvi with hvi | hvi
        · exact absurd (OwnPc.op_eq_unqueued.1 (hown.symm.trans (congrArg View.own hvi))) ho
        · exact hvi
      split at hr
      · rename_i hgen
        obtain rfl := Option.some.inj hr
        exact hgoto (.cancel .poll) (.late cx st hvi hgen) hvi rfl rfl
      · rename_i hgen
        obtain rfl := Option.some.inj hr
        exact hgoto (.idle .pending) (.pending cx st hvi (not_not.1 hgen)) hvi rfl rfl
  | canceling c' =>
    have hvi := View.Asked.rests h hrest
    simp only [futNext] at hr
    split at hr
    · obtain rfl := Option.some.inj hr
      cases hk
    · obtain rfl := Option.some.inj hr
      cases hk
    · rename_i ho
      have hvi : w.view i = ⟨.dequeued, .idle, none⟩ := by
        rcases hvi with hvi | hvi | hvi
        · simp [hvi, ho, OwnPc.op] at hown
        · exact hvi
        · simp [hvi, ho, OwnPc.op] at hown
      split at hr
      · rename_i hn
        obtain rfl := Option.some.inj hr
        exact ⟨.unwrap f c' hvi hn ⟨by rw [hq], hg⟩, trivial⟩
      all_goals
        obtain rfl := Option.some.inj hr
        cases hk
    · cases hr
  | dropping =>
    obtain rfl := Option.some.inj hr
    rw [hv]
    exact ⟨.dropped f ⟨by rw [hq], hg⟩, View.Dropping.rests h hrest⟩
  | _ =>
    obtain rfl := Option.some.inj hr
    cases hk

/-- A call of `notify_single`. -/
theorem goes_singleCall {o : Origin} {k : Notification} {p : SinglePc W} (hk' : k ≠ .all)
    (h : p.Fits i o (w.view i)) (hr : singleNext w i o k p = some r) (hk : r.call = some c)
    (hrest : (w.view i).Rests) (hs : TaskStep cfg a w i (c.act i) e w'.q)
    (hv : CallStep i w.q.mem.queueState (w.q.mem.rawState i) c (w.view i) e (w'.view i))
    (hg : w'.shared = r.shared) :
    Goes willWake w w' i (.single o k p) e (r.pc e w'.q) ∧ (r.pc e w'.q).Fits i (w'.view i) := by
  have hsame : c.setsData = false → r.shared = w.shared → Same w w' := fun hc hr =>
    ⟨hs.data_of_call hc, hg.trans hr⟩
  cases p with
  | start =>
    obtain rfl := Option.some.inj hr
    obtain rfl := Option.some.inj hk
    have hvi : w.view i = ⟨o.own, .idle, none⟩ := h
    rw [hvi] at hv
    generalize hv' : w'.view i = v' at hv
    cases hv
    exact ⟨.ask o k hv' (hsame rfl rfl), hk', .inl rfl⟩
  | ask => cases hr
  | take =>
    have hvi : w.view i = ⟨o.own, .idle, some .guard⟩ := h
    have key : ∀ c', c = .holder c' → c' = .dequeue ∨ c' = .pop → r.shared = w.shared →
        r.pc e w'.q = .single o k .dequeued →
        Goes willWake w w' i (.single o k .take) e (r.pc e w'.q) ∧ (r.pc e w'.q).Fits i (w'.view i) := by
      rintro c' rfl hc' hsh hpc
      obtain ⟨x, u, o₁, o', hvo, hc, hv'⟩ := hv.holder_inv
      obtain ⟨rfl, rfl, ho⟩ := View.mk.inj (hvo.symm.trans hvi)
      obtain rfl := Option.some.inj ho
      rw [hpc]
      refine ⟨.take o k e c' hc' o' hc hv' (hsame ?_ hsh), hk', ?_⟩
      · rcases hc' with rfl | rfl <;> rfl
      · rw [hv']
        rcases hc' with rfl | rfl <;> cases hc <;> simp [SinglePc.Fits, HolderOp.ownAfterCall]
    simp only [singleNext] at hr
    cases k <;> obtain rfl := Option.some.inj hr
    · exact key .dequeue (Option.some.inj hk).symm (.inl rfl) rfl rfl
    · exact key .pop (Option.some.inj hk).symm (.inr rfl) rfl rfl
    · cases hk
  | dequeued =>
    have key : ∀ x, w.q.mutex = some (.dequeue x) ∨ w.q.mutex = some (.pop x) →
        r = ⟨some (.holder (.withDataMut fun _ => ⟨none, some k⟩)),
          fun _ _ => .single o k (.taken (w.q.mem.data x).waker), w.shared⟩ →
        Goes willWake w w' i (.single o k .dequeued) e (r.pc e w'.q) ∧
          (r.pc e w'.q).Fits i (w'.view i) := by
      rintro x hmx rfl
      obtain rfl := Option.some.inj hk
      have hop : w.q.op = some (.handle x) := by
        rcases hmx with hmx | hmx <;> simp [State.op, hmx, HolderPc.op]
      have hvi : w.view i = ⟨o.own, .idle, some (.handle x)⟩ := by
        rcases h with h | h | ⟨y, h⟩ <;> have ho := (World.op_of_view (congrArg View.op h)).2 <;>
          rw [hop] at ho <;> cases ho
        exact h
      have hd := TaskStep.data_eq_holder (x := x) hs (by rw [hop]; rfl)
      obtain ⟨x', u, o₁, o', hvo, hc, hv'⟩ := hv.holder_inv
      obtain ⟨rfl, rfl, ho⟩ := View.mk.inj (hvo.symm.trans hvi)
      obtain rfl := Option.some.inj ho
      cases hc
      exact ⟨.mark o k x hvi hv' ⟨hd, hg⟩, hk', x, hv'⟩
    simp only [singleNext] at hr
    split at hr
    · obtain rfl := Option.some.inj hr
      cases hk
    · exact key _ (.inl ‹_›) (Option.some.inj hr).symm
    · exact key _ (.inr ‹_›) (Option.some.inj hr).symm
    · cases hr
  | taken wk =>
    obtain ⟨x, hvi⟩ := h
    obtain rfl := Option.some.inj hr
    obtain rfl := Option.some.inj hk
    obtain ⟨x', u, o₁, o', hvo, hc, hv'⟩ := hv.holder_inv
    obtain ⟨rfl, rfl, ho⟩ := View.mk.inj (hvo.symm.trans hvi)
    obtain rfl := Option.some.inj ho
    cases hc
    exact ⟨.set o k wk x hvi hv' (hsame rfl rfl), hk', .inl ⟨x, hv'⟩⟩
  | set wk =>
    have hvi : w.view i = ⟨o.own, .idle, some .guard⟩ := by
      rcases h with ⟨x, h⟩ | h
      · cases hrest.op (congrArg View.op h)
      · exact h
    obtain rfl := Option.some.inj hr
    obtain rfl := Option.some.inj hk
    obtain ⟨x', u, o₁, o', hvo, hc, hv'⟩ := hv.holder_inv
    obtain ⟨rfl, rfl, ho⟩ := View.mk.inj (hvo.symm.trans hvi)
    obtain rfl := Option.some.inj ho
    cases hc
    exact ⟨.unlock o k wk hvi (hsame rfl rfl), hk', hv'⟩
  | final wk =>
    obtain rfl := Option.some.inj hr
    cases hk

/-- A step of `notify_single` without a call. -/
theorem goes_singleOwn {o : Origin} {k : Notification} {p : SinglePc W} (hk' : k ≠ .all)
    (h : p.Fits i o (w.view i)) (hr : singleNext w i o k p = some r) (hk : r.call = none)
    (hq : w'.q = w.q) (hv : w'.view i = w.view i) (hg : w'.shared = r.shared) :
    Goes willWake w w' i (.single o k p) .tau (r.pc .tau w.q) ∧ (r.pc .tau w.q).Fits i (w'.view i) := by
  cases p with
  | ask => cases hr
  | take =>
    simp only [singleNext] at hr
    cases k <;> obtain rfl := Option.some.inj hr
    · cases hk
    · cases hk
    · exact absurd rfl hk'
  | dequeued =>
    simp only [singleNext] at hr
    split at hr
    · rename_i hmx
      obtain rfl := Option.some.inj hr
      have hvi : w.view i = ⟨o.own, .idle, some .guard⟩ := by
        rcases h with h | h | ⟨y, h⟩ <;> have ho := (World.op_of_view (congrArg View.op h)).2 <;>
          simp [State.op, hmx, HolderPc.op] at ho
        exact h
      exact ⟨.empty o k hvi ⟨by rw [hq], hg⟩, trivial⟩
    · obtain rfl := Option.some.inj hr
      cases hk
    · obtain rfl := Option.some.inj hr
      cases hk
    · cases hr
  | final wk =>
    obtain rfl := Option.some.inj hr
    rw [hv, show w.view i = ⟨o.own, .idle, none⟩ from h]
    exact ⟨.wake o k wk (by rw [hq]) hg, o.fits_ret⟩
  | _ =>
    obtain rfl := Option.some.inj hr
    cases hk

/-- What `for_each` does when it goes on. -/
theorem next_forEach_waiters {p p' : ForEachPc W} {q : State ℕ (Waiter W)}
    (hr : waitersNext w (.forEach p) n = some r) (hp : r.pc e q = .waiters (.forEach p'))
    (hne : ∀ d ws, p' ≠ .drop d ws ∧ p' ≠ .dropped d ws) (hg : w'.shared = r.shared) :
    (p.HasRoom → p'.HasRoom) ∧
      (p'.wakers = p.wakers ∧ w'.shared.woken = w.shared.woken ∨
        ∃ wk, p.wakers = wk :: p'.wakers ∧ w'.shared.woken = w.shared.woken ++ [wk]) ∧
      ∀ d ws, p ≠ .drop d ws := by
  simp only [waitersNext] at hr
  refine ⟨?_, ?_, ?_⟩
  · intro hl
    rcases ForEachPc.next_hasRoom (c := q) (e := e) hl hr with ⟨p₁, h₁, h₂⟩ | ⟨ws, h₁⟩ | h₁
    · cases hp.symm.trans h₁
      exact h₂
    · cases hp.symm.trans h₁
    · cases hp.symm.trans h₁
  · rw [hg]
    rcases ForEachPc.next_wakers (c := q) (e := e) hr with
      h₁ | ⟨d, ws, x, rfl, -, -, h₁⟩ | ⟨d, wk, ws, rfl, hs, h₁⟩ | ⟨hs, ⟨p₁, h₁, h₂⟩ | h₁⟩
    · cases hp.symm.trans h₁
    · cases hp.symm.trans h₁
      exact absurd rfl (hne _ _).1
    · cases hp.symm.trans h₁
      exact .inr ⟨wk, rfl, by rw [hs]; rfl⟩
    · cases hp.symm.trans h₁
      exact .inl ⟨h₂, by rw [hs]⟩
    · cases hp.symm.trans h₁
  · rintro d ws rfl
    obtain rfl := Option.some.inj hr
    cases hp
    exact (hne _ _).2 rfl

/-- A call of `notify_waiters`. -/
theorem goes_waitersCall {p : WaitersPc W} (h : p.Fits (w.view i)) (hr : waitersNext w p n = some r)
    (hk : r.call = some c) (hrest : (w.view i).Rests) (hs : TaskStep cfg a w i (c.act i) e w'.q)
    (hv : CallStep i w.q.mem.queueState (w.q.mem.rawState i) c (w.view i) e (w'.view i))
    (hg : w'.shared = r.shared) :
    Goes willWake w w' i (.waiters p) e (r.pc e w'.q) ∧ (r.pc e w'.q).Fits i (w'.view i) := by
  cases p with
  | locked =>
    obtain rfl := Option.some.inj hr
    cases hk
  | drain =>
    cases n <;> simp only [waitersNext, reduceCtorEq] at hr
    case drain d =>
      have hvi : w.view i = ⟨.dead, .idle, some .guard⟩ := h
      obtain rfl := Option.some.inj hr
      obtain rfl := Option.some.inj hk
      obtain ⟨x, u, o, o', hvo, hc, hv'⟩ := hv.holder_inv
      obtain ⟨rfl, rfl, ho⟩ := View.mk.inj (hvo.symm.trans hvi)
      obtain rfl := Option.some.inj ho
      refine ⟨.drain d e o' hc hv' ⟨hs.data_of_call rfl, hg⟩, ?_⟩
      rw [hv']
      cases hc <;> exact ⟨rfl, rfl, by simp [ForEachPc.Fits]⟩
  | forEach p =>
    have hr₀ := hr
    simp only [waitersNext] at hr
    generalize hvi : w.view i = v at h hrest hv
    obtain ⟨x, u, o⟩ := v
    obtain ⟨rfl, rfl, h⟩ := h
    obtain ⟨p', hpc, h₁, h₂, h₃⟩ := h.call (c := w'.q) hr hk hrest hv
    rw [hpc]
    refine ⟨?_, h₂, h₃, h₁⟩
    have hstep : (∀ d ws, p' ≠ .drop d ws ∧ p' ≠ .dropped d ws) → c.setsData = false →
        r.shared = w.shared → Goes willWake w w' i (.waiters (.forEach p)) e (.waiters (.forEach p')) :=
      fun hp' hc hsh => by
        obtain ⟨hl, hw, hn⟩ := next_forEach_waiters hr₀ hpc hp' hg
        exact .forEach p p' e hp' (hvi ▸ hrest) (hs.data_of_call hc) (by rw [hg, hsh]) (by rw [hg, hsh])
          hl hw hn
    have hinj : ∀ {p₁}, r.pc e w'.q = .waiters (.forEach p₁) → p' = p₁ := fun h => by
      rw [hpc] at h
      cases h
      rfl
    cases p <;> simp only [ForEachPc.next] at hr
    case head d ws =>
      obtain rfl := Option.some.inj hr
      obtain rfl := Option.some.inj hk
      have hp' := hinj rfl
      refine hstep (fun d' ws' => ?_) rfl rfl
      rw [hp']
      split <;> simp
    case node d ws =>
      split at hr
      · rename_i d' x hmx
        rw [if_neg (by simp [takeWaker])] at hr
        obtain rfl := Option.some.inj hr
        obtain rfl := Option.some.inj hk
        obtain rfl := hinj rfl
        have hop : w.q.op = some (.drained d' (.node x)) := by simp [State.op, hmx, HolderPc.op]
        obtain ⟨b, rfl⟩ := h
        have ho := (World.op_of_view (congrArg View.op hvi)).2
        obtain ⟨rfl, rfl⟩ : d' = d ∧ .node x = b := by simpa [hop] using ho
        have hd := TaskStep.data_eq_holder (x := x) hs (by rw [hop]; rfl)
        obtain ⟨y, u, o₁, o', hvo, hc, hv'⟩ := hv.holder_inv
        obtain ⟨rfl, rfl, ho⟩ := View.mk.inj hvo
        obtain rfl := Option.some.inj ho
        cases hc
        exact .drained d' x ws _ hvi hv' ⟨hd, hg⟩ rfl
      · cases hr
    case drop d ws =>
      obtain rfl := Option.some.inj hr
      obtain rfl := Option.some.inj hk
      obtain rfl := hinj rfl
      obtain ⟨b, rfl⟩ := h
      obtain ⟨y, u, o₁, o', hvo, hc, hv'⟩ := hv.holder_inv
      obtain ⟨rfl, rfl, ho⟩ := View.mk.inj hvo
      obtain rfl := Option.some.inj ho
      cases hc
      exact .dropNode d ws b hvi hv' ⟨hs.data_of_call rfl, hg⟩
    case dropped d ws =>
      repeat' split at hr
      all_goals
        obtain rfl := Option.some.inj hr
        cases hk
      obtain rfl := hinj rfl
      exact hstep (by simp) rfl rfl
    case unlocked d ws =>
      cases ws <;> obtain rfl := Option.some.inj hr <;> cases hk
      obtain rfl := hinj rfl
      exact hstep (by simp) rfl rfl
    case relock d =>
      obtain rfl := Option.some.inj hr
      obtain rfl := Option.some.inj hk
      obtain rfl := hinj rfl
      exact hstep (by simp) rfl rfl
    case done d ws =>
      obtain rfl := Option.some.inj hr
      obtain rfl := Option.some.inj hk
      obtain rfl := hinj rfl
      exact hstep (by simp) rfl rfl
    case closing d ws =>
      obtain rfl := Option.some.inj hr
      cases hk
  | final ws =>
    cases ws <;> obtain rfl := Option.some.inj hr <;> cases hk

/-- A step of `notify_waiters` without a call. -/
theorem goes_waitersOwn {p : WaitersPc W} (h : p.Fits (w.view i)) (hr : waitersNext w p n = some r)
    (hk : r.call = none) (hrest : (w.view i).Rests) (hq : w'.q = w.q) (hv : w'.view i = w.view i)
    (hg : w'.shared = r.shared) :
    Goes willWake w w' i (.waiters p) .tau (r.pc .tau w.q) ∧ (r.pc .tau w.q).Fits i (w'.view i) := by
  cases p with
  | locked =>
    obtain rfl := Option.some.inj hr
    rw [hv]
    exact ⟨.generation hq hg, h⟩
  | drain =>
    cases n <;> simp only [waitersNext, reduceCtorEq] at hr
    case drain d =>
      obtain rfl := Option.some.inj hr
      cases hk
  | forEach p =>
    have hstep : ∀ p', r.pc .tau w.q = .waiters (.forEach p') →
        (∀ d ws, p' ≠ .drop d ws ∧ p' ≠ .dropped d ws) →
        r.shared.generation = w.shared.generation → r.shared.ready = w.shared.ready →
        Goes willWake w w' i (.waiters (.forEach p)) .tau (.waiters (.forEach p')) := by
      intro p' hpc hp' h₁ h₂
      obtain ⟨hl, hw, hn⟩ := next_forEach_waiters hr hpc hp' hg
      exact .forEach p p' .tau hp' hrest (by rw [hq]) (by rw [hg, h₁]) (by rw [hg, h₂]) hl hw hn
    simp only [waitersNext] at hr
    generalize hvi : w.view i = v at h hrest
    obtain ⟨x, u, o⟩ := v
    obtain ⟨rfl, rfl, h⟩ := h
    rw [hv, hvi]
    have hfit := h.own (c := w.q) hr hk hrest .tau
    cases p <;> simp only [ForEachPc.next] at hr
    case node d ws =>
      split at hr
      · rw [if_neg (by simp [takeWaker])] at hr
        obtain rfl := Option.some.inj hr
        cases hk
      · cases hr
    case dropped d ws =>
      repeat' split at hr
      all_goals obtain rfl := Option.some.inj hr
      · rcases hfit with ⟨p', hp', hf⟩ | ⟨ws', hp', -⟩ | ⟨hp', -⟩
        · cases hp'
          exact ⟨hstep _ rfl (by simp) rfl rfl, rfl, rfl, hf⟩
        · cases hp'
        · cases hp'
      · cases hk
      · rcases hfit with ⟨p', hp', hf⟩ | ⟨ws', hp', -⟩ | ⟨hp', -⟩
        · cases hp'
          exact ⟨hstep _ rfl (by simp) rfl rfl, rfl, rfl, hf⟩
        · cases hp'
        · cases hp'
    case unlocked d ws =>
      cases ws <;> obtain rfl := Option.some.inj hr
      · cases hk
      · exact ⟨hstep _ rfl (by simp) rfl rfl, rfl, rfl, h⟩
    case closing d ws =>
      obtain rfl := Option.some.inj hr
      rcases hfit with ⟨p', hp', -⟩ | ⟨ws', hp', rfl⟩ | ⟨hp', -⟩
      · cases hp'
      · exact ⟨.closed d ws hvi ⟨by rw [hq], hg⟩, rfl⟩
      · cases hp'
    all_goals
      obtain rfl := Option.some.inj hr
      cases hk
  | final ws =>
    cases ws <;> obtain rfl := Option.some.inj hr <;> rw [hv]
    · exact ⟨.return ⟨by rw [hq], hg⟩, h⟩
    · exact ⟨.call _ _ (by rw [hq]) hg, h⟩

end Call

/-- Every step of a task is one of those of `Goes`, and leads to a view that fits. -/
theorem Control.goes (h : Control w) (hm : (notify willWake).Moves cfg a w i n w' e) :
    Goes willWake w w' i (w.pc i) e (w'.pc i) ∧ (w'.pc i).Fits i (w'.view i) := by
  have hi := h i
  cases hm.mover with
  | op hs hd hv hp hg => exact goes_instr hi hv hd hp hg
  | @call r c e hr hk hrest hs hv hp hg =>
    rw [hp]
    simp only [notify, next] at hr
    cases hpc : w.pc i with
    | idle =>
      rw [hpc] at hi
      simp only [hpc] at hr
      have hvi : w.view i = ⟨.dead, .idle, none⟩ := hi
      rw [hvi] at hv
      generalize hv' : w'.view i = v' at hv
      cases n <;> simp only [start, reduceCtorEq] at hr
      case notified owned =>
        cases owned <;> obtain rfl := Option.some.inj hr
        · obtain rfl := Option.some.inj hk
          have hd := TaskStep.data_create hs
          cases hv
          exact ⟨.create ⟨hd, hg⟩, rfl⟩
        · cases hk
      case notifyWaiters =>
        obtain rfl := Option.some.inj hr
        obtain rfl := Option.some.inj hk
        cases hv
        exact ⟨.lock hv' ⟨hs.data_of_call rfl, hg⟩, rfl⟩
      all_goals
        obtain rfl := Option.some.inj hr
        cases hk
    | created =>
      simp only [hpc] at hr
      obtain rfl := Option.some.inj hr
      cases hk
    | loaded g =>
      rw [hpc] at hi
      simp only [hpc] at hr
      have hvi : w.view i = ⟨.dead, .idle, none⟩ := hi
      obtain rfl := Option.some.inj hr
      obtain rfl := Option.some.inj hk
      have hd := TaskStep.data_create hs
      rw [hvi] at hv
      generalize hv' : w'.view i = v' at hv
      cases hv
      exact ⟨.loaded g ⟨hd, hg⟩, rfl⟩
    | fut f p =>
      rw [hpc] at hi
      simp only [hpc] at hr
      exact goes_futCall hi hr hk hrest hs hv hg
    | single o k p =>
      rw [hpc] at hi
      simp only [hpc] at hr
      exact goes_singleCall hi.1 hi.2 hr hk hrest hs hv hg
    | waiters p =>
      rw [hpc] at hi
      simp only [hpc] at hr
      exact goes_waitersCall hi hr hk hrest hs hv hg
    | fault => simp [hpc] at hr
  | own hr hk hrest hq hv hp hg =>
    rw [hp]
    simp only [notify, next] at hr
    cases hpc : w.pc i with
    | idle =>
      rw [hpc] at hi
      simp only [hpc] at hr
      rw [hv]
      cases n <;> simp only [start, reduceCtorEq] at hr
      case notified owned =>
        cases owned <;> obtain rfl := Option.some.inj hr
        · cases hk
        · exact ⟨.load ⟨by rw [hq], hg⟩, hi⟩
      case notifyOne =>
        obtain rfl := Option.some.inj hr
        exact ⟨.notify .one (by simp) ⟨by rw [hq], hg⟩, by simp, hi⟩
      case notifyLast =>
        obtain rfl := Option.some.inj hr
        exact ⟨.notify .last (by simp) ⟨by rw [hq], hg⟩, by simp, hi⟩
      case notifyWaiters =>
        obtain rfl := Option.some.inj hr
        cases hk
    | created =>
      rw [hpc] at hi
      simp only [hpc] at hr
      obtain rfl := Option.some.inj hr
      rw [hv]
      exact ⟨.created ⟨by rw [hq], hg⟩, hi⟩
    | loaded g =>
      simp only [hpc] at hr
      obtain rfl := Option.some.inj hr
      cases hk
    | fut f p =>
      rw [hpc] at hi
      simp only [hpc] at hr
      exact goes_futOwn hi hr hk hrest hq hv hg
    | single o k p =>
      rw [hpc] at hi
      simp only [hpc] at hr
      exact goes_singleOwn hi.1 hi.2 hr hk hq hv hg
    | waiters p =>
      rw [hpc] at hi
      simp only [hpc] at hr
      exact goes_waitersOwn hi hr hk hrest hq hv hg
    | fault => simp [hpc] at hr

/-- Every step keeps the tasks where their views say. -/
theorem Control.step (h : Control w) (hm : (notify willWake).Moves cfg a w i n w' e) : Control w' := by
  intro j
  by_cases hj : j = i
  · subst hj
    exact (h.goes hm).2
  · rw [hm.pc_ne hj, hm.view_ne hj]
    exact h j

end Aiq.Notify
