import Aiq.Semaphore.Model

/-!
# Where the tasks of a semaphore are

At every control state of its program a task has a view of the queue that fits (`Pc.Fits`). This holds in
every reachable state (`Control.step`).
-/

namespace Aiq.Semaphore

variable {W : Type} {willWake : W → W → Bool} {cfg : Config} {a : Abs ℕ} {w w' : WorldOf W}
  {i j : TaskId} {e : Event ℕ} {n : Input W} {v v' : View ℕ}

/-! ## Views -/

/-- What the task does with its node while it adds permits. -/
def AddOwner.own : AddOwner → OwnOp ℕ
  | .user => .dead
  | .cancel _ _ => .idle

/-- What the task does with its node in a `fetch_update_state`. -/
def FetchCont.own : FetchCont W → OwnOp ℕ
  | .retry _ _ => .unqueued
  | .add o _ _ _ => o.own
  | _ => .dead

/-- What it holds the lock with. -/
def FetchCont.op : FetchCont W → Option (HolderOp ℕ)
  | .add _ _ true _ => some .guard
  | _ => none

/-- The view of a task that has called `state`. -/
def Asked (i : TaskId) (v : View ℕ) : Prop :=
  v = ⟨.unqueued, .idle, none⟩ ∨ v = ⟨.dequeued, .idle, none⟩ ∨ v = ⟨.waitState, .idle, none⟩ ∨
    v = ⟨.locked, .idle, some (.checking i)⟩ ∨ v = ⟨.locked, .idle, some (.queued i)⟩ ∨
    v = ⟨.locked, .idle, some (.releasing (.state i))⟩

/-- The view of a task whose future is at the control state. -/
def FutPc.Fits (i : TaskId) : FutPc W → View ℕ → Prop
  | .created, v | .node _, v => v = ⟨.dead, .idle, none⟩
  | .fresh _, v | .suspended, v | .ready _, v | .canceled _, v => v = ⟨.idle, .idle, none⟩
  | .state _, v | .cancel _, v => Asked i v
  | .retry _, v | .failed _ _, v | .stored _ _, v | .got, v => v = ⟨.unqueued, .idle, none⟩
  | .enqueued _ st, v => v = ⟨.inserting (.ofBool (· = st)), .idle, none⟩ ∨
      v = ⟨.refusing, .idle, none⟩ ∨ v = ⟨.unqueued, .idle, none⟩ ∨ v = ⟨.linking, .idle, none⟩ ∨
      v = ⟨.idle, .idle, none⟩
  | .queued _ _, v | .refreshed _, v => v = ⟨.locked, .idle, some (.queued i)⟩
  | .dequeued _, v => v = ⟨.dequeued, .idle, none⟩
  | .removing _ acquired, v => v = ⟨.locked, .idle, some (.removing i acquired .queued)⟩
  | .removed _ _, v | .unlock _ _, v => v = ⟨.idle, .idle, some .guard⟩
  | .dropping _, v => v = ⟨.waitDrop, .idle, none⟩ ∨ v = ⟨.dead, .idle, none⟩ ∨
      v = ⟨.locked, .idle, some (.dropping i)⟩ ∨
      v = ⟨.locked, .idle, some (.removing i 0 .nodeDrop)⟩ ∨
      v = ⟨.locked, .idle, some (.releasing (.node i))⟩

/-- What a task that adds permits does under the lock at the control state. -/
def AddPc.Fits : AddPc W → Option (HolderOp ℕ) → Prop
  | .start _ _, o | .lock _ _, o | .batch _ _, o | .final _, o => o = none
  | .second _ _, o | .locked _, o | .take _ _, o | .full _ _, o | .done _, o => o = some .guard
  | .dequeued _ _, o => o = some .dequeuing ∨ o = some .guard ∨ ∃ x, o = some (.handle x)
  | .requeue _, o | .served _ _, o => ∃ x, o = some (.handle x)
  | .set p _, o => ∃ x, o = some (.removing x (shift p) .handle)
  | .unlock _, o => o = some .guard ∨ ∃ x, o = some (.removing x 0 .handle)
  | .failed .assertion, o | .failed .dequeue, o => o = some .guard
  | .failed _, o => ∃ x, o = some (.handle x)

/-- The view of a task whose `close` is at the control state. -/
def ClosePc.Fits (i : TaskId) : ClosePc W → View ℕ → Prop
  | .ask, v => v = ⟨.dead, .asking (some (.ofTotal fun _ s => s ||| closed)), none⟩ ∨
      v = ⟨.dead, .deciding (some (.ofTotal fun _ s => s ||| closed)), some (.upd i)⟩ ∨
      v = ⟨.dead, .releasing, some (.releasing (.thread i))⟩
  | .drain, v => v = ⟨.dead, .idle, some .guard⟩
  | .forEach p, v => v.own = .dead ∧ v.upd = .idle ∧ p.Fits closed v.op
  | .final _, v => v = ⟨.dead, .idle, none⟩
  | .failed, v => ∃ d b, v = ⟨.dead, .idle, some (.drained d b)⟩
  | .unwound, v => ∃ d, (∃ b, v = ⟨.dead, .idle, some (.dropDrained d b)⟩) ∨
      v = ⟨.dead, .idle, some (.drain d)⟩
  | .closing, v => (∃ d, v = ⟨.dead, .idle, some (.closing d)⟩) ∨ v = ⟨.dead, .idle, none⟩

/-- The view of a task at the control state. -/
def Pc.Fits (i : TaskId) : Pc W → View ℕ → Prop
  | .idle _, v => v = ⟨.dead, .idle, none⟩
  | .fetch c, v => ∃ m s, v = ⟨c.own, .trying c.fn m s, c.op⟩
  | .fut _ p, v => p.Fits i v
  | .add o p, v => v.own = o.own ∧ v.upd = .idle ∧ p.Fits v.op
  | .close p, v => p.Fits i v

/-- Every task is where its view says. -/
def Control (w : WorldOf W) : Prop := ∀ i, (w.pc i).Fits i (w.view i)

theorem Control.init (s : ℕ) : Control (init s : WorldOf W) := fun _ => rfl

/-! ## Instructions -/

theorem FetchCont.own_runs (c : FetchCont W) : c.own.runs = false := by
  cases c <;> try rfl
  case add o again l p => cases o <;> rfl

theorem FetchCont.op_runs (c : FetchCont W) : ∀ o ∈ c.op, o.runs = false := by
  cases c <;> try simp [op]
  case add o again l p => cases l <;> simp [HolderOp.runs]

/-- A `fetch_update_state` that returns `Ok` leaves the task where it is to be. -/
theorem FetchCont.fits_ok (c : FetchCont W) (s : ℕ) : (c.ok s).Fits i ⟨c.own, .idle, c.op⟩ := by
  cases c <;> try rfl
  case add o again l p =>
    cases l
    · cases o <;> rfl
    · exact ⟨rfl, rfl, .inl rfl⟩

/-- The same for `Err`. -/
theorem FetchCont.fits_err (c : FetchCont W) (st : Option ℕ) :
    (c.err st).Fits i ⟨c.own, .idle, c.op⟩ := by
  cases c <;> try rfl
  case add o again l p =>
    cases st <;> cases l
    · exact ⟨rfl, rfl, rfl⟩
    · cases again <;> exact ⟨rfl, rfl, rfl⟩
    · cases o <;> rfl
    · exact ⟨rfl, rfl, .inl rfl⟩

/-- An instruction of an operation of a future. -/
theorem FutPc.Fits.instr {p : FutPc W} {s : Option ℕ} (h : p.Fits i v) (hs : InstrStep i s v e v') :
    (p.Fits i v' ∧ ∀ e' acquired x b, p = .removing e' acquired → e ≠ .removed x b) ∨
      ∃ e' acquired b, p = .removing e' acquired ∧ e = .removed i b ∧
        v' = ⟨.idle, .idle, some .guard⟩ := by
  cases p <;> simp only [Fits, Asked] at h
  case state wk =>
    rcases h with rfl | rfl | rfl | rfl | rfl | rfl <;> cases hs <;>
      first
      | (simp [Fits, Asked]; done)
      | (rename_i h
         cases h <;> simp_all [Fits, Asked, HolderOp.ownAfter, HolderOp.updAfter, HolderOp.long])
  case cancel e' =>
    rcases h with rfl | rfl | rfl | rfl | rfl | rfl <;> cases hs <;>
      first
      | (simp [Fits, Asked]; done)
      | (rename_i h
         cases h <;> simp_all [Fits, Asked, HolderOp.ownAfter, HolderOp.updAfter, HolderOp.long])
  case enqueued wk st =>
    rcases h with rfl | rfl | rfl | rfl | rfl <;> cases hs <;> simp [Fits]
  case dropping e' =>
    rcases h with rfl | rfl | rfl | rfl | rfl <;> cases hs <;>
      first
      | (simp [Fits]; done)
      | (rename_i h
         cases h <;>
           simp_all [Fits, HolderOp.ownAfter, HolderOp.updAfter, HolderOp.long, QueueState.null])
  case removing e' acquired =>
    subst h
    cases hs
    rename_i h
    cases h <;> simp [Fits, HolderOp.ownAfter, HolderOp.updAfter]
  all_goals
    subst h
    cases hs
    try
      rename_i h
      cases h.runs

theorem AddOwner.own_runs (o : AddOwner) : o.own.runs = false := by cases o <;> rfl

/-- An instruction under the lock of a task that adds permits. -/
theorem AddPc.Fits.instr {p : AddPc W} {o : HolderOp ℕ} {op : Option (HolderOp ℕ)}
    (h : p.Fits (some o)) (hs : OpStep o e op) :
    (∀ x u, o.ownAfter e x = x ∧ o.updAfter u = u) ∧
      ((p.Fits op ∧ ∀ m ws x b, p = .set m ws → e ≠ .removed x b) ∨
        ∃ m ws x b, p = .set m ws ∧ e = .removed x b ∧ op = some .guard) := by
  cases p <;> simp only [Fits, Option.some.injEq, reduceCtorEq] at h
  case dequeued m ws =>
    rcases h with rfl | rfl | ⟨x, rfl⟩ <;> cases hs <;>
      simp_all [Fits, HolderOp.ownAfter, HolderOp.updAfter, HolderOp.long]
  case set m ws =>
    obtain ⟨x, rfl⟩ := h
    cases hs <;> simp [Fits, HolderOp.ownAfter, HolderOp.updAfter]
  case unlock b =>
    rcases h with rfl | ⟨x, rfl⟩ <;> cases hs <;>
      simp_all [Fits, HolderOp.ownAfter, HolderOp.updAfter, HolderOp.long]
  case failed f =>
    have hr := hs.runs
    cases f <;> simp only [Option.some.injEq] at h
    case assertion => simp [h, HolderOp.runs] at hr
    case dequeue => simp [h, HolderOp.runs] at hr
    all_goals
      obtain ⟨x, rfl⟩ := h
      simp [HolderOp.runs] at hr
  case requeue ws =>
    obtain ⟨x, rfl⟩ := h
    cases hs.runs
  case served m ws =>
    obtain ⟨x, rfl⟩ := h
    cases hs.runs
  all_goals
    subst h
    cases hs.runs

/-- An instruction of an operation of a `close`, up to its return. -/
theorem ClosePc.Fits.instr {p : ClosePc W} {s : Option ℕ} (h : p.Fits i v) (hs : InstrStep i s v e v') :
    p.Fits i v' ∧ (p = .ask → e ≠ .guarded i ∧ v'.upd ≠ .idle) ∨
      p = .ask ∧ e = .guarded i ∧ v' = ⟨.dead, .idle, some .guard⟩ ∨
      p = .ask ∧ e ≠ .guarded i ∧ v' = ⟨.dead, .idle, none⟩ := by
  cases p <;> simp only [Fits] at h
  case ask =>
    rcases h with rfl | rfl | rfl <;> cases hs <;>
      first
      | (simp [Fits]; done)
      | (rename_i h
         cases h <;> simp_all [Fits, HolderOp.ownAfter, HolderOp.updAfter, HolderOp.long])
  case forEach p =>
    obtain ⟨x, u, o⟩ := v
    obtain ⟨rfl, rfl, h⟩ := h
    obtain ⟨o₁, o₂, rfl, h₁, rfl⟩ := hs.holder_inv rfl rfl
    obtain ⟨h₂, h₃⟩ := h.instr h₁
    exact .inl ⟨⟨(h₃ _ .idle).1, (h₃ .dead _).2, h₂⟩, by simp⟩
  case unwound =>
    obtain ⟨d, ⟨b, rfl⟩ | rfl⟩ := h <;> cases hs <;> rename_i h <;> cases h <;>
      simp [Fits, HolderOp.ownAfter, HolderOp.updAfter, HolderOp.long] at *
  case closing =>
    rcases h with ⟨d, rfl⟩ | rfl <;> cases hs
    rename_i h
    cases h <;> simp [Fits, HolderOp.ownAfter, HolderOp.updAfter]
  case failed =>
    obtain ⟨d, b, rfl⟩ := h
    cases hs
    rename_i h
    cases h.runs
  all_goals
    subst h
    cases hs
    try
      rename_i h
      cases h.runs

/-- After an instruction the task is where its view says. -/
theorem Pc.Fits.instr {q : State ℕ (Waiter W)} {s : Option ℕ} (h : (w.pc i).Fits i (w.view i))
    (hs : InstrStep i s (w.view i) e v') (hq : (q.upd i).op = v'.upd) :
    (observe w i e q).1.Fits i v' := by
  have hidle : q.upd i = .idle ↔ v'.upd = .idle := by rw [← hq, UpdPc.op_eq_idle]
  unfold observe
  cases hp : w.pc i with
  | idle r =>
    rw [hp] at h
    rw [show w.view i = ⟨.dead, .idle, none⟩ from h] at hs
    cases hs
  | fetch c =>
    rw [hp] at h
    obtain ⟨m, s', hv⟩ := h
    rcases World.fetched_cases c.own_runs c.op_runs hv hs hq with ⟨hf, -, m', s'', rfl, -⟩ | ⟨r, hf, rfl, -⟩
    · simp only [hf]
      exact ⟨m', s'', rfl⟩
    · simp only [hf]
      cases r with
      | ok s => exact c.fits_ok s
      | error st => exact c.fits_err st
  | fut k p =>
    rw [hp] at h
    rcases FutPc.Fits.instr h hs with ⟨h', hne⟩ | ⟨e', acquired, b, rfl, rfl, rfl⟩
    · cases p <;> try exact h'
      case removing e' acquired =>
        cases e <;> try exact h'
        case removed x b => exact absurd rfl (hne e' acquired x b rfl)
    · cases b <;> rfl
  | add o p =>
    rw [hp] at h
    obtain ⟨h₁, h₂, h₃⟩ := h
    obtain ⟨o₁, o₂, ho, hs', rfl⟩ := hs.holder_inv (by rw [h₁]; exact o.own_runs) (by rw [h₂]; rfl)
    rw [ho] at h₃
    obtain ⟨h₄, h₅⟩ := h₃.instr hs'
    rw [h₁, h₂, (h₄ _ .idle).1, (h₄ .dead _).2]
    rcases h₅ with ⟨h₅, hne⟩ | ⟨m, ws, x, b, rfl, rfl, rfl⟩
    · cases p <;> try exact ⟨rfl, rfl, h₅⟩
      case set m ws =>
        cases e <;> try exact ⟨rfl, rfl, h₅⟩
        case removed x b => exact absurd rfl (hne m ws x b rfl)
    · dsimp only
      split
      · exact ⟨rfl, rfl, rfl⟩
      · split <;> exact ⟨rfl, rfl, rfl⟩
  | close p =>
    rw [hp] at h
    rcases ClosePc.Fits.instr h hs with ⟨h', hne⟩ | ⟨rfl, rfl, rfl⟩ | ⟨rfl, hne, rfl⟩
    · cases p <;> try exact h'
      case ask =>
        obtain ⟨he, hu⟩ := hne rfl
        rw [if_neg he, if_neg (mt hidle.1 hu)]
        exact h'
    · simp [Fits, ClosePc.Fits]
    · simp [hne, hidle.2 rfl, Fits]

/-! ## Calls -/

section Call

variable {s : Option ℕ} {raw : RawNodeState} {q : State ℕ (Waiter W)} {r : InstrOf W}
  {c : Call ℕ (Waiter W)} {k : Kind}

/-- The call of `fetch_update_state`. -/
theorem fits_fetch {g : Shared W} {c : FetchCont W}
    (hs : CallStep i s raw (.thread (.fetchUpdateState c.fn) : Call ℕ (Waiter W))
      ⟨c.own, .idle, c.op⟩ e v') (hq : (q.upd i).op = v'.upd) :
    ((fetch i g c).pc e q).Fits i v' := by
  cases hs
  case fetchUpdate s' h =>
    have hne : q.upd i ≠ .idle := fun h => by simp [h, UpdPc.op] at hq
    simpa [fetch, hne] using ⟨0, s', rfl⟩
  case fetchBlocked h =>
    have hidle : q.upd i = .idle := UpdPc.op_eq_idle.1 hq
    simpa [fetch, hidle] using c.fits_err none

/-- What a task that has called `state` has got. -/
theorem Asked.rests (h : Asked i v) (hr : v.Rests) :
    v = ⟨.unqueued, .idle, none⟩ ∨ v = ⟨.dequeued, .idle, none⟩ ∨
      v = ⟨.locked, .idle, some (.queued i)⟩ := by
  rcases h with rfl | rfl | rfl | rfl | rfl | rfl
  · exact .inl rfl
  · exact .inr (.inl rfl)
  · cases hr.own
  · cases hr.op rfl
  · exact .inr (.inr rfl)
  · cases hr.op rfl

/-- The call of `state`. -/
theorem asked_of_state (hs : CallStep i s raw (.state : Call ℕ (Waiter W)) ⟨.idle, .idle, none⟩ e v') :
    Asked i v' := by
  cases hs <;> simp [Asked]

/-- A call of a future. -/
theorem FutPc.Fits.call {p : FutPc W} (h : p.Fits i (w.view i))
    (hr : futNext willWake w i k p n = some r) (hk : r.call = some c) (hrest : (w.view i).Rests)
    (hv : CallStep i s raw c (w.view i) e v') (hq : (q.upd i).op = v'.upd) :
    (r.pc e q).Fits i v' := by
  have hown : (w.view i).own = (w.q.own i).op := rfl
  generalize hw : w.view i = v at *
  cases p <;> simp only [Fits] at h
  case created =>
    subst h
    cases n <;> simp only [futNext, reduceCtorEq] at hr <;> obtain rfl := Option.some.inj hr
    · obtain rfl := Option.some.inj hk
      exact fits_fetch hv hq
    · simp at hk
  case retry wk =>
    subst h
    obtain rfl := Option.some.inj hr
    obtain rfl := Option.some.inj hk
    exact fits_fetch hv hq
  case fresh wk =>
    subst h
    obtain rfl := Option.some.inj hr
    obtain rfl := Option.some.inj hk
    exact asked_of_state hv
  case suspended =>
    subst h
    cases n <;> simp only [futNext, reduceCtorEq] at hr <;> obtain rfl := Option.some.inj hr
    · obtain rfl := Option.some.inj hk
      exact asked_of_state hv
    · simp at hk
  case ready e' =>
    subst h
    simp only [futNext] at hr
    split at hr <;> obtain rfl := Option.some.inj hr <;> obtain rfl := Option.some.inj hk
    · exact asked_of_state hv
    · cases hv <;> simp [Pc.Fits, Fits]
  case state wk =>
    simp only [futNext] at hr
    repeat' split at hr
    all_goals first | contradiction | obtain rfl := Option.some.inj hr
    all_goals simp at hk
  case cancel e' =>
    simp only [futNext] at hr
    rcases h.rests hrest with rfl | rfl | rfl <;> cases ho : w.q.own i <;>
      simp only [ho, OwnPc.op, reduceCtorEq] at hown hr <;> obtain rfl := Option.some.inj hr <;>
      obtain rfl := Option.some.inj hk <;> cases hv
    · exact rfl
    · exact ⟨rfl, rfl, rfl⟩
    · rename_i hc
      cases hc
      exact rfl
  case failed wk st =>
    subst h
    simp only [futNext] at hr
    split at hr <;> obtain rfl := Option.some.inj hr <;> obtain rfl := Option.some.inj hk <;> cases hv <;>
      exact rfl
  case stored wk st =>
    subst h
    obtain rfl := Option.some.inj hr
    obtain rfl := Option.some.inj hk
    cases hv
    exact .inl rfl
  case queued wk b =>
    subst h
    simp only [futNext] at hr
    repeat' split at hr
    all_goals obtain rfl := Option.some.inj hr
    · simp at hk
    · simp at hk
    · obtain rfl := Option.some.inj hk
      cases hv
      rename_i hc
      cases hc
      exact rfl
  case refreshed e' =>
    subst h
    cases e' <;> obtain rfl := Option.some.inj hr <;> obtain rfl := Option.some.inj hk <;> cases hv <;>
      rename_i hc <;> cases hc <;> exact rfl
  case dequeued b =>
    subst h
    obtain rfl := Option.some.inj hr
    obtain rfl := Option.some.inj hk
    cases hv
    exact rfl
  case unlock e' acquired =>
    subst h
    obtain rfl := Option.some.inj hr
    obtain rfl := Option.some.inj hk
    cases hv
    rename_i hc
    cases hc
    exact ⟨rfl, rfl, rfl⟩
  case canceled e' =>
    subst h
    obtain rfl := Option.some.inj hr
    obtain rfl := Option.some.inj hk
    cases hv <;> simp [Pc.Fits, Fits]
  case node wk =>
    subst h
    obtain rfl := Option.some.inj hr
    obtain rfl := Option.some.inj hk
    cases hv
    exact rfl
  case got =>
    subst h
    obtain rfl := Option.some.inj hr
    obtain rfl := Option.some.inj hk
    cases hv
    exact rfl
  case removing e' acquired => simp [futNext] at hr
  all_goals
    simp only [futNext] at hr
    repeat' split at hr
    all_goals
      obtain rfl := Option.some.inj hr
      simp at hk

/-- A step of a future without a call. -/
theorem FutPc.Fits.own {p : FutPc W} (h : p.Fits i (w.view i))
    (hr : futNext willWake w i k p n = some r) (hk : r.call = none) (hrest : (w.view i).Rests) :
    (r.pc .tau q).Fits i (w.view i) := by
  have hown : (w.view i).own = (w.q.own i).op := rfl
  generalize hw : w.view i = v at *
  cases p <;> simp only [Fits] at h
  case created =>
    cases n <;> simp only [futNext, reduceCtorEq] at hr <;> obtain rfl := Option.some.inj hr
    · simp [fetch] at hk
    · exact h
  case suspended =>
    cases n <;> simp only [futNext, reduceCtorEq] at hr <;> obtain rfl := Option.some.inj hr
    · simp at hk
    · exact h
  case state wk =>
    simp only [futNext] at hr
    rcases h.rests hrest with rfl | rfl | rfl <;> cases ho : w.q.own i <;>
      simp only [ho, OwnPc.op, reduceCtorEq] at hown hr <;> obtain rfl := Option.some.inj hr <;>
      exact rfl
  case enqueued wk st =>
    have hv : v = ⟨.unqueued, .idle, none⟩ ∨ v = ⟨.idle, .idle, none⟩ := by
      rcases h with rfl | rfl | rfl | rfl | rfl
      · cases hrest.own
      · cases hrest.own
      · exact .inl rfl
      · cases hrest.own
      · exact .inr rfl
    simp only [futNext] at hr
    rcases hv with rfl | rfl <;> cases ho : w.q.own i <;>
      simp only [ho, OwnPc.op, reduceCtorEq] at hown hr <;> obtain rfl := Option.some.inj hr <;>
      exact rfl
  case queued wk b =>
    simp only [futNext] at hr
    repeat' split at hr
    all_goals obtain rfl := Option.some.inj hr
    · exact h
    · exact h
    · simp at hk
  case removed e' acquired =>
    simp only [futNext] at hr
    repeat' split at hr
    all_goals obtain rfl := Option.some.inj hr
    · exact h
    · subst h
      exact ⟨rfl, rfl, rfl⟩
    · exact h
  case dropping e' =>
    obtain rfl := Option.some.inj hr
    rcases h with rfl | rfl | rfl | rfl | rfl
    · cases hrest.own
    · exact rfl
    all_goals cases hrest.op rfl
  case removing e' acquired => simp [futNext] at hr
  all_goals
    simp only [futNext] at hr
    repeat' split at hr
    all_goals first | contradiction | obtain rfl := Option.some.inj hr
    all_goals simp [fetch] at hk

/-- What a task that has the lock holds it with. -/
theorem mutex_of_view {o : HolderOp ℕ} (h : (w.view i).op = some o) :
    ∃ p, w.q.mutex = some p ∧ p.op = o :=
  Option.map_eq_some_iff.1 (World.op_of_view h).2

/-- A call of a task that adds permits. -/
theorem AddPc.Fits.call {o : AddOwner} {p : AddPc W} (h₁ : (w.view i).own = o.own)
    (h₂ : (w.view i).upd = .idle) (h : p.Fits (w.view i).op) (hr : addNext w i o p = some r)
    (hk : r.call = some c) (hrest : (w.view i).Rests)
    (hv : CallStep i s raw c (w.view i) e v') (hq : (q.upd i).op = v'.upd) :
    (r.pc e q).Fits i v' := by
  have hheld : ∀ {b}, (w.view i).op = some b → ∃ p, w.q.mutex = some p ∧ p.op = b := mutex_of_view
  generalize w.view i = v at *
  obtain ⟨x, u, op⟩ := v
  obtain rfl : x = o.own := h₁
  obtain rfl : u = .idle := h₂
  cases p <;> simp only [Fits] at h
  case start again m =>
    subst h
    simp only [addNext] at hr
    split at hr <;> obtain rfl := Option.some.inj hr
    · simp at hk
    · obtain rfl := Option.some.inj hk
      exact fits_fetch (c := .add o again false m) hv hq
  case second again m =>
    subst h
    obtain rfl := Option.some.inj hr
    obtain rfl := Option.some.inj hk
    exact fits_fetch (c := .add o again true m) hv hq
  case lock again m =>
    subst h
    obtain rfl := Option.some.inj hr
    obtain rfl := Option.some.inj hk
    cases hv
    exact ⟨rfl, rfl, rfl⟩
  case take m ws =>
    subst h
    obtain rfl := Option.some.inj hr
    obtain rfl := Option.some.inj hk
    cases hv
    rename_i hc
    cases hc <;> exact ⟨rfl, rfl, by simp [Fits]⟩
  case dequeued m ws =>
    rcases h with rfl | rfl | ⟨y, rfl⟩
    · cases hrest.op rfl
    · obtain ⟨p, hm, hp⟩ := hheld rfl
      simp only [addNext, hm] at hr
      split at hr
      · obtain rfl := Option.some.inj hr
        simp at hk
      · rename_i hm'
        obtain rfl := Option.some.inj hm'
        simp [HolderPc.op] at hp
      · simp at hr
    · obtain ⟨p, hm, hp⟩ := hheld rfl
      simp only [addNext, hm] at hr
      split at hr
      · rename_i hm'
        obtain rfl := Option.some.inj hm'
        simp [HolderPc.op] at hp
      · rename_i z hm'
        split at hr <;> obtain rfl := Option.some.inj hr <;> obtain rfl := Option.some.inj hk <;>
          cases hv <;> rename_i hc <;> cases hc
        · exact ⟨rfl, rfl, y, rfl⟩
        · dsimp only
          split
          · exact ⟨rfl, rfl, y, rfl⟩
          · split <;> exact ⟨rfl, rfl, y, rfl⟩
      · simp at hr
  case requeue ws =>
    obtain ⟨y, rfl⟩ := h
    obtain rfl := Option.some.inj hr
    obtain rfl := Option.some.inj hk
    cases hv
    rename_i hc
    cases hc
    exact ⟨rfl, rfl, rfl⟩
  case served m ws =>
    obtain ⟨y, rfl⟩ := h
    simp only [addNext] at hr
    split at hr <;> obtain rfl := Option.some.inj hr
    · obtain rfl := Option.some.inj hk
      cases hv
      rename_i hc
      cases hc
      exact ⟨rfl, rfl, y, rfl⟩
    · simp at hk
  case set m ws => simp [addNext] at hr
  case full m ws =>
    subst h
    obtain rfl := Option.some.inj hr
    obtain rfl := Option.some.inj hk
    cases hv
    rename_i hc
    cases hc
    exact ⟨rfl, rfl, rfl⟩
  case done ws =>
    subst h
    obtain rfl := Option.some.inj hr
    obtain rfl := Option.some.inj hk
    cases hv
    rename_i hc
    cases hc
    exact ⟨rfl, rfl, rfl⟩
  case unlock b =>
    obtain rfl : op = some .guard := by
      rcases h with h | ⟨y, rfl⟩
      · exact h
      · cases hrest.op rfl
    obtain rfl := Option.some.inj hr
    obtain rfl := Option.some.inj hk
    cases hv
    rename_i hc
    cases hc
    cases o <;> exact rfl
  case failed f =>
    cases f <;> simp only at h <;> obtain rfl := Option.some.inj hr
    case assertion => simp at hk
    case dequeue => simp at hk
    all_goals
      obtain ⟨y, rfl⟩ := h
      obtain rfl := Option.some.inj hk
      cases hv
      rename_i hc
      cases hc
      exact ⟨rfl, rfl, by simp [Fits, QueueState.null]⟩
  case locked m =>
    obtain rfl := Option.some.inj hr
    simp at hk
  case batch m ws =>
    cases ws <;> obtain rfl := Option.some.inj hr <;> simp at hk
  case final ws =>
    cases ws <;> obtain rfl := Option.some.inj hr <;> simp at hk

/-- A step without a call of a task that adds permits. -/
theorem AddPc.Fits.own {o : AddOwner} {p : AddPc W} (h : (Pc.add o p : Pc W).Fits i (w.view i))
    (hr : addNext w i o p = some r) (hk : r.call = none) : (r.pc .tau q).Fits i (w.view i) := by
  have hheld : ∀ {b}, (w.view i).op = some b → ∃ p, w.q.mutex = some p ∧ p.op = b := mutex_of_view
  have hret : ∀ b, (w.view i).op = none → (o.ret b : Pc W).Fits i (w.view i) := fun b hn => by
    have hv : w.view i = ⟨o.own, .idle, none⟩ := by rw [← h.1, ← h.2.1, ← hn]
    rw [hv]
    cases o <;> exact rfl
  obtain ⟨h₁, h₂, h⟩ := h
  cases p <;> simp only [Fits] at h
  case start again m =>
    simp only [addNext] at hr
    split at hr <;> obtain rfl := Option.some.inj hr
    · exact hret _ h
    · simp [fetch] at hk
  case second again m =>
    obtain rfl := Option.some.inj hr
    simp [fetch] at hk
  case locked m =>
    obtain rfl := Option.some.inj hr
    dsimp only
    split <;> exact ⟨h₁, h₂, h⟩
  case dequeued m ws =>
    simp only [addNext] at hr
    split at hr
    · rename_i hm
      obtain rfl := Option.some.inj hr
      refine ⟨h₁, h₂, ?_⟩
      rcases h with h | h | ⟨y, h⟩
      · obtain ⟨p, hm', hp⟩ := hheld h
        obtain rfl := Option.some.inj (hm.symm.trans hm')
        simp [HolderPc.op] at hp
      · exact h
      · obtain ⟨p, hm', hp⟩ := hheld h
        obtain rfl := Option.some.inj (hm.symm.trans hm')
        simp [HolderPc.op] at hp
    · split at hr <;> obtain rfl := Option.some.inj hr <;> simp at hk
    · simp at hr
  case served m ws =>
    simp only [addNext] at hr
    split at hr <;> obtain rfl := Option.some.inj hr
    · simp at hk
    · exact ⟨h₁, h₂, h⟩
  case batch m ws =>
    cases ws <;> obtain rfl := Option.some.inj hr <;> exact ⟨h₁, h₂, h⟩
  case final ws =>
    cases ws <;> obtain rfl := Option.some.inj hr
    · exact hret _ h
    · exact ⟨h₁, h₂, h⟩
  case failed f =>
    cases f <;> simp only at h <;> obtain rfl := Option.some.inj hr
    case assertion => exact ⟨h₁, h₂, .inl h⟩
    case dequeue => exact ⟨h₁, h₂, .inl h⟩
    all_goals simp at hk
  case set m ws => simp [addNext] at hr
  all_goals
    obtain rfl := Option.some.inj hr
    simp at hk

/-- A call of a `close`. -/
theorem ClosePc.Fits.call {p : ClosePc W} (h : p.Fits i (w.view i))
    (hr : closeNext w p n = some r) (hk : r.call = some c) (hrest : (w.view i).Rests)
    (hv : CallStep i s raw c (w.view i) e v') : (r.pc e q).Fits i v' := by
  generalize w.view i = v at *
  cases p <;> simp only [Fits] at h
  case ask => simp [closeNext] at hr
  case drain =>
    subst h
    cases n <;> simp only [closeNext, reduceCtorEq] at hr
    obtain rfl := Option.some.inj hr
    obtain rfl := Option.some.inj hk
    cases hv
    rename_i hc
    cases hc <;> exact ⟨rfl, rfl, by simp [ForEachPc.Fits]⟩
  case forEach p =>
    obtain ⟨x, u, o⟩ := v
    obtain ⟨rfl, rfl, h⟩ := h
    simp only [closeNext] at hr
    obtain ⟨p', hp', h₁, h₂, h₃⟩ := h.call (c := q) hr hk hrest hv
    rw [hp']
    exact ⟨h₂, h₃, h₁⟩
  case final ws => cases ws <;> obtain rfl := Option.some.inj hr <;> simp at hk
  case failed =>
    obtain ⟨d, b, rfl⟩ := h
    obtain rfl := Option.some.inj hr
    obtain rfl := Option.some.inj hk
    cases hv
    rename_i hc
    cases hc
    exact ⟨d, .inl ⟨b, rfl⟩⟩
  case unwound =>
    obtain rfl := Option.some.inj hr
    obtain rfl := Option.some.inj hk
    obtain ⟨d, ⟨b, rfl⟩ | rfl⟩ := h
    · cases hrest.op rfl
    · cases hv
      rename_i hc
      cases hc
      exact .inl ⟨d, rfl⟩
  case closing =>
    obtain rfl := Option.some.inj hr
    simp at hk

/-- A `close` fails when it has a node in hand. -/
theorem next_failed {p : ForEachPc W} {g : Shared W} {q' : State ℕ (Waiter W)}
    (hr : p.next takeWaker (fun p => Pc.close (.forEach p)) (fun ws => .close (.final ws))
      (.close .failed) Shared.wake g q' = some r)
    (hf : r.pc e q = .close .failed) : ∃ d ws, p = .node d ws := by
  cases p <;> simp only [ForEachPc.next] at hr
  case node d ws => exact ⟨d, ws, rfl⟩
  case dropped d ws =>
    repeat' split at hr
    all_goals
      obtain rfl := Option.some.inj hr
      simp at hf
  case unlocked d ws =>
    cases ws <;> obtain rfl := Option.some.inj hr <;> simp at hf
  all_goals
    obtain rfl := Option.some.inj hr
    simp at hf

/-- A step without a call of a `close`. -/
theorem ClosePc.Fits.own {p : ClosePc W} (h : p.Fits i (w.view i)) (hr : closeNext w p n = some r)
    (hk : r.call = none) (hrest : (w.view i).Rests) : (r.pc .tau q).Fits i (w.view i) := by
  generalize w.view i = v at *
  cases p <;> simp only [Fits] at h
  case ask => simp [closeNext] at hr
  case drain =>
    cases n <;> simp only [closeNext, reduceCtorEq] at hr
    obtain rfl := Option.some.inj hr
    simp at hk
  case forEach p =>
    obtain ⟨x, u, o⟩ := v
    obtain ⟨rfl, rfl, h⟩ := h
    simp only [closeNext] at hr
    rcases h.own (c := q) hr hk hrest .tau with ⟨p', hp', h'⟩ | ⟨ws, hp', rfl⟩ |
      ⟨hp', -⟩ <;> rw [hp']
    · exact ⟨rfl, rfl, h'⟩
    · exact rfl
    · obtain ⟨d, ws, rfl⟩ := next_failed hr hp'
      obtain ⟨b, rfl⟩ := h
      exact ⟨d, b, rfl⟩
  case final ws =>
    cases ws <;> obtain rfl := Option.some.inj hr <;> exact h
  case closing =>
    obtain rfl := Option.some.inj hr
    rcases h with ⟨d, rfl⟩ | rfl
    · cases hrest.op rfl
    · exact rfl
  all_goals
    obtain rfl := Option.some.inj hr
    simp at hk

/-- A step without a call at the start of a call. -/
theorem start_own (hr : start w i n = some r) (hk : r.call = none) (h : w.view i = ⟨.dead, .idle, none⟩) :
    (r.pc .tau q).Fits i (w.view i) := by
  unfold start permitNext at hr
  repeat' split at hr
  all_goals
    first
    | contradiction
    | obtain rfl := Option.some.inj hr
    | obtain ⟨m, -, rfl⟩ := Option.map_eq_some_iff.1 hr
  all_goals
    first
    | (simp [fetch] at hk; done)
    | exact h
    | (rw [h]; exact ⟨rfl, rfl, rfl⟩)
    | (split <;> exact h)

/-- A call at the start of a call. -/
theorem start_call (hr : start w i n = some r) (hk : r.call = some c)
    (hv : CallStep i s raw c ⟨.dead, .idle, none⟩ e v') (hq : (q.upd i).op = v'.upd) :
    (r.pc e q).Fits i v' := by
  unfold start permitNext at hr
  repeat' split at hr
  all_goals
    first
    | contradiction
    | obtain rfl := Option.some.inj hr
    | obtain ⟨m, -, rfl⟩ := Option.map_eq_some_iff.1 hr
  all_goals
    first
    | (simp at hk; done)
    | (obtain rfl := Option.some.inj hk
       exact fits_fetch hv hq)
    | (obtain rfl := Option.some.inj hk
       cases hv
       exact .inl rfl)
    | (split at hk <;> simp at hk)

end Call

/-- Every step keeps the tasks where their views say. -/
theorem Control.step (h : Control w) (hm : (semaphore willWake).Moves cfg a w i n w' e) :
    Control w' := by
  have hi := h i
  refine Client.Moves.views (F := fun i (p : Pc W) v => p.Fits i v) (fun j => h j) hm
    (fun q' hv => Pc.Fits.instr hi hv rfl) (fun r k q' hr hk hrest hv => ?_) fun r hr hk hrest => ?_
  · simp only [semaphore, next] at hr
    cases hp : w.pc i <;> rw [hp] at hi <;> simp only [hp, reduceCtorEq] at hr
    case idle r' =>
      rw [show w.view i = ⟨.dead, .idle, none⟩ from hi] at hv
      exact start_call hr hk hv rfl
    case fut k' p => exact FutPc.Fits.call hi hr hk hrest hv rfl
    case add o p => exact AddPc.Fits.call hi.1 hi.2.1 hi.2.2 hr hk hrest hv rfl
    case close p => exact ClosePc.Fits.call hi hr hk hrest hv
  · simp only [semaphore, next] at hr
    cases hp : w.pc i <;> rw [hp] at hi <;> simp only [hp, reduceCtorEq] at hr
    case idle r' => exact start_own hr hk hi
    case fut k' p => exact FutPc.Fits.own hi hr hk hrest
    case add o p => exact AddPc.Fits.own hi hr hk
    case close p => exact ClosePc.Fits.own hi hr hk hrest

end Aiq.Semaphore
