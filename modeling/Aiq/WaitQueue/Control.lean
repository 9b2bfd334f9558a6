import Aiq.WaitQueue.Model

/-!
# Where the tasks of a `WaitQueue` are

At every control state of its program a task has a view of the queue that fits (`Pc.Fits`): a future
that is not polled has no operation under way, a call that is about to take a waiter holds the lock,
and so on. This holds in every reachable state (`Control.step`).
-/

namespace Aiq.WaitQueue

variable {W : Type} {willWake : W → W → Bool} {cfg : Config} {a : Abs ℕ} {w w' : WorldOf W}
  {i j : TaskId} {e : Event ℕ} {n : Input W} {v v' : View ℕ}

/-- The view of a task whose future is at the control state. -/
def FutPc.Fits (i : TaskId) : FutPc W → View ℕ → Prop
  | .idle _, v | .first _, v | .ifPredicate _ _, v | .second _ _ _, v => v = ⟨.idle, .idle, none⟩
  | .state _, v => v = ⟨.unqueued, .idle, none⟩ ∨ v = ⟨.dequeued, .idle, none⟩ ∨
      v = ⟨.resetting, .idle, none⟩ ∨ v = ⟨.waitState, .idle, none⟩ ∨
      v = ⟨.locked, .idle, some (.checking i)⟩ ∨ v = ⟨.locked, .idle, some (.queued i)⟩ ∨
      v = ⟨.locked, .idle, some (.releasing (.state i))⟩
  | .stored _ _, v => v = ⟨.unqueued, .idle, none⟩
  | .enqueued _ _, v => v = ⟨.inserting (.ofBool matchEmpty), .idle, none⟩ ∨
      v = ⟨.refusing, .idle, none⟩ ∨ v = ⟨.unqueued, .idle, none⟩ ∨ v = ⟨.linking, .idle, none⟩ ∨
      v = ⟨.idle, .idle, none⟩
  | .refreshed _ _, v => v = ⟨.locked, .idle, some (.queued i)⟩
  | .dropping, v => v = ⟨.waitDrop, .idle, none⟩ ∨ v = ⟨.dead, .idle, none⟩ ∨
      v = ⟨.locked, .idle, some (.dropping i)⟩ ∨
      v = ⟨.locked, .idle, some (.removing i empty .nodeDrop)⟩ ∨
      v = ⟨.locked, .idle, some (.releasing (.node i))⟩

/-- The closure of the `fetch_update_state_or_lock` of a call. -/
def CallKind.update : CallKind → Option (UpdateFn ℕ)
  | .close => some (.ofTotal fun _ _ => closed)
  | _ => none

/-- The view of a task that asks for the lock. -/
def Asks (i : TaskId) (f : Option (UpdateFn ℕ)) (v : View ℕ) : Prop :=
  v = ⟨.dead, .asking f, none⟩ ∨ v = ⟨.dead, .deciding f, some (.upd i)⟩ ∨
    v = ⟨.dead, .releasing, some (.releasing (.thread i))⟩

/-- The view of a task whose call is at the control state. -/
def CallPc.Fits (i : TaskId) : CallPc W → View ℕ → Prop
  | .set, v | .batch _ _ _, v | .final _ _ false, v => v = ⟨.dead, .idle, none⟩
  | .ask k, v => Asks i k.update v
  | .relock _ _, v => Asks i none v
  | .take _ _, v | .drain _, v | .final _ _ true, v => v = ⟨.dead, .idle, some .guard⟩
  | .dequeued _ _, v => v = ⟨.dead, .idle, some .dequeuing⟩ ∨ v = ⟨.dead, .idle, some .guard⟩ ∨
      ∃ x, v = ⟨.dead, .idle, some (.handle x)⟩
  | .notified _ _, v | .taken _ _, v => ∃ x, v = ⟨.dead, .idle, some (.handle x)⟩
  | .dropped _ _, v => (∃ x, v = ⟨.dead, .idle, some (.removing x empty .handle)⟩) ∨
      v = ⟨.dead, .idle, some .guard⟩
  | .forEach k p, v => v.own = .dead ∧ v.upd = .idle ∧ p.Fits k.drainState v.op

/-- The view of a task at the control state. -/
def Pc.Fits (i : TaskId) : Pc W → View ℕ → Prop
  | .idle, v => v = ⟨.dead, .idle, none⟩
  | .fut _ p, v => p.Fits i v
  | .call p, v => p.Fits i v
  | .fault, _ => True

/-- Where `observe` goes on, seen from the view of the task. -/
def observed (i : TaskId) (p : Pc W) (e : Event ℕ) (v : View ℕ) (p' : Pc W) : Prop :=
  match p with
  | .call (.ask k) =>
    e = .guarded i ∧ p' = .call k.locked ∨
      e ≠ .guarded i ∧ (v.upd = .idle ∧ p' = .call (.final k [] false) ∨ v.upd ≠ .idle ∧ p' = p)
  | .call (.relock count n) =>
    e = .guarded i ∧ p' = .call (.take (.many count n) []) ∨
      e ≠ .guarded i ∧
        (v.upd = .idle ∧ p' = .call (.final (.notifyMany count) [] false) ∨ v.upd ≠ .idle ∧ p' = p)
  | p => p' = p

theorem observe_spec (q : State ℕ (Waiter W)) :
    observed i (w.pc i) e (q.view (nextLock w.lockedBy i q) i) (observe w i e q).1 ∧
      (observe w i e q).2 = w.shared := by
  have hidle : (q.upd i).op = .idle ↔ q.upd i = .idle := UpdPc.op_eq_idle
  unfold observe observed State.view
  split <;> grind

/-- An instruction of an operation of a future. -/
theorem FutPc.Fits.instr {p : FutPc W} {s : Option ℕ} (h : p.Fits i v) (hs : InstrStep i s v e v') :
    p.Fits i v' := by
  cases p <;> simp only [Fits] at h
  case state wk =>
    rcases h with rfl | rfl | rfl | rfl | rfl | rfl | rfl <;> cases hs <;>
      first
      | (simp [Fits]; done)
      | (rename_i h
         cases h <;> simp_all [Fits, HolderOp.ownAfter, HolderOp.updAfter, HolderOp.long])
  case enqueued wk n =>
    rcases h with rfl | rfl | rfl | rfl | rfl <;> cases hs <;> simp [Fits]
  case dropping =>
    rcases h with rfl | rfl | rfl | rfl | rfl <;> cases hs <;>
      first
      | (simp [Fits]; done)
      | (rename_i h
         cases h <;>
           simp_all [Fits, HolderOp.ownAfter, HolderOp.updAfter, HolderOp.long, QueueState.null, empty])
  case refreshed wk n =>
    subst h
    cases hs
    rename_i h
    cases h
    simp [HolderOp.long] at *
  all_goals
    subst h
    cases hs

theorem Asks.instr {f : Option (UpdateFn ℕ)} {s : Option ℕ} (h : Asks i f v)
    (hs : InstrStep i s v e v') :
    e ≠ .guarded i ∧ (v'.upd ≠ .idle ∧ Asks i f v' ∨ v' = ⟨.dead, .idle, none⟩) ∨
      e = .guarded i ∧ v' = ⟨.dead, .idle, some .guard⟩ := by
  rcases h with rfl | rfl | rfl <;> cases hs <;>
    first
    | (simp [Asks]; done)
    | (rename_i h
       cases h <;> simp_all [Asks, HolderOp.ownAfter, HolderOp.updAfter, HolderOp.long])

/-- An `is_empty_or_lock` returns without the lock when it finds the queue empty. -/
theorem Asks.passed {s : Option ℕ} (h : Asks i none v) (hs : InstrStep i s v e v')
    (hv : v'.upd = .releasing ∨ e ≠ .guarded i ∧ v'.upd = .idle) :
    v.upd = .releasing ∨ s ≠ none ∧ e = .tau := by
  rcases h with rfl | rfl | rfl
  · cases hs <;> simp at hv
  · cases hs
    case empty h => exact .inr ⟨h, rfl⟩
    case guarded => simp at hv
    case decide => simp at hv
    case holder h =>
      cases h
      simp [HolderOp.long] at *
  · exact .inl rfl

/-- An instruction of an operation of a call. -/
theorem CallPc.Fits.instr {p : CallPc W} {p' : Pc W} {s : Option ℕ} (h : p.Fits i v)
    (hs : InstrStep i s v e v') (ho : observed i (.call p) e v' p') : p'.Fits i v' := by
  have hstay : ∀ {o : HolderOp ℕ}, v = ⟨.dead, .idle, some o⟩ → o.runs = false → False := by
    rintro o rfl hr
    obtain ⟨o₁, o₂, h₁, h₂, -⟩ := hs.holder_inv rfl rfl
    obtain rfl := Option.some.inj h₁
    cases h₂ <;> simp_all [HolderOp.runs, HolderOp.long]
    cases o <;> simp_all
  cases p <;> simp only [Fits] at h <;> simp only [observed] at ho
  case ask k =>
    rcases h.instr hs with ⟨hne, h'⟩ | ⟨rfl, rfl⟩
    · rcases ho with ⟨he, -⟩ | ⟨-, ⟨hu, rfl⟩ | ⟨hu, rfl⟩⟩
      · exact absurd he hne
      · exact (h'.resolve_left fun h => h.1 hu)
      · exact (h'.resolve_right fun h => hu (by rw [h])).2
    · obtain ⟨-, rfl⟩ : True ∧ p' = .call k.locked := by simpa using ho
      cases k <;> exact rfl
  case relock c m =>
    rcases h.instr hs with ⟨hne, h'⟩ | ⟨rfl, rfl⟩
    · rcases ho with ⟨he, -⟩ | ⟨-, ⟨hu, rfl⟩ | ⟨hu, rfl⟩⟩
      · exact absurd he hne
      · exact (h'.resolve_left fun h => h.1 hu)
      · exact (h'.resolve_right fun h => hu (by rw [h])).2
    · obtain ⟨-, rfl⟩ : True ∧ p' = .call (.take (.many c m) []) := by simpa using ho
      exact rfl
  case dequeued r ws =>
    subst ho
    rcases h with rfl | h | ⟨x, h⟩
    · cases hs
      rename_i h
      cases h <;> simp [Pc.Fits, Fits, HolderOp.ownAfter, HolderOp.updAfter]
    · exact (hstay h rfl).elim
    · exact (hstay h rfl).elim
  case dropped r ws =>
    subst ho
    rcases h with ⟨x, rfl⟩ | h
    · cases hs
      rename_i h
      cases h <;> simp [Pc.Fits, Fits, HolderOp.ownAfter, HolderOp.updAfter]
    · exact (hstay h rfl).elim
  case forEach k p =>
    subst ho
    obtain ⟨x, u, o⟩ := v
    obtain ⟨rfl, rfl, h⟩ := h
    obtain ⟨o₁, o₂, rfl, h₁, rfl⟩ := hs.holder_inv rfl rfl
    obtain ⟨h₂, h₃⟩ := h.instr h₁
    exact ⟨(h₃ _ .idle).1, (h₃ .dead _).2, h₂⟩
  case final k ws b =>
    subst ho
    cases b
    · subst h
      cases hs
    · exact (hstay h rfl).elim
  case notified r ws =>
    obtain ⟨x, h⟩ := h
    exact (hstay h rfl).elim
  case taken r ws =>
    obtain ⟨x, h⟩ := h
    exact (hstay h rfl).elim
  case take r ws => exact (hstay h rfl).elim
  case drain k => exact (hstay h rfl).elim
  all_goals
    subst h
    cases hs

/-- A call of a future. -/
theorem FutPc.Fits.call {k : Kind} {p : FutPc W} {r : InstrOf W} {c : Call ℕ (Waiter W)}
    {s : Option ℕ} {raw : RawNodeState} {q : State ℕ (Waiter W)} (h : p.Fits i (w.view i))
    (hr : futNext willWake w i k p n = some r) (hk : r.call = some c) (hrest : (w.view i).Rests)
    (hv : CallStep i s raw c (w.view i) e v') : (r.pc e q).Fits i v' := by
  have hown : (w.view i).own = (w.q.own i).op := rfl
  have hpend : ∀ wk m, (Pc.fut k (k.pending wk m) : Pc W).Fits i ⟨.idle, .idle, none⟩ := by
    intro wk m
    unfold Kind.pending
    split <;> rfl
  have hready : ∀ wk m, (Pc.fut k (k.ready wk m) : Pc W).Fits i ⟨.idle, .idle, none⟩ := by
    intro wk m
    unfold Kind.ready
    split <;> rfl
  generalize hw : w.view i = v at *
  cases p <;> simp only [Fits] at h
  case idle r' =>
    subst h
    cases n <;> simp only [futNext, reduceCtorEq] at hr
    case poll wk =>
      cases k <;> obtain rfl := Option.some.inj hr <;> simp only [reduceCtorEq, Option.some.injEq] at hk
        <;> subst hk <;> cases hv <;> simp [Pc.Fits, Fits]
    case drop =>
      obtain rfl := Option.some.inj hr
      obtain rfl := Option.some.inj hk
      cases hv <;> simp [Pc.Fits, Fits]
  case first wk =>
    subst h
    cases n <;> simp only [futNext, reduceCtorEq] at hr
    split at hr <;> obtain rfl := Option.some.inj hr
    · simp at hk
    · obtain rfl := Option.some.inj hk
      cases hv <;> simp [Pc.Fits, Fits]
  case state wk =>
    simp only [futNext] at hr
    split at hr
    · rename_i ho
      obtain rfl := Option.some.inj hr
      obtain rfl := Option.some.inj hk
      rcases h with rfl | rfl | rfl | rfl | rfl | rfl | rfl <;> simp [ho, OwnPc.op] at hown
      cases hv
      exact rfl
    · rename_i ho
      have hv' : v = ⟨.dequeued, .idle, none⟩ := by
        rcases h with rfl | rfl | rfl | rfl | rfl | rfl | rfl <;> simp [ho, OwnPc.op] at hown ⊢
      subst hv'
      split at hr <;> obtain rfl := Option.some.inj hr <;> obtain rfl := Option.some.inj hk <;> cases hv
      · simp [Pc.Fits, Fits]
      · exact hready ..
    · rename_i ho
      obtain rfl := Option.some.inj hr
      obtain rfl := Option.some.inj hk
      have hv' : v = ⟨.locked, .idle, some (.queued i)⟩ := by
        rcases h with rfl | rfl | rfl | rfl | rfl | rfl | rfl <;> simp [ho, OwnPc.op] at hown ⊢ <;>
          simpa [HolderOp.runs] using hrest.op rfl
      subst hv'
      cases hv
      rename_i hc
      cases hc
      exact rfl
    · simp at hr
  case stored wk m =>
    subst h
    obtain rfl := Option.some.inj hr
    obtain rfl := Option.some.inj hk
    cases hv
    simp [Pc.Fits, Fits]
  case enqueued wk m =>
    simp only [futNext] at hr
    split at hr <;> obtain rfl := Option.some.inj hr
    · rename_i ho
      obtain rfl := Option.some.inj hk
      rcases h with rfl | rfl | rfl | rfl | rfl <;> simp [ho, OwnPc.op] at hown
      cases hv
      exact hready ..
    · simp at hk
  case refreshed wk m =>
    subst h
    obtain rfl := Option.some.inj hr
    obtain rfl := Option.some.inj hk
    cases hv
    rename_i hc
    cases hc
    exact hpend ..
  case ifPredicate wk m =>
    cases n <;> simp only [futNext, reduceCtorEq] at hr
    obtain rfl := Option.some.inj hr
    simp at hk
  case second wk m b =>
    cases n <;> simp only [futNext, reduceCtorEq] at hr
    obtain rfl := Option.some.inj hr
    simp at hk
  case dropping =>
    obtain rfl := Option.some.inj hr
    simp at hk

/-- A step of a future without a call. -/
theorem FutPc.Fits.own {k : Kind} {p : FutPc W} {r : InstrOf W} {q : State ℕ (Waiter W)}
    (h : p.Fits i (w.view i)) (hr : futNext willWake w i k p n = some r) (hk : r.call = none)
    (hrest : (w.view i).Rests) (e : Event ℕ) : (r.pc e q).Fits i (w.view i) := by
  have hown : (w.view i).own = (w.q.own i).op := rfl
  generalize hw : w.view i = v at *
  cases p <;> simp only [Fits] at h
  case idle r' =>
    cases n <;> simp only [futNext, reduceCtorEq] at hr
    case poll wk =>
      cases k <;> obtain rfl := Option.some.inj hr <;> simp only [reduceCtorEq] at hk
      exact h
    case drop =>
      obtain rfl := Option.some.inj hr
      simp at hk
  case first wk =>
    cases n <;> simp only [futNext, reduceCtorEq] at hr
    split at hr <;> obtain rfl := Option.some.inj hr
    · exact h
    · simp at hk
  case state wk =>
    simp only [futNext] at hr
    repeat' split at hr
    all_goals first | (obtain rfl := Option.some.inj hr; simp at hk) | simp at hr
  case stored wk m =>
    obtain rfl := Option.some.inj hr
    simp at hk
  case enqueued wk m =>
    simp only [futNext] at hr
    split at hr <;> obtain rfl := Option.some.inj hr
    · simp at hk
    · rename_i ho
      have hv : v = ⟨.idle, .idle, none⟩ := by
        rcases h with rfl | rfl | rfl | rfl | rfl
        · simpa [OwnOp.runs] using hrest.own
        · simpa [OwnOp.runs] using hrest.own
        · cases hq : w.q.own i <;> simp_all [OwnPc.op]
        · simpa [OwnOp.runs] using hrest.own
        · rfl
      subst hv
      unfold Kind.pending
      dsimp only
      split <;> rfl
  case refreshed wk m =>
    obtain rfl := Option.some.inj hr
    simp at hk
  case ifPredicate wk m =>
    cases n <;> simp only [futNext, reduceCtorEq] at hr
    obtain rfl := Option.some.inj hr
    exact h
  case second wk m b =>
    cases n <;> simp only [futNext, reduceCtorEq] at hr
    obtain rfl := Option.some.inj hr
    exact h
  case dropping =>
    obtain rfl := Option.some.inj hr
    rcases h with rfl | rfl | rfl | rfl | rfl
    · simpa [OwnOp.runs] using hrest.own
    · rfl
    all_goals simpa [HolderOp.runs] using hrest.op rfl

/-- A call made by a call. -/
theorem CallPc.Fits.call {p : CallPc W} {r : InstrOf W} {c : Call ℕ (Waiter W)} {s : Option ℕ}
    {raw : RawNodeState} {q : State ℕ (Waiter W)} (h : p.Fits i (w.view i))
    (hr : callNext w i p n = some r) (hk : r.call = some c) (hrest : (w.view i).Rests)
    (hq : (q.upd i).op = v'.upd) (hv : CallStep i s raw c (w.view i) e v') :
    (r.pc e q).Fits i v' := by
  have hidle : (q.upd i).op = .idle ↔ q.upd i = .idle := UpdPc.op_eq_idle
  generalize hw : w.view i = v at *
  cases p <;> simp only [Fits] at h
  case set =>
    subst h
    obtain rfl := Option.some.inj hr
    obtain rfl := Option.some.inj hk
    cases hv
    · have : q.upd i = .idle := hidle.1 hq
      simp [this, Pc.Fits, Fits]
    · have : q.upd i ≠ .idle := fun h => by simp [h, UpdPc.op] at hq
      simp [this, Pc.Fits, Fits, Asks, CallKind.update]
  case ask k => simp [callNext] at hr
  case relock c m => simp [callNext] at hr
  case take r' ws =>
    subst h
    have hop : ∀ {k' : HolderCall ℕ (Waiter W)} {o}, k' = .dequeue ∨ k' = .pop →
        HolderCallStep s k' .guard e o → (⟨.dead, .idle, o⟩ : View ℕ) = v' →
        ∀ r', (Pc.call (.dequeued r' ws) : Pc W).Fits i v' := by
      rintro k' o (rfl | rfl) hc rfl r' <;> cases hc <;> simp [Pc.Fits, Fits]
    cases r' with
    | one =>
      obtain rfl := Option.some.inj hr
      obtain rfl := Option.some.inj hk
      cases hv
      rename_i hc
      exact hop (.inl rfl) hc rfl _
    | last =>
      obtain rfl := Option.some.inj hr
      obtain rfl := Option.some.inj hk
      cases hv
      rename_i hc
      exact hop (.inr rfl) hc rfl _
    | many c m =>
      cases m with
      | zero =>
        obtain rfl := Option.some.inj hr
        simp at hk
      | succ m =>
        obtain rfl := Option.some.inj hr
        obtain rfl := Option.some.inj hk
        cases hv
        rename_i hc
        exact hop (.inl rfl) hc rfl _
  case dequeued r' ws =>
    have hop : (w.q.mutex.map HolderPc.op) = v.op := by
      have hl : w.lockedBy = some i := by
        by_contra hl
        have : v.op = none := by rw [← hw]; simp [World.view, State.view, heldOp, hl]
        rcases h with rfl | rfl | ⟨x, rfl⟩ <;> simp at this
      rw [← hw]
      simp [World.view, State.view, heldOp, hl, State.op]
    simp only [callNext] at hr
    split at hr
    · rename_i hm
      have hv' : v = ⟨.dead, .idle, some .guard⟩ := by
        rcases h with rfl | rfl | ⟨x, rfl⟩ <;> simp [hm, HolderPc.op] at hop ⊢
      subst hv'
      split at hr <;> obtain rfl := Option.some.inj hr
      · obtain rfl := Option.some.inj hk
        cases hv
        rename_i hc
        cases hc
        exact rfl
      · simp at hk
    · obtain rfl := Option.some.inj hr
      obtain rfl := Option.some.inj hk
      rcases h with rfl | rfl | ⟨x, rfl⟩ <;> cases hv <;> rename_i hc <;> cases hc
      exact ⟨x, rfl⟩
  case notified r' ws =>
    obtain ⟨x, rfl⟩ := h
    simp only [callNext] at hr
    split at hr
    all_goals
      first
      | simp at hr
      | (split at hr <;> obtain rfl := Option.some.inj hr
         · obtain rfl := Option.some.inj hk
           cases hv
           rename_i hc
           cases hc
           exact ⟨x, rfl⟩
         · simp at hk)
  case taken r' ws =>
    obtain ⟨x, rfl⟩ := h
    obtain rfl := Option.some.inj hr
    obtain rfl := Option.some.inj hk
    cases hv
    rename_i hc
    cases hc
    exact .inl ⟨x, rfl⟩
  case dropped r' ws =>
    have hv' : v = ⟨.dead, .idle, some .guard⟩ := by
      rcases h with ⟨x, rfl⟩ | h
      · simpa [HolderOp.runs] using hrest.op rfl
      · exact h
    subst hv'
    simp only [callNext] at hr
    cases r' <;> simp only at hr
    case many c m =>
      split at hr <;> obtain rfl := Option.some.inj hr
      · obtain rfl := Option.some.inj hk
        cases hv
        rename_i hc
        cases hc
        exact rfl
      · simp at hk
    all_goals
      obtain rfl := Option.some.inj hr
      obtain rfl := Option.some.inj hk
      cases hv
      rename_i hc
      cases hc
      exact rfl
  case batch c m ws =>
    subst h
    cases ws with
    | cons wk ws =>
      obtain rfl := Option.some.inj hr
      simp at hk
    | nil =>
      obtain rfl := Option.some.inj hr
      obtain rfl := Option.some.inj hk
      cases hv
      · have : q.upd i = .idle := hidle.1 hq
        simp [this, Pc.Fits, Fits]
      · have : q.upd i ≠ .idle := fun h => by simp [h, UpdPc.op] at hq
        simp [this, Pc.Fits, Fits, Asks]
  case drain k =>
    subst h
    cases n <;> simp only [callNext, reduceCtorEq] at hr
    obtain rfl := Option.some.inj hr
    obtain rfl := Option.some.inj hk
    cases hv
    rename_i hc
    cases hc <;> exact ⟨rfl, rfl, by simp [ForEachPc.Fits]⟩
  case forEach k p =>
    obtain ⟨x, u, o⟩ := v
    obtain ⟨rfl, rfl, h⟩ := h
    simp only [callNext] at hr
    obtain ⟨p', hp', h₁, h₂, h₃⟩ := h.call (c := q) hr hk hrest hv
    rw [hp']
    exact ⟨h₂, h₃, h₁⟩
  case final k ws b =>
    cases ws with
    | cons wk ws =>
      obtain rfl := Option.some.inj hr
      simp at hk
    | nil =>
      cases b <;> obtain rfl := Option.some.inj hr
      · simp at hk
      · obtain rfl := Option.some.inj hk
        subst h
        cases hv
        rename_i hc
        cases hc
        exact rfl

/-- A step of a call without a call on the queue. -/
theorem CallPc.Fits.own {p : CallPc W} {r : InstrOf W} {q : State ℕ (Waiter W)}
    (h : p.Fits i (w.view i)) (hr : callNext w i p n = some r) (hk : r.call = none)
    (hrest : (w.view i).Rests) (e : Event ℕ) : (r.pc e q).Fits i (w.view i) := by
  generalize hw : w.view i = v at *
  cases p <;> simp only [Fits] at h
  case ask k => simp [callNext] at hr
  case relock c m => simp [callNext] at hr
  case take r' ws =>
    cases r' with
    | many c m =>
      cases m with
      | zero =>
        obtain rfl := Option.some.inj hr
        exact h
      | succ m =>
        obtain rfl := Option.some.inj hr
        simp at hk
    | _ =>
      obtain rfl := Option.some.inj hr
      simp at hk
  case dequeued r' ws =>
    simp only [callNext] at hr
    repeat' split at hr
    all_goals
      obtain rfl := Option.some.inj hr
      trivial
  case notified r' ws =>
    simp only [callNext] at hr
    repeat' split at hr
    all_goals
      first
      | (obtain rfl := Option.some.inj hr
         trivial)
      | simp at hr
  case dropped r' ws =>
    have hv : v = ⟨.dead, .idle, some .guard⟩ := by
      rcases h with ⟨x, rfl⟩ | h
      · simpa [HolderOp.runs] using hrest.op rfl
      · exact h
    simp only [callNext] at hr
    repeat' split at hr
    all_goals
      obtain rfl := Option.some.inj hr
      first | exact hv | simp at hk
  case batch c m ws =>
    cases ws with
    | cons wk ws =>
      obtain rfl := Option.some.inj hr
      exact h
    | nil =>
      obtain rfl := Option.some.inj hr
      simp at hk
  case forEach k p =>
    obtain ⟨x, u, o⟩ := v
    obtain ⟨rfl, rfl, h⟩ := h
    simp only [callNext] at hr
    rcases h.own (c := q) hr hk hrest e with ⟨p', hp', h'⟩ | ⟨ws, hp', rfl⟩ | ⟨hp', -⟩ <;> rw [hp']
    · exact ⟨rfl, rfl, h'⟩
    · exact rfl
    · trivial
  case final k ws b =>
    cases ws with
    | cons wk ws =>
      obtain rfl := Option.some.inj hr
      cases b <;> exact h
    | nil =>
      cases b <;> obtain rfl := Option.some.inj hr
      · exact h
      · simp at hk
  case drain k =>
    cases n <;> simp only [callNext, reduceCtorEq] at hr
    obtain rfl := Option.some.inj hr
    simp at hk
  all_goals
    obtain rfl := Option.some.inj hr
    simp at hk

/-- Every task is where its view says. -/
def Control (w : WorldOf W) : Prop := ∀ i, (w.pc i).Fits i (w.view i)

theorem Control.init : Control (init : WorldOf W) := fun _ => rfl

/-- What a task without a future starts with. -/
theorem Pc.Fits.start {r : InstrOf W} {c : Call ℕ (Waiter W)} {s : Option ℕ} {raw : RawNodeState}
    {q : State ℕ (Waiter W)} (hp : w.pc i = .idle) (h : (w.pc i).Fits i (w.view i))
    (hr : next willWake w i n = some r) (hk : r.call = some c) (hq : (q.upd i).op = v'.upd)
    (hv : CallStep i s raw c (w.view i) e v') : (r.pc e q).Fits i v' := by
  have hidle : (q.upd i).op = .idle ↔ q.upd i = .idle := UpdPc.op_eq_idle
  rw [hp] at h
  have hw : w.view i = ⟨.dead, .idle, none⟩ := h
  rw [hw] at hv
  simp only [next, hp] at hr
  cases n <;> simp only [reduceCtorEq] at hr
  case create k =>
    obtain rfl := Option.some.inj hr
    obtain rfl := Option.some.inj hk
    cases hv
    exact rfl
  case call k =>
    obtain rfl := Option.some.inj hr
    by_cases hi : q.upd i = .idle
    · have hu : v'.upd = .idle := by rw [← hq, hi]; rfl
      cases k <;> simp only [WaitQueue.start, reduceCtorEq, Option.some.injEq] at hk <;> subst hk <;>
        cases hv <;> simp at hu <;> simp [WaitQueue.start, hi, Pc.Fits, CallPc.Fits]
    · have hu : v'.upd ≠ .idle := fun h => hi (hidle.1 (hq.trans h))
      cases k <;> simp only [WaitQueue.start, reduceCtorEq, Option.some.injEq] at hk <;> subst hk <;>
        cases hv <;> simp at hu <;>
        simp [WaitQueue.start, hi, Pc.Fits, CallPc.Fits, Asks, CallKind.update]

/-- Every step keeps the tasks where their views say. -/
theorem Control.step (h : Control w) (hm : (waitQueue willWake).Moves cfg a w i n w' e) :
    Control w' := by
  have hi := h i
  refine Client.Moves.views (F := fun i (p : Pc W) v => p.Fits i v) (fun j => h j) hm
    (fun q' hv => ?_) (fun r k q' hr hk hrest hv => ?_) fun r hr hk hrest => ?_
  · obtain ⟨ho, -⟩ := observe_spec (w := w) (i := i) (e := e) q'
    change (observe w i e q').1.Fits i _
    generalize w.pc i = p at hi ho
    cases p with
    | idle =>
      rw [show w.view i = ⟨.dead, .idle, none⟩ from hi] at hv
      cases hv
    | fut k p =>
      obtain ho : (observe w i e q').1 = .fut k p := ho
      rw [ho]
      exact FutPc.Fits.instr hi hv
    | call p => exact CallPc.Fits.instr hi hv ho
    | fault =>
      obtain ho : (observe w i e q').1 = .fault := ho
      rw [ho]
      trivial
  · cases hp : w.pc i with
    | idle => exact Pc.Fits.start hp hi hr hk rfl hv
    | fut k p =>
      rw [hp] at hi
      simp only [waitQueue, next, hp] at hr
      exact FutPc.Fits.call hi hr hk hrest hv
    | call p =>
      rw [hp] at hi
      simp only [waitQueue, next, hp] at hr
      exact CallPc.Fits.call hi hr hk hrest rfl hv
    | fault => simp [waitQueue, next, hp] at hr
  · cases hp : w.pc i with
    | idle =>
      rw [hp] at hi
      simp only [waitQueue, next, hp] at hr
      cases n <;> simp only [reduceCtorEq, Option.some.injEq] at hr
      case create k =>
        subst hr
        simp at hk
      case call k =>
        subst hr
        cases k <;> simp [start] at hk ⊢
        exact hi
    | fut k p =>
      rw [hp] at hi
      simp only [waitQueue, next, hp] at hr
      exact FutPc.Fits.own hi hr hk hrest _
    | call p =>
      rw [hp] at hi
      simp only [waitQueue, next, hp] at hr
      exact CallPc.Fits.own hi hr hk hrest _
    | fault => simp [waitQueue, next, hp] at hr

end Aiq.WaitQueue
