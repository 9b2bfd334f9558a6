import Aiq.WaitQueue.Close

/-!
# Wakers called under the lock

`notify_one`, `notify_last`, `notify_all` and `close` release the lock before they call a waker.
`notify_many` does so when its list of wakers is full and when the queue is empty, but not when it has
made all its notifications: the wakers that it has collected since the last full list are then called
while it still holds the lock. That happens if and only if the call dequeues its `count`-th waiter and
`count` is not a multiple of the capacity of the list (`CallPc.Batched`). Runs in which no call does that
call no waker under the lock (`wake_unlocked`).
-/

namespace Aiq.WaitQueue

variable {W : Type} {willWake : W → W → Bool} {cfg : Config} {a : Abs ℕ} {w w' : WorldOf W}
  {i j : TaskId} {e : Event ℕ} {n : Input W} {r : InstrOf W} {q : State ℕ (Waiter W)} {v v' : View ℕ}

/-- If the call is a `notify_many(count)` that is about to take the last of its `count` waiters, and
`count` is not a multiple of the capacity of the list of wakers, then the queue has a state `s`: it is
empty. -/
def Pc.runsOut : Pc W → Option ℕ → Bool
  | .call (.take (.many count 1) _), s => count % wakersCapacity = 0 || s.isSome
  | _, _ => true

/-- See `Pc.runsOut`. -/
def runsOut (w : WorldOf W) (i : TaskId) : Bool := (w.pc i).runsOut w.q.mem.queueState

/-! ## The lists of wakers -/

/-- The length of the list of wakers of a `notify_many(count)` with `n` notifications to go. When all
notifications are made, the list is empty. -/
def CallPc.Batched : CallPc W → View ℕ → Prop
  | .take (.many count n) ws, _ => ws.length < wakersCapacity ∧
      (n + ws.length) % wakersCapacity = count % wakersCapacity ∧ (n = 0 → ws = [])
  | .dequeued (.many count n) ws, v => ws.length < wakersCapacity ∧
      (n + 1 + ws.length) % wakersCapacity = count % wakersCapacity ∧
      (n = 0 → count % wakersCapacity ≠ 0 → v.op = some .guard)
  | .notified (.many count n) ws, _ => ws.length < wakersCapacity ∧
      (n + 1 + ws.length) % wakersCapacity = count % wakersCapacity ∧
      (n = 0 → count % wakersCapacity = 0)
  | .taken (.many count n) ws, _ | .dropped (.many count n) ws, _ => 1 ≤ ws.length ∧
      ws.length ≤ wakersCapacity ∧ (n + ws.length) % wakersCapacity = count % wakersCapacity ∧
      (n = 0 → count % wakersCapacity = 0)
  | .batch count n _, _ | .relock count n, _ => n % wakersCapacity = count % wakersCapacity
  | .final _ ws true, _ => ws = []
  | _, _ => True

theorem CallPc.Batched.of_ne {p : CallPc W} (h : p.Batched v) (v' : View ℕ)
    (hp : ∀ r ws, p ≠ .dequeued r ws) :
    p.Batched v' := by
  unfold Batched at h ⊢
  split <;> simp_all

/-- See `CallPc.Batched`. -/
def Pc.Batched : Pc W → View ℕ → Prop
  | .call p, v => p.Batched v
  | _, _ => True

/-- A call starts without wakers. -/
theorem next_start {p : CallPc W} (hr : next willWake w i n = some r) (hp : r.pc e q = .call p)
    (hne : ∀ p', w.pc i ≠ .call p') : p.Batched v := by
  have : p = .set ∨ (∃ k, p = .ask k) ∨ ∃ k, p = .final k [] false := by
    unfold next futNext callNext start ForEachPc.next at hr
    repeat' split at hr
    all_goals grind
  rcases this with rfl | ⟨k, rfl⟩ | ⟨k, rfl⟩ <;> trivial

/-- An instruction of a call. -/
theorem CallPc.Batched.instr {p : CallPc W} {p' : Pc W} {s : Option ℕ} (h : p.Batched v)
    (hf : p.Fits i v) (hs : InstrStep i s v e v') (ho : observed i (.call p) e v' p') :
    p'.Batched v' := by
  cases p <;> simp only [observed] at ho
  case ask k =>
    rcases ho with ⟨-, rfl⟩ | ⟨-, ⟨-, rfl⟩ | ⟨-, rfl⟩⟩
    · cases k <;> simp [CallKind.locked, Pc.Batched, Batched, wakersCapacity]
    · trivial
    · trivial
  case relock c m =>
    rcases ho with ⟨-, rfl⟩ | ⟨-, ⟨-, rfl⟩ | ⟨-, rfl⟩⟩
    · exact ⟨by simp [wakersCapacity], h, fun _ => rfl⟩
    · trivial
    · exact h
  case dequeued r ws =>
    subst ho
    cases r with
    | many c m =>
      obtain ⟨h₁, h₂, h₃⟩ := h
      refine ⟨h₁, h₂, fun hm hc => ?_⟩
      have hrun : v.own.runs = false ∧ v.upd.runs = false := by
        rcases hf with rfl | rfl | ⟨x, rfl⟩ <;> exact ⟨rfl, rfl⟩
      obtain ⟨o, o', hv, hop, -⟩ := hs.holder_inv hrun.1 hrun.2
      obtain rfl : o = .guard := Option.some.inj (hv.symm.trans (h₃ hm hc))
      cases hop
      simp [HolderOp.long] at *
    | _ => trivial
  all_goals
    subst ho
    exact Batched.of_ne h v' (by simp)

/-- A call on the queue that a call makes. -/
theorem CallPc.Batched.call {p : CallPc W} {c : Call ℕ (Waiter W)} {s : Option ℕ} {raw : RawNodeState}
    (h : p.Batched (w.view i)) (hp : w.pc i = .call p) (hr : callNext w i p n = some r)
    (hk : r.call = some c) (hout : runsOut w i = true) (hs : s = w.q.mem.queueState)
    (hv : CallStep i s raw c (w.view i) e v') : (r.pc e q).Batched v' := by
  cases p
  case take r' ws =>
    cases r' with
    | many c m =>
      cases m with
      | zero =>
        obtain rfl := Option.some.inj hr
        simp at hk
      | succ m =>
        obtain rfl := Option.some.inj hr
        obtain rfl := Option.some.inj hk
        obtain ⟨h₁, h₂, -⟩ := h
        refine ⟨h₁, h₂, ?_⟩
        rintro rfl hc
        have hne : w.q.mem.queueState ≠ none := by
          simp only [runsOut, hp, Pc.runsOut, hc, decide_false, Bool.false_or] at hout
          exact Option.isSome_iff_ne_none.1 hout
        obtain ⟨x, u, o, o', -, hcs, rfl⟩ := hv.holder_inv
        subst hs
        cases hcs
        · rfl
        · exact absurd ‹_› hne
    | _ =>
      obtain rfl := Option.some.inj hr
      trivial
  case dequeued r' ws =>
    simp only [callNext] at hr
    split at hr
    · split at hr <;> obtain rfl := Option.some.inj hr
      · trivial
      · simp at hk
    · rename_i hm
      obtain rfl := Option.some.inj hr
      cases r' with
      | many c m =>
        obtain ⟨h₁, h₂, h₃⟩ := h
        refine ⟨h₁, h₂, fun hm' => ?_⟩
        by_contra hc
        obtain ⟨-, hop⟩ := World.op_of_view (h₃ hm' hc)
        exact hm (State.mutex_of_op_guard hop)
      | _ => trivial
  case notified r' ws =>
    have key : ∀ wk, (CallPc.taken r' (ws ++ [wk])).Batched v' := by
      intro wk
      cases r' with
      | many c m =>
        obtain ⟨h₁, h₂, h₃⟩ := h
        simp only [Batched, List.length_append, List.length_singleton]
        exact ⟨by omega, by omega, by rw [← h₂]; congr 1; omega, h₃⟩
      | _ => trivial
    simp only [callNext] at hr
    repeat' split at hr
    all_goals
      first
      | (obtain rfl := Option.some.inj hr
         exact key _)
      | (obtain rfl := Option.some.inj hr
         trivial)
      | simp at hr
  case taken r' ws =>
    obtain rfl := Option.some.inj hr
    cases r' <;> exact h
  case dropped r' ws =>
    cases r' with
    | many c m =>
      simp only [callNext] at hr
      split at hr <;> obtain rfl := Option.some.inj hr
      · rename_i hl
        obtain ⟨-, -, h₃, -⟩ := h
        simpa [Pc.Batched, Batched, hl] using h₃
      · simp at hk
    | _ =>
      obtain rfl := Option.some.inj hr
      trivial
  case batch c m ws =>
    cases ws with
    | cons wk ws =>
      obtain rfl := Option.some.inj hr
      exact h
    | nil =>
      obtain rfl := Option.some.inj hr
      dsimp only
      split
      · trivial
      · exact h
  case forEach k p =>
    simp only [callNext] at hr
    rcases ForEachPc.next_pc (e := e) (c := q) hr with ⟨p', hp'⟩ | ⟨ws, hp'⟩ | hp' <;> rw [hp'] <;>
      trivial
  case final k ws b =>
    cases ws with
    | cons wk ws =>
      obtain rfl := Option.some.inj hr
      simp at hk
    | nil =>
      cases b <;> obtain rfl := Option.some.inj hr <;> trivial
  case drain k =>
    cases n <;> simp only [callNext, reduceCtorEq] at hr
    obtain rfl := Option.some.inj hr
    trivial
  case set =>
    obtain rfl := Option.some.inj hr
    dsimp only
    split <;> trivial
  case ask k => simp [callNext] at hr
  case relock c m => simp [callNext] at hr

/-- A step of a call without a call on the queue. -/
theorem CallPc.Batched.own {p : CallPc W} (h : p.Batched (w.view i)) (hr : callNext w i p n = some r)
    (hk : r.call = none) : (r.pc e q).Batched (w.view i) := by
  cases p
  case take r' ws =>
    cases r' with
    | many c m =>
      cases m with
      | zero =>
        obtain rfl := Option.some.inj hr
        exact h.2.2 rfl
      | succ m =>
        obtain rfl := Option.some.inj hr
        simp at hk
    | _ =>
      obtain rfl := Option.some.inj hr
      simp at hk
  case dropped r' ws =>
    cases r' with
    | many c m =>
      simp only [callNext] at hr
      split at hr <;> obtain rfl := Option.some.inj hr
      · simp at hk
      · rename_i hl
        obtain ⟨h₁, h₂, h₃, h₄⟩ := h
        refine ⟨by omega, h₃, fun hm => ?_⟩
        have hc := h₄ hm
        rw [hm] at h₃
        simp only [wakersCapacity] at *
        omega
    | _ =>
      obtain rfl := Option.some.inj hr
      simp at hk
  case batch c m ws =>
    cases ws with
    | cons wk ws =>
      obtain rfl := Option.some.inj hr
      exact h
    | nil =>
      obtain rfl := Option.some.inj hr
      simp at hk
  case forEach k p =>
    simp only [callNext] at hr
    rcases ForEachPc.next_pc (e := e) (c := q) hr with ⟨p', hp'⟩ | ⟨ws, hp'⟩ | hp' <;> rw [hp'] <;>
      trivial
  case final k ws b =>
    cases ws with
    | cons wk ws =>
      obtain rfl := Option.some.inj hr
      cases b
      · trivial
      · simp [Batched] at h
    | nil => cases b <;> obtain rfl := Option.some.inj hr <;> trivial
  case dequeued r' ws =>
    simp only [callNext] at hr
    repeat' split at hr
    all_goals
      obtain rfl := Option.some.inj hr
      trivial
  case notified r' ws =>
    simp only [callNext] at hr
    repeat' split at hr
    all_goals
      first
      | (obtain rfl := Option.some.inj hr
         trivial)
      | simp at hr
  case drain k =>
    cases n <;> simp only [callNext, reduceCtorEq] at hr
    obtain rfl := Option.some.inj hr
    simp at hk
  case ask k => simp [callNext] at hr
  case relock c m => simp [callNext] at hr
  all_goals
    obtain rfl := Option.some.inj hr
    simp at hk

/-- A step from a state that meets the condition keeps the lists of wakers. -/
theorem batched_step (h : ∀ j, (w.pc j).Batched (w.view j)) (hw : Reached cfg w a)
    (hout : runsOut w i = true) (hm : (waitQueue willWake).Moves cfg a w i n w' e) (j : TaskId) :
    (w'.pc j).Batched (w'.view j) := by
  have hi := h i
  have hf := hw.control i
  refine Client.Moves.views (F := fun _ (p : Pc W) v => p.Batched v) h hm
    (fun q' hv => ?_) (fun r k q' hr hk hrest hv => ?_) (fun r hr hk hrest => ?_) j
  · obtain ⟨ho, -⟩ := observe_spec (w := w) (i := i) (e := e) q'
    change (observe w i e q').1.Batched _
    generalize w.pc i = p at hi ho hf
    cases p with
    | call p => exact CallPc.Batched.instr hi hf hv ho
    | _ =>
      rw [show (observe w i e q').1 = _ from ho]
      trivial
  · by_cases hp : ∃ p, w.pc i = .call p
    · obtain ⟨p, hp⟩ := hp
      rw [hp] at hi
      simp only [waitQueue, next, hp] at hr
      exact CallPc.Batched.call hi hp hr hk hout rfl hv
    · cases hp' : r.pc e q' with
      | call p => exact next_start hr hp' (not_exists.1 hp)
      | _ => trivial
  · by_cases hp : ∃ p, w.pc i = .call p
    · obtain ⟨p, hp⟩ := hp
      rw [hp] at hi
      simp only [waitQueue, next, hp] at hr
      exact CallPc.Batched.own hi hr hk
    · cases hp' : r.pc .tau w.q with
      | call p => exact next_start hr hp' (not_exists.1 hp)
      | _ => trivial

/-! ## The calls of wakers -/

/-- Where a waker is called. -/
theorem next_wakes (hr : next willWake w i n = some r) (hne : r.shared.woken ≠ w.shared.woken) :
    (∃ c m ws, w.pc i = .call (.batch c m ws)) ∨ (∃ k d ws, w.pc i = .call (.forEach k (.unlocked d ws))) ∨
      ∃ k wk ws b, w.pc i = .call (.final k (wk :: ws) b) := by
  unfold next futNext callNext start ForEachPc.next at hr
  repeat' split at hr
  all_goals grind [CallKind.ret]

/-- A task that calls a waker does not have the lock. -/
theorem unlocked_of_wakes (h : (w.pc i).Batched (w.view i)) (hw : Reached cfg w a)
    (hm : (waitQueue willWake).Moves cfg a w i n w' e) (hne : w'.shared.woken ≠ w.shared.woken) :
    w.lockedBy ≠ some i := by
  refine hw.ok.lockedBy_ne ?_
  have hf := hw.control i
  have key : ∀ {r : InstrOf W}, next willWake w i n = some r → r.shared.woken ≠ w.shared.woken →
      (w.view i).Rests → (w.view i).op = none := by
    intro r hr hne hrest
    rcases next_wakes hr hne with ⟨c, m, ws, hp⟩ | ⟨k, d, ws, hp⟩ | ⟨k, wk, ws, b, hp⟩ <;> rw [hp] at hf h
    · exact congrArg View.op hf
    · rcases hf.2.2 with ho | ho
      · simpa [HolderOp.runs] using hrest.op ho
      · exact ho
    · cases b
      · exact congrArg View.op hf
      · simp [Pc.Batched, CallPc.Batched] at h
  cases hm.mover with
  | op hs hd hv hp hg =>
    refine absurd (congrArg Shared.woken ?_) hne
    rw [hg]
    exact (observe_spec (w := w) (i := i) (e := e) w'.q).2
  | call hr hk hrest hs hv hp hg => exact key hr (by rwa [← hg]) hrest
  | own hr hk hrest hq hv hp hg => exact key hr (by rwa [← hg]) hrest

variable {ls : List (TaskId × Bool × Input W)}

/-- **No waker is called under the lock**, in any run in which no `notify_many(count)` takes its `count`-th
waiter with `count` not a multiple of the capacity of its list of wakers. -/
theorem wake_unlocked {weak : Bool}
    (h : Lts.Run (fun w l w' => runsOut w l.1 = true ∧
      (waitQueue willWake).step cfg w l.1 l.2.1 l.2.2 = some w') init ls w)
    (hs : (waitQueue willWake).step cfg w i weak n = some w')
    (hne : w'.shared.woken ≠ w.shared.woken) : w.lockedBy ≠ some i := by
  obtain ⟨a, hw, hb⟩ : ∃ a, Reached cfg w a ∧ ∀ j, (w.pc j).Batched (w.view j) := by
    refine Lts.Run.prefixed (P := fun _ w => ∃ a, Reached cfg w a ∧ ∀ j, (w.pc j).Batched (w.view j)) h
      ⟨_, Reached.init, fun _ => trivial⟩ ?_
    rintro ks l w₁ w₂ - ⟨hout, hs⟩ ⟨a₁, hw₁, hb⟩
    obtain ⟨e, hm⟩ := Client.moves hw₁.ok hs
    exact ⟨_, hw₁.step hm, batched_step hb hw₁ hout hm⟩
  obtain ⟨e, hm⟩ := Client.moves hw.ok hs
  exact unlocked_of_wakes (hb i) hw hm hne

/-- A `Wait` is enqueued, and another task calls `notify_many(count)` and makes `m` steps. -/
def notifyManyActs (count m : ℕ) : List (TaskId × Bool × Input ℕ) :=
  pollActs 3 .wait 7 ++ (0, false, .call (.notifyMany count)) :: List.replicate m (0, false, .none)

theorem wake_unlocked_notifyManyActs :
    let w := (waitQueue fun _ _ => true).after ⟨.x86, 0⟩ init (notifyManyActs 2 14)
    (∃ w', (waitQueue fun _ _ => true).step ⟨.x86, 0⟩ w 0 false .none = some w' ∧
      w'.shared.woken = [7]) ∧ w.lockedBy ≠ some 0 := by
  intro w
  have h : (waitQueue fun _ _ => true).meets ⟨.x86, 0⟩ (fun w l => runsOut w l.1) init
      (notifyManyActs 2 14) = true := by decide +kernel
  have hs : ((waitQueue fun _ _ => true).step ⟨.x86, 0⟩ w 0 false .none).map (·.shared.woken) =
      some [7] := by decide +kernel
  obtain ⟨w', hs, hw'⟩ := Option.map_eq_some_iff.1 hs
  refine ⟨⟨w', hs, hw'⟩, wake_unlocked (Client.run_of_meets h) hs ?_⟩
  rw [hw']
  decide +kernel

/-- `notify_many(1)` on a queue of one waiter calls its waker under the lock. -/
theorem notifyMany_wakes_locked :
    ¬ ∀ (ls : List (TaskId × Bool × Input ℕ)) (w w' : WorldOf ℕ) (i : TaskId) (weak : Bool)
      (n : Input ℕ), (waitQueue fun _ _ => true).Runs ⟨.x86, 0⟩ init ls w →
      (waitQueue fun _ _ => true).step ⟨.x86, 0⟩ w i weak n = some w' →
      w'.shared.woken ≠ w.shared.woken → w.lockedBy ≠ some i := by
  intro hall
  have h : ((waitQueue fun _ _ => true).perform ⟨.x86, 0⟩ init (notifyManyActs 1 13)).isSome := by
    decide +kernel
  have hs : (((waitQueue fun _ _ => true).step ⟨.x86, 0⟩
      ((waitQueue fun _ _ => true).after ⟨.x86, 0⟩ init (notifyManyActs 1 13)) 0 false .none).map
      (·.shared.woken)) = some [7] := by decide +kernel
  obtain ⟨w', hs, hw'⟩ := Option.map_eq_some_iff.1 hs
  refine hall _ _ w' 0 false .none (Client.runs_after h) hs ?_ (by decide +kernel)
  rw [hw']
  decide +kernel

end Aiq.WaitQueue
