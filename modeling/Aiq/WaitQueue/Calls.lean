import Aiq.WaitQueue.Delivery

/-!
# What a call does

Every step of the program of a notifying call, with the call on the queue that it makes and the wakers that
it calls (`CallPc.Goes`).
-/

namespace Aiq.WaitQueue

variable {W : Type} {willWake : W → W → Bool} {cfg : Config} {a : Abs ℕ} {w w' : WorldOf W}
  {i j : TaskId} {e : Event ℕ} {n : Input W} {r : InstrOf W} {q : State ℕ (Waiter W)} {x : NodeId}
  {wk : W} {k : CallKind} {p : CallPc W} {ws : List W} {c m : ℕ} {d : DrainId}

/-- A step of the program of a call of the task `i` in `w`, with the event `e`, that leads to the queue
`q`: the call on the queue, the wakers that are called, and where the task goes on. -/
inductive CallPc.Goes (w : WorldOf W) (i : TaskId) (e : Event ℕ) (q : State ℕ (Waiter W)) :
    CallPc W → Option (Call ℕ (Waiter W)) → List W → Pc W → Prop
  | setEmpty (h : q.upd i = .idle) :
      Goes w i e q .set (some (.thread .isEmptyOrLock)) [] (.call (.final .setAll [] false))
  | set (h : q.upd i ≠ .idle) :
      Goes w i e q .set (some (.thread .isEmptyOrLock)) [] (.call (.ask .setAll))
  | pop (ws : List W) :
      Goes w i e q (.take .last ws) (some (.holder .pop)) [] (.call (.dequeued .last ws))
  | dequeue (ws : List W) :
      Goes w i e q (.take .one ws) (some (.holder .dequeue)) [] (.call (.dequeued .one ws))
  | last (c : ℕ) (ws : List W) :
      Goes w i e q (.take (.many c 0) ws) none [] (.call (.final (.notifyMany c) ws true))
  | more (c m : ℕ) (ws : List W) :
      Goes w i e q (.take (.many c (m + 1)) ws) (some (.holder .dequeue)) []
        (.call (.dequeued (.many c m) ws))
  | empty (c m : ℕ) (ws : List W) (h : w.q.mutex = some .guard) :
      Goes w i e q (.dequeued (.many c m) ws) (some (.holder .unlock)) []
        (.call (.final (.notifyMany c) ws false))
  | notify (r : Rest) (ws : List W) (h : w.q.mutex ≠ some .guard) :
      Goes w i e q (.dequeued r ws)
        (some (.holder (.withDataMut fun v => { v with notification := some r.notification }))) []
        (.call (.notified r ws))
  | takeWaker (r : Rest) (ws : List W) (x : NodeId) (wk : W) (hx : w.q.op.bind HolderOp.node = some x)
      (hw : (w.q.mem.data x).waker = some wk) :
      Goes w i e q (.notified r ws) (some (.holder (.withDataMut fun v => { v with waker := none }))) []
        (.call (.taken r (ws ++ [wk])))
  | drop (r : Rest) (ws : List W) :
      Goes w i e q (.taken r ws) (some (.holder .drop)) [] (.call (.dropped r ws))
  | full (c m : ℕ) (ws : List W) (h : ws.length = wakersCapacity) :
      Goes w i e q (.dropped (.many c m) ws) (some (.holder .unlock)) [] (.call (.batch c m ws))
  | loop (c m : ℕ) (ws : List W) (h : ws.length ≠ wakersCapacity) :
      Goes w i e q (.dropped (.many c m) ws) none [] (.call (.take (.many c m) ws))
  | one (ws : List W) :
      Goes w i e q (.dropped .one ws) (some (.holder .unlock)) [] (.call (.final .notifyOne ws false))
  | popped (ws : List W) :
      Goes w i e q (.dropped .last ws) (some (.holder .unlock)) [] (.call (.final .notifyLast ws false))
  | wake (c m : ℕ) (wk : W) (ws : List W) :
      Goes w i e q (.batch c m (wk :: ws)) none [wk] (.call (.batch c m ws))
  | relockEmpty (c m : ℕ) (h : q.upd i = .idle) :
      Goes w i e q (.batch c m []) (some (.thread .isEmptyOrLock)) []
        (.call (.final (.notifyMany c) [] false))
  | relock (c m : ℕ) (h : q.upd i ≠ .idle) :
      Goes w i e q (.batch c m []) (some (.thread .isEmptyOrLock)) [] (.call (.relock c m))
  | drain (k : CallKind) (d : DrainId) :
      Goes w i e q (.drain k) (some (.holder (.drain d k.drainState))) [] (.call (.forEach k (.head d [])))
  | nextNone (k : CallKind) (d : DrainId) (ws : List W) (h : e = .next d none) :
      Goes w i e q (.forEach k (.head d ws)) (some (.holder .next)) [] (.call (.forEach k (.done d ws)))
  | next (k : CallKind) (d : DrainId) (ws : List W) (h : e ≠ .next d none) :
      Goes w i e q (.forEach k (.head d ws)) (some (.holder .next)) [] (.call (.forEach k (.node d ws)))
  | onNext (k : CallKind) (d : DrainId) (ws : List W) (x : NodeId) (wk : W)
      (hx : w.q.op.bind HolderOp.node = some x) (hw : (w.q.mem.data x).waker = some wk) :
      Goes w i e q (.forEach k (.node d ws))
        (some (.holder (.withDataMut fun v => { v with waker := none }))) []
        (.call (.forEach k (.drop d (ws ++ [wk]))))
  | dropNode (k : CallKind) (d : DrainId) (ws : List W) :
      Goes w i e q (.forEach k (.drop d ws)) (some (.holder .drop)) [] (.call (.forEach k (.dropped d ws)))
  | emptied (k : CallKind) (d : DrainId) (ws : List W) (h : ws.length = wakersCapacity) :
      Goes w i e q (.forEach k (.dropped d ws)) none [] (.call (.forEach k (.done d ws)))
  | unlocked (k : CallKind) (d : DrainId) (ws : List W) (h : ws.length = wakersCapacity) :
      Goes w i e q (.forEach k (.dropped d ws)) (some (.holder .executeUnlocked)) []
        (.call (.forEach k (.unlocked d ws)))
  | forEach (k : CallKind) (d : DrainId) (ws : List W) (h : ws.length ≠ wakersCapacity) :
      Goes w i e q (.forEach k (.dropped d ws)) none [] (.call (.forEach k (.head d ws)))
  | onUnlock (k : CallKind) (d : DrainId) (wk : W) (ws : List W) :
      Goes w i e q (.forEach k (.unlocked d (wk :: ws))) none [wk] (.call (.forEach k (.unlocked d ws)))
  | drainReturn (k : CallKind) (d : DrainId) :
      Goes w i e q (.forEach k (.unlocked d [])) (some (.drainReturn d)) [] (.call (.forEach k (.relock d)))
  | drainLock (k : CallKind) (d : DrainId) :
      Goes w i e q (.forEach k (.relock d)) (some (.drainLock d)) [] (.call (.forEach k (.head d [])))
  | close (k : CallKind) (d : DrainId) (ws : List W) :
      Goes w i e q (.forEach k (.done d ws)) (some (.holder .dropDrain)) []
        (.call (.forEach k (.closing d ws)))
  | closed (k : CallKind) (d : DrainId) (ws : List W) :
      Goes w i e q (.forEach k (.closing d ws)) none [] (.call (.final k ws false))
  | wakeLast (k : CallKind) (wk : W) (ws : List W) (b : Bool) :
      Goes w i e q (.final k (wk :: ws) b) none [wk] (.call (.final k ws b))
  | unlock (k : CallKind) :
      Goes w i e q (.final k [] true) (some (.holder .unlock)) [] (.call (.final k [] false))
  | return (k : CallKind) : Goes w i e q (.final k [] false) none [] .idle

theorem forEachNext_goes {p : ForEachPc W}
    (hr : p.next takeWaker (fun p => .call (.forEach k p)) (fun ws => .call (.final k ws false)) .fault
      Shared.wake w.shared w.q = some r) (hf : r.pc e q ≠ .fault) :
    ∃ l, (CallPc.forEach k p).Goes w i e q r.call l (r.pc e q) ∧
      r.shared.woken = w.shared.woken ++ l := by
  cases p <;> simp only [ForEachPc.next] at hr
  case node d ws =>
    split at hr
    · rename_i hm
      split at hr <;> obtain rfl := Option.some.inj hr
      · exact absurd rfl hf
      · rename_i x hu
        obtain ⟨wk, hwk⟩ := Option.ne_none_iff_exists'.1 fun h => hu ⟨rfl, h⟩
        have hwk' : (w.q.mem.data x).waker = some wk := hwk
        refine ⟨[], ?_, by simp⟩
        simp only [hwk, Option.toList_some]
        exact .onNext k d ws x wk (by simp [State.op, hm, HolderPc.op, HolderOp.node]) hwk'
    · simp at hr
  case head d ws =>
    obtain rfl := Option.some.inj hr
    by_cases he : e = .next d none
    · exact ⟨[], by simpa [he] using .nextNone k d ws rfl, by simp⟩
    · exact ⟨[], by simpa [he] using .next k d ws he, by simp⟩
  case dropped d ws =>
    split at hr
    · split at hr <;> obtain rfl := Option.some.inj hr
      · exact ⟨[], .emptied k d ws ‹_›, by simp⟩
      · exact ⟨[], .unlocked k d ws ‹_›, by simp⟩
    · obtain rfl := Option.some.inj hr
      exact ⟨[], .forEach k d ws ‹_›, by simp⟩
  case unlocked d ws =>
    cases ws with
    | nil =>
      obtain rfl := Option.some.inj hr
      exact ⟨[], .drainReturn k d, by simp⟩
    | cons wk ws =>
      obtain rfl := Option.some.inj hr
      exact ⟨[wk], .onUnlock k d wk ws, rfl⟩
  all_goals
    obtain rfl := Option.some.inj hr
    exact ⟨[], by constructor, by simp⟩

/-- Every step of the program of a call is one of these. -/
theorem callNext_goes (hr : callNext w i p n = some r) (hf : r.pc e q ≠ .fault) :
    ∃ l, p.Goes w i e q r.call l (r.pc e q) ∧ r.shared.woken = w.shared.woken ++ l := by
  cases p <;> simp only [callNext, reduceCtorEq] at hr
  case forEach k p => exact forEachNext_goes hr hf
  case set =>
    obtain rfl := Option.some.inj hr
    by_cases h : q.upd i = .idle
    · exact ⟨[], by simpa [h] using .setEmpty h, by simp⟩
    · exact ⟨[], by simpa [h] using .set h, by simp⟩
  case take r' ws =>
    cases r' with
    | one => obtain rfl := Option.some.inj hr; exact ⟨[], .dequeue ws, by simp⟩
    | last => obtain rfl := Option.some.inj hr; exact ⟨[], .pop ws, by simp⟩
    | many c m =>
      cases m with
      | zero => obtain rfl := Option.some.inj hr; exact ⟨[], .last c ws, by simp⟩
      | succ m => obtain rfl := Option.some.inj hr; exact ⟨[], .more c m ws, by simp⟩
  case dequeued r' ws =>
    split at hr
    · split at hr <;> obtain rfl := Option.some.inj hr
      · exact ⟨[], .empty _ _ ws ‹_›, by simp⟩
      · exact absurd rfl hf
    · rename_i hm
      obtain rfl := Option.some.inj hr
      exact ⟨[], .notify r' ws hm, by simp⟩
  case notified r' ws =>
    have take : ∀ {x wk}, w.q.op.bind HolderOp.node = some x → (w.q.mem.data x).waker = some wk →
        ∃ l, (CallPc.notified r' ws).Goes w i e q
            (some (.holder (.withDataMut fun v => { v with waker := none }))) l
            (.call (.taken r' (ws ++ [wk]))) ∧ w.shared.woken = w.shared.woken ++ l :=
      fun hx hwk => ⟨[], .takeWaker r' ws _ _ hx hwk, by simp⟩
    repeat' split at hr
    all_goals first | contradiction | obtain rfl := Option.some.inj hr
    · refine take ?_ ‹_›
      simp [State.op, *, HolderPc.op, HolderOp.node]
    · exact absurd rfl hf
    · refine take ?_ ‹_›
      simp [State.op, *, HolderPc.op, HolderOp.node]
    · exact absurd rfl hf
  case taken r' ws =>
    obtain rfl := Option.some.inj hr
    exact ⟨[], .drop r' ws, by simp⟩
  case dropped r' ws =>
    cases r' with
    | one => obtain rfl := Option.some.inj hr; exact ⟨[], .one ws, by simp⟩
    | last => obtain rfl := Option.some.inj hr; exact ⟨[], .popped ws, by simp⟩
    | many c m =>
      dsimp only at hr
      split at hr <;> obtain rfl := Option.some.inj hr
      · exact ⟨[], .full c m ws ‹_›, by simp⟩
      · exact ⟨[], .loop c m ws ‹_›, by simp⟩
  case batch c m ws =>
    cases ws with
    | cons wk ws =>
      obtain rfl := Option.some.inj hr
      exact ⟨[wk], .wake c m wk ws, rfl⟩
    | nil =>
      obtain rfl := Option.some.inj hr
      by_cases h : q.upd i = .idle
      · exact ⟨[], by simpa [h] using .relockEmpty c m h, by simp⟩
      · exact ⟨[], by simpa [h] using .relock c m h, by simp⟩
  case drain k =>
    cases n <;> simp only [reduceCtorEq] at hr
    obtain rfl := Option.some.inj hr
    exact ⟨[], .drain k _, by simp⟩
  case final k ws b =>
    cases ws with
    | cons wk ws =>
      obtain rfl := Option.some.inj hr
      exact ⟨[wk], .wakeLast k wk ws b, rfl⟩
    | nil =>
      cases b <;> obtain rfl := Option.some.inj hr
      · exact ⟨[], .return k, by simp [CallKind.ret]⟩
      · exact ⟨[], .unlock k, by simp⟩

end Aiq.WaitQueue
