import Aiq.Task.Inv

/-!
# Tasks seen from their programs

What the program of a task can know of the queue (`View`): the state of the task's own node as far as
the task has asked for it, the update of the queue's state that the task has called, and what it holds
the lock with. The instructions of its operations and its calls change the view of a task in few ways
(`InstrStep`, `CallStep`), and the steps of the others do not change it (`TaskStep.view_ne`).
-/

namespace Aiq

variable {S T P G I : Type} {cfg : Config} {c c' : State S T} {a : Abs S} {e : Event S} {i j : TaskId}

/-! ## Views -/

/-- What the owner of a node is doing. -/
inductive OwnOp (S : Type)
  | dead
  | idle
  | unqueued
  | dequeued
  | resetting
  | waitState
  | waitDrop
  | locked
  /-- `enqueue`, up to its tail CAS. -/
  | inserting (f : MatchState S)
  /-- `enqueue`, after `check_tail` refused. -/
  | refusing
  /-- `enqueue`, after its tail CAS. -/
  | linking

/-- The operation that a control state of an owner belongs to. -/
def OwnPc.op : OwnPc S → OwnOp S
  | .dead => .dead
  | .idle => .idle
  | .unqueued => .unqueued
  | .dequeued => .dequeued
  | .resetNext => .resetting
  | .waitState => .waitState
  | .waitDrop => .waitDrop
  | .locked => .locked
  | .check f _ _ | .store f _ _ | .cas f _ _ => .inserting f
  | .refuse => .refusing
  | .link _ | .parkedLoad _ | .unpark => .linking

/-- What a thread is doing. -/
inductive UpdOp (S : Type)
  | idle
  /-- `fetch_update_state`: the `n`-th call of `f`, on `s`. -/
  | trying (f : UpdateFn S) (n : ℕ) (s : S)
  /-- `fetch_update_state_or_lock(f)`, or `is_empty_or_lock`, without the lock. -/
  | asking (f : Option (UpdateFn S))
  /-- `fetch_update_state_or_lock(f)`, or `is_empty_or_lock`, with the lock. -/
  | deciding (f : Option (UpdateFn S))
  | releasing

/-- The operation that a control state of a thread belongs to. -/
def UpdPc.op : UpdPc S → UpdOp S
  | .idle => .idle
  | .attempt f n .plain s => .trying f n s
  | .attempt f _ .first _ | .waitLock f _ => .asking (some f)
  | .attempt f _ .second _ | .secondLoad f _ => .deciding (some f)
  | .waitEmpty => .asking none
  | .emptyLoad => .deciding none
  | .releasing => .releasing

/-- What the task knows: what it does with its node, which update it has called, and what it does under
the lock if it has it. -/
structure View (S : Type) where
  own : OwnOp S
  upd : UpdOp S
  op : Option (HolderOp S)

/-- What the task `i` does under the lock, when `l` has it. -/
def heldOp (l : Option TaskId) (i : TaskId) (c : State S T) : Option (HolderOp S) :=
  if l = some i then c.op else none

/-- The view of the task `i` on `c`, when `l` has the lock. -/
def State.view (c : State S T) (l : Option TaskId) (i : TaskId) : View S :=
  ⟨(c.own i).op, (c.upd i).op, heldOp l i c⟩

/-- The view of the task `i`. -/
def World.view (w : World S T P G) (i : TaskId) : View S := w.q.view w.lockedBy i

/-- What a task does with its node after an instruction under the lock with the event `e`. -/
def HolderOp.ownAfter : HolderOp S → Event S → OwnOp S → OwnOp S
  | .removing _ _ .queued, .removed _ _, _ => .idle
  | .releasing (.state _), _, _ => .dequeued
  | .releasing (.node _), _, _ => .dead
  | _, _, x => x

/-- See `HolderOp.ownAfter`. -/
def HolderOp.updAfter : HolderOp S → UpdOp S → UpdOp S
  | .releasing (.thread _), _ => .idle
  | _, u => u

/-- One instruction of an operation of the task `i`, when `s` is the state of the queue. -/
inductive InstrStep [QueueState S] (i : TaskId) (s : Option S) : View S → Event S → View S → Prop
  | insert (f) (u) (o) : InstrStep i s ⟨.inserting f, u, o⟩ .tau ⟨.inserting f, u, o⟩
  | refuse (f) (u) (o) : InstrStep i s ⟨.inserting f, u, o⟩ .tau ⟨.refusing, u, o⟩
  | refused (u) (o) : InstrStep i s ⟨.refusing, u, o⟩ (.refused i) ⟨.unqueued, u, o⟩
  | enqueue (f) (u) (o) (n) (h : f n s = .accept) :
      InstrStep i s ⟨.inserting f, u, o⟩ (.enqueue i) ⟨.linking, u, o⟩
  | link (u) (o) : InstrStep i s ⟨.linking, u, o⟩ .tau ⟨.linking, u, o⟩
  | linked (u) (o) : InstrStep i s ⟨.linking, u, o⟩ .tau ⟨.idle, u, o⟩
  | reset (u) (o) : InstrStep i s ⟨.resetting, u, o⟩ .tau ⟨.unqueued, u, o⟩
  | lockState (u) : InstrStep i s ⟨.waitState, u, none⟩ .tau ⟨.locked, u, some (.checking i)⟩
  | lockDrop (u) : InstrStep i s ⟨.waitDrop, u, none⟩ .tau ⟨.locked, u, some (.dropping i)⟩
  /-- `fetch_update_state` goes on. -/
  | retry (x) (o) (f) (n) (v s') (h : s = some s') :
      InstrStep i s ⟨x, .trying f n v, o⟩ .tau ⟨x, .trying f (n + 1) s', o⟩
  /-- `fetch_update_state` returns `Err(Some(v))`. -/
  | stop (x) (o) (f) (n) (v) (h : f n v = none) :
      InstrStep i s ⟨x, .trying f n v, o⟩ .tau ⟨x, .idle, o⟩
  /-- `fetch_update_state` returns `Err(None)`. -/
  | blocked (x) (o) (f) (n) (v) (h : f n v ≠ none) (h' : s = none) :
      InstrStep i s ⟨x, .trying f n v, o⟩ .tau ⟨x, .idle, o⟩
  /-- `fetch_update_state` returns `Ok(v)`. -/
  | update (x) (o) (f) (n) (v v') (h : f n v = some v') (h' : s = some v) :
      InstrStep i s ⟨x, .trying f n v, o⟩ (.update i v v') ⟨x, .idle, o⟩
  | ask (x) (o) (f) : InstrStep i s ⟨x, .asking f, o⟩ .tau ⟨x, .asking f, o⟩
  | lock (x) (f) : InstrStep i s ⟨x, .asking f, none⟩ .tau ⟨x, .deciding f, some (.upd i)⟩
  | decide (x) (o) (f) : InstrStep i s ⟨x, .deciding f, o⟩ .tau ⟨x, .deciding f, o⟩
  /-- An `*_or_lock` call returns without the lock. -/
  | updateFirst (x) (o) (f) (n) (v v') (h : f n v = some v') (h' : s = some v) :
      InstrStep i s ⟨x, .asking (some f), o⟩ (.update i v v') ⟨x, .idle, o⟩
  | updateSecond (x) (f) (n) (v v') (h : f n v = some v') (h' : s = some v) :
      InstrStep i s ⟨x, .deciding (some f), some (.upd i)⟩ (.update i v v')
        ⟨x, .releasing, some (.releasing (.thread i))⟩
  | empty (x) (h : s ≠ none) :
      InstrStep i s ⟨x, .deciding none, some (.upd i)⟩ .tau
        ⟨x, .releasing, some (.releasing (.thread i))⟩
  /-- An `*_or_lock` call returns with the lock. -/
  | guarded (x) (f) (h : s = none) :
      InstrStep i s ⟨x, .deciding f, some (.upd i)⟩ (.guarded i) ⟨x, .idle, some .guard⟩
  /-- An instruction under the lock. -/
  | holder (x) (u) (o o' e) (h : OpStep o e o') :
      InstrStep i s ⟨x, u, some o⟩ e ⟨o.ownAfter e x, o.updAfter u, o'⟩

/-! ## Instructions -/

theorem HolderOp.ownAfter_of_ne {o : HolderOp S} {x : OwnOp S} (he : ∀ y b, e ≠ .removed y b)
    (ho : ∀ k, o ≠ .releasing k) : o.ownAfter e x = x := by
  unfold ownAfter
  split
  · exact absurd rfl (he _ _)
  · exact absurd rfl (ho _)
  · exact absurd rfl (ho _)
  · rfl

theorem HolderOp.updAfter_of_ne {o : HolderOp S} {u : UpdOp S} (ho : ∀ k, o ≠ .releasing k) :
    o.updAfter u = u := by
  unfold updAfter
  split
  · exact absurd rfl (ho _)
  · rfl

theorem HolderPc.op_ne_releasing {p : HolderPc S} (h : ∀ k, p ≠ .release k) (k : Release) :
    p.op ≠ .releasing k := by
  unfold HolderPc.op GetCont.op
  grind

/-- The store of `Dequeued` is the end of a removal. -/
theorem holderStep_removed [DecidableEq S] [QueueState S] {p : HolderPc S} {x : NodeId} {b : Bool}
    (hs : holderStep cfg c p = some (c', .removed x b)) : ∃ r, p = .rmDone r b := by
  cases p <;> simp only [holderStep, reduceCtorEq] at hs
  case rmDone r b' =>
    obtain ⟨-, h⟩ := Prod.mk.inj (Option.some.inj hs)
    obtain ⟨-, rfl⟩ := Event.removed.inj h
    exact ⟨r, rfl⟩
  case get l g k => rcases getStep_event hs with h | ⟨y, h⟩ <;> simp at h
  all_goals grind

/-- What an instruction under the lock does to the node of its task. -/
theorem holderStep_own_op [DecidableEq S] [QueueState S] {p : HolderPc S}
    (hs : holderStep cfg c p = some (c', e)) (hi : ∀ j, p.op.task = some j → j = i) :
    (c'.own i).op = p.op.ownAfter e (c.own i).op := by
  by_cases hd : ∃ r b, p = .rmDone r b
  · obtain ⟨⟨x, s, v, k⟩, b, rfl⟩ := hd
    obtain ⟨rfl, rfl⟩ := Prod.mk.inj (Option.some.inj hs)
    cases k
    · rfl
    · obtain rfl := hi x rfl
      simp [Removal.return, HolderPc.op, OwnPc.op, HolderOp.ownAfter]
    · rfl
  by_cases hr : ∃ k, p = .release k
  · obtain ⟨k, rfl⟩ := hr
    obtain ⟨rfl, rfl⟩ := Prod.mk.inj (Option.some.inj hs)
    cases k
    case state x =>
      obtain rfl := hi x rfl
      simp [Release.apply, HolderPc.op, OwnPc.op, HolderOp.ownAfter]
    case node x =>
      obtain rfl := hi x rfl
      simp [Release.apply, HolderPc.op, OwnPc.op, HolderOp.ownAfter]
    case thread t => rfl
  have ho := HolderPc.op_ne_releasing (not_exists.1 hr)
  have he : ∀ y b, e ≠ .removed y b := by
    rintro y b rfl
    obtain ⟨r, rfl⟩ := holderStep_removed hs
    exact hd ⟨r, b, rfl⟩
  rw [HolderOp.ownAfter_of_ne he ho]
  rcases holderStep_owner hs i with h | ⟨-, ⟨b, h⟩, -⟩ | ⟨h, -⟩ | ⟨h, -⟩
  · rw [h]
  · exact absurd h (he i b)
  · exact absurd h (ho _)
  · exact absurd h (ho _)

theorem holderStep_upd_op [DecidableEq S] [QueueState S] {p : HolderPc S}
    (hs : holderStep cfg c p = some (c', e)) (hi : ∀ j, p.op.task = some j → j = i) :
    (c'.upd i).op = p.op.updAfter (c.upd i).op := by
  by_cases hr : ∃ k, p = .release k
  · obtain ⟨k, rfl⟩ := hr
    obtain ⟨rfl, rfl⟩ := Prod.mk.inj (Option.some.inj hs)
    cases k
    case thread t =>
      obtain rfl := hi t rfl
      simp [Release.apply, HolderPc.op, UpdPc.op, HolderOp.updAfter]
    all_goals rfl
  have ho := HolderPc.op_ne_releasing (not_exists.1 hr)
  rw [HolderOp.updAfter_of_ne ho]
  rcases holderStep_upd hs i with h | ⟨h, -⟩
  · rw [h]
  · exact absurd h (ho _)

theorem nextLock_of_mutex {l : Option TaskId} (h : LockOk c l) (hm : c'.mutex = c.mutex) :
    nextLock l i c' = l := by
  have := h.isSome
  unfold nextLock
  rw [hm, this]
  cases l <;> rfl

section View

variable [DecidableEq S] [QueueState S] {k : Act S T} {w : World S T P G} {q' : State S T} {p : P}
  {g : G}

/-- The steps of the other tasks do not change the view of a task. -/
theorem TaskStep.view_ne (h : TaskStep cfg a w i k e q') (hj : j ≠ i) :
    q'.view (nextLock w.lockedBy i q') j = w.view j := by
  unfold World.view State.view
  rw [h.own_ne hj, h.upd_ne hj]
  congr 1
  unfold heldOp
  by_cases hl : w.lockedBy = some j
  · have hm := h.mutex_ne hl hj
    rw [nextLock_of_mutex h.ok.lock hm, if_pos hl, if_pos hl, State.op, State.op, hm]
  · rw [if_neg hl, if_neg]
    unfold nextLock
    split
    · cases hw : w.lockedBy with
      | none => simpa using Ne.symm hj
      | some m => simpa [hw] using hl
    · simp

/-- The lock is not taken or released by an instruction that leaves the mutex alone. -/
theorem TaskStep.heldOp_eq (h : TaskStep cfg a w i k e q') (hm : q'.mutex = w.q.mutex) :
    heldOp (nextLock w.lockedBy i q') i q' = heldOp w.lockedBy i w.q := by
  rw [nextLock_of_mutex h.ok.lock hm, heldOp, heldOp, State.op, State.op, hm]

/-- Locking the mutex. -/
theorem TaskStep.heldOp_lock (h : TaskStep cfg a w i k e q') (hm : w.q.mutex = none) {p : HolderPc S}
    (hp : q'.mutex = some p) :
    heldOp w.lockedBy i w.q = none ∧ heldOp (nextLock w.lockedBy i q') i q' = some p.op := by
  have hl : w.lockedBy = none := by simpa [hm] using h.ok.lock.isSome.symm
  refine ⟨by simp [heldOp, hl], ?_⟩
  simp [heldOp, nextLock, hl, hp, State.op]

theorem TaskStep.view_owner {weak : Bool} (h : TaskStep cfg a w i (.owner i weak) e q') :
    InstrStep i w.q.mem.queueState (w.view i) e (q'.view (nextLock w.lockedBy i q') i) := by
  have hs : ownerStep cfg w.q i weak = some (q', e) := h.sound.step
  have hc := h.ok.calm i
  have hok := h.sound.inv.own i
  dsimp only at hok
  unfold World.view State.view
  unfold ownerStep at hs
  cases ho : w.q.own i <;> simp only [ho, reduceCtorEq] at hs <;> rw [ho] at hc hok
  case check f n t =>
    have hm : q'.mutex = w.q.mutex := by grind [State.mutex_setOwn]
    rw [h.heldOp_eq hm]
    cases hf : f n t.state? <;> simp only [hf] at hs <;>
      obtain ⟨rfl, rfl⟩ := Prod.mk.inj (Option.some.inj hs)
    · simpa [OwnPc.op] using InstrStep.insert ..
    · simpa [OwnPc.op] using InstrStep.refuse ..
    · exact absurd hf (hc n _)
  case refuse =>
    obtain ⟨rfl, rfl⟩ := Prod.mk.inj (Option.some.inj hs)
    rw [h.heldOp_eq rfl]
    simpa [OwnPc.op] using InstrStep.refused ..
  case store f n t =>
    obtain ⟨rfl, rfl⟩ := Prod.mk.inj (Option.some.inj hs)
    rw [h.heldOp_eq rfl]
    simpa [OwnPc.op] using InstrStep.insert ..
  case cas f n t =>
    split at hs <;> obtain ⟨rfl, rfl⟩ := Prod.mk.inj (Option.some.inj hs) <;> rw [h.heldOp_eq rfl]
    · rename_i ht
      have hf : f n w.q.mem.queueState = .accept := by
        rw [Mem.queueState, ht.1]
        exact hok.2.2.2.2
      simpa [OwnPc.op] using InstrStep.enqueue _ _ _ _ hf
    · simpa [OwnPc.op] using InstrStep.insert ..
  case link l =>
    obtain ⟨rfl, rfl⟩ := Prod.mk.inj (Option.some.inj hs)
    rw [h.heldOp_eq (mutex_linkStep ..), upd_linkStep]
    have hown : ((linkStep cfg w.q i (prevLoc l)).own i).op = .idle ∨
        ((linkStep cfg w.q i (prevLoc l)).own i).op = .linking := by
      unfold linkStep
      by_cases hl : w.q.mem.link (prevLoc l) = .null <;> cases cfg.variant <;> simp [OwnPc.op, hl]
    rcases hown with ho | ho <;> rw [ho]
    · exact .linked ..
    · exact .link ..
  case parkedLoad l =>
    obtain ⟨rfl, rfl⟩ := Prod.mk.inj (Option.some.inj hs)
    rw [h.heldOp_eq rfl]
    simp only [State.own_setOwn, Function.update_self, State.upd_setOwn]
    split
    · exact .link ..
    · exact .linked ..
  case unpark =>
    obtain ⟨rfl, rfl⟩ := Prod.mk.inj (Option.some.inj hs)
    rw [h.heldOp_eq rfl]
    simpa [OwnPc.op] using InstrStep.linked ..
  case resetNext =>
    obtain ⟨rfl, rfl⟩ := Prod.mk.inj (Option.some.inj hs)
    rw [h.heldOp_eq rfl]
    simpa [OwnPc.op] using InstrStep.reset ..
  case waitState =>
    cases hm : w.q.mutex <;> simp only [hm, reduceCtorEq] at hs
    obtain ⟨rfl, rfl⟩ := Prod.mk.inj (Option.some.inj hs)
    obtain ⟨h₁, h₂⟩ := h.heldOp_lock hm (State.mutex_hold ..)
    rw [h₁, h₂]
    simpa [OwnPc.op, HolderPc.op] using InstrStep.lockState _
  case waitDrop =>
    cases hm : w.q.mutex <;> simp only [hm, reduceCtorEq] at hs
    obtain ⟨rfl, rfl⟩ := Prod.mk.inj (Option.some.inj hs)
    obtain ⟨h₁, h₂⟩ := h.heldOp_lock hm (State.mutex_hold ..)
    rw [h₁, h₂]
    simpa [OwnPc.op, HolderPc.op] using InstrStep.lockDrop _

/-- The view of a task whose call runs under the lock. -/
theorem TaskStep.heldOp_upd (h : TaskStep cfg a w i k e q') (hm : w.q.mutex = some (.upd i)) :
    heldOp w.lockedBy i w.q = some (.upd i) ∧
      ∀ {p : HolderPc S}, q'.mutex = some p → heldOp (nextLock w.lockedBy i q') i q' = some p.op := by
  have hop : w.q.op = some (.upd i) := by simp [State.op, hm, HolderPc.op]
  have hl : w.lockedBy = some i := h.ok.lock.task hop rfl
  refine ⟨by simp [heldOp, hl, hop], fun hp => ?_⟩
  simp [heldOp, nextLock, hl, hp, State.op]

/-- The loop test of the first attempt of `fetch_update_state_or_lock`. -/
theorem TaskStep.view_first {f : UpdateFn S} {n : ℕ} (h : TaskStep cfg a w i k e q')
    (hu : (w.q.upd i).op = .asking (some f)) (hs : Attempt.first.test w.q i f n = (q', e)) :
    InstrStep i w.q.mem.queueState (w.view i) e (q'.view (nextLock w.lockedBy i q') i) := by
  unfold World.view State.view
  rw [hu]
  unfold Attempt.test at hs
  cases ht : w.q.mem.tail <;> simp only [ht] at hs <;> obtain ⟨rfl, rfl⟩ := Prod.mk.inj hs <;>
    rw [h.heldOp_eq rfl] <;> simpa [UpdPc.op] using InstrStep.ask ..

/-- The loop test of the second attempt. -/
theorem TaskStep.view_second {f : UpdateFn S} {n : ℕ} (h : TaskStep cfg a w i k e q')
    (hu : (w.q.upd i).op = .deciding (some f)) (hs : Attempt.second.test w.q i f n = (q', e))
    (hm : w.q.mutex = some (.upd i)) :
    InstrStep i w.q.mem.queueState (w.view i) e (q'.view (nextLock w.lockedBy i q') i) := by
  unfold World.view State.view
  rw [hu]
  unfold Attempt.test at hs
  cases ht : w.q.mem.tail <;> simp only [ht] at hs
  case state s =>
    obtain ⟨rfl, rfl⟩ := Prod.mk.inj hs
    rw [h.heldOp_eq rfl]
    simpa [UpdPc.op] using InstrStep.decide ..
  case ptr y =>
    obtain ⟨rfl, rfl⟩ := Prod.mk.inj hs
    obtain ⟨h₁, h₂⟩ := h.heldOp_upd hm
    rw [h₁, h₂ (State.mutex_hold ..)]
    have hq : w.q.mem.queueState = none := by rw [Mem.queueState, ht]; rfl
    simpa [UpdPc.op, HolderPc.op] using InstrStep.guarded _ _ hq

theorem TaskStep.view_thread {weak : Bool} (h : TaskStep cfg a w i (.thread i weak) e q') :
    InstrStep i w.q.mem.queueState (w.view i) e (q'.view (nextLock w.lockedBy i q') i) := by
  have hs : threadStep w.q i weak = some (q', e) := h.sound.step
  have hok := h.sound.inv.thread i
  dsimp only at hok
  unfold threadStep at hs
  cases hu : w.q.upd i <;> simp only [hu, reduceCtorEq] at hs <;> rw [hu] at hok
  case attempt f n b s =>
    cases hf : f n s with
    | none =>
      cases b
      · simp only [hf] at hs
        obtain ⟨rfl, rfl⟩ := Prod.mk.inj (Option.some.inj hs)
        unfold World.view State.view
        rw [h.heldOp_eq rfl, hu]
        simpa [UpdPc.op] using InstrStep.stop _ _ _ _ _ hf
      · exact absurd hf (hok n s)
      · exact absurd hf (hok.1 n s)
    | some s' =>
      simp only [hf] at hs
      split at hs
      · rename_i ht
        have hq : w.q.mem.queueState = some s := by rw [Mem.queueState, ht.1]; rfl
        obtain ⟨rfl, rfl⟩ := Prod.mk.inj (Option.some.inj hs)
        unfold World.view State.view
        rw [hu]
        cases b
        · rw [h.heldOp_eq rfl]
          simpa [UpdPc.op, Attempt.ok] using InstrStep.update _ _ _ _ _ _ hf hq
        · rw [h.heldOp_eq rfl]
          simpa [UpdPc.op, Attempt.ok] using InstrStep.updateFirst _ _ _ _ _ _ hf hq
        · obtain ⟨h₁, h₂⟩ := h.heldOp_upd hok.2
          rw [h₁, h₂ (State.mutex_hold ..)]
          simpa [UpdPc.op, HolderPc.op, Attempt.ok] using InstrStep.updateSecond _ _ _ _ _ hf hq
      · have hs := Option.some.inj hs
        cases b
        · unfold World.view State.view
          rw [hu]
          unfold Attempt.test at hs
          cases ht : w.q.mem.tail <;> simp only [ht] at hs <;> obtain ⟨rfl, rfl⟩ := Prod.mk.inj hs <;>
            rw [h.heldOp_eq rfl]
          · rename_i s'' _
            have hq : w.q.mem.queueState = some s'' := by rw [Mem.queueState, ht]; rfl
            simpa [UpdPc.op] using InstrStep.retry _ _ _ _ _ _ hq
          · have hq : w.q.mem.queueState = none := by rw [Mem.queueState, ht]; rfl
            simpa [UpdPc.op] using InstrStep.blocked _ _ _ _ _ (by simp [hf]) hq
        · exact h.view_first (by rw [hu]; rfl) hs
        · exact h.view_second (by rw [hu]; rfl) hs hok.2
  case waitLock f n =>
    cases hm : w.q.mutex <;> simp only [hm, reduceCtorEq] at hs
    obtain ⟨rfl, rfl⟩ := Prod.mk.inj (Option.some.inj hs)
    obtain ⟨h₁, h₂⟩ := h.heldOp_lock hm (State.mutex_hold ..)
    unfold World.view State.view
    rw [h₁, h₂, hu]
    simpa [UpdPc.op, HolderPc.op] using InstrStep.lock ..
  case secondLoad f n =>
    exact h.view_second (by rw [hu]; rfl) (Option.some.inj hs) hok.2
  case waitEmpty =>
    cases hm : w.q.mutex <;> simp only [hm, reduceCtorEq] at hs
    obtain ⟨rfl, rfl⟩ := Prod.mk.inj (Option.some.inj hs)
    obtain ⟨h₁, h₂⟩ := h.heldOp_lock hm (State.mutex_hold ..)
    unfold World.view State.view
    rw [h₁, h₂, hu]
    simpa [UpdPc.op, HolderPc.op] using InstrStep.lock ..
  case emptyLoad =>
    obtain ⟨h₁, h₂⟩ := h.heldOp_upd hok
    unfold World.view State.view
    cases ht : w.q.mem.tail <;> simp only [ht] at hs <;>
      obtain ⟨rfl, rfl⟩ := Prod.mk.inj (Option.some.inj hs) <;>
      rw [h₁, h₂ (State.mutex_hold ..), hu]
    · have hq : w.q.mem.queueState ≠ none := by rw [Mem.queueState, ht]; simp [StateOrPtr.state?]
      simpa [UpdPc.op, HolderPc.op] using InstrStep.empty _ hq
    · have hq : w.q.mem.queueState = none := by rw [Mem.queueState, ht]; rfl
      simpa [UpdPc.op, HolderPc.op] using InstrStep.guarded _ _ hq

theorem TaskStep.view_holder (h : TaskStep cfg a w i .holder e q') :
    InstrStep i w.q.mem.queueState (w.view i) e (q'.view (nextLock w.lockedBy i q') i) := by
  have hl : w.lockedBy = some i := h.byTask
  obtain ⟨p, hp, ⟨-, hs⟩ | ⟨_, h', -⟩⟩ := step_holder rfl h.sound.step
  swap
  · simp at h'
  dsimp only at hs hp
  have hi : ∀ j, p.op.task = some j → j = i := fun j hj => by
    have := h.ok.lock.task (by simp [State.op, hp]) hj
    exact (Option.some.inj (hl.symm.trans this)).symm
  have h₁ : heldOp w.lockedBy i w.q = some p.op := by simp [heldOp, hl, State.op, hp]
  have h₂ : heldOp (nextLock w.lockedBy i q') i q' = q'.op := by
    unfold heldOp nextLock
    cases hm : q'.mutex <;> simp [hl, State.op, hm]
  unfold World.view State.view
  rw [h₁, h₂, holderStep_own_op hs hi, holderStep_upd_op hs hi]
  exact .holder _ _ _ _ _ (holderStep_op hs h.sound.not_fault)

/-- An instruction of the operation under way changes the view of the task as one expects. -/
theorem TaskStep.view_instr {weak : Bool} (h : TaskStep cfg a w i k e q')
    (hk : w.instruction i weak = some k) :
    InstrStep i w.q.mem.queueState (w.view i) e (q'.view (nextLock w.lockedBy i q') i) := by
  unfold World.instruction at hk
  split at hk
  · obtain rfl := Option.some.inj hk
    exact h.view_owner
  split at hk
  · obtain rfl := Option.some.inj hk
    exact h.view_thread
  split at hk
  · obtain rfl := Option.some.inj hk
    exact h.view_holder
  · simp at hk

end View

/-! ## Calls -/

/-- A call on what the lock is held with, when `s` is the state of the queue. -/
inductive HolderCallStep [QueueState S] (s : Option S) :
    HolderCall S T → HolderOp S → Event S → Option (HolderOp S) → Prop
  | dequeueNone (h : s ≠ none) : HolderCallStep s .dequeue .guard (.dequeue none) (some .guard)
  | dequeue (h : s = none) : HolderCallStep s .dequeue .guard .tau (some .dequeuing)
  | popNone (h : s ≠ none) : HolderCallStep s .pop .guard (.pop none) (some .guard)
  | pop (x) (h : s = none) : HolderCallStep s .pop .guard (.pop (some x)) (some (.handle x))
  | drainEmpty (d v) (h : s ≠ none) :
      HolderCallStep s (.drain d v) .guard (.drainEmpty d) (some (.drain d))
  | drain (d v) (h : s = none) : HolderCallStep s (.drain d v) .guard .tau (some (.newDrain d v))
  | unlock : HolderCallStep s .unlock .guard .unlock none
  | dropHandle (x) :
      HolderCallStep s .drop (.handle x) .tau (some (.removing x QueueState.null .handle))
  | trySetQueueState (x v) :
      HolderCallStep s (.trySetQueueState v) (.handle x) .tau (some (.removing x v .handle))
  | requeue (x) : HolderCallStep s .requeue (.handle x) (.requeue x) (some .guard)
  | withHandle (x g) : HolderCallStep s (.withDataMut g) (.handle x) .tau (some (.handle x))
  | dropQueued (x) : HolderCallStep s .drop (.queued x) .unlock none
  | dequeueSelf (x) :
      HolderCallStep s .dequeueSelf (.queued x) .tau (some (.removing x QueueState.null .queued))
  | dequeueTrySetQueueState (x v) :
      HolderCallStep s (.dequeueTrySetQueueState v) (.queued x) .tau (some (.removing x v .queued))
  | withQueued (x g) : HolderCallStep s (.withDataMut g) (.queued x) .tau (some (.queued x))
  | nextNone (d) : HolderCallStep s .next (.drain d) (.next d none) (some (.drain d))
  | next (d b) : HolderCallStep s .next (.drain d) (.next d (some b)) (some (.drained d b))
  | executeUnlocked (d) : HolderCallStep s .executeUnlocked (.drain d) .tau (some (.unlocking d))
  | dropDrain (d) : HolderCallStep s .dropDrain (.drain d) .tau (some (.closing d))
  | dropDrained (d b) : HolderCallStep s .drop (.drained d b) .tau (some (.dropDrained d b))
  | forget (d b) : HolderCallStep s .requeue (.drained d b) .tau (some (.drain d))
  | withDrained (d x g) :
      HolderCallStep s (.withDataMut g) (.drained d (.node x)) .tau (some (.drained d (.node x)))

theorem holderCall_op [QueueState S] {p : HolderPc S} {k : HolderCall S T}
    (hs : holderCall c p k = some (c', e)) (hm : c.mutex = some p) (hf : c'.mutex ≠ some .fault) :
    HolderCallStep c.mem.queueState k p.op e c'.op := by
  have htail : ∀ s, c.mem.tail = .state s → c.mem.queueState ≠ none := fun s h => by
    simp [Mem.queueState, h, StateOrPtr.state?]
  have htail' : ∀ b, c.mem.tail = .ptr b → c.mem.queueState = none := fun b h => by
    simp [Mem.queueState, h, StateOrPtr.state?]
  unfold holderCall guardCall drainLockedCall at hs
  repeat' split at hs
  all_goals
    first
    | (obtain ⟨rfl, rfl⟩ := Prod.mk.inj (Option.some.inj hs)
       first
       | exact absurd rfl hf
       | (simp only [State.op, State.mutex_hold, State.mutex_free, State.mutex_withMem,
            hm, Option.map_some, Option.map_none]
          first
          | exact .dequeueNone (htail _ ‹_›)
          | exact .dequeue (htail' _ ‹_›)
          | exact .popNone (htail _ ‹_›)
          | exact .pop _ (htail' _ ‹_›)
          | exact .drainEmpty _ _ (htail _ ‹_›)
          | exact .drain _ _ (htail' _ ‹_›)
          | constructor))
    | simp at hs

/-- What a task does with its node after a call on what it holds the lock with. -/
def HolderOp.ownAfterCall : HolderOp S → Event S → OwnOp S → OwnOp S
  | .queued _, .unlock, _ => .idle
  | _, _, x => x

theorem holderCall_own_op [QueueState S] {p : HolderPc S} {k : HolderCall S T}
    (hs : holderCall c p k = some (c', e)) (hi : ∀ j, p.op.task = some j → j = i) :
    (c'.own i).op = p.op.ownAfterCall e (c.own i).op := by
  unfold holderCall guardCall drainLockedCall at hs
  repeat' split at hs
  all_goals
    first
    | (obtain ⟨rfl, rfl⟩ := Prod.mk.inj (Option.some.inj hs)
       first
       | rfl
       | (obtain rfl := hi _ rfl
          simp [HolderPc.op, HolderOp.ownAfterCall, OwnPc.op]))
    | simp at hs

theorem holderCall_upd [QueueState S] {p : HolderPc S} {k : HolderCall S T}
    (hs : holderCall c p k = some (c', e)) : c'.upd = c.upd := by
  unfold holderCall guardCall drainLockedCall at hs
  repeat' split at hs
  all_goals
    first
    | (obtain ⟨rfl, rfl⟩ := Prod.mk.inj (Option.some.inj hs); rfl)
    | simp at hs

/-- A call of the task `i`, when `s` is the state of the queue and `r` that of its node. -/
inductive CallStep [QueueState S] (i : TaskId) (s : Option S) (r : RawNodeState) :
    Call S T → View S → Event S → View S → Prop
  | create (v u o) : CallStep i s r (.create v) ⟨.dead, u, o⟩ (.create i) ⟨.idle, u, o⟩
  | stateUnqueued (u o) (h : r = .unqueued) :
      CallStep i s r .state ⟨.idle, u, o⟩ .tau ⟨.unqueued, u, o⟩
  | stateQueued (u o) (h : r = .queued) :
      CallStep i s r .state ⟨.idle, u, o⟩ .tau ⟨.waitState, u, o⟩
  | stateDequeued (u o) (h : r = .dequeued) :
      CallStep i s r .state ⟨.idle, u, o⟩ .tau ⟨.dequeued, u, o⟩
  | tryEnqueue (m u o) :
      CallStep i s r (.tryEnqueue m) ⟨.unqueued, u, o⟩ .tau ⟨.inserting (.ofBool m), u, o⟩
  | releaseUnqueued (u o) : CallStep i s r .release ⟨.unqueued, u, o⟩ .tau ⟨.idle, u, o⟩
  | releaseDequeued (u o) : CallStep i s r .release ⟨.dequeued, u, o⟩ .tau ⟨.idle, u, o⟩
  | reset (u o) : CallStep i s r .reset ⟨.dequeued, u, o⟩ (.reset i) ⟨.resetting, u, o⟩
  | withUnqueued (g u o) :
      CallStep i s r (.withDataMut g) ⟨.unqueued, u, o⟩ .tau ⟨.unqueued, u, o⟩
  | withDequeued (g u o) :
      CallStep i s r (.withDataMut g) ⟨.dequeued, u, o⟩ .tau ⟨.dequeued, u, o⟩
  | dropQueued (u o) (h : r = .queued) : CallStep i s r .drop ⟨.idle, u, o⟩ .tau ⟨.waitDrop, u, o⟩
  | dropFree (u o) (h : r ≠ .queued) : CallStep i s r .drop ⟨.idle, u, o⟩ .tau ⟨.dead, u, o⟩
  | compareExchange (x o v v') (h : s = some v) :
      CallStep i s r (.thread (.compareExchangeState v v')) ⟨x, .idle, o⟩ (.update i v v')
        ⟨x, .idle, o⟩
  | compareFails (x o v v') (h : s ≠ some v) :
      CallStep i s r (.thread (.compareExchangeState v v')) ⟨x, .idle, o⟩ .tau ⟨x, .idle, o⟩
  | fetchUpdate (x o f v) (h : s = some v) :
      CallStep i s r (.thread (.fetchUpdateState f)) ⟨x, .idle, o⟩ .tau ⟨x, .trying f 0 v, o⟩
  | fetchBlocked (x o f) (h : s = none) :
      CallStep i s r (.thread (.fetchUpdateState f)) ⟨x, .idle, o⟩ .tau ⟨x, .idle, o⟩
  | updateOrLock (x o f) :
      CallStep i s r (.thread (.fetchUpdateStateOrLock f)) ⟨x, .idle, o⟩ .tau
        ⟨x, .asking (some (.ofTotal f)), o⟩
  | updateLocked (x o f) :
      CallStep i s r (.thread (.fetchUpdateStateLocked f)) ⟨x, .idle, o⟩ .tau
        ⟨x, .asking (some (.ofTotal f)), o⟩
  | isEmpty (x o) (h : s ≠ none) :
      CallStep i s r (.thread .isEmptyOrLock) ⟨x, .idle, o⟩ .tau ⟨x, .idle, o⟩
  | emptyOrLock (x o) (h : s = none) :
      CallStep i s r (.thread .isEmptyOrLock) ⟨x, .idle, o⟩ .tau ⟨x, .asking none, o⟩
  | lock (x u) : CallStep i s r .lock ⟨x, u, none⟩ .tau ⟨x, u, some .guard⟩
  | holder (k x u o o' e) (h : HolderCallStep s k o e o') :
      CallStep i s r (.holder k) ⟨x, u, some o⟩ e ⟨o.ownAfterCall e x, u, o'⟩
  | drainReturn (d v) : CallStep i s r (.drainReturn d) v .tau v
  | drainLock (d x u) : CallStep i s r (.drainLock d) ⟨x, u, none⟩ .tau ⟨x, u, some (.relocking d)⟩

theorem ownerCall_parties {x : NodeId} {q : OwnerCall S T} (hs : ownerCall c x q = some (c', e)) :
    c'.mutex = c.mutex ∧ c'.upd = c.upd := by
  unfold ownerCall at hs
  grind [State.mutex_setOwn, State.mutex_withMem, State.upd_setOwn, State.upd_withMem]

theorem threadCall_parties [DecidableEq S] {t : ThreadId} {q : ThreadCall S}
    (hs : threadCall c t q = some (c', e)) :
    c'.mutex = c.mutex ∧ c'.own = c.own := by
  unfold threadCall Attempt.test Attempt.err at hs
  repeat' split at hs
  all_goals grind [State.mutex_setUpd, State.mutex_withMem, State.own_setUpd, State.own_withMem]

section Calls

variable [DecidableEq S] [QueueState S] {w : World S T P G} {q' : State S T}

theorem TaskStep.view_holderCall {k : HolderCall S T} (h : TaskStep cfg a w i (.holderCall k) e q') :
    CallStep i w.q.mem.queueState (w.q.mem.rawState i) (.holder k) (w.view i) e
      (q'.view (nextLock w.lockedBy i q') i) := by
  have hl : w.lockedBy = some i := h.byTask
  obtain ⟨p, hp, ⟨h', -⟩ | ⟨k', h', hs⟩⟩ := step_holder rfl h.step
  · simp at h'
  obtain rfl := Act.holderCall.inj h'
  have hi : ∀ j, p.op.task = some j → j = i := fun j hj => by
    have := h.ok.lock.task (by simp [State.op, hp]) hj
    exact (Option.some.inj (hl.symm.trans this)).symm
  have h₁ : heldOp w.lockedBy i w.q = some p.op := by simp [heldOp, hl, State.op, hp]
  have h₂ : heldOp (nextLock w.lockedBy i q') i q' = q'.op := by
    unfold heldOp nextLock
    cases hm : q'.mutex <;> simp [hl, State.op, hm]
  unfold World.view State.view
  rw [h₁, h₂, holderCall_own_op hs hi, holderCall_upd hs]
  exact .holder _ _ _ _ _ _ (holderCall_op hs hp h.sound.not_fault)

/-- A call changes the view of its task as one expects. -/
theorem TaskStep.view_call {k : Call S T} (h : TaskStep cfg a w i (k.act i) e q') :
    CallStep i w.q.mem.queueState (w.q.mem.rawState i) k (w.view i) e
      (q'.view (nextLock w.lockedBy i q') i) := by
  have hs := h.step
  have hown : ∀ {q}, k.act i = .ownerCall i q → (q'.view (nextLock w.lockedBy i q') i) =
      ⟨(q'.own i).op, (w.q.upd i).op, heldOp w.lockedBy i w.q⟩ := fun hq => by
    rw [hq] at hs
    obtain ⟨hm, hu⟩ := ownerCall_parties hs
    rw [State.view, h.heldOp_eq hm, hu]
  have hthr : ∀ {q}, k.act i = .threadCall i q → (q'.view (nextLock w.lockedBy i q') i) =
      ⟨(w.q.own i).op, (q'.upd i).op, heldOp w.lockedBy i w.q⟩ := fun hq => by
    rw [hq] at hs
    obtain ⟨hm, ho⟩ := threadCall_parties hs
    rw [State.view, h.heldOp_eq hm, ho]
  cases k
  case holder k => exact h.view_holderCall
  case create v =>
    rw [hown rfl]
    simp only [Call.act, Aiq.step, ownerCall] at hs
    unfold World.view State.view
    cases ho : w.q.own i <;> simp only [ho, reduceCtorEq] at hs
    obtain ⟨rfl, rfl⟩ := Prod.mk.inj (Option.some.inj hs)
    simpa [OwnPc.op] using CallStep.create ..
  case state =>
    rw [hown rfl]
    simp only [Call.act, Aiq.step, ownerCall] at hs
    unfold World.view State.view
    cases ho : w.q.own i <;> simp only [ho, reduceCtorEq] at hs
    cases hr : w.q.mem.rawState i <;> simp only [hr] at hs <;>
      obtain ⟨rfl, rfl⟩ := Prod.mk.inj (Option.some.inj hs)
    · simpa [OwnPc.op] using CallStep.stateUnqueued _ _ rfl
    · simpa [OwnPc.op] using CallStep.stateQueued _ _ rfl
    · simpa [OwnPc.op] using CallStep.stateDequeued _ _ rfl
  case tryEnqueue m =>
    rw [hown rfl]
    simp only [Call.act, Aiq.step, ownerCall] at hs
    unfold World.view State.view
    cases ho : w.q.own i <;> simp only [ho, reduceCtorEq] at hs
    obtain ⟨rfl, rfl⟩ := Prod.mk.inj (Option.some.inj hs)
    simpa [OwnPc.op] using CallStep.tryEnqueue ..
  case release =>
    rw [hown rfl]
    simp only [Call.act, Aiq.step, ownerCall] at hs
    unfold World.view State.view
    cases ho : w.q.own i <;> simp only [ho, reduceCtorEq] at hs <;>
      obtain ⟨rfl, rfl⟩ := Prod.mk.inj (Option.some.inj hs)
    · simpa [OwnPc.op] using CallStep.releaseUnqueued ..
    · simpa [OwnPc.op] using CallStep.releaseDequeued ..
  case reset =>
    rw [hown rfl]
    simp only [Call.act, Aiq.step, ownerCall] at hs
    unfold World.view State.view
    cases ho : w.q.own i <;> simp only [ho, reduceCtorEq] at hs
    obtain ⟨rfl, rfl⟩ := Prod.mk.inj (Option.some.inj hs)
    simpa [OwnPc.op] using CallStep.reset ..
  case withDataMut g =>
    rw [hown rfl]
    simp only [Call.act, Aiq.step, ownerCall] at hs
    unfold World.view State.view
    cases ho : w.q.own i <;> simp only [ho, reduceCtorEq] at hs <;>
      obtain ⟨rfl, rfl⟩ := Prod.mk.inj (Option.some.inj hs)
    · simpa [OwnPc.op, ho] using CallStep.withUnqueued ..
    · simpa [OwnPc.op, ho] using CallStep.withDequeued ..
  case drop =>
    rw [hown rfl]
    simp only [Call.act, Aiq.step, ownerCall] at hs
    unfold World.view State.view
    cases ho : w.q.own i <;> simp only [ho, reduceCtorEq] at hs
    split at hs <;> obtain ⟨rfl, rfl⟩ := Prod.mk.inj (Option.some.inj hs)
    · simpa [OwnPc.op] using CallStep.dropQueued _ _ ‹_›
    · simpa [OwnPc.op] using CallStep.dropFree _ _ ‹_›
  case thread q =>
    rw [hthr rfl]
    simp only [Call.act, Aiq.step, threadCall] at hs
    unfold World.view State.view
    cases hu : w.q.upd i <;> simp only [hu, reduceCtorEq] at hs
    have htail : ∀ s, w.q.mem.tail = .state s → w.q.mem.queueState = some s := fun s h => by
      simp [Mem.queueState, h, StateOrPtr.state?]
    have htail' : ∀ b, w.q.mem.tail = .ptr b → w.q.mem.queueState = none := fun b h => by
      simp [Mem.queueState, h, StateOrPtr.state?]
    have hne : ∀ s, w.q.mem.tail ≠ .state s → w.q.mem.queueState ≠ some s := fun s h e => by
      unfold Mem.queueState at e
      cases ht : w.q.mem.tail <;> simp_all [StateOrPtr.state?]
    cases q
    case compareExchangeState v v' =>
      simp only at hs
      split at hs <;> obtain ⟨rfl, rfl⟩ := Prod.mk.inj (Option.some.inj hs)
      · simpa [UpdPc.op, hu] using CallStep.compareExchange _ _ _ _ (htail _ ‹_›)
      · simpa [UpdPc.op, hu] using CallStep.compareFails _ _ _ _ (hne _ ‹_›)
    case fetchUpdateState f =>
      simp only [Attempt.test, Attempt.err] at hs
      cases ht : w.q.mem.tail <;> simp only [ht] at hs <;>
        obtain ⟨rfl, rfl⟩ := Prod.mk.inj (Option.some.inj hs)
      · simpa [UpdPc.op] using CallStep.fetchUpdate _ _ _ _ (htail _ ht)
      · simpa [UpdPc.op] using CallStep.fetchBlocked _ _ _ (htail' _ ht)
    case fetchUpdateStateOrLock f =>
      simp only [Attempt.test, Attempt.err] at hs
      cases ht : w.q.mem.tail <;> simp only [ht] at hs <;>
        obtain ⟨rfl, rfl⟩ := Prod.mk.inj (Option.some.inj hs) <;>
        simpa [UpdPc.op] using CallStep.updateOrLock ..
    case fetchUpdateStateLocked f =>
      obtain ⟨rfl, rfl⟩ := Prod.mk.inj (Option.some.inj hs)
      simpa [UpdPc.op] using CallStep.updateLocked ..
    case isEmptyOrLock =>
      cases ht : w.q.mem.tail <;> simp only [ht] at hs <;>
        obtain ⟨rfl, rfl⟩ := Prod.mk.inj (Option.some.inj hs)
      · simpa [UpdPc.op, hu] using CallStep.isEmpty _ _ (by simp [htail _ ht])
      · simpa [UpdPc.op] using CallStep.emptyOrLock _ _ (htail' _ ht)
  case lock =>
    simp only [Call.act, Aiq.step] at hs
    cases hm : w.q.mutex <;> simp only [hm, reduceCtorEq] at hs
    obtain ⟨rfl, rfl⟩ := Prod.mk.inj (Option.some.inj hs)
    obtain ⟨h₁, h₂⟩ := h.heldOp_lock hm (State.mutex_hold ..)
    unfold World.view State.view
    rw [h₁, h₂]
    exact .lock ..
  case drainReturn d =>
    simp only [Call.act, Aiq.step, drainStep] at hs
    cases hd : w.q.drains d <;> simp only [hd, reduceCtorEq] at hs
    obtain ⟨rfl, rfl⟩ := Prod.mk.inj (Option.some.inj hs)
    unfold World.view State.view
    rw [h.heldOp_eq rfl]
    exact .drainReturn ..
  case drainLock d =>
    have ht := h.ok.tight d
    simp only [Call.act, Aiq.step, drainStep] at hs
    cases hd : w.q.drains d <;> simp only [hd, reduceCtorEq] at hs <;> rw [hd] at ht
    case dropLock l => exact ht.elim
    case relock l =>
      cases hm : w.q.mutex <;> simp only [hm, reduceCtorEq] at hs
      obtain ⟨rfl, rfl⟩ := Prod.mk.inj (Option.some.inj hs)
      obtain ⟨h₁, h₂⟩ := h.heldOp_lock hm (State.mutex_hold ..)
      unfold World.view State.view
      rw [h₁, h₂]
      exact .drainLock ..

end Calls

/-! ## Operations that have returned -/

/-- The operation on the node is under way. -/
def OwnOp.runs : OwnOp S → Bool
  | .dead | .idle | .unqueued | .dequeued | .locked => false
  | _ => true

/-- The operation on the state is under way. -/
def UpdOp.runs : UpdOp S → Bool
  | .idle | .releasing => false
  | _ => true

/-- The operation under the lock is under way. -/
def HolderOp.runs : HolderOp S → Bool
  | .guard | .handle _ | .queued _ | .drain _ | .drained _ _ | .upd _ | .fault => false
  | _ => true

/-- An operation that makes a step is under way. -/
theorem OpStep.runs [QueueState S] {o : HolderOp S} {o' : Option (HolderOp S)} (h : OpStep o e o') :
    o.runs = true := by
  cases h
  case more h => cases o <;> simp_all [HolderOp.long, HolderOp.runs]
  all_goals rfl

/-- No operation of the task is under way. -/
structure View.Rests (v : View S) : Prop where
  own : v.own.runs = false
  upd : v.upd.runs = false
  op : ∀ {o}, v.op = some o → o.runs = false

theorem OwnPc.runs_op (p : OwnPc S) : p.op.runs = p.runs := by cases p <;> rfl

theorem UpdPc.runs_op (p : UpdPc S) : p.op.runs = p.runs := by
  cases p <;> try rfl
  case attempt f n k s => cases k <;> rfl

theorem HolderPc.runs_op (p : HolderPc S) : p.op.runs = p.runs := by
  cases p <;> try rfl
  case get l g k =>
    cases k <;> try rfl
    case drained d b flush => cases flush <;> rfl
  case ddPrev d b flush => cases flush <;> rfl
  case ddSetHead d b v flush => cases flush <;> rfl
  case ddDone d b flush => cases flush <;> rfl

theorem UpdPc.op_eq_idle {p : UpdPc S} : p.op = .idle ↔ p = .idle := by
  cases p <;> simp [UpdPc.op]
  case attempt f n k s => cases k <;> simp

theorem UpdPc.eq_waitEmpty {p : UpdPc S} (h : p.op = .asking none) : p = .waitEmpty := by
  unfold op at h
  split at h <;> simp_all

theorem UpdPc.eq_emptyLoad {p : UpdPc S} (h : p.op = .deciding none) : p = .emptyLoad := by
  unfold op at h
  split at h <;> simp_all

theorem UpdPc.eq_releasing {p : UpdPc S} (h : p.op = .releasing) : p = .releasing := by
  unfold op at h
  split at h <;> simp_all

theorem OwnPc.op_eq_idle {p : OwnPc S} : p.op = .idle ↔ p = .idle := by
  cases p <;> simp [OwnPc.op]

theorem OwnPc.op_eq_dead {p : OwnPc S} : p.op = .dead ↔ p = .dead := by
  cases p <;> simp [OwnPc.op]

theorem OwnPc.op_eq_unqueued {p : OwnPc S} : p.op = .unqueued ↔ p = .unqueued := by
  cases p <;> simp [OwnPc.op]

theorem OwnPc.op_eq_dequeued {p : OwnPc S} : p.op = .dequeued ↔ p = .dequeued := by
  cases p <;> simp [OwnPc.op]

theorem OwnPc.op_eq_locked {p : OwnPc S} : p.op = .locked ↔ p = .locked := by
  cases p <;> simp [OwnPc.op]

theorem OwnPc.op_eq_waitState {p : OwnPc S} : p.op = .waitState ↔ p = .waitState := by
  cases p <;> simp [OwnPc.op]

/-- A task without an instruction to make rests. -/
theorem World.rests {w : World S T P G} (h : ∀ weak, w.instruction i weak = none) :
    (w.view i).Rests := by
  have h := h false
  unfold World.instruction at h
  split at h
  · simp at h
  split at h
  · simp at h
  split at h
  · simp at h
  rename_i ho hu hl
  refine ⟨?_, ?_, fun {o} hop => ?_⟩
  · simpa [World.view, State.view, OwnPc.runs_op] using ho
  · simpa [World.view, State.view, UpdPc.runs_op] using hu
  · simp only [World.view, State.view, heldOp] at hop
    split at hop
    · obtain ⟨p, hp, rfl⟩ := Option.map_eq_some_iff.1 hop
      rw [HolderPc.runs_op]
      by_contra hr
      exact hl ⟨‹_›, by simpa [hp] using hr⟩
    · simp at hop

/-- An instruction of a task that has nothing under way but what it does under the lock. -/
theorem InstrStep.holder_inv [QueueState S] {s : Option S} {v v' : View S} (h : InstrStep i s v e v')
    (hx : v.own.runs = false) (hu : v.upd.runs = false) :
    ∃ o o', v.op = some o ∧ OpStep o e o' ∧ v' = ⟨o.ownAfter e v.own, o.updAfter v.upd, o'⟩ := by
  cases h
  case holder o o' h => exact ⟨o, o', rfl, h, rfl⟩
  all_goals first | cases hx | cases hu

theorem CallStep.holder_inv [QueueState S] {s : Option S} {r : RawNodeState} {k : HolderCall S T}
    {v v' : View S} (h : CallStep i s r (.holder k) v e v') :
    ∃ x u o o', v = ⟨x, u, some o⟩ ∧ HolderCallStep s k o e o' ∧ v' = ⟨o.ownAfterCall e x, u, o'⟩ := by
  cases h
  case holder x u o o' h => exact ⟨x, u, o, o', rfl, h, rfl⟩

/-- The rule for what is said of every task in terms of its control state and its view: only the task
that moves is to be looked at. -/
theorem Client.Moves.views [DecidableEq S] [QueueState S] {C : Client S T P G I}
    {w w' : World S T P G} {n : I} {F : TaskId → P → View S → Prop} (h : ∀ j, F j (w.pc j) (w.view j))
    (hm : C.Moves cfg a w i n w' e)
    (hop : ∀ q', InstrStep i w.q.mem.queueState (w.view i) e (q'.view (nextLock w.lockedBy i q') i) →
      F i (C.observe w i e q').1 (q'.view (nextLock w.lockedBy i q') i))
    (hcall : ∀ r k q', C.next w i n = some r → r.call = some k → (w.view i).Rests →
      CallStep i w.q.mem.queueState (w.q.mem.rawState i) k (w.view i) e
        (q'.view (nextLock w.lockedBy i q') i) →
      F i (r.pc e q') (q'.view (nextLock w.lockedBy i q') i))
    (hown : ∀ r, C.next w i n = some r → r.call = none → (w.view i).Rests →
      F i (r.pc .tau w.q) (w.view i)) (j : TaskId) : F j (w'.pc j) (w'.view j) := by
  cases hm with
  | @op k e weak q' hk hs hw =>
    subst hw
    by_cases hj : j = i
    · subst hj
      simpa [World.moved, World.view] using hop q' (hs.view_instr hk)
    · have hv := hs.view_ne hj
      simpa [World.moved, World.view, Function.update_of_ne hj, hv] using h j
  | @call r k e q' hi hr hk hl hs hw =>
    subst hw
    by_cases hj : j = i
    · subst hj
      simpa [World.moved, World.view] using hcall r k q' hr hk (World.rests hi) hs.view_call
    · have hv := hs.view_ne hj
      simpa [World.moved, World.view, Function.update_of_ne hj, hv] using h j
  | @own r hi hr hk hw =>
    subst hw
    by_cases hj : j = i
    · subst hj
      simpa [World.view] using hown r hr hk (World.rests hi)
    · simpa [World.view, Function.update_of_ne hj] using h j

end Aiq
