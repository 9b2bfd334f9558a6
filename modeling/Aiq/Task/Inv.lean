import Aiq.Task.Machine

/-!
# What holds of tasks

In every execution of a client the queue represents an abstract queue, no closure unwinds, and
`lockedBy` is the task that the holder of the mutex works for (`World.Ok`). A step of a task is a step
of the machine that this task makes (`TaskStep`), or a step of its own; it leaves alone what belongs to
the other tasks: their nodes' control states, their updates, and the mutex if one of them has it
(`TaskStep.own_ne`, `TaskStep.upd_ne`, `TaskStep.mutex_ne`).
-/

namespace Aiq

variable {S T P G I : Type} {cfg : Config} {c c' : State S T} {a : Abs S} {e : Event S} {i j : TaskId}
  {l : Option TaskId}

/-! ## The task that has the lock -/

/-- The task that an operation under the lock is known to be of. -/
def HolderOp.task : HolderOp S → Option TaskId
  | .removing x _ k => if k = .handle then none else some x
  | .checking x | .queued x | .dropping x | .releasing (.state x) | .releasing (.node x) => some x
  | .upd t | .releasing (.thread t) => some t
  | _ => none

/-- `l` is the task that has the lock. -/
structure LockOk (c : State S T) (l : Option TaskId) : Prop where
  isSome : c.mutex.isSome = l.isSome
  task : ∀ {o}, c.op = some o → ∀ {i}, o.task = some i → l = some i

/-- The step belongs to the task `i`, when `l` has the lock. -/
def Act.ByTask (l : Option TaskId) (i : TaskId) : Act S T → Prop
  | .owner j _ | .ownerCall j _ | .thread j _ | .threadCall j _ => j = i
  | .holder | .holderCall _ => l = some i
  | .lock | .drain _ _ => True

/-- An operation under the lock goes on as one of the same task. -/
theorem OpStep.task [QueueState S] {o o' : HolderOp S} (h : OpStep o e (some o')) (hi : o'.task = some i) :
    o.task = some i := by
  generalize hr : some o' = r at h
  cases h <;> simp only [Option.some.injEq, reduceCtorEq] at hr <;> subst hr <;>
    simp_all [HolderOp.task]

theorem holderCall_task [QueueState S] {p : HolderPc S} {k : HolderCall S T} {o : HolderOp S}
    (hs : holderCall c p k = some (c', e)) (hm : c.mutex = some p) (ho : c'.op = some o)
    (hi : o.task = some i) : p.op.task = some i := by
  unfold holderCall guardCall drainLockedCall at hs
  repeat' split at hs
  all_goals grind [State.op, State.mutex_hold, State.mutex_free, State.mutex_withMem,
    State.mutex_setDrain, HolderPc.op, GetCont.op, HolderOp.task]

/-- Whoever locks the mutex is recorded. -/
theorem step_task [DecidableEq S] [QueueState S] {k : Act S T} {o : HolderOp S}
    (hs : step cfg c k = some (c', e)) (hm : c.mutex = none) (hk : k.ByTask l i)
    (ho : c'.op = some o) (hj : o.task = some j) : j = i := by
  unfold State.op at ho
  cases k <;> simp only [step, hm, reduceCtorEq] at hs
  case lock => grind [State.mutex_hold, HolderPc.op, HolderOp.task]
  case owner x weak =>
    unfold ownerStep at hs
    grind [State.mutex_hold, State.mutex_withMem, State.mutex_setOwn, mutex_linkStep, HolderPc.op,
      HolderOp.task, Act.ByTask]
  case ownerCall x q =>
    unfold ownerCall at hs
    grind [State.mutex_withMem, State.mutex_setOwn]
  case thread t weak =>
    unfold threadStep Attempt.test Attempt.err Attempt.ok at hs
    repeat' split at hs
    all_goals grind [State.mutex_hold, State.mutex_setUpd, State.mutex_withMem, HolderPc.op,
      HolderOp.task, Act.ByTask]
  case threadCall t q =>
    unfold threadCall Attempt.test Attempt.err at hs
    repeat' split at hs
    all_goals grind [State.mutex_setUpd, State.mutex_withMem]
  case drain d q =>
    unfold drainStep at hs
    grind [State.mutex_hold, State.mutex_setDrain, HolderPc.op, HolderOp.task]

/-- Without the lock, the holder is moved by the thread whose `*_or_lock` call it runs. -/
theorem Inv.mutex_thread [DecidableEq S] [QueueState S] (h : Inv cfg c a) {k : Act S T}
    {p : HolderPc S} (hk : k.isHolder = false) (hm : c.mutex = some p)
    (hs : Aiq.step cfg c k = some (c', e)) :
    c'.mutex = some p ∨ ∃ t weak, k = .thread t weak ∧ p = .upd t := by
  cases k <;> simp only [Aiq.step, hm, Act.isHolder, reduceCtorEq] at hs hk
  case owner x weak =>
    unfold Aiq.ownerStep at hs
    grind [State.mutex_withMem, State.mutex_setOwn, mutex_linkStep]
  case ownerCall x q =>
    unfold Aiq.ownerCall at hs
    grind [State.mutex_withMem, State.mutex_setOwn]
  case thread t weak =>
    by_cases hu : p = .upd t
    · exact .inr ⟨t, weak, rfl, hu⟩
    · have hok := h.thread t
      unfold Aiq.threadStep Attempt.test Attempt.err Attempt.ok at hs
      repeat' split at hs
      all_goals grind [State.mutex_hold, State.mutex_setUpd, State.mutex_withMem, ThreadOk]
  case threadCall t q =>
    unfold Aiq.threadCall Attempt.test Attempt.err at hs
    repeat' split at hs
    all_goals grind [State.mutex_setUpd, State.mutex_withMem]
  case drain d q =>
    unfold Aiq.drainStep at hs
    grind [State.mutex_setDrain]

/-- The second half of an `*_or_lock` call ends as one of the same thread. -/
theorem threadStep_task [DecidableEq S] {t : ThreadId} {weak : Bool} {o : HolderOp S}
    (hs : threadStep c t weak = some (c', e)) (hm : c.mutex = some (.upd t)) (ho : c'.op = some o)
    (hj : o.task = some j) : j = t := by
  unfold State.op at ho
  unfold threadStep Attempt.test Attempt.err Attempt.ok at hs
  repeat' split at hs
  all_goals grind [State.mutex_hold, State.mutex_setUpd, State.mutex_withMem, HolderPc.op,
    HolderOp.task]

theorem nextLock_isSome (l : Option TaskId) (i : TaskId) (c : State S T) :
    c.mutex.isSome = (nextLock l i c).isSome := by
  unfold nextLock
  cases c.mutex <;> rfl

section Step

variable [DecidableEq S] [QueueState S] {k : Act S T}

/-- The step leads to a state in which the holder is not at an `unreachable_unchecked`. -/
theorem Sound.not_fault {t : Transition S T} (h : Sound cfg a t) : t.dst.mutex ≠ some .fault :=
  fun hm => h.inv'.holder hm

theorem LockOk.step (h : LockOk c l) (hs : Sound cfg a ⟨c, k, e, c'⟩) (hk : k.ByTask l i) :
    LockOk c' (nextLock l i c') where
  isSome := nextLock_isSome l i c'
  task := fun {o} ho {j} hj => by
    have hsome : c'.mutex.isSome = true := by
      cases hm : c'.mutex with
      | none => simp [State.op, hm] at ho
      | some p => rfl
    rw [nextLock, if_pos hsome]
    cases hm : c.mutex with
    | none =>
      have hl : l = none := by simpa [hm] using h.isSome.symm
      rw [hl, step_task hs.step hm hk ho hj]
      rfl
    | some p =>
      suffices l = some j by rw [this]; rfl
      have hop : c.op = some p.op := by simp [State.op, hm]
      cases hh : k.isHolder with
      | true =>
        obtain ⟨p', hp', ⟨-, hs'⟩ | ⟨q, -, hs'⟩⟩ := step_holder hh hs.step
        all_goals obtain rfl : p = p' := Option.some.inj (hm.symm.trans hp')
        · have hstep := holderStep_op hs' hs.not_fault
          dsimp only at hstep
          rw [ho] at hstep
          exact h.task hop (hstep.task hj)
        · exact h.task hop (holderCall_task hs' hm ho hj)
      | false =>
        rcases hs.inv.mutex_thread hh hm hs.step with hm' | ⟨t, weak, rfl, rfl⟩
        · dsimp only at hm'
          refine h.task hop ?_
          have : some o = some p.op := by rw [← ho, State.op, hm']; rfl
          rw [← Option.some.inj this]
          exact hj
        · obtain rfl := threadStep_task hs.step hm ho hj
          exact h.task hop rfl

end Step

/-! ## Steps of tasks -/

/-- The closure of the `enqueue` under way does not unwind. -/
def OwnPc.Calm : OwnPc S → Prop
  | .check f _ _ | .store f _ _ | .cas f _ _ => ∀ n s, f n s ≠ .unwind
  | _ => True

/-- The `Drain` has not been left by a closure that unwound. -/
def DrainPc.Tight : DrainPc → Prop
  | .loose _ | .dropLock _ => False
  | _ => True

/-- The state `w` of a client represents the abstract queue `a`. -/
structure World.Ok (cfg : Config) (w : World S T P G) (a : Abs S) : Prop where
  inv : Inv cfg w.q a
  lock : LockOk w.q w.lockedBy
  calm : ∀ x, (w.q.own x).Calm
  tight : ∀ d, (w.q.drains d).Tight

/-- The task `i` has made the step `k` of the machine, which leads from `w` to the queue `q'`. -/
structure TaskStep [DecidableEq S] [QueueState S] (cfg : Config) (a : Abs S) (w : World S T P G)
    (i : TaskId) (k : Act S T) (e : Event S) (q' : State S T) : Prop where
  ok : w.Ok cfg a
  byTask : k.ByTask w.lockedBy i
  sound : Sound cfg a ⟨w.q, k, e, q'⟩

theorem World.init_ok [DecidableEq S] [QueueState S] (cfg : Config) (s : S) (v : T) (p : P) (g : G) :
    (⟨.init s v, none, fun _ => p, g⟩ : World S T P G).Ok cfg (.init s) where
  inv := Inv.init cfg s v
  lock := ⟨rfl, fun h => by simp [State.op, State.init] at h⟩
  calm := fun _ => trivial
  tight := fun _ => trivial

theorem Call.byTask {k : Call S T} (h : k.onLock = true → l = some i) : (k.act i).ByTask l i := by
  cases k <;> first | rfl | trivial | exact h rfl

theorem World.instruction_byTask {w : World S T P G} {weak : Bool} {k : Act S T}
    (h : w.instruction i weak = some k) : k.ByTask w.lockedBy i := by
  unfold World.instruction at h
  split at h
  · obtain rfl := Option.some.inj h
    rfl
  split at h
  · obtain rfl := Option.some.inj h
    rfl
  split at h
  · obtain rfl := Option.some.inj h
    exact (‹_ ∧ _› : _ ∧ _).1
  · simp at h

theorem World.instruction_eq_none {w : World S T P G} {weak : Bool}
    (h : w.instruction i weak = none) (weak' : Bool) : w.instruction i weak' = none := by
  unfold World.instruction at h ⊢
  repeat' split at h
  all_goals simp_all

/-- The acts of a task: it does not let a closure unwind. -/
def Act.Tame : Act S T → Prop
  | .ownerCall _ (.enqueue f) => ∀ n s, f n s ≠ .unwind
  | .drain _ .drop | .drain _ .unwind => False
  | _ => True

theorem Call.tame (k : Call S T) : (k.act i).Tame := by
  cases k <;> try trivial
  case tryEnqueue m =>
    intro n s
    simp only [MatchState.ofBool]
    split <;> simp

theorem World.instruction_tame {w : World S T P G} {k : Act S T} {weak : Bool}
    (h : w.instruction i weak = some k) : k.Tame := by
  unfold World.instruction at h
  repeat' split at h
  all_goals first | (obtain rfl := Option.some.inj h; trivial) | simp at h

/-- A tame step from a calm state is clean. -/
theorem Transition.clean_of_tame {k : Act S T} (hc : ∀ x, (c.own x).Calm) (hk : k.Tame) :
    (⟨c, k, e, c'⟩ : Transition S T).Clean := by
  cases k <;> try trivial
  case owner x weak =>
    have hx := hc x
    change (c.own x).unwindsLate = false
    cases ho : c.own x <;> rw [ho] at hx <;> simp_all [OwnPc.unwindsLate, OwnPc.Calm]
  case drain d q => cases q <;> trivial

section Moves

variable [DecidableEq S] [QueueState S] {k : Act S T} {w w' : World S T P G}

theorem step_calm {x : NodeId} (hk : k.Tame) (hs : step cfg c k = some (c', e))
    (h : (c.own x).Calm) : (c'.own x).Calm := by
  have key := own_setOwn_apply (S := S) (T := T) x
  cases hh : k.isHolder with
  | true =>
    obtain ⟨p, hp, ⟨-, hs⟩ | ⟨q, -, hs⟩⟩ := step_holder hh hs
    · rcases holderStep_own hs x with e | e | e | e <;> rw [e] <;> first | exact h | trivial
    · rcases holderCall_own hs x with e | e <;> rw [e] <;> first | exact h | trivial
  | false =>
    rcases step_own hh hs x with ho | ⟨weak, rfl⟩ | ⟨q, rfl⟩
    · rwa [ho]
    · simp only [step] at hs
      unfold ownerStep linkStep at hs
      repeat' split at hs
      all_goals grind [OwnPc.Calm, State.own_hold, State.own_withMem]
    · simp only [step] at hs
      unfold ownerCall at hs
      repeat' split at hs
      all_goals grind [OwnPc.Calm, State.own_withMem, Act.Tame]

theorem step_tight {d : DrainId} (hk : k.Tame) (hs : step cfg c k = some (c', e))
    (h : (c.drains d).Tight) : (c'.drains d).Tight := by
  have key := drains_setDrain_apply (S := S) (T := T) d
  cases k <;> simp only [step] at hs
  case lock => grind [State.drains_hold]
  case holder =>
    cases hm : c.mutex <;> simp only [hm, reduceCtorEq] at hs
    rcases holderStep_drains hs d with e | e | ⟨l, e⟩ | e <;> rw [e] <;> first | exact h | trivial
  case holderCall q =>
    cases hm : c.mutex <;> simp only [hm, reduceCtorEq] at hs
    rcases holderCall_drains hs d with e | e <;> rw [e] <;> first | exact h | trivial
  case owner x weak => rwa [ownerStep_drains hs]
  case ownerCall x q => rwa [ownerCall_drains hs]
  case thread t weak => rwa [threadStep_drains hs]
  case threadCall t q => rwa [threadCall_drains hs]
  case drain d' q =>
    unfold drainStep at hs
    repeat' split at hs
    all_goals grind [DrainPc.Tight, State.drains_hold, Act.Tame]

theorem World.Ok.taskStep (h : w.Ok cfg a) {q' : State S T} (hb : k.ByTask w.lockedBy i)
    (hk : k.Tame) (hs : step cfg w.q k = some (q', e)) : TaskStep cfg a w i k e q' := by
  obtain ⟨ha, hi⟩ := Inv.step (t := ⟨w.q, k, e, q'⟩) h.inv (Transition.clean_of_tame h.calm hk) hs
  exact ⟨h, hb, ⟨hs, h.inv, ha, hi⟩⟩

section Facts

variable {q' : State S T} (h : TaskStep cfg a w i k e q')

include h

theorem TaskStep.step : Aiq.step cfg w.q k = some (q', e) := h.sound.step

theorem TaskStep.allows : a.Allows e := h.sound.allows

end Facts

theorem TaskStep.ok' {q' : State S T} (h : TaskStep cfg a w i k e q') (hk : k.Tame) (p : P) (g : G) :
    (w.moved i q' p g).Ok cfg (a.apply e) where
  inv := h.sound.inv'
  lock := h.ok.lock.step h.sound h.byTask
  calm := fun x => step_calm hk h.sound.step (h.ok.calm x)
  tight := fun d => step_tight hk h.sound.step (h.ok.tight d)

/-- A step of the task `i` of the client `C` from `w` to `w'`, and its event. -/
inductive Client.Moves (C : Client S T P G I) (cfg : Config) (a : Abs S) (w : World S T P G)
    (i : TaskId) (n : I) (w' : World S T P G) : Event S → Prop
  /-- An instruction of the operation under way. -/
  | op {k : Act S T} {e : Event S} {weak : Bool} {q' : State S T} (hk : w.instruction i weak = some k)
      (hs : TaskStep cfg a w i k e q')
      (hw : w' = w.moved i q' (C.observe w i e q').1 (C.observe w i e q').2) : Moves C cfg a w i n w' e
  /-- A call. -/
  | call {r : Instr S T P G} {k : Call S T} {e : Event S} {q' : State S T}
      (hi : ∀ weak, w.instruction i weak = none) (hr : C.next w i n = some r) (hk : r.call = some k)
      (hl : k.onLock = true → w.lockedBy = some i) (hs : TaskStep cfg a w i (k.act i) e q')
      (hw : w' = w.moved i q' (r.pc e q') r.shared) : Moves C cfg a w i n w' e
  /-- A step of its own. -/
  | own {r : Instr S T P G} (hi : ∀ weak, w.instruction i weak = none)
      (hr : C.next w i n = some r) (hk : r.call = none)
      (hw : w' = { w with pc := Function.update w.pc i (r.pc .tau w.q), shared := r.shared }) :
      Moves C cfg a w i n w' .tau

/-- A step of a client is a move, with the event of the step. -/
theorem Client.moves_event {C : Client S T P G I} {weak : Bool} {n : I} (h : w.Ok cfg a)
    (hs : C.step cfg w i weak n = some w') :
    ∃ e, C.event cfg w i weak n = some e ∧ C.Moves cfg a w i n w' e := by
  unfold Client.step at hs
  unfold Client.event
  cases hk : w.instruction i weak with
  | some k =>
    simp only [hk] at hs ⊢
    split at hs
    · simp at hs
    · rename_i q' e hq
      refine ⟨e, by rw [hq]; rfl, .op hk ?_ (Option.some.inj hs).symm⟩
      exact h.taskStep (World.instruction_byTask hk) (World.instruction_tame hk) hq
  | none =>
    simp only [hk] at hs ⊢
    have hi := World.instruction_eq_none hk
    cases hr : C.next w i n with
    | none => simp [hr] at hs
    | some r =>
      simp only [hr] at hs ⊢
      cases hc : r.call with
      | none =>
        simp only [hc] at hs
        exact ⟨.tau, rfl, .own hi hr hc (Option.some.inj hs).symm⟩
      | some k =>
        simp only [hc] at hs ⊢
        split at hs
        · simp at hs
        · rename_i q' e hq
          rw [hq]
          unfold World.call at hq
          split at hq
          · simp at hq
          · rename_i hl
            have hl' : k.onLock = true → w.lockedBy = some i := fun h => by
              by_contra hne
              exact hl ⟨h, hne⟩
            refine ⟨e, rfl, .call hi hr hc hl' ?_ (Option.some.inj hs).symm⟩
            exact h.taskStep (Call.byTask hl') (Call.tame k) hq

theorem Client.moves_of_event {C : Client S T P G I} {weak : Bool} {n : I} (h : w.Ok cfg a)
    (hs : C.step cfg w i weak n = some w') (he : C.event cfg w i weak n = some e) :
    C.Moves cfg a w i n w' e := by
  obtain ⟨e', he', hm⟩ := Client.moves_event h hs
  obtain rfl := Option.some.inj (he.symm.trans he')
  exact hm

theorem Client.moves {C : Client S T P G I} {weak : Bool} {n : I} (h : w.Ok cfg a)
    (hs : C.step cfg w i weak n = some w') : ∃ e, C.Moves cfg a w i n w' e := by
  obtain ⟨e, -, hm⟩ := Client.moves_event h hs
  exact ⟨e, hm⟩

theorem Client.Moves.ok' {C : Client S T P G I} {n : I} (h : w.Ok cfg a)
    (hm : C.Moves cfg a w i n w' e) : w'.Ok cfg (a.apply e) := by
  cases hm with
  | op hk hs hw => exact hw ▸ hs.ok' (World.instruction_tame hk) _ _
  | call hi hr hk hl hs hw => exact hw ▸ hs.ok' (Call.tame _) _ _
  | own hi hr hk hw => exact hw ▸ ⟨h.inv, h.lock, h.calm, h.tight⟩

end Moves

/-! ## What belongs to the other tasks -/

theorem HolderPc.task_of_actor {p : HolderPc S} (h : p.actor = some j) : p.op.task = some j := by
  unfold HolderPc.actor at h
  unfold HolderPc.op GetCont.op
  grind [HolderOp.task]

section Frame

variable [DecidableEq S] [QueueState S] {k : Act S T} {w : World S T P G} {q' : State S T}

/-- The holder works for the task that makes its step. -/
theorem TaskStep.of_actor (h : TaskStep cfg a w i k e q') (hk : k.isHolder = true) {p : HolderPc S}
    (hp : w.q.mutex = some p) (hj : p.op.task = some j) : j = i := by
  have hl : w.lockedBy = some i := by
    have := h.byTask
    cases k <;> simp only [Act.isHolder, reduceCtorEq] at hk <;> exact this
  have := h.ok.lock.task (by simp [State.op, hp]) hj
  rw [hl] at this
  exact (Option.some.inj this).symm

theorem TaskStep.own_ne (h : TaskStep cfg a w i k e q') (hj : j ≠ i) : q'.own j = w.q.own j := by
  cases hk : k.isHolder with
  | true =>
    obtain ⟨p, hp, ⟨-, hs⟩ | ⟨q, -, hs⟩⟩ := step_holder hk h.sound.step
    · refine (holderStep_own_or hs j).resolve_right fun ha => hj ?_
      exact h.of_actor hk hp (HolderPc.task_of_actor ha)
    · refine (holderCall_own_or hs j).resolve_right fun ha => hj ?_
      exact h.of_actor hk hp (HolderPc.task_of_actor ha)
  | false =>
    have hb := h.byTask
    rcases step_own hk h.sound.step j with ho | ⟨weak, rfl⟩ | ⟨q, rfl⟩
    · exact ho
    · exact absurd hb hj
    · exact absurd hb hj

theorem TaskStep.upd_ne (h : TaskStep cfg a w i k e q') (hj : j ≠ i) : q'.upd j = w.q.upd j := by
  refine (step_upd h.sound.step j).resolve_right fun hb => hj ?_
  have hi := h.byTask
  cases k <;> simp only [Act.ByThread] at hb
  case holder => exact h.of_actor rfl hb rfl
  all_goals exact hb.symm.trans hi

/-- The other tasks leave the mutex to the one that has it. -/
theorem TaskStep.mutex_ne (h : TaskStep cfg a w i k e q') (hl : w.lockedBy = some j) (hj : j ≠ i) :
    q'.mutex = w.q.mutex := by
  obtain ⟨p, hp⟩ : ∃ p, w.q.mutex = some p := by
    rw [← Option.isSome_iff_exists, h.ok.lock.isSome, hl]
    rfl
  have hk : k.isHolder = false := by
    by_contra hk
    have := h.byTask
    cases k <;> simp [Act.isHolder] at hk <;>
      exact hj (Option.some.inj (hl.symm.trans this))
  rcases h.sound.inv.mutex_thread hk hp h.sound.step with hm | ⟨t, weak, rfl, rfl⟩
  · rw [hm, hp]
  · have ht := h.ok.lock.task (by simp [State.op, hp]) (show (HolderPc.upd t).op.task = some t from rfl)
    rw [hl] at ht
    exact absurd ((Option.some.inj ht).trans h.byTask) hj

end Frame

/-! ## Node data -/

/-- The node whose data can be reached from what the lock is held with. -/
def HolderOp.node : HolderOp S → Option NodeId
  | .handle x | .queued x | .drained _ (.node x) => some x
  | _ => none

/-- Who writes to the data of a node. -/
theorem step_data [DecidableEq S] [QueueState S] {k : Act S T} (hs : step cfg c k = some (c', e))
    (y : NodeId) :
    c'.mem.data y = c.mem.data y ∨ (∃ v, k = .ownerCall y (.create v) ∧ c'.mem.data y = v) ∨
      (∃ g, k = .ownerCall y (.withDataMut g) ∧ c'.mem.data y = g (c.mem.data y)) ∨
      ∃ g, k = .holderCall (.withDataMut g) ∧ c.op.bind HolderOp.node = some y ∧
        c'.mem.data y = g (c.mem.data y) := by
  have key := fun (m : Mem S T) x v => Mem.data_setData m x v y
  cases k <;> simp only [step] at hs
  case lock => grind [State.mem_hold]
  case holder =>
    cases hm : c.mutex <;> simp only [hm, reduceCtorEq] at hs
    exact .inl (by rw [holderStep_data hs])
  case holderCall q =>
    cases hm : c.mutex <;> simp only [hm, reduceCtorEq] at hs
    unfold holderCall guardCall drainLockedCall Mem.newSentinel at hs
    unfold State.op
    repeat' split at hs
    all_goals grind [State.mem_hold, State.mem_withMem, State.mem_setDrain, State.mem_setOwn,
      State.mem_free, Mem.data_setPrev, Mem.data_setLink, HolderPc.op, HolderOp.node]
  case owner x weak => exact .inl (by rw [ownerStep_data hs])
  case ownerCall x q =>
    unfold ownerCall at hs
    repeat' split at hs
    all_goals grind [State.mem_withMem, State.mem_setOwn, Mem.data_setPrev, Mem.data_setLink]
  case thread t weak =>
    rcases threadStep_mem hs with h | ⟨s, h⟩ <;> rw [h] <;> exact .inl rfl
  case threadCall t q =>
    rcases threadCall_mem hs with h | ⟨s, h⟩ <;> rw [h] <;> exact .inl rfl
  case drain d q => rw [drainStep_mem hs]; exact .inl rfl

/-! ## Runs -/

/-- The steps `ls` of the client lead from `w` to `w'`: each is a task, whether a weak CAS fails
spuriously in it, and its input. -/
abbrev Client.Runs [DecidableEq S] [QueueState S] (C : Client S T P G I) (cfg : Config) :
    World S T P G → List (TaskId × Bool × I) → World S T P G → Prop :=
  Lts.Run fun w l w' => C.step cfg w l.1 l.2.1 l.2.2 = some w'

/-- The induction rule for clients: what is kept by every step, together with the abstract queue and an
invariant `R` of the client, holds after every run. -/
theorem Client.Runs.induct [DecidableEq S] [QueueState S] {C : Client S T P G I}
    {R Q : World S T P G → Abs S → Prop} {w w' : World S T P G} {ls : List (TaskId × Bool × I)}
    (h : C.Runs cfg w ls w') (hok : ∀ {w a}, R w a → w.Ok cfg a)
    (hstep : ∀ {w a i n w' e}, R w a → C.Moves cfg a w i n w' e → R w' (a.apply e))
    (hw : R w a) (h₀ : Q w a)
    (hQ : ∀ l ∈ ls, ∀ w a w' e, R w a → C.step cfg w l.1 l.2.1 l.2.2 = some w' →
      C.Moves cfg a w l.1 l.2.2 w' e → Q w a → Q w' (a.apply e)) : ∃ a', R w' a' ∧ Q w' a' := by
  refine Lts.Run.prefixed (P := fun _ w => ∃ a, R w a ∧ Q w a) h ⟨a, hw, h₀⟩ ?_
  rintro ks l w₁ w₂ hl hs ⟨a₁, hw₁, hq⟩
  obtain ⟨e, hm⟩ := Client.moves (hok hw₁) hs
  exact ⟨_, hstep hw₁ hm, hQ l hl w₁ a₁ w₂ e hw₁ hs hm hq⟩

/-! ## Given schedules -/

section Perform

variable [DecidableEq S] [QueueState S]

/-- The steps `ls`, made from `w` one after the other. -/
def Client.perform (C : Client S T P G I) (cfg : Config) (w : World S T P G) :
    List (TaskId × Bool × I) → Option (World S T P G)
  | [] => some w
  | l :: ls =>
    match C.step cfg w l.1 l.2.1 l.2.2 with
    | none => none
    | some w' => C.perform cfg w' ls

/-- The state after a schedule in which every task can move. -/
def Client.after (C : Client S T P G I) (cfg : Config) (w : World S T P G)
    (ls : List (TaskId × Bool × I)) : World S T P G :=
  (C.perform cfg w ls).getD w

theorem Client.runs_of_perform {C : Client S T P G I} {w w' : World S T P G}
    {ls : List (TaskId × Bool × I)} (h : C.perform cfg w ls = some w') : C.Runs cfg w ls w' := by
  induction ls generalizing w with
  | nil =>
    obtain rfl : w = w' := by simpa [Client.perform] using h
    exact .nil
  | cons l ls ih =>
    unfold Client.perform at h
    split at h
    · simp at h
    · rename_i w₁ hs
      exact Lts.Run.cons hs (ih h)

theorem Client.step_pc_ne {C : Client S T P G I} {w w' : World S T P G} {weak : Bool} {n : I}
    (h : C.step cfg w i weak n = some w') (hj : j ≠ i) : w'.pc j = w.pc j := by
  unfold Client.step at h
  repeat' split at h
  all_goals first | contradiction | obtain rfl := Option.some.inj h
  all_goals exact Function.update_of_ne hj ..

/-- A task that makes no step stays where it is. -/
theorem Client.Runs.pc_ne {C : Client S T P G I} {w w' : World S T P G} {ls : List (TaskId × Bool × I)}
    (h : C.Runs cfg w ls w') (hj : ∀ l ∈ ls, j ≠ l.1) : w'.pc j = w.pc j :=
  Lts.Run.prefixed (P := fun _ u => u.pc j = w.pc j) h rfl fun _ l _ _ hl hs ih =>
    (Client.step_pc_ne hs (hj l hl)).trans ih

theorem Client.runs_after {C : Client S T P G I} {w : World S T P G} {ls : List (TaskId × Bool × I)}
    (h : (C.perform cfg w ls).isSome) : C.Runs cfg w ls (C.after cfg w ls) := by
  obtain ⟨w', hw'⟩ := Option.isSome_iff_exists.1 h
  rw [Client.after, hw']
  exact Client.runs_of_perform hw'

/-- The schedule can be made, and every step of it meets the condition `p`. -/
def Client.meets (C : Client S T P G I) (cfg : Config) (p : World S T P G → TaskId × Bool × I → Bool)
    (w : World S T P G) : List (TaskId × Bool × I) → Bool
  | [] => true
  | l :: ls => p w l &&
    match C.step cfg w l.1 l.2.1 l.2.2 with
    | none => false
    | some w' => C.meets cfg p w' ls

theorem Client.perform_of_meets {C : Client S T P G I} {p : World S T P G → TaskId × Bool × I → Bool}
    {w : World S T P G} {ls : List (TaskId × Bool × I)} (h : C.meets cfg p w ls = true) :
    ∃ w', C.perform cfg w ls = some w' ∧
      Lts.Run (fun w l w' => p w l = true ∧ C.step cfg w l.1 l.2.1 l.2.2 = some w') w ls w' := by
  induction ls generalizing w with
  | nil => exact ⟨w, rfl, .nil⟩
  | cons l ls ih =>
    rw [Client.meets, Bool.and_eq_true] at h
    obtain ⟨hp, h⟩ := h
    split at h
    · simp at h
    · rename_i w₁ hs
      obtain ⟨w', hw', hr⟩ := ih h
      exact ⟨w', by simp [Client.perform, hs, hw'], Lts.Run.cons ⟨hp, hs⟩ hr⟩

theorem Client.run_of_meets {C : Client S T P G I} {p : World S T P G → TaskId × Bool × I → Bool}
    {w : World S T P G} {ls : List (TaskId × Bool × I)} (h : C.meets cfg p w ls = true) :
    Lts.Run (fun w l w' => p w l = true ∧ C.step cfg w l.1 l.2.1 l.2.2 = some w') w ls
      (C.after cfg w ls) := by
  obtain ⟨w', hw', hr⟩ := Client.perform_of_meets h
  rwa [Client.after, hw']

end Perform

end Aiq
