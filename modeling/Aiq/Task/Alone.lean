import Aiq.Task.Stage

/-!
# Operations that nothing interferes with

When every link is written, `get_next` returns at once, and an operation under the lock ends after a few
instructions (`Inv.holderStep_rank`).
-/

namespace Aiq

variable {S T : Type} {cfg : Config} {c c' : State S T} {a : Abs S} {e : Event S} {x : NodeId}
  {p q : HolderPc S} {s : S}

/-- The holder does not wait for a link. -/
def HolderPc.Direct : HolderPc S → Prop
  | .get _ g _ => g = .load
  | _ => True

/-- How many instructions `dequeue` and `remove_with_prev` have to make at most. -/
def HolderPc.rank : HolderPc S → ℕ
  | .get _ _ .dequeue | .rmDone _ _ => 1
  | .rmSetNext _ _ => 2
  | .rmSetPrev _ _ => 3
  | .get _ _ (.relink _) => 4
  | .rmCas _ => 5
  | .rmClear _ => 6
  | .rmNext _ => 7
  | .get _ _ (.waitEnqueued _) => 8
  | .rmPrev _ _ _ _ => 9
  | _ => 0

/-- See `HolderPc.rank`. -/
def State.rank (c : State S T) : ℕ := c.mutex.elim 0 HolderPc.rank

theorem State.rank_eq (h : c.mutex = some p) : c.rank = p.rank := by simp [State.rank, h]

theorem HolderPc.rank_le (p : HolderPc S) : p.rank ≤ 9 := by
  unfold HolderPc.rank
  split <;> decide

theorem State.rank_le (c : State S T) : c.rank ≤ 9 := by
  unfold State.rank
  cases c.mutex with
  | none => simp
  | some p => exact p.rank_le

theorem HolderPc.runs_of_rank (h : p.rank ≠ 0) : p.runs = true := by
  cases p <;> first | rfl | exact absurd rfl h

theorem HolderPc.rank_of_op (h : p.op = .dequeuing ∨ ∃ x s k, p.op = .removing x s k) : p.rank ≠ 0 := by
  cases p <;> simp [HolderPc.op] at h
  case get l g k =>
    cases k
    case drained d b flush => cases flush <;> simp [GetCont.op] at h
    all_goals simp_all [GetCont.op, HolderPc.rank]
  case ddPrev d b flush => cases flush <;> simp at h
  case ddSetHead d b v flush => cases flush <;> simp at h
  case ddDone d b flush => cases flush <;> simp at h
  all_goals simp [HolderPc.rank]

theorem State.holder_of_rank (h : c.rank ≠ 0) : ∃ p, c.mutex = some p ∧ p.rank ≠ 0 := by
  unfold State.rank at h
  cases hm : c.mutex with
  | none => simp [hm] at h
  | some p => exact ⟨p, rfl, by simpa [hm] using h⟩

/-- The link that `get_next` reads is written. -/
theorem Inv.link_of_linked {l : Loc} {g : GetPc} {k : GetCont S} (h : Inv cfg c a)
    (hl : ∀ x, c.pend x = none) (hm : c.mutex = some (.get l g k)) : ∃ y, c.mem.link l = .to y := by
  obtain ⟨⟨i, y, hy, hloc, hk⟩, -⟩ := h.holder hm
  rcases h.awaited_link hm hy hloc hk with ⟨e, -⟩ | ⟨-, x, -, hx⟩
  · exact ⟨y, e⟩
  · simp [hl x] at hx

section Step

variable [DecidableEq S] [QueueState S]

omit [DecidableEq S] in
theorem holderCall_direct {k : HolderCall S T} (hd : p.Direct) (hm : c.mutex = some p)
    (hs : holderCall c p k = some (c', e)) (hq : c'.mutex = some q) : q.Direct := by
  unfold HolderPc.Direct at hd ⊢
  unfold holderCall guardCall drainLockedCall at hs
  repeat' split at hs
  all_goals grind [State.mutex_hold, State.mutex_free, State.mutex_withMem, State.mutex_setDrain,
    State.mutex_setOwn]

theorem holderStep_direct (hd : p.Direct) (hm : c.mutex = some p)
    (hl : ∀ l k, p = .get l .load k → c.mem.link l ≠ .null) (hs : holderStep cfg c p = some (c', e))
    (hq : c'.mutex = some q) : q.Direct := by
  unfold HolderPc.Direct at hd ⊢
  unfold holderStep getStep GetCont.resume Removal.return Release.apply at hs
  repeat' split at hs
  all_goals grind [State.mutex_hold, State.mutex_free, State.mutex_withMem, State.mutex_setDrain,
    State.mutex_setOwn, State.mutex_setUpd]

/-- When every link is written, `dequeue` and `remove_with_prev` make progress. -/
theorem Inv.holderStep_rank (h : Inv cfg c a) (hl : ∀ x, c.pend x = none) (hm : c.mutex = some p)
    (hd : p.Direct) (hr : p.rank ≠ 0) :
    ∃ c' e, Aiq.holderStep cfg c p = some (c', e) ∧
      ∀ q, c'.mutex = some q → q.Direct ∧ q.rank < p.rank := by
  cases p <;> simp only [HolderPc.rank, ne_eq, not_true_eq_false] at hr
  case get l g k =>
    obtain ⟨y, hy⟩ := h.link_of_linked hl hm
    obtain rfl : g = .load := hd
    have hne : c.mem.link l ≠ .null := by simp [hy]
    have hs : Aiq.holderStep cfg c (.get l .load k) =
        some ((c.withMem c.mem).hold (k.resume (c.mem.link l)), k.event (c.mem.link l)) := by
      simp only [Aiq.holderStep, Aiq.getStep, if_neg hne]
    refine ⟨_, _, hs, fun q hq => ?_⟩
    obtain rfl := Option.some.inj hq
    rw [hy]
    cases k <;> try exact absurd rfl hr
    case dequeue => cases y <;> simp [GetCont.resume, HolderPc.rank, HolderPc.Direct]
    all_goals simp [GetCont.resume, HolderPc.rank, HolderPc.Direct]
  case rmPrev x s w k =>
    simp only [Aiq.holderStep]
    split
    · refine ⟨_, _, rfl, fun q hq => ?_⟩
      obtain rfl := Option.some.inj hq
      cases w <;> simp [HolderPc.rank, HolderPc.Direct]
    · refine ⟨_, _, rfl, fun q hq => ?_⟩
      obtain rfl := Option.some.inj hq
      simp [HolderPc.rank, HolderPc.Direct]
  case rmNext r =>
    simp only [Aiq.holderStep]
    split <;> refine ⟨_, _, rfl, fun q hq => ?_⟩ <;> obtain rfl := Option.some.inj hq <;>
      simp [HolderPc.rank, HolderPc.Direct]
  case rmCas r =>
    simp only [Aiq.holderStep]
    split <;> refine ⟨_, _, rfl, fun q hq => ?_⟩ <;> obtain rfl := Option.some.inj hq <;>
      simp [HolderPc.rank, HolderPc.Direct]
  case rmDone r b =>
    refine ⟨_, _, rfl, fun q hq => ?_⟩
    unfold Removal.return at hq
    split at hq <;> obtain rfl := Option.some.inj hq <;> simp [HolderPc.rank, HolderPc.Direct]
  all_goals
    refine ⟨_, _, rfl, fun q hq => ?_⟩
    obtain rfl := Option.some.inj hq
    simp [HolderPc.rank, HolderPc.Direct]

end Step

/-! ## Tasks -/

section Task

variable {P G I : Type} {w w' : World S T P G} {i : TaskId} {C : Client S T P G I} {n : I}

/-- Nothing is under way that can interfere with the task: the lock is free or its own, and every link is
written. -/
structure World.Quiet (w : World S T P G) (i : TaskId) : Prop where
  lock : w.lockedBy = none ∨ w.lockedBy = some i
  linked : ∀ x, w.q.pend x = none
  direct : ∀ p, w.q.mutex = some p → p.Direct

/-- A task that rests has no instruction to make. -/
theorem View.Rests.instruction (h : (w.view i).Rests) (weak : Bool) : w.instruction i weak = none := by
  have hown : (w.q.own i).runs = false := by rw [← OwnPc.runs_op]; exact h.own
  have hupd : (w.q.upd i).runs = false := by rw [← UpdPc.runs_op]; exact h.upd
  unfold World.instruction
  rw [if_neg (by simp [hown]), if_neg (by simp [hupd]), if_neg]
  rintro ⟨hl, hr⟩
  cases hm : w.q.mutex with
  | none => simp [hm] at hr
  | some p =>
    have := h.op (o := p.op) (by simp [World.view, State.view, heldOp, hl, State.op, hm])
    rw [HolderPc.runs_op] at this
    simp [hm, this] at hr

/-- A task that rests makes the step that its program says. -/
theorem View.Rests.step [DecidableEq S] [QueueState S] {r : Instr S T P G} (h : (w.view i).Rests)
    (weak : Bool) (hr : C.next w i n = some r)
    (hk : ∀ k, r.call = some k → (k.onLock = true → w.lockedBy = some i) ∧
      (Aiq.step cfg w.q (k.act i)).isSome) : ∃ w', C.step cfg w i weak n = some w' := by
  simp only [Client.step, h.instruction, hr]
  cases hc : r.call with
  | none => exact ⟨_, rfl⟩
  | some k =>
    obtain ⟨hl, hs⟩ := hk k hc
    obtain ⟨⟨q, e⟩, hs⟩ := Option.isSome_iff_exists.1 hs
    have hcall : w.call cfg i k = some (q, e) := by
      rw [World.call, if_neg (by tauto), hs]
    simp only [hcall]
    exact ⟨_, rfl⟩

/-- A task that rests makes the call under the lock that its program says. -/
theorem View.Rests.holderCall [DecidableEq S] [QueueState S] {r : Instr S T P G} {k : HolderCall S T}
    {m : HolderPc S} (h : (w.view i).Rests) (weak : Bool) (hl : w.lockedBy = some i)
    (hm : w.q.mutex = some m) (hr : C.next w i n = some r) (hk : r.call = some (.holder k))
    (hc : (Aiq.holderCall w.q m k).isSome) : ∃ w', C.step cfg w i weak n = some w' := by
  refine h.step weak hr fun k' hk' => ?_
  obtain rfl := Option.some.inj (hk.symm.trans hk')
  exact ⟨fun _ => hl, by simpa [Call.act, Aiq.step, hm] using hc⟩

variable [DecidableEq S] [QueueState S]

omit [DecidableEq S] [QueueState S] in
/-- The lock is free when the task does not have it. -/
theorem World.Quiet.unlocked (hq : w.Quiet i) (hw : w.Ok cfg a) (hv : (w.view i).op = none) :
    w.q.mutex = none := by
  have hsome := hw.lock.isSome
  rcases hq.lock with hl | hl
  · simpa [hl] using hsome
  · cases hm : w.q.mutex with
    | none => rfl
    | some p => simp [World.view, State.view, heldOp, hl, State.op, hm] at hv

theorem TaskStep.direct {k : Act S T} {q' : State S T} (h : TaskStep cfg a w i k e q')
    (hq : w.Quiet i) {p : HolderPc S} (hp : q'.mutex = some p) : p.Direct := by
  cases hh : k.isHolder with
  | true =>
    obtain ⟨p', hp', ⟨-, hs⟩ | ⟨q, -, hs⟩⟩ := step_holder hh h.step
    · refine holderStep_direct (hq.direct p' hp') hp' (fun l k hk => ?_) hs hp
      obtain ⟨y, hy⟩ := h.sound.inv.link_of_linked hq.linked (hk ▸ hp')
      have hy' : w.q.mem.link l = .to y := hy
      simp [hy']
    · exact holderCall_direct (hq.direct p' hp') hp' hs hp
  | false =>
    rcases step_mutex hh h.step with hm | ⟨-, p', hp', he⟩
    · exact hq.direct p (hm ▸ hp)
    · obtain rfl := Option.some.inj (hp'.symm.trans hp)
      cases p' <;> trivial

/-- A task that is alone stays so, unless it links its node. -/
theorem Client.Moves.quiet (hm : C.Moves cfg a w i n w' e) (hq : w.Quiet i) (hi : w'.q.pend i = none) :
    w'.Quiet i where
  lock := by
    have key : ∀ q' : State S T, nextLock w.lockedBy i q' = none ∨ nextLock w.lockedBy i q' = some i :=
      fun q' => by
        unfold nextLock
        split
        · rcases hq.lock with h | h <;> simp [h]
        · exact .inl rfl
    cases hm with
    | op hk hs hw => exact hw ▸ key _
    | call hi hr hk hl hs hw => exact hw ▸ key _
    | own hi hr hk hw => exact hw ▸ hq.lock
  linked := fun x => by
    by_cases hx : x = i
    · exact hx ▸ hi
    · have := hq.linked x
      rwa [State.pend, ← hm.own_ne hx] at this
  direct := fun p hp => by
    cases hm with
    | op hk hs hw =>
      subst hw
      exact hs.direct hq hp
    | call hi hr hk hl hs hw =>
      subst hw
      exact hs.direct hq hp
    | own hi hr hk hw =>
      subst hw
      exact hq.direct p hp

/-- A task with an operation under the lock that makes progress. -/
structure World.Advancing (w : World S T P G) (i : TaskId) : Prop where
  own : (w.q.own i).runs = false
  upd : (w.q.upd i).runs = false
  lock : w.lockedBy = some i
  rank : w.q.rank ≠ 0

omit [DecidableEq S] [QueueState S] in
theorem World.Advancing.instruction (h : w.Advancing i) (weak : Bool) :
    w.instruction i weak = some .holder := by
  obtain ⟨p, hp, hr⟩ := State.holder_of_rank h.rank
  simp [World.instruction, h.own, h.upd, h.lock, hp, HolderPc.runs_of_rank hr]

omit [DecidableEq S] [QueueState S] in
/-- A task that has called `dequeue` or `remove_with_prev`. -/
theorem World.Advancing.of_view {o : HolderOp S} (hx : (w.view i).own.runs = false)
    (hu : (w.view i).upd.runs = false) (hv : (w.view i).op = some o)
    (ho : o = .dequeuing ∨ ∃ x s k, o = .removing x s k) : w.Advancing i := by
  obtain ⟨hl, hop⟩ := World.op_of_view hv
  obtain ⟨m, hm, rfl⟩ := Option.map_eq_some_iff.1 hop
  refine ⟨by rwa [← OwnPc.runs_op], by rwa [← UpdPc.runs_op], hl, ?_⟩
  rw [State.rank_eq hm]
  exact HolderPc.rank_of_op ho

/-- Such a task can make a step. -/
theorem World.Advancing.step (h : w.Advancing i) (hq : w.Quiet i) (hw : w.Ok cfg a) (weak : Bool) (n : I) :
    ∃ w', C.step cfg w i weak n = some w' := by
  obtain ⟨p, hp, hr⟩ := State.holder_of_rank h.rank
  obtain ⟨q', e, hs, -⟩ := hw.inv.holderStep_rank hq.linked hp (hq.direct p hp) hr
  refine ⟨w.moved i q' (C.observe w i e q').1 (C.observe w i e q').2, ?_⟩
  have hs' : Aiq.step cfg w.q .holder = some (q', e) := by simpa [Aiq.step, hp] using hs
  simp [Client.step, h.instruction, hs']

/-- Its steps lower the rank. -/
theorem World.Advancing.rank_lt (h : w.Advancing i) (hq : w.Quiet i) (hm : C.Moves cfg a w i n w' e) :
    w'.q.rank < w.q.rank := by
  obtain ⟨p, hp, hr⟩ := State.holder_of_rank h.rank
  cases hm with
  | @op k e weak q' hk hs hw =>
    obtain rfl := Option.some.inj ((h.instruction weak).symm.trans hk)
    obtain ⟨q, e', hs', hlt⟩ := hs.sound.inv.holderStep_rank hq.linked hp (hq.direct p hp) hr
    have heq : Aiq.holderStep cfg w.q p = some (q', e) := by simpa [Aiq.step, hp] using hs.step
    obtain ⟨rfl, rfl⟩ := Prod.mk.inj (Option.some.inj (hs'.symm.trans heq))
    subst hw
    rw [State.rank_eq hp]
    show q.rank < p.rank
    cases hq' : q.mutex with
    | none => simpa [State.rank, hq'] using Nat.pos_of_ne_zero hr
    | some p' => rw [State.rank_eq hq']; exact (hlt p' hq').2
  | call hi => simp [h.instruction] at hi
  | own hi => simp [h.instruction] at hi

/-- A `fetch_update_state` that nothing interferes with returns at its next instruction. -/
theorem World.attempt_step {f : UpdateFn S} {m : ℕ} {s : S} (hx : (w.q.own i).runs = false)
    (hu : w.q.upd i = .attempt f m .plain s) (ht : w.q.mem.tail = .state s) (n : I) :
    ∃ w', C.step cfg w i false n = some w' ∧ w'.q.upd i = .idle := by
  have hi : w.instruction i false = some (.thread i false) := by
    simp [World.instruction, hx, hu, UpdPc.runs]
  have key : ∃ q e, Aiq.step cfg w.q (.thread i false) = some (q, e) ∧ q.upd i = .idle := by
    simp only [Aiq.step, threadStep, hu]
    split
    · exact ⟨_, _, rfl, by simp⟩
    · rw [if_pos (by simp [ht])]
      exact ⟨_, _, rfl, by simp [Attempt.ok]⟩
  obtain ⟨q, e, hs, hq⟩ := key
  simp only [Client.step, hi, hs]
  exact ⟨_, rfl, hq⟩

/-! ## `state` -/

/-- How many instructions `state` has to make at most. -/
def View.askedRank (v : View S) : ℕ :=
  match v.own, v.op with
  | .waitState, _ => 3
  | .locked, some (.checking _) => 2
  | .locked, some (.releasing _) => 1
  | _, _ => 0

omit [DecidableEq S] in
theorem InstrStep.askedRank_lt {s : Option S} {v v' : View S} (h : InstrStep i s v e v') (hv : v.Asked i) :
    v'.askedRank < v.askedRank := by
  rcases hv with rfl | rfl | rfl | rfl | rfl | rfl <;> cases h
  case inr.inr.inl.lockState => simp [View.askedRank]
  all_goals
    rename_i h
    cases h <;> simp_all [View.askedRank, HolderOp.ownAfter, HolderOp.long]

/-- A task that has called `state`, and that nothing interferes with, makes its next step. -/
theorem World.Quiet.asked_step (hq : w.Quiet i) (hw : w.Ok cfg a) (hv : (w.view i).Asked i)
    (hr : ¬ (w.view i).Rests) (weak : Bool) (n : I) : ∃ w', C.step cfg w i weak n = some w' := by
  have hholder : ∀ {o : HolderOp S} {m : HolderPc S}, w.view i = ⟨.locked, .idle, some o⟩ →
      w.q.mutex = some m → m.runs = true → (∃ q e, Aiq.holderStep cfg w.q m = some (q, e)) →
      ∃ w', C.step cfg w i weak n = some w' := by
    rintro o m hv hm hruns ⟨q, e, hs⟩
    have hl := (World.op_of_view (congrArg View.op hv)).1
    have hown : w.q.own i = .locked := OwnPc.op_eq_locked.1 (congrArg View.own hv)
    have hupd : w.q.upd i = .idle := UpdPc.op_eq_idle.1 (congrArg View.upd hv)
    have hi : w.instruction i weak = some .holder := by
      simp [World.instruction, hown, hupd, hl, hm, hruns, OwnPc.runs, UpdPc.runs]
    have hs' : Aiq.step cfg w.q .holder = some (q, e) := by simpa [Aiq.step, hm] using hs
    exact ⟨w.moved i q (C.observe w i e q).1 (C.observe w i e q).2, by simp [Client.step, hi, hs']⟩
  have hrests : ∀ {x : OwnOp S} {o : Option (HolderOp S)}, w.view i = ⟨x, .idle, o⟩ →
      x.runs = false → (∀ o', o = some o' → o'.runs = false) → False := fun hv hx ho =>
    hr ⟨by rw [hv]; exact hx, by rw [hv]; rfl, fun h => ho _ (by rw [← h, hv])⟩
  rcases hv with hv | hv | hv | hv | hv | hv
  · exact (hrests hv rfl (by simp)).elim
  · exact (hrests hv rfl (by simp)).elim
  · have hown : w.q.own i = .waitState := OwnPc.op_eq_waitState.1 (congrArg View.own hv)
    have hm := hq.unlocked hw (congrArg View.op hv)
    exact ⟨_, Client.step_owner (by rw [hown]; rfl) (by simp only [ownerStep, hown, hm]; rfl)⟩
  · refine hholder hv (State.mutex_of_op_checking (World.op_of_view (congrArg View.op hv)).2) rfl ?_
    simp only [Aiq.holderStep]
    split <;> exact ⟨_, _, rfl⟩
  · refine (hrests hv rfl ?_).elim
    rintro _ ⟨⟩
    rfl
  · exact hholder hv (State.mutex_of_op_releasing (World.op_of_view (congrArg View.op hv)).2) rfl
      ⟨_, _, rfl⟩

end Task

end Aiq
