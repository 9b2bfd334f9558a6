import Aiq.Notify.Reached

/-!
# Futures that have become ready

A future that has completed stays ready as long as no poll or `enable` of it finds its node `Unqueued` and
the generation still that of the future (`retries`): every later poll returns `Ready`, no other task can
stop it, and it leaves the queue, the lock and the generation as they were (`readiness_stable`). The next
poll of a future that has taken the stored permit can find them so, and enqueues it.
-/

namespace Aiq.Notify

variable {W : Type} {willWake : W → W → Bool} {cfg : Config} {a : Abs ℕ} {w w' : WorldOf W}
  {i j : TaskId} {e : Event ℕ} {n : Input W} {v : View ℕ} {p p' : Pc W} {f : Inner}

/-! ## Where a completed future is -/

/-- A poll or an `enable` of a completed future is at its check of the generation, which is still that of
the future. -/
def retries (w : WorldOf W) (i : TaskId) : Bool :=
  match w.pc i with
  | .fut f (.load _) => f.completed && w.shared.generation == f.generation
  | _ => false

/-- The control states of a future that has become ready. -/
def FutPc.settled : FutPc W → Bool
  | .idle .ready | .state _ | .load _ | .canceled | .dropping => true
  | _ => false

/-- What is known of the futures that have become ready, and of those that are about to. -/
structure Completed (w : WorldOf W) : Prop where
  ready : ∀ {i f}, w.pc i = .fut f (.idle .ready) → f.completed = true
  settled : ∀ {i f p}, w.pc i = .fut f p → f.completed = true → p.settled = true
  left : ∀ {i f p}, w.pc i = .fut f p → f.completed = true → w.q.mem.rawState i ≠ .queued
  state : ∀ {i f cx}, w.pc i = .fut f (.state cx) → f.completed = true →
    w.view i = ⟨.unqueued, .idle, none⟩ ∨ w.view i = ⟨.dequeued, .idle, none⟩

theorem Completed.init : Completed (init : WorldOf W) where
  ready := fun h => by simp [Notify.init] at h
  settled := fun h => by simp [Notify.init] at h
  left := fun h => by simp [Notify.init] at h
  state := fun h => by simp [Notify.init] at h

/-! ## Steps -/

/-- A future that has become ready was so before, or its node has left the queue. -/
theorem Goes.left (h : Goes willWake w w' i p (e : Event ℕ) p') (hw : w.Ok cfg a)
    (hfit : p.Fits i (w.view i)) {p₁ : FutPc W} (hp : p' = .fut f p₁) (hf : f.completed = true) :
    (∃ p₀, p = .fut f p₀) ∨ p.Away (w.view i) ∨ w.q.mem.rawState i ≠ .queued ∧ e = .tau := by
  have hun : w.view i = ⟨.unqueued, .idle, none⟩ → w.q.mem.rawState i ≠ .queued := fun hv => by
    rw [hw.rawState_of_unqueued (by rw [hv])]
    simp
  have hdeq : w.view i = ⟨.dequeued, .idle, none⟩ → w.q.mem.rawState i ≠ .queued := fun hv => by
    rw [hw.rawState_of_dequeued (by rw [hv])]
    simp
  cases h with
  | instr p e hv hs => exact .inl ⟨_, hp⟩
  | created hs =>
    obtain ⟨rfl, -⟩ := Pc.fut.inj hp
    cases hf
  | loaded g hd =>
    obtain ⟨rfl, -⟩ := Pc.fut.inj hp
    cases hf
  | done f₀ p c h hd hs =>
    refine .inr (.inr ⟨?_, rfl⟩)
    cases h with
    | dequeued cx hv => exact hdeq hv
    | older cx hg => exact hun hfit
    | got => exact hun hfit
    | unqueued c hv => exact hun hv
    | all c hv hn => exact hdeq hv
  | removed f₀ c hv hd hs => exact .inr (.inl (by rw [hv]; rfl))
  | stored o k e hv hv' he hd hs =>
    cases o with
    | user => cases hp
    | cancel f c => exact .inr (.inl trivial)
  | wake o k wk hd hs =>
    cases o with
    | user => cases hp
    | cancel f c => exact .inr (.inl trivial)
  | _ =>
    cases hp
    try exact .inl ⟨_, rfl⟩

theorem Completed.left_step (h : Completed w) (hw : Reached cfg w a)
    (hm : (notify willWake).Moves cfg a w i n w' e)
    (hset : ∀ {j f p}, w'.pc j = .fut f p → f.completed = true → p.settled = true) {p : FutPc W}
    (hp : w'.pc j = .fut f p) (hf : f.completed = true) : w'.q.mem.rawState j ≠ .queued := by
  have hne : ∀ f cx st, w'.pc j ≠ .fut f (.enqueued cx st) := by
    intro f' cx st hp'
    obtain ⟨rfl, -⟩ := Pc.fut.inj (hp.symm.trans hp')
    cases hset hp' hf
  have hleft : ∀ {p₀}, w.pc j = .fut f p₀ → w'.q.mem.rawState j ≠ .queued := by
    refine fun hp₀ => hw.ne_queued hm (hw.ne_enqueue hm fun f' cx st hp' => ?_) hne (h.left hp₀ hf)
    obtain ⟨rfl, -⟩ := Pc.fut.inj (hp₀.symm.trans hp')
    cases h.settled hp' hf
  by_cases hj : j = i
  · subst hj
    rcases (hw.control.goes hm).1.left hw.ok (hw.control j) hp hf with ⟨p₀, hp₀⟩ | hl | ⟨hx, rfl⟩
    · exact hleft hp₀
    · exact hw.ne_queued hm (hw.ne_enqueue hm hl.ne_enqueued) hne (hw.away hl)
    · exact hw.ne_queued hm (by simp) hne hx
  · rw [hm.pc_ne hj] at hp
    exact hleft hp

/-- The view of a task whose future has become ready and is asked again. -/
theorem Completed.view_step (h : Completed w) (hw : Reached cfg w a)
    (hm : (notify willWake).Moves cfg a w i n w' e) {cx : Option W} (hp : w'.pc j = .fut f (.state cx))
    (hf : f.completed = true) :
    w'.view j = ⟨.unqueued, .idle, none⟩ ∨ w'.view j = ⟨.dequeued, .idle, none⟩ := by
  by_cases hj : j = i
  · subst hj
    have hgo := (hw.control.goes hm).1
    generalize hpc : w.pc j = p at hgo
    generalize w'.pc j = p' at hgo hp
    cases hgo with
    | instr p e hv hs =>
      subst hp
      rcases h.state hpc hf with hv₀ | hv₀ <;> rw [hv₀] at hv <;> generalize w'.view j = v' at hv <;>
        cases hv
    | goto f p p' hg hq hv hs => cases hg <;> cases hp
    | state f₀ p p' hp' hv hs =>
      rcases hp' with ⟨r, cx', rfl, rfl⟩ | ⟨c, rfl, rfl⟩
      · obtain ⟨rfl, -⟩ := Pc.fut.inj hp
        have hx := h.left hpc hf
        have hi := hw.control j
        rw [hpc] at hi
        rw [show w.view j = ⟨.idle, .idle, none⟩ from hi] at hv
        generalize w'.view j = v' at hv ⊢
        cases hv with
        | stateUnqueued u o hr => exact .inl rfl
        | stateQueued u o hr => exact absurd hr hx
        | stateDequeued u o hr => exact .inr rfl
      · cases hp
    | done f p c h hd hs => cases c <;> cases hp
    | removed f c hv hd hs => cases c <;> cases hp
    | stored o k e hv hv' he hd hs => rcases o with _ | ⟨f, _ | _⟩ <;> cases hp
    | wake o k wk hd hs => rcases o with _ | ⟨f, _ | _⟩ <;> cases hp
    | _ => cases hp
  · rw [hm.view_ne hj]
    rw [hm.pc_ne hj] at hp
    exact h.state hp hf

theorem Cause.settled_ret (c : Cause) {f₀ : Inner} {p : FutPc W} (h : c.ret f₀ = .fut f p) :
    p.settled = true := by
  cases c <;> cases h <;> rfl

theorem Origin.settled_ret (o : Origin) {p : FutPc W} (h : o.ret = .fut f p) : p.settled = true := by
  cases o with
  | user => cases h
  | cancel f₀ c => exact c.settled_ret h

/-- A future that has become ready does not wait again, unless its poll finds that nothing has changed. -/
theorem Completed.settled_step (h : Completed w) (hw : Reached cfg w a)
    (hm : (notify willWake).Moves cfg a w i n w' e) (hr : retries w i = false) {p : FutPc W}
    (hp : w'.pc j = .fut f p) (hf : f.completed = true) : p.settled = true := by
  by_cases hj : j = i
  · subst hj
    have hgo := (hw.control.goes hm).1
    generalize hpc : w.pc j = p₀ at hgo
    generalize w'.pc j = p' at hgo hp
    cases hgo with
    | instr p e hv hs => exact h.settled (hpc.trans hp) hf
    | goto f₀ p p' hg hq hv hs =>
      obtain ⟨rfl, rfl⟩ := Pc.fut.inj hp
      have hset := h.settled hpc hf
      have hview : ∀ {cx}, p = .state cx → w.view j = ⟨.locked, .idle, some (.queued j)⟩ → False := by
        rintro cx rfl hv₀
        rcases h.state hpc hf with hv | hv <;> simp [hv] at hv₀
      cases hg with
      | unqueued cx hv => rfl
      | stale cx hv hg => exact (hview rfl hv).elim
      | refresh wk hv hg => exact (hview rfl hv).elim
      | refreshed hv hg => exact (hview rfl hv).elim
      | fetch cx hg => simp [retries, hpc, hf, hg] at hr
      | drop r hc => simp [hf] at hc
      | dropCompleted r hc => rfl
      | _ => cases hset
    | state f₀ p p' hp' hv hs =>
      obtain ⟨rfl, rfl⟩ := Pc.fut.inj hp
      rcases hp' with ⟨r, cx', rfl, rfl⟩ | ⟨c, rfl, rfl⟩
      · rfl
      · cases h.settled hpc hf
    | done f p c h hd hs => exact c.settled_ret hp
    | removed f c hv hd hs => exact c.settled_ret hp
    | stored o k e hv hv' he hd hs => exact o.settled_ret hp
    | wake o k wk hd hs => exact o.settled_ret hp
    | remove f₀ p c hp' hv hv' hs =>
      obtain ⟨rfl, rfl⟩ := Pc.fut.inj hp
      rcases hp' with ⟨rfl, rfl⟩ | rfl <;> cases h.settled hpc hf
    | created hs =>
      obtain ⟨rfl, -⟩ := Pc.fut.inj hp
      cases hf
    | loaded g hd =>
      obtain ⟨rfl, -⟩ := Pc.fut.inj hp
      cases hf
    | drop f₀ hs =>
      obtain ⟨-, rfl⟩ := Pc.fut.inj hp
      rfl
    | _ =>
      cases hp
      try cases h.settled hpc hf
  · rw [hm.pc_ne hj] at hp
    exact h.settled hp hf

theorem Cause.completed_ret (c : Cause) {f₀ : Inner} {r : Polled}
    (h : c.ret f₀ = .fut f (.idle r : FutPc W)) :
    f.completed = true := by
  cases c <;> cases h
  rfl

/-- `poll` and `enable` return `Ready` where the future has completed. -/
theorem Completed.ready_step (h : Completed w) (hw : Reached cfg w a)
    (hm : (notify willWake).Moves cfg a w i n w' e) (hp : w'.pc j = .fut f (.idle .ready)) :
    f.completed = true := by
  by_cases hj : j = i
  · subst hj
    have hgo := (hw.control.goes hm).1
    generalize hpc : w.pc j = p₀ at hgo
    generalize w'.pc j = p' at hgo hp
    cases hgo with
    | instr p e hv hs => exact h.ready (hpc.trans hp)
    | goto f₀ p p' hg hq hv hs => cases hg <;> cases hp
    | state f₀ p p' hp' hv hs => rcases hp' with ⟨r, cx, rfl, rfl⟩ | ⟨c, rfl, rfl⟩ <;> cases hp
    | done f p c h hd hs => exact c.completed_ret hp
    | removed f c hv hd hs => exact c.completed_ret hp
    | stored o k e hv hv' he hd hs =>
      cases o with
      | user => cases hp
      | cancel f c => exact c.completed_ret hp
    | wake o k wk hd hs =>
      cases o with
      | user => cases hp
      | cancel f c => exact c.completed_ret hp
    | _ => cases hp
  · rw [hm.pc_ne hj] at hp
    exact h.ready hp

theorem Completed.step (h : Completed w) (hw : Reached cfg w a)
    (hm : (notify willWake).Moves cfg a w i n w' e) (hr : retries w i = false) : Completed w' where
  ready := h.ready_step hw hm
  settled := h.settled_step hw hm hr
  left := h.left_step hw hm (h.settled_step hw hm hr)
  state := h.view_step hw hm

/-! ## Polls of futures that have become ready -/

/-- The `Notify` is as it was: the queue with its nodes, the lock and the generation. -/
structure Unchanged (w w' : WorldOf W) : Prop where
  mem : w'.q.mem = w.q.mem
  mutex : w'.q.mutex = w.q.mutex
  drains : w'.q.drains = w.q.drains
  shared : w'.shared.generation = w.shared.generation ∧ w'.shared.woken = w.shared.woken

/-- The task `i` has a future `f`, which has become ready: it is at rest, or it is dropped, or it is asked
again; then no step of its poll or `enable` is blocked or changes the `Notify`, and each leads on to the
return of `Ready`. -/
structure Stable (willWake : W → W → Bool) (cfg : Config) (w : WorldOf W) (i : TaskId) (f : Inner)
    (p : FutPc W) : Prop where
  settled : p.settled = true
  call : ∀ weak n, p = .idle .ready → (∃ wk, n = .poll wk) ∨ n = .enable →
    ∃ w', (notify willWake).step cfg w i weak n = some w' ∧ Unchanged w w' ∧
      ∃ cx, w'.pc i = .fut f (.state cx)
  state : ∀ weak n cx, p = .state cx → ∃ w', (notify willWake).step cfg w i weak n = some w' ∧
    Unchanged w w' ∧ (w'.pc i = .fut f (.load cx) ∨ w'.pc i = .fut f (.idle .ready))
  load : ∀ weak n cx, p = .load cx → retries w i = false →
    ∃ w', (notify willWake).step cfg w i weak n = some w' ∧ Unchanged w w' ∧
      w'.pc i = .fut f (.idle .ready)

theorem Inner.ready_of_completed (h : f.completed = true) : (f.ready : Pc W) = .fut f (.idle .ready) := by
  simp [Inner.ready, ← h]

theorem View.rests_of_idle {v : View ℕ} (h : v.own.runs = false) (hu : v.upd = .idle)
    (ho : v.op = none) : v.Rests :=
  ⟨h, by rw [hu]; rfl, fun h => by rw [ho] at h; cases h⟩

/-- A call that only moves the owner of the node changes nothing of the `Notify`. -/
theorem step_owner_call {weak : Bool} {r : InstrOf W} {k : Call ℕ (Waiter W)} {o : OwnPc ℕ}
    (hv : (w.view i).Rests) (hr : next willWake w i n = some r) (hk : r.call = some k)
    (hl : k.onLock = false) (hs : Aiq.step cfg w.q (k.act i) = some (w.q.setOwn i o, .tau))
    (hg : r.shared.generation = w.shared.generation ∧ r.shared.woken = w.shared.woken) :
    ∃ w', (notify willWake).step cfg w i weak n = some w' ∧ Unchanged w w' ∧
      w'.pc i = r.pc .tau (w.q.setOwn i o) :=
  ⟨_, Client.step_call hv hr hk hl hs, ⟨rfl, rfl, rfl, hg⟩, by simp [World.moved]⟩

/-- The future that has become ready is asked again. -/
theorem Completed.call (h : Completed w) (hw : Reached cfg w a) (hp : w.pc i = .fut f (.idle .ready))
    (hf : f.completed = true) {weak : Bool} (cx : Option W)
    (hr : next willWake w i n = some ⟨some .state, fun _ _ => .fut f (.state cx), w.shared⟩) :
    ∃ w', (notify willWake).step cfg w i weak n = some w' ∧ Unchanged w w' ∧
      ∃ cx, w'.pc i = .fut f (.state cx) := by
  have hi := hw.control i
  rw [hp] at hi
  have hv : w.view i = ⟨.idle, .idle, none⟩ := hi
  have hown : w.q.own i = .idle := OwnPc.op_eq_idle.1 (congrArg View.own hv)
  have hs : ∃ o, Aiq.step cfg w.q ((Call.state : Call ℕ (Waiter W)).act i) =
      some (w.q.setOwn i o, .tau) := by
    cases hraw : w.q.mem.rawState i with
    | unqueued => exact ⟨.unqueued, by simp [Call.act, Aiq.step, Aiq.ownerCall, hown, hraw]⟩
    | queued => exact absurd hraw (h.left hp hf)
    | dequeued => exact ⟨.dequeued, by simp [Call.act, Aiq.step, Aiq.ownerCall, hown, hraw]⟩
  obtain ⟨o, hs⟩ := hs
  have hrest : (w.view i).Rests := View.rests_of_idle (by rw [hv]; rfl) (by rw [hv]) (by rw [hv])
  obtain ⟨w', hw', hu, hpc'⟩ :=
    step_owner_call hrest hr rfl rfl hs ⟨rfl, rfl⟩
  exact ⟨w', hw', hu, cx, hpc'⟩

/-- The poll of a future that has become ready returns. -/
theorem step_release {weak : Bool}
    (hf : f.completed = true) (hv : w.view i = ⟨.unqueued, .idle, none⟩ ∨ w.view i = ⟨.dequeued, .idle, none⟩)
    (hr : next willWake w i n = some ⟨some .release, fun _ _ => f.ready, w.shared.complete i⟩) :
    ∃ w', (notify willWake).step cfg w i weak n = some w' ∧ Unchanged w w' ∧
      w'.pc i = .fut f (.idle .ready) := by
  have hs : Aiq.step cfg w.q ((Call.release : Call ℕ (Waiter W)).act i) =
      some (w.q.setOwn i .idle, .tau) := by
    rcases hv with hv | hv
    · have hown : w.q.own i = .unqueued := OwnPc.op_eq_unqueued.1 (congrArg View.own hv)
      simp [Call.act, Aiq.step, Aiq.ownerCall, hown]
    · have hown : w.q.own i = .dequeued := OwnPc.op_eq_dequeued.1 (congrArg View.own hv)
      simp [Call.act, Aiq.step, Aiq.ownerCall, hown]
  have hrest : (w.view i).Rests := by
    rcases hv with hv | hv <;> exact View.rests_of_idle (by rw [hv]; rfl) (by rw [hv]) (by rw [hv])
  obtain ⟨w', hw', hu, hpc'⟩ := step_owner_call hrest hr rfl rfl hs ⟨rfl, rfl⟩
  exact ⟨w', hw', hu, by rw [hpc']; exact Inner.ready_of_completed hf⟩

theorem Completed.stable (h : Completed w) (hw : Reached cfg w a) {p : FutPc W} (hp : w.pc i = .fut f p)
    (hf : f.completed = true) : Stable willWake cfg w i f p where
  settled := h.settled hp hf
  call := by
    rintro weak n rfl (⟨wk, rfl⟩ | rfl)
    · exact h.call hw hp hf (some wk) (by simp [next, hp, futNext])
    · exact h.call hw hp hf none (by simp [next, hp, futNext])
  state := by
    rintro weak n cx rfl
    rcases h.state hp hf with hv | hv
    · have hown : w.q.own i = .unqueued := OwnPc.op_eq_unqueued.1 (congrArg View.own hv)
      have hr : next willWake w i n = some ⟨none, fun _ _ => .fut f (.load cx), w.shared⟩ := by
        simp [next, hp, futNext, hown]
      have hrest : (w.view i).Rests := View.rests_of_idle (by rw [hv]; rfl) (by rw [hv]) (by rw [hv])
      exact ⟨_, Client.step_own hrest hr rfl, ⟨rfl, rfl, rfl, rfl, rfl⟩, .inl (by simp)⟩
    · have hown : w.q.own i = .dequeued := OwnPc.op_eq_dequeued.1 (congrArg View.own hv)
      obtain ⟨w', hw', hu, hpc⟩ := step_release hf (.inr hv)
        (show next willWake w i n = _ by simp [next, hp, futNext, hown, Cause.ret, Cause.shared])
      exact ⟨w', hw', hu, .inr hpc⟩
  load := by
    rintro weak n cx rfl hr
    have hi := hw.control i
    rw [hp] at hi
    have hg : w.shared.generation ≠ f.generation := by simpa [retries, hp, hf] using hr
    exact step_release hf (.inl hi) (by simp [next, hp, futNext, hg, Cause.ret, Cause.shared])

/-- A future that has become ready stays where it is, or is dropped. -/
theorem Completed.kept (h : Completed w) (hw : Reached cfg w a)
    (hm : (notify willWake).Moves cfg a w i n w' e) {p : FutPc W} (hp : w.pc j = .fut f p)
    (hf : f.completed = true) : (∃ p', w'.pc j = .fut f p') ∨ w'.pc j = .idle := by
  by_cases hj : j = i
  · subst hj
    have hgo := (hw.control.goes hm).1
    have hset := h.settled hp hf
    generalize hpc : w.pc j = p₀ at hgo hp
    generalize w'.pc j = p' at hgo
    cases hgo with
    | instr p e hv hs => exact .inl ⟨_, hp⟩
    | goto f₀ p p' hg hq hv hs =>
      obtain ⟨rfl, rfl⟩ := Pc.fut.inj hp
      exact .inl ⟨_, rfl⟩
    | state f₀ p p' hp' hv hs =>
      obtain ⟨rfl, rfl⟩ := Pc.fut.inj hp
      exact .inl ⟨_, rfl⟩
    | done f₀ p c hd hs =>
      obtain ⟨rfl, rfl⟩ := Pc.fut.inj hp
      cases hd with
      | dequeued cx hv => exact .inl ⟨_, Inner.ready_of_completed hf⟩
      | older cx hg => exact .inl ⟨_, Inner.ready_of_completed hf⟩
      | _ => cases hset
    | drop f₀ hs =>
      obtain ⟨rfl, rfl⟩ := Pc.fut.inj hp
      exact .inl ⟨_, rfl⟩
    | dropped f₀ hs => exact .inr rfl
    | remove f₀ p c hp' hv hv' hs =>
      obtain ⟨rfl, rfl⟩ := Pc.fut.inj hp
      rcases hp' with ⟨rfl, rfl⟩ | rfl <;> cases hset
    | _ =>
      cases hp
      try cases hset
  · rw [hm.pc_ne hj]
    exact .inl ⟨p, hp⟩

variable {ls ls' : List (TaskId × Bool × Input W)}

/-- A step of a task that is not at the check of an unchanged generation with a completed future. -/
def Keeps (willWake : W → W → Bool) (cfg : Config) (w : WorldOf W) (l : TaskId × Bool × Input W)
    (w' : WorldOf W) : Prop :=
  retries w l.1 = false ∧ (notify willWake).step cfg w l.1 l.2.1 l.2.2 = some w'

theorem keeps_completed (h : Lts.Run (Keeps willWake cfg) init ls w) :
    ∃ a, Reached cfg w a ∧ Completed w := by
  refine Lts.Run.prefixed (P := fun _ w => ∃ a, Reached cfg w a ∧ Completed w) h
    ⟨_, Reached.init, Completed.init⟩ ?_
  rintro ks l w₁ w₂ - ⟨hr, hs⟩ ⟨a₁, hw₁, hc⟩
  obtain ⟨e, hm⟩ := Client.moves hw₁.ok hs
  exact ⟨_, hw₁.step hm, hc.step hw₁ hm hr⟩

/-- **Readiness is stable**, in every run in which no poll or `enable` of a completed future finds its node
`Unqueued` and the generation unchanged. Once a poll or an `enable` of a future has returned `Ready`, then
until the future is gone, whatever the other tasks do, every later poll or `enable` returns `Ready`, is never
blocked, and does not change the queue, its nodes, the lock or the generation. -/
theorem readiness_stable (h : Lts.Run (Keeps willWake cfg) init ls w)
    (hp : w.pc i = .fut f (.idle .ready))
    (h' : Lts.Run (fun w l w' => Keeps willWake cfg w l w' ∧ w'.pc i ≠ .idle) w ls' w') :
    f.completed = true ∧ ∃ p, w'.pc i = .fut f p ∧ Stable willWake cfg w' i f p := by
  obtain ⟨a, hw, hc⟩ := keeps_completed h
  have hf := hc.ready hp
  refine ⟨hf, ?_⟩
  obtain ⟨a', hw', hc', p, hp'⟩ := Lts.Run.prefixed
    (P := fun _ w' => ∃ a', Reached cfg w' a' ∧ Completed w' ∧ ∃ p, w'.pc i = .fut f p) h'
    ⟨a, hw, hc, _, hp⟩ fun ks l w₁ w₂ hl hs hP => by
      obtain ⟨⟨hr, hs⟩, hne⟩ := hs
      obtain ⟨a₁, hw₁, hc₁, p, hp⟩ := hP
      obtain ⟨e, hm⟩ := Client.moves hw₁.ok hs
      exact ⟨_, hw₁.step hm, hc₁.step hw₁ hm hr, (hc₁.kept hw₁ hm hp hf).resolve_right hne⟩
  exact ⟨p, hp', hc'.stable hw' hp' hf⟩

/-- A future is polled and waits; another task calls `notify_one`, and the future is enabled. -/
def readyActs : List (TaskId × Bool × Input ℕ) :=
  acts 0 (.notified false) 1 ++ acts 0 (.poll 7) 11 ++ acts 1 .notifyOne 13 ++ acts 0 .enable 1

theorem readiness_stable_readyActs :
    let C := notify fun _ _ => true
    let w := C.after ⟨.x86, 0⟩ init readyActs
    let w' := C.after ⟨.x86, 0⟩ w [(0, false, .poll 8)]
    w.pc 0 = .fut ⟨0, true⟩ (.idle .ready) ∧
      ∃ p, w'.pc 0 = .fut ⟨0, true⟩ p ∧ Stable (fun _ _ => true) ⟨.x86, 0⟩ w' 0 ⟨0, true⟩ p := by
  intro C w w'
  have h : C.meets ⟨.x86, 0⟩ (fun w l => !retries w l.1) init readyActs = true := by decide +kernel
  have hp : w.pc 0 = .fut ⟨0, true⟩ (.idle .ready) := by rfl
  have hs : C.step ⟨.x86, 0⟩ w 0 false (.poll 8) = some w' := by rfl
  have hr : retries w 0 = false := by decide +kernel
  have hne : w'.pc 0 ≠ .idle := by
    rw [show w'.pc 0 = .fut ⟨0, true⟩ (.state (some 8)) by rfl]
    simp
  have hrun : Lts.Run (fun w l w' => Keeps (fun _ _ => true) ⟨.x86, 0⟩ w l w' ∧ w'.pc 0 ≠ .idle) w
      [(0, false, .poll 8)] w' := .single ⟨⟨hr, hs⟩, hne⟩
  have hrun₀ : Lts.Run (Keeps (fun _ _ => true) ⟨.x86, 0⟩) init readyActs w :=
    (Client.run_of_meets h).mono fun _ _ _ h => ⟨by simpa using h.1, h.2⟩
  exact ⟨hp, (readiness_stable hrun₀ hp hrun).2⟩

/-- A future that has taken the stored permit is enqueued by its next poll. -/
example :
    let C := notify fun _ _ => true
    let w := C.after ⟨.x86, 0⟩ init
      (acts 1 .notifyOne 2 ++ acts 0 (.notified false) 1 ++ acts 0 .enable 5)
    let w' := C.after ⟨.x86, 0⟩ w (acts 0 (.poll 8) 11)
    w.pc 0 = .fut ⟨0, true⟩ (.idle .ready) ∧ w'.pc 0 = .fut ⟨0, true⟩ (.idle .pending) ∧
      w'.q.mem.rawState 0 = .queued := by
  intro C w w'
  exact ⟨by rfl, by rfl, by decide +kernel⟩

end Aiq.Notify
