import Aiq.Semaphore.Acquire

/-!
# `forget_permits`

`forget_permits(m)` is to lower the available permits by `m`, or by all of them if there are fewer, and
to return by how many (`Forgot`). It subtracts `m` from the state whatever the state is, so this is so
exactly when the subtraction does not wrap, up to a bit that the shift loses, or a waiter is queued
(`forget_permits_iff`).
-/

namespace Aiq.Semaphore

variable {W : Type} {willWake : W → W → Bool} {cfg : Config} {a : Abs ℕ} {w w' : WorldOf W}
  {i : TaskId} {e : Event ℕ} {n : Input W} {m s : ℕ}

/-- The task `i` is in a call of `forget_permits(m)`, or starts one. -/
def Forgetting (w : WorldOf W) (i : TaskId) (n : Input W) (m : ℕ) : Prop :=
  w.pc i = .fetch (.forget m) ∨ (∃ r, w.pc i = .idle r) ∧ ∃ p, n = .forgetPermits p ∧ p.toNat = m

/-- The step from `w` to `w'` is the linearization point of a call of `forget_permits(m)` by the task `i`
that has done what it is for. -/
structure Forgot (m : ℕ) (i : TaskId) (w w' : WorldOf W) : Prop where
  result : w'.pc i = .idle (.forgot (min m (availablePermits w.q)))
  lowered : availablePermits w'.q + min m (availablePermits w.q) = availablePermits w.q
  closed : isClosed w'.q = isClosed w.q

/-- The subtraction of `m` from the state `s` leaves a state with `min m (s / 2)` permits less, or it
leaves a state at all and a waiter has been queued since. -/
def Subtracts (w : WorldOf W) (m s : ℕ) : Prop :=
  m ≤ s / 2 ∨ m = s / 2 + 2 ^ 63 ∨ w.q.mem.queueState = none ∧ (forgetState s m).isSome

theorem forgetState_isSome : (forgetState s m).isSome ↔ wrappingSub s (shift m) ≤ maxState := by
  unfold forgetState
  dsimp only
  split <;> simp_all

/-- What the subtraction leaves, when it leaves what it is to leave. -/
theorem wrappingSub_shift_iff (hs : s ≤ maxState) (hm : m < 2 ^ 64) :
    (wrappingSub s (shift m) ≤ maxState ∧ wrappingSub s (shift m) / 2 + min m (s / 2) = s / 2) ↔
      m ≤ s / 2 ∨ m = s / 2 + 2 ^ 63 := by
  rw [maxState_eq] at *
  unfold wrappingSub
  rw [shift_eq]
  omega

/-- The closed flag is left as it is. -/
theorem wrappingSub_shift_mod (hs : s ≤ maxState) (m : ℕ) : wrappingSub s (shift m) % 2 = s % 2 := by
  rw [maxState_eq] at hs
  unfold wrappingSub
  rw [shift_eq]
  omega

/-- A call that has found a waiter. -/
theorem Forgot.of_blocked (hw : w.Ok cfg a) (hw' : w'.Ok cfg a) (hq : w.q.mem.queueState = none)
    (hp : w'.pc i = .idle (.forgot (min m 0))) : Forgot m i w w' := by
  have ha := hw.inv.queueState_eq_none.1 hq
  have hav := World.Ok.availablePermits_of_ne_nil hw ha
  refine ⟨by rw [hav, hp], ?_, World.Ok.isClosed_eq hw hw'⟩
  rw [World.Ok.availablePermits_eq hw hw', hav, Nat.min_zero]

/-- A call that has made its update. -/
theorem forgot_update_iff (h : Reached cfg w a)
    (hw' : w'.Ok cfg (a.apply (.update i s (wrappingSub s (shift m)))))
    (hal : a.Allows (.update i s (wrappingSub s (shift m)))) (hm : m < 2 ^ 64)
    (hfit : wrappingSub s (shift m) ≤ maxState)
    (hp : w'.pc i = .idle (.forgot (min m (s >>> permitShift)))) :
    Forgot m i w w' ↔ m ≤ s / 2 ∨ m = s / 2 + 2 ^ 63 := by
  obtain ⟨ha, rfl⟩ := hal
  have hav := World.Ok.availablePermits_of_nil h.ok ha
  have hav' := World.Ok.availablePermits_of_nil hw' ha
  have hcl := World.Ok.isClosed_of_nil h.ok ha
  have hcl' := World.Ok.isClosed_of_nil hw' ha
  simp only [Abs.apply] at hav' hcl'
  rw [← wrappingSub_shift_iff h.state.state hm]
  constructor
  · intro hf
    refine ⟨hfit, ?_⟩
    have := hf.lowered
    rwa [hav, hav'] at this
  · rintro ⟨-, hl⟩
    refine ⟨by rw [hp, hav, shiftRight_permitShift], by rw [hav, hav', hl], ?_⟩
    rw [hcl, hcl', isClosedState_eq (wrappingSub_shift_mod h.state.state m)]

/-- **What `forget_permits` forgets.** In every run of a semaphore, at every step in which a call of
`forget_permits` returns, whatever the other tasks have done meanwhile, for every amount: the call does
not panic, returns `min(m, a)` where `a` permits are available, lowers them by as many and leaves the
closed flag alone, if and only if the state `s` that it has loaded has `m` permits or more, or exactly
`m - 2 ^ 63`, or a waiter is queued by now and the subtraction from `s` gives a state. -/
theorem forget_permits_iff {permits s₀ : ℕ} {ls : List (TaskId × Bool × Input W)} {weak : Bool}
    (hs : newState permits = some s₀) (h : (semaphore willWake).Runs cfg (init s₀) ls w)
    (hf : Forgetting w i n m) (hstep : (semaphore willWake).step cfg w i weak n = some w')
    (hret : ∃ r, w'.pc i = .idle r) :
    Forgot m i w w' ↔ ∀ s, loaded w i = some s → Subtracts w m s := by
  obtain ⟨a, hw⟩ := runs_reached hs h
  obtain ⟨e, hm⟩ := Client.moves hw.ok hstep
  have hw' := hm.ok' hw.ok
  have hc := hw.control i
  have hr := hw.ranges.pc i
  obtain ⟨r, hret⟩ := hret
  rcases hf with hpc | ⟨⟨r, hpc⟩, p, rfl, rfl⟩
  · rw [hpc] at hc hr
    obtain ⟨l, s, hv⟩ := hc
    have hload : w.q.upd i = .attempt _ l .plain s := UpdPc.eq_of_trying (congrArg View.upd hv)
    have hcond : (∀ t, loaded w i = some t → Subtracts w m t) ↔ Subtracts w m s := by
      simp [loaded, hload]
    rw [hcond]
    cases hm.mover with
    | op hs hd hi hp hg =>
      rcases World.fetched_cases (FetchCont.own_runs _) (FetchCont.op_runs _) hv hi rfl with
        ⟨hfe, -⟩ | ⟨r, hfe, -, hfr⟩
      all_goals simp only [semaphore, observe, hpc, hfe] at hp
      · simp [hp] at hret
      cases hfr with
      | @ok s' hfn hq =>
        obtain ⟨rfl, hfit⟩ := forgetState_inv hfn
        rw [forgot_update_iff hw hw' hm.allows hr hfit hp]
        simp [Subtracts, hq]
      | refused hfn =>
        have hnot : ¬ Subtracts w m s := by
          have hnone : forgetState s m = none := hfn
          have hle := mt (forgetState_isSome (s := s) (m := m)).2 (by simp [hnone])
          rintro (hm | hm | ⟨-, hsome⟩)
          · exact hle ((wrappingSub_shift_iff (hw.state.loaded (congrArg View.upd hv)) hr).2 (.inl hm)).1
          · exact hle ((wrappingSub_shift_iff (hw.state.loaded (congrArg View.upd hv)) hr).2 (.inr hm)).1
          · simp [hnone] at hsome
        refine iff_of_false (fun hf => ?_) hnot
        have := hp.symm.trans hf.result
        simp [FetchCont.err] at this
      | blocked hfn hq =>
        refine iff_of_true (Forgot.of_blocked hw.ok hw' hq hp) (.inr (.inr ⟨hq, ?_⟩))
        exact Option.isSome_iff_ne_none.2 hfn
    | call hr hk hrest hs hi hp hg => simp [semaphore, next, hpc] at hr
    | own hr hk hrest hq hi hp hg => simp [semaphore, next, hpc] at hr
  · rw [hpc] at hc
    have hview : w.view i = ⟨.dead, .idle, none⟩ := hc
    have hload : loaded w i = none := by
      rw [loaded, UpdPc.op_eq_idle.1 (congrArg View.upd hview)]
    refine iff_of_true ?_ (by simp [hload])
    cases hm.mover with
    | op hs hd hi hp hg =>
      rw [hview] at hi
      cases hi
    | call hr hk hrest hs hi hp hg =>
      simp only [semaphore, next, hpc, start] at hr
      split at hr <;> obtain rfl := Option.some.inj hr
      · simp at hk
      · obtain rfl := Option.some.inj hk
        have hupd : (w'.q.upd i).op = (w'.view i).upd := rfl
        rw [hview] at hi
        generalize w'.view i = v' at hi hupd
        cases hi
        case fetchUpdate hq =>
          have hne : w'.q.upd i ≠ .idle := fun h => by simp [h, UpdPc.op] at hupd
          simp [fetch, hne, hret] at hp
        case fetchBlocked hq =>
          have hidle := UpdPc.op_eq_idle.1 hupd
          refine Forgot.of_blocked hw.ok hw' hq ?_
          simpa [fetch, hidle, FetchCont.err] using hp
    | own hr hk hrest hq hi hp hg =>
      simp only [semaphore, next, hpc, start] at hr
      split at hr <;> obtain rfl := Option.some.inj hr
      · rename_i hzero
        exact ⟨by rw [hp, hzero, Nat.zero_min], by rw [hq, hzero, Nat.zero_min, Nat.add_zero], by rw [hq]⟩
      · simp [fetch] at hk

/-- What the task has returned. -/
def Pc.result : Pc W → Option Result
  | .idle r => some r
  | _ => none

/-- The task `i` calls `forget_permits(n)`; `m` of the steps that follow. -/
def forgetActs (i : TaskId) (n : UInt64) (m : ℕ) : List (TaskId × Bool × Input ℕ) :=
  (i, false, .forgetPermits n) :: List.replicate m (i, false, .none)

/-- Of three permits, two are forgotten. -/
theorem forget_permits_iff_two :
    let w := (semaphore fun _ _ => true).after ⟨.x86, 0⟩ (init 6) (forgetActs 0 2 0)
    let w' := (semaphore fun _ _ => true).after ⟨.x86, 0⟩ (init 6) (forgetActs 0 2 1)
    Forgot 2 0 w w' ↔ ∀ s, loaded w 0 = some s → Subtracts w 2 s := by
  intro w w'
  have hr : ((semaphore fun _ _ => true).perform ⟨.x86, 0⟩ (init 6) (forgetActs 0 2 0)).isSome := by
    decide +kernel
  have hstep : (semaphore fun _ _ => true).step ⟨.x86, 0⟩ w 0 false .none = some w' := rfl
  have hs : newState 3 = some 6 := by decide
  exact forget_permits_iff hs (Client.runs_after hr) (.inl rfl) hstep ⟨_, rfl⟩

/-- **More than there are.** Of a semaphore without permits, one is forgotten: the call panics. When
`2 ^ 62 + 1` are forgotten, the call returns zero, and `2 ^ 62 - 1` permits are available after it. -/
theorem forget_permits_not :
    let w := (semaphore fun _ _ => true).after ⟨.x86, 0⟩ (init 0) (forgetActs 0 1 1)
    let w' := (semaphore fun _ _ => true).after ⟨.x86, 0⟩ (init 0) (forgetActs 0 (2 ^ 62 + 1) 1)
    newState 0 = some 0 ∧
      (semaphore fun _ _ => true).Runs ⟨.x86, 0⟩ (init 0) (forgetActs 0 1 1) w ∧
      (w.pc 0).result = some .panicked ∧
      (semaphore fun _ _ => true).Runs ⟨.x86, 0⟩ (init 0) (forgetActs 0 (2 ^ 62 + 1) 1) w' ∧
      (w'.pc 0).result = some (.forgot 0) ∧ availablePermits w'.q = 2 ^ 62 - 1 := by
  intro w w'
  have hr : ((semaphore fun _ _ => true).perform ⟨.x86, 0⟩ (init 0) (forgetActs 0 1 1)).isSome := by
    decide +kernel
  have hr' : ((semaphore fun _ _ => true).perform ⟨.x86, 0⟩ (init 0)
      (forgetActs 0 (2 ^ 62 + 1) 1)).isSome := by decide +kernel
  exact ⟨by decide, Client.runs_after hr, by decide +kernel, Client.runs_after hr', by decide +kernel,
    by decide +kernel⟩

end Aiq.Semaphore
