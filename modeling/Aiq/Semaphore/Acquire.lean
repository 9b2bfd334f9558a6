import Aiq.Semaphore.Reached
import Mathlib.Data.UInt

/-!
# Enqueueing over the available permits

When the node of a future is enqueued over the state of an empty queue, the permits in that state are
lost, and the waiter is to be credited with them. `poll_acquire` converts the state to `u32` before it
shifts it, so this is so exactly when fewer than `2 ^ 31` permits are available (`enqueue_records_iff`).
-/

namespace Aiq.Semaphore

variable {W : Type} {willWake : W → W → Bool} {cfg : Config} {a : Abs ℕ} {w w' : WorldOf W}
  {i j : TaskId} {e : Event ℕ} {n : Input W} {k : Kind}

theorem permitsOf_some (s : ℕ) : permitsOf (some s) = s / 2 % 2 ^ 31 := by
  simp only [permitsOf, Option.getD_some, shiftRight_permitShift]
  omega

/-- The conversion to `u32` keeps the permits of `s` if there are fewer than `2 ^ 31`. -/
theorem permitsOf_eq_iff {s : ℕ} : permitsOf (some s) = s / 2 ↔ s / 2 < 2 ^ 31 := by
  rw [permitsOf_some]
  omega

theorem World.Ok.availablePermits_of_nil (h : w.Ok cfg a) (ha : a.queue = []) :
    availablePermits w.q = a.state / 2 := by
  rw [availablePermits, h.queueState_of_nil ha, Option.getD_some, shiftRight_permitShift]

theorem World.Ok.availablePermits_of_ne_nil (h : w.Ok cfg a) (ha : a.queue ≠ []) :
    availablePermits w.q = 0 := by
  rw [availablePermits, h.queueState_of_ne_nil ha]
  rfl

/-- The available permits are a function of the abstract queue. -/
theorem World.Ok.availablePermits_eq (h : w.Ok cfg a) (h' : w'.Ok cfg a) :
    availablePermits w'.q = availablePermits w.q := by
  by_cases ha : a.queue = []
  · rw [availablePermits_of_nil h ha, availablePermits_of_nil h' ha]
  · rw [availablePermits_of_ne_nil h ha, availablePermits_of_ne_nil h' ha]

theorem World.Ok.isClosed_of_nil (h : w.Ok cfg a) (ha : a.queue = []) :
    isClosed w.q = isClosedState a.state := by
  rw [isClosed, h.queueState_of_nil ha]
  rfl

theorem World.Ok.isClosed_of_ne_nil (h : w.Ok cfg a) (ha : a.queue ≠ []) : isClosed w.q = false := by
  rw [isClosed, h.queueState_of_ne_nil ha]
  rfl

theorem World.Ok.isClosed_eq (h : w.Ok cfg a) (h' : w'.Ok cfg a) : isClosed w'.q = isClosed w.q := by
  by_cases ha : a.queue = []
  · rw [isClosed_of_nil h ha, isClosed_of_nil h' ha]
  · rw [isClosed_of_ne_nil h ha, isClosed_of_ne_nil h' ha]

/-- A refused acquisition asks for more than is available. -/
theorem Kind.Refused.lt {s : ℕ} (h : k.Refused (some s)) (hk : k.Ok) : s / 2 < k.request := by
  have hopen : isClosedState s = false := h.not_closed
  rcases (checkAcquirePermits_eq_none hk.request).1 (h.check rfl) with hs | hs
  · simp [hopen] at hs
  · omega

/-- The waiter of the future `k` lacks what it asks for less the permits that are available in `w`, and
these are credited to it. -/
structure Records (k : Kind) (w : WorldOf W) (v : Waiter W) : Prop where
  remaining : v.permitsRemaining = k.request - availablePermits w.q
  credit : k.acquired v = availablePermits w.q

/-- What a future knows when its node is enqueued. -/
theorem Reached.enqueue (h : Reached cfg w a)
    (hm : (semaphore willWake).Moves cfg a w i n w' (.enqueue j)) :
    ∃ k wk st, w.pc j = .fut k (.enqueued wk st) ∧ w.q.mem.queueState = st ∧ k.Ok ∧ k.Refused st ∧
      (w'.q.mem.data j).permitsRemaining = k.request - permitsOf st := by
  cases hm.mover with
  | op hs hd hv hp hg =>
    obtain ⟨rfl, f, m, u, o, hview, hf, -⟩ := hv.enqueue_inv
    have hc := h.control j
    have hr := h.ranges.pc j
    obtain ⟨k, wk, st, hpc⟩ : ∃ k wk st, w.pc j = .fut k (.enqueued wk st) := by
      cases hpc : w.pc j with
      | fut k p =>
        rw [hpc, hview] at hc
        cases p <;> simp [Pc.Fits, FutPc.Fits, Asked] at hc
        exact ⟨k, _, _, rfl⟩
      | idle r =>
        rw [hpc, hview] at hc
        simp [Pc.Fits] at hc
      | fetch c =>
        rw [hpc, hview] at hc
        obtain ⟨m, s, hv⟩ := hc
        have hrun := c.own_runs
        rw [← (View.mk.inj hv).1] at hrun
        simp [OwnOp.runs] at hrun
      | add o p =>
        rw [hpc, hview] at hc
        have hrun := o.own_runs
        rw [← hc.1] at hrun
        simp [OwnOp.runs] at hrun
      | close p =>
        rw [hpc, hview] at hc
        cases p <;> simp [Pc.Fits, ClosePc.Fits] at hc
    rw [hpc] at hc hr
    have hfe : f = .ofBool (· = st) := by
      rw [hview] at hc
      simpa [Pc.Fits, FutPc.Fits] using And.left (by simpa [Pc.Fits, FutPc.Fits] using hc)
    have hst : w.q.mem.queueState = st := by
      subst hfe
      simpa [MatchState.ofBool] using hf
    obtain ⟨wk', hdata⟩ := h.filled j k wk st (.inr hpc) (by rw [hview]; rfl)
    refine ⟨k, wk, st, hpc, hst, hr.1, hr.2, ?_⟩
    rw [hd, hdata]
  | call hr hk hrest hs hv hp hg => exact absurd rfl hv.ne_enqueue

/-- **What an enqueued waiter records.** In every run of a semaphore, at every tail CAS of
`poll_acquire`, for a request of any number of permits: the semaphore is open, fewer permits are available
than the future asks for, the waiter lacks all of its permits if it is enqueued behind others, and it is
credited with exactly the permits that are available if and only if these are fewer than `2 ^ 31`. -/
theorem enqueue_records_iff {permits s : ℕ} {ls : List (TaskId × Bool × Input W)} {weak : Bool}
    (hs : newState permits = some s) (h : (semaphore willWake).Runs cfg (init s) ls w)
    (hstep : (semaphore willWake).step cfg w i weak n = some w')
    (he : (semaphore willWake).event cfg w i weak n = some (.enqueue i)) :
    ∃ k wk st, w.pc i = .fut k (.enqueued wk st) ∧ isClosed w.q = false ∧
      (w.q.mem.queueState ≠ none → availablePermits w.q < k.request) ∧
      (w.q.mem.queueState = none → (w'.q.mem.data i).permitsRemaining = k.request) ∧
      (Records k w (w'.q.mem.data i) ↔ availablePermits w.q < 2 ^ 31) := by
  obtain ⟨a, hw⟩ := runs_reached hs h
  obtain ⟨k, wk, st, hpc, hst, hk, hr, hrem⟩ := hw.enqueue (Client.moves_of_event hw.ok hstep he)
  refine ⟨k, wk, st, hpc, ?_⟩
  by_cases ha : a.queue = []
  · have hav := World.Ok.availablePermits_of_nil hw.ok ha
    have hsome := hw.ok.queueState_of_nil ha
    obtain rfl : some a.state = st := hsome.symm.trans hst
    have hlt := hr.lt hk
    have hle : permitsOf (some a.state) ≤ a.state / 2 := by
      rw [permitsOf_some]
      exact Nat.mod_le ..
    refine ⟨(World.Ok.isClosed_of_nil hw.ok ha).trans hr.not_closed, fun _ => hav ▸ hlt,
      by simp [hsome], ?_⟩
    rw [hav, ← permitsOf_eq_iff]
    refine ⟨fun h => ?_, fun h => ⟨?_, ?_⟩⟩
    · have := h.remaining
      rw [hrem, hav] at this
      omega
    · rw [hrem, hav, h]
    · rw [Kind.acquired, hrem, hav, h]
      omega
  · have hav := World.Ok.availablePermits_of_ne_nil hw.ok ha
    have hnone := hw.ok.queueState_of_ne_nil ha
    obtain rfl : none = st := hnone.symm.trans hst
    have hzero : permitsOf none = 0 := rfl
    rw [hzero, Nat.sub_zero] at hrem
    refine ⟨World.Ok.isClosed_of_ne_nil hw.ok ha, absurd hnone, fun _ => hrem, ?_⟩
    rw [hav]
    refine ⟨fun _ => by decide, fun _ => ⟨?_, ?_⟩⟩
    · rw [hrem, hav, Nat.sub_zero]
    · rw [Kind.acquired, hrem, hav, Nat.sub_self]

/-- The task `i` asks for `n` permits and polls the future; `m` of the steps that follow. -/
def acquireActs (i : TaskId) (owned : Bool) (n : UInt32) (m : ℕ) : List (TaskId × Bool × Input ℕ) :=
  (i, false, .acquireMany owned n) :: (i, false, .poll 7) :: List.replicate m (i, false, .none)

/-- Eight permits are asked for, and three are available. -/
theorem enqueue_records_iff_three :
    let w := (semaphore fun _ _ => true).after ⟨.x86, 0⟩ (init 6) (acquireActs 0 false 8 10)
    let w' := (semaphore fun _ _ => true).after ⟨.x86, 0⟩ (init 6) (acquireActs 0 false 8 11)
    ∃ k wk st, w.pc 0 = .fut k (.enqueued wk st) ∧ isClosed w.q = false ∧
      (w.q.mem.queueState ≠ none → availablePermits w.q < k.request) ∧
      (w.q.mem.queueState = none → (w'.q.mem.data 0).permitsRemaining = k.request) ∧
      (Records k w (w'.q.mem.data 0) ↔ availablePermits w.q < 2 ^ 31) := by
  intro w w'
  have hs : newState 3 = some 6 := by decide
  have hr : ((semaphore fun _ _ => true).perform ⟨.x86, 0⟩ (init 6)
      (acquireActs 0 false 8 10)).isSome := by decide +kernel
  have hstep : (semaphore fun _ _ => true).step ⟨.x86, 0⟩ w 0 false .none = some w' := rfl
  have he : (semaphore fun _ _ => true).event ⟨.x86, 0⟩ w 0 false .none = some (.enqueue 0) := by
    decide +kernel
  exact enqueue_records_iff hs (Client.runs_after hr) hstep he

/-- **A credit that is lost.** Of a semaphore with `2 ^ 31` permits, `2 ^ 31 + 1` are asked for: the waiter
lacks one, and records that it lacks all. -/
theorem enqueue_records_not :
    let w := (semaphore fun _ _ => true).after ⟨.x86, 0⟩ (init (2 ^ 32))
      (acquireActs 0 false (2 ^ 31 + 1) 10)
    let w' := (semaphore fun _ _ => true).after ⟨.x86, 0⟩ (init (2 ^ 32))
      (acquireActs 0 false (2 ^ 31 + 1) 11)
    newState (2 ^ 31) = some (2 ^ 32) ∧ (semaphore fun _ _ => true).Runs ⟨.x86, 0⟩ (init (2 ^ 32))
        (acquireActs 0 false (2 ^ 31 + 1) 10) w ∧
      (semaphore fun _ _ => true).step ⟨.x86, 0⟩ w 0 false .none = some w' ∧
      (semaphore fun _ _ => true).event ⟨.x86, 0⟩ w 0 false .none = some (.enqueue 0) ∧
      isClosed w.q = false ∧ availablePermits w.q = 2 ^ 31 ∧ availablePermits w'.q = 0 ∧
      (w'.q.mem.data 0).permitsRemaining = 2 ^ 31 + 1 := by
  intro w w'
  have hr : ((semaphore fun _ _ => true).perform ⟨.x86, 0⟩ (init (2 ^ 32))
      (acquireActs 0 false (2 ^ 31 + 1) 10)).isSome := by decide +kernel
  exact ⟨by decide, Client.runs_after hr, rfl, by decide +kernel, by decide +kernel, by decide +kernel,
    by decide +kernel, by decide +kernel⟩

end Aiq.Semaphore
