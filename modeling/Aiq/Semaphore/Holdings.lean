import Aiq.Semaphore.Settled
import Aiq.Semaphore.Amounts

/-!
# What the tasks of a semaphore hold

`held` counts the permits that a task has not given back, at every control state: those that its waiter
has been assigned, those that its future is going to return, and those that `add_permits` or a
cancellation has in hand. A step of another task makes them more by no more than it gives to the waiter
(`Reached.held_ne`).
-/

namespace Aiq.Semaphore

variable {W : Type} {willWake : W → W → Bool} {cfg : Config} {a : Abs ℕ} {w w' : WorldOf W}
  {i j x : TaskId} {e : Event ℕ} {n : Input W} {k : Kind}

/-! ## Holdings -/

/-- The permits that the waiter of the future of the task `i` has been assigned: none before it is
enqueued. -/
def Kind.assigned (k : Kind) (q : State ℕ (Waiter W)) (i : TaskId) : ℕ :=
  if q.mem.rawState i = .unqueued then 0 else k.acquired (q.mem.data i)

/-- What the future of the task `i` holds at the control state. -/
def FutPc.holds (w : WorldOf W) (i : TaskId) (k : Kind) : FutPc W → ℕ
  | .created | .node _ | .canceled _ => 0
  | .enqueued _ _ => if (w.view i).own.out then 0 else k.assigned w.q i
  -- the acquisition has succeeded, and the permits are going to be returned
  | .dequeued false | .got | .ready .ok | .dropping .ok => k.permits
  | .dropping _ => 0
  -- with the removal of the last node the permits go to the state
  | .removing _ acquired => if w.q.result = some true then 0 else acquired
  | .removed _ acquired | .unlock _ acquired => acquired
  | _ => k.assigned w.q i

/-- What the task `i` holds at the control state. -/
def Pc.holds (w : WorldOf W) (i : TaskId) : Pc W → ℕ
  | .fut k p => p.holds w i k
  | p => p.inHand w.q

/-- The permits that the task `i` has to account for. -/
def held (w : WorldOf W) (i : TaskId) : ℕ := (w.pc i).holds w i

/-! ## The steps of the other tasks -/

/-- By how much the permits that the waiter of the task `j` lacks become fewer. -/
def reduced (w w' : WorldOf W) (j : TaskId) : ℕ :=
  (w.q.mem.data j).permitsRemaining - (w'.q.mem.data j).permitsRemaining

theorem Kind.assigned_le (hr : w.q.mem.rawState j = .unqueued → w'.q.mem.rawState j = .unqueued) :
    k.assigned w'.q j ≤ k.assigned w.q j + reduced w w' j := by
  unfold assigned acquired reduced
  by_cases h : w.q.mem.rawState j = .unqueued
  · simp [hr h]
  · rw [if_neg h]
    split <;> omega

theorem Reached.held_ne (hw : Reached cfg w a) (hm : (semaphore willWake).Moves cfg a w i n w' e)
    (hj : j ≠ i) : held w' j ≤ held w j + reduced w w' j := by
  have hin := inHand_ne hw hm hj
  unfold held
  rw [hm.pc_ne hj] at hin ⊢
  cases hp : w.pc j with
  | fut k p =>
    have hle := Kind.assigned_le (k := k) fun hx => hm.rawState_unqueued hx (.inl hj)
    simp only [Pc.holds]
    cases p <;> simp only [FutPc.holds] <;> try omega
    case enqueued wk st =>
      rw [hm.view_ne hj]
      split <;> omega
    case dequeued b => cases b <;> dsimp only <;> omega
    case ready e' => cases e' <;> dsimp only <;> omega
    case dropping e' => cases e' <;> dsimp only <;> omega
    case removing e' m =>
      have hf := hw.control j
      rw [hp] at hf
      have hv : (w.view j).op = some (.removing j m .queued) := congrArg View.op hf
      rw [State.result, hm.mutex_ne (World.op_of_view hv).1 hj, State.result]
      omega
  | _ =>
    rw [hp] at hin
    exact hin.le.trans (Nat.le_add_right ..)

/-- Only `add_permits` gives permits to the waiters of other tasks. -/
theorem reduced_eq_zero (hm : (semaphore willWake).Moves cfg a w i n w' e) (hj : j ≠ i)
    (ha : ∀ o, ¬ (w.pc i).Adds o) : reduced w w' j = 0 := by
  unfold reduced
  cases hm.mover with
  | op hs hd hv hp hg => rw [hd, Nat.sub_self]
  | own hr hk hrest hq hv hp hg => rw [hq, Nat.sub_self]
  | call hr hk hrest hs hv hp hg =>
    rcases hs.data_call j with hd | hd
    · rw [hd, Nat.sub_self]
    cases hd with
    | create hy => exact absurd hy hj
    | owner g hy => exact absurd hy hj
    | holder g o ho hn hv' =>
      rw [hv']
      rcases next_withDataMut hr hk with ⟨o, hadd⟩ | ⟨k, wk, b, -, rfl⟩ | ⟨-, rfl⟩
      · exact absurd hadd (ha o)
      · unfold Waiter.refresh
        split <;> exact Nat.sub_self _
      · exact Nat.sub_self _

/-! ## The available permits -/

/-- An event that does not change the state of the queue makes no permits available. -/
theorem Reached.availablePermits_le (hw : Reached cfg w a)
    (hm : (semaphore willWake).Moves cfg a w i n w' e) (he : e.writes = false) :
    availablePermits w'.q ≤ availablePermits w.q := by
  have hok := hm.ok' hw.ok
  by_cases hq : (a.apply e).queue = []
  · have hq' : a.queue = [] := by
      cases e <;> first | exact hq | (simp [Abs.apply] at hq; done) | cases he
    rw [World.Ok.availablePermits_of_nil hok hq, World.Ok.availablePermits_of_nil hw.ok hq',
      Abs.state_apply he]
  · rw [World.Ok.availablePermits_of_ne_nil hok hq]
    exact Nat.zero_le _

theorem Reached.availablePermits_update {t : TaskId} {s s' : ℕ} (hw : Reached cfg w a)
    (hm : (semaphore willWake).Moves cfg a w i n w' (.update t s s')) :
    availablePermits w.q = s / 2 ∧ availablePermits w'.q = s' / 2 := by
  obtain ⟨hq, rfl⟩ := hm.allows
  exact ⟨World.Ok.availablePermits_of_nil hw.ok hq,
    World.Ok.availablePermits_of_nil (hm.ok' hw.ok) hq⟩

/-- The removal of a node makes the new state available if it was the only one. -/
theorem Reached.availablePermits_remove {s : ℕ} (hw : Reached cfg w a)
    (hm : (semaphore willWake).Moves cfg a w i n w' (.remove x s)) :
    availablePermits w'.q ≤ availablePermits w.q + if a.queue = [x] then s / 2 else 0 := by
  have hok := hm.ok' hw.ok
  by_cases hq : (a.apply (.remove x s)).queue = []
  · rw [World.Ok.availablePermits_of_nil hok hq]
    by_cases hx : a.queue = [x]
    · simp [Abs.apply, hx]
    · have hnil : a.queue = [] := by
        by_contra hne
        have hlen : (a.queue.erase x).length = 0 := by simpa [Abs.apply] using hq
        by_cases hmem : x ∈ a.queue
        · rw [List.length_erase_of_mem hmem] at hlen
          obtain ⟨y, hy⟩ := List.length_eq_one_iff.1
            (show a.queue.length = 1 by have := List.length_pos_of_mem hmem; omega)
          exact hx (by rw [hy] at hmem ⊢; simpa using (List.mem_singleton.1 hmem).symm)
        · rw [List.erase_of_not_mem hmem] at hlen
          exact hne (List.length_eq_zero_iff.1 hlen)
      rw [World.Ok.availablePermits_of_nil hw.ok hnil, if_neg hx]
      simp [Abs.apply, hx]
  · rw [World.Ok.availablePermits_of_ne_nil hok hq]
    exact Nat.zero_le _

theorem permitsOf_le : permitsOf w.q.mem.queueState ≤ availablePermits w.q := by
  unfold availablePermits permitsOf
  rw [permitShift, Nat.shiftRight_eq_div_pow, Nat.shiftRight_eq_div_pow]
  exact Nat.div_le_div_right (Nat.mod_le ..)

end Aiq.Semaphore
