import Aiq.Semaphore.Acquire

/-!
# Closed semaphores

A semaphore whose queue is empty and whose state has the closed flag stays so (`Shut.step`). Nodes are
drained by `close` only, so the queue of a semaphore with drained nodes is empty for good (`Closing`).
-/

namespace Aiq.Semaphore

variable {W : Type} {willWake : W → W → Bool} {cfg : Config} {a : Abs ℕ} {w w' : WorldOf W}
  {i x : TaskId} {e : Event ℕ} {n : Input W}

theorem FetchCont.fn_closed {c : FetchCont W} {m s s' : ℕ} (hs : isClosedState s = true)
    (h : c.fn m s = some s') : isClosedState s' = true := by
  have hacq : ∀ {n}, checkAcquirePermits s n = some s' → isClosedState s' = true := fun h => by
    simp [checkAcquirePermits, hs] at h
  rw [isClosedState_iff] at hs ⊢
  cases c
  case acquire k wk => exact isClosedState_iff.1 (hacq h)
  case retry k wk => exact isClosedState_iff.1 (hacq h)
  case tryAcquire k => exact isClosedState_iff.1 (hacq h)
  case forget n =>
    obtain ⟨rfl, -⟩ := forgetState_inv h
    simp only [wrappingSub, shift_eq]
    omega
  case add o again l p =>
    obtain ⟨-, rfl⟩ := checkAddPermits_inv h
    omega

/-- The queue is empty, and its state has the closed flag. -/
def Shut (a : Abs ℕ) : Prop := a.queue = [] ∧ isClosedState a.state = true

theorem Shut.step (h : Shut a) (hw : Reached cfg w a)
    (hm : (semaphore willWake).Moves cfg a w i n w' e) : Shut (a.apply e) := by
  have hal := hm.allows
  obtain ⟨hq, hc⟩ := h
  cases e <;> try exact ⟨hq, hc⟩
  case enqueue y =>
    obtain ⟨k, wk, st, -, hst, -, hr, -⟩ := hw.enqueue hm
    obtain rfl := (hw.ok.queueState_of_nil hq).symm.trans hst
    have := hr.not_closed
    simp [hc] at this
  case update t s s' =>
    obtain rfl : a.state = s := hal.2
    refine ⟨hq, ?_⟩
    have hwr := writes hw.control hm rfl
    generalize w.pc i = p at hwr
    cases hwr with
    | fetch c m _ _ hf => exact c.fn_closed hc hf
    | close s => exact isClosedState_iff.2 (by rw [closed]; exact Nat.or_mod_two_eq_one.2 (.inr rfl))
  case remove y s => exact ⟨by simp [Abs.apply, hq], by simpa [Abs.apply, hq] using hc⟩
  case drain d s => exact absurd hq hal

/-- No node has been drained, or the semaphore is closed for good. -/
def Closing (a : Abs ℕ) : Prop := (∀ d, (a.drained d).rest = []) ∨ Shut a

theorem Closing.init (s : ℕ) : Closing (.init s) := .inl fun _ => rfl

theorem Closing.rest (h : Closing a) (hx : x ∈ a.queue) (d : DrainId) : (a.drained d).rest = [] := by
  rcases h with h | ⟨h, -⟩
  · exact h d
  · simp [h] at hx

theorem Closing.step (h : Closing a) (hw : Reached cfg w a)
    (hm : (semaphore willWake).Moves cfg a w i n w' e) : Closing (a.apply e) := by
  have hal := hm.allows
  rcases h with h | h
  · cases e <;> try exact .inl h
    case remove y s => exact .inl fun d => by simp [Abs.apply, h]
    case drain d s =>
      refine .inr ⟨rfl, ?_⟩
      have hwr := writes hw.control hm rfl
      generalize w.pc i = p at hwr
      cases hwr
      exact isClosedState_iff.2 rfl
    case drainEmpty d =>
      refine .inl fun d' => ?_
      by_cases hd : d' = d
      · subst hd
        simp [Abs.apply, DrainLog.empty]
      · simp [Abs.apply, hd, h]
    case drainRemove d y flush =>
      have : (a.drained d).rest.head? = some y := hal
      simp [h] at this
  · exact .inr (h.step hw hm)

end Aiq.Semaphore
