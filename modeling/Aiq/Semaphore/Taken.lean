import Aiq.Semaphore.Final
import Aiq.Semaphore.Overflow
import Aiq.Semaphore.Settled
import Aiq.Task.Collect
import Aiq.Task.Wakers

/-!
# The wakers that are taken

`add_permits` takes the waker of a waiter that it satisfies, and `close` that of every waiter, in the step
that is the first of its removal (`Takes`). Both call the wakers that they have taken, unless they fail; and
as long as the states that `try_set_queue_state` is called with are accepted, nothing fails
(`nothing_fails`), because every waiter has a waker (`Armed`).
-/

namespace Aiq.Semaphore

variable {W : Type} {willWake : W → W → Bool} {cfg : Config} {a : Abs ℕ} {w w' : WorldOf W}
  {i j x : TaskId} {e : Event ℕ} {n : Input W} {r : InstrOf W} {o : AddOwner} {k : Kind}

/-! ## Where the wakers are -/

/-- The wakers that an `add_permits` has taken and has yet to call. -/
def AddPc.wakers : AddPc W → List W
  | .take _ ws | .dequeued _ ws | .requeue ws | .served _ ws | .set _ ws | .full _ ws | .batch _ ws
  | .done ws | .final ws => ws
  | _ => []

/-- See `AddPc.wakers`. -/
def ClosePc.wakers : ClosePc W → List W
  | .forEach p => p.wakers
  | .final ws => ws
  | _ => []

/-- The wakers that a task has taken and has yet to call. -/
def Pc.wakers : Pc W → List W
  | .add _ p => p.wakers
  | .close p => p.wakers
  | _ => []

/-- A `close` has failed. -/
def ClosePc.unwinds : ClosePc W → Bool
  | .failed | .unwound | .closing => true
  | _ => false

/-- Where the wakers are. -/
def keeping : Keeping (Waiter W) (Pc W) (Shared W) W := ⟨Waiter.waker, Pc.wakers, Shared.woken⟩

/-- The task has taken the waker of the node in its hand. -/
def Pc.takes : Pc W → Bool
  | .add _ (.served _ _) | .add _ (.set _ _) | .close (.forEach (.drop _ _))
  | .close (.forEach (.dropped _ _)) => true
  | _ => false

/-- The task `j` has the node `x` in hand, and has taken its waker. -/
def Takes (w : WorldOf W) (j x : TaskId) : Prop :=
  (w.pc j).takes = true ∧ (w.view j).op.bind HolderOp.target = some x

theorem Takes.lockedBy (h : Takes w j x) : w.lockedBy = some j := by
  obtain ⟨o, ho, -⟩ := Option.bind_eq_some_iff.1 h.2
  exact (World.op_of_view ho).1

theorem Satisfied.takes (h : Satisfied w j x) : Takes w j x := by
  obtain ⟨o, p, ws, ⟨hp, ho⟩ | ⟨hp, ho⟩⟩ := h <;> exact ⟨by rw [hp]; rfl, by rw [ho]; rfl⟩

/-- The node has left the queue, or a task has it in hand and has taken its waker. -/
def Released (w : WorldOf W) (x : NodeId) : Prop := Marked w.q x ∨ ∃ j, Takes w j x

theorem next_ne_reset (hr : next willWake w i n = some r) : r.call ≠ some .reset := by
  intro hc
  unfold next at hr
  cases hp : w.pc i <;> simp only [hp, reduceCtorEq] at hr
  case idle r' =>
    unfold start permitNext at hr
    repeat' split at hr
    all_goals
      first
      | contradiction
      | obtain rfl := Option.some.inj hr
      | obtain ⟨m, -, rfl⟩ := Option.map_eq_some_iff.1 hr
    all_goals
      first
      | cases hc
      | (split at hc <;> cases hc)
  case fut k p =>
    unfold futNext at hr
    repeat' split at hr
    all_goals first | contradiction | obtain rfl := Option.some.inj hr
    all_goals cases hc
  case add o p =>
    cases p <;> simp only [addNext] at hr
    all_goals repeat' split at hr
    all_goals first | contradiction | obtain rfl := Option.some.inj hr
    all_goals cases hc
  case close p =>
    unfold closeNext ForEachPc.next at hr
    repeat' split at hr
    all_goals first | contradiction | obtain rfl := Option.some.inj hr
    all_goals cases hc

theorem ne_reset (hm : (semaphore willWake).Moves cfg a w i n w' e) : e ≠ .reset x := by
  rintro rfl
  obtain ⟨r, hr, hk⟩ := hm.reset_inv
  exact next_ne_reset hr hk

/-! ## Nodes in hand -/

theorem Pc.Fits.takes_view {p : Pc W} {v : View ℕ} (h : p.Fits i v) (hp : p.takes = true) :
    v.own.runs = false ∧ v.upd.runs = false := by
  cases p with
  | add o p => exact ⟨by rw [h.1]; exact o.own_runs, by rw [h.2.1]; rfl⟩
  | close p =>
    cases p with
    | forEach p => exact ⟨by rw [h.1]; rfl, by rw [h.2.1]; rfl⟩
    | _ => cases hp
  | _ => cases hp

/-- What a task does next that has taken the waker of the node in its hand. -/
theorem next_takes (hr : next willWake w i n = some r) (hp : (w.pc i).takes = true) (hacc : Accepted w i) :
    (∃ o p ws, w.pc i = .add o (.served p ws) ∧ r.call = some (.holder (.trySetQueueState (shift p))) ∧
      r.pc = fun _ _ => .add o (.set p ws)) ∨
    (∃ d ws, w.pc i = .close (.forEach (.drop d ws)) ∧ r.call = some (.holder .drop) ∧
      r.pc = fun _ _ => .close (.forEach (.dropped d ws))) ∨
    ∃ d ws, w.pc i = .close (.forEach (.dropped d ws)) := by
  unfold next at hr
  cases hi : w.pc i with
  | add o p =>
    simp only [hi] at hr hp
    cases p with
    | served p ws =>
      simp only [addNext, if_pos (hacc o p ws hi)] at hr
      obtain rfl := Option.some.inj hr
      exact .inl ⟨o, p, ws, rfl, rfl, rfl⟩
    | set p ws => cases hr
    | _ => cases hp
  | close p =>
    simp only [hi] at hr hp
    cases p with
    | forEach p =>
      cases p with
      | drop d ws =>
        obtain rfl := Option.some.inj hr
        exact .inr (.inl ⟨d, ws, rfl, rfl, rfl⟩)
      | dropped d ws => exact .inr (.inr ⟨d, ws, rfl⟩)
      | _ => cases hp
    | _ => cases hp
  | _ =>
    rw [hi] at hp
    cases hp

/-- The node that `for_each` has dropped is not in hand any more when the task rests. -/
theorem Takes.not_dropped (h : Takes w i x) (hw : Reached cfg w a) (hrest : (w.view i).Rests)
    {d : DrainId} {ws : List W} : w.pc i ≠ .close (.forEach (.dropped d ws)) := by
  intro hi
  have hf := hw.control i
  rw [hi] at hf
  obtain ⟨-, -, ⟨b, ho⟩ | ho⟩ := hf
  · have := hrest.op ho
    cases this
  · have hx := h.2
    rw [ho] at hx
    cases hx

/-- A task keeps the node in hand whose waker it has taken, until it has removed it. -/
theorem Takes.step_self (h : Takes w i x) (hw : Reached cfg w a) (hacc : Accepted w i)
    (hm : (semaphore willWake).Moves cfg a w i n w' e) :
    Takes w' i x ∨ e.Removes x ∨ e.Dequeues x := by
  obtain ⟨hp, hx⟩ := id h
  have hf := hw.control i
  cases hm.mover with
  | op hs hd hv hp' hg =>
    obtain ⟨hown, hupd⟩ := hf.takes_view hp
    refine (hv.target hown hupd hx).imp_left fun hx' => ⟨?_, hx'⟩
    rcases observe_pc w i e w'.q with ho | ho <;>
      rw [show (observe w i e w'.q).1 = _ from hp'.symm] at ho
    · exact ho ▸ hp
    · exfalso
      obtain ⟨o₁, o₂, -, hos, hv'⟩ := hv.holder_inv hown hupd
      rw [hv'] at hx'
      generalize w.pc i = p at hp ho
      generalize w'.pc i = p' at ho
      cases ho with
      | set => cases hos <;> cases hx'
      | _ => cases hp
  | call hr hk hrest hs hv hp' hg =>
    left
    rcases next_takes hr hp hacc with ⟨o, p, ws, hi, hc, hpc⟩ | ⟨d, ws, hi, hc, hpc⟩ | ⟨d, ws, hi⟩
    · obtain rfl := Option.some.inj (hk.symm.trans hc)
      obtain ⟨y, u, o₁, o₂, hv₁, hcs, hv₂⟩ := hv.holder_inv
      refine ⟨by rw [hp', hpc]; rfl, ?_⟩
      rw [hv₁] at hx
      rw [hv₂]
      cases hcs
      exact hx
    · obtain rfl := Option.some.inj (hk.symm.trans hc)
      obtain ⟨y, u, o₁, o₂, hv₁, hcs, hv₂⟩ := hv.holder_inv
      refine ⟨by rw [hp', hpc]; rfl, ?_⟩
      rw [hv₁] at hx
      rw [hv₂]
      cases hcs with
      | dropHandle => exact hx
      | dropQueued => cases hx
      | dropDrained d b => cases b <;> exact hx
    · exact absurd hi (h.not_dropped hw hrest)
  | own hr hk hrest hq hv hp' hg =>
    rcases next_takes hr hp hacc with ⟨o, p, ws, hi, hc, hpc⟩ | ⟨d, ws, hi, hc, hpc⟩ | ⟨d, ws, hi⟩
    · simp [hk] at hc
    · simp [hk] at hc
    · exact absurd hi (h.not_dropped hw hrest)

/-- A node that is released stays so until its owner makes it new. -/
theorem Released.step (h : Released w x) (hw : Reached cfg w a) (hacc : Accepted w i)
    (hm : (semaphore willWake).Moves cfg a w i n w' e) (he : e ≠ .create x) : Released w' x := by
  rcases h with h | ⟨j, h⟩
  · exact .inl (hm.marked ⟨he, ne_reset hm⟩ h)
  · by_cases hj : j = i
    · subst hj
      rcases h.step_self hw hacc hm with h | h
      · exact .inr ⟨j, h⟩
      · exact .inl (hm.marked_of_removes h)
    · exact .inr ⟨j, by rw [hm.pc_ne hj]; exact h.1, by rw [hm.view_ne hj]; exact h.2⟩

/-- A node whose waker has been taken stays in hand while it is in a list. -/
theorem Takes.step (h : Takes w j x) (hw : Reached cfg w a) (hacc : Accepted w i)
    (hm : (semaphore willWake).Moves cfg a w i n w' e) (hx : a.Member x) (hx' : (a.apply e).Member x) :
    ∃ j, Takes w' j x := by
  have hrel : Released w' x := Released.step (.inr ⟨j, h⟩) hw hacc hm fun he => by
    subst he
    obtain ⟨rfl, hdead⟩ := hm.create_inv
    exact hw.ok.not_member (by rw [hdead]; rfl) hx
  exact hrel.resolve_left fun hmk => (hm.ok' hw.ok).inv.not_member_of_marked hmk hx'

theorem Released.entered (h : Released w x) (hw : w.Ok cfg a) : Entered w.q a x := by
  rcases h with h | ⟨j, h⟩
  · exact .inr h
  · exact hw.entered_of_target h.2

/-! ## Steps -/

/-- What a step of the task `i` does to the data of the node `x`. -/
inductive DataGoes (willWake : W → W → Bool) (w w' : WorldOf W) (i x : TaskId) : Prop
  | same (h : w'.q.mem.data x = w.q.mem.data x)
  /-- `add_permits` gives the waiter `p` permits, and it lacks more. -/
  | reduce (p : ℕ) (hlt : p < (w.q.mem.data x).permitsRemaining) (h : w'.q.mem.data x =
      { w.q.mem.data x with permitsRemaining := (w.q.mem.data x).permitsRemaining - p })
  /-- The waker is taken. -/
  | take (ht : Takes w' i x) (h : ∀ wk, (w.q.mem.data x).waker = some wk → wk ∈ (w'.pc i).wakers)
      (hn : (w'.q.mem.data x).waker = none)
  /-- There is no waker to take. -/
  | unwrap (o : AddOwner) (hp : w'.pc i = .add o (.failed .waker)) (hn : (w.q.mem.data x).waker = none)
      (h : w'.q.mem.data x = ⟨none, 0⟩)
  /-- The task writes to its own node, which is in no list. -/
  | out (hx : x = i) (ho : (w.view i).own.out = true)
  /-- `poll_acquire` refreshes the waker of its queued node. -/
  | refresh (hx : x = i) {k : Kind} {wk : W} {b : Bool} (hp : w.pc i = .fut k (.queued wk b))
      (h : w'.q.mem.data x = (w.q.mem.data x).refresh willWake wk)

theorem AddStep.data {p p' : Pc W} (h : AddStep w w' a i o p e p') (hf' : p'.Fits i (w'.view i))
    (hp' : w'.pc i = p') (x : NodeId) : DataGoes willWake w w' i x := by
  have hupd : ∀ {y} {v : Waiter W}, w'.q.mem.data = Function.update w.q.mem.data y v → x ≠ y →
      DataGoes willWake w w' i x := fun hd hxy => .same (by rw [hd, Function.update_of_ne hxy])
  cases h with
  | goes hg he hd => exact .same (by rw [hd])
  | wake p wk ws hq => exact .same (by rw [hq])
  | wakeLast wk ws hq => exact .same (by rw [hq])
  | update again l p s s' hs hmx hd => exact .same (by rw [hd])
  | remove p ws y l hq hr hr' hd => exact .same (by rw [hd])
  | drop b y l hq hmx hd => exact .same (by rw [hd])
  | reduce p ws y hmx hlt hd =>
    by_cases hxy : x = y
    · subst hxy
      exact .reduce p hlt (by rw [hd, Function.update_self])
    · exact hupd hd hxy
  | unwrap p ws y hmx hle hnone hd =>
    by_cases hxy : x = y
    · subst hxy
      exact .unwrap o hp' hnone (by rw [hd, Function.update_self])
    · exact hupd hd hxy
  | serve p ws y wk hmx hle hwk hlen hd hm' =>
    by_cases hxy : x = y
    · subst hxy
      obtain ⟨-, -, z, hz⟩ := hf'
      have hop : w'.q.op = some (.handle x) := by rw [State.op, hm', hmx]; rfl
      obtain rfl : z = x := by
        simpa [hop] using (World.op_of_view hz).2.symm
      refine .take ⟨by rw [hp']; rfl, by rw [hz]; rfl⟩ (fun wk' hwk' => ?_) (by simp [hd])
      obtain rfl := Option.some.inj (hwk.symm.trans hwk')
      rw [hp']
      exact List.mem_append_right _ (List.mem_singleton_self _)
    · exact hupd hd hxy

theorem Reached.data_goes (hw : Reached cfg w a) (hm : (semaphore willWake).Moves cfg a w i n w' e)
    (x : NodeId) : DataGoes willWake w w' i x := by
  by_cases ha : ∃ o, (w.pc i).Adds o
  · obtain ⟨o, ha⟩ := ha
    exact (hw.addStep hm ha).data ((hw.step hm).control i) rfl x
  cases hm.mover with
  | op hs hd hv hp hg => exact .same (by rw [hd])
  | own hr hk hrest hq hv hp hg => exact .same (by rw [hq])
  | call hr hk hrest hs hv hp hg =>
    rcases hs.data_call x with hd | hd
    · exact .same hd
    cases hd with
    | create hy ho => exact .out hy (by rw [ho]; rfl)
    | owner g hy ho hv' => exact .out hy (by rcases ho with ho | ho <;> rw [ho] <;> rfl)
    | holder g o ho hn hv' =>
      rcases next_withDataMut hr hk with hadd | ⟨k, wk, b, hi, rfl⟩ | ⟨⟨d, ws, hi⟩, rfl⟩
      · exact absurd hadd ha
      · have hf := hw.control i
        rw [hi] at hf
        rw [show w.view i = _ from hf] at ho
        obtain rfl := Option.some.inj ho
        exact .refresh (Option.some.inj hn).symm hi hv'
      · simp only [semaphore, next, hi, closeNext] at hr
        obtain ⟨d', ws', y, hp', hy, -, -, hpc⟩ := ForEachPc.next_withDataMut hr hk
        obtain ⟨rfl, rfl⟩ := ForEachPc.node.inj hp'
        obtain rfl : y = x := by
          rw [(World.op_of_view ho).2] at hy
          exact Option.some.inj (hy.symm.trans hn)
        have hf := hw.control i
        rw [hi] at hf
        obtain ⟨-, -, b, hb⟩ := hf
        obtain rfl := Option.some.inj (ho.symm.trans hb)
        obtain ⟨z, u, o₁, o₂, hv₁, hcs, hv₂⟩ := hv.holder_inv
        rw [hv₁] at hb
        obtain rfl := Option.some.inj hb
        refine .take ⟨by rw [hp, hpc]; rfl, ?_⟩ (fun wk hwk => ?_) (by rw [hv']; rfl)
        · rw [hv₂]
          cases hcs
          exact hn
        · rw [hp, hpc]
          exact List.mem_append_right _ (Option.mem_toList.2 hwk)

theorem FetchCont.woken_grant (c : FetchCont W) (g : Shared W) : (c.grant g).woken = g.woken := by
  cases c <;> rfl

theorem observe_woken (q : State ℕ (Waiter W)) : (observe w i e q).2.woken = w.shared.woken := by
  unfold observe
  repeat' split
  all_goals first | rfl | exact FetchCont.woken_grant ..

/-- A task that neither adds permits nor closes the semaphore calls no wakers. -/
theorem next_woken (hr : next willWake w i n = some r) (ha : ∀ o p, w.pc i ≠ .add o p)
    (hc : ∀ p, w.pc i ≠ .close p) : r.shared.woken = w.shared.woken := by
  unfold next at hr
  cases hp : w.pc i <;> simp only [hp, reduceCtorEq] at hr
  case idle r' =>
    unfold start permitNext at hr
    repeat' split at hr
    all_goals
      first
      | contradiction
      | obtain rfl := Option.some.inj hr
      | obtain ⟨m, -, rfl⟩ := Option.map_eq_some_iff.1 hr
    all_goals first | rfl | (split <;> rfl)
  case fut k p =>
    unfold futNext at hr
    repeat' split at hr
    all_goals first | contradiction | obtain rfl := Option.some.inj hr
    all_goals rfl
  case add o p => exact absurd hp (ha o p)
  case close p => exact absurd hp (hc p)

/-- What a `close` does with the wakers that it has taken. -/
theorem closeNext_wakers {p : ClosePc W} {q : State ℕ (Waiter W)} (hr : closeNext w p n = some r)
    (hf : r.pc e q ≠ .close .failed) :
    ((∀ wk ∈ p.wakers, wk ∈ (r.pc e q).wakers) ∧ r.shared = w.shared) ∨
      ∃ wk, p.wakers = wk :: (r.pc e q).wakers ∧ r.shared = w.shared.wake wk := by
  cases p with
  | ask => simp [closeNext] at hr
  | drain =>
    cases n <;> simp only [closeNext, reduceCtorEq] at hr
    obtain rfl := Option.some.inj hr
    exact .inl ⟨fun _ h => h, rfl⟩
  | forEach p =>
    simp only [closeNext] at hr
    rcases ForEachPc.next_wakers (e := e) (c := q) hr with h | ⟨d, ws, y, rfl, -, hg, h⟩ |
      ⟨d, wk, ws, rfl, hg, h⟩ | ⟨hg, ⟨p', h, hp'⟩ | h⟩
    · exact absurd h hf
    · refine .inl ⟨fun wk hwk => ?_, hg⟩
      rw [h]
      exact List.mem_append_left _ hwk
    · exact .inr ⟨wk, by rw [h]; rfl, hg⟩
    · refine .inl ⟨fun wk hwk => ?_, hg⟩
      rw [h]
      change wk ∈ p'.wakers
      rwa [hp']
    · refine .inl ⟨fun wk hwk => ?_, hg⟩
      rw [h]
      exact hwk
  | final ws =>
    cases ws <;> obtain rfl := Option.some.inj hr
    · exact .inl ⟨fun _ h => h, rfl⟩
    · exact .inr ⟨_, rfl, rfl⟩
  | _ =>
    obtain rfl := Option.some.inj hr
    exact .inl ⟨fun _ h => (List.not_mem_nil h).elim, rfl⟩

/-- A step of the task `i` keeps the wakers that it has taken, or calls the first, unless it fails. -/
theorem wakers_cases (hw : Reached cfg w a) (hm : (semaphore willWake).Moves cfg a w i n w' e)
    (hadd : ∀ o f, w'.pc i ≠ .add o (.failed f)) (hclose : w'.pc i ≠ .close .failed)
    (hi : ∀ o f, w.pc i ≠ .add o (.failed f)) :
    ((∀ wk ∈ (w.pc i).wakers, wk ∈ (w'.pc i).wakers) ∧ w'.shared.woken = w.shared.woken) ∨
      ∃ wk, (w.pc i).wakers = wk :: (w'.pc i).wakers ∧ w'.shared.woken = w.shared.woken ++ [wk] := by
  by_cases ha : ∃ o, (w.pc i).Adds o
  · obtain ⟨o, ha⟩ := ha
    have hstep := hw.addStep hm ha
    generalize w.pc i = p at hstep hi
    generalize w'.pc i = p' at hstep hadd
    cases hstep with
    | goes hg he hd hsh =>
      refine .inl ⟨?_, by rw [hsh]⟩
      cases hg with
      | assertion => exact absurd rfl (hadd _ _)
      | empty => exact absurd rfl (hadd _ _)
      | exceeded => exact absurd rfl (hadd _ _)
      | failed => exact absurd rfl (hi _ _)
      | removed p ws b hr =>
        intro wk hwk
        repeat' split
        all_goals exact hwk
      | queued again p hq => exact fun _ h => (List.not_mem_nil h).elim
      | queuedAtOnce again p hq => exact fun _ h => (List.not_mem_nil h).elim
      | _ => first | exact fun _ h => h | exact fun _ h => (List.not_mem_nil h).elim
    | wake p wk ws hq hg => exact .inr ⟨wk, rfl, by rw [hg]; rfl⟩
    | wakeLast wk ws hq hg => exact .inr ⟨wk, rfl, by rw [hg]; rfl⟩
    | update again l p s s' hs hmx hd hg => exact .inl ⟨fun _ h => (List.not_mem_nil h).elim, by rw [hg]⟩
    | reduce p ws y hmx hlt hd hg => exact .inl ⟨fun _ h => h, by rw [hg]⟩
    | serve p ws y wk hmx hle hwk hlen hd hm' hg =>
      exact .inl ⟨fun _ h => List.mem_append_left _ h, by rw [hg]⟩
    | unwrap => exact absurd rfl (hadd _ _)
    | remove p ws y l hq hr hr' hd hg => exact .inl ⟨fun _ h => h, by rw [hg]⟩
    | drop b y l hq hmx hd hg => exact .inl ⟨fun _ h => h, by rw [hg]⟩
  have hnil : (∀ p, w.pc i ≠ .close p) → (w.pc i).wakers = [] := fun hne => by
    cases hp : w.pc i with
    | add o p => exact absurd ⟨o, .inl ⟨p, hp⟩⟩ ha
    | close p => exact absurd hp (hne p)
    | _ => rfl
  by_cases hcl : ∃ p, w.pc i = .close p
  · obtain ⟨p, hp⟩ := hcl
    have hnext : ∀ {r : InstrOf W}, next willWake w i n = some r → closeNext w p n = some r := fun hr => by
      simpa only [next, hp] using hr
    rw [hp]
    cases hm.mover with
    | op hs hd hv hp' hg =>
      refine .inl ⟨fun wk hwk => ?_, by rw [hg]; exact observe_woken _⟩
      by_cases hask : p = .ask
      · rw [hask] at hwk
        exact (List.not_mem_nil hwk).elim
      · rw [hp', show ((semaphore willWake).observe w i e w'.q).1 = _ from observe_close hp hask]
        exact hwk
    | call hr hk hrest hs hv hp' hg =>
      rw [hp', hg]
      rcases closeNext_wakers (hnext hr) (hp' ▸ hclose) with ⟨h, hs⟩ | ⟨wk, h, hs⟩
      · exact .inl ⟨h, by rw [hs]⟩
      · exact .inr ⟨wk, h, by rw [hs]; rfl⟩
    | own hr hk hrest hq hv hp' hg =>
      rw [hp', hg]
      rcases closeNext_wakers (hnext hr) (hp' ▸ hclose) with ⟨h, hs⟩ | ⟨wk, h, hs⟩
      · exact .inl ⟨h, by rw [hs]⟩
      · exact .inr ⟨wk, h, by rw [hs]; rfl⟩
  · have hcl : ∀ p, w.pc i ≠ .close p := fun p hp => hcl ⟨p, hp⟩
    refine .inl ⟨fun wk hwk => (List.not_mem_nil (hnil hcl ▸ hwk)).elim, ?_⟩
    have hnext : ∀ {r : InstrOf W}, next willWake w i n = some r →
        r.shared.woken = w.shared.woken := fun hr =>
      next_woken hr (fun o p hp => ha ⟨o, .inl ⟨p, hp⟩⟩) hcl
    cases hm.mover with
    | op hs hd hv hp' hg =>
      rw [hg]
      exact observe_woken _
    | call hr hk hrest hs hv hp' hg => rw [hg, hnext hr]
    | own hr hk hrest hq hv hp' hg => rw [hg, hnext hr]

/-! ## Every waiter has a waker -/

/-- Nothing has failed, and every waiter that is in a list has a waker, until that is taken. -/
structure Armed (w : WorldOf W) (a : Abs ℕ) : Prop where
  serving : Serving w a
  waker : ∀ {x}, a.Member x → (w.q.mem.data x).waker ≠ none ∨ ∃ j, Takes w j x
  close : ∀ {i p}, w.pc i = .close p → p.unwinds = false
  room : ∀ {i p}, w.pc i = .close (.forEach p) → p.HasRoom
  poll : ∀ i k, w.pc i ≠ .fut k (.refreshed (some .panicked))

theorem Armed.init (s : ℕ) : Armed (init s : WorldOf W) (.init s) where
  serving := Serving.init s
  waker := fun hx => by simp [Abs.Member, Abs.init, DrainLog.empty] at hx
  close := fun h => by cases h
  room := fun h => by cases h
  poll := fun i k h => by cases h

/-- The waiter in the hand of a task that has not taken its waker has one. -/
theorem Armed.waker_of_held (h : Armed w a) (hx : a.Member x) (hl : w.lockedBy = some i)
    (ht : (w.pc i).takes = false) : (w.q.mem.data x).waker ≠ none := by
  refine (h.waker hx).resolve_right ?_
  rintro ⟨j, hj⟩
  obtain rfl := Option.some.inj (hl.symm.trans hj.lockedBy)
  simp [hj.1] at ht

/-- A `close` fails when the waiter in its hand has no waker. -/
theorem closeNext_unwinds {p p' : ClosePc W} {q : State ℕ (Waiter W)} (hr : closeNext w p n = some r)
    (hp : r.pc e q = .close p') (hu : p'.unwinds = true) : p.unwinds = true ∨
      ∃ d ws d' y, p = .forEach (.node d ws) ∧ w.q.mutex = some (.drained d' (.node y)) ∧
        (w.q.mem.data y).waker = none := by
  cases p with
  | ask => simp [closeNext] at hr
  | drain =>
    cases n <;> simp only [closeNext, reduceCtorEq] at hr
    obtain rfl := Option.some.inj hr
    obtain rfl := Pc.close.inj hp
    cases hu
  | forEach p =>
    right
    simp only [closeNext] at hr
    rcases ForEachPc.next_pc (e := e) (c := q) hr with ⟨f, h⟩ | ⟨ws, h⟩ | h <;> rw [h] at hp <;>
      obtain rfl := Pc.close.inj hp
    · cases hu
    · cases hu
    obtain ⟨d, ws, rfl⟩ := next_failed hr h
    simp only [ForEachPc.next] at hr
    split at hr
    · rename_i d' y hmx
      split at hr <;> obtain rfl := Option.some.inj hr
      · rename_i hf
        exact ⟨d, ws, d', y, rfl, hmx, hf.2⟩
      · cases h
    · cases hr
  | final ws =>
    cases ws <;> obtain rfl := Option.some.inj hr
    · cases hp
    · obtain rfl := Pc.close.inj hp
      cases hu
  | _ => exact .inl rfl

/-- Where a `close` is after a step that it has not just been called with, or been given the lock with. -/
theorem close_origin {p' : ClosePc W} (hm : (semaphore willWake).Moves cfg a w i n w' e)
    (hp : w'.pc i = .close p') (h₁ : p' ≠ .ask) (h₂ : p' ≠ .drain) : w.pc i = .close p' ∨
      ∃ p r q, w.pc i = .close p ∧ closeNext w p n = some r ∧ (r.pc e q : Pc W) = .close p' := by
  obtain ⟨p, hi⟩ := (close_inv hm hp).resolve_right fun h => h₁ h.1
  have hnext : ∀ {r : InstrOf W}, next willWake w i n = some r → closeNext w p n = some r := fun hr => by
    simpa only [next, hi] using hr
  cases hm.mover with
  | op hs hd hv hp' hg =>
    have hobs : (observe w i e w'.q).1 = .close p' := hp'.symm.trans hp
    by_cases hask : p = .ask
    · rw [observe_ask (hask ▸ hi)] at hobs
      repeat' split at hobs
      · exact absurd (Pc.close.inj hobs).symm h₂
      · cases hobs
      · exact absurd (Pc.close.inj hobs).symm h₁
    · exact .inl (hi.trans ((observe_close hi hask).symm.trans hobs))
  | call hr hk hrest hs hv hp' hg => exact .inr ⟨p, _, _, hi, hnext hr, hp' ▸ hp⟩
  | own hr hk hrest hq hv hp' hg => exact .inr ⟨p, _, _, hi, hnext hr, hp' ▸ hp⟩

theorem Armed.close_step (h : Armed w a) (hw : Reached cfg w a)
    (hm : (semaphore willWake).Moves cfg a w i n w' e) {p' : ClosePc W} (hp : w'.pc j = .close p') :
    p'.unwinds = false := by
  by_cases hj : j = i
  · subst hj
    refine Bool.eq_false_iff.2 fun hu => ?_
    rcases close_origin hm hp (by rintro rfl; cases hu) (by rintro rfl; cases hu) with hi | ⟨p, r, q, hi, hr, hrp⟩
    · simp [h.close hi] at hu
    rcases closeNext_unwinds hr hrp hu with hu | ⟨d, ws, d', y, rfl, hmx, hwk⟩
    · simp [h.close hi] at hu
    · have hf := hw.control j
      rw [hi] at hf
      obtain ⟨-, -, b, hb⟩ := hf
      have hop : w.q.op = some (.drained d' (.node y)) := by rw [State.op, hmx]; rfl
      have hmem : a.Member y := hw.ok.inv.member_of_node (by rw [hop]; rfl)
      exact h.waker_of_held hmem (World.op_of_view hb).1 (by rw [hi]; rfl) hwk
  · exact h.close (hm.pc_ne hj ▸ hp)

theorem Armed.not_failed (h : Armed w a) (i : TaskId) : w.pc i ≠ .close .failed := fun hi => by
  cases h.close hi

theorem Armed.room_step (h : Armed w a) (hm : (semaphore willWake).Moves cfg a w i n w' e)
    {p' : ForEachPc W} (hp : w'.pc j = .close (.forEach p')) : p'.HasRoom := by
  by_cases hj : j = i
  · subst hj
    rcases close_origin hm hp (by simp) (by simp) with hi | ⟨p, r, q, hi, hr, hrp⟩
    · exact h.room hi
    cases p with
    | ask => simp [closeNext] at hr
    | drain =>
      cases n <;> simp only [closeNext, reduceCtorEq] at hr
      obtain rfl := Option.some.inj hr
      cases hrp
      simp [ForEachPc.HasRoom, wakersCapacity]
    | forEach p =>
      simp only [closeNext] at hr
      rcases ForEachPc.next_hasRoom (e := e) (c := q) (h.room hi) hr with ⟨p'', h', hroom⟩ | ⟨ws, h'⟩ | h' <;>
        rw [h'] at hrp <;> cases hrp
      exact hroom
    | final ws => cases ws <;> obtain rfl := Option.some.inj hr <;> cases hrp
    | _ =>
      obtain rfl := Option.some.inj hr
      cases hrp
  · exact h.room (hm.pc_ne hj ▸ hp)

theorem Armed.poll_step (h : Armed w a) (hw : Reached cfg w a)
    (hm : (semaphore willWake).Moves cfg a w i n w' e) (j : TaskId) (k : Kind) :
    w'.pc j ≠ .fut k (.refreshed (some .panicked)) := by
  intro hp
  by_cases hj : j = i
  · subst hj
    have hnext : ∀ {r : InstrOf W} {q}, next willWake w j n = some r →
        r.pc e q ≠ .fut k (.refreshed (some .panicked)) := by
      intro r q hr hrp
      obtain ⟨p, hi, hr⟩ := next_fut hr hrp (by simp) (by simp)
      have hf := hw.control j
      rw [hi] at hf
      unfold futNext at hr
      repeat' split at hr
      all_goals first | contradiction | obtain rfl := Option.some.inj hr
      all_goals
        first
        | (have hf := fetch_fut hrp
           simp [FetchCont.err] at hf)
        | (cases hrp; done)
        | skip
      have ho := congrArg View.op (show w.view j = ⟨.locked, .idle, some (.queued j)⟩ from hf)
      exact h.waker_of_held (hw.ok.member_of_node ho rfl) (World.op_of_view ho).1 (by rw [hi]; rfl) ‹_›
    cases hm.mover with
    | op hs hd hv hp' hg =>
      rcases observe_pc w j e w'.q with ho | ho <;>
        rw [show (observe w j e w'.q).1 = _ from hp'.symm, hp] at ho
      · exact h.poll j k ho.symm
      · simpa using ho.fut_inv
    | call hr hk hrest hs hv hp' hg => exact hnext hr (hp' ▸ hp)
    | own hr hk hrest hq hv hp' hg => exact hnext hr (hp' ▸ hp)
  · exact h.poll j k (hm.pc_ne hj ▸ hp)

theorem Armed.waker_step (h : Armed w a) (hw : Reached cfg w a) (hacc : Accepted w i)
    (hm : (semaphore willWake).Moves cfg a w i n w' e) (hx' : (a.apply e).Member x) :
    (w'.q.mem.data x).waker ≠ none ∨ ∃ j, Takes w' j x := by
  rcases hm.member hx' with hx | ⟨rfl, rfl, -⟩
  · rcases h.waker hx with hwk | ⟨j, hj⟩
    · cases hw.data_goes hm x with
      | same hd => exact .inl (by rwa [hd])
      | reduce p hlt hd => exact .inl (by rwa [hd])
      | take ht => exact .inr ⟨i, ht⟩
      | unwrap o hp hn => exact absurd hn hwk
      | out hxi ho => exact absurd hx (hw.ok.not_member (hxi ▸ ho))
      | refresh hxi hi hd => exact .inl (by rw [hd]; exact Waiter.waker_refresh hwk)
    · exact .inr (hj.step hw hacc hm hx hx')
  · refine ((h.serving.step hw hacc hm).waker (x := x) (by simp [Abs.apply])).imp_right ?_
    rintro ⟨j, hj⟩
    exact ⟨j, hj.takes⟩

theorem Armed.step (h : Armed w a) (hw : Reached cfg w a) (hacc : Accepted w i)
    (hm : (semaphore willWake).Moves cfg a w i n w' e) : Armed w' (a.apply e) where
  serving := h.serving.step hw hacc hm
  waker := h.waker_step hw hacc hm
  close := h.close_step hw hm
  room := h.room_step hm
  poll := h.poll_step hw hm

/-- The wakers pass on as `Keeping` says. -/
theorem Armed.passes (h : Armed w a) (hw : Reached cfg w a) (hacc : Accepted w i)
    (hm : (semaphore willWake).Moves cfg a w i n w' e)
    (hd : x = i → w'.q.mem.data x = w.q.mem.data x) : Passes keeping (Released w') w w' i x where
  data := by
    have hd' : x = i → keeping.waker (w'.q.mem.data x) = keeping.waker (w.q.mem.data x) := fun hx => by
      rw [hd hx]
    cases hw.data_goes hm x with
    | same h => exact .inl (by rw [h])
    | reduce p hlt h => exact .inl (by rw [h]; rfl)
    | take ht hwk => exact .inr ⟨.inr ⟨i, ht⟩, hwk⟩
    | unwrap o hp hn h => exact .inl (by rw [h]; exact hn.symm)
    | out hx => exact .inl (hd' hx)
    | refresh hx => exact .inl (hd' hx)
  taken := by
    have h' := h.step hw hacc hm
    exact wakers_cases hw hm (h'.serving.failed i) (h'.not_failed i) (h.serving.failed i)
  others := fun _ => hm.pc_ne

/-! ## Every run -/

variable {u u' : WorldOf W × Abs ℕ} {ls : List (TaskId × Bool × Input W)} {permits s : ℕ}

/-- A step in which `try_set_queue_state` is not called with a state that it does not accept. -/
def Accepts (willWake : W → W → Bool) (cfg : Config) (u : WorldOf W × Abs ℕ) (l : TaskId × Bool × Input W)
    (u' : WorldOf W × Abs ℕ) : Prop :=
  (semaphore willWake).Steps cfg u l u' ∧ Accepted u.1 l.1

theorem accepts_reached (hs : newState permits = some s)
    (h : Lts.Run (Accepts willWake cfg) (init s, .init s) ls u) : Reached cfg u.1 u.2 ∧ Armed u.1 u.2 := by
  refine Lts.Run.prefixed (P := fun _ u => Reached cfg u.1 u.2 ∧ Armed u.1 u.2) h
    ⟨Reached.init hs, Armed.init s⟩ ?_
  rintro - l u₁ u₂ - ⟨hl, hacc⟩ ⟨h₁, h₂⟩
  obtain ⟨e, hm, ha⟩ := hl.moves h₁.ok
  rw [ha]
  exact ⟨h₁.step hm, h₂.step h₁ hacc hm⟩

/-- **A semaphore does not fail.** In every run in which `try_set_queue_state` accepts the states that it is
called with: the assertion of `add_permits_locked` holds, its `unwrap`s find a waiter and a waker, and its
list of wakers has room; `poll_acquire` and `close` find a waker in every waiter that they look at, and the
list of wakers of `close` has room. -/
theorem nothing_fails (hs : newState permits = some s)
    (h : Lts.Run (Accepts willWake cfg) (init s, .init s) ls u) :
    (∀ i o f, u.1.pc i ≠ .add o (.failed f)) ∧
    (∀ i k, u.1.pc i ≠ .fut k (.refreshed (some .panicked))) ∧
    (∀ i, u.1.pc i ≠ .close .failed) ∧
    ∀ i d ws, u.1.pc i = .close (.forEach (.node d ws)) → ws.length < wakersCapacity := by
  obtain ⟨-, harm⟩ := accepts_reached hs h
  exact ⟨harm.serving.failed, harm.poll, harm.not_failed, fun _ _ _ hp => harm.room hp⟩

/-- The state that the task calls `try_set_queue_state` with next, if it does, is accepted. -/
def Pc.accepted : Pc W → Bool
  | .add _ (.served p _) => decide (shift p ≤ maxState)
  | _ => true

theorem Accepted.of_pc (h : (w.pc i).accepted = true) : Accepted w i := fun o p ws hp => by
  simpa [hp, Pc.accepted] using h

/-- The tasks 0 and 1 call `try_set_queue_state` with states that it accepts. -/
abbrev TwoAccepted (u : WorldOf W × Abs ℕ) : Prop :=
  (u.1.pc 0).accepted = true ∧ (u.1.pc 1).accepted = true

theorem accepts_followed (h : ((semaphore willWake).follow cfg TwoAccepted u ls).isSome) (h₀ : TwoAccepted u)
    (hl : ∀ l ∈ ls, l.1 = 0 ∨ l.1 = 1) :
    Lts.Run (Accepts willWake cfg) u ls ((semaphore willWake).followed cfg TwoAccepted u ls) := by
  refine Lts.Run.prefixed (P := fun ls u' => Lts.Run (Accepts willWake cfg) u ls u')
    (Client.run_followed_sources h h₀).1 .nil ?_
  rintro ks l c c' hmem ⟨hstep, hp₀, hp₁⟩ hr
  refine hr.snoc ⟨hstep, .of_pc ?_⟩
  rcases hl l hmem with hl | hl <;> rw [hl]
  · exact hp₀
  · exact hp₁

/-- The task 0 is queued, and gets a permit from the task 1. -/
def servedActs : List (TaskId × Bool × Input ℕ) := acquireActs 0 false 1 13 ++ addActs 1 1 15

theorem nothing_fails_servedActs :
    let u := (semaphore fun _ _ => true).followed ⟨.x86, 0⟩ TwoAccepted (init 0, .init 0) servedActs
    u.1.shared.woken = [7] ∧ ∀ i o f, u.1.pc i ≠ .add o (.failed f) := by
  intro u
  have h : ((semaphore fun _ _ => true).follow ⟨.x86, 0⟩ TwoAccepted (init 0, .init 0) servedActs).isSome := by
    decide +kernel
  have hs : newState 0 = some 0 := by decide
  have hw : u.1.shared.woken = [7] := by decide +kernel
  have hrun : Lts.Run (Accepts (fun _ _ => true) ⟨.x86, 0⟩) (init 0, .init 0) servedActs u :=
    accepts_followed h ⟨rfl, rfl⟩ (by decide)
  clear_value u
  exact ⟨hw, (nothing_fails hs hrun).1⟩

end Aiq.Semaphore
