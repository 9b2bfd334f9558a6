import Aiq.Semaphore.Closed
import Aiq.Task.Trace

/-!
# Fairness

While a waiter is queued, the permits go to the waiters that were enqueued before it (`fair`). The state
of a queue with a node is not updated, so nothing is acquired without a node; `add_permits` serves the
first node only; and the other nodes leave the queue by a `close`, after which it stays empty
(`Closing`).
-/

namespace Aiq.Semaphore

variable {W : Type} {willWake : W → W → Bool} {cfg : Config} {a : Abs ℕ} {w w' : WorldOf W}
  {i j x : TaskId} {e : Event ℕ} {n : Input W} {v v' : View ℕ} {k : Kind} {r : InstrOf W}

/-! ## Waiters that have been served -/

/-- The future has a node, and has not ended. -/
def FutPc.pending : FutPc W → Bool
  | .fresh _ | .state _ | .retry _ | .failed _ _ | .stored _ _ | .enqueued _ _ | .suspended
  | .queued _ _ | .refreshed none | .dequeued _ => true
  | _ => false

/-- The node of a pending future has been removed from the queue. -/
def Served (w : WorldOf W) (j : TaskId) : Prop :=
  ∃ k p, w.pc j = .fut k p ∧ p.pending = true ∧ Marked w.q j

/-- The task has not started to acquire permits. -/
def NotStarted (w : WorldOf W) (j : TaskId) : Prop :=
  (∃ r, w.pc j = .idle r) ∨ ∃ k, w.pc j = .fut k .created

theorem Reached.not_member (h : Reached cfg w a) (hj : NotStarted w j) : ¬ a.Member j := by
  refine h.ok.not_member ?_
  have hc := h.control j
  rcases hj with ⟨r, hp⟩ | ⟨k, hp⟩ <;> rw [hp] at hc <;>
    · rw [show w.view j = ⟨.dead, .idle, none⟩ from hc]
      rfl

/-- Where a pending future comes from. -/
theorem pending_inv (hw : Control w) (hm : (semaphore willWake).Moves cfg a w i n w' e)
    {p' : FutPc W} (hp : w'.pc i = .fut k p') (hpend : p'.pending = true) :
    (∃ k p, w.pc i = .fut k p ∧ p.pending = true) ∨ (w.view i).own = .unqueued ∨
      (w.view i).own = .dead ∧ e = .create i ∧ w'.q.mem.prev (.node i) = .null := by
  have hnext : ∀ {r : InstrOf W} {q}, next willWake w i n = some r → r.pc e q = .fut k p' →
      (∃ p, w.pc i = .fut k p ∧ p.pending = true) ∨ r.call = some (.create Waiter.default) := by
    intro r q hr hrp
    obtain ⟨p, hi, hr⟩ := next_fut hr hrp (by rintro rfl; cases hpend) (by rintro e' rfl; cases hpend)
    by_cases hpe : p.pending = true
    · exact .inl ⟨p, hi, hpe⟩
    · right
      unfold futNext at hr
      repeat' split at hr
      all_goals first | contradiction | obtain rfl := Option.some.inj hr
      all_goals
        first
        | rfl
        | exact absurd rfl hpe
        | (have hf := fetch_fut hrp
           simp only [FetchCont.err, Pc.fut.injEq, true_and] at hf
           subst hf
           cases hpend)
        | (obtain rfl := (Pc.fut.inj hrp).2
           cases hpend)
        | cases hrp
  cases hm.mover with
  | op hs hd hv hp' hg =>
    rcases observe_pc w i e w'.q with ho | ho <;>
      rw [show (observe w i e w'.q).1 = _ from hp'.symm, hp] at ho
    · exact .inl ⟨k, p', ho.symm, hpend⟩
    · rcases ho.fut_inv with rfl | ⟨e', rfl⟩ | ⟨wk, rfl⟩ | ⟨wk, st, rfl, hi⟩ | ⟨e', rfl⟩ |
        ⟨e', m, y, rfl, -⟩ <;> first | cases hpend; done | skip
      have hc := hw i
      rw [hi] at hc
      obtain ⟨m, s, hv⟩ := hc
      exact .inr (.inl (by rw [hv]; rfl))
  | call hr hk hrest hs hv hp' hg =>
    rcases hnext hr (hp' ▸ hp) with ⟨p, hi, hpe⟩ | hc
    · exact .inl ⟨k, p, hi, hpe⟩
    · obtain rfl := Option.some.inj (hk.symm.trans hc)
      obtain rfl := hv.create_event
      exact .inr (.inr ⟨hv.create_inv, rfl, prev_of_renewed hs.step (.inr rfl)⟩)
  | own hr hk hrest hq hv hp' hg =>
    rcases hnext hr (hp' ▸ hp) with ⟨p, hi, hpe⟩ | hc
    · exact .inl ⟨k, p, hi, hpe⟩
    · simp [hk] at hc

/-- A task that removes a node removes its own, or adds permits and removes the one in its hand. -/
theorem Reached.remove_cases {s : ℕ} (h : Reached cfg w a)
    (hm : (semaphore willWake).Moves cfg a w i n w' (.remove j s)) :
    (j = i ∧ ∃ k p, p.pending = false ∧ w'.pc i = .fut k p) ∨
      (w.view i).op = some (.removing j s .handle) ∧ ∃ o, (∃ p ws, w.pc i = .add o (.set p ws)) ∨
        ∃ b, w.pc i = .add o (.unlock b) := by
  have hpc := writes h.control hm rfl
  have hop : ∃ c, (w.view i).op = some (.removing j s c) := by
    cases hm.mover with
    | op hs hd hv hp hg => exact hv.shrinks_inv.1 j s rfl
    | call hr hk hrest hs hv hp hg => exact absurd (.inl ⟨s, rfl⟩) hv.not_removes
  have hsame : ∀ k p, w.pc i = .fut k p → w'.pc i = .fut k p := fun k p hi => by
    cases hm.mover with
    | op hs hd hv hp hg =>
      rw [hp]
      simp only [semaphore, observe, hi]
      cases p <;> rfl
    | call hr hk hrest hs hv hp hg => exact absurd (.inl ⟨s, rfl⟩) hv.not_removes
  have hc := h.control i
  obtain ⟨c, hop⟩ := hop
  generalize hi : w.pc i = p at hpc hc
  cases hpc with
  | cancel k e' acquired => exact .inl ⟨rfl, k, _, rfl, hsame _ _ hi⟩
  | dropNode k e' => exact .inl ⟨rfl, k, _, rfl, hsame _ _ hi⟩
  | set o p ws =>
    obtain ⟨-, -, y, hy⟩ := hc
    rw [hop] at hy
    obtain ⟨-, -, rfl⟩ := HolderOp.removing.inj (Option.some.inj hy)
    exact .inr ⟨hop, o, .inl ⟨p, ws, rfl⟩⟩
  | unwind o b =>
    obtain ⟨-, -, hy | ⟨y, hy⟩⟩ := hc <;> rw [hop] at hy
    · cases hy
    · obtain ⟨-, -, rfl⟩ := HolderOp.removing.inj (Option.some.inj hy)
      exact .inr ⟨hop, o, .inr ⟨b, rfl⟩⟩

/-- A task that removes a node of another removes the first one. -/
theorem Reached.remove_other {s : ℕ} (h : Reached cfg w a)
    (hm : (semaphore willWake).Moves cfg a w i n w' (.remove j s)) :
    (j = i ∧ ∃ k p, p.pending = false ∧ w'.pc i = .fut k p) ∨ a.queue.head? = some j := by
  refine (h.remove_cases hm).imp_right fun ⟨hop, _⟩ => ?_
  obtain ⟨l, -, hl, -⟩ := hm.remove_handle h.head hop
  rw [hl]
  rfl

/-- A pending future whose node had left the queue before the step was pending. -/
theorem Served.of_marked (h : Served w' j) (hw : Reached cfg w a)
    (hm : (semaphore willWake).Moves cfg a w i n w' e) (hmk : Marked w.q j) : Served w j := by
  obtain ⟨k, p', hp, hpend, hmk'⟩ := h
  by_cases hi : j = i
  · subst hi
    rcases pending_inv hw.control hm hp hpend with ⟨k', p, hi, hpe⟩ | hown | ⟨hown, rfl, hprev⟩
    · exact ⟨k', p, hi, hpe, hmk⟩
    · have hown : w.q.own j = .unqueued := OwnPc.op_eq_unqueued.1 hown
      have hok := hw.ok.inv.own j
      rw [hown] at hok
      rcases hmk with hl | ⟨-, hcl⟩
      · exact absurd hl hok.1.2
      · simp [hown, OwnPc.claims] at hcl
    · have hout := hm.out (by simp) (hw.ok.inv.out_of_own (x := j) (by
        rw [show (w.q.own j).op = _ from hown]
        rfl))
      rcases hmk' with hl | ⟨hp', -⟩
      · exact absurd hl hout.2
      · simp [hprev] at hp'
  · exact ⟨k, p', hm.pc_ne hi ▸ hp, hpend, hmk⟩

/-- While `x` is queued, no node behind it is removed from the queue by another task. -/
theorem Served.of_step (h : Served w' j) (hw : Reached cfg w a) (hcl : Closing a)
    (hm : (semaphore willWake).Moves cfg a w i n w' e) (hx : x ∈ a.queue)
    (hx' : x ∈ (a.apply e).queue) (hj : j ≠ x) (hah : j ∉ a.ahead x) : Served w j := by
  obtain ⟨k, p', hp, hpend, hmk⟩ := id h
  rcases hm.marked_inv hmk with hmk' | hr | ⟨d, -, hd⟩
  · exact h.of_marked hw hm hmk'
  · rcases hr with ⟨s, rfl⟩ | ⟨d, flush, rfl⟩
    · rcases hw.remove_other hm with ⟨rfl, k', p, hpe, hi⟩ | hh
      · obtain ⟨-, rfl⟩ := Pc.fut.inj (hi.symm.trans hp)
        simp [hpend] at hpe
      · exact absurd (Abs.ahead_of_head hh hj.symm) hah
    · have hh : (a.drained d).rest.head? = some j := hm.allows
      simp [hcl.rest hx d] at hh
  · simp [hcl.rest hx d] at hd

/-! ## Acquisitions -/

/-- The acquisitions among the calls of `fetch_update_state`. -/
def FetchCont.acquires : FetchCont W → Bool
  | .acquire _ _ | .retry _ _ | .tryAcquire _ => true
  | _ => false

/-- `add_permits`, in the task `i`, satisfies the waiter of the node `x`, which it has dequeued. -/
def Serves (w : WorldOf W) (i x : TaskId) : Prop :=
  ∃ o p ws, w.pc i = .add o (.dequeued p ws) ∧ w.q.mutex = some (.dequeue x) ∧
    (w.q.mem.data x).permitsRemaining ≤ p

/-- In a step of the task `i` with the event `e`, an acquisition of the task `j` obtains its permits. -/
inductive Obtains (w : WorldOf W) (i : TaskId) (e : Event ℕ) : TaskId → Prop
  /-- A `fetch_update_state` of `try_acquire_many`, `acquire_many` or `poll_acquire` takes them. -/
  | take {c : FetchCont W} {s s' : ℕ} (hc : w.pc i = .fetch c) (ha : c.acquires = true)
      (he : e = .update i s s') : Obtains w i e i
  /-- Its waiter is satisfied. -/
  | serve {j : TaskId} (h : Serves w i j) : Obtains w i e j
  /-- `poll_acquire` finds its node dequeued, and the semaphore open. -/
  | ready {k : Kind} (h : w.pc i = .fut k (.dequeued false)) : Obtains w i e i

theorem Reached.serves (h : Reached cfg w a) (hx : Serves w i x) : a.queue.head? = some x := by
  obtain ⟨o, p, ws, -, hm, -⟩ := hx
  exact (h.ok.inv.holder hm).1

/-- The node of a future that finds it dequeued has been removed. -/
theorem Reached.served (h : Reached cfg w a) (hi : w.pc i = .fut k (.dequeued false)) : Served w i := by
  have hc := h.control i
  rw [hi] at hc
  have hown : w.q.own i = .dequeued := by
    have := congrArg View.own (show w.view i = ⟨.dequeued, .idle, none⟩ from hc)
    change (w.q.own i).op = .dequeued at this
    cases ho : w.q.own i <;> simp [ho, OwnPc.op] at this
    rfl
  have hok := h.ok.inv.own i
  rw [hown] at hok
  exact ⟨k, _, hi, rfl, .inr ⟨hok.2, by rw [hown]; rfl⟩⟩

variable {u u' : WorldOf W × Abs ℕ} {ls ls' : List (TaskId × Bool × Input W)} {permits s : ℕ}

theorem trace_reached (hs : newState permits = some s)
    (h : (semaphore willWake).Traces cfg (init s, .init s) ls u) :
    Reached cfg u.1 u.2 ∧ Closing u.2 := by
  refine Lts.Run.prefixed (P := fun _ u => Reached cfg u.1 u.2 ∧ Closing u.2) h
    ⟨Reached.init hs, Closing.init s⟩ ?_
  rintro - l u₁ u₂ - hl ⟨h₁, h₂⟩
  obtain ⟨e, hm, ha⟩ := hl.moves h₁.ok
  rw [ha]
  exact ⟨h₁.step hm, h₂.step h₁ hm⟩

/-- While `x` is queued, the nodes before it become fewer, and no other node is removed by a task that
does not own it. -/
theorem ahead_of_run (h₁ : Reached cfg u.1 u.2) (h₂ : Closing u.2) (hx : x ∈ u.2.queue)
    (h : Lts.Run (fun u l u' => (semaphore willWake).Steps cfg u l u' ∧ x ∈ u'.2.queue) u ls u') :
    (Reached cfg u'.1 u'.2 ∧ Closing u'.2 ∧ x ∈ u'.2.queue) ∧
      (u'.2.ahead x).Sublist (u.2.ahead x) ∧
      ∀ j, j ≠ x → j ∉ u.2.ahead x → Served u'.1 j → Served u.1 j := by
  refine Lts.Run.prefixed (P := fun _ u' => (Reached cfg u'.1 u'.2 ∧ Closing u'.2 ∧ x ∈ u'.2.queue) ∧
      (u'.2.ahead x).Sublist (u.2.ahead x) ∧
      ∀ j, j ≠ x → j ∉ u.2.ahead x → Served u'.1 j → Served u.1 j) h
    ⟨⟨h₁, h₂, hx⟩, .refl _, fun _ _ _ => id⟩ ?_
  rintro - l u₁ u₂ - ⟨hl, hx₂⟩ ⟨⟨hr, hc, hx₁⟩, hsub, hserved⟩
  obtain ⟨e, hm, ha⟩ := hl.moves hr.ok
  rw [ha] at hx₂ ⊢
  refine ⟨⟨hr.step hm, hc.step hr hm, hx₂⟩,
    (Abs.ahead_sublist hr.ok.inv.queue_nodup hx₁ hx₂).trans hsub, fun j hj hah h => ?_⟩
  exact hserved j hj hah (h.of_step hr hc hm hx₁ hx₂ hj fun h => hah (hsub.subset h))

/-- **Fairness.** In a run of a semaphore, let the node `x` be queued from the state `u` on. Then in every
later step no acquisition that has not started in `u` obtains its permits; the acquisitions that do are
that of `x`, those whose nodes were enqueued before `x`, and those that had been served in `u`; and the
waiters that are satisfied are of the first two kinds. -/
theorem fair {weak : Bool} (hs : newState permits = some s)
    (h : (semaphore willWake).Traces cfg (init s, .init s) ls u) (hx : x ∈ u.2.queue)
    (h' : Lts.Run (fun u l u' => (semaphore willWake).Steps cfg u l u' ∧ x ∈ u'.2.queue) u ls' u')
    (hstep : (semaphore willWake).step cfg u'.1 i weak n = some w')
    (he : (semaphore willWake).event cfg u'.1 i weak n = some e) (ho : Obtains u'.1 i e j) :
    ¬ NotStarted u.1 j ∧ (j = x ∨ j ∈ u.2.ahead x ∨ Served u.1 j) ∧
      (Serves u'.1 i j → j = x ∨ j ∈ u.2.ahead x) := by
  obtain ⟨h₁, h₂⟩ := trace_reached hs h
  obtain ⟨⟨hr, -, hx'⟩, hsub, hserved⟩ := ahead_of_run h₁ h₂ hx h'
  have hm := Client.moves_of_event hr.ok hstep he
  have hserves : Serves u'.1 i j → j = x ∨ j ∈ u.2.ahead x := fun hs => by
    by_cases hj : j = x
    · exact .inl hj
    · exact .inr (hsub.subset (Abs.ahead_of_head (hr.serves hs) (Ne.symm hj)))
  have hwho : j = x ∨ j ∈ u.2.ahead x ∨ Served u.1 j := by
    cases ho with
    | @take c s₁ s₂ hc ha he' =>
      subst he'
      have hnil : u'.2.queue = [] := hm.allows.1
      simp [hnil] at hx'
    | serve hs => exact (hserves hs).imp_right .inl
    | ready hp =>
      by_cases hj : i = x ∨ i ∈ u.2.ahead x
      · exact hj.imp_right .inl
      · obtain ⟨hj, hah⟩ := not_or.1 hj
        exact .inr (.inr (hserved _ hj hah (hr.served hp)))
  refine ⟨fun hn => ?_, hwho, hserves⟩
  have hout := h₁.not_member hn
  rcases hwho with rfl | hj | ⟨k, p, hp, hpend, -⟩
  · exact hout (.inl hx)
  · exact hout (.inl (Abs.mem_queue_of_ahead hj))
  · rcases hn with ⟨r, hn⟩ | ⟨k', hn⟩
    · cases hn.symm.trans hp
    · obtain ⟨-, rfl⟩ := Pc.fut.inj (hn.symm.trans hp)
      cases hpend

/-- The tasks 0 and 1 are queued, when a permit is added: it goes to the task 0. -/
theorem fair_two :
    let u := (semaphore fun _ _ => true).followed ⟨.x86, 0⟩ (fun _ => True) (init 0, .init 0)
      (acquireActs 0 false 1 13 ++ acquireActs 1 false 1 11)
    let u' := (semaphore fun _ _ => true).followed ⟨.x86, 0⟩ (fun u => 1 ∈ u.2.queue) u
      ((2, false, .addPermits 1) :: List.replicate 6 (2, false, .none))
    ¬ NotStarted u.1 0 ∧ (0 = 1 ∨ 0 ∈ u.2.ahead 1 ∨ Served u.1 0) ∧
      (Serves u'.1 2 0 → 0 = 1 ∨ 0 ∈ u.2.ahead 1) := by
  intro u u'
  have h : ((semaphore fun _ _ => true).follow ⟨.x86, 0⟩ (fun _ => True) (init 0, .init 0)
      (acquireActs 0 false 1 13 ++ acquireActs 1 false 1 11)).isSome := by decide +kernel
  have h' : ((semaphore fun _ _ => true).follow ⟨.x86, 0⟩ (fun u => 1 ∈ u.2.queue) u
      ((2, false, .addPermits 1) :: List.replicate 6 (2, false, .none))).isSome := by decide +kernel
  have hstep : ((semaphore fun _ _ => true).step ⟨.x86, 0⟩ u'.1 2 false .none).isSome := by
    decide +kernel
  have he : (semaphore fun _ _ => true).event ⟨.x86, 0⟩ u'.1 2 false .none = some .tau := by
    decide +kernel
  obtain ⟨w', hw'⟩ := Option.isSome_iff_exists.1 hstep
  have hserves : Serves u'.1 2 0 := ⟨.user, 1, [], rfl, rfl, by decide +kernel⟩
  have hs : newState 0 = some 0 := by decide
  exact fair hs ((Client.run_followed h).mono fun _ _ _ h => h.1) (by decide +kernel)
    (Client.run_followed h') hw' he (.serve hserves)

end Aiq.Semaphore
