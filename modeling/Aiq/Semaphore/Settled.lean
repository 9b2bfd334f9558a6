import Aiq.Semaphore.Fair
import Aiq.Semaphore.Serving
import Aiq.Task.Hand

/-!
# Waiters whose nodes have left the queue

`add_permits` removes a node when its waiter lacks no permits (`Given`); the other nodes that leave the
queue are those of the futures that are cancelled, and those that `close` drains. So a future that finds
its node dequeued, and the semaphore open, has got all its permits (`Settled`). This needs no bound on the
amounts: it also holds when an addition has panicked.
-/

namespace Aiq.Semaphore

variable {W : Type} {willWake : W → W → Bool} {cfg : Config} {a : Abs ℕ} {w w' : WorldOf W}
  {i j x : TaskId} {e : Event ℕ} {n : Input W} {o : AddOwner} {k : Kind}

/-! ## Waiters in hand -/

/-- The waiter in hand, if there is one, has been given what it lacks. -/
def Pc.settles : Pc W → Bool
  | .add _ (.served _ _) | .add _ (.set _ _) | .add _ (.unlock _) | .add _ (.failed _) => true
  | _ => false

theorem Pc.settles_inv {p : Pc W} (h : p.settles = true) : ∃ o p', p = .add o p' := by
  cases p <;> first | exact ⟨_, _, rfl⟩ | cases h

/-- A queued waiter in the hand of a task that settles it lacks no permits. -/
def Given (w : WorldOf W) (a : Abs ℕ) : Prop := ∀ i x, (w.pc i).settles = true →
  (w.view i).op.bind HolderOp.hand = some x → x ∈ a.queue → (w.q.mem.data x).permitsRemaining = 0

theorem Given.init (s : ℕ) : Given (init s : WorldOf W) (.init s) := fun _ _ hs => by cases hs

/-- Where the node in hand comes from. -/
theorem hand_inv (hm : (semaphore willWake).Moves cfg a w i n w' e)
    (hx : (w'.view i).op.bind HolderOp.hand = some x) :
    (w.view i).op.bind HolderOp.hand = some x ∨ (w.view i).op = some .dequeuing := by
  cases hm.mover with
  | op hs hd hv hp hg => exact hv.hand_inv hx
  | own hr hk hrest hq hv hp hg => exact .inl (hv ▸ hx)
  | call hr hk hrest hs hv hp hg =>
    refine .inl (hv.hand_inv ?_ hx)
    rintro rfl
    cases next_not_foreign hr hk

/-- A guard has no node in hand. -/
theorem hand_of_guard (h : w.q.mutex = some .guard) : (w.view i).op.bind HolderOp.hand = none := by
  cases ho : (w.view i).op with
  | none => rfl
  | some o =>
    have := (World.op_of_view ho).2
    rw [mutex_guard_iff.1 h] at this
    obtain rfl := Option.some.inj this
    rfl

/-- The node in hand is the one that has been dequeued. -/
theorem eq_of_hand {y : NodeId} (hmx : w.q.mutex = some (.dequeue y))
    (hx : (w.view i).op.bind HolderOp.hand = some x ∨ (w.view i).op = some .dequeuing) : x = y := by
  have hop : ∀ {b}, (w.view i).op = some b → b = .handle y := fun h => by
    have := (World.op_of_view h).2
    simpa [State.op, hmx, HolderPc.op, eq_comm] using this
  rcases hx with hx | hx
  · obtain ⟨b, hb, hx⟩ := Option.bind_eq_some_iff.1 hx
    obtain rfl := hop hb
    simpa [HolderOp.hand, eq_comm] using hx
  · cases hop hx

/-- A task that adds permits enqueues nothing. -/
theorem Reached.adds_queue (h : Reached cfg w a) (hm : (semaphore willWake).Moves cfg a w i n w' e)
    (ha : (w.pc i).Adds o) (hx : x ∈ (a.apply e).queue) : x ∈ a.queue := by
  refine (Abs.mem_queue_apply hx).resolve_right ?_
  rintro rfl
  obtain ⟨rfl, -⟩ := hm.enqueue_inv
  obtain ⟨k, wk, st, hp, -⟩ := h.enqueue hm
  rcases ha with ⟨p, ha⟩ | ⟨again, l, m, ha⟩ <;> simp [hp] at ha

theorem Pc.Fits.ne_dequeuing {p : Pc W} {v : View ℕ} (h : p.Fits i v) (hs : p.settles = true) :
    v.op ≠ some .dequeuing := by
  obtain ⟨o, p', rfl⟩ := Pc.settles_inv hs
  obtain ⟨-, -, h⟩ := h
  intro ho
  rw [ho] at h
  cases p' <;> try first | (cases hs; done) | (simp [AddPc.Fits] at h; done)
  case failed f => cases f <;> first | (cases h; done) | (obtain ⟨y, h⟩ := h; cases h)

theorem Given.step_self (h : Given w a) (hw : Reached cfg w a)
    (hm : (semaphore willWake).Moves cfg a w i n w' e) (hs : (w'.pc i).settles = true)
    (hx : (w'.view i).op.bind HolderOp.hand = some x) (hq : x ∈ (a.apply e).queue) :
    (w'.q.mem.data x).permitsRemaining = 0 := by
  obtain ⟨o, p', hp'⟩ := Pc.settles_inv hs
  have ha : (w.pc i).Adds o := by
    rcases add_inv hm hp' with ha | ⟨m, rfl⟩ | ⟨k, e', m, -, -, -, rfl⟩
    · exact ha
    · simp [hp', Pc.settles] at hs
    · simp [hp', Pc.settles] at hs
  have hadd := hw.addStep hm ha
  have hq' := hw.adds_queue hm ha hq
  have hhand := hand_inv hm hx
  have hfit := (hw.step hm).control i
  have hguard : w'.q.mutex ≠ some .guard := fun hg => by simp [hand_of_guard hg] at hx
  -- while a waiter is settled its data is left alone
  have hsame : (w.pc i).settles = true → w'.q.mem.data = w.q.mem.data →
      (w'.q.mem.data x).permitsRemaining = 0 := fun hs hd => by
    rw [hd]
    exact h i x hs (hhand.resolve_right ((hw.control i).ne_dequeuing hs)) hq'
  have hgiven : ∀ {y}, w.q.mutex = some (.dequeue y) →
      w'.q.mem.data = Function.update w.q.mem.data y ⟨none, 0⟩ →
      (w'.q.mem.data x).permitsRemaining = 0 := fun hmx hd => by
    obtain rfl := eq_of_hand hmx hhand
    simp [hd]
  have hfailed : ∀ {f}, w'.pc i = .add o (.failed f) → f = .assertion ∨ f = .dequeue → False := by
    intro f hp hf
    rw [hp] at hfit
    have hfit := hfit.2.2
    rcases hf with rfl | rfl <;> simp only [AddPc.Fits] at hfit <;> rw [hfit] at hx <;>
      simp [HolderOp.hand] at hx
  generalize w.pc i = p at hadd hsame
  generalize hi' : w'.pc i = p₂ at hadd hs
  cases hadd with
  | goes hg he hd =>
    cases hg with
    | served p ws => exact hsame rfl hd
    | set p ws => exact hsame rfl hd
    | exceeded p ws => exact hsame rfl hd
    | unwind b => exact hsame rfl hd
    | failed f => exact hsame rfl hd
    | assertion p => exact (hfailed hi' (.inl rfl)).elim
    | empty p ws => exact (hfailed hi' (.inr rfl)).elim
    | overflow again l p s hl hc hmx =>
      cases l
      · cases o <;> cases hs
      · exact absurd (hmx rfl) hguard
    | queued again p => cases again <;> cases hs
    | queuedAtOnce again p => cases again <;> cases hs
    | removed p ws b => exact hsame rfl hd
    | unlock b => exact hsame rfl hd
    | nothing => cases o <;> cases hs
    | final => cases o <;> cases hs
    | _ => cases hs
  | wake => cases hs
  | wakeLast => cases hs
  | reduce => cases hs
  | update again l p s s' hc hmx =>
    cases l
    · cases o <;> cases hs
    · exact absurd (hmx rfl) hguard
  | serve p ws y wk hmx hle hwk hlen hd => exact hgiven hmx hd
  | unwrap p ws y hmx hle hwk hd => exact hgiven hmx hd
  | remove p ws y l hql hr hr' hd => exact hsame rfl hd
  | drop b y l hql hmx hd => exact hsame rfl hd

theorem Given.step (h : Given w a) (hw : Reached cfg w a)
    (hm : (semaphore willWake).Moves cfg a w i n w' e) : Given w' (a.apply e) := by
  intro j x hs hx hq
  by_cases hj : j = i
  · subst hj
    exact h.step_self hw hm hs hx hq
  · rw [hm.pc_ne hj] at hs
    rw [hm.view_ne hj] at hx
    obtain ⟨b, hb, -⟩ := Option.bind_eq_some_iff.1 hx
    have hq' : x ∈ a.queue := (Abs.mem_queue_apply hq).resolve_right fun he => by
      subst he
      obtain ⟨rfl, f, u, o, hv⟩ := hm.enqueue_inv
      simpa [hv, OwnOp.out] using hw.ok.not_out_of_hand hx
    rw [hm.data_of_locked hw.ok (World.op_of_view hb).1 hj (.inl hq')]
    exact h j x hs hx hq'

/-! ## Waiters that have been served -/

/-- The waiter of a pending future whose node has left the queue lacks no permits, unless the semaphore is
closed for good. -/
def Settled (w : WorldOf W) (a : Abs ℕ) : Prop := ∀ i, Served w i →
  (w.q.mem.data i).permitsRemaining = 0 ∨ Shut a

theorem Settled.init (s : ℕ) : Settled (init s : WorldOf W) (.init s) := by
  rintro i ⟨k, p, hp, -⟩
  simp [Semaphore.init] at hp

/-- Who writes to the data of its own node. -/
theorem next_setsData {r : InstrOf W} {c : Call ℕ (Waiter W)} (hr : next willWake w i n = some r)
    (hc : r.call = some c) (hs : c.setsData = true) :
    (∃ b, c = .holder b) ∨ (∃ k wk, w.pc i = .fut k (.node wk)) ∨
      ∃ k wk st, w.pc i = .fut k (.failed wk st) := by
  unfold next at hr
  cases hi : w.pc i <;> simp only [hi, reduceCtorEq] at hr
  case idle r' =>
    unfold start permitNext at hr
    repeat' split at hr
    all_goals
      first
      | contradiction
      | obtain rfl := Option.some.inj hr
      | obtain ⟨m, -, rfl⟩ := Option.map_eq_some_iff.1 hr
    all_goals
      first
      | (obtain rfl := Option.some.inj hc
         cases hs)
      | (simp at hc; done)
      | (split at hc <;> simp at hc)
  case fut k p =>
    cases p <;> try first | exact .inr (.inl ⟨_, _, rfl⟩) | exact .inr (.inr ⟨_, _, _, rfl⟩)
    all_goals
      unfold futNext at hr
      repeat' split at hr
      all_goals first | contradiction | obtain rfl := Option.some.inj hr
      all_goals
        first
        | (obtain rfl := Option.some.inj hc
           first
           | exact .inl ⟨_, rfl⟩
           | cases hs)
        | simp at hc
  case add o p =>
    cases p <;> simp only [addNext] at hr
    all_goals repeat' split at hr
    all_goals first | contradiction | obtain rfl := Option.some.inj hr
    all_goals
      first
      | (obtain rfl := Option.some.inj hc
         first
         | exact .inl ⟨_, rfl⟩
         | cases hs)
      | simp at hc
  case close p =>
    unfold closeNext ForEachPc.next at hr
    repeat' split at hr
    all_goals first | contradiction | obtain rfl := Option.some.inj hr
    all_goals
      first
      | (obtain rfl := Option.some.inj hc
         first
         | exact .inl ⟨_, rfl⟩
         | cases hs)
      | simp at hc

/-- The data of a node that has left the queue is not written while its future is pending. -/
theorem Served.data (h : Served w j) (hw : Reached cfg w a)
    (hm : (semaphore willWake).Moves cfg a w i n w' e) : w'.q.mem.data j = w.q.mem.data j := by
  obtain ⟨k, p, hp, hpend, hmk⟩ := h
  cases hm.mover with
  | op hs hd hv hp hg => rw [hd]
  | own hr hk hrest hq hv hp hg => rw [hq]
  | @call r c _ hr hk hrest hs hv hp' hg =>
    refine (hs.data_call j).resolve_right fun hd => ?_
    have key : j = i → c.setsData = true → (∀ b, c ≠ .holder b) → False := by
      rintro rfl hc hb
      rcases next_setsData hr hk hc with ⟨b, rfl⟩ | ⟨k', wk, hi⟩ | ⟨k', wk, st, hi⟩
      · exact hb b rfl
      · obtain ⟨-, rfl⟩ := Pc.fut.inj (hi.symm.trans hp)
        cases hpend
      · have hf := hw.control j
        rw [hi] at hf
        have hown : w.q.own j = .unqueued :=
          OwnPc.op_eq_unqueued.1 (congrArg View.own (show w.view j = ⟨.unqueued, .idle, none⟩ from hf))
        have hok := hw.ok.inv.own j
        rw [hown] at hok
        rcases hmk with hl | ⟨-, hcl⟩
        · exact absurd hl hok.1.2
        · simp [hown, OwnPc.claims] at hcl
    cases hd with
    | create hy ho => exact key hy rfl (by simp)
    | owner g hy ho hv' => exact key hy rfl (by simp)
    | holder g o ho hn hv' => exact hw.ok.inv.not_member_of_marked hmk (hw.ok.member_of_node ho hn)

theorem Settled.step (h : Settled w a) (hg : Given w a) (hw : Reached cfg w a) (hcl : Closing a)
    (hm : (semaphore willWake).Moves cfg a w i n w' e) : Settled w' (a.apply e) := by
  intro j hj
  obtain ⟨k, p', hp, hpend, hmk⟩ := id hj
  rcases hm.marked_inv hmk with hmk' | hr | ⟨d, -, hd⟩
  · have hj' := hj.of_marked hw hm hmk'
    rw [hj'.data hw hm]
    exact (h j hj').imp_right fun hs => hs.step hw hm
  · rcases hr with ⟨s, rfl⟩ | ⟨d, flush, rfl⟩
    · rcases hw.remove_cases hm with ⟨rfl, k', p, hpe, hi⟩ | ⟨hop, o, hi⟩
      · obtain ⟨-, rfl⟩ := Pc.fut.inj (hi.symm.trans hp)
        simp [hpend] at hpe
      · obtain ⟨l, -, hl, -⟩ := hm.remove_handle hw.head hop
        have hset : (w.pc i).settles = true := by
          rcases hi with ⟨p, ws, hi⟩ | ⟨b, hi⟩ <;> rw [hi] <;> rfl
        have hz := hg i j hset (by rw [hop]; rfl) (by simp [hl])
        left
        cases hm.mover with
        | op hs hd hv hp' hg' => rw [hd, hz]
        | call hr hk hrest hs hv hp' hg' => exact absurd (.inl ⟨s, rfl⟩) hv.not_removes
    · have hh : (a.drained d).rest.head? = some j := hm.allows
      rcases hcl with hcl | hcl
      · simp [hcl] at hh
      · exact .inr (hcl.step hw hm)
  · rcases hcl with hcl | hcl
    · simp [hcl] at hd
    · exact .inr (hcl.step hw hm)

end Aiq.Semaphore
