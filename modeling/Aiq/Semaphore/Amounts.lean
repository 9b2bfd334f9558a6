import Aiq.Semaphore.Serving
import Aiq.Task.Trace
import Mathlib.Algebra.BigOperators.Group.List.Basic

/-!
# The amounts of `add_permits`

What a call of `add_permits` gives to waiters, and what it adds to the available permits, sums to its
amount, whatever the other tasks do meanwhile (`paying_of_run`). A step of the call changes the amount that
it has in hand by as much (`Reached.pays`), as long as nothing overflows (`NoOverflow`).
-/

namespace Aiq.Semaphore

variable {W : Type} {willWake : W → W → Bool} {cfg : Config} {a : Abs ℕ} {w w' : WorldOf W}
  {i j x : TaskId} {e : Event ℕ} {n : Input W} {u u' : WorldOf W × Abs ℕ} {o : AddOwner}

/-- No amount that the task adds overflows. -/
structure NoOverflow (w : WorldOf W) (i : TaskId) : Prop where
  shift : ∀ {o p ws}, w.pc i = .add o (.served p ws) ∨ w.pc i = .add o (.set p ws) → 2 * p ≤ maxState
  check : ∀ {o again l p s}, w.pc i = .fetch (.add o again l p) → loaded w i = some s →
    (checkAddPermits s p).isSome

theorem NoOverflow.accepted (h : NoOverflow w i) : Accepted w i := fun o p ws hp => by
  have := h.shift (.inl hp)
  rw [shift_eq]
  exact (Nat.mod_le ..).trans this

/-- What a step gives to the waiters: by how much the permits that they lack become fewer. -/
def given (u u' : WorldOf W × Abs ℕ) : ℕ :=
  (u.2.queue.map fun x =>
    (u.1.q.mem.data x).permitsRemaining - (u'.1.q.mem.data x).permitsRemaining).sum

/-- By how much the available permits become more in a step. -/
def gained (u u' : WorldOf W × Abs ℕ) : ℕ := availablePermits u'.1.q - availablePermits u.1.q

/-- What a task that adds permits has in hand. -/
def Pc.inHand (q : State ℕ (Waiter W)) : Pc W → ℕ
  | .fetch (.add _ _ _ p) | .add _ (.start _ p) | .add _ (.lock _ p) | .add _ (.second _ p)
  | .add _ (.locked p) | .add _ (.take p _) | .add _ (.dequeued p _) | .add _ (.served p _)
  | .add _ (.full p _) | .add _ (.batch p _) => p
  | .add _ (.set p _) => if q.result = some true then 0 else p
  | _ => 0

theorem given_of_data (h : u'.1.q.mem.data = u.1.q.mem.data) : given u u' = 0 := by
  simp [given, h]

/-- What a step gives that changes one waiter. -/
theorem given_of_update (hn : u.2.queue.Nodup) (hx : x ∈ u.2.queue) {v : Waiter W}
    (h : u'.1.q.mem.data = Function.update u.1.q.mem.data x v) :
    given u u' = (u.1.q.mem.data x).permitsRemaining - v.permitsRemaining := by
  obtain ⟨l, m, hq⟩ := List.append_of_mem hx
  rw [hq] at hn
  have hother : ∀ {y}, y ≠ x → (u.1.q.mem.data y).permitsRemaining -
      (u'.1.q.mem.data y).permitsRemaining = 0 := fun hy => by
    rw [h, Function.update_of_ne hy, Nat.sub_self]
  have hl : (l.map fun y => (u.1.q.mem.data y).permitsRemaining -
      (u'.1.q.mem.data y).permitsRemaining).sum = 0 :=
    List.sum_eq_zero fun k hk => by
      obtain ⟨y, hy, rfl⟩ := List.mem_map.1 hk
      exact hother (by grind)
  have hm : (m.map fun y => (u.1.q.mem.data y).permitsRemaining -
      (u'.1.q.mem.data y).permitsRemaining).sum = 0 :=
    List.sum_eq_zero fun k hk => by
      obtain ⟨y, hy, rfl⟩ := List.mem_map.1 hk
      exact hother (by grind)
  rw [given, hq, List.map_append, List.map_cons, List.sum_append, List.sum_cons, hl, hm, h,
    Function.update_self]
  omega

theorem gained_of_quiet (hw : w.Ok cfg a) (hw' : w'.Ok cfg a) : gained (w, a) (w', a) = 0 := by
  rw [gained, World.Ok.availablePermits_eq hw hw', Nat.sub_self]

/-- A step of a task that adds permits takes from what it has in hand what it gives, and what it adds to
the available permits. -/
theorem Reached.pays (hw : Reached cfg w a) (hs : Serving w a) (hn : NoOverflow w i)
    (hm : (semaphore willWake).Moves cfg a w i n w' e) (ha : (w.pc i).Adds o) :
    (w'.pc i).inHand w'.q + given (w, a) (w', a.apply e) + gained (w, a) (w', a.apply e) =
      (w.pc i).inHand w.q := by
  have hadd := hw.addStep hm ha
  have hok := hm.ok' hw.ok
  have hfail : ∀ f, w'.pc i ≠ .add o (.failed f) := hs.failed_step hw hn.accepted hm i
  have hret : ∀ b, (o.ret b : Pc W).inHand w'.q = 0 := fun b => by cases o <;> rfl
  generalize hi : w.pc i = p at hadd
  generalize hi' : w'.pc i = p' at hadd
  cases hadd with
  | goes hg he hd =>
    rw [he] at hok ⊢
    rw [given_of_data hd, gained_of_quiet hw.ok hok]
    cases hg with
    | nothing => rw [hret]; rfl
    | final => rw [hret]; rfl
    | unlock b => rw [hret]; rfl
    | overflow again l p s hload hc => simpa [hc] using hn.check hi hload
    | queued again p hq => cases again <;> rfl
    | queuedAtOnce again p hq => cases again <;> rfl
    | assertion p hc => exact absurd hi' (hfail _)
    | empty p ws hmx => exact absurd hi' (hfail _)
    | exceeded p ws hlt => exact absurd hi' (hfail _)
    | served p ws hle hr => simp [Pc.inHand, hr]
    | set p ws hr => simp [Pc.inHand, hr]
    | removed p ws b hr =>
      cases b
      · by_cases hp : p = 0
        · simp [Pc.inHand, hr, hp]
        · by_cases hl : ws.length = wakersCapacity <;> simp [Pc.inHand, hr, hp, hl]
      · simp [Pc.inHand, hr]
    | _ => rfl
  | wake p wk ws hq =>
    rw [given_of_data (by rw [hq]), show a.apply .tau = a from rfl, gained_of_quiet hw.ok hok]
    rfl
  | wakeLast wk ws hq =>
    rw [given_of_data (by rw [hq]), show a.apply .tau = a from rfl, gained_of_quiet hw.ok hok]
    rfl
  | update again l p s s' hc hmx hd =>
    obtain ⟨hq, rfl⟩ := hm.allows
    obtain ⟨-, rfl⟩ := checkAddPermits_inv hc
    have hav := World.Ok.availablePermits_of_nil hw.ok hq
    have hav' := World.Ok.availablePermits_of_nil hok hq
    rw [given_of_data hd, gained, hav, hav']
    cases l
    · rw [if_neg Bool.false_ne_true, hret]
      simp only [Abs.apply, Pc.inHand]
      omega
    · simp only [Abs.apply, Pc.inHand, if_true]
      omega
  | reduce p ws x hmx hlt hd =>
    have hx := List.mem_of_mem_head? (hw.ok.inv.holder hmx).1
    rw [given_of_update hw.ok.inv.queue_nodup hx hd, show a.apply .tau = a from rfl,
      gained_of_quiet hw.ok hok]
    simp only [Pc.inHand]
    omega
  | serve p ws x wk hmx hle hwk hlen hd =>
    have hx := List.mem_of_mem_head? (hw.ok.inv.holder hmx).1
    rw [given_of_update hw.ok.inv.queue_nodup hx hd, show a.apply .tau = a from rfl,
      gained_of_quiet hw.ok hok]
    simp only [Pc.inHand]
    omega
  | unwrap p ws x hmx hle hnone => exact absurd hnone (hs.waker_of_dequeued hw hi hmx)
  | remove p ws x l hq hr hr' hd =>
    have hav := World.Ok.availablePermits_of_ne_nil hw.ok (a := a) (by simp [hq])
    have hp := hn.shift (.inr hi)
    have hM := maxState_eq
    rw [given_of_data hd, gained, hav]
    cases l with
    | nil =>
      have hnil : (a.apply (.remove x (shift p))).queue = [] := by simp [Abs.apply, hq]
      rw [World.Ok.availablePermits_of_nil hok hnil]
      simp only [Abs.apply, hq, Pc.inHand, hr, hr', shift_of_lt (by omega : p < 2 ^ 63)]
      simp
    | cons y l =>
      have hne : (a.apply (.remove x (shift p))).queue ≠ [] := by simp [Abs.apply, hq]
      rw [World.Ok.availablePermits_of_ne_nil hok hne]
      simp [Pc.inHand, hr, hr']
  | drop b x l hq hmx => exact absurd (hs.unlock hi) hmx

/-- The call has panicked. -/
def Pc.Panicked (p : Pc W) : Prop := p = .add .user (.unlock true) ∨ p = .idle .panicked

/-- Without an overflow nothing panics. -/
theorem Reached.not_panicked (hw : Reached cfg w a) (hs : Serving w a) (hn : NoOverflow w i)
    (hm : (semaphore willWake).Moves cfg a w i n w' e) (ha : (w.pc i).Adds .user)
    (hp : ¬ (w.pc i).Panicked) : ¬ (w'.pc i).Panicked ∧ ∀ r, w'.pc i = .idle r → r = .ok := by
  have hadd := hw.addStep hm ha
  generalize hi : w.pc i = p at hadd hp
  generalize hi' : w'.pc i = p' at hadd
  cases hadd with
  | goes hg =>
    cases hg with
    | overflow again l p s hload hc => simpa [hc] using hn.check hi hload
    | queued again p hq => cases again <;> simp [Pc.Panicked, AddPc.atQueue]
    | queuedAtOnce again p hq => cases again <;> simp [Pc.Panicked, AddPc.atQueue]
    | failed f => exact absurd hi (hs.failed i _ f)
    | unwind b => cases b <;> simp_all [Pc.Panicked]
    | unlock b => cases b <;> simp_all [Pc.Panicked, AddOwner.ret]
    | removed p ws b hr =>
      constructor
      · split <;> [skip; split] <;> simp [Pc.Panicked]
      · simp
    | _ => simp [Pc.Panicked, AddOwner.ret]
  | update again l p s s' => cases l <;> simp [Pc.Panicked, AddOwner.ret]
  | drop b x l hq hmx => exact absurd (hs.unlock hi) hmx
  | _ => simp [Pc.Panicked]

/-! ## Runs -/

/-- A step in which nothing overflows. -/
def Smooth (willWake : W → W → Bool) (cfg : Config) (u : WorldOf W × Abs ℕ)
    (l : TaskId × Bool × Input W) (u' : WorldOf W × Abs ℕ) : Prop :=
  (semaphore willWake).Steps cfg u l u' ∧ NoOverflow u.1 l.1

/-- Such a step, with the sum of what the steps of the task `i` have given and gained. -/
def Sums (willWake : W → W → Bool) (cfg : Config) (i : TaskId) (c : (WorldOf W × Abs ℕ) × ℕ)
    (l : TaskId × Bool × Input W) (c' : (WorldOf W × Abs ℕ) × ℕ) : Prop :=
  Smooth willWake cfg c.1 l c'.1 ∧
    c'.2 = c.2 + if l.1 = i then given c.1 c'.1 + gained c.1 c'.1 else 0

variable {ls : List (TaskId × Bool × Input W)} {l : TaskId × Bool × Input W} {permits s m : ℕ}

theorem smooth_reached (hs : newState permits = some s)
    (h : Lts.Run (Smooth willWake cfg) (init s, .init s) ls u) : Reached cfg u.1 u.2 ∧ Serving u.1 u.2 := by
  refine Lts.Run.prefixed (P := fun _ u => Reached cfg u.1 u.2 ∧ Serving u.1 u.2) h
    ⟨Reached.init hs, Serving.init s⟩ ?_
  rintro - l u₁ u₂ - ⟨hl, hn⟩ ⟨hr, hsv⟩
  obtain ⟨e, hm, ha⟩ := hl.moves hr.ok
  rw [ha]
  exact ⟨hr.step hm, hsv.step hr hn.accepted hm⟩

/-- What holds in a call of `add_permits(m)` that has given and gained `k` so far. -/
structure Paying (cfg : Config) (i : TaskId) (m : ℕ) (u : WorldOf W × Abs ℕ) (k : ℕ) : Prop where
  reached : Reached cfg u.1 u.2
  serving : Serving u.1 u.2
  not_panicked : ¬ (u.1.pc i).Panicked
  sum : k + (u.1.pc i).inHand u.1.q = m

theorem Pc.Adds.ne_idle {p : Pc W} (h : p.Adds o) (r : Result) : p ≠ .idle r := by
  rintro rfl
  rcases h with ⟨p, hp⟩ | ⟨again, l, m, hp⟩ <;> simp at hp

/-- What a task has in hand is left alone by the others. -/
theorem inHand_ne (hw : Reached cfg w a) (hm : (semaphore willWake).Moves cfg a w i n w' e) (hj : j ≠ i) :
    (w'.pc j).inHand w'.q = (w.pc j).inHand w.q := by
  have hf := hw.control j
  rw [hm.pc_ne hj]
  cases hp : w.pc j with
  | add o p =>
    cases p <;> try rfl
    case set m ws =>
      rw [hp] at hf
      obtain ⟨-, -, x, hx⟩ := hf
      have hr : w'.q.result = w.q.result := by
        rw [State.result, State.result, hm.mutex_ne (World.op_of_view hx).1 hj]
      simp only [Pc.inHand, hr]
  | fetch c => cases c <;> rfl
  | _ => rfl

theorem Paying.step {k k' : ℕ} (h : Paying cfg i m u k) (ha : (u.1.pc i).Adds .user)
    (hs : Sums willWake cfg i (u, k) l (u', k')) :
    Paying cfg i m u' k' ∧ ∀ r, u'.1.pc i = .idle r → r = .ok := by
  obtain ⟨w, a⟩ := u
  obtain ⟨w', a'⟩ := u'
  obtain ⟨⟨hl, hn⟩, hk⟩ := hs
  obtain ⟨e, hm, rfl⟩ := hl.moves h.reached.ok
  have hsum := h.sum
  have hr := h.reached.step hm
  have hsv := h.serving.step h.reached hn.accepted hm
  dsimp only at hk hsum
  by_cases hj : i = l.1
  · subst hj
    obtain ⟨hnp, hok⟩ := h.reached.not_panicked h.serving hn hm ha h.not_panicked
    refine ⟨⟨hr, hsv, hnp, ?_⟩, hok⟩
    have := h.reached.pays h.serving hn hm ha
    simp only [if_true] at hk
    dsimp only at this ⊢
    omega
  · have hpc : w'.pc i = w.pc i := hm.pc_ne hj
    rw [if_neg (Ne.symm hj)] at hk
    refine ⟨⟨hr, hsv, by rw [hpc]; exact h.not_panicked, ?_⟩,
      fun r hp => absurd (hpc.symm.trans hp) (ha.ne_idle r)⟩
    have := inHand_ne h.reached hm hj
    dsimp only at this ⊢
    omega

/-- A step while the task `i` is in a call of `add_permits`, with the sum of `Sums`. -/
def SumsInCall (willWake : W → W → Bool) (cfg : Config) (i : TaskId) (c : (WorldOf W × Abs ℕ) × ℕ)
    (l : TaskId × Bool × Input W) (c' : (WorldOf W × Abs ℕ) × ℕ) : Prop :=
  Sums willWake cfg i c l c' ∧ (c.1.1.pc i).Adds .user

/-- **The sum.** In a call of `add_permits(m)`, what its steps have given to the waiters and added to the
available permits, with what it has in hand, is `m`. -/
theorem paying_of_run {c : (WorldOf W × Abs ℕ) × ℕ} (h : Paying cfg i m u 0) (ha : (u.1.pc i).Adds .user)
    (hrun : Lts.Run (SumsInCall willWake cfg i) (u, 0) ls c) :
    Paying cfg i m c.1 c.2 ∧ ∀ r, c.1.1.pc i = .idle r → r = .ok := by
  refine Lts.Run.prefixed (P := fun _ c => Paying cfg i m c.1 c.2 ∧ ∀ r, c.1.1.pc i = .idle r → r = .ok)
    hrun ⟨h, fun r hr => absurd hr (ha.ne_idle r)⟩ ?_
  rintro - l c₁ c₂ - ⟨hl, ha⟩ ⟨hp, -⟩
  exact hp.step ha hl

end Aiq.Semaphore
