import Aiq.Semaphore.Forget
import Aiq.Semaphore.Serving
import Aiq.Task.Trace

/-!
# Overflow in `add_permits`

`check_add_permits` keeps the permits of a semaphore to `MAX_PERMITS`, where it is called. It is not
called for what `add_permits` leaves when it has served the last waiter, nor by `forget_permits`. In a run
that meets the bound there (`Bounded`), the bound holds in every state, and an `add_permits` that panics has
left everything as it was (`add_permits_atomic`).
-/

namespace Aiq.Semaphore

variable {W : Type} {willWake : W → W → Bool} {cfg : Config} {a : Abs ℕ} {w w' : WorldOf W}
  {i j x : TaskId} {e : Event ℕ} {n : Input W} {u u' : WorldOf W × Abs ℕ}
  {ls ls' : List (TaskId × Bool × Input W)}

/-! ## The bound -/

/-- A step of the task `i` with the event `e` meets the bound, where the source does not check it. -/
structure Bounded (u : WorldOf W × Abs ℕ) (i : TaskId) (e : Event ℕ) : Prop where
  /-- What is left after a waiter, as a state. -/
  served : Accepted u.1 i
  /-- What is left after the last waiter. -/
  last : ∀ {o p ws x s}, u.1.pc i = .add o (.set p ws) → u.2.queue = [x] → e = .remove x s →
    shift p / 2 ≤ maxPermits
  /-- What is left after a full list of wakers, when there are no waiters any more. -/
  again : ∀ {o l p s}, u.1.pc i = .fetch (.add o true l p) → loaded u.1 i = some s →
    (checkAddPermits s p).isSome
  forget : ∀ {m s s'}, u.1.pc i = .fetch (.forget m) → e = .update i s s' → s' / 2 ≤ maxPermits

/-- At the control state the source leaves the bound unchecked. -/
def Pc.unchecked : Pc W → Bool
  | .add _ (.served _ _) | .add _ (.set _ _) | .fetch (.add _ true _ _) | .fetch (.forget _) => true
  | _ => false

theorem Bounded.of_unchecked (h : (u.1.pc i).unchecked = false) : Bounded u i e where
  served := fun o p ws hp => by simp [hp, Pc.unchecked] at h
  last := fun hp => by simp [hp, Pc.unchecked] at h
  again := fun hp => by simp [hp, Pc.unchecked] at h
  forget := fun hp => by simp [hp, Pc.unchecked] at h

/-- The permits in the state of the queue, and in the states that a `fetch_update_state` has loaded. -/
structure BoundOk (w : WorldOf W) (a : Abs ℕ) : Prop where
  state : a.state / 2 ≤ maxPermits
  loaded : ∀ {i f m s}, (w.view i).upd = .trying f m s → s / 2 ≤ maxPermits

theorem or_closed_div (s : ℕ) : (s ||| closed) / 2 = s / 2 := by
  rw [← Nat.shiftRight_eq_div_pow _ 1, ← Nat.shiftRight_eq_div_pow _ 1, Nat.shiftRight_or_distrib]
  exact Nat.or_zero _

theorem Bounded.state (h : Bounded (w, a) i e) (hw : Reached cfg w a) (hs : a.state / 2 ≤ maxPermits)
    (hm : (semaphore willWake).Moves cfg a w i n w' e) : (a.apply e).state / 2 ≤ maxPermits := by
  have hM := maxPermits_eq
  cases he : e.writes with
  | false => exact (Abs.state_apply he).symm ▸ hs
  | true =>
    have hwr := writes hw.control hm he
    have hok := hw.ranges.pc i
    have hal := hm.allows
    have hremove : ∀ {x s}, (a.queue = [x] → s / 2 ≤ maxPermits) →
        (a.apply (.remove x s)).state / 2 ≤ maxPermits := fun h => by
      simp only [Abs.apply]
      split
      · exact h ‹_›
      · exact hs
    generalize hi : w.pc i = p at hwr hok
    cases hwr with
    | fetch c m s s' hf =>
      obtain ⟨-, rfl⟩ := hal
      have hacq : ∀ {k}, checkAcquirePermits a.state k = some s' → s' / 2 ≤ maxPermits := fun h => by
        unfold checkAcquirePermits at h
        repeat' split at h
        all_goals first | contradiction | obtain rfl := Option.some.inj h
        omega
      cases c with
      | acquire k wk => exact hacq hf
      | retry k wk => exact hacq hf
      | tryAcquire k => exact hacq hf
      | forget m => exact h.forget hi rfl
      | add o again l p =>
        obtain ⟨hle, rfl⟩ := checkAddPermits_inv hf
        simp only [Abs.apply]
        omega
    | close s =>
      obtain ⟨-, rfl⟩ := hal
      exact (or_closed_div _).symm ▸ hs
    | cancel k e' acquired =>
      have : acquired < 2 ^ 32 := hok.2
      exact hremove fun _ => by omega
    | dropNode k e' => exact hremove fun _ => Nat.zero_le _
    | set o p ws x => exact hremove fun hq => h.last hi hq rfl
    | unwind o b x => exact hremove fun _ => Nat.zero_le _
    | drain p d => exact show closed / 2 ≤ maxPermits by decide

theorem BoundOk.step (h : BoundOk w a) (hw : Reached cfg w a) (hb : Bounded (w, a) i e)
    (hm : (semaphore willWake).Moves cfg a w i n w' e) : BoundOk w' (a.apply e) where
  state := hb.state hw h.state hm
  loaded := loaded_step (P := fun s => s / 2 ≤ maxPermits) h.state h.loaded hw.ok hm

/-! ## Calls that have not changed anything -/

/-- The permits, the queue and the waiters are as they were. -/
structure Untouched (u u' : WorldOf W × Abs ℕ) : Prop where
  available : availablePermits u'.1.q = availablePermits u.1.q
  queue : u'.2.queue = u.2.queue
  data : u'.1.q.mem.data = u.1.q.mem.data

/-- Nothing has been added yet, and no waiter has been served. -/
def Pc.Fresh : Pc W → Prop
  | .fetch (.add _ again _ _) | .add _ (.start again _) | .add _ (.lock again _)
  | .add _ (.second again _) => again = false
  | .add _ (.locked _) | .add _ (.unlock true) => True
  | _ => False

/-- The call is not going to panic. -/
def Pc.Late : Pc W → Prop
  | .fetch (.add _ again _ _) | .add _ (.start again _) | .add _ (.lock again _)
  | .add _ (.second again _) => again = true
  | .add _ (.take _ _) | .add _ (.dequeued _ _) | .add _ (.requeue _) | .add _ (.served _ _)
  | .add _ (.set _ _) | .add _ (.full _ _) | .add _ (.batch _ _) | .add _ (.done _)
  | .add _ (.final _) | .add _ (.unlock false) => True
  | _ => False

theorem untouched_of_quiet (hw : w.Ok cfg a) (hw' : w'.Ok cfg a) (hd : w'.q.mem.data = w.q.mem.data) :
    Untouched (w, a) (w', a) where
  available := World.Ok.availablePermits_eq hw hw'
  queue := rfl
  data := hd

/-- The phases of a call: it changes nothing, until it cannot panic any more. -/
theorem Reached.phase (hw : Reached cfg w a) (hs : Serving w a) (hb : Bounded (w, a) i e)
    (hm : (semaphore willWake).Moves cfg a w i n w' e) (ha : (w.pc i).Adds .user) :
    ((w.pc i).Fresh → (w'.pc i).Late ∨
      w'.pc i = .idle .ok ∨ ((w'.pc i).Fresh ∨ w'.pc i = .idle .panicked) ∧ Untouched (w, a) (w', a.apply e)) ∧
    ((w.pc i).Late → (w'.pc i).Late ∨ w'.pc i = .idle .ok) := by
  have hadd := hw.addStep hm ha
  have hok := hm.ok' hw.ok
  generalize hi : w.pc i = p at hadd
  generalize hi' : w'.pc i = p' at hadd
  cases hadd with
  | goes hg he hd =>
    rw [he] at hok ⊢
    have hun := untouched_of_quiet hw.ok hok hd
    have hfail : ∀ f, w'.pc i ≠ .add .user (.failed f) := hs.failed_step hw hb.served hm i
    cases hg with
    | overflow again l p s hload hc hmx =>
      cases again with
      | false => cases l <;> exact ⟨fun _ => .inr (.inr ⟨by simp [Pc.Fresh, AddOwner.ret], hun⟩), by simp [Pc.Late]⟩
      | true => simpa [hc] using hb.again hi hload
    | queued again p hq => cases again <;> simp [AddPc.atQueue, Pc.Fresh, Pc.Late, hun]
    | queuedAtOnce again p hq => cases again <;> simp [AddPc.atQueue, Pc.Fresh, Pc.Late, hun]
    | assertion p hc => exact absurd hi' (hfail _)
    | empty p ws hmx => exact absurd hi' (hfail _)
    | exceeded p ws hlt => exact absurd hi' (hfail _)
    | failed f => exact absurd hi (hs.failed i _ f)
    | unwind b hmx => exact absurd (hs.unlock hi) hmx
    | unlock b => cases b <;> simp [Pc.Fresh, Pc.Late, AddOwner.ret, hun]
    | removed p ws b hr =>
      refine ⟨by simp [Pc.Fresh], fun _ => .inl ?_⟩
      split
      · trivial
      · split <;> trivial
    | _ => simp [Pc.Fresh, Pc.Late, AddOwner.ret, hun]
  | update again l p s s' hs hmx hd => cases l <;> simp [Pc.Late, AddOwner.ret]
  | drop b x l hq hmx hd => exact absurd (hs.unlock hi) hmx
  | unwrap p ws x hmx hle hnone hd => exact absurd hnone (hs.waker_of_dequeued hw hi hmx)
  | _ => simp [Pc.Late, Pc.Fresh]

/-! ## Runs -/

/-- A step that meets the bound. -/
def Within (willWake : W → W → Bool) (cfg : Config) (u : WorldOf W × Abs ℕ)
    (l : TaskId × Bool × Input W) (u' : WorldOf W × Abs ℕ) : Prop :=
  (semaphore willWake).Steps cfg u l u' ∧
    ∀ e, (semaphore willWake).event cfg u.1 l.1 l.2.1 l.2.2 = some e → Bounded u l.1 e

variable {l : TaskId × Bool × Input W} {permits s : ℕ}

theorem Within.moves (h : Within willWake cfg u l u') (hw : u.1.Ok cfg u.2) :
    ∃ e, (semaphore willWake).Moves cfg u.2 u.1 l.1 l.2.2 u'.1 e ∧ Bounded u l.1 e ∧ u'.2 = u.2.apply e := by
  obtain ⟨⟨hs, he⟩, hb⟩ := h
  obtain ⟨e, he', ha⟩ := Option.map_eq_some_iff.1 he
  exact ⟨e, Client.moves_of_event hw hs he', hb e he', ha.symm⟩

theorem within_reached (hs : newState permits = some s)
    (h : Lts.Run (Within willWake cfg) (init s, .init s) ls u) :
    Reached cfg u.1 u.2 ∧ Serving u.1 u.2 ∧ BoundOk u.1 u.2 := by
  have hinit : BoundOk (init s : WorldOf W) (.init s) := by
    obtain ⟨hle, rfl⟩ := newState_inv hs
    refine ⟨by simpa [Abs.init] using hle, fun hu => ?_⟩
    simp [World.view, State.view, Semaphore.init, State.init, UpdPc.op] at hu
  refine Lts.Run.prefixed (P := fun _ u => Reached cfg u.1 u.2 ∧ Serving u.1 u.2 ∧ BoundOk u.1 u.2) h
    ⟨Reached.init hs, Serving.init s, hinit⟩ ?_
  rintro - l u₁ u₂ - hl ⟨hr, hsv, hbd⟩
  obtain ⟨e, hm, hb, ha⟩ := hl.moves hr.ok
  rw [ha]
  exact ⟨hr.step hm, hsv.step hr hb.served hm, hbd.step hr hb hm⟩

/-- While a call of `add_permits` has not become one that is not going to panic, its own steps have left
everything as it was. -/
theorem fresh_of_run (hr : Reached cfg u.1 u.2) (hsv : Serving u.1 u.2)
    (hi : (u.1.pc i).Adds .user) (hf : (u.1.pc i).Fresh)
    (h : Lts.Run (fun u l u' => Within willWake cfg u l u' ∧ (u'.1.pc i).Adds .user) u ls u') :
    (Reached cfg u'.1 u'.2 ∧ Serving u'.1 u'.2 ∧ (u'.1.pc i).Adds .user) ∧
      ((u'.1.pc i).Late ∨ (u'.1.pc i).Fresh ∧
        Lts.Run (fun u l u' => (semaphore willWake).Steps cfg u l u' ∧ (l.1 = i → Untouched u u'))
          u ls u') := by
  refine Lts.Run.prefixed (P := fun ls u' => (Reached cfg u'.1 u'.2 ∧ Serving u'.1 u'.2 ∧
      (u'.1.pc i).Adds .user) ∧ ((u'.1.pc i).Late ∨ (u'.1.pc i).Fresh ∧
        Lts.Run (fun u l u' => (semaphore willWake).Steps cfg u l u' ∧ (l.1 = i → Untouched u u')) u ls u'))
    h ⟨⟨hr, hsv, hi⟩, .inr ⟨hf, .nil⟩⟩ ?_
  rintro ks l ⟨w₁, a₁⟩ ⟨w₂, a₂⟩ - ⟨hl, hadds⟩ ⟨⟨hr, hsv, hi⟩, hph⟩
  obtain ⟨e, hm, hb, rfl⟩ := hl.moves hr.ok
  refine ⟨⟨hr.step hm, hsv.step hr hb.served hm, hadds⟩, ?_⟩
  have hidle : ∀ r, w₂.pc i ≠ .idle r := fun r h => by
    rcases hadds with ⟨p, hp⟩ | ⟨again, l, m, hp⟩ <;> simp [h] at hp
  by_cases hj : i = l.1
  · subst hj
    obtain ⟨hfresh, hlate⟩ := hr.phase hsv hb hm hi
    rcases hph with hph | ⟨hph, hrun⟩
    · exact .inl ((hlate hph).resolve_right (hidle _))
    · rcases hfresh hph with h | h | ⟨h, hun⟩
      · exact .inl h
      · exact absurd h (hidle _)
      · exact .inr ⟨h.resolve_right (hidle _), hrun.snoc ⟨hl.1, fun _ => hun⟩⟩
  · dsimp only
    rw [hm.pc_ne hj]
    exact hph.imp_right fun h => ⟨h.1, h.2.snoc ⟨hl.1, fun h => absurd h.symm hj⟩⟩

/-- **The bound of `add_permits`.** In every run of a semaphore whose steps meet the bound, in every state:
`MAX_PERMITS` permits at most are available; a state that `add_permits` has loaded has no more of them; and
every call of `add_permits` that panics, whatever its amount, has left the available permits, the queue
and the waiters as they were with every step of its own. -/
theorem add_permits_atomic (hs : newState permits = some s)
    (h : Lts.Run (Within willWake cfg) (init s, .init s) ls u) :
    availablePermits u.1.q ≤ maxPermits ∧
    (∀ i o again b p s, u.1.pc i = .fetch (.add o again b p) → loaded u.1 i = some s →
      s >>> permitShift ≤ maxPermits) ∧
    ∀ i m ls' l u' u'', u.1.pc i = .add .user (.start false m) →
      Lts.Run (fun u l u' => Within willWake cfg u l u' ∧ (u'.1.pc i).Adds .user) u ls' u' →
      l.1 = i → Within willWake cfg u' l u'' → u''.1.pc i = .idle .panicked →
        Lts.Run (fun u l u' => (semaphore willWake).Steps cfg u l u' ∧ (l.1 = i → Untouched u u')) u
          (ls' ++ [l]) u'' := by
  obtain ⟨hr, hsv, hbd⟩ := within_reached hs h
  refine ⟨?_, fun i o again b p s hp hload => ?_, ?_⟩
  · by_cases ha : u.2.queue = []
    · exact World.Ok.availablePermits_of_nil hr.ok ha ▸ hbd.state
    · exact World.Ok.availablePermits_of_ne_nil hr.ok ha ▸ Nat.zero_le _
  · have hc := hr.control i
    rw [hp] at hc
    obtain ⟨m, s', hv⟩ := hc
    have hatt := congrArg View.upd hv
    rw [loaded, UpdPc.eq_of_trying hatt] at hload
    obtain rfl := Option.some.inj hload
    exact shiftRight_permitShift s' ▸ hbd.loaded hatt
  · rintro i m ls' l ⟨w₁, a₁⟩ ⟨w₂, a₂⟩ hi hrun rfl hl hp
    have hadds : (u.1.pc l.1).Adds .user := .inl ⟨_, hi⟩
    obtain ⟨⟨hr₁, hsv₁, hadds₁⟩, hph⟩ := fresh_of_run hr hsv hadds (by rw [hi]; rfl) hrun
    obtain ⟨e, hm, hb, rfl⟩ := hl.moves hr₁.ok
    obtain ⟨hfresh, hlate⟩ := hr₁.phase hsv₁ hb hm hadds₁
    dsimp only at hp
    rcases hph with hph | ⟨hph, hrun₁⟩
    · simpa [hp, Pc.Late] using hlate hph
    · have hun : Untouched (w₁, a₁) (w₂, a₁.apply e) := by simpa [hp, Pc.Late] using hfresh hph
      exact hrun₁.snoc ⟨hl.1, fun _ => hun⟩

/-- The task `i` calls `add_permits(n)`; `m` of the steps that follow. -/
def addActs (i : TaskId) (n : UInt64) (m : ℕ) : List (TaskId × Bool × Input ℕ) :=
  (i, false, .addPermits n) :: List.replicate m (i, false, .none)

/-- A permit is added to a semaphore that has `MAX_PERMITS` of them. -/
theorem add_permits_atomic_full :
    let C : Client ℕ (Waiter ℕ) (Pc ℕ) (Shared ℕ) (Input ℕ) := semaphore fun _ _ => true
    let l : TaskId × Bool × Input ℕ := (1, false, .none)
    let u := C.followed ⟨.x86, 0⟩ (fun _ => True) (init (2 * maxPermits), .init (2 * maxPermits))
      (addActs 1 1 0)
    let u' := C.followed ⟨.x86, 0⟩ (fun _ => True) u [l]
    let u'' := C.followed ⟨.x86, 0⟩ (fun _ => True) u' [l]
    availablePermits u.1.q ≤ maxPermits ∧ u''.1.pc 1 = .idle .panicked ∧
      Lts.Run (fun u l u' => C.Steps ⟨.x86, 0⟩ u l u' ∧ (l.1 = 1 → Untouched u u')) u ([l] ++ [l]) u'' := by
  intro C l u u' u''
  have h : Within (fun _ _ => true) ⟨.x86, 0⟩ (init (2 * maxPermits), .init (2 * maxPermits))
      (1, false, .addPermits 1) u := ⟨⟨rfl, rfl⟩, fun _ _ => .of_unchecked rfl⟩
  have h₁ : Within (fun _ _ => true) ⟨.x86, 0⟩ u l u' := ⟨⟨rfl, rfl⟩, fun _ _ => .of_unchecked rfl⟩
  have h₂ : Within (fun _ _ => true) ⟨.x86, 0⟩ u' l u'' := ⟨⟨rfl, rfl⟩, fun _ _ => .of_unchecked rfl⟩
  have hs : newState maxPermits = some (2 * maxPermits) := by decide
  obtain ⟨hle, -, hrun⟩ := add_permits_atomic hs (.single h)
  exact ⟨hle, rfl, hrun 1 1 [l] l u' u'' rfl (.single ⟨h₁, .inr ⟨_, _, _, rfl⟩⟩) rfl h₂ rfl⟩

/-- **Permits that are not checked.** A waiter needs one permit. When `2 ^ 62 + 1` are added, the call
panics, and the waiter has lost its waker and is satisfied; when `2 ^ 61 + 1` are added, more than
`MAX_PERMITS` are available after it. -/
theorem add_permits_atomic_not :
    let C : Client ℕ (Waiter ℕ) (Pc ℕ) (Shared ℕ) (Input ℕ) := semaphore fun _ _ => true
    let w := C.after ⟨.x86, 0⟩ (init 0) (acquireActs 0 false 1 13 ++ addActs 1 (2 ^ 62 + 1) 0)
    let w₁ := C.after ⟨.x86, 0⟩ w (List.replicate 10 (1, false, .none))
    let w₂ := C.after ⟨.x86, 0⟩ (init 0) (acquireActs 0 false 1 13 ++ addActs 1 (2 ^ 61 + 1) 15)
    newState 0 = some 0 ∧
      C.Runs ⟨.x86, 0⟩ (init 0) (acquireActs 0 false 1 13 ++ addActs 1 (2 ^ 62 + 1) 0) w ∧
      (w.q.mem.data 0).waker = some 7 ∧ (w.q.mem.data 0).permitsRemaining = 1 ∧
      C.Runs ⟨.x86, 0⟩ w (List.replicate 10 (1, false, .none)) w₁ ∧
      (w₁.pc 1).result = some .panicked ∧ w₁.q.mem.queueState = none ∧
      (w₁.q.mem.data 0).waker = none ∧ (w₁.q.mem.data 0).permitsRemaining = 0 ∧
      C.Runs ⟨.x86, 0⟩ (init 0) (acquireActs 0 false 1 13 ++ addActs 1 (2 ^ 61 + 1) 15) w₂ ∧
      (w₂.pc 1).result = some .ok ∧ maxPermits < availablePermits w₂.q := by
  intro C w w₁ w₂
  have h : (C.perform ⟨.x86, 0⟩ (init 0)
      (acquireActs 0 false 1 13 ++ addActs 1 (2 ^ 62 + 1) 0)).isSome := by decide +kernel
  have h₁ : (C.perform ⟨.x86, 0⟩ w (List.replicate 10 (1, false, .none))).isSome := by decide +kernel
  have h₂ : (C.perform ⟨.x86, 0⟩ (init 0)
      (acquireActs 0 false 1 13 ++ addActs 1 (2 ^ 61 + 1) 15)).isSome := by decide +kernel
  exact ⟨by decide, Client.runs_after h, by decide +kernel, by decide +kernel, Client.runs_after h₁,
    by decide +kernel, by decide +kernel, by decide +kernel, by decide +kernel, Client.runs_after h₂,
    by decide +kernel, by decide +kernel⟩

end Aiq.Semaphore
