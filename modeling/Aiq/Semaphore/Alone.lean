import Aiq.Semaphore.Distribute
import Aiq.Semaphore.Overflow
import Aiq.Task.Alone

/-!
# Calls of `add_permits`, alone and with interference

`add_permits(n)` distributes `n` among the waiters (`add_permits_distributes`): when nothing interferes with
it, it returns, and the outcome is that of the walk over the waiters; in any case the sum of what it has
given and added is `n`.
-/

namespace Aiq.Semaphore

variable {W : Type} {willWake : W → W → Bool} {cfg : Config} {a : Abs ℕ} {w w' : WorldOf W}
  {i j x : TaskId} {e : Event ℕ} {n : Input W} {u u' : WorldOf W × Abs ℕ} {o : AddOwner}
  {g : Outcome W}

/-! ## The next step of a call -/

/-- A call goes on, or returns. -/
theorem Reached.adds_or_idle (hw : Reached cfg w a) (hm : (semaphore willWake).Moves cfg a w i n w' e)
    (ha : (w.pc i).Adds .user) : (w'.pc i).Adds .user ∨ ∃ r, w'.pc i = .idle r := by
  have hadd := hw.addStep hm ha
  have hat : ∀ p : AddPc W, (Pc.add .user p).Adds .user := fun p => .inl ⟨p, rfl⟩
  have hfetch : ∀ again l p, (Pc.fetch (.add .user again l p) : Pc W).Adds .user :=
    fun again l p => .inr ⟨again, l, p, rfl⟩
  have hret : ∀ b, ∃ r, (AddOwner.user.ret b : Pc W) = .idle r := fun b => ⟨_, rfl⟩
  generalize w.pc i = p at hadd
  generalize w'.pc i = p' at hadd
  cases hadd with
  | goes hg =>
    cases hg with
    | overflow again l p s =>
      cases l
      · exact .inr (hret _)
      · exact .inl (hat _)
    | _ => first | exact .inl (hat _) | exact .inl (hfetch _ _ _) | exact .inr (hret _)
  | update again l p s s' =>
    cases l
    · exact .inr (hret _)
    · exact .inl (hat _)
  | _ => exact .inl (hat _)

/-- The node of a task that adds permits for a user is not there. -/
theorem Reached.own_of_adds (hw : Reached cfg w a) (ha : (w.pc i).Adds .user ∨ ∃ r, w.pc i = .idle r) :
    w.q.own i = .dead := by
  have hf := hw.control i
  have hown : (w.q.own i).op = .dead := by
    rcases ha with (⟨p, hp⟩ | ⟨again, l, m, hp⟩) | ⟨r, hp⟩
    · rw [hp] at hf
      exact hf.1
    · rw [hp] at hf
      obtain ⟨m, s, hv⟩ := hf
      exact congrArg View.own hv
    · rw [hp] at hf
      exact congrArg View.own hf
  exact OwnPc.op_eq_dead.1 hown

/-- A call that nothing interferes with stays alone. -/
theorem Reached.quiet (hw : Reached cfg w a) (hq : w.Quiet i)
    (hm : (semaphore willWake).Moves cfg a w i n w' e) (ha : (w.pc i).Adds .user) : w'.Quiet i := by
  refine hm.quiet hq ?_
  rw [State.pend, (hw.step hm).own_of_adds (hw.adds_or_idle hm ha)]
  rfl

/-- A step of the program of a task that adds permits. -/
theorem add_step {p : AddPc W} {r : InstrOf W} (hp : w.pc i = .add o p) (hrest : (w.view i).Rests)
    (hr : addNext w i o p = some r)
    (hk : ∀ k, r.call = some k → (k.onLock = true → w.lockedBy = some i) ∧
      (step cfg w.q (k.act i)).isSome) : ∃ w', (semaphore willWake).step cfg w i false n = some w' :=
  hrest.step false (by simpa [semaphore, next, hp] using hr) hk

/-- A call of `fetch_update_state` can be made by a task that has none under way. -/
theorem fetch_isSome {c : FetchCont W} {s : Shared W} {k : Call ℕ (Waiter W)} (hu : w.q.upd i = .idle)
    (hk : (fetch i s c).call = some k) :
    (k.onLock = true → w.lockedBy = some i) ∧ (step cfg w.q (k.act i)).isSome := by
  obtain rfl := Option.some.inj hk
  simp [Call.onLock, Call.act, step, threadCall, hu]

/-- A call on what a task that adds permits has in hand. -/
theorem add_call {p : AddPc W} {r : InstrOf W} {k : HolderCall ℕ (Waiter W)} {m : HolderPc ℕ}
    (hp : w.pc i = .add o p) (hrest : (w.view i).Rests) (hl : w.lockedBy = some i)
    (hm : w.q.mutex = some m) (hr : addNext w i o p = some r) (hk : r.call = some (.holder k))
    (hc : (holderCall w.q m k).isSome) : ∃ w', (semaphore willWake).step cfg w i false n = some w' :=
  hrest.holderCall false hl hm (by simpa [semaphore, next, hp] using hr) hk hc

/-- A task that adds permits, with a `LockedQueue` or a `Dequeue`, or with neither. -/
structure Ready (w : WorldOf W) (i : TaskId) : Prop where
  free : (w.view i).op = none → (w.view i).Rests
  guard : (w.view i).op = some .guard →
    (w.view i).Rests ∧ w.lockedBy = some i ∧ w.q.mutex = some .guard
  handle : ∀ {x}, (w.view i).op = some (.handle x) →
    (w.view i).Rests ∧ w.lockedBy = some i ∧ w.q.mutex = some (.dequeue x)

theorem Reached.ready {p : AddPc W} (hw : Reached cfg w a) (hp : w.pc i = .add .user p) : Ready w i := by
  have hf := hw.control i
  rw [hp] at hf
  obtain ⟨hown, hupd, -⟩ := hf
  have hrest : (∀ o, (w.view i).op = some o → o.runs = false) → (w.view i).Rests := fun h =>
    ⟨by rw [hown]; rfl, by rw [hupd]; rfl, fun h' => h _ h'⟩
  refine ⟨fun h => hrest (by simp [h]), fun h => ⟨hrest ?_, (World.op_of_view h).1, ?_⟩,
    fun h => ⟨hrest ?_, (World.op_of_view h).1, hw.mutex_handle h⟩⟩
  · rw [h]
    rintro _ ⟨⟩
    rfl
  · exact State.mutex_of_op_guard (World.op_of_view h).2
  · rw [h]
    rintro _ ⟨⟩
    rfl

/-- The operation under the lock of a task that adds permits. -/
theorem Reached.advancing {p : AddPc W} (hw : Reached cfg w a) (hp : w.pc i = .add .user p)
    (ho : (w.view i).op = some .dequeuing ∨ ∃ x s k, (w.view i).op = some (.removing x s k)) :
    w.Advancing i := by
  have hf := hw.control i
  rw [hp] at hf
  obtain ⟨hown, hupd, -⟩ := hf
  have hx : (w.view i).own.runs = false := by rw [hown]; rfl
  have hu : (w.view i).upd.runs = false := by rw [hupd]; rfl
  rcases ho with ho | ⟨x, s, k, ho⟩
  · exact .of_view hx hu ho (.inl rfl)
  · exact .of_view hx hu ho (.inr ⟨x, s, k, rfl⟩)

/-- A call of `add_permits` that is alone can make a step. -/
theorem Reached.exists_step_add {p : AddPc W} (hw : Reached cfg w a) (hs : Serving w a) (hq : w.Quiet i)
    (hp : w.pc i = .add .user p) (n : Input W) :
    ∃ w', (semaphore willWake).step cfg w i false n = some w' := by
  have hf := hw.control i
  rw [hp] at hf
  obtain ⟨-, hupd, hfit⟩ := hf
  have hidle : w.q.upd i = .idle := UpdPc.op_eq_idle.1 hupd
  have hready := hw.ready hp
  cases p <;> simp only [AddPc.Fits] at hfit
  case start again m =>
    by_cases hz : m = 0 ∧ again = false
    · exact add_step hp (hready.free hfit) (by rw [addNext, if_pos hz]) (by simp)
    · exact add_step hp (hready.free hfit) (by rw [addNext, if_neg hz]) fun k => fetch_isSome hidle
  case lock again m =>
    refine add_step hp (hready.free hfit) rfl ?_
    rintro k ⟨⟩
    simp [Call.onLock, Call.act, Aiq.step, hq.unlocked hw.ok hfit]
  case second again m => exact add_step hp (hready.guard hfit).1 rfl fun k => fetch_isSome hidle
  case locked m => exact add_step hp (hready.guard hfit).1 rfl (by simp)
  case take m ws =>
    obtain ⟨hr, hl, hm⟩ := hready.guard hfit
    exact add_call hp hr hl hm rfl rfl (by simp only [holderCall, guardCall]; split <;> rfl)
  case dequeued m ws =>
    rcases hfit with ho | ho | ⟨x, ho⟩
    · exact (hw.advancing hp (.inl ho)).step hq hw.ok false n
    · obtain ⟨hr, hl, hm⟩ := hready.guard ho
      exact add_step hp hr (by simp only [addNext, hm]; rfl) (by simp)
    · obtain ⟨hr, hl, hm⟩ := hready.handle ho
      by_cases hlt : m < (w.q.mem.data x).permitsRemaining
      · exact add_call hp hr hl hm (by simp only [addNext, hm, if_pos hlt]; rfl) rfl rfl
      · exact add_call hp hr hl hm (by simp only [addNext, hm, if_neg hlt]; rfl) rfl rfl
  case requeue ws =>
    obtain ⟨x, ho⟩ := hfit
    obtain ⟨hr, hl, hm⟩ := hready.handle ho
    exact add_call hp hr hl hm rfl rfl rfl
  case served m ws =>
    obtain ⟨x, ho⟩ := hfit
    obtain ⟨hr, hl, hm⟩ := hready.handle ho
    by_cases hle : shift m ≤ maxState
    · exact add_call hp hr hl hm (by simp only [addNext, if_pos hle]; rfl) rfl rfl
    · exact add_step hp hr (by simp only [addNext, if_neg hle]; rfl) (by simp)
  case set m ws =>
    obtain ⟨x, ho⟩ := hfit
    exact (hw.advancing hp (.inr ⟨x, _, _, ho⟩)).step hq hw.ok false n
  case full m ws =>
    obtain ⟨hr, hl, hm⟩ := hready.guard hfit
    exact add_call hp hr hl hm rfl rfl rfl
  case batch m ws => cases ws <;> exact add_step hp (hready.free hfit) rfl (by simp)
  case done ws =>
    obtain ⟨hr, hl, hm⟩ := hready.guard hfit
    exact add_call hp hr hl hm rfl rfl rfl
  case final ws => cases ws <;> exact add_step hp (hready.free hfit) rfl (by simp)
  case unlock b =>
    have hm := hs.unlock hp
    rcases hfit with ho | ⟨x, ho⟩
    · obtain ⟨hr, hl, -⟩ := hready.guard ho
      exact add_call hp hr hl hm rfl rfl rfl
    · exact (hw.advancing hp (.inr ⟨x, _, _, ho⟩)).step hq hw.ok false n
  case failed f => exact absurd hp (hs.failed i _ f)

/-- See `Reached.exists_step_add`; a `fetch_update_state` returns. -/
theorem Reached.exists_step (hw : Reached cfg w a) (hs : Serving w a) (hq : w.Quiet i)
    (ha : (w.pc i).Adds .user) (hroom : (w.pc i).Room w a i) (n : Input W) :
    ∃ w', (semaphore willWake).step cfg w i false n = some w' ∧
      ∀ c, w.pc i = .fetch c → loaded w' i = none := by
  rcases ha with ⟨p, hp⟩ | ⟨again, l, m, hp⟩
  · obtain ⟨w', h⟩ := hw.exists_step_add hs hq hp n
    exact ⟨w', h, fun c hc => by simp [hp] at hc⟩
  · have hown := hw.own_of_adds (.inl (.inr ⟨again, l, m, hp⟩))
    have hf := hw.control i
    rw [hp] at hf hroom
    obtain ⟨m', s, hv⟩ := hf
    obtain ⟨-, hnil, hload⟩ := hroom
    have hatt := UpdPc.eq_of_trying (congrArg View.upd hv)
    obtain rfl : s = a.state := by simpa [loaded, hatt] using hload
    have htail : w.q.mem.tail = .state a.state := by
      rw [hw.ok.inv.tail, Abs.tail, hnil]
      rfl
    obtain ⟨w', h, hu⟩ := World.attempt_step (by rw [hown]; rfl) hatt htail n
    exact ⟨w', h, fun c hc => by simp [loaded, hu]⟩

/-! ## A call comes to an end -/

/-- A bound of the steps that a call has to make with the waiter in hand, and after it. -/
def AddPc.left (q : State ℕ (Waiter W)) : AddPc W → ℕ
  | .start _ _ => 42
  | .lock _ _ => 40
  | .second _ _ => 38
  | .locked _ => 36
  | .take _ ws => 34 + ws.length
  | .dequeued _ ws => 23 + q.rank + ws.length
  | .requeue ws => 8 + ws.length
  | .served _ ws => 21 + ws.length
  | .set _ ws => (if q.result = none then 10 else 48) + q.rank + ws.length
  | .full _ ws => 46 + ws.length
  | .batch _ ws => 44 + ws.length
  | .done ws => 7 + ws.length
  | .final ws => 6 + ws.length
  | .unlock _ => 3
  | .failed _ => 0

/-- See `AddPc.left`. -/
def Pc.left (q : State ℕ (Waiter W)) : Pc W → ℕ
  | .fetch _ => 4
  | .add _ p => p.left q
  | _ => 0

/-- A bound of the steps that the call of the task `i` has to make. -/
def left (i : TaskId) (u : WorldOf W × Abs ℕ) : ℕ := 50 * u.2.queue.length + (u.1.pc i).left u.1.q

/-- The call of `dequeue` is under way while the control state stays. -/
theorem Reached.dequeuing {p p' : ℕ} {ws ws' : List W} (hw : Reached cfg w a)
    (hm : (semaphore willWake).Moves cfg a w i n w' e) (hp : w.pc i = .add o (.dequeued p ws))
    (hp' : w'.pc i = .add o (.dequeued p' ws')) : (w.view i).op = some .dequeuing := by
  have hf := hw.control i
  rw [hp] at hf
  obtain ⟨hown, hupd, hfit⟩ := hf
  have hnext : ∀ r : InstrOf W, (semaphore willWake).next w i n = some r →
      ∀ e q, r.pc e q ≠ .add o (.dequeued p' ws') := fun r hr e q => by
    simp only [semaphore, next, hp, addNext] at hr
    split at hr
    · obtain rfl := Option.some.inj hr
      simp
    · split at hr <;> obtain rfl := Option.some.inj hr
      · simp
      · dsimp only
        split <;> [skip; split] <;> simp
    · simp at hr
  cases hm.mover with
  | op hs hd hv hpc hg =>
    obtain ⟨op, op', hop, hos, -⟩ := hv.holder_inv (by rw [hown]; exact o.own_runs) (by rw [hupd]; rfl)
    have hrun := hos.runs
    rw [hop] at hfit ⊢
    rcases hfit with hfit | hfit | ⟨x, hfit⟩ <;> obtain rfl := Option.some.inj hfit
    · rfl
    · cases hrun
    · cases hrun
  | call hr hk hrest hs hv hpc hg => exact absurd (hpc.symm.trans hp') (hnext _ hr _ _)
  | own hr hk hrest hq hv hpc hg => exact absurd (hpc.symm.trans hp') (hnext _ hr _ _)

/-- A step of a call that is alone takes it nearer to its end. -/
theorem Reached.left_lt (hw : Reached cfg w a) (hs : Serving w a) (hq : w.Quiet i)
    (hm : (semaphore willWake).Moves cfg a w i n w' e) (ha : (w.pc i).Adds .user)
    (hroom : (w.pc i).Room w a i) (hload : ∀ c, w.pc i = .fetch c → loaded w' i = none) :
    (∃ r, w'.pc i = .idle r) ∨ left i (w', a.apply e) < left i (w, a) := by
  have hadd := hw.addStep hm ha
  have hrank : w'.q.rank ≤ 9 := w'.q.rank_le
  have hret : ∀ b, ∃ r, (AddOwner.user.ret b : Pc W) = .idle r := fun b => ⟨_, rfl⟩
  have hadv : ∀ {p}, w.pc i = .add .user p → ((w.view i).op = some .dequeuing ∨
      ∃ x s k, (w.view i).op = some (.removing x s k)) → w'.q.rank < w.q.rank := fun hp ho =>
    (hw.advancing hp ho).rank_lt hq hm
  have hset : ∀ {p ws}, w.pc i = .add .user (.set p ws) → w'.q.rank < w.q.rank := fun hp => by
    have hf := hw.control i
    rw [hp] at hf
    obtain ⟨-, -, x, ho⟩ := hf
    exact hadv hp (.inr ⟨x, _, _, ho⟩)
  unfold left
  generalize hi : w.pc i = p at hadd hroom
  generalize hi' : w'.pc i = p' at hadd
  cases hadd with
  | goes hg he hd hsh =>
    rw [he]
    cases hg with
    | nothing => exact .inl (hret _)
    | final => exact .inl (hret _)
    | unlock b => exact .inl (hret _)
    | retry again l p hnil hl =>
      have := hload _ hi
      simp [this] at hl
    | overflow again l p s hload hc =>
      have hn : NoOverflow w i := Pc.Room.noOverflow (hi ▸ hroom)
      simpa [hc] using hn.check hi hload
    | blocked again p hne => exact absurd hroom.2.1 hne
    | queued again p hne => exact absurd hroom.2.1 hne
    | dequeue p ws hne =>
      have := hadv hi (.inl (hw.dequeuing hm hi hi'))
      simp only [Pc.left, AddPc.left]
      omega
    | unwind b hne => exact absurd (hs.unlock hi) hne
    | failed f => exact absurd hi (hs.failed i _ f)
    | served p ws hle hr =>
      simp only [Pc.left, AddPc.left, hr]
      simp only [if_true]
      omega
    | set p ws hr =>
      have := hset hi
      simp only [Pc.left, AddPc.left, hr]
      omega
    | removed p ws b hr =>
      simp only [Pc.left, AddPc.left, hr]
      split <;> [skip; split] <;> simp only [reduceCtorEq, if_false] <;> omega
    | queuedAtOnce again p hne => cases again <;> simp [Pc.left, AddPc.left, AddPc.atQueue]
    | _ => simp only [Pc.left, AddPc.left, List.length_nil]; omega
  | update again l p s s' hc hmx hd hsh =>
    cases l
    · exact .inl (hret _)
    · simp [Pc.left, AddPc.left, Abs.apply]
  | remove p ws x l hq' hr hr' hd hsh =>
    simp only [Pc.left, AddPc.left, hr, hr', Abs.apply, hq']
    simp
    omega
  | drop b x l hq' hmx => exact absurd (hs.unlock hi) hmx
  | _ =>
    simp only [Pc.left, AddPc.left, Abs.apply, List.length_append, List.length_cons, List.length_nil]
    omega

/-! ## Runs of a call -/

/-- What holds in a call that nothing interferes with, which is going to have the outcome `g`. -/
structure Alone (cfg : Config) (i : TaskId) (g : Outcome W) (u : WorldOf W × Abs ℕ) : Prop where
  reached : Reached cfg u.1 u.2
  serving : Serving u.1 u.2
  not_panicked : ¬ (u.1.pc i).Panicked
  room : (u.1.pc i).Room u.1 u.2 i
  outcome : (u.1.pc i).outcome u.1.q (outcome u) = g

/-- A step of the task `i`, which is in a call of `add_permits`. -/
def InCall (willWake : W → W → Bool) (cfg : Config) (i : TaskId) (u : WorldOf W × Abs ℕ)
    (l : TaskId × Bool × Input W) (u' : WorldOf W × Abs ℕ) : Prop :=
  (semaphore willWake).Steps cfg u l u' ∧ l.1 = i ∧ (u.1.pc i).Adds .user

variable {l : TaskId × Bool × Input W} {ls : List (TaskId × Bool × Input W)}

theorem Alone.step (h : Alone cfg i g u) (hs : InCall willWake cfg i u l u') :
    Alone cfg i g u' ∧ ∀ r, u'.1.pc i = .idle r → r = .ok := by
  obtain ⟨w, a⟩ := u
  obtain ⟨w', a'⟩ := u'
  obtain ⟨hl, rfl, ha⟩ := hs
  obtain ⟨e, hm, rfl⟩ := hl.moves h.reached.ok
  have hn : NoOverflow w l.1 := h.room.noOverflow
  obtain ⟨hnp, hok⟩ := h.reached.not_panicked h.serving hn hm ha h.not_panicked
  exact ⟨⟨h.reached.step hm, h.serving.step h.reached hn.accepted hm, hnp,
    h.reached.room h.serving hm ha h.room,
    (h.reached.outcome_step h.serving hm ha h.room).trans h.outcome⟩, hok⟩

/-- The first step of a call of `add_permits`. -/
theorem addPermits_start {r : Result} {n : UInt64} (hw : Reached cfg w a) (hi : w.pc i = .idle r)
    (hm : (semaphore willWake).Moves cfg a w i (.addPermits n) w' e) :
    w'.q = w.q ∧ w'.shared.woken = w.shared.woken ∧ w'.pc i = .add .user (.start false n.toNat) ∧
      e = .tau := by
  have hf := hw.control i
  rw [hi] at hf
  have hv : w.view i = ⟨.dead, .idle, none⟩ := hf
  cases hm.mover with
  | op hs hd hv' hp hg =>
    rw [hv] at hv'
    cases hv'
  | call hr hk hrest hs hv' hp hg =>
    simp only [semaphore, next, hi, start, Option.some.injEq] at hr
    subst hr
    simp at hk
  | own hr hk hrest hq hv' hp hg =>
    simp only [semaphore, next, hi, start, Option.some.injEq] at hr
    subst hr
    exact ⟨hq, by rw [hg], hp, rfl⟩

/-- The start of a call that nothing interferes with. -/
theorem Alone.start {r : Result} {n : UInt64} {b : Bool} (hr : Reached cfg u.1 u.2)
    (hsv : Serving u.1 u.2) (hi : u.1.pc i = .idle r) (hroom : Room u.1 u.2 n.toNat)
    (hs : (semaphore willWake).Steps cfg u (i, b, .addPermits n) u') :
    Alone cfg i (distribute n.toNat u.2.queue (Semaphore.outcome u)) u' ∧ (u'.1.pc i).Adds .user := by
  obtain ⟨w, a⟩ := u
  obtain ⟨w', a'⟩ := u'
  obtain ⟨e, hm, rfl⟩ := hs.moves hr.ok
  obtain ⟨hq, hwk, hp, rfl⟩ := addPermits_start hr hi hm
  dsimp only at hi hq hwk hp
  have hacc : Accepted w i := fun o p ws h => by simp [hi] at h
  have ho : Semaphore.outcome (w', a.apply .tau) = Semaphore.outcome (w, a) := by
    simp [Semaphore.outcome, hq, hwk, Abs.apply]
  refine ⟨⟨hr.step hm, hsv.step hr hacc hm, ?_, ?_, ?_⟩, .inl ⟨_, hp⟩⟩
  · simp [hp, Pc.Panicked]
  · rw [hp]
    exact hroom.congr (by rw [hq])
  · rw [hp, ho]
    rfl

/-- A call that nothing interferes with has the outcome that it is going to have, and does not panic. -/
theorem alone_of_run (h : Alone cfg i g u) (ha : (u.1.pc i).Adds .user)
    (hrun : Lts.Run (InCall willWake cfg i) u ls u') :
    Alone cfg i g u' ∧ ∀ r, u'.1.pc i = .idle r → r = .ok := by
  refine Lts.Run.prefixed (P := fun _ u => Alone cfg i g u ∧ ∀ r, u.1.pc i = .idle r → r = .ok) hrun
    ⟨h, fun r hr => absurd hr (ha.ne_idle r)⟩ ?_
  rintro - l u₁ u₂ - hl ⟨hp, -⟩
  exact hp.step hl

theorem Alone.outcome_of_idle {r : Result} (h : Alone cfg i g u) (hi : u.1.pc i = .idle r) :
    Semaphore.outcome u = g := by
  have := h.outcome
  rwa [hi] at this

/-- A call that nothing interferes with returns. -/
theorem Alone.returns (h : Alone cfg i g u) (ha : (u.1.pc i).Adds .user) (hq : u.1.Quiet i) :
    ∃ ls u', Lts.Run (InCall willWake cfg i) u ls u' ∧ ∃ r, u'.1.pc i = .idle r := by
  refine Lts.Run.exists_of_measure (I := fun u => Alone cfg i g u ∧ (u.1.pc i).Adds .user ∧ u.1.Quiet i)
    (left i) ⟨h, ha, hq⟩ ?_
  rintro ⟨w, a⟩ ⟨h, ha, hq⟩
  obtain ⟨w', hs, hload⟩ : ∃ w', (semaphore willWake).step cfg w i false .none = some w' ∧
      ∀ c, w.pc i = .fetch c → loaded w' i = none := h.reached.exists_step h.serving hq ha h.room .none
  obtain ⟨e, he, hm⟩ := Client.moves_event h.reached.ok hs
  have hstep : InCall willWake cfg i (w, a) (i, false, .none) (w', a.apply e) :=
    ⟨⟨hs, by rw [he]; rfl⟩, rfl, ha⟩
  refine ⟨_, _, hstep, ?_⟩
  rcases h.reached.adds_or_idle hm ha with ha' | hidle
  · refine (h.reached.left_lt h.serving hq hm ha h.room hload).imp_right fun hlt => ?_
    exact ⟨⟨(h.step hstep).1, ha', h.reached.quiet hq hm ha⟩, hlt⟩
  · exact .inl hidle

/-! ## `add_permits` -/

variable {permits s : ℕ}

/-- **`add_permits` distributes its amount.** In every run of a semaphore in which no amount overflows: no
assertion, `unwrap` or `push` of `add_permits_locked` fails; in a call of `add_permits(m)`, whatever the
other tasks do, what it gives to waiters and what it adds to the available permits sums to `m` when it
returns; and a call of `add_permits(n)` that nothing interferes with returns, and has the outcome of the
walk over the waiters. -/
theorem add_permits_distributes (hs : newState permits = some s)
    (h : Lts.Run (Smooth willWake cfg) (init s, .init s) ls u) :
    (∀ i o f, u.1.pc i ≠ .add o (.failed f)) ∧
    (∀ i m ls' c r, u.1.pc i = .add .user (.start false m) →
      Lts.Run (SumsInCall willWake cfg i) (u, 0) ls' c → c.1.1.pc i = .idle r → r = .ok ∧ c.2 = m) ∧
    ∀ i r (n : UInt64), u.1.pc i = .idle r → Room u.1 u.2 n.toNat →
      (u.1.q.mutex = none → (∀ x, u.1.q.pend x = none) →
        ∃ u₁ ls' u' r', (semaphore willWake).Steps cfg u (i, false, .addPermits n) u₁ ∧
          Lts.Run (InCall willWake cfg i) u₁ ls' u' ∧ u'.1.pc i = .idle r') ∧
      ∀ b u₁ ls' u' r', (semaphore willWake).Steps cfg u (i, b, .addPermits n) u₁ →
        Lts.Run (InCall willWake cfg i) u₁ ls' u' → u'.1.pc i = .idle r' →
          r' = .ok ∧ outcome u' = distribute n.toNat u.2.queue (outcome u) := by
  obtain ⟨hr, hsv⟩ := smooth_reached hs h
  refine ⟨hsv.failed, ?_, fun i r n hi hroom => ⟨fun hmx hpend => ?_, ?_⟩⟩
  · intro i m ls' c r hi hrun hret
    have hpay : Paying cfg i m u 0 := ⟨hr, hsv, by simp [hi, Pc.Panicked], by simp [hi, Pc.inHand]⟩
    obtain ⟨hp, hok⟩ := paying_of_run hpay (.inl ⟨_, hi⟩) hrun
    have hsum := hp.sum
    rw [hret] at hsum
    exact ⟨hok r hret, hsum⟩
  · obtain ⟨w, a⟩ := u
    dsimp only at hi hmx hpend hr
    have hf := hr.control i
    rw [hi] at hf
    have hv : w.view i = ⟨.dead, .idle, none⟩ := hf
    have hrest : (w.view i).Rests := by
      rw [hv]
      exact ⟨rfl, rfl, by simp⟩
    have hl : w.lockedBy = none := by simpa [hmx] using hr.ok.lock.isSome.symm
    obtain ⟨w₁, hstep⟩ : ∃ w₁, (semaphore willWake).step cfg w i false (.addPermits n) = some w₁ :=
      hrest.step false (by simp only [semaphore, next, hi, start]; rfl) (by simp)
    obtain ⟨e, he, hm⟩ := Client.moves_event hr.ok hstep
    have hl₁ : (semaphore willWake).Steps cfg (w, a) (i, false, .addPermits n) (w₁, a.apply e) :=
      ⟨hstep, by rw [he]; rfl⟩
    obtain ⟨ha, hadds⟩ := Alone.start hr hsv hi hroom hl₁
    obtain ⟨hq, -, -, -⟩ := addPermits_start hr hi hm
    have hown := (hr.step hm).own_of_adds (.inl hadds)
    have hquiet : w.Quiet i := ⟨.inl hl, hpend, by simp [hmx]⟩
    obtain ⟨ls', u', hrun, r', hr'⟩ := ha.returns hadds (hm.quiet hquiet (by rw [State.pend, hown]; rfl))
    exact ⟨_, ls', u', r', hl₁, hrun, hr'⟩
  · intro b u₁ ls' u' r' hl hrun hret
    obtain ⟨ha, hadds⟩ := Alone.start hr hsv hi hroom hl
    obtain ⟨ha', hok⟩ := alone_of_run ha hadds hrun
    exact ⟨hok r' hret, ha'.outcome_of_idle hret⟩

/-- For whom the task adds permits, if it does. -/
def Pc.adder : Pc W → Option AddOwner
  | .fetch (.add o _ _ _) | .add o _ => some o
  | _ => none

theorem Pc.adds_of_adder {p : Pc W} (h : p.adder = some o) : p.Adds o := by
  cases p with
  | fetch c => cases c <;> simp_all [Pc.adder, Pc.Adds]
  | add o' p => exact .inl ⟨p, by rw [Option.some.inj h]⟩
  | _ => simp [Pc.adder] at h

theorem Pc.idle_of_result {p : Pc W} {r : Result} (h : p.result = some r) : p = .idle r := by
  cases p <;> simp_all [Pc.result]

theorem NoOverflow.of_adder (h : (w.pc i).adder = none) : NoOverflow w i where
  shift := fun hp => by rcases hp with hp | hp <;> simp [hp, Pc.adder] at h
  check := fun hp => by simp [hp, Pc.adder] at h

/-- Given steps of a task that does not add permits. -/
theorem smooth_followed (h : ((semaphore willWake).follow cfg (fun u => (u.1.pc i).adder = none) u ls).isSome)
    (h₀ : (u.1.pc i).adder = none) (hl : ∀ l ∈ ls, l.1 = i) :
    Lts.Run (Smooth willWake cfg) u ls
      ((semaphore willWake).followed cfg (fun u => (u.1.pc i).adder = none) u ls) := by
  refine Lts.Run.prefixed (P := fun ls u' => Lts.Run (Smooth willWake cfg) u ls u')
    (Client.run_followed_sources h h₀).1 .nil ?_
  rintro ks l c c' hmem ⟨hstep, hp⟩ hr
  exact hr.snoc ⟨hstep, .of_adder (hl l hmem ▸ hp)⟩

/-- Given steps of a task in a call of `add_permits`, and one more. -/
theorem inCall_followed {l : TaskId × Bool × Input W}
    (h : ((semaphore willWake).follow cfg (fun u => (u.1.pc i).adder = some .user) u ls).isSome)
    (h₀ : (u.1.pc i).adder = some .user) (hl : ∀ l ∈ ls, l.1 = i) (hl' : l.1 = i)
    (hs : (semaphore willWake).Steps cfg
      ((semaphore willWake).followed cfg (fun u => (u.1.pc i).adder = some .user) u ls) l u') :
    Lts.Run (InCall willWake cfg i) u (ls ++ [l]) u' := by
  obtain ⟨hrun, hp⟩ := Client.run_followed_sources h h₀
  refine Lts.Run.snoc ?_ ⟨hs, hl', Pc.adds_of_adder hp⟩
  refine Lts.Run.prefixed (P := fun ls u' => Lts.Run (InCall willWake cfg i) u ls u') hrun .nil ?_
  rintro ks l c c' hmem ⟨hstep, hp⟩ hr
  exact hr.snoc ⟨hstep, hl l hmem, Pc.adds_of_adder hp⟩

/-- Three permits are added, when the task 0 waits for one. -/
theorem add_permits_distributes_three :
    let C : Client ℕ (Waiter ℕ) (Pc ℕ) (Shared ℕ) (Input ℕ) := semaphore fun _ _ => true
    let u := C.followed ⟨.x86, 0⟩ (fun u => (u.1.pc 0).adder = none) (init 0, .init 0)
      (acquireActs 0 false 1 13)
    let u₁ := C.followed ⟨.x86, 0⟩ (fun _ => True) u (addActs 1 3 0)
    let u₂ := C.followed ⟨.x86, 0⟩ (fun u => (u.1.pc 1).adder = some .user) u₁
      (List.replicate 14 (1, false, .none))
    let u' := C.followed ⟨.x86, 0⟩ (fun _ => True) u₂ [(1, false, .none)]
    u.2.queue = [0] ∧ outcome u' = distribute 3 [0] (outcome u) ∧ u'.1.shared.woken = [7] ∧
      availablePermits u'.1.q = 2 := by
  intro C u u₁ u₂ u'
  have h : (C.follow ⟨.x86, 0⟩ (fun u => (u.1.pc 0).adder = none) (init 0, .init 0)
      (acquireActs 0 false 1 13)).isSome := by decide +kernel
  have h₁ : (C.follow ⟨.x86, 0⟩ (fun _ => True) u (addActs 1 3 0)).isSome := by decide +kernel
  have h₂ : (C.follow ⟨.x86, 0⟩ (fun u => (u.1.pc 1).adder = some .user) u₁
      (List.replicate 14 (1, false, .none))).isSome := by decide +kernel
  have h₃ : (C.follow ⟨.x86, 0⟩ (fun _ => True) u₂ [(1, false, .none)]).isSome := by decide +kernel
  have hs : newState 0 = some 0 := by decide
  have hstart : (u₁.1.pc 1).adder = some .user := by decide +kernel
  have hrun : Lts.Run (Smooth (fun _ _ => true) ⟨.x86, 0⟩) (init 0, .init 0) (acquireActs 0 false 1 13) u :=
    smooth_followed h rfl (by simp [acquireActs])
  have hcall : Lts.Run (InCall (fun _ _ => true) ⟨.x86, 0⟩ 1) u₁
      (List.replicate 14 (1, false, .none) ++ [(1, false, .none)]) u' :=
    inCall_followed h₂ hstart (by simp) rfl (Client.run_followed h₃).single_inv.1
  have hfirst : C.Steps ⟨.x86, 0⟩ u (1, false, .addPermits 3) u₁ := (Client.run_followed h₁).single_inv.1
  have hq : u.2.queue = [0] := by decide +kernel
  have hi : (u.1.pc 1).result = some .none := by decide +kernel
  have hret : (u'.1.pc 1).result = some .ok := by decide +kernel
  have hwoken : u'.1.shared.woken = [7] := by decide +kernel
  have havail : availablePermits u'.1.q = 2 := by decide +kernel
  clear_value u' u₂ u₁ u
  have hn : (3 : UInt64).toNat = 3 := rfl
  have hroom : Room u.1 u.2 (3 : UInt64).toNat := .of_ne_nil (by decide) (by simp [hq]) (by decide)
  obtain ⟨-, -, hadd⟩ := add_permits_distributes hs hrun
  obtain ⟨-, hout⟩ := hadd 1 .none 3 (Pc.idle_of_result hi) hroom
  obtain ⟨-, ho⟩ := hout false u₁ _ u' .ok hfirst hcall (Pc.idle_of_result hret)
  rw [hq, hn] at ho
  exact ⟨hq, ho, hwoken, havail⟩

end Aiq.Semaphore
