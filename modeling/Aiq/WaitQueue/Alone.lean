import Aiq.Task.Alone
import Aiq.WaitQueue.Batches

/-!
# Calls of `notify_many`, alone and with interference

A `notify_many(c)` that nothing interferes with takes waiters from the head of the queue until it has taken
`c` of them or has found the queue empty (`Exact`), and it returns (`Alone.returns`). With this, what is known
of the notifying calls is put together in `batched_notification`.
-/

namespace Aiq.WaitQueue

variable {W : Type} {willWake : W → W → Bool} {cfg : Config} {a : Abs ℕ} {w w' : WorldOf W}
  {i j : TaskId} {e : Event ℕ} {n : Input W} {r : InstrOf W} {q : State ℕ (Waiter W)} {x : NodeId}
  {wk : W} {p : CallPc W} {L : Log W} {c : ℕ} {l : List NodeId}

/-! ## The first waiters -/

/-- The operations that a `notify_many` makes. -/
theorem Pc.Fits.of_count {p : Pc W} {v : View ℕ} (hf : p.Fits i v) (hc : p.count = some c) :
    v.own = .dead ∧ (Asks i none v ∨ v.upd = .idle) ∧ ∀ d s, v.op ≠ some (.newDrain d s) := by
  have hasks : Asks i none v → v.own = .dead ∧ (Asks i none v ∨ v.upd = .idle) ∧
      ∀ d s, v.op ≠ some (.newDrain d s) := fun h => by
    refine ⟨?_, .inl h, ?_⟩ <;> rcases h with rfl | rfl | rfl <;> simp
  have hidle : ∀ {o}, v = ⟨.dead, .idle, o⟩ → (∀ d s, o ≠ some (.newDrain d s)) → v.own = .dead ∧
      (Asks i none v ∨ v.upd = .idle) ∧ ∀ d s, v.op ≠ some (.newDrain d s) := by
    rintro o rfl ho
    exact ⟨rfl, .inr rfl, ho⟩
  unfold Pc.count at hc
  split at hc <;> try simp at hc
  · exact hasks hf
  · exact hidle hf (by simp)
  · rcases hf with hf | hf | ⟨x, hf⟩ <;> exact hidle hf (by simp)
  · obtain ⟨x, hf⟩ := hf
    exact hidle hf (by simp)
  · obtain ⟨x, hf⟩ := hf
    exact hidle hf (by simp)
  · rcases hf with ⟨x, hf⟩ | hf <;> exact hidle hf (by simp)
  · exact hidle hf (by simp)
  · exact hasks hf
  · rename_i b
    cases b <;> exact hidle hf (by simp)

/-- A call has found the queue empty, or finds it empty. -/
theorem FoundEmpty.step_inv (h : FoundEmpty w' i) (hw : Reached cfg w a)
    (hm : (waitQueue willWake).Moves cfg a w i n w' e) (hc : (w.pc i).count = some c)
    (hf : w'.pc i ≠ .fault) : FoundEmpty w i ∨ a.queue = [] := by
  have hfit := hw.control i
  obtain ⟨hown, hupd, -⟩ := hfit.of_count hc
  obtain ⟨p, hp⟩ := inCall_iff.1 (Pc.inCall_of_count hc)
  have hguard : w'.lockedBy = some i → w'.q.mutex = some .guard → (w'.view i).op = some .guard :=
    fun hl hmx => by simp [World.view, State.view, heldOp, hl, State.op, hmx, HolderPc.op]
  cases hm.mover with
  | op hs hd hv hpc hg =>
    rcases h with ⟨⟨r, ws, hpd⟩, hl, hmx⟩ | hu
    · have hpd' : w.pc i = .call (.dequeued r ws) := by
        rcases observe_pc hpc with ho | ⟨-, r, ho⟩ | ⟨-, k, ho⟩ | ⟨k, ho⟩
        · rw [← ho, hpd]
        all_goals simp [ho] at hpd
      rw [hpd'] at hfit
      have hop := hguard hl hmx
      generalize w.view i = v at hfit hv
      generalize w'.view i = v' at hv hop
      rcases hfit with rfl | rfl | ⟨x, rfl⟩ <;> obtain ⟨o, o', ho, hos, rfl⟩ := hv.holder_inv rfl rfl <;>
        obtain rfl := Option.some.inj ho <;> cases hos <;> simp [HolderOp.long] at *
    · rcases hupd with hask | hidle
      · exact (hask.passed hv (.inl hu)).imp .inr fun h => hw.empty_of_queueState h.1
      · obtain ⟨o, o', ho, hos, hv'⟩ := hv.holder_inv (by rw [hown]; rfl) (by rw [hidle]; rfl)
        rw [hv'] at hu
        unfold HolderOp.updAfter at hu
        split at hu <;> simp [hidle] at hu
  | call hr hk hrest hs hv hpc hg =>
    simp only [waitQueue, next, hp] at hr
    rw [hpc] at hf
    obtain ⟨l, hgo, -⟩ := callNext_goes hr hf
    rcases h with ⟨⟨r, ws, hpd⟩, hl, hmx⟩ | hu
    · have hop := hguard hl hmx
      rw [hpc] at hpd
      rw [hp] at hc
      rw [hpd, hk] at hgo
      cases hgo with
      | pop ws => simp [Pc.count] at hc
      | dequeue ws => simp [Pc.count] at hc
      | more c m ws =>
        obtain ⟨y, u, o, o', hw₁, hcs, hw₂⟩ := hv.holder_inv
        rw [hw₂] at hop
        cases hcs with
        | dequeueNone h => exact .inr (hw.empty_of_queueState h)
        | dequeue h => simp at hop
    · left
      right
      generalize w.view i = v at hv
      generalize w'.view i = v' at hv hu
      cases hv <;> first | exact hu | simp at hu
  | own hr hk hrest hq hv hpc hg =>
    simp only [waitQueue, next, hp] at hr
    rw [hpc] at hf
    obtain ⟨l, hgo, -⟩ := callNext_goes hr hf
    rcases h with ⟨⟨r, ws, hpd⟩, -, -⟩ | hu
    · rw [hpc] at hpd
      rw [hpd, hk] at hgo
      cases hgo
    · exact .inl (.inr (hv ▸ hu))

/-- What a step of a `notify_many` does to the queue. -/
theorem Served.queue_moved (hs : Served willWake cfg w a)
    (hm : (waitQueue willWake).Moves cfg a w i n w' e) (hc : (w.pc i).count = some c)
    (hat : w.lockedBy = some i → w.q.AtHead) :
    (∀ x, ¬ e.Removes x) ∧ (a.apply e).queue = a.queue ∨
      ∃ x, e.Removes x ∧ a.queue = x :: (a.apply e).queue := by
  by_cases he : ∃ x, e.Removes x
  · obtain ⟨x, he⟩ := he
    exact .inr ⟨x, he, hs.remove_many hm hc hat he⟩
  · have hne := not_exists.1 he
    refine .inl ⟨hne, ?_⟩
    obtain ⟨hown, -, hop⟩ := (hs.reached.control i).of_count hc
    have henq : ∀ y, e ≠ .enqueue y := fun y he => by
      subst he
      obtain ⟨-, f, u, o, hv⟩ := hm.enqueue_inv
      simp [hv] at hown
    have hdrain : ∀ d s, e ≠ .drain d s := fun d s he => by
      subst he
      exact hop d s hm.drain_inv
    cases e <;> try rfl
    · exact absurd rfl (henq _)
    · exact absurd (.inl ⟨_, rfl⟩) (hne _)
    · exact absurd rfl (hdrain _ _)

/-- What a `notify_many(c)` that is alone has done, on a queue that was `l` when it started. -/
structure Exact (c : ℕ) (l : List NodeId) (w : WorldOf W) (a : Abs ℕ) (i : TaskId) (L : Log W) : Prop where
  order : L.dequeued.map Prod.fst ++ a.queue = l
  count : L.called.length + (w.pc i).wakers.length + (w.pc i).rest = c ∨ a.queue = []
  found : FoundEmpty w i → a.queue = []

theorem Exact.step (h : Exact c l w a i L) (hs : Served willWake cfg w a)
    (hm : (waitQueue willWake).Moves cfg a w i n w' e) (hc : (w.pc i).count = some c)
    (hat : w.lockedBy = some i → w.q.AtHead) (hf : w'.pc i ≠ .fault) :
    Exact c l w' (a.apply e) i (L.record true e w w') := by
  have hq := hs.queue_moved hm hc hat
  have hnil : a.queue = [] → (a.apply e).queue = [] := fun h => by
    rcases hq with ⟨-, hq⟩ | ⟨x, -, hq⟩
    · rw [hq, h]
    · simp [h] at hq
  refine ⟨?_, ?_, fun h' => ?_⟩
  · rcases hq with ⟨hne, hq⟩ | ⟨x, he, hq⟩
    · rw [Log.record_dequeued hne, hq, h.order]
    · rw [Log.record_removed he, ← h.order, hq]
      simp
  · obtain ⟨-, l', hwoken, hsum⟩ := hs.counted hm hc hf
    rcases h.count with hle | hle
    · rcases hsum with hsum | ⟨-, -, -, hfound | hnil'⟩
      · left
        rw [Log.record_called hwoken, List.length_append]
        omega
      · exact .inr (hnil (h.found hfound))
      · exact .inr (hnil hnil')
    · exact .inr (hnil hle)
  · exact hnil ((h'.step_inv hs.reached hm hc hf).elim h.found id)

/-- A call that is alone has dequeued the first `c` waiters when it returns. -/
theorem Exact.returned (h : Exact c l w a i L) (hb : L.dequeued.map Prod.snd = L.called.map some)
    (hle : L.called.length ≤ c) (hi : w.pc i = .idle) : L.dequeued.map Prod.fst = l.take c := by
  have hlen : L.dequeued.length = L.called.length := by simpa using congrArg List.length hb
  have hcount := h.count
  rw [hi] at hcount
  rw [← h.order]
  rcases hcount with hcount | hnil
  · simp only [Pc.wakers, Pc.rest, List.length_nil, Nat.add_zero] at hcount
    rw [List.take_left' (by simp [hlen, hcount])]
  · rw [hnil, List.append_nil, List.take_of_length_le (by simpa [hlen] using hle)]

/-! ## The steps of a call that is alone -/

/-- How many instructions `is_empty_or_lock` has to make at most. -/
def updLeft : UpdPc ℕ → ℕ
  | .waitEmpty => 3
  | .emptyLoad => 2
  | .releasing => 1
  | _ => 0

/-- An `is_empty_or_lock` that is alone makes progress. -/
theorem Asks.exists_step (h : Asks i none (w.view i)) (hw : w.Ok cfg a) (hq : w.Quiet i) (n : Input W) :
    ∃ w', (waitQueue willWake).step cfg w i false n = some w' ∧
      updLeft (w'.q.upd i) < updLeft (w.q.upd i) := by
  have hown : (w.q.own i).runs = false := by
    rw [← OwnPc.runs_op]
    rcases h with h | h | h <;> exact congrArg (fun v => v.own.runs) h
  rcases h with h | h | h
  · have hu : w.q.upd i = .waitEmpty := UpdPc.eq_waitEmpty (congrArg View.upd h)
    have hmx := hq.unlocked hw (congrArg View.op h)
    have hi : w.instruction i false = some (.thread i false) := by
      simp [World.instruction, hown, hu, UpdPc.runs]
    refine ⟨_, by simp only [Client.step, hi, Aiq.step, threadStep, hu, hmx]; rfl, ?_⟩
    simp [World.moved, hu, updLeft]
  · have hu : w.q.upd i = .emptyLoad := UpdPc.eq_emptyLoad (congrArg View.upd h)
    have hi : w.instruction i false = some (.thread i false) := by
      simp [World.instruction, hown, hu, UpdPc.runs]
    cases ht : w.q.mem.tail with
    | state s =>
      refine ⟨_, by simp only [Client.step, hi, Aiq.step, threadStep, hu, ht]; rfl, ?_⟩
      simp [World.moved, hu, updLeft]
    | ptr b =>
      refine ⟨_, by simp only [Client.step, hi, Aiq.step, threadStep, hu, ht]; rfl, ?_⟩
      simp [World.moved, hu, updLeft]
  · have hu : w.q.upd i = .releasing := UpdPc.eq_releasing (congrArg View.upd h)
    obtain ⟨hl, hop⟩ := World.op_of_view (congrArg View.op h)
    have hm := State.mutex_of_op_releasing hop
    have hi : w.instruction i false = some .holder := by
      simp [World.instruction, hown, hu, UpdPc.runs, hl, hm, HolderPc.runs]
    refine ⟨_, by simp only [Client.step, hi, Aiq.step, hm, holderStep]; rfl, ?_⟩
    simp [World.moved, hu, updLeft, Release.apply]

/-- The view of a task in a call that has no instruction to make. -/
theorem rests_of_view {o : Option (HolderOp ℕ)} (hv : w.view i = ⟨.dead, .idle, o⟩)
    (ho : ∀ o', o = some o' → o'.runs = false) : (w.view i).Rests := by
  rw [hv]
  exact ⟨rfl, rfl, fun h => ho _ h⟩

/-- A `notify_many` that is alone can make a step. -/
theorem Reached.exists_step (hw : Reached cfg w a) (hq : w.Quiet i) (hc : (w.pc i).count = some c)
    (n : Input W) : ∃ w', (waitQueue willWake).step cfg w i false n = some w' ∧
      (Asks i none (w.view i) → updLeft (w'.q.upd i) < updLeft (w.q.upd i)) := by
  by_cases hask : Asks i none (w.view i)
  · obtain ⟨w', h, hlt⟩ : ∃ w', (waitQueue willWake).step cfg w i false n = some w' ∧
        updLeft (w'.q.upd i) < updLeft (w.q.upd i) := hask.exists_step hw.ok hq n
    exact ⟨w', h, fun _ => hlt⟩
  suffices ∃ w', (waitQueue willWake).step cfg w i false n = some w' by
    obtain ⟨w', h⟩ := this
    exact ⟨w', h, fun h => absurd h hask⟩
  have hf := hw.control i
  obtain ⟨p, hp⟩ := inCall_iff.1 (Pc.inCall_of_count hc)
  rw [hp] at hf hc
  have hnext : ∀ {r}, callNext w i p n = some r → (waitQueue willWake).next w i n = some r := fun h => by
    simpa [waitQueue, next, hp] using h
  have hgo : ∀ {r o}, w.view i = ⟨.dead, .idle, o⟩ → (∀ o', o = some o' → o'.runs = false) →
      callNext w i p n = some r → r.call = none → ∃ w', (waitQueue willWake).step cfg w i false n = some w' :=
    fun hv ho hr hk => (rests_of_view hv ho).step false (hnext hr) (by simp [hk])
  have hcall : ∀ {r o k m}, w.view i = ⟨.dead, .idle, some o⟩ → o.runs = false → w.q.mutex = some m →
      callNext w i p n = some r → r.call = some (.holder k) → (holderCall w.q m k).isSome →
      ∃ w', (waitQueue willWake).step cfg w i false n = some w' := fun hv ho hm hr hk hs => by
    refine (rests_of_view hv ?_).holderCall false (World.op_of_view (congrArg View.op hv)).1 hm (hnext hr) hk hs
    rintro _ ⟨⟩
    exact ho
  have hadv : ∀ {o}, w.view i = ⟨.dead, .idle, some o⟩ → (o = .dequeuing ∨ ∃ x s k, o = .removing x s k) →
      ∃ w', (waitQueue willWake).step cfg w i false n = some w' := fun hv ho => by
    refine (World.Advancing.of_view ?_ ?_ (congrArg View.op hv) ho).step hq hw.ok false n <;> rw [hv] <;> rfl
  have hguard : w.view i = ⟨.dead, .idle, some .guard⟩ → w.q.mutex = some .guard := fun hv =>
    State.mutex_of_op_guard (World.op_of_view (congrArg View.op hv)).2
  have hhandle : ∀ {x}, w.view i = ⟨.dead, .idle, some (.handle x)⟩ →
      w.q.mutex = some (.dequeue x) ∨ w.q.mutex = some (.pop x) := fun hv =>
    State.mutex_of_op_handle (World.op_of_view (congrArg View.op hv)).2
  cases p with
  | set => simp [Pc.count] at hc
  | drain k => simp [Pc.count] at hc
  | forEach k p => simp [Pc.count] at hc
  | ask k =>
    cases k <;> simp [Pc.count] at hc
    exact absurd hf hask
  | relock c m => exact absurd hf hask
  | take r ws =>
    rcases r with _ | _ | ⟨c', m⟩ <;> simp only [Pc.count, reduceCtorEq] at hc
    cases m with
    | zero => exact hgo hf (by rintro _ ⟨⟩; rfl) rfl rfl
    | succ m =>
      exact hcall hf rfl (hguard hf) rfl rfl (by simp only [Aiq.holderCall, guardCall]; split <;> rfl)
  | dequeued r ws =>
    rcases r with _ | _ | ⟨c', m⟩ <;> simp only [Pc.count, reduceCtorEq] at hc
    rcases hf with hf | hf | ⟨x, hf⟩
    · exact hadv hf (.inl rfl)
    · have hm := hguard hf
      exact hcall hf rfl hm (by simp only [callNext, hm]; rfl) rfl rfl
    · rcases hhandle hf with hm | hm <;>
        exact hcall hf rfl hm (by simp only [callNext, hm]; rfl) rfl rfl
  | notified r ws =>
    obtain ⟨x, hf⟩ := hf
    have hrun : ∀ o' : HolderOp ℕ, some (.handle x) = some o' → o'.runs = false := by
      rintro _ ⟨⟩
      rfl
    rcases hhandle hf with hm | hm <;> cases hwk : (w.q.mem.data x).waker with
    | none => exact hgo hf hrun (by simp only [callNext, hm, hwk]; rfl) rfl
    | some wk => exact hcall hf rfl hm (by simp only [callNext, hm, hwk]; rfl) rfl rfl
  | taken r ws =>
    obtain ⟨x, hf⟩ := hf
    rcases hhandle hf with hm | hm <;> exact hcall hf rfl hm rfl rfl rfl
  | dropped r ws =>
    rcases r with _ | _ | ⟨c', m⟩ <;> simp only [Pc.count, reduceCtorEq] at hc
    rcases hf with ⟨x, hf⟩ | hf
    · exact hadv hf (.inr ⟨x, _, _, rfl⟩)
    · by_cases hl : ws.length = wakersCapacity
      · exact hcall hf rfl (hguard hf) (by simp only [callNext, if_pos hl]; rfl) rfl rfl
      · exact hgo hf (by rintro _ ⟨⟩; rfl) (by simp only [callNext, if_neg hl]; rfl) rfl
  | batch c m ws =>
    cases ws with
    | cons wk ws => exact hgo hf (by simp) rfl rfl
    | nil =>
      have hu : w.q.upd i = .idle := UpdPc.op_eq_idle.1 (congrArg View.upd hf)
      refine (rests_of_view hf (by simp)).step false (hnext rfl) ?_
      rintro k ⟨⟩
      simp only [Call.onLock, Call.act, Aiq.step, threadCall, hu]
      split <;> simp
  | final k ws b =>
    cases ws with
    | cons wk ws =>
      cases b
      · exact hgo hf (by simp) rfl rfl
      · exact hgo hf (by rintro _ ⟨⟩; rfl) rfl rfl
    | nil =>
      cases b
      · exact hgo hf (by simp) rfl rfl
      · exact hcall hf rfl (hguard hf) rfl rfl rfl

/-- A bound of the steps of a `notify_many` at the waiter that it has in hand. -/
def Pc.stage (q : State ℕ (Waiter W)) (i : TaskId) : Pc W → ℕ
  | .call (.taken _ _) => 30
  | .call (.dropped _ _) => 20 + q.rank
  | .call (.batch _ _ _) => 19
  | .call (.ask _) | .call (.relock _ _) => 15 + updLeft (q.upd i)
  | .call (.take _ _) => 14
  | .call (.dequeued _ _) => 4 + q.rank
  | .call (.notified _ _) => 3
  | .call (.final _ _ true) => 2
  | .call (.final _ _ false) => 1
  | _ => 0

/-- A bound of the steps that the call of the task `i` has to make. -/
def left (w : WorldOf W) (i : TaskId) : ℕ :=
  40 * (w.pc i).rest + (w.pc i).wakers.length + (w.pc i).stage w.q i

theorem updLeft_le (u : UpdPc ℕ) : updLeft u ≤ 3 := by
  unfold updLeft
  split <;> decide

/-- The instructions that a `notify_many` makes: those of `is_empty_or_lock`, of `dequeue` and of the
removal of a waiter. -/
theorem Pc.Fits.instr_of_count {p : Pc W} {v v' : View ℕ} {s : Option ℕ} (hf : p.Fits i v)
    (hc : p.count = some c) (hs : InstrStep i s v e v') :
    Asks i none v ∧ (p = .call (.ask (.notifyMany c)) ∨ ∃ m, p = .call (.relock c m)) ∨
      (∃ o, v = ⟨.dead, .idle, some o⟩ ∧ (o = .dequeuing ∨ ∃ x s k, o = .removing x s k)) ∧
        ∃ r ws, p = .call (.dequeued r ws) ∨ p = .call (.dropped r ws) := by
  have hruns : ∀ {o}, v = ⟨.dead, .idle, o⟩ → ∃ o', o = some o' ∧ o'.runs = true := fun hv => by
    obtain ⟨o₁, o₂, ho, hos, -⟩ := hs.holder_inv (by rw [hv]; rfl) (by rw [hv]; rfl)
    rw [hv] at ho
    exact ⟨o₁, ho, hos.runs⟩
  have hstuck : ∀ {o}, v = ⟨.dead, .idle, o⟩ → (∀ o', o = some o' → o'.runs = false) → False := by
    intro o hv ho
    obtain ⟨o', ho', hr⟩ := hruns hv
    simp [ho o' ho'] at hr
  unfold Pc.count at hc
  split at hc <;> try simp at hc
  · exact .inl ⟨hf, .inl (by rw [hc])⟩
  · exact (hstuck hf (by rintro _ ⟨⟩; rfl)).elim
  · refine .inr ⟨?_, _, _, .inl rfl⟩
    rcases hf with hf | hf | ⟨x, hf⟩
    · exact ⟨_, hf, .inl rfl⟩
    · exact (hstuck hf (by rintro _ ⟨⟩; rfl)).elim
    · exact (hstuck hf (by rintro _ ⟨⟩; rfl)).elim
  · obtain ⟨x, hf⟩ := hf
    exact (hstuck hf (by rintro _ ⟨⟩; rfl)).elim
  · obtain ⟨x, hf⟩ := hf
    exact (hstuck hf (by rintro _ ⟨⟩; rfl)).elim
  · refine .inr ⟨?_, _, _, .inr rfl⟩
    rcases hf with ⟨x, hf⟩ | hf
    · exact ⟨_, hf, .inr ⟨x, _, _, rfl⟩⟩
    · exact (hstuck hf (by rintro _ ⟨⟩; rfl)).elim
  · exact (hstuck hf (by simp)).elim
  · exact .inl ⟨hf, .inr ⟨_, by rw [hc]⟩⟩
  · rename_i b
    cases b
    · exact (hstuck hf (by simp)).elim
    · exact (hstuck hf (by rintro _ ⟨⟩; rfl)).elim

/-- A step of a call that is alone takes it nearer to its end. -/
theorem Reached.left_lt (hw : Reached cfg w a) (hq : w.Quiet i)
    (hm : (waitQueue willWake).Moves cfg a w i n w' e) (hc : (w.pc i).count = some c)
    (hf : w'.pc i ≠ .fault)
    (hlt : Asks i none (w.view i) → updLeft (w'.q.upd i) < updLeft (w.q.upd i)) :
    w'.pc i = .idle ∨ left w' i < left w i := by
  have hrank : w'.q.rank ≤ 9 := w'.q.rank_le
  have hupd := updLeft_le (w'.q.upd i)
  have hfit := hw.control i
  obtain ⟨p, hp⟩ := inCall_iff.1 (Pc.inCall_of_count hc)
  have hgoes : ∀ {k l q}, p.Goes w i e q k l (w'.pc i) → w'.pc i = .idle ∨ left w' i < left w i :=
    fun {k l q} hgo => by
    rw [hp] at hc
    unfold left
    rw [hp]
    generalize w'.pc i = p' at hgo
    cases hgo with
    | «return» k => exact .inl rfl
    | unlock k => exact .inr (by simp [Pc.rest, Pc.wakers, Pc.stage])
    | wakeLast k wk ws b =>
      right
      cases b <;> simp [Pc.rest, Pc.wakers, Pc.stage]
    | notify r ws =>
      right
      cases r <;> simp [Pc.count] at hc
      simp [Pc.rest, Pc.wakers, Pc.stage]
      omega
    | takeWaker r ws =>
      right
      cases r <;> simp [Pc.count] at hc
      simp [Pc.rest, Pc.wakers, Pc.stage]
      omega
    | drop r ws =>
      right
      cases r <;> simp [Pc.count] at hc
      simp [Pc.rest, Pc.wakers, Pc.stage]
      omega
    | _ =>
      first
      | (simp [Pc.count] at hc; done)
      | (right
         simp [Pc.rest, Pc.wakers, Pc.stage]
         try omega)
  cases hm.mover with
  | op hs hd hv hpc hg =>
    right
    have hpc : w'.pc i = (observe w i e w'.q).1 := hpc
    rcases hfit.instr_of_count hc hv with ⟨hask, hp | ⟨m, hp⟩⟩ | ⟨⟨o, hv', ho⟩, r, ws, hp⟩
    · have := hlt hask
      unfold left
      simp only [hpc, observe, hp]
      split <;> [skip; split] <;> simp [Pc.rest, Pc.wakers, Pc.stage, CallKind.locked] <;> omega
    · have := hlt hask
      unfold left
      simp only [hpc, observe, hp]
      split <;> [skip; split] <;> simp [Pc.rest, Pc.wakers, Pc.stage] <;> omega
    · have hadv : w.Advancing i :=
        .of_view (by rw [hv']; rfl) (by rw [hv']; rfl) (congrArg View.op hv') ho
      have hrk := hadv.rank_lt hq hm
      have hstay : w'.pc i = w.pc i := by
        rw [hpc, observe_eq] <;> rcases hp with hp | hp <;> simp [hp]
      unfold left
      rw [hstay]
      rcases hp with hp | hp <;> rw [hp] <;> simp [Pc.stage, hrk]
  | call hr hk hrest hs hv hpc hg =>
    simp only [waitQueue, next, hp] at hr
    rw [hpc] at hf
    obtain ⟨l, hgo, -⟩ := callNext_goes hr hf
    exact hgoes (hpc ▸ hgo)
  | own hr hk hrest hqq hv hpc hg =>
    simp only [waitQueue, next, hp] at hr
    rw [hpc] at hf
    obtain ⟨l, hgo, -⟩ := callNext_goes hr hf
    exact hgoes (hpc ▸ hgo)

/-! ## Runs -/

variable {u u' u₁ : WorldOf W × Abs ℕ} {v v' : (WorldOf W × Abs ℕ) × Log W} {t : TaskId × Bool × Input W}
  {ts : List (TaskId × Bool × Input W)} {k : CallKind} {b : Bool}

/-- A step of the task `i`, which is in a call. -/
def OwnCall (willWake : W → W → Bool) (cfg : Config) (i : TaskId) (v : (WorldOf W × Abs ℕ) × Log W)
    (t : TaskId × Bool × Input W) (v' : (WorldOf W × Abs ℕ) × Log W) : Prop :=
  LoggedCall willWake cfg i v t v' ∧ t.1 = i

/-- What holds in a `notify_many(c)` of the task `i`. -/
structure InMany (willWake : W → W → Bool) (cfg : Config) (c : ℕ) (l : List NodeId) (i : TaskId)
    (v : (WorldOf W × Abs ℕ) × Log W) : Prop where
  accounted : Accounted willWake cfg i v
  many : Many c l v.1.1 v.1.2 i v.2

/-- What holds in a `notify_many(c)` of the task `i` that is alone. -/
structure Alone (willWake : W → W → Bool) (cfg : Config) (c : ℕ) (l : List NodeId) (i : TaskId)
    (v : (WorldOf W × Abs ℕ) × Log W) : Prop extends InMany willWake cfg c l i v where
  exact : Exact c l v.1.1 v.1.2 i v.2

theorem InMany.count (h : InMany willWake cfg c l i v) (hp : (v.1.1.pc i).inCall = true) :
    (v.1.1.pc i).count = some c :=
  h.many.count.resolve_right fun hi => by simp [hi, Pc.inCall] at hp

/-- A task in a `notify_many` has no node. -/
theorem InMany.pend (h : InMany willWake cfg c l i v) (hp : (v.1.1.pc i).inCall = true) :
    v.1.1.q.pend i = none := by
  obtain ⟨hown, -, -⟩ := (h.accounted.served.reached.control i).of_count (h.count hp)
  have hown : v.1.1.q.own i = .dead := OwnPc.op_eq_dead.1 hown
  rw [State.pend, hown]
  rfl

/-- A step of a `notify_many` dequeues the first waiter, or leaves the queue alone. -/
theorem InMany.dequeues (h : InMany willWake cfg c l i v) (ht : OwnCall willWake cfg i v t v') :
    v'.1.2.queue = v.1.2.queue ∧ v'.2.dequeued = v.2.dequeued ∨ ∃ x,
      v.1.2.queue = x :: v'.1.2.queue ∧ v'.2.dequeued = v.2.dequeued ++ [(x, v.2.stored x)] := by
  obtain ⟨⟨ht, hp⟩, rfl⟩ := ht
  obtain ⟨e, hm, ha, hL⟩ := ht.moves h.accounted.served.reached.ok
  rw [ha, hL, decide_eq_true rfl]
  rcases h.accounted.served.queue_moved hm (h.count hp) h.many.head with ⟨hne, hq⟩ | ⟨x, he, hq⟩
  · exact .inl ⟨hq, Log.record_dequeued hne⟩
  · exact .inr ⟨x, hq, Log.record_removed he⟩

theorem Alone.step (h : Alone willWake cfg c l i v) (ht : OwnCall willWake cfg i v t v') :
    Alone willWake cfg c l i v' := by
  refine ⟨⟨h.accounted.step ht.1, h.many.step h.accounted ht.1⟩, ?_⟩
  obtain ⟨⟨ht, hp⟩, rfl⟩ := ht
  obtain ⟨e, hm, ha, hL⟩ := ht.moves h.accounted.served.reached.ok
  rw [ha, hL, decide_eq_true rfl]
  exact h.exact.step h.accounted.served hm (h.count hp) h.many.head
    ((h.accounted.served.step hm).reached.wakers.fault _)

/-- The first step of a `notify_many`. -/
theorem Served.start_exact (hs : Served willWake cfg w a) (hi : w.pc i = .idle)
    (hm : (waitQueue willWake).Moves cfg a w i (.call (.notifyMany c)) w' e) :
    Exact c a.queue w' (a.apply e) i (.start w') := by
  have hf := hs.reached.control i
  rw [hi] at hf
  have hv : w.view i = ⟨.dead, .idle, none⟩ := hf
  have hcase : ((w'.pc i).rest = c ∨ a.queue = []) ∧ (w'.pc i).wakers = [] ∧
      (a.apply e).queue = a.queue ∧ ¬ FoundEmpty w' i := by
    cases hm.mover with
    | op hts hd hv' hp hg =>
      rw [hv] at hv'
      cases hv'
    | own hr hk hrest hq hv' hp hg =>
      simp only [waitQueue, next, hi, Option.some.injEq] at hr
      subst hr
      cases hk
    | call hr hk hrest hts hv' hp hg =>
      simp only [waitQueue, next, hi, Option.some.injEq] at hr
      subst hr
      obtain rfl := Option.some.inj hk
      have hupd : (w'.view i).upd = (w'.q.upd i).op := rfl
      rw [hv] at hv'
      have hempty := hv'.isEmptyOrLock_inv
      have hnot : ∀ r ws, w'.pc i ≠ .call (.dequeued r ws) := fun r ws h => by
        rw [hp] at h
        simp only [WaitQueue.start] at h
        split at h <;> simp at h
      refine ⟨?_, ?_, ?_, ?_⟩
      · rw [hp]
        simp only [WaitQueue.start]
        split
        · rename_i hu
          refine .inr (hs.reached.empty_of_queueState (hempty.resolve_right fun h => ?_).1)
          simp [World.view, State.view, hu, UpdPc.op] at h
        · exact .inl rfl
      · rw [hp]
        simp only [WaitQueue.start]
        split <;> rfl
      · generalize w'.view i = v' at hv'
        cases hv' <;> rfl
      · rintro (⟨⟨r, ws, h⟩, -⟩ | h)
        · exact hnot r ws h
        · generalize w'.view i = v' at hv' h
          cases hv' <;> simp at h
  obtain ⟨hc, hws, hq, hfe⟩ := hcase
  refine ⟨by simp [Log.start, hq], ?_, fun h => absurd h hfe⟩
  rw [hq, hws]
  simpa [Log.start] using hc

theorem Alone.of_run (h : Alone willWake cfg c l i v) (hrun : Lts.Run (OwnCall willWake cfg i) v ts v') :
    Alone willWake cfg c l i v' :=
  Lts.Run.prefixed (P := fun _ v => Alone willWake cfg c l i v) hrun h fun _ _ _ _ _ hl hp => hp.step hl

/-- A `notify_many` that nothing interferes with returns. -/
theorem Alone.returns (h : Alone willWake cfg c l i v) (hp : (v.1.1.pc i).inCall = true)
    (hq : v.1.1.Quiet i) : ∃ ts v', Lts.Run (OwnCall willWake cfg i) v ts v' ∧ v'.1.1.pc i = .idle := by
  refine Lts.Run.exists_of_measure
    (I := fun v => Alone willWake cfg c l i v ∧ (v.1.1.pc i).inCall = true ∧ v.1.1.Quiet i)
    (fun v => left v.1.1 i) ⟨h, hp, hq⟩ ?_
  rintro ⟨⟨w, a⟩, L⟩ ⟨h, hp, hq⟩
  have hr : Reached cfg w a := h.accounted.served.reached
  have hc : (w.pc i).count = some c := h.count hp
  obtain ⟨w', hs, hlt⟩ : ∃ w', (waitQueue willWake).step cfg w i false .none = some w' ∧
      (Asks i none (w.view i) → updLeft (w'.q.upd i) < updLeft (w.q.upd i)) := hr.exists_step hq hc .none
  obtain ⟨e, he, hm⟩ := Client.moves_event hr.ok hs
  have hstep : OwnCall willWake cfg i ((w, a), L) (i, false, .none)
      ((w', a.apply e), L.record (i = i) e w w') :=
    ⟨⟨⟨⟨hs, by rw [he]; rfl⟩, e, he, rfl⟩, hp⟩, rfl⟩
  have h' := h.step hstep
  refine ⟨_, _, hstep, ?_⟩
  have hnf : w'.pc i ≠ .fault := h'.accounted.served.reached.wakers.fault i
  rcases h'.many.count with hc' | hidle
  · refine (hr.left_lt hq hm hc hnf hlt).imp_right fun hlt => ⟨⟨h', Pc.inCall_of_count hc', ?_⟩, hlt⟩
    exact hm.quiet hq (h'.pend (Pc.inCall_of_count hc'))
  · exact .inl hidle

/-- A `notify_many(c)` has dequeued at most `c` waiters. -/
theorem InMany.length_le (h : InMany willWake cfg c l i v) : v.2.dequeued.length ≤ c := by
  have hle := h.many.le
  cases h.accounted.balanced with
  | even ht hl =>
    have := congrArg List.length hl
    simp only [List.length_map, List.length_append] at this
    omega
  | owing x ht hx hl =>
    have := congrArg List.length hl
    simp only [List.length_map, List.length_append, List.length_singleton] at this
    omega

theorem InMany.of_run (h : InMany willWake cfg c l i v)
    (hrun : Lts.Run (LoggedCall willWake cfg i) v ts v') : InMany willWake cfg c l i v' :=
  ⟨accounted_of_run h.accounted hrun, many_of_run h.many h.accounted hrun⟩

/-- The first step of a call. -/
theorem start_of_steps (h : (waitQueue willWake).Traces cfg (init, .init empty) ts u) (hi : u.1.pc i = .idle)
    (hs : (waitQueue willWake).Steps cfg u (i, b, .call k) u₁) :
    Accounted willWake cfg i (u₁, .start u₁.1) ∧ (u₁.1.pc i).inCall = true ∧
      ∀ c, k = .notifyMany c → Alone willWake cfg c u.2.queue i (u₁, .start u₁.1) := by
  obtain ⟨hsv, -⟩ := served_of_traces h
  obtain ⟨w, a⟩ := u
  obtain ⟨w₁, a₁⟩ := u₁
  obtain ⟨e, hm, rfl⟩ := hs.moves hsv.reached.ok
  obtain ⟨hacc, hp, -, -, hmany⟩ := hsv.start hi hm
  refine ⟨hacc, hp, ?_⟩
  rintro c rfl
  exact ⟨⟨hacc, hmany c rfl⟩, hsv.start_exact hi hm⟩

/-- **Batched notification is exact.** In every run of a `WaitQueue`, a waker is pushed to a list of wakers
only when it is not full, and no list exceeds its capacity. Whatever the other tasks do, a call that returns
has called the wakers that were stored in the waiters that it has dequeued, each of them once, and no others.
A `notify_many(c)` dequeues at most `c` waiters, each of them as the first of the queue; when nothing
interferes with it, it returns, and has dequeued the first `c` waiters. -/
theorem batched_notification (h : (waitQueue willWake).Traces cfg (init, .init empty) ts u) :
    (∀ i, (u.1.pc i).wakers.length ≤ wakersCapacity ∧
      ((u.1.pc i).pushes = true → (u.1.pc i).wakers.length < wakersCapacity)) ∧
    (∀ i b k u₁, u.1.pc i = .idle → (waitQueue willWake).Steps cfg u (i, b, .call k) u₁ →
      (∀ ts' v, Lts.Run (LoggedCall willWake cfg i) (u₁, .start u₁.1) ts' v → v.1.1.pc i = .idle →
        v.2.dequeued.map Prod.snd = v.2.called.map some) ∧
      ∀ c, k = .notifyMany c →
        (∀ ts' v, Lts.Run (LoggedCall willWake cfg i) (u₁, .start u₁.1) ts' v →
          v.2.dequeued.length ≤ c ∧ (v.2.dequeued.map Prod.fst).Sublist (u.2.queue ++ v.2.enqueued) ∧
          ∀ t v', OwnCall willWake cfg i v t v' →
            v'.1.2.queue = v.1.2.queue ∧ v'.2.dequeued = v.2.dequeued ∨
            ∃ x, v.1.2.queue = x :: v'.1.2.queue ∧ v'.2.dequeued = v.2.dequeued ++ [(x, v.2.stored x)]) ∧
        ∀ ts' v, Lts.Run (OwnCall willWake cfg i) (u₁, .start u₁.1) ts' v → v.1.1.pc i = .idle →
          v.2.dequeued.map Prod.fst = u.2.queue.take c) ∧
    ∀ i c, u.1.pc i = .idle → u.1.q.mutex = none → (∀ x, u.1.q.pend x = none) →
      ∃ u₁ ts' v, (waitQueue willWake).Steps cfg u (i, false, .call (.notifyMany c)) u₁ ∧
        Lts.Run (OwnCall willWake cfg i) (u₁, .start u₁.1) ts' v ∧ v.1.1.pc i = .idle := by
  obtain ⟨hsv, hcap⟩ := served_of_traces h
  refine ⟨fun i => ⟨(hcap i).length_le, (hcap i).length_lt⟩, fun i b k u₁ hi hs => ?_,
    fun i c hi hmx hpend => ?_⟩
  · obtain ⟨hacc, hp, hmany⟩ := start_of_steps h hi hs
    refine ⟨fun ts' v hrun hret => (accounted_of_run hacc hrun).returned hret, fun c hk => ⟨?_, ?_⟩⟩
    · intro ts' v hrun
      have hv := (hmany c hk).toInMany.of_run hrun
      exact ⟨hv.length_le, (List.sublist_append_left ..).trans hv.many.order, fun t v' => hv.dequeues⟩
    · intro ts' v hrun hret
      have hv := (hmany c hk).of_run hrun
      refine hv.exact.returned (hv.accounted.returned hret) ?_ hret
      have hle := hv.many.le
      omega
  · obtain ⟨w, a⟩ := u
    dsimp only at hi hmx hpend hsv
    have hf := hsv.reached.control i
    rw [hi] at hf
    have hv : w.view i = ⟨.dead, .idle, none⟩ := hf
    have hu : w.q.upd i = .idle := UpdPc.op_eq_idle.1 (congrArg View.upd hv)
    have hl : w.lockedBy = none := by simpa [hmx] using hsv.reached.ok.lock.isSome.symm
    obtain ⟨w₁, hstep⟩ : ∃ w₁, (waitQueue willWake).step cfg w i false (.call (.notifyMany c)) = some w₁ := by
      refine (rests_of_view hv (by simp)).step false (by simp only [waitQueue, next, hi]; rfl) ?_
      rintro k ⟨⟩
      simp only [Call.onLock, Call.act, Aiq.step, threadCall, hu]
      split <;> simp
    obtain ⟨e, he, hm⟩ := Client.moves_event hsv.reached.ok hstep
    have hs : (waitQueue willWake).Steps cfg (w, a) (i, false, .call (.notifyMany c)) (w₁, a.apply e) :=
      ⟨hstep, by rw [he]; rfl⟩
    obtain ⟨-, hp, hmany⟩ := start_of_steps h hi hs
    have hal := hmany c rfl
    have hquiet : w.Quiet i := ⟨.inl hl, hpend, by simp [hmx]⟩
    obtain ⟨ts', v, hrun, hret⟩ := hal.returns hp (hm.quiet hquiet (hal.pend hp))
    exact ⟨_, ts', v, hs, hrun, hret⟩

/-- A task that makes no step keeps its node. -/
theorem own_of_traces (h : (waitQueue willWake).Traces cfg (init, .init empty) ts u)
    (hx : ∀ t ∈ ts, t.1 ≠ x) :
    u.1.q.own x = .dead := by
  refine (Lts.Run.prefixed (P := fun _ u => u.1.Ok cfg u.2 ∧ u.1.q.own x = .dead) h
    ⟨Reached.init.ok, rfl⟩ ?_).2
  rintro - t u u' ht hl ⟨hw, hown⟩
  obtain ⟨e, hm, ha⟩ := hl.moves hw
  rw [ha]
  exact ⟨hm.ok' hw, (hm.own_ne (hx t ht).symm).trans hown⟩

/-- `notify_many(1)` on a queue of two waiters. -/
theorem batched_notification_pollActs :
    let C := waitQueue fun _ _ : ℕ => true
    let u := C.followed ⟨.x86, 0⟩ (fun _ => True) (init, .init empty)
      (pollActs 3 .wait 7 ++ pollActs 4 .wait 8)
    u.2.queue = [3, 4] ∧ ∃ u₁ ts' v, C.Steps ⟨.x86, 0⟩ u (0, false, .call (.notifyMany 1)) u₁ ∧
      Lts.Run (OwnCall (fun _ _ => true) ⟨.x86, 0⟩ 0) (u₁, .start u₁.1) ts' v ∧
      v.2.dequeued.map Prod.fst = [3] ∧ v.2.dequeued.map Prod.snd = v.2.called.map some := by
  intro C u
  have h : (C.follow ⟨.x86, 0⟩ (fun _ => True) (init, .init empty)
      (pollActs 3 .wait 7 ++ pollActs 4 .wait 8)).isSome := by decide +kernel
  have hq : u.2.queue = [3, 4] := by decide +kernel
  have hmx : u.1.q.mutex.isNone = true := by decide +kernel
  have h3 : u.1.q.pend 3 = none := by decide +kernel
  have h4 : u.1.q.pend 4 = none := by decide +kernel
  have hi : u.1.pc 0 = .idle := by rfl
  have hrun : C.Traces ⟨.x86, 0⟩ (init, .init empty) (pollActs 3 .wait 7 ++ pollActs 4 .wait 8) u :=
    (Client.run_followed h).mono fun _ _ _ h => h.1
  clear_value u
  obtain ⟨-, hcalls, halone⟩ := batched_notification hrun
  have hpend : ∀ x, u.1.q.pend x = none := fun x => by
    by_cases hx : ∀ t ∈ pollActs 3 .wait 7 ++ pollActs 4 .wait 8, t.1 ≠ x
    · rw [State.pend, own_of_traces hrun hx]
      rfl
    · obtain rfl | rfl : 3 = x ∨ 4 = x := by
        by_contra hne
        exact hx fun t ht => by simp [pollActs] at ht; grind
      · exact h3
      · exact h4
  obtain ⟨u₁, ts', v, hs, hown, hret⟩ := halone 0 1 hi (Option.isNone_iff_eq_none.1 hmx) hpend
  obtain ⟨hwoken, hmany⟩ := hcalls 0 false _ u₁ hi hs
  have hfirst := (hmany 1 rfl).2 ts' v hown hret
  rw [hq] at hfirst
  exact ⟨hq, u₁, ts', v, hs, hown, hfirst, hwoken ts' v (hown.mono fun _ _ _ h => h.1) hret⟩

end Aiq.WaitQueue
