import Aiq.Semaphore.Released

/-!
# Waiters are woken

An `Acquire` that waits has stored the waker of its last poll, or one that wakes the same task, in its node
(`Attended`), and a queued one lacks permits (`Lacks`). What takes the waker calls it (`Armed.passes`). So
when no permits are being added and no `close` is under way, an `Acquire` that waits is in the queue with its
waker and lacks permits, or it has its permits, or the semaphore is closed, and its waker has been called
(`acquire_woken`).
-/

namespace Aiq.Semaphore

variable {W : Type} {willWake : W → W → Bool} {cfg : Config} {a b : Abs ℕ} {w w' : WorldOf W}
  {i j x : TaskId} {e : Event ℕ} {n : Input W} {r : InstrOf W} {o : AddOwner} {k : Kind} {wk : W} {m : ℕ}

/-! ## Polls -/

theorem Waiter.refresh_wakes (willWake : W → W → Bool) (wk : W) (v : Waiter W) :
    ∃ wk₀, (v.refresh willWake wk).waker = some wk₀ ∧ WakesFor willWake wk₀ wk := by
  unfold Waiter.refresh
  split
  · exact ⟨wk, rfl, .inl rfl⟩
  · rename_i h
    cases hv : v.waker with
    | none => simp [hv] at h
    | some wk₀ => exact ⟨wk₀, rfl, .inr (by simpa [hv] using h)⟩

/-- The waker of the poll that starts with a step from one control state to another. -/
def polled : Pc W → Pc W → Option W
  | .fut _ .created, .fetch (.acquire _ wk) | .fut _ .created, .fut _ (.node wk)
  | .fut _ .suspended, .fut _ (.state wk) => some wk
  | _, _ => none

/-- The last polls of the futures after a step. -/
def ask (w w' : WorldOf W) (i : TaskId) (g : LastPolls W) : LastPolls W :=
  match polled (w.pc i) (w'.pc i) with
  | some wk => Function.update g i (some (wk, w.shared.woken.length))
  | none => g

theorem polled_of_ne {p p' : Pc W} (h : ∀ k, p ≠ .fut k .created) (h' : ∀ k, p ≠ .fut k .suspended) :
    polled p p' = none := by
  unfold polled
  split
  · exact absurd rfl (h _)
  · exact absurd rfl (h _)
  · exact absurd rfl (h' _)
  · rfl

theorem ask_ne {g : LastPolls W} (hx : x ≠ i) : ask w w' i g x = g x := by
  unfold ask
  cases polled (w.pc i) (w'.pc i) with
  | none => rfl
  | some wk => exact Function.update_of_ne hx ..

theorem ask_of_polled {g : LastPolls W} (h : polled (w.pc i) (w'.pc i) = none) : ask w w' i g = g := by
  unfold ask
  rw [h]

theorem ask_fst {g : LastPolls W} (h : polled (w.pc i) (w'.pc i) = some wk) :
    (ask w w' i g i).map Prod.fst = some wk := by
  unfold ask
  rw [h]
  simp

/-! ## Where the wakers are of the futures that wait -/

/-- A node that has not been enqueued, and may have the waker. -/
def Unwoken (w : WorldOf W) (a : Abs ℕ) (i : TaskId) (wk : W) : Prop :=
  Outside keeping w a i none ∨ Outside keeping w a i (some wk)

/-- Where the waker is of the future of the task `i`, whose last poll is `g`. -/
def FutPc.Attended (willWake : W → W → Bool) (w : WorldOf W) (a : Abs ℕ) (i : TaskId) (g : Option (W × ℕ)) :
    FutPc W → Prop
  | .node wk => g.map Prod.fst = some wk
  | .fresh wk => g.map Prod.fst = some wk ∧ Outside keeping w a i none
  | .state wk => g.map Prod.fst = some wk ∧ (Entered w.q a i ∨ Outside keeping w a i none)
  | .retry wk | .failed wk _ => g.map Prod.fst = some wk ∧ Unwoken w a i wk
  | .stored wk _ => g.map Prod.fst = some wk ∧ Outside keeping w a i (some wk)
  | .enqueued wk _ => g.map Prod.fst = some wk ∧ (Waiting keeping willWake (Released w) w a i g ∨
      Outside keeping w a i (some wk) ∧ (w.view i).own ≠ .linking ∧ (w.view i).own ≠ .idle)
  | .queued wk _ => g.map Prod.fst = some wk ∧ Entered w.q a i
  | .suspended | .refreshed none => Waiting keeping willWake (Released w) w a i g
  | _ => True

/-- See `FutPc.Attended`. -/
def FetchCont.Attended (w : WorldOf W) (a : Abs ℕ) (i : TaskId) (g : Option (W × ℕ)) : FetchCont W → Prop
  | .acquire _ wk => g.map Prod.fst = some wk
  | .retry _ wk => g.map Prod.fst = some wk ∧ Unwoken w a i wk
  | _ => True

/-- See `FutPc.Attended`. -/
def Pc.Attended (willWake : W → W → Bool) (w : WorldOf W) (a : Abs ℕ) (i : TaskId) (g : Option (W × ℕ)) :
    Pc W → Prop
  | .fetch c => c.Attended w a i g
  | .fut _ p => p.Attended willWake w a i g
  | _ => True

/-- Every future that waits is attended to. -/
structure Attended (willWake : W → W → Bool) (w : WorldOf W) (a : Abs ℕ) (g : LastPolls W) : Prop where
  pc : ∀ i, (w.pc i).Attended willWake w a i (g i)
  length : ∀ {i wk m}, g i = some (wk, m) → m ≤ w.shared.woken.length

theorem Attended.init (s : ℕ) : Attended willWake (init s : WorldOf W) (.init s) fun _ => none where
  pc := fun _ => trivial
  length := fun h => by cases h

/-! ## Steps that leave a node alone -/

theorem Reached.entered_iff (hw : Reached cfg w a) (hm : (semaphore willWake).Moves cfg a w i n w' e)
    (he : e ≠ .enqueue x) (he' : e ≠ .create x) : Entered w'.q (a.apply e) x ↔ Entered w.q a x :=
  hm.entered_iff hw.ok he ⟨he', ne_reset hm⟩

theorem Armed.fresh {u : Option W} (h : Armed w a) (hw : Reached cfg w a) (hacc : Accepted w i)
    (hm : (semaphore willWake).Moves cfg a w i n w' e) (he : e ≠ .enqueue x) (he' : e ≠ .create x)
    (hd : x = i → w'.q.mem.data x = w.q.mem.data x) (hx : Outside keeping w a x u) :
    Outside keeping w' (a.apply e) x u := by
  have hout : ¬ Entered w'.q (a.apply e) x := fun h' => hx.1 ((hw.entered_iff hm he he').1 h')
  exact hx.step hout (h.passes hw hacc hm hd) fun hr => hout (hr.entered (hm.ok' hw.ok))

theorem Armed.waiting {g : Option (W × ℕ)} (h : Armed w a) (hw : Reached cfg w a) (hacc : Accepted w i)
    (hm : (semaphore willWake).Moves cfg a w i n w' e) (he' : e ≠ .create x)
    (hd : x = i → w'.q.mem.data x = w.q.mem.data x)
    (hlen : ∀ wk m, g = some (wk, m) → m ≤ w.shared.woken.length)
    (hx : Waiting keeping willWake (Released w) w a x g) :
    Waiting keeping willWake (Released w') w' (a.apply e) x g :=
  hx.step (hm.entered ⟨he', ne_reset hm⟩ hx.1) (fun hr => hr.step hw hacc hm he')
    (h.passes hw hacc hm hd) hlen

section mono

variable {g : Option (W × ℕ)} (hwt : Waiting keeping willWake (Released w) w a x g →
    Waiting keeping willWake (Released w') w' b x g)
  (hf : ∀ {u}, Outside keeping w a x u → Outside keeping w' b x u) (hen : Entered w.q a x → Entered w'.q b x)

include hf in
theorem Unwoken.mono (h : Unwoken w a x wk) : Unwoken w' b x wk := h.imp hf hf

include hf in
theorem FetchCont.Attended.mono {c : FetchCont W} (h : c.Attended w a x g) : c.Attended w' b x g := by
  cases c with
  | acquire k wk => exact h
  | retry k wk => exact ⟨h.1, h.2.mono hf⟩
  | _ => trivial

include hwt hf hen in
theorem FutPc.Attended.mono {p : FutPc W} (h : p.Attended willWake w a x g)
    (hv : (∃ wk st, p = .enqueued wk st) → w'.view x = w.view x) : p.Attended willWake w' b x g := by
  cases p with
  | node wk => exact h
  | fresh wk => exact ⟨h.1, hf h.2⟩
  | state wk => exact ⟨h.1, h.2.imp hen hf⟩
  | retry wk => exact ⟨h.1, h.2.mono hf⟩
  | failed wk st => exact ⟨h.1, h.2.mono hf⟩
  | stored wk st => exact ⟨h.1, hf h.2⟩
  | enqueued wk st => exact ⟨h.1, h.2.imp hwt fun h => ⟨hf h.1, by rw [hv ⟨_, _, rfl⟩]; exact h.2⟩⟩
  | queued wk b => exact ⟨h.1, hen h.2⟩
  | suspended => exact hwt h
  | refreshed e' =>
    cases e' with
    | none => exact hwt h
    | some e' => trivial
  | _ => trivial

end mono

/-- A step of another task. -/
theorem Pc.Attended.frame {g : Option (W × ℕ)} {p : Pc W} (h : p.Attended willWake w a x g) (harm : Armed w a)
    (hw : Reached cfg w a) (hacc : Accepted w i) (hm : (semaphore willWake).Moves cfg a w i n w' e)
    (hx : x ≠ i)
    (hlen : ∀ wk m, g = some (wk, m) → m ≤ w.shared.woken.length) :
    p.Attended willWake w' (a.apply e) x g := by
  obtain ⟨he, he'⟩ := hm.ne_own hx
  have hf : ∀ {u}, Outside keeping w a x u → Outside keeping w' (a.apply e) x u :=
    harm.fresh hw hacc hm he he' fun h' => absurd h' hx
  cases p with
  | fetch c => exact FetchCont.Attended.mono hf h
  | fut k p =>
    exact FutPc.Attended.mono (harm.waiting hw hacc hm he' (fun h' => absurd h' hx) hlen) hf
      (hw.entered_iff hm he he').2 h fun _ => hm.view_ne hx
  | _ => trivial

/-! ## Steps of the task itself -/

theorem AddOwner.attended_ret {g : Option (W × ℕ)} (o : AddOwner) (p : Bool) :
    (o.ret p : Pc W).Attended willWake w a i g := by
  cases o <;> trivial

theorem FetchCont.Attended.err {g : Option (W × ℕ)} {c : FetchCont W} (h : c.Attended w a i g)
    (st : Option ℕ) : (c.err st).Attended willWake w a i g := by
  cases c with
  | acquire k wk => exact h
  | retry k wk => exact h
  | tryAcquire k => trivial
  | forget m => cases st <;> trivial
  | add o again l p =>
    cases st <;> cases l
    · trivial
    · trivial
    · exact o.attended_ret true
    · trivial

theorem FetchCont.attended_ok {g : Option (W × ℕ)} (c : FetchCont W) (s : ℕ) :
    (c.ok s).Attended willWake w a i g := by
  cases c with
  | add o again l p =>
    cases l
    · exact o.attended_ret false
    · trivial
  | _ => trivial

theorem attended_fetch {g : Option (W × ℕ)} {c : FetchCont W} {s : Shared W} (h : c.Attended w a i g)
    (q : State ℕ (Waiter W)) : ((fetch j s c).pc e q).Attended willWake w a i g := by
  unfold fetch
  dsimp only
  split
  · exact h.err none
  · exact h

/-- A task that has no future has none that waits after the step. -/
theorem next_attended {g : Option (W × ℕ)} (hr : next willWake w j n = some r)
    (hne : ∀ k p, w.pc j ≠ .fut k p) (q : State ℕ (Waiter W)) :
    (r.pc e q).Attended willWake w' b i g := by
  unfold next at hr
  cases hp : w.pc j <;> simp only [hp, reduceCtorEq] at hr
  case idle r' =>
    unfold start permitNext at hr
    repeat' split at hr
    all_goals
      first
      | contradiction
      | obtain rfl := Option.some.inj hr
      | obtain ⟨m, -, rfl⟩ := Option.map_eq_some_iff.1 hr
    all_goals
      first
      | exact attended_fetch (by trivial) q
      | trivial
      | (split <;> trivial)
  case fut k p => exact absurd hp (hne k p)
  case add o p =>
    cases p <;> simp only [addNext] at hr
    all_goals repeat' split at hr
    all_goals first | contradiction | obtain rfl := Option.some.inj hr
    all_goals
      first
      | exact attended_fetch (by trivial) q
      | exact o.attended_ret _
      | trivial
  case close p =>
    obtain ⟨⟨p', h⟩ | h | h, -⟩ := closeNext_pc (e := e) hr q <;> rw [h] <;> trivial

/-- An instruction of the call of `try_enqueue_with_queue_state`. -/
theorem FutPc.Attended.enqueued_instr {g : Option (W × ℕ)} {st : Option ℕ}
    (h : (FutPc.enqueued wk st).Attended willWake w a i g) (harm : Armed w a) (hw : Reached cfg w a)
    (hacc : Accepted w i) (hm : (semaphore willWake).Moves cfg a w i n w' e)
    (hf : (FutPc.enqueued wk st).Fits i (w.view i))
    (hv : InstrStep i w.q.mem.queueState (w.view i) e (w'.view i)) (hd : w'.q.mem.data = w.q.mem.data)
    (hlen : ∀ wk m, g = some (wk, m) → m ≤ w.shared.woken.length) :
    (FutPc.enqueued wk st).Attended willWake w' (a.apply e) i g := by
  refine ⟨h.1, ?_⟩
  rcases h.2 with h' | ⟨h', hl, hi⟩
  · exact .inl (harm.waiting hw hacc hm hv.ne_create (fun _ => by rw [hd]) hlen h')
  · by_cases he : e = .enqueue i
    · subst he
      refine .inl ⟨.inl (by simp [Abs.Member, Abs.apply]), fun wk' m hg => ?_⟩
      refine .stored (.inl rfl) ?_
      rw [hd, h'.2, ← h.1, hg]
      rfl
    · refine .inr ⟨harm.fresh hw hacc hm he hv.ne_create (fun _ => by rw [hd]) h', ?_⟩
      rcases hf with hf | hf | hf | hf | hf <;> rw [hf] at hv hl hi <;>
        generalize w'.view i = v' at hv ⊢ <;> cases hv <;> simp_all

/-- Where a future goes on by itself. -/
theorem FutPc.Attended.own {g : Option (W × ℕ)} {p : FutPc W} (ha : p.Attended willWake w a i g)
    (hw : w.Ok cfg a) (hf : p.Fits i (w.view i)) (hrest : (w.view i).Rests)
    (hr : futNext willWake w i k p n = some r) (hk : r.call = none)
    (hwt : Waiting keeping willWake (Released w) w a i g → Waiting keeping willWake (Released w') w' b i g)
    (hfr : ∀ {u}, Outside keeping w a i u → Outside keeping w' b i u)
    (hen : Entered w.q a i → Entered w'.q b i) (q : State ℕ (Waiter W)) :
    polled (.fut k p) (r.pc e q) = none ∧ (r.pc e q).Attended willWake w' b i g := by
  have hown : (w.view i).own = (w.q.own i).op := rfl
  cases p <;> simp only [futNext] at hr
  case created =>
    cases n <;> simp only [reduceCtorEq] at hr <;> obtain rfl := Option.some.inj hr
    · simp [fetch] at hk
    · exact ⟨rfl, trivial⟩
  case suspended =>
    cases n <;> simp only [reduceCtorEq] at hr <;> obtain rfl := Option.some.inj hr
    · simp at hk
    · exact ⟨rfl, trivial⟩
  case state wk =>
    refine ⟨polled_of_ne (by simp) (by simp), ?_⟩
    have hv := Asked.rests hf hrest
    cases ho : w.q.own i <;> simp only [ho, reduceCtorEq] at hr <;> obtain rfl := Option.some.inj hr
    · have hout := hw.not_entered (hown.trans (by rw [ho]; rfl))
      exact ⟨ha.1, .inl (hfr (ha.2.resolve_left hout))⟩
    · trivial
    · have hop : (w.view i).op = some (.queued i) := by
        rcases hv with hv | hv | hv <;> rw [hv] at hown ⊢ <;> simp [ho, OwnPc.op] at hown
      exact ⟨ha.1, hen (.inl (hw.member_of_node hop rfl))⟩
  case enqueued wk st =>
    refine ⟨polled_of_ne (by simp) (by simp), ?_⟩
    have hv : w.view i = ⟨.unqueued, .idle, none⟩ ∨ w.view i = ⟨.idle, .idle, none⟩ := by
      rcases hf with hv | hv | hv | hv | hv
      · simpa [hv, OwnOp.runs] using hrest.own
      · simpa [hv, OwnOp.runs] using hrest.own
      · exact .inl hv
      · simpa [hv, OwnOp.runs] using hrest.own
      · exact .inr hv
    rcases hv with hv | hv
    · rw [show w.q.own i = .unqueued from OwnPc.op_eq_unqueued.1 (congrArg View.own hv)] at hr
      obtain rfl := Option.some.inj hr
      have hout := hw.not_entered (congrArg View.own hv)
      exact ⟨ha.1, .inr (hfr (ha.2.resolve_left fun h => hout h.1).1)⟩
    · rw [show w.q.own i = .idle from OwnPc.op_eq_idle.1 (congrArg View.own hv)] at hr
      obtain rfl := Option.some.inj hr
      exact hwt (ha.2.resolve_right fun h => h.2.2 (congrArg View.own hv))
  case queued wk b' =>
    refine ⟨polled_of_ne (by simp) (by simp), ?_⟩
    repeat' split at hr
    all_goals obtain rfl := Option.some.inj hr
    · trivial
    · trivial
    · simp at hk
  case removed e' acquired =>
    refine ⟨polled_of_ne (by simp) (by simp), ?_⟩
    repeat' split at hr
    all_goals
      obtain rfl := Option.some.inj hr
      trivial
  case dropping e' =>
    obtain rfl := Option.some.inj hr
    exact ⟨rfl, trivial⟩
  all_goals
    repeat' split at hr
    all_goals first | contradiction | obtain rfl := Option.some.inj hr
    all_goals simp [fetch] at hk

/-- The call of an operation of the queue by a future. -/
theorem FutPc.Attended.call {g : LastPolls W} {p : FutPc W} {c : Call ℕ (Waiter W)}
    (ha : p.Attended willWake w a i (g i)) (harm : Armed w a) (hw : Reached cfg w a) (hacc : Accepted w i)
    (hm : (semaphore willWake).Moves cfg a w i n w' e) (hp : w.pc i = .fut k p)
    (hr : futNext willWake w i k p n = some r) (hk : r.call = some c)
    (hs : TaskStep cfg a w i (c.act i) e w'.q)
    (hv : CallStep i w.q.mem.queueState (w.q.mem.rawState i) c (w.view i) e (w'.view i))
    (hp' : w'.pc i = r.pc e w'.q) (hlen : ∀ wk m, g i = some (wk, m) → m ≤ w.shared.woken.length) :
    (w'.pc i).Attended willWake w' (a.apply e) i (ask w w' i g i) := by
  have hf := hw.control i
  rw [hp] at hf
  have hcreate : (∀ v, c ≠ .create v) ∧ c ≠ .reset → e ≠ .create i := fun hc => (hv.ne_renewed hc).1
  have hfresh : (∀ v, c ≠ .create v) ∧ c ≠ .reset → c.setsData = false → ∀ {u}, Outside keeping w a i u →
      Outside keeping w' (a.apply e) i u := fun hc hd _ =>
    harm.fresh hw hacc hm hv.ne_enqueue (hcreate hc) fun _ => by rw [hs.data_of_call hd]
  have hent : (∀ v, c ≠ .create v) ∧ c ≠ .reset → (Entered w'.q (a.apply e) i ↔ Entered w.q a i) := fun hc =>
    hw.entered_iff hm hv.ne_enqueue (hcreate hc)
  have hask : (∀ k, w.pc i ≠ .fut k .created) → (∀ k, w.pc i ≠ .fut k .suspended) → ask w w' i g = g :=
    fun h₁ h₂ => ask_of_polled (polled_of_ne h₁ h₂)
  rw [hp] at hask
  rw [hp']
  cases p <;> simp only [futNext] at hr
  case created =>
    cases n <;> simp only [reduceCtorEq] at hr <;> obtain rfl := Option.some.inj hr
    · rename_i wk
      have hpol : polled (w.pc i) (w'.pc i) = some wk := by
        rw [hp, hp']
        unfold fetch
        dsimp only
        split <;> rfl
      exact attended_fetch (c := .acquire k wk) (ask_fst hpol) _
    · simp at hk
  case suspended =>
    cases n <;> simp only [reduceCtorEq] at hr <;> obtain rfl := Option.some.inj hr
    · obtain rfl := Option.some.inj hk
      exact ⟨ask_fst (by rw [hp, hp']; rfl), .inl ((hent (by simp)).2 ha.1)⟩
    · simp at hk
  case node wk =>
    obtain rfl := Option.some.inj hr
    obtain rfl := Option.some.inj hk
    obtain rfl := hv.create_event
    rw [hask (by simp) (by simp)]
    refine ⟨ha, hm.not_entered_of_create hw.ok, ?_⟩
    rw [hs.data_create, Function.update_self]
    rfl
  case fresh wk =>
    obtain rfl := Option.some.inj hr
    obtain rfl := Option.some.inj hk
    rw [hask (by simp) (by simp)]
    exact ⟨ha.1, .inr (hfresh (by simp) rfl ha.2)⟩
  case retry wk =>
    obtain rfl := Option.some.inj hr
    obtain rfl := Option.some.inj hk
    rw [hask (by simp) (by simp)]
    exact attended_fetch (c := .retry k wk) ⟨ha.1, ha.2.mono (hfresh (by simp) rfl)⟩ _
  case failed wk st =>
    split at hr <;> obtain rfl := Option.some.inj hr <;> obtain rfl := Option.some.inj hk
    · trivial
    · rw [hask (by simp) (by simp)]
      refine ⟨ha.1, fun h' => ?_, ?_⟩
      · rw [hent (by simp)] at h'
        exact ha.2.elim (fun h => h.1 h') fun h => h.1 h'
      · rw [hs.data_owner]
        rcases ha.2 with ⟨-, h⟩ | ⟨-, h⟩ <;>
          simp [Waiter.fill, keeping, show (w.q.mem.data i).waker = _ from h]
  case stored wk st =>
    obtain rfl := Option.some.inj hr
    obtain rfl := Option.some.inj hk
    rw [hask (by simp) (by simp)]
    refine ⟨ha.1, .inr ⟨hfresh (by simp) rfl ha.2, ?_⟩⟩
    generalize w.view i = v at hv
    generalize w'.view i = v' at hv
    cases hv
    simp
  case queued wk b' =>
    repeat' split at hr
    all_goals obtain rfl := Option.some.inj hr
    · simp at hk
    · simp at hk
    · obtain rfl := Option.some.inj hk
      rw [hask (by simp) (by simp)]
      refine ⟨(hent (by simp)).2 ha.2, fun wk' m hg => ?_⟩
      obtain rfl : wk' = wk := by simpa [hg] using ha.1
      obtain ⟨wk₀, hwk, hwakes⟩ := Waiter.refresh_wakes willWake wk' (w.q.mem.data i)
      refine .stored hwakes ?_
      have ho := congrArg View.op (show w.view i = ⟨.locked, .idle, some (.queued i)⟩ from hf)
      rw [hs.data_holder (x := i) (by rw [(World.op_of_view ho).2]; rfl)]
      exact hwk
  case refreshed e' =>
    cases e' with
    | none =>
      obtain rfl := Option.some.inj hr
      obtain rfl := Option.some.inj hk
      rw [hask (by simp) (by simp)]
      exact harm.waiting hw hacc hm (hcreate (by simp)) (fun _ => by rw [hs.data_of_call rfl]) hlen ha
    | some e' =>
      obtain rfl := Option.some.inj hr
      trivial
  all_goals
    repeat' split at hr
    all_goals first | contradiction | obtain rfl := Option.some.inj hr
    all_goals trivial

/-- The return of an operation of a task. -/
theorem Returns.attended {g : Option (W × ℕ)} {q : State ℕ (Waiter W)} {p p' : Pc W}
    (h : Returns w i q p e p') (ha : p.Attended willWake w' b i g) : p'.Attended willWake w' b i g := by
  cases h with
  | ok hs => exact FetchCont.attended_ok _ _
  | err hs => exact FetchCont.Attended.err ha _
  | _ => trivial

theorem Attended.step_self {g : LastPolls W} (h : Attended willWake w a g) (harm : Armed w a)
    (hw : Reached cfg w a) (hacc : Accepted w i) (hm : (semaphore willWake).Moves cfg a w i n w' e) :
    (w'.pc i).Attended willWake w' (a.apply e) i (ask w w' i g i) := by
  have ha := h.pc i
  have hf := hw.control i
  have hlen : ∀ wk m, g i = some (wk, m) → m ≤ w.shared.woken.length := fun _ _ => h.length
  have hwait : e ≠ .create i → w'.q.mem.data = w.q.mem.data →
      Waiting keeping willWake (Released w) w a i (g i) →
      Waiting keeping willWake (Released w') w' (a.apply e) i (g i) := fun he hd =>
    harm.waiting hw hacc hm he (fun _ => by rw [hd]) hlen
  have hfresh : e ≠ .enqueue i → e ≠ .create i → w'.q.mem.data = w.q.mem.data →
      ∀ {u}, Outside keeping w a i u → Outside keeping w' (a.apply e) i u := fun he he' hd _ =>
    harm.fresh hw hacc hm he he' fun _ => by rw [hd]
  cases hm.mover with
  | op hs hd hv hp' hg =>
    -- the node is enqueued at `enqueued` only
    have hin : (w.pc i).Attended willWake w' (a.apply e) i (g i) := by
      by_cases hpe : ∃ k wk st, w.pc i = .fut k (.enqueued wk st)
      · obtain ⟨k, wk, st, hp⟩ := hpe
        rw [hp] at ha hf ⊢
        exact FutPc.Attended.enqueued_instr ha harm hw hacc hm hf hv hd hlen
      have he : e ≠ .enqueue i := by
        rintro rfl
        obtain ⟨k, wk, st, hp, -⟩ := hw.enqueue hm
        exact hpe ⟨k, wk, st, hp⟩
      cases hp : w.pc i with
      | fetch c =>
        rw [hp] at ha
        exact FetchCont.Attended.mono (hfresh he hv.ne_create hd) ha
      | fut k p =>
        rw [hp] at ha
        refine FutPc.Attended.mono (hwait hv.ne_create hd) (hfresh he hv.ne_create hd)
          (hw.entered_iff hm he hv.ne_create).2 ha ?_
        rintro ⟨wk, st, rfl⟩
        exact absurd ⟨k, wk, st, hp⟩ hpe
      | _ => trivial
    rcases observe_pc w i e w'.q with ho | ho <;>
      rw [show (observe w i e w'.q).1 = _ from hp'.symm] at ho
    · rw [ask_of_polled (by rw [ho]; cases w.pc i <;> first | rfl | (rename_i p; cases p <;> rfl)), ho]
      exact hin
    · rw [ask_of_polled]
      · exact ho.attended hin
      · cases hp : w.pc i with
        | fut k p =>
          rw [hp] at ho
          generalize w'.pc i = p' at ho ⊢
          cases ho <;> rfl
        | _ => rfl
  | call hr hk hrest hs hv hp' hg =>
    cases hp : w.pc i with
    | fut k p =>
      rw [hp] at ha
      simp only [semaphore, next, hp] at hr
      exact FutPc.Attended.call ha harm hw hacc hm hp hr hk hs hv hp' hlen
    | _ =>
      rw [hp']
      refine next_attended hr (fun k p h => ?_) _
      cases hp.symm.trans h
  | own hr hk hrest hq hv hp' hg =>
    cases hp : w.pc i with
    | fut k p =>
      rw [hp] at ha hf
      simp only [semaphore, next, hp] at hr
      obtain ⟨hpol, hatt⟩ := ha.own (e := .tau) (q := w.q) hw.ok hf hrest hr hk
        (hwait (by simp) (by rw [hq])) (hfresh (by simp) (by simp) (by rw [hq]))
        (hw.entered_iff hm (by simp) (by simp)).2
      rw [ask_of_polled (by rw [hp, hp']; exact hpol), hp']
      exact hatt
    | _ =>
      rw [hp']
      refine next_attended hr (fun k p h => ?_) _
      cases hp.symm.trans h

theorem Attended.length_step {g : LastPolls W} (h : Attended willWake w a g) (harm : Armed w a)
    (hw : Reached cfg w a) (hacc : Accepted w i) (hm : (semaphore willWake).Moves cfg a w i n w' e)
    (hg : ask w w' i g x = some (wk, m)) : m ≤ w'.shared.woken.length := by
  have hle : w.shared.woken.length ≤ w'.shared.woken.length := by
    have harm' := harm.step hw hacc hm
    rcases wakers_cases hw hm (harm'.serving.failed i) (harm'.not_failed i) (harm.serving.failed i) with
      ⟨-, h⟩ | ⟨wk, -, h⟩ <;> simp [h]
  refine le_trans ?_ hle
  unfold ask at hg
  cases hpol : polled (w.pc i) (w'.pc i) with
  | none =>
    simp only [hpol] at hg
    exact h.length hg
  | some wk' =>
    simp only [hpol, Function.update_apply] at hg
    split at hg
    · obtain ⟨-, rfl⟩ := Prod.mk.inj (Option.some.inj hg)
      exact le_rfl
    · exact h.length hg

theorem Attended.step {g : LastPolls W} (h : Attended willWake w a g) (harm : Armed w a)
    (hw : Reached cfg w a) (hacc : Accepted w i) (hm : (semaphore willWake).Moves cfg a w i n w' e) :
    Attended willWake w' (a.apply e) (ask w w' i g) where
  pc := fun x => by
    by_cases hx : x = i
    · subst hx
      exact h.step_self harm hw hacc hm
    · rw [hm.pc_ne hx, ask_ne hx]
      exact (h.pc x).frame harm hw hacc hm hx fun _ _ => h.length
  length := h.length_step harm hw hacc hm

/-! ## Waiters that are in a list lack permits -/

/-- The waiter of a pending future that is in a list lacks permits, unless it has just been satisfied. -/
def Lacks (w : WorldOf W) (a : Abs ℕ) : Prop := ∀ x k p, w.pc x = .fut k p → p.pending = true → a.Member x →
  0 < k.request → 0 < (w.q.mem.data x).permitsRemaining ∨ ∃ j, Takes w j x

theorem Lacks.init (s : ℕ) : Lacks (init s : WorldOf W) (.init s) := fun x k p h => by cases h

/-- A pending future whose node is in a list has been pending. -/
theorem pending_of_member (hw : Reached cfg w a) (hm : (semaphore willWake).Moves cfg a w i n w' e)
    {p' : FutPc W} (hp : w'.pc i = .fut k p') (hpend : p'.pending = true) (hx : a.Member i) :
    ∃ p, w.pc i = .fut k p ∧ p.pending = true := by
  obtain ⟨k', p, hi, hpe⟩ : ∃ k' p, w.pc i = .fut k' p ∧ p.pending = true := by
    rcases pending_inv hw.control hm hp hpend with h | h | ⟨h, -⟩
    · exact h
    · exact absurd hx (hw.ok.not_member (by rw [h]; rfl))
    · exact absurd hx (hw.ok.not_member (by rw [h]; rfl))
  suffices hk : ∃ p, w.pc i = .fut k p by
    obtain ⟨p₂, hk⟩ := hk
    obtain ⟨rfl, rfl⟩ := Pc.fut.inj (hk.symm.trans hi)
    exact ⟨_, hi, hpe⟩
  have hnext : ∀ {r : InstrOf W} {q}, next willWake w i n = some r → r.pc e q = .fut k p' →
      ∃ p, w.pc i = .fut k p := fun hr hrp => by
    obtain ⟨p, hi, -⟩ := next_fut hr hrp (by rintro rfl; cases hpend) (by rintro e' rfl; cases hpend)
    exact ⟨p, hi⟩
  cases hm.mover with
  | op hs hd hv hp' hg =>
    rcases observe_pc w i e w'.q with ho | ho <;>
      rw [show (observe w i e w'.q).1 = _ from hp'.symm, hp] at ho
    · exact ⟨p', ho.symm⟩
    · rw [hi] at ho
      rcases ho.fut_inv with rfl | ⟨e', rfl⟩ | ⟨wk, rfl⟩ | ⟨wk, st, rfl, h⟩ | ⟨e', rfl⟩ | ⟨e', m, y, rfl, -⟩ <;>
        first | (cases hpend; done) | cases h
  | call hr hk hrest hs hv hp' hg => exact hnext hr (hp' ▸ hp)
  | own hr hk hrest hq hv hp' hg => exact hnext hr (hp' ▸ hp)

/-- A waiter lacks permits when its node is enqueued. -/
theorem Reached.lacks_of_enqueue (hw : Reached cfg w a)
    (hm : (semaphore willWake).Moves cfg a w i n w' (.enqueue i)) {p' : FutPc W} (hp : w'.pc i = .fut k p')
    (hpos : 0 < k.request) : 0 < (w'.q.mem.data i).permitsRemaining := by
  obtain ⟨k', wk, st, hi, -, hok, href, hrem⟩ := hw.enqueue hm
  have hk : k' = k := by
    cases hm.mover with
    | op hs hd hv hp' hg =>
      have hobs : w'.pc i = .fut k' (.enqueued wk st) := by
        rw [hp']
        simp [semaphore, observe, hi]
      exact (Pc.fut.inj (hobs.symm.trans hp)).1
    | call hr hk hrest hs hv hp' hg => exact absurd rfl hv.ne_enqueue
  subst hk
  rw [hrem]
  refine Nat.sub_pos_of_lt ?_
  cases st with
  | none => exact hpos
  | some s =>
    rw [permitsOf_some]
    exact (Nat.mod_le ..).trans_lt (href.lt hok)

theorem Lacks.step (h : Lacks w a) (harm : Armed w a) (hw : Reached cfg w a) (hacc : Accepted w i)
    (hm : (semaphore willWake).Moves cfg a w i n w' e) : Lacks w' (a.apply e) := by
  intro x k p' hp hpend hx' hpos
  rcases hm.member hx' with hx | ⟨rfl, rfl, -⟩
  · obtain ⟨p, hpx, hpe⟩ : ∃ p, w.pc x = .fut k p ∧ p.pending = true := by
      by_cases hxi : x = i
      · subst hxi
        exact pending_of_member hw hm hp hpend hx
      · exact ⟨p', hm.pc_ne hxi ▸ hp, hpend⟩
    rcases h x k p hpx hpe hx hpos with h | ⟨j, hj⟩
    · cases hw.data_goes hm x with
      | same hd => exact .inl (by rwa [hd])
      | reduce p hlt hd => exact .inl (by rw [hd]; exact Nat.sub_pos_of_lt hlt)
      | take ht => exact .inr ⟨i, ht⟩
      | unwrap o hp => exact absurd hp ((harm.serving.step hw hacc hm).failed i _ _)
      | out hxi ho => exact absurd hx (hw.ok.not_member (hxi ▸ ho))
      | refresh hxi hi hd =>
        left
        rw [hd]
        unfold Waiter.refresh
        split <;> exact h
    · exact .inr (hj.step hw hacc hm hx hx')
  · exact .inl (hw.lacks_of_enqueue hm hp hpos)

/-! ## Every run -/

variable {permits s : ℕ} {ls : List (TaskId × Bool × Input W)} {u u' : (WorldOf W × Abs ℕ) × LastPolls W}

/-- A step of a semaphore that `Accepts`, with what the polls are made with. -/
def Asks (willWake : W → W → Bool) (cfg : Config) (u : (WorldOf W × Abs ℕ) × LastPolls W)
    (l : TaskId × Bool × Input W) (u' : (WorldOf W × Abs ℕ) × LastPolls W) : Prop :=
  Accepts willWake cfg u.1 l u'.1 ∧ u'.2 = ask u.1.1 u'.1.1 l.1 u.2

/-- The task is in a call of `add_permits` or of `close`. -/
def Pc.calls : Pc W → Bool
  | .add _ _ | .fetch (.add _ _ _ _) | .close _ => true
  | _ => false

theorem Pc.wakers_of_calls {p : Pc W} (h : p.calls = false) : p.wakers = [] := by
  cases p <;> first | rfl | cases h

theorem Pc.takes_of_calls {p : Pc W} (h : p.calls = false) : p.takes = false := by
  cases p <;> first | rfl | cases h

/-- The lock is held for another future, unless a call is under way. -/
theorem Reached.leaving_ne (hw : Reached cfg w a) (hn : ∀ j, (w.pc j).calls = false)
    (hp : w.pc i = .fut k .suspended) : w.q.leaving ≠ some i := by
  intro hl
  obtain ⟨h, hh, hl⟩ := Option.bind_eq_some_iff.1 hl
  obtain ⟨j, hj⟩ := hw.ok.view_of_op (show w.q.op = some h.op by simp [State.op, hh])
  have hop := HolderPc.op_of_leaving hl
  have hf := hw.control j
  have hnj := hn j
  cases hpc : w.pc j with
  | idle r =>
    rw [hpc] at hf
    rw [show w.view j = _ from hf] at hj
    cases hj
  | fetch c =>
    rw [hpc] at hf hnj
    obtain ⟨m, s, hv⟩ := hf
    rw [hv] at hj
    cases c <;> first | cases hj | cases hnj
  | fut k' p =>
    rw [hpc] at hf
    have hij : i = j ∧ p ≠ .suspended := by
      cases p <;> simp only [Pc.Fits, FutPc.Fits, Asked] at hf <;> grind
    obtain ⟨rfl, hp'⟩ := hij
    exact hp' (Pc.fut.inj (hpc.symm.trans hp)).2
  | add o p =>
    rw [hpc] at hnj
    cases hnj
  | close p =>
    rw [hpc] at hnj
    cases hnj

/-- What holds in every state of a run of `Asks`. -/
structure Watched (willWake : W → W → Bool) (cfg : Config) (w : WorldOf W) (a : Abs ℕ) (g : LastPolls W) :
    Prop where
  reached : Reached cfg w a
  armed : Armed w a
  attended : Attended willWake w a g
  lacks : Lacks w a
  given : Given w a
  settled : Settled w a
  drains : DrainsOk (Pc.forEach? : Pc W → Option (ForEachPc W)) w a
  emptied : Emptied w

theorem Watched.init (hs : newState permits = some s) :
    Watched willWake cfg (init s : WorldOf W) (.init s) fun _ => none where
  reached := Reached.init hs
  armed := Armed.init s
  attended := Attended.init s
  lacks := Lacks.init s
  given := Given.init s
  settled := Settled.init s
  drains := drainsOk_init s
  emptied := Emptied.init s

theorem Watched.step {g : LastPolls W} (h : Watched willWake cfg w a g) (hacc : Accepted w i)
    (hm : (semaphore willWake).Moves cfg a w i n w' e) :
    Watched willWake cfg w' (a.apply e) (ask w w' i g) where
  reached := h.reached.step hm
  armed := h.armed.step h.reached hacc hm
  attended := h.attended.step h.armed h.reached hacc hm
  lacks := h.lacks.step h.armed h.reached hacc hm
  given := h.given.step h.reached hm
  settled := h.settled.step h.given h.reached h.armed.serving.closing hm
  drains := h.armed.drains_step h.drains h.reached hacc hm
  emptied := h.emptied.step h.armed h.drains h.reached hm

theorem asks_watched (hs : newState permits = some s)
    (h : Lts.Run (Asks willWake cfg) ((init s, .init s), fun _ => none) ls u) :
    Watched willWake cfg u.1.1 u.1.2 u.2 := by
  refine Lts.Run.prefixed (P := fun _ u => Watched willWake cfg u.1.1 u.1.2 u.2) h (Watched.init hs) ?_
  rintro - l u₁ u₂ - ⟨⟨hl, hacc⟩, hg⟩ hu
  obtain ⟨e, hm, ha⟩ := hl.moves hu.reached.ok
  rw [ha, hg]
  exact hu.step hacc hm

/-- **Waiters are woken.** In every run in which `try_set_queue_state` accepts the states that it is called
with, when no call of `add_permits` or of `close` is under way, an `Acquire` that is pending has its node in
the queue, with the waker of its last poll or one that wakes the same task, and lacks permits; or its node
has been dequeued, it has all its permits or the semaphore is closed, and such a waker has been called since
that poll started. -/
theorem acquire_woken (hs : newState permits = some s)
    (h : Lts.Run (Asks willWake cfg) ((init s, .init s), fun _ => none) ls u)
    (hn : ∀ j, (u.1.1.pc j).calls = false) (hp : u.1.1.pc i = .fut k .suspended)
    (hg : u.2 i = some (wk, m)) :
    ∃ wk₀, WakesFor willWake wk₀ wk ∧
      if u.1.1.q.mem.rawState i = .queued then
        (u.1.1.q.mem.data i).waker = some wk₀ ∧ (0 < k.request → 0 < (u.1.1.q.mem.data i).permitsRemaining)
      else ((u.1.1.q.mem.data i).permitsRemaining = 0 ∨ isClosed u.1.1.q = true) ∧
        ∃ l, m ≤ l ∧ u.1.1.shared.woken[l]? = some wk₀ := by
  have hu := asks_watched hs h
  have hatt := hu.attended.pc i
  rw [hp] at hatt
  obtain ⟨hent, hd⟩ := hatt
  have hnot : ∀ j, ¬ Takes u.1.1 j i := fun j ht => by
    have := ht.1
    rw [Pc.takes_of_calls (hn j)] at this
    cases this
  have hraw : Marked u.1.1.q i ↔ u.1.1.q.mem.rawState i ≠ .queued := by
    constructor
    · intro hmk
      have hdeq := Ptr.state_eq_dequeued.2 (hmk.resolve_left (hu.reached.leaving_ne hn hp)).1
      simp [Mem.rawState, hdeq]
    · intro hr
      exact hent.resolve_left (out_iff.1 (hu.reached.ok.inv.out_of_rawState hr)).1
  have hserved : u.1.1.q.mem.rawState i ≠ .queued →
      (u.1.1.q.mem.data i).permitsRemaining = 0 ∨ isClosed u.1.1.q = true := fun hr =>
    (hu.settled i ⟨k, _, hp, rfl, hraw.2 hr⟩).imp_right fun hsh => hu.reached.shut_iff.2 hsh
  cases hd wk m hg with
  | @stored wk₀ hwk h =>
    have hr : u.1.1.q.mem.rawState i = .queued := by
      by_contra hr
      simp [keeping, hu.emptied i k _ hp rfl (.inl (hraw.2 hr))] at h
    refine ⟨wk₀, hwk, ?_⟩
    rw [if_pos hr]
    refine ⟨h, fun hpos => ?_⟩
    have hmem : u.1.2.Member i := hent.resolve_right fun hmk => hraw.1 hmk hr
    refine (hu.lacks i k _ hp rfl hmem hpos).resolve_right ?_
    rintro ⟨j, ht⟩
    exact hnot j ht
  | taken hwk hrel j h => simp [keeping, Pc.wakers_of_calls (hn j)] at h
  | @called wk₀ hwk hrel l hl h =>
    have hr : u.1.1.q.mem.rawState i ≠ .queued := by
      refine hraw.1 (hrel.resolve_right ?_)
      rintro ⟨j, ht⟩
      exact hnot j ht
    refine ⟨wk₀, hwk, ?_⟩
    rw [if_neg hr]
    exact ⟨hserved hr, l, hl, h⟩

/-- What the polls are made with in the steps `ls`. -/
def polls (willWake : W → W → Bool) (cfg : Config) :
    WorldOf W × Abs ℕ → LastPolls W → List (TaskId × Bool × Input W) → LastPolls W
  | _, g, [] => g
  | u, g, l :: ls =>
    let u' := (semaphore willWake).followed cfg (fun _ => True) u [l]
    polls willWake cfg u' (ask u.1 u'.1 l.1 g) ls

theorem run_asks {v v' : WorldOf W × Abs ℕ} {g : LastPolls W} (h : Lts.Run (Accepts willWake cfg) v ls v') :
    Lts.Run (Asks willWake cfg) (v, g) ls (v', polls willWake cfg v g ls) := by
  induction ls generalizing v g with
  | nil =>
    obtain rfl := h.nil_inv
    exact .nil
  | cons l ls ih =>
    obtain ⟨v₁, hl, h⟩ := h.cons_inv
    have hv : (semaphore willWake).followed cfg (fun _ => True) v [l] = v₁ := by
      obtain ⟨⟨hs, he⟩, -⟩ := hl
      obtain ⟨e, he, ha⟩ := Option.map_eq_some_iff.1 he
      simp [Client.followed, Client.follow, hs, he, ha]
    rw [polls, hv]
    exact .cons ⟨hl, rfl⟩ (ih h)

/-- The waker of the task 0 has been called. -/
theorem acquire_woken_servedActs :
    let u := (semaphore fun _ _ => true).followed ⟨.x86, 0⟩ TwoAccepted (init 0, .init 0) servedActs
    u.1.pc 0 = .fut ⟨false, 1⟩ .suspended ∧
      ∃ wk₀ : ℕ, WakesFor (fun _ _ => true) wk₀ 7 ∧
        if u.1.q.mem.rawState 0 = .queued then
          (u.1.q.mem.data 0).waker = some wk₀ ∧ (0 < 1 → 0 < (u.1.q.mem.data 0).permitsRemaining)
        else ((u.1.q.mem.data 0).permitsRemaining = 0 ∨ isClosed u.1.q = true) ∧
          ∃ l, 0 ≤ l ∧ u.1.shared.woken[l]? = some wk₀ := by
  intro u
  have h : ((semaphore fun _ _ => true).follow ⟨.x86, 0⟩ TwoAccepted (init 0, .init 0) servedActs).isSome := by
    decide +kernel
  have hs : newState 0 = some 0 := by decide
  have hrun : Lts.Run (Accepts (fun _ _ => true) ⟨.x86, 0⟩) (init 0, .init 0) servedActs u :=
    accepts_followed h ⟨rfl, rfl⟩ (by decide)
  have hp : u.1.pc 0 = .fut ⟨false, 1⟩ .suspended := rfl
  have hp' : u.1.pc 1 = .idle .ok := rfl
  have hg : polls (fun _ _ => true) ⟨.x86, 0⟩ (init 0, .init 0) (fun _ => none) servedActs 0 = some (7, 0) := by
    decide +kernel
  have hruns : (semaphore fun _ _ => true).Runs ⟨.x86, 0⟩ (init 0) servedActs u.1 :=
    hrun.map Prod.fst fun _ _ _ h => h.1.1
  have hasks := run_asks (g := fun _ => none) hrun
  clear_value u
  generalize polls (fun _ _ => true) ⟨.x86, 0⟩ (init 0, .init 0) (fun _ => none) servedActs = g at hg hasks
  refine ⟨hp, acquire_woken hs hasks (fun j => ?_) hp hg⟩
  by_cases h₀ : j = 0
  · rw [h₀, hp]
    rfl
  by_cases h₁ : j = 1
  · rw [h₁, hp']
    rfl
  · have hacts : ∀ l ∈ servedActs, l.1 = 0 ∨ l.1 = 1 := by decide
    rw [hruns.pc_ne fun l hl hj => (hacts l hl).elim (fun h => h₀ (hj.trans h)) fun h => h₁ (hj.trans h)]
    rfl

end Aiq.Semaphore
