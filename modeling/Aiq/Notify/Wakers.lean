import Aiq.Notify.Reached
import Aiq.Task.Wakers

/-!
# Wakers are called

A future that waits has stored the waker of its last poll, or one that wakes the same task, in its node
(`Attended`). A call that notifies the node takes the waker in the same step, and has it until it calls it
(`Reached.passes`). So when no call is under way, a future that waits is in the queue with its waker, or its
waker has been called (`waker_called`).
-/

namespace Aiq.Notify

variable {W : Type} {willWake : W → W → Bool} {cfg : Config} {a : Abs ℕ} {w w' : WorldOf W}
  {i j : TaskId} {e : Event ℕ} {n : Input W} {x : NodeId} {p p' : Pc W} {k : Notification} {f : Inner}
  {wk : W} {m : ℕ} {v : View ℕ}

/-! ## Wakers of nodes -/

/-- Where the wakers are. -/
def keeping : Keeping (Waiter W) (Pc W) (Shared W) W := ⟨Waiter.waker, Pc.wakers, Shared.woken⟩

theorem Waiter.refresh_wakes (willWake : W → W → Bool) (wk : W) (v : Waiter W) :
    ∃ wk₀, (Waiter.refresh willWake wk v).waker = some wk₀ ∧ WakesFor willWake wk₀ wk := by
  unfold Waiter.refresh
  split
  · exact ⟨wk, rfl, .inl rfl⟩
  · rename_i h
    cases hv : v.waker with
    | none => simp [hv] at h
    | some wk₀ => exact ⟨wk₀, rfl, .inr (by simpa [hv] using h)⟩

/-- The node has been removed with a notification, or a call has it in hand and has notified it. -/
def Given (w : WorldOf W) (x : NodeId) : Prop := Marked w.q x ∨ ∃ j k, Marks w j x k

/-- A call keeps the node in hand that it has notified until it has removed it. -/
theorem Goes.marks_keep (h : Goes willWake w w' i p e p') (hf : p.Fits i (w.view i)) (hp : w.pc i = p)
    (hp' : w'.pc i = p') (hk : Marks w i x k) : Marks w' i x k ∨ e.Removes x ∨ e.Dequeues x := by
  obtain ⟨hk, hx⟩ := hk
  rw [hp] at hk
  cases h with
  | instr p e hv hs =>
    obtain ⟨hown, hupd, -⟩ := hf.mark_view hk
    exact (hv.target hown hupd hx).imp_left fun h => ⟨hp' ▸ hk, h⟩
  | set o k' wk y hv hv' hs =>
    rw [hv] at hx
    exact .inl ⟨by rw [hp']; exact hk, by rw [hv']; exact hx⟩
  | unlock o k' wk hv hs =>
    rw [hv] at hx
    cases hx
  | dropNode d ws b hv hv' hs =>
    refine .inl ⟨by rw [hp']; exact hk, ?_⟩
    rw [hv] at hx
    rw [hv']
    cases b <;> exact hx
  | forEach p₀ p₁ e hp₁ hr hd hg hs hl hw hn =>
    exfalso
    unfold Pc.mark at hk
    split at hk
    case h_3 heq =>
      cases heq
      exact hn _ _ rfl
    case h_4 heq =>
      cases heq
      obtain ⟨-, -, ⟨b, ho⟩ | ho⟩ := hf
      · have := hr.op ho
        cases this
      · rw [ho] at hx
        cases hx
    all_goals simp_all
  | _ => cases hk

theorem Reached.entered_iff (hw : Reached cfg w a) (hm : (notify willWake).Moves cfg a w i n w' e)
    (he : e ≠ .enqueue x) (he' : e ≠ .create x) : Entered w'.q (a.apply e) x ↔ Entered w.q a x := by
  refine hm.entered_iff hw.ok he ⟨he', ?_⟩
  rintro rfl
  obtain ⟨r, hr, hk⟩ := hm.reset_inv
  exact next_ne_reset hr hk

theorem Given.step (h : Given w x) (hw : Reached cfg w a) (hm : (notify willWake).Moves cfg a w i n w' e)
    (he : e ≠ .create x) : Given w' x := by
  rcases h with h | ⟨j, k, h⟩
  · refine .inl (hm.marked ⟨he, ?_⟩ h)
    rintro rfl
    obtain ⟨r, hr, hk⟩ := hm.reset_inv
    exact next_ne_reset hr hk
  · by_cases hj : j = i
    · subst hj
      rcases (hw.control.goes hm).1.marks_keep (hw.control j) rfl rfl h with h | h
      · exact .inr ⟨j, k, h⟩
      · exact .inl (hm.marked_of_removes h)
    · exact .inr ⟨j, k, by rw [hm.pc_ne hj]; exact h.1, by rw [hm.view_ne hj]; exact h.2⟩

/-- A step that does not make the node passes its waker on. -/
theorem Reached.passes (hw : Reached cfg w a) (hm : (notify willWake).Moves cfg a w i n w' e)
    (hd : x = i → w'.q.mem.data x = w.q.mem.data x) : Passes keeping (Given w') w w' i x where
  data := by
    rcases (hw.control.goes hm).1.data (hw.control i) rfl x with hd' | ⟨hxi, -⟩ | ⟨k, -, hk, hwk⟩
    · exact .inl (congrArg Waiter.waker hd')
    · exact .inl (congrArg Waiter.waker (hd hxi))
    · exact .inr ⟨.inr ⟨i, k, hk⟩, hwk⟩
  taken := (hw.control.goes hm).1.wakers
  others := fun _ => hm.pc_ne

/-! ## Polls -/

/-- The last polls of the futures after a step. -/
def ask (w w' : WorldOf W) (i : TaskId) (g : LastPolls W) : LastPolls W :=
  match w.pc i, w'.pc i with
  | .fut _ (.idle _), .fut _ (.state (some wk)) =>
    Function.update g i (some (wk, w.shared.woken.length))
  | _, .fut _ (.idle .never) => Function.update g i none
  | _, _ => g

/-- Where the waker is of a future that has not completed, at its control states until it returns. -/
def FutPc.Attended (willWake : W → W → Bool) (w : WorldOf W) (a : Abs ℕ) (i : TaskId) (g : Option (W × ℕ)) :
    FutPc W → Prop
  | .idle .never => g = none ∧ Outside keeping w a i none
  | .idle .pending | .refreshed => Waiting keeping willWake (Given w) w a i g
  | .idle .ready => False
  | .state (some wk) => (∃ m, g = some (wk, m)) ∧ (Entered w.q a i ∨ Outside keeping w a i none)
  | .state none => Waiting keeping willWake (Given w) w a i g ∨ g = none ∧ Outside keeping w a i none
  | .load cx | .fetch cx | .fetching cx | .failed cx _ =>
    g.map Prod.fst = cx ∧ (Outside keeping w a i none ∨ Outside keeping w a i cx)
  | .stored cx _ => g.map Prod.fst = cx ∧ Outside keeping w a i cx
  | .enqueued cx _ => g.map Prod.fst = cx ∧ (Waiting keeping willWake (Given w) w a i g ∨
      Outside keeping w a i cx ∧ (w.view i).own ≠ .linking ∧ (w.view i).own ≠ .idle)
  | .refresh wk => (∃ m, g = some (wk, m)) ∧ Entered w.q a i
  | _ => True

/-- See `FutPc.Attended`. -/
def Pc.Attended (willWake : W → W → Bool) (w : WorldOf W) (a : Abs ℕ) (i : TaskId) (g : Option (W × ℕ)) :
    Pc W → Prop
  | .created => Outside keeping w a i none
  | .fut f p => f.completed = false → p.Attended willWake w a i g
  | _ => True

/-- Every future that has not completed is attended to. -/
structure Attended (willWake : W → W → Bool) (w : WorldOf W) (a : Abs ℕ) (g : LastPolls W) : Prop where
  pc : ∀ i, (w.pc i).Attended willWake w a i (g i)
  length : ∀ {i wk m}, g i = some (wk, m) → m ≤ w.shared.woken.length

/-! ## Steps of other tasks -/

theorem Given.entered (h : Given w x) (hw : w.Ok cfg a) : Entered w.q a x := by
  rcases h with h | ⟨j, k, hk⟩
  · exact .inr h
  · exact hw.entered_of_target hk.2

theorem Reached.fresh {o : Option W} (hw : Reached cfg w a) (hm : (notify willWake).Moves cfg a w i n w' e)
    (he : e ≠ .enqueue x) (he' : e ≠ .create x) (hd : x = i → w'.q.mem.data x = w.q.mem.data x)
    (h : Outside keeping w a x o) : Outside keeping w' (a.apply e) x o := by
  have hout : ¬ Entered w'.q (a.apply e) x := fun h' => h.1 ((hw.entered_iff hm he he').1 h')
  exact h.step hout (hw.passes hm hd) fun hg => hout (hg.entered (hm.ok' hw.ok))

theorem Reached.waiting {g : Option (W × ℕ)} (hw : Reached cfg w a)
    (hm : (notify willWake).Moves cfg a w i n w' e) (he' : e ≠ .create x)
    (hd : x = i → w'.q.mem.data x = w.q.mem.data x)
    (hlen : ∀ wk m, g = some (wk, m) → m ≤ w.shared.woken.length)
    (h : Waiting keeping willWake (Given w) w a x g) :
    Waiting keeping willWake (Given w') w' (a.apply e) x g := by
  refine h.step (hm.entered ⟨he', ?_⟩ h.1) (fun hg => hg.step hw hm he') (hw.passes hm hd) hlen
  rintro rfl
  obtain ⟨r, hr, hk⟩ := hm.reset_inv
  exact next_ne_reset hr hk

theorem FutPc.Attended.mono {g : Option (W × ℕ)} {b : Abs ℕ} {p : FutPc W} (h : p.Attended willWake w a x g)
    (hwt : Waiting keeping willWake (Given w) w a x g → Waiting keeping willWake (Given w') w' b x g)
    (hf : ∀ {o}, Outside keeping w a x o → Outside keeping w' b x o)
    (hen : Entered w.q a x → Entered w'.q b x)
    (hv : (∃ cx st, p = .enqueued cx st) → w'.view x = w.view x) : p.Attended willWake w' b x g := by
  cases p with
  | idle r =>
    cases r with
    | never => exact ⟨h.1, hf h.2⟩
    | pending => exact hwt h
    | ready => exact h
  | state cx =>
    cases cx with
    | none => exact h.imp hwt fun h => ⟨h.1, hf h.2⟩
    | some wk => exact ⟨h.1, h.2.imp hen hf⟩
  | load cx => exact ⟨h.1, h.2.imp hf hf⟩
  | fetch cx => exact ⟨h.1, h.2.imp hf hf⟩
  | fetching cx => exact ⟨h.1, h.2.imp hf hf⟩
  | failed cx st => exact ⟨h.1, h.2.imp hf hf⟩
  | stored cx st => exact ⟨h.1, hf h.2⟩
  | enqueued cx st => exact ⟨h.1, h.2.imp hwt fun h => ⟨hf h.1, by rw [hv ⟨_, _, rfl⟩]; exact h.2⟩⟩
  | refresh wk => exact ⟨h.1, hen h.2⟩
  | refreshed => exact hwt h
  | _ => trivial

/-- A step of another task. -/
theorem Pc.Attended.frame {g : Option (W × ℕ)} {p : Pc W} (h : p.Attended willWake w a x g)
    (hw : Reached cfg w a) (hm : (notify willWake).Moves cfg a w i n w' e) (hx : x ≠ i)
    (hlen : ∀ wk m, g = some (wk, m) → m ≤ w.shared.woken.length) :
    p.Attended willWake w' (a.apply e) x g := by
  obtain ⟨he, he'⟩ := hm.ne_own hx
  have hf : ∀ {o}, Outside keeping w a x o → Outside keeping w' (a.apply e) x o :=
    hw.fresh hm he he' fun h' => absurd h' hx
  cases p with
  | created => exact hf h
  | fut f p =>
    exact fun hc => (h hc).mono (hw.waiting hm he' (fun h' => absurd h' hx) hlen) hf
      (hw.entered_iff hm he he').2 fun _ => hm.view_ne hx
  | _ => trivial

/-! ## Steps of the task itself -/

theorem Cause.attended_ret {g : Option (W × ℕ)} (c : Cause) :
    (c.ret f : Pc W).Attended willWake w a i g := by
  cases c with
  | poll => exact fun h => by cases h
  | drop => exact fun _ => trivial

theorem Origin.attended_ret {g : Option (W × ℕ)} (o : Origin) :
    (o.ret : Pc W).Attended willWake w a i g := by
  cases o with
  | user => trivial
  | cancel f c => exact c.attended_ret

theorem ask_of_ne {g : LastPolls W} (h : ∀ f r, w.pc i ≠ .fut f (.idle r))
    (h' : ∀ f, w'.pc i ≠ .fut f (.idle .never)) :
    ask w w' i g = g := by
  unfold ask
  split
  · exact absurd ‹_› (h _ _)
  · exact absurd ‹_› (h' _)
  · rfl

/-- Where the future goes on by itself. -/
theorem FutGoes.attended {g : Option (W × ℕ)} {p p' : FutPc W} (h : FutGoes w i f p p')
    (ha : p.Attended willWake w a i g) (hw : w.Ok cfg a)
    (hwt : Waiting keeping willWake (Given w) w a i g → Waiting keeping willWake (Given w') w' a i g)
    (hf : ∀ {o}, Outside keeping w a i o → Outside keeping w' a i o)
    (hen : Entered w.q a i → Entered w'.q a i) :
    p'.Attended willWake w' a i g := by
  have hout : ∀ {u o}, w.view i = ⟨.unqueued, u, o⟩ → ¬ Entered w.q a i := fun hv =>
    hw.not_entered (by rw [hv])
  have hin : ∀ {o}, w.view i = ⟨.locked, .idle, some (.queued i)⟩ → ¬ Outside keeping w a i o := by
    intro o hv h
    refine h.1 (.inl ?_)
    obtain ⟨-, l, hl⟩ := hw.inv.holder (State.mutex_of_op_queued (World.op_of_view (congrArg View.op hv)).2)
    exact member_iff.2 ⟨l, hl⟩
  cases h with
  | unqueued cx hv =>
    cases cx with
    | none =>
      rcases ha with ha | ⟨hg, ha⟩
      · exact absurd ha.1 (hout hv)
      · exact ⟨by rw [hg]; rfl, .inl (hf ha)⟩
    | some wk =>
      obtain ⟨⟨m, hg⟩, ha⟩ := ha
      exact ⟨by rw [hg]; rfl, .inl (hf (ha.resolve_left (hout hv)))⟩
  | stale cx hv hg => trivial
  | refresh wk hv hg => exact ⟨ha.1, hen (ha.2.resolve_right (hin hv))⟩
  | refreshed hv hg => exact hwt (ha.resolve_right fun h => hin hv h.2)
  | fetch cx hg => exact ⟨ha.1, ha.2.imp hf hf⟩
  | stored st => exact ⟨ha.1, hf (ha.2.elim id id)⟩
  | again cx st hv =>
    exact ⟨ha.1, .inr (hf (ha.2.resolve_left fun h => hout hv h.1).1)⟩
  | late cx st hv hg => trivial
  | pending cx st hv hg =>
    refine hwt (ha.2.resolve_right fun h => h.2.2 ?_)
    rw [hv]
  | drop r hc => trivial
  | dropCompleted r hc => trivial

/-- An instruction of the call of `try_enqueue_with_queue_state`. -/
theorem FutPc.Attended.enqueued_instr {g : Option (W × ℕ)} {cx : Option W} {st : Option ℕ}
    (h : (FutPc.enqueued cx st).Attended willWake w a i g) (hw : Reached cfg w a)
    (hm : (notify willWake).Moves cfg a w i n w' e) (hf : (w.view i).Entering (.ofBool (· = st)))
    (hv : InstrStep i w.q.mem.queueState (w.view i) e (w'.view i)) (hd : w'.q.mem.data = w.q.mem.data)
    (hlen : ∀ wk m, g = some (wk, m) → m ≤ w.shared.woken.length) :
    (FutPc.enqueued cx st).Attended willWake w' (a.apply e) i g := by
  have hcreate : e ≠ .create i := by
    rintro rfl
    rcases hf with hf | hf | hf | hf | hf <;> rw [hf] at hv <;> generalize w'.view i = v' at hv <;>
      cases hv
  refine ⟨h.1, ?_⟩
  rcases h.2 with h' | ⟨h', hl, hi⟩
  · exact .inl (hw.waiting hm hcreate (fun _ => by rw [hd]) hlen h')
  · by_cases he : e = .enqueue i
    · subst he
      refine .inl ⟨.inl (by simp [Abs.Member, Abs.apply]), fun wk m hg => ?_⟩
      refine .stored (.inl rfl) ?_
      rw [hd, h'.2, ← h.1, hg]
      rfl
    · refine .inr ⟨hw.fresh hm he hcreate (fun _ => by rw [hd]) h', ?_⟩
      rcases hf with hf | hf | hf | hf | hf <;> rw [hf] at hv hl hi <;> generalize w'.view i = v' at hv ⊢ <;>
        cases hv <;> simp_all

theorem Attended.step_self {g : LastPolls W} (h : Attended willWake w a g) (hw : Reached cfg w a)
    (hm : (notify willWake).Moves cfg a w i n w' e) :
    (w'.pc i).Attended willWake w' (a.apply e) i (ask w w' i g i) := by
  have hgo := (hw.control.goes hm).1
  have ha := h.pc i
  have hfit := hw.control i
  have hlen : ∀ wk m, g i = some (wk, m) → m ≤ w.shared.woken.length := fun _ _ => h.length
  have hwait : e ≠ .create i → w'.q.mem.data = w.q.mem.data → Waiting keeping willWake (Given w) w a i (g i) →
      Waiting keeping willWake (Given w') w' (a.apply e) i (g i) := fun he hd =>
    hw.waiting hm he (fun _ => by rw [hd]) hlen
  have hfresh : e ≠ .enqueue i → e ≠ .create i → w'.q.mem.data = w.q.mem.data →
      ∀ {o}, Outside keeping w a i o → Outside keeping w' (a.apply e) i o := fun he he' hd _ =>
    hw.fresh hm he he' fun _ => by rw [hd]
  have hent : e ≠ .enqueue i → e ≠ .create i → (Entered w'.q (a.apply e) i ↔ Entered w.q a i) := fun he he' =>
    hw.entered_iff hm he he'
  have hnew : e = .create i → w'.q.mem.data i = .default → Outside keeping w' (a.apply e) i none := by
    rintro rfl hd
    exact ⟨hm.not_entered_of_create hw.ok, by rw [hd]; rfl⟩
  generalize hp : w.pc i = p at hgo ha hfit
  generalize hp' : w'.pc i = p' at hgo
  have hask : (∀ f r, p ≠ .fut f (.idle r)) → (∀ f, p' ≠ .fut f (.idle .never)) → ask w w' i g i = g i :=
    fun h₁ h₂ => by rw [ask_of_ne (hp ▸ h₁) (hp' ▸ h₂)]
  have hloop : ∀ {cx}, w'.q.mem.data = w.q.mem.data →
      (g i).map Prod.fst = cx ∧ (Outside keeping w a i none ∨ Outside keeping w a i cx) →
      e = .tau → (g i).map Prod.fst = cx ∧
        (Outside keeping w' (a.apply e) i none ∨ Outside keeping w' (a.apply e) i cx) := by
    rintro cx hd ⟨hg, h⟩ rfl
    exact ⟨hg, h.imp (hfresh (by simp) (by simp) hd) (hfresh (by simp) (by simp) hd)⟩
  cases hgo with
  | instr p e hv hs =>
    have hrest : ∀ f r, p ≠ .fut f (.idle r) := by
      rintro f r rfl
      rw [show w.view i = _ from hfit] at hv
      cases hv
    rw [hask hrest fun f => hrest f _]
    have hf : (∀ f cx st, p ≠ .fut f (.enqueued cx st)) →
        ∀ {o}, Outside keeping w a i o → Outside keeping w' (a.apply e) i o :=
      fun hne => hfresh (hw.ne_enqueue hm (hp ▸ hne)) hv.ne_create hs.data
    cases p with
    | created => exact hf (by simp) ha
    | fut f p =>
      intro hc
      by_cases hpe : ∃ cx st, p = .enqueued cx st
      · obtain ⟨cx, st, rfl⟩ := hpe
        exact (ha hc).enqueued_instr hw hm hfit.2 hv hs.data hlen
      · have hne : ∀ f' cx st, (Pc.fut f p : Pc W) ≠ .fut f' (.enqueued cx st) := fun f' cx st h => by
          obtain ⟨-, rfl⟩ := Pc.fut.inj h
          exact hpe ⟨_, _, rfl⟩
        exact (ha hc).mono (hwait hv.ne_create hs.data) (hf hne)
          (hent (hw.ne_enqueue hm (hp ▸ hne)) hv.ne_create).2 fun h => absurd h hpe
    | _ => trivial
  | create hd => exact hnew rfl (by simp [hd.data])
  | created hs =>
    intro _
    refine ⟨by simp [ask, hp', hp], ?_⟩
    exact hfresh (by simp) (by simp) hs.data ha
  | load hs => trivial
  | loaded gen hd =>
    intro _
    exact ⟨by simp [ask, hp', hp], hnew rfl (by simp [hd.data])⟩
  | goto f p p' hg hq hv hs =>
    intro hf
    have hg' : ask w w' i g i = g i := by
      simp only [ask, hp, hp']
      cases hg <;> rfl
    rw [hg']
    exact hg.attended (ha hf) hw.ok (hwait (by simp) (by rw [hq])) (hfresh (by simp) (by simp) (by rw [hq]))
      (hent (by simp) (by simp)).2
  | state f p p' hpp hv hs =>
    intro hf
    rcases hpp with ⟨r, cx, rfl, rfl⟩ | ⟨c, rfl, rfl⟩
    · have hst : (FutPc.idle r).Attended willWake w' (a.apply .tau) i (g i) :=
        (ha hf).mono (hwait (by simp) hs.data) (hfresh (by simp) (by simp) hs.data)
          (hent (by simp) (by simp)).2 (by simp)
      have hfirst : Waiting keeping willWake (Given w') w' (a.apply .tau) i (g i) ∨
          g i = none ∧ Outside keeping w' (a.apply .tau) i none := by
        cases r with
        | never => exact .inr hst
        | pending => exact .inl hst
        | ready => exact hst.elim
      cases cx with
      | none =>
        rw [show ask w w' i g i = g i by simp [ask, hp, hp']]
        exact hfirst
      | some wk =>
        exact ⟨⟨_, by simp [ask, hp, hp']; rfl⟩, hfirst.imp (fun h => h.1) fun h => h.2⟩
    · trivial
  | done f p c h hd hs => exact c.attended_ret
  | fetching f cx hs =>
    rw [hask (by simp) (by simp)]
    exact fun hf => hloop hs.data (ha hf) rfl
  | blocked f cx hq hs =>
    rw [hask (by simp) (by simp)]
    exact fun hf => hloop hs.data (ha hf) rfl
  | got f cx hq hs => exact fun _ => trivial
  | failed f cx st hs =>
    rw [hask (by simp) (by simp)]
    exact fun hf => hloop hs.data (ha hf) rfl
  | fill f wk st hd =>
    rw [hask (by simp) (by simp)]
    intro hf
    obtain ⟨hg, hfr⟩ := ha hf
    refine ⟨hg, fun h' => ?_, ?_⟩
    · have hen := (hent (by simp) (by simp)).1 h'
      exact hfr.elim (fun h => h.1 hen) fun h => h.1 hen
    · rcases hfr with ⟨-, h⟩ | ⟨-, h⟩ <;>
        simp [hd.data, Waiter.fill, show (w.q.mem.data i).waker = _ from h, keeping]
  | enqueue f cx st hv hs =>
    rw [hask (by simp) (by simp)]
    exact fun hf => ⟨(ha hf).1, .inr ⟨hfresh (by simp) (by simp) hs.data (ha hf).2, by rw [hv]; simp⟩⟩
  | remove f p c hpp hv hv' hs => exact fun _ => trivial
  | removed f c hv hd hs => exact c.attended_ret
  | refresh f wk hd =>
    rw [hask (by simp) (by simp)]
    intro hf
    obtain ⟨⟨m, hg⟩, hen⟩ := ha hf
    refine ⟨(hent (by simp) (by simp)).2 hen, fun wk' m' hg' => ?_⟩
    obtain ⟨rfl, rfl⟩ := Prod.mk.inj (Option.some.inj (hg.symm.trans hg'))
    obtain ⟨wk₀, hwk, hs⟩ := Waiter.refresh_wakes willWake wk (w.q.mem.data i)
    exact .stored hs (by simp [hd.data, keeping, hwk])
  | pending f hs =>
    rw [hask (by simp) (by simp)]
    exact fun hf => hwait (by simp) hs.data (ha hf)
  | stored o k e hv hv' he hd hs => exact o.attended_ret
  | wake o k wk hd hs => exact o.attended_ret
  | _ => trivial

theorem ask_cases (w w' : WorldOf W) (i : TaskId) (g : LastPolls W) :
    ask w w' i g = g ∨ (∃ wk, ask w w' i g = Function.update g i (some (wk, w.shared.woken.length))) ∨
      ask w w' i g = Function.update g i none := by
  unfold ask
  split
  · exact .inr (.inl ⟨_, rfl⟩)
  · exact .inr (.inr rfl)
  · exact .inl rfl

theorem ask_ne {g : LastPolls W} (hx : x ≠ i) : ask w w' i g x = g x := by
  rcases ask_cases w w' i g with h | ⟨wk, h⟩ | h <;> simp [h, hx]

theorem Attended.length_step {g : LastPolls W} (h : Attended willWake w a g) (hw : Reached cfg w a)
    (hm : (notify willWake).Moves cfg a w i n w' e) (hg : ask w w' i g x = some (wk, m)) :
    m ≤ w'.shared.woken.length := by
  have hle : w.shared.woken.length ≤ w'.shared.woken.length := by
    rcases (hw.control.goes hm).1.wakers with ⟨-, h⟩ | ⟨wk, -, h⟩ <;> simp [h]
  refine le_trans ?_ hle
  by_cases hx : x = i
  · subst hx
    rcases ask_cases w w' x g with hask | ⟨wk', hask⟩ | hask <;> rw [hask] at hg
    · exact h.length hg
    · rw [Function.update_self] at hg
      obtain ⟨-, rfl⟩ := Prod.mk.inj (Option.some.inj hg)
      exact le_rfl
    · simp at hg
  · rw [ask_ne hx] at hg
    exact h.length hg

theorem Attended.init : Attended willWake (init : WorldOf W) (.init unnotified) fun _ => none where
  pc := fun _ => trivial
  length := fun h => by cases h

theorem Attended.step {g : LastPolls W} (h : Attended willWake w a g) (hw : Reached cfg w a)
    (hm : (notify willWake).Moves cfg a w i n w' e) : Attended willWake w' (a.apply e) (ask w w' i g) where
  pc := fun x => by
    by_cases hx : x = i
    · subst hx
      exact h.step_self hw hm
    · rw [hm.pc_ne hx, ask_ne hx]
      exact (h.pc x).frame hw hm hx fun _ _ => h.length
  length := h.length_step hw hm

/-! ## Every run -/

variable {ls : List (TaskId × Bool × Input W)} {u u' : WorldOf W × LastPolls W}

/-- A step of a `Notify`, with what the polls are made with. -/
def Asks (willWake : W → W → Bool) (cfg : Config) (u : WorldOf W × LastPolls W) (l : TaskId × Bool × Input W)
    (u' : WorldOf W × LastPolls W) : Prop :=
  (notify willWake).step cfg u.1 l.1 l.2.1 l.2.2 = some u'.1 ∧ u'.2 = ask u.1 u'.1 l.1 u.2

/-- The task is in a call of `notify_one`, `notify_last` or `notify_waiters`, or in a `cancel` that forwards a
notification. -/
def Pc.calls : Pc W → Bool
  | .single _ _ _ | .waiters _ => true
  | _ => false

theorem Pc.wakers_of_calls (h : p.calls = false) : p.wakers = [] := by
  cases p <;> first | rfl | cases h

theorem Pc.mark_of_calls (h : p.calls = false) : p.mark = none := by
  cases p <;> first | rfl | cases h

/-- The lock is held for another future, unless a call is under way. -/
theorem Reached.leaving_ne (hw : Reached cfg w a) (hn : ∀ j, (w.pc j).calls = false) {r : Polled}
    (hp : w.pc i = .fut f (.idle r)) : w.q.leaving ≠ some i := by
  intro hl
  obtain ⟨h, hh, hl⟩ := Option.bind_eq_some_iff.1 hl
  obtain ⟨j, hj⟩ := hw.ok.view_of_op (show w.q.op = some h.op by simp [State.op, hh])
  have hop := HolderPc.op_of_leaving hl
  have hf := hw.control j
  have hnj := hn j
  cases hpc : w.pc j with
  | fut f' c =>
    rw [hpc] at hf
    have hji : i = j ∧ ∀ r, c ≠ .idle r := by
      cases c <;>
        simp only [Pc.Fits, FutPc.Fits, View.Asked, View.Entering, View.Leaving, View.Dropping] at hf <;>
        grind
    obtain ⟨rfl, hc⟩ := hji
    obtain ⟨-, rfl⟩ := Pc.fut.inj (hp.symm.trans hpc)
    exact hc _ rfl
  | single o k s =>
    rw [hpc] at hnj
    cases hnj
  | waiters s =>
    rw [hpc] at hnj
    cases hnj
  | fault => exact hw.fault j hpc
  | _ =>
    rw [hpc] at hf
    rw [show w.view j = _ from hf] at hj
    cases hj

/-- **No wakeup is lost.** In every run, when no call is under way, a future that waits has its node in the
queue with the waker of its last poll, or with one that wakes the same task; or its node has been dequeued,
and such a waker has been called since that poll started. -/
theorem waker_called (h : Lts.Run (Asks willWake cfg) (init, fun _ => none) ls u)
    (hn : ∀ j, (u.1.pc j).calls = false) (hp : u.1.pc i = .fut f (.idle .pending))
    (hf : f.completed = false) (hg : u.2 i = some (wk, m)) :
    ∃ wk₀, WakesFor willWake wk₀ wk ∧
      if u.1.q.mem.rawState i = .queued then (u.1.q.mem.data i).waker = some wk₀
      else ∃ l, m ≤ l ∧ u.1.shared.woken[l]? = some wk₀ := by
  obtain ⟨a, hw, ha⟩ := Lts.Run.prefixed
    (P := fun _ u => ∃ a, Reached cfg u.1 a ∧ Attended willWake u.1 a u.2) h
    ⟨_, Reached.init, Attended.init⟩
    fun ks l u₁ u₂ hl hs hP => by
      obtain ⟨a₁, hw, ha⟩ := hP
      obtain ⟨e, hm⟩ := Client.moves hw.ok hs.1
      exact ⟨_, hw.step hm, hs.2 ▸ ha.step hw hm⟩
  have hi := ha.pc i
  rw [hp] at hi
  obtain ⟨hent, hd⟩ := hi hf
  have hmarked : u.1.q.mem.rawState i ≠ .queued → Marked u.1.q i := fun hr =>
    hent.resolve_left (out_iff.1 (hw.ok.inv.out_of_rawState hr)).1
  have hnot : ∀ j k, ¬ Marks u.1 j i k := fun j k hk => by
    have := hk.1
    rw [Pc.mark_of_calls (hn j)] at this
    cases this
  cases hd wk m hg with
  | @stored wk₀ hs hwk =>
    refine ⟨wk₀, hs, ?_⟩
    split
    · exact hwk
    · rename_i hr
      obtain ⟨k, hk⟩ := hw.noted.waits (by rw [hp]; simp [Pc.waits, FutPc.waits, hf]) (hmarked hr)
      simp [keeping, hk] at hwk
  | taken hs hgv j hwk =>
    simp [keeping, Pc.wakers_of_calls (hn j)] at hwk
  | @called wk₀ hs hgv l hl hwk =>
    refine ⟨wk₀, hs, ?_⟩
    have hmk : Marked u.1.q i := by
      refine hgv.resolve_right ?_
      rintro ⟨j, k, hk⟩
      exact hnot j k hk
    have hr : u.1.q.mem.rawState i ≠ .queued := by
      have hdeq := Ptr.state_eq_dequeued.2 (hmk.resolve_left (hw.leaving_ne hn hp)).1
      simp [Mem.rawState, hdeq]
    rw [if_neg hr]
    exact ⟨l, hl, hwk⟩

/-- The steps `ls`, with what the polls are made with. -/
def asked (willWake : W → W → Bool) (cfg : Config) (u : WorldOf W × LastPolls W) :
    List (TaskId × Bool × Input W) → WorldOf W × LastPolls W
  | [] => u
  | l :: ls =>
    let w' := (notify willWake).after cfg u.1 [l]
    asked willWake cfg (w', ask u.1 w' l.1 u.2) ls

theorem run_asked (h : ((notify willWake).perform cfg u.1 ls).isSome) :
    Lts.Run (Asks willWake cfg) u ls (asked willWake cfg u ls) := by
  induction ls generalizing u with
  | nil => exact .nil
  | cons l ls ih =>
    unfold Client.perform at h
    split at h
    · cases h
    · rename_i w' hs
      have hw' : (notify willWake).after cfg u.1 [l] = w' := by simp [Client.after, Client.perform, hs]
      exact .cons ⟨by rw [hw']; exact hs, rfl⟩ (ih (by rw [hw']; exact h))

/-- A future is polled and waits, and another task calls `notify_one`. -/
def wakeActs : List (TaskId × Bool × Input ℕ) :=
  acts 0 (.notified false) 1 ++ acts 0 (.poll 7) 11 ++ acts 1 .notifyOne 13

/-- The waker of the poll has been called. -/
theorem waker_called_wakeActs :
    let u := asked (fun _ _ => true) ⟨.x86, 0⟩ (init, fun _ => none) wakeActs
    u.1.pc 0 = .fut ⟨0, false⟩ (.idle .pending) ∧ u.2 0 = some (7, 0) ∧
      ∃ wk₀ : ℕ, WakesFor (fun _ _ => true) wk₀ 7 ∧
        if u.1.q.mem.rawState 0 = .queued then (u.1.q.mem.data 0).waker = some wk₀
        else ∃ l, 0 ≤ l ∧ u.1.shared.woken[l]? = some wk₀ := by
  intro u
  have hr : ((notify fun _ _ => true).perform ⟨.x86, 0⟩ init wakeActs).isSome := by decide +kernel
  have hrun : Lts.Run (Asks (fun _ _ => true) ⟨.x86, 0⟩) (init, fun _ => none) wakeActs u := run_asked hr
  have hp : u.1.pc 0 = .fut ⟨0, false⟩ (.idle .pending) := by decide +kernel
  have hp' : u.1.pc 1 = .idle := by decide +kernel
  have hg : u.2 0 = some (7, 0) := by decide +kernel
  have hruns : (notify fun _ _ => true).Runs ⟨.x86, 0⟩ init wakeActs u.1 :=
    hrun.map Prod.fst fun _ _ _ h => h.1
  clear_value u
  refine ⟨hp, hg, waker_called hrun (fun j => ?_) hp rfl hg⟩
  by_cases h₀ : j = 0
  · rw [h₀, hp]
    rfl
  by_cases h₁ : j = 1
  · rw [h₁, hp']
    rfl
  · have hacts : ∀ l ∈ wakeActs, l.1 = 0 ∨ l.1 = 1 := by decide
    rw [hruns.pc_ne fun l hl hj => (hacts l hl).elim (fun h => h₀ (hj.trans h)) fun h => h₁ (hj.trans h)]
    rfl

end Aiq.Notify
