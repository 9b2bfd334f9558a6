import Aiq.Lib.Ledger
import Aiq.Notify.Ready

/-!
# No notification is lost

The ledger of a `Notify` has a token for every call of `notify_one` and `notify_last`, with the place where
its notification is (`Place`): in the hands of the call, or of a `cancel` that forwards it; in the state of
the queue, as the stored permit; with a future that has been dequeued with it; with a poll that has taken the
stored permit; or consumed by a completion. The ledger follows every step (`record`), and in every run the
notifications are where it says (`no_notification_lost`).
-/

namespace Aiq.Notify

open Ledger

variable {W : Type} {willWake : W → W → Bool} {cfg : Config} {a : Abs ℕ} {w w' : WorldOf W}
  {i j : TaskId} {e : Event ℕ} {n : Input W} {x : NodeId} {v v' : View ℕ} {p p' : Pc W}
  {k : Notification} {f : Inner}

/-! ## The ledger -/

/-- Where the notification of a call of `notify_one` or `notify_last` is. -/
inductive Place
  /-- The task is in `notify_single`, and has yet to pass it on. -/
  | calling (i : TaskId)
  /-- The state of the queue is `STATE_NOTIFIED`. -/
  | permit
  /-- The node has been dequeued with it, and its future has not completed. -/
  | held (x : NodeId)
  /-- The poll of the task has taken the stored permit, and has yet to return. -/
  | taken (i : TaskId)
  /-- The future that was the `n`-th to become ready has consumed it. -/
  | consumed (n : ℕ)
  deriving DecidableEq

/-- The ledger after a step of the task `i` with the event `e`. -/
def record (w w' : WorldOf W) (i : TaskId) (e : Event ℕ) (L : List Place) : List Place :=
  match w.pc i, w'.pc i, e with
  | .idle, .single _ _ _, _ => L ++ [.calling i]
  | .single _ _ .ask, _, .update _ _ _ => move (.calling i) .permit L
  | .single _ _ (.set _), _, .remove x _ => move (.calling i) (.held x) L
  | .fut _ (.fetching _), _, .update _ _ _ => move .permit (.taken i) L
  | .fut _ _, .single _ _ _, _ => move (.held i) (.calling i) L
  | .fut _ .got, .fut _ (.idle .ready), _ => move (.taken i) (.consumed w.shared.ready.length) L
  | .fut _ _, .fut _ (.idle .ready), _ => move (.held i) (.consumed w.shared.ready.length) L
  | _, _, _ => L

/-- `notify_single` of the task `i` has yet to pass its notification on. -/
def SinglePc.Passes (w : WorldOf W) (i : TaskId) : SinglePc W → Prop
  | .ask => (w.view i).upd.runs = true
  | .set _ => ∃ x, (w.view i).op.bind HolderOp.target = some x ∧ ¬ Marked w.q x
  | .final _ => False
  | _ => True

/-- The task is in a `notify_single` that has yet to pass its notification on. -/
def Calls (w : WorldOf W) (i : TaskId) : Prop := ∃ o k p, w.pc i = .single o k p ∧ p.Passes w i

/-- A future that waits has been dequeued with the notification of a `notify_one` or a `notify_last`. -/
structure Holds (w : WorldOf W) (x : NodeId) : Prop where
  waits : (w.pc x).waits = true
  marked : Marked w.q x
  single : ∃ k, (w.q.mem.data x).notification = some k ∧ k ≠ .all

/-- There is a notification at the place. -/
def There (w : WorldOf W) : Place → Prop
  | .calling i => Calls w i
  | .permit => w.q.mem.queueState = some notified
  | .held x => Holds w x
  | .taken i => ∃ f, w.pc i = .fut f .got
  | .consumed n => n < w.shared.ready.length

/-- The places of notifications that have not been consumed. -/
def Place.live : Place → Bool
  | .consumed _ => false
  | _ => true

/-- The places of one notification only: stored permits coalesce. -/
def Place.one : Place → Bool
  | .calling _ | .held _ => true
  | _ => false

/-- Every token is where its notification is, every notification that has not been consumed has a token, and
those that cannot coalesce have one each. -/
def Balanced (w : WorldOf W) (L : List Place) : Prop :=
  Accounts (There w) (fun p => p.live = true) (fun p => p.one = true) L

/-! ## The state of the queue -/

/-- What a task writes to the state of the queue when it takes a node out of it. -/
theorem Pc.Fits.writes (h : p.Fits i v) (hf : p ≠ .fault) :
    (∀ x s k, v.op = some (.removing x s k) → s = unnotified) ∧
      ∀ d s, v.op = some (.newDrain d s) → s = unnotified := by
  have hnull : (QueueState.null : ℕ) = unnotified := rfl
  cases p with
  | fut f p =>
    cases p <;>
      simp only [Fits, FutPc.Fits, View.Asked, View.Entering, View.Leaving, View.Dropping] at h <;>
      grind
  | single o k p =>
    have h := h.2
    cases p <;> simp only [SinglePc.Fits, View.Asking] at h <;> grind
  | waiters p =>
    cases p with
    | forEach p =>
      have hp := h.2.2
      constructor <;> intros <;> rename_i hop <;> rw [hop] at hp <;>
        cases p <;> simp only [ForEachPc.Fits] at hp <;> simp_all
    | _ =>
      simp only [Fits, WaitersPc.Fits] at h
      grind
  | fault => exact absurd rfl hf
  | _ => simp [show v = _ from h]

theorem next_thread {r : InstrOf W} {k : ThreadCall ℕ} (hr : next willWake w i n = some r)
    (hk : r.call = some (.thread k)) (t t' : ℕ) : k ≠ .compareExchangeState t t' := by
  unfold next futNext singleNext waitersNext start ForEachPc.next at hr
  repeat' split at hr
  all_goals grind

/-- An event that writes to the state is one of an operation that is under way. -/
theorem Client.Moves.instr_of_writes (hm : (notify willWake).Moves cfg a w i n w' e)
    (he : e.writes = true) : InstrStep i w.q.mem.queueState (w.view i) e (w'.view i) := by
  cases hm.mover with
  | op hs hd hv hp hg => exact hv
  | call hr hk hrest hs hv hp hg =>
    obtain ⟨t, t', rfl⟩ := hv.writes_inv he
    exact absurd rfl (next_thread hr hk t t')
  | own hr hk hrest hq hv hp hg => cases he

/-- A node is enqueued on a state that its poll has not found to be the stored permit. -/
theorem Reached.enqueue_state (hw : Reached cfg w a)
    (hm : (notify willWake).Moves cfg a w i n w' (.enqueue x)) :
    w.q.mem.queueState ≠ some notified := by
  have key : ∀ {s : Option ℕ} {v' : View ℕ}, InstrStep i s (w.view i) (.enqueue x) v' →
      s ≠ some notified := by
    intro s v' hs
    obtain ⟨rfl, g, m, u, o, hv, hg, -⟩ := hs.enqueue_inv
    have hf := hw.control x
    obtain ⟨f, cx, st, hp⟩ := hf.inserting (hw.fault x) (.inl ⟨g, by rw [hv]⟩)
    rw [hp] at hf
    obtain ⟨hne, hent⟩ := hf
    have hst : s = st := by
      rcases hent with h | h | h | h | h <;> simp only [hv, View.mk.injEq, OwnOp.inserting.injEq,
        reduceCtorEq, false_and] at h
      obtain ⟨rfl, -⟩ := h
      by_contra hst
      simp [MatchState.ofBool, hst] at hg
    rwa [hst]
  cases hm.mover with
  | op hs hd hv hp hg => exact key hv
  | call hr hk hrest hs hv hp hg => exact absurd rfl hv.ne_enqueue

/-- Only an update makes the stored permit, or takes it. -/
theorem Reached.stored_iff (hw : Reached cfg w a) (hm : (notify willWake).Moves cfg a w i n w' e)
    (he : ∀ t s s', e ≠ .update t s s') :
    w'.q.mem.queueState = some notified ↔ w.q.mem.queueState = some notified := by
  rw [(hm.ok' hw.ok).queueState_eq_some, hw.ok.queueState_eq_some]
  have hne : ∀ {s : ℕ}, s = unnotified → s ≠ notified := by
    rintro s rfl
    decide
  constructor
  · rintro ⟨hq, hs⟩
    rcases Abs.stored_inv hm.allows hq with ⟨hq', hs'⟩ | ⟨t, h⟩ | ⟨x, h, -⟩ | ⟨d, h⟩
    · exact ⟨hq', hs'.symm.trans hs⟩
    · exact absurd h (he _ _ _)
    · obtain ⟨k, ho⟩ := (Client.Moves.instr_of_writes hm (by rw [h]; rfl)).shrinks_inv.1 _ _ h
      exact absurd hs (hne (((hw.control i).writes (hw.fault i)).1 _ _ _ ho))
    · have ho := (Client.Moves.instr_of_writes hm (by rw [h]; rfl)).shrinks_inv.2 _ _ h
      exact absurd hs (hne (((hw.control i).writes (hw.fault i)).2 _ _ ho))
  · rintro ⟨hq, hs⟩
    rcases Abs.stored_apply hm.allows hq with ⟨hq', hs'⟩ | ⟨t, s, h, -⟩ | ⟨x, rfl⟩
    · exact ⟨hq', hs'.trans hs⟩
    · exact absurd h (he _ _ _)
    · exact absurd (hw.ok.queueState_eq_some.2 ⟨hq, hs⟩) (hw.enqueue_state hm)

/-! ## Nodes in lists -/

/-- Only a future that waits, or that removes its own node, has its node in a list. -/
def Listed (w : WorldOf W) (a : Abs ℕ) : Prop :=
  ∀ {x}, a.Member x → (w.pc x).waits = true ∨ ∃ f c, w.pc x = .fut f (.removing c)

/-- The future of a listed node goes on to wait, or to remove it. -/
theorem Goes.listed (h : Goes willWake w w' i p e p') (hw : Reached cfg w a) (hc : Completed w)
    (hp : w.pc i = p) (hx : a.Member i) (hl : p.waits = true ∨ ∃ f c, p = .fut f (.removing c)) :
    p'.waits = true ∨ ∃ f c, p' = .fut f (.removing c) := by
  have hf := hw.control i
  rw [hp] at hf
  have hout : (w.view i).own.out = true → False := fun h => hw.ok.not_member h hx
  have haway : p.Away (w.view i) → False := fun h =>
    (out_iff.1 (hw.ok.inv.out_of_rawState (hw.away (by rw [hp]; exact h)))).1 hx
  cases h with
  | instr p e hv hs => exact hl
  | created hs => exact .inl rfl
  | goto f p p' hg hq hv hs =>
    left
    have hopen : p.settled = false → f.completed = false := fun hs => by
      cases hfc : f.completed with
      | false => rfl
      | true => rw [hc.settled hp hfc] at hs; cases hs
    rcases hl with hl | ⟨f', c, hl⟩
    · cases hg with
      | again cx st hv => simp [Pc.waits, FutPc.waits, hopen rfl]
      | pending cx st hv hg => simp [Pc.waits, FutPc.waits, hopen rfl]
      | dropCompleted r hcf => simp [Pc.waits, FutPc.waits, hcf] at hl
      | _ => first | exact hl | rfl
    · obtain ⟨-, rfl⟩ := Pc.fut.inj hl
      cases hg
  | state f p p' hpp hv hs =>
    left
    rcases hpp with ⟨r, cx, rfl, rfl⟩ | ⟨c, rfl, rfl⟩
    · rcases hl with hl | ⟨f', c, hl⟩
      · exact hl
      · cases hl
    · rfl
  | done f p c h hd hs =>
    exfalso
    cases h with
    | dequeued cx hv => exact hout (by rw [hv]; rfl)
    | older cx hg => exact hout (by rw [show w.view i = _ from hf]; rfl)
    | got => exact hout (by rw [show w.view i = _ from hf]; rfl)
    | unqueued c hv => exact hout (by rw [hv]; rfl)
    | all c hv hn => exact hout (by rw [hv]; rfl)
  | remove f p c hpp hv hv' hs => exact .inr ⟨f, c, rfl⟩
  | removed f c hv hd hs => exact (haway (by rw [hv]; rfl)).elim
  | unwrap f c hv hn hs => exact (hout (by rw [hv]; rfl)).elim
  | forward f c k hv hn hk hs => exact (hout (by rw [hv]; rfl)).elim
  | enqueue f cx st hv hs => exact .inl rfl
  | _ =>
    rcases hl with hl | ⟨f', c, hl⟩
    · first | exact .inl hl | cases hl
    · cases hl

theorem Listed.init : Listed (Notify.init : WorldOf W) (.init unnotified) := fun hx => by
  rcases hx with hx | ⟨d, hx⟩ <;> simp [Abs.init, DrainLog.empty] at hx

theorem Listed.step (h : Listed w a) (hw : Reached cfg w a) (hc : Completed w)
    (hm : (notify willWake).Moves cfg a w i n w' e) : Listed w' (a.apply e) := by
  intro x hx
  have hgo := (hw.control.goes hm).1
  rcases hm.member hx with hx | ⟨rfl, rfl, g, u, o, hv⟩
  · by_cases hxi : x = i
    · subst hxi
      exact hgo.listed hw hc rfl hx (h hx)
    · rw [hm.pc_ne hxi]
      exact h hx
  · obtain ⟨f, cx, st, hp⟩ := (hw.control x).inserting (hw.fault x) (.inl ⟨g, by rw [hv]⟩)
    rw [hp] at hgo
    generalize he : Event.enqueue x = e at hgo
    generalize w'.pc x = p' at hgo
    cases hgo with
    | instr p e hv hs => exact .inl rfl
    | _ => cases he

/-! ## Removed nodes -/

/-- A node is marked by its removal, and until it is made anew. -/
theorem Reached.marked_iff (hw : Reached cfg w a) (hm : (notify willWake).Moves cfg a w i n w' e)
    (he : e ≠ .create x) : Marked w'.q x ↔ Marked w.q x ∨ e.Removes x := by
  refine ⟨hm.marked_cases hw.ok, fun h => ?_⟩
  rcases h with h | h
  · refine hm.marked ⟨he, ?_⟩ h
    rintro rfl
    obtain ⟨r, hr, hk⟩ := hm.reset_inv
    exact next_ne_reset hr hk
  · exact hm.marked_of_removes (.inl h)

/-- The notification of a node is only written while it is in a list, and when it is made. -/
theorem Goes.notification_eq (h : Goes willWake w w' i p e p') (hw : w.Ok cfg a) (hx : ¬ a.Member x)
    (he : e ≠ .create x) : (w'.q.mem.data x).notification = (w.q.mem.data x).notification := by
  have hsame : w'.q.mem.data = w.q.mem.data →
      (w'.q.mem.data x).notification = (w.q.mem.data x).notification := fun h => by rw [h]
  have hwrites : ∀ {y v}, Writes w w' y v → (x = y → v.notification = (w.q.mem.data x).notification) →
      (w'.q.mem.data x).notification = (w.q.mem.data x).notification := by
    intro y v h hv
    rw [h.data]
    by_cases hxy : x = y
    · subst hxy
      simpa using hv rfl
    · simp [hxy]
  have hnode : ∀ {y o v k}, Writes w w' y v → (w.view i).op = some o → o.node = some y →
      (k : v.notification = some k) → (w'.q.mem.data x).notification = (w.q.mem.data x).notification :=
    fun h ho hn _ => hwrites h fun hy => absurd (hw.member_of_node ho hn) (hy ▸ hx)
  cases h with
  | create hd => exact hwrites hd fun hxi => absurd (hxi ▸ rfl) he
  | loaded g hd => exact hwrites hd fun hxi => absurd (hxi ▸ rfl) he
  | fill f wk st hd => exact hwrites hd fun hx => by rw [hx]; rfl
  | refresh f wk hd =>
    refine hwrites hd fun hx => ?_
    rw [hx, Waiter.refresh]
    split <;> rfl
  | mark o k y hv hv' hd => exact hnode hd (congrArg View.op hv) rfl rfl
  | drained d y ws ws' hv hv' hd => exact hnode hd (congrArg View.op hv) rfl rfl
  | done f p c h hd hs => exact hsame hd
  | removed f c hv hd hs => exact hsame hd
  | stored o k e hv hv' he hd hs => exact hsame hd
  | wake o k wk hd hs => exact hsame hd
  | forEach p p' e hp' hr hd hg hs => exact hsame hd
  | call wk ws hd hs => exact hsame hd
  | goto f p p' hg hq hv hs => exact hsame (by rw [hq])
  | generation hq hs => exact hsame (by rw [hq])
  | _ => exact hsame (Same.data ‹_›)

/-- The notification of a removed node stays. -/
theorem Reached.notification_eq (hw : Reached cfg w a) (hm : (notify willWake).Moves cfg a w i n w' e)
    (hx : Marked w'.q x) (he : e ≠ .create x) :
    (w'.q.mem.data x).notification = (w.q.mem.data x).notification := by
  rcases hm.marked_cases hw.ok hx with hx | hr
  · exact (hw.control.goes hm).1.notification_eq hw.ok (hw.ok.inv.not_member_of_marked hx) he
  · rw [hm.data_of_removes hr]

/-- A future that waits has a node. -/
theorem Pc.Fits.ne_dead (h : p.Fits i v) (hp : p.waits = true) : v.own ≠ .dead := by
  cases p with
  | created => rw [show v = _ from h]; simp
  | fut f p =>
    cases p <;>
      simp only [Fits, FutPc.Fits, View.Asked, View.Entering, View.Leaving, View.Dropping] at h <;>
      grind [Pc.waits, FutPc.waits]
  | _ => cases hp

/-- A node is given a single notification by a removal. -/
def Gives (w : WorldOf W) (i : TaskId) (e : Event ℕ) (x : NodeId) : Prop :=
  e.Removes x ∧ ∃ k, Marks w i x k ∧ k ≠ .all

/-- What a future holds, if its task does not move or goes on to wait. -/
theorem Reached.holds_iff (hw : Reached cfg w a) (hm : (notify willWake).Moves cfg a w i n w' e)
    (hp : (w'.pc x).waits = (w.pc x).waits) (he : ¬ Gives w i e x) : Holds w' x ↔ Holds w x := by
  have hcreate : (w.pc x).waits = true → e ≠ .create x := by
    rintro hwx rfl
    obtain ⟨rfl, hv⟩ := hm.create_inv
    exact (hw.control x).ne_dead hwx hv
  have hremoves : (w.pc x).waits = true → (∃ k, (w.q.mem.data x).notification = some k ∧ k ≠ .all) →
      ¬ e.Removes x := by
    rintro hwx ⟨k, hk, hne⟩ hr
    have hx := Abs.member_of_removes hr hm.allows
    have hx' := (hm.ok' hw.ok).inv.not_member_of_marked (hm.marked_of_removes (.inl hr))
    rcases hw.control.removes hw.fault hw.drains hm hx hx' with ⟨k', hk'⟩ | ⟨hxi, h⟩
    · refine he ⟨hr, k', hk', ?_⟩
      obtain rfl : k = k' := by simpa [hw.noted.marks hk', eq_comm] using hk
      exact hne
    · rw [← hxi, hwx] at h
      cases h
  constructor
  · rintro ⟨hwx, hmk, hk⟩
    rw [hp] at hwx
    have hc := hcreate hwx
    rw [hw.notification_eq hm hmk hc] at hk
    exact ⟨hwx, ((hw.marked_iff hm hc).1 hmk).resolve_right (hremoves hwx hk), hk⟩
  · rintro ⟨hwx, hmk, hk⟩
    have hc := hcreate hwx
    have hmk' := (hw.marked_iff hm hc).2 (.inl hmk)
    rw [← hw.notification_eq hm hmk' hc] at hk
    exact ⟨by rw [hp]; exact hwx, hmk', hk⟩

/-! ## The other tasks -/

/-- A task in `notify_single` stays where it is while others move. -/
theorem Reached.calls_iff (hw : Reached cfg w a) (hm : (notify willWake).Moves cfg a w i n w' e)
    (hj : j ≠ i) : Calls w' j ↔ Calls w j := by
  have hmark : ∀ {x}, (w.view j).op.bind HolderOp.target = some x → (Marked w'.q x ↔ Marked w.q x) := by
    intro x hx
    have hout := hw.ok.not_out_of_target hx
    obtain ⟨o, ho, -⟩ := Option.bind_eq_some_iff.1 hx
    have hc : e ≠ .create x := by
      rintro rfl
      obtain ⟨-, hd⟩ := hm.create_inv
      obtain ⟨rfl, -⟩ := hm.create_inv
      rw [hd] at hout
      cases hout
    rw [hw.marked_iff hm hc, or_iff_left]
    intro hr
    obtain ⟨-, o', ho', -⟩ := hm.removes (Abs.member_of_removes hr hm.allows)
      ((hm.ok' hw.ok).inv.not_member_of_marked (hm.marked_of_removes (.inl hr)))
    exact hj (World.op_unique ho ho')
  unfold Calls
  rw [hm.pc_ne hj]
  refine exists_congr fun o => exists_congr fun k => exists_congr fun p => and_congr_right fun hp => ?_
  unfold SinglePc.Passes
  cases p with
  | ask => rw [hm.view_ne hj]
  | set wk =>
    simp only [hm.view_ne hj]
    exact exists_congr fun x => and_congr_right fun hx => not_congr (hmark hx)
  | _ => rfl

/-- A step changes only what its task has to do with. -/
theorem Reached.there_iff (hw : Reached cfg w a) (hm : (notify willWake).Moves cfg a w i n w' e)
    {r : Place} (hr : r.live = true) (hc : r ≠ .calling i) (hp : r ≠ .permit) (hh : r ≠ .held i)
    (ht : r ≠ .taken i) (hg : ∀ x, r = .held x → ¬ Gives w i e x) : There w' r ↔ There w r := by
  cases r with
  | calling j => exact hw.calls_iff hm fun h => hc (h ▸ rfl)
  | permit => exact absurd rfl hp
  | held x =>
    have hx : x ≠ i := fun h => hh (h ▸ rfl)
    exact hw.holds_iff hm (by rw [hm.pc_ne hx]) (hg x rfl)
  | taken j =>
    have hj : j ≠ i := fun h => ht (h ▸ rfl)
    simp only [There, hm.pc_ne hj]
  | consumed n => cases hr

variable {L : List Place}

/-- The ledger of a step that passes nothing on. -/
theorem Balanced.keep (h : Balanced w L) (hw : Reached cfg w a)
    (hm : (notify willWake).Moves cfg a w i n w' e) (hu : ∀ t s s', e ≠ .update t s s')
    (hg : ∀ x, ¬ Gives w i e x) (hc : Calls w' i ↔ Calls w i) (hh : Holds w' i ↔ Holds w i)
    (ht : There w' (.taken i) ↔ There w (.taken i))
    (hr : w.shared.ready.length ≤ w'.shared.ready.length) : Balanced w' L := by
  have key : ∀ r : Place, r.live = true → (There w' r ↔ There w r) := by
    intro r hl
    by_cases h₁ : r = .calling i
    · exact h₁ ▸ hc
    by_cases h₂ : r = .permit
    · exact h₂ ▸ hw.stored_iff hm hu
    by_cases h₃ : r = .held i
    · exact h₃ ▸ hh
    by_cases h₄ : r = .taken i
    · exact h₄ ▸ ht
    exact hw.there_iff hm hl h₁ h₂ h₃ h₄ fun x _ => hg x
  refine Accounts.mono h (fun r hr' => ?_) fun r hl => (key r hl).1
  cases r with
  | consumed m => exact lt_of_lt_of_le hr' hr
  | _ => exact (key _ rfl).2 hr'

/-- The ledger of a step that passes what is at `p` on to `q`. -/
theorem Balanced.pass {p q : Place} (h : Balanced w L) (hw : Reached cfg w a)
    (hm : (notify willWake).Moves cfg a w i n w' e) (hpq : p ≠ q) (hpl : p.live = true)
    (hg : ∀ x, Gives w i e x → q = .held x)
    (hc : .calling i = p ∨ .calling i = q ∨ (Calls w' i ↔ Calls w i))
    (hs : .permit = p ∨ .permit = q ∨ (There w' .permit ↔ There w .permit))
    (hh : .held i = p ∨ .held i = q ∨ (Holds w' i ↔ Holds w i))
    (ht : .taken i = p ∨ .taken i = q ∨ (There w' (.taken i) ↔ There w (.taken i)))
    (hr : w.shared.ready.length ≤ w'.shared.ready.length) (hp : q.live = true → There w p)
    (hp' : ¬ There w' p) (hq : There w' q) (hq₁ : q.one = true → p.one = true ∧ ¬ There w q) :
    Balanced w' (move p q L) := by
  have key : ∀ r : Place, r.live = true → r ≠ p → r ≠ q → (There w' r ↔ There w r) := by
    intro r hl hrp hrq
    by_cases h₁ : r = .calling i
    · subst h₁
      exact (hc.resolve_left hrp).resolve_left hrq
    by_cases h₂ : r = .permit
    · subst h₂
      exact (hs.resolve_left hrp).resolve_left hrq
    by_cases h₃ : r = .held i
    · subst h₃
      exact (hh.resolve_left hrp).resolve_left hrq
    by_cases h₄ : r = .taken i
    · subst h₄
      exact (ht.resolve_left hrp).resolve_left hrq
    exact hw.there_iff hm hl h₁ h₂ h₃ h₄ fun x hx hgx => hrq (hx.trans (hg x hgx).symm)
  refine Accounts.move h hpq (fun r hrp hr' => ?_) (fun r hl hrq ha => ?_) (fun _ => hq)
    (fun hl => ⟨hp hl, hpl⟩) hq₁
  · by_cases hrq : r = q
    · exact hrq ▸ hq
    · cases r with
      | consumed m => exact lt_of_lt_of_le hr' hr
      | _ => exact (key _ rfl hrp hrq).2 hr'
  · have hrp : r ≠ p := fun h => hp' (h ▸ ha)
    exact ⟨(key r hl hrp hrq).1 ha, hrp⟩

/-! ## The transfers -/

theorem not_calls (h : ∀ o k s, w.pc i ≠ .single o k s) : ¬ Calls w i := by
  rintro ⟨o, k, s, hp, -⟩
  exact h o k s hp

theorem not_holds (h : (w.pc x).waits = false) : ¬ Holds w x := fun hh => by
  simpa [h] using hh.waits

/-- A node in a list is not held. -/
theorem Reached.not_holds (hw : Reached cfg w a) (hx : a.Member x) : ¬ Holds w x := fun h =>
  hw.ok.inv.not_member_of_marked h.marked hx

theorem not_gives (h : (w.pc i).mark = none) : ¬ Gives w i e x := by
  rintro ⟨-, k', ⟨hk, -⟩, -⟩
  rw [h] at hk
  cases hk

theorem Cause.ret_ne_got (c : Cause) (f f' : Inner) : (c.ret f : Pc W) ≠ .fut f' .got := by
  cases c <;> exact fun h => by cases h

theorem Origin.ret_ne_got (o : Origin) (f' : Inner) : (o.ret : Pc W) ≠ .fut f' .got := by
  cases o with
  | user => exact fun h => by cases h
  | cancel f c => exact c.ret_ne_got f f'

theorem Cause.shared_ready_le (c : Cause) (s : Shared W) :
    s.ready.length ≤ (c.shared s i).ready.length := by
  cases c <;> simp [Cause.shared, Shared.complete]

theorem Origin.shared_ready_le (o : Origin) (s : Shared W) :
    s.ready.length ≤ (o.shared s i).ready.length := by
  cases o with
  | user => exact le_refl _
  | cancel f c => exact c.shared_ready_le s

/-- Where `notify_single` goes on when it has stored the permit. -/
theorem Goes.after_update {o : Origin} {t : ThreadId} {s s' : ℕ}
    (h : Goes willWake w w' i (.single o k .ask) (.update t s s') p')
    (hf : p'.Fits i (w'.view i)) :
    (p' = .single o k .ask ∧ (w'.view i).upd.runs = false ∨ p' = o.ret) ∧
      w.shared.ready.length ≤ w'.shared.ready.length := by
  generalize he : Event.update t s s' = e at h
  generalize hpc : Pc.single o k .ask = p at h
  cases h with
  | instr p e hv hs =>
    subst hpc he
    refine ⟨.inl ⟨rfl, ?_⟩, by rw [hs.shared]⟩
    have hfit := hf.2
    generalize w'.view i = v' at hv hfit ⊢
    generalize w.view i = v at hv
    cases hv with
    | update x o' f n v v' h h' => rcases hfit with hv | hv | hv <;> cases hv
    | updateFirst x o' f n v v' h h' => rcases hfit with hv | hv | hv <;> cases hv
    | updateSecond x f n v v' h h' => rfl
    | holder x u o' o'' e h => cases h
  | stored o₀ k₀ e hv hv' he' hd hs =>
    obtain ⟨rfl, -, -⟩ := Pc.single.inj hpc
    exact ⟨.inr rfl, by rw [hs]; exact o.shared_ready_le _⟩
  | guarded o₀ k₀ hq hs => cases he
  | _ => cases hpc

/-- `notify_single` stores the permit. -/
theorem Balanced.store {o : Origin} {t : ThreadId} {s s' : ℕ} (h : Balanced w L) (hw : Reached cfg w a)
    (hm : (notify willWake).Moves cfg a w i n w' (.update t s s')) (hp : w.pc i = .single o k .ask) :
    Balanced w' (move (.calling i) .permit L) := by
  have hf := hw.control i
  obtain ⟨hgo, hf'⟩ := hw.control.goes hm
  rw [hp] at hf hgo
  obtain ⟨rfl, hs, g, m, hg, hgs⟩ := (Client.Moves.instr_of_writes hm rfl).update_inv
  have hruns : (w.view t).upd.runs = true := by rcases hg with hg | hg | hg <;> rw [hg] <;> rfl
  have hs' : s' = notified := by
    rcases hf.2 with hv | hv | hv <;> simp only [hv, reduceCtorEq, or_false, false_or, UpdOp.asking.injEq,
      UpdOp.deciding.injEq, Option.some.injEq] at hg
    all_goals
      subst hg
      exact (Option.some.inj hgs).symm
  obtain ⟨hpc', hr⟩ := hgo.after_update hf'
  have hcalls : ¬ Calls w' t := by
    rintro ⟨o', k', p, hq, hpass⟩
    rcases hpc' with ⟨hq', hu⟩ | hq'
    · obtain ⟨-, -, rfl⟩ := Pc.single.inj (hq.symm.trans hq')
      rw [show (w'.view t).upd.runs = true from hpass] at hu
      cases hu
    · exact o.ret_ne_single o' (hq'.symm.trans hq)
  have hwaits : (w'.pc t).waits = (w.pc t).waits := by
    rw [hp]
    rcases hpc' with ⟨hq', -⟩ | hq' <;> rw [hq']
    exact o.ret_waits
  have hgot : ∀ f, w'.pc t ≠ .fut f .got := fun f => by
    rcases hpc' with ⟨hq', -⟩ | hq' <;> rw [hq']
    · simp
    · exact o.ret_ne_got f
  have hg₀ : ∀ {x}, ¬ Gives w t (.update t s s') x := not_gives (by rw [hp]; rfl)
  refine h.pass hw hm (by simp) rfl (fun x hx => absurd hx hg₀) (.inl rfl) (.inr (.inl rfl))
    (.inr (.inr (hw.holds_iff hm hwaits hg₀))) (.inr (.inr ?_)) hr (fun _ => ⟨o, k, _, hp, hruns⟩) hcalls ?_
    (by simp [Place.one])
  · simp [There, hp, hgot]
  · show w'.q.mem.queueState = some notified
    obtain ⟨hq, -⟩ := hw.ok.queueState_eq_some.1 hs
    exact (hm.ok' hw.ok).queueState_eq_some.2 ⟨hq, hs'⟩

/-- The node that `wake_single` removes is given the notification. -/
theorem Balanced.give {o : Origin} {wk : Option W} {s : ℕ} (h : Balanced w L) (hw : Reached cfg w a)
    (hl : Listed w a) (hm : (notify willWake).Moves cfg a w i n w' (.remove x s))
    (hp : w.pc i = .single o k (.set wk)) : Balanced w' (move (.calling i) (.held x) L) := by
  have hf := hw.control i
  have hgo := (hw.control.goes hm).1
  rw [hp] at hf hgo
  obtain ⟨hk, hf⟩ := hf
  have hi := Client.Moves.instr_of_writes hm rfl
  obtain ⟨c, hop⟩ := hi.shrinks_inv.1 x s rfl
  have htarget : (w.view i).op.bind HolderOp.target = some x := by
    rcases hf with ⟨y, hv⟩ | hv <;> rw [hv] at hop ⊢
    · obtain ⟨rfl, -, -⟩ := HolderOp.removing.inj (Option.some.inj hop)
      rfl
    · cases hop
  have hmarks : Marks w i x k := ⟨by rw [hp]; rfl, htarget⟩
  have hr : (Event.remove x s).Removes x := .inl ⟨s, rfl⟩
  have hx := Abs.member_of_removes hr hm.allows
  have hmk' := hm.marked_of_removes (.inl hr)
  have hxi : x ≠ i := by
    rintro rfl
    rcases hl hx with h | ⟨f, c', h⟩ <;> rw [hp] at h <;> cases h
  have hwaits : (w.pc x).waits = true := by
    refine (hl hx).resolve_right ?_
    rintro ⟨f, c', hp'⟩
    have hfx := hw.control x
    rw [hp'] at hfx
    rcases hfx with hv | hv
    · exact hxi (World.op_unique (congrArg View.op hv) hop)
    · exact hxi (World.op_unique (congrArg View.op hv) hop)
  have hgo' : w'.pc i = .single o k (.set wk) ∧ w'.shared = w.shared ∧
      (w'.view i).op.bind HolderOp.target = some x := by
    generalize he : Event.remove x s = e at hgo
    generalize hpc : Pc.single o k (.set wk) = p at hgo
    generalize hpc' : w'.pc i = p' at hgo
    cases hgo with
    | instr p e hv hs =>
      subst hpc he
      refine ⟨rfl, hs.shared, ?_⟩
      obtain ⟨hown, hupd, -⟩ := (hw.control i).mark_view (k := k) (by rw [hp]; rfl)
      obtain ⟨o₁, o₂, ho, hstep, hv'⟩ := hv.holder_inv hown hupd
      obtain rfl := Option.some.inj (hop.symm.trans ho)
      rw [hop] at htarget
      rw [hv']
      cases hstep
      exact htarget
    | _ => first | (cases hpc; done) | cases he
  obtain ⟨hpc', hshared, htarget'⟩ := hgo'
  have hg : ∀ {y}, Gives w i (.remove x s) y → y = x := by
    rintro y ⟨⟨t, hy⟩ | ⟨d, b, hy⟩, -⟩
    · exact (Event.remove.inj hy).1.symm
    · cases hy
  refine h.pass hw hm (by simp) rfl (fun y hy => by rw [hg hy]) (.inl rfl)
    (.inr (.inr (hw.stored_iff hm (by simp)))) (.inr (.inr ?_)) (.inr (.inr ?_)) (by rw [hshared])
    (fun _ => ⟨o, k, _, hp, x, htarget, fun hmk => hw.ok.inv.not_member_of_marked hmk hx⟩) ?_ ?_
    fun _ => ⟨rfl, hw.not_holds hx⟩
  · exact hw.holds_iff hm (by rw [hp, hpc']) fun hgi => hxi (hg hgi).symm
  · simp [There, hp, hpc']
  · rintro ⟨o', k', p, hq, hpass⟩
    obtain ⟨-, -, rfl⟩ := Pc.single.inj (hq.symm.trans hpc')
    obtain ⟨y, hy, hny⟩ := hpass
    obtain rfl := Option.some.inj (hy.symm.trans htarget')
    exact hny hmk'
  · refine ⟨by rw [hm.pc_ne hxi]; exact hwaits, hmk', k, ?_, hk⟩
    rw [hw.notification_eq hm hmk' (by simp)]
    rw [hw.noted.marks hmarks]

/-- `cancel` forwards the notification with which it has been dequeued. -/
theorem Balanced.forward {c : Cause} (h : Balanced w L) (hw : Reached cfg w a)
    (hm : (notify willWake).Moves cfg a w i n w' .tau) (hp : w.pc i = .fut f (.canceling c))
    (hp' : w'.pc i = .single (.cancel f c) k .start) (hv : w.view i = ⟨.dequeued, .idle, none⟩)
    (hn : (w.q.mem.data i).notification = some k) (hk : k ≠ .all) (hs : w'.shared = w.shared) :
    Balanced w' (move (.held i) (.calling i) L) := by
  have hg : ∀ {x}, ¬ Gives w i .tau x := not_gives (by rw [hp]; rfl)
  refine h.pass hw hm (by simp) rfl (fun x hx => absurd hx hg) (.inr (.inl rfl))
    (.inr (.inr (hw.stored_iff hm (by simp)))) (.inl rfl) (.inr (.inr ?_)) (by rw [hs]) (fun _ => ?_) ?_ ?_
    fun _ => ⟨rfl, ?_⟩
  · simp [There, hp, hp']
  · exact ⟨by rw [hp]; rfl, hw.ok.marked_of_dequeued (by rw [hv]), k, hn, hk⟩
  · exact not_holds (by rw [hp']; rfl)
  · exact ⟨_, _, _, hp', trivial⟩
  · exact not_calls (by simp [hp])

/-- A poll takes the stored permit. -/
theorem Balanced.take {cx : Option W} (h : Balanced w L) (hw : Reached cfg w a)
    (hm : (notify willWake).Moves cfg a w i n w' (.update i notified unnotified))
    (hp : w.pc i = .fut f (.fetching cx)) (hp' : w'.pc i = .fut f .got)
    (hq : w.q.mem.queueState = some notified) (hs : w'.shared = w.shared) :
    Balanced w' (move .permit (.taken i) L) := by
  have hg : ∀ {x}, ¬ Gives w i (.update i notified unnotified) x := not_gives (by rw [hp]; rfl)
  refine h.pass hw hm (by simp) rfl (fun x hx => absurd hx hg) (.inr (.inr ?_)) (.inl rfl)
    (.inr (.inr (hw.holds_iff hm (by rw [hp, hp']; rfl) hg))) (.inr (.inl rfl)) (by rw [hs]) (fun _ => hq) ?_
    ⟨f, hp'⟩ (by simp [Place.one])
  · exact iff_of_false (not_calls (by simp [hp'])) (not_calls (by simp [hp]))
  · intro h
    obtain ⟨-, hst⟩ := (hm.ok' hw.ok).queueState_eq_some.1 h
    cases hst

/-- A future becomes ready. -/
theorem Balanced.consume {p : FutPc W} {q : Place} (h : Balanced w L) (hw : Reached cfg w a)
    (hm : (notify willWake).Moves cfg a w i n w' e) (hu : ∀ t s s', e ≠ .update t s s')
    (hp : w.pc i = .fut f p) (hp' : w'.pc i = f.ready) (hs : w'.shared = w.shared.complete i)
    (hq : q = .held i ∧ p ≠ .got ∨ q = .taken i ∧ ¬ Holds w i) :
    Balanced w' (move q (.consumed w.shared.ready.length) L) := by
  have hg : ∀ {x}, ¬ Gives w i e x := not_gives (by rw [hp]; rfl)
  have hholds : ¬ Holds w' i := not_holds (by rw [hp']; simp [Inner.ready, Pc.waits, FutPc.waits])
  have hgot : ¬ There w' (.taken i) := by simp [There, hp', Inner.ready]
  have hlen : w'.shared.ready.length = w.shared.ready.length + 1 := by simp [hs, Shared.complete]
  have hcalls : Calls w' i ↔ Calls w i :=
    iff_of_false (not_calls (by simp [hp', Inner.ready])) (not_calls (by simp [hp]))
  have hg' : ∀ x, Gives w i e x → Place.consumed w.shared.ready.length = .held x := fun x hx => absurd hx hg
  rcases hq with ⟨rfl, hne⟩ | ⟨rfl, hn⟩
  · have hgot' : ¬ There w (.taken i) := by
      rintro ⟨f', h'⟩
      exact hne (Pc.fut.inj (hp.symm.trans h')).2
    exact h.pass hw hm (by simp) rfl hg' (.inr (.inr hcalls)) (.inr (.inr (hw.stored_iff hm hu))) (.inl rfl)
      (.inr (.inr (iff_of_false hgot hgot'))) (by omega) (fun h => by cases h) hholds
      (show _ < _ by omega) fun h => by cases h
  · exact h.pass hw hm (by simp) rfl hg' (.inr (.inr hcalls)) (.inr (.inr (hw.stored_iff hm hu)))
      (.inr (.inr (iff_of_false hholds hn))) (.inl rfl) (by omega) (fun h => by cases h) hgot
      (show _ < _ by omega) fun h => by cases h

/-! ## Every step -/

/-- A step in which no notification is passed on, of a task that is not in `notify_single`. -/
theorem Balanced.still (h : Balanced w L) (hw : Reached cfg w a)
    (hm : (notify willWake).Moves cfg a w i n w' e) (hu : ∀ t s s', e ≠ .update t s s')
    (hp : w.pc i = p) (hp' : w'.pc i = p') (hc : ∀ o k s, p ≠ .single o k s)
    (hc' : ∀ o k s, p' ≠ .single o k s) (hh : Holds w' i ↔ Holds w i) (hgot : ∀ f, p ≠ .fut f .got)
    (hgot' : ∀ f, p' ≠ .fut f .got) (hr : w.shared.ready.length ≤ w'.shared.ready.length) :
    Balanced w' L := by
  subst hp hp'
  refine h.keep hw hm hu ?_ (iff_of_false (not_calls hc') (not_calls hc)) hh ?_ hr
  · rintro x ⟨-, k, ⟨hk, -⟩, hne⟩
    unfold Pc.mark at hk
    split at hk
    · exact hc _ _ _ ‹_›
    · exact hc _ _ _ ‹_›
    all_goals first | exact hne (Option.some.inj hk).symm | cases hk
  · simp [There, hgot, hgot']

/-- The ledger of an instruction of an operation that a future has called. -/
theorem Balanced.futInstr {p : FutPc W} (h : Balanced w L) (hw : Reached cfg w a)
    (hm : (notify willWake).Moves cfg a w i n w' e)
    (hv : InstrStep i w.q.mem.queueState (w.view i) e (w'.view i)) (hs : Same w w')
    (hp : w.pc i = .fut f p) (hp' : w'.pc i = .fut f p) : Balanced w' (record w w' i e L) := by
  have hf := hw.control i
  have hf' := (hw.control.goes hm).2
  rw [hp] at hf
  rw [hp'] at hf'
  have hu : ∀ t s s', e ≠ .update t s s' := by
    rintro t s s' rfl
    obtain ⟨-, -, g, m, hg, -⟩ := hv.update_inv
    generalize w.view i = v at hv hf hg
    generalize w'.view i = v' at hv hf'
    cases p <;>
      simp only [Pc.Fits, FutPc.Fits, View.Asked, View.Entering, View.Leaving, View.Dropping] at hf hf' <;>
      try grind
    cases hv <;> grind
  have hgot : p ≠ .got := by
    rintro rfl
    rw [show w.view i = _ from hf] at hv
    generalize w'.view i = v' at hv
    cases hv
  have hready : p ≠ .idle .ready := by
    rintro rfl
    rw [show w.view i = _ from hf] at hv
    generalize w'.view i = v' at hv
    cases hv
  have hrec : record w w' i e L = L := by
    unfold record
    rw [hp, hp']
    split <;> simp_all
  rw [hrec]
  exact h.still hw hm hu hp hp' (by simp) (by simp)
    (hw.holds_iff hm (by rw [hp, hp']) (not_gives (by rw [hp]; rfl))) (by simp [hgot]) (by simp [hgot])
    (by rw [hs.shared])

/-- A call of `notify_one` or `notify_last` starts. -/
theorem Balanced.start (h : Balanced w L) (hw : Reached cfg w a)
    (hm : (notify willWake).Moves cfg a w i n w' .tau) (hp : w.pc i = .idle)
    (hp' : w'.pc i = .single .user k .start) (hs : w'.shared = w.shared) :
    Balanced w' (L ++ [.calling i]) := by
  have hg : ∀ {x}, ¬ Gives w i .tau x := not_gives (by rw [hp]; rfl)
  have key : ∀ r : Place, r.live = true → r ≠ .calling i → (There w' r ↔ There w r) := by
    intro r hl hc
    by_cases h₁ : r = .permit
    · exact h₁ ▸ hw.stored_iff hm (by simp)
    by_cases h₂ : r = .held i
    · exact h₂ ▸ hw.holds_iff hm (by rw [hp, hp']; rfl) hg
    by_cases h₃ : r = .taken i
    · simp [h₃, There, hp, hp']
    exact hw.there_iff hm hl hc h₁ h₂ h₃ fun x _ => hg
  have hcall : There w' (.calling i) := ⟨_, _, _, hp', trivial⟩
  refine Accounts.append h (fun r hr => ?_) (fun r hl hne => (key r hl hne).1) hcall
    (not_calls (by simp [hp]))
  by_cases hc : r = .calling i
  · exact hc ▸ hcall
  · cases r with
    | consumed m => exact show m < w'.shared.ready.length by rw [hs]; exact hr
    | _ => exact (key _ rfl hc).2 hr

/-- The ledger of a step in `notify_single` in which it does not pass its notification on. -/
theorem Balanced.single {o : Origin} {p : SinglePc W} (h : Balanced w L) (hw : Reached cfg w a)
    (hm : (notify willWake).Moves cfg a w i n w' e) (hu : ∀ t s s', e ≠ .update t s s')
    (hr : ∀ x, ¬ e.Removes x) (hp : w.pc i = .single o k p)
    (hp' : (∃ p', w'.pc i = .single o k p' ∧ (p'.Passes w' i ↔ p.Passes w i)) ∨
      w'.pc i = o.ret ∧ ¬ p.Passes w i)
    (hs : w.shared.ready.length ≤ w'.shared.ready.length) : Balanced w' L := by
  have hg : ∀ {x}, ¬ Gives w i e x := fun hx => hr _ hx.1
  have hcalls : Calls w i ↔ p.Passes w i := by
    unfold Calls
    rw [hp]
    constructor
    · rintro ⟨o', k', p', heq, h⟩
      obtain ⟨-, -, rfl⟩ := Pc.single.inj heq
      exact h
    · exact fun h => ⟨_, _, _, rfl, h⟩
  rcases hp' with ⟨p', hp', hpass⟩ | ⟨hp', hpass⟩
  · refine h.keep hw hm hu (fun _ => hg) ?_ (hw.holds_iff hm (by rw [hp, hp']; rfl) hg) ?_ hs
    · rw [hcalls, ← hpass]
      unfold Calls
      rw [hp']
      constructor
      · rintro ⟨o', k', p'', heq, h⟩
        obtain ⟨-, -, rfl⟩ := Pc.single.inj heq
        exact h
      · exact fun h => ⟨_, _, _, rfl, h⟩
    · simp [There, hp, hp']
  · refine h.keep hw hm hu (fun _ => hg) ?_ (hw.holds_iff hm (by rw [hp, hp', o.ret_waits]; rfl) hg) ?_ hs
    · refine iff_of_false (not_calls fun o' k' s => ?_) (fun h => hpass (hcalls.1 h))
      rw [hp']
      exact o.ret_ne_single o'
    · refine iff_of_false ?_ (by simp [There, hp])
      rintro ⟨f, hf⟩
      exact o.ret_ne_got f (hp'.symm.trans hf)

/-- The ledger of an instruction of an operation that `notify_single` has called. -/
theorem Balanced.singleInstr {o : Origin} {p : SinglePc W} (h : Balanced w L) (hw : Reached cfg w a)
    (hl : Listed w a) (hm : (notify willWake).Moves cfg a w i n w' e)
    (hv : InstrStep i w.q.mem.queueState (w.view i) e (w'.view i)) (hs : Same w w')
    (hp : w.pc i = .single o k p) (hp' : w'.pc i = .single o k p) :
    Balanced w' (record w w' i e L) := by
  have hf := hw.control i
  have hf' := (hw.control.goes hm).2
  rw [hp] at hf
  rw [hp'] at hf'
  have hown := o.own_runs
  have keep : (∀ t s s', e ≠ .update t s s') → (∀ x, ¬ e.Removes x) →
      (p.Passes w' i ↔ p.Passes w i) → Balanced w' L := fun hu hr hpass =>
    h.single hw hm hu hr hp (.inl ⟨p, hp', hpass⟩) (by rw [hs.shared])
  cases p with
  | ask =>
    by_cases hu : ∃ t s s', e = .update t s s'
    · obtain ⟨t, s, s', rfl⟩ := hu
      rw [show record w w' i (.update t s s') L = move (.calling i) .permit L by simp [record, hp]]
      exact h.store hw hm hp
    · have hu' : ∀ t s s', e ≠ .update t s s' := fun t s s' he => hu ⟨t, s, s', he⟩
      rw [show record w w' i e L = L by unfold record; rw [hp, hp']; split <;> simp_all]
      refine keep hu' (fun x hr => ?_) ?_
      · obtain ⟨hx, hx'⟩ : a.Member x ∧ ¬ (a.apply e).Member x := ⟨Abs.member_of_removes hr hm.allows,
          (hm.ok' hw.ok).inv.not_member_of_marked (hm.marked_of_removes (.inl hr))⟩
        rcases hw.control.removes hw.fault hw.drains hm hx hx' with ⟨k', hk', -⟩ | ⟨rfl, h⟩
        · rw [hp] at hk'
          cases hk'
        · rcases hl hx with h | ⟨f, c, h⟩ <;> rw [hp] at h <;> cases h
      · show (w'.view i).upd.runs = true ↔ (w.view i).upd.runs = true
        have hf : (w.view i).Asking i o.own (some (.ofTotal fun _ _ => notified)) := hf.2
        have hf' : (w'.view i).Asking i o.own (some (.ofTotal fun _ _ => notified)) := hf'.2
        generalize w.view i = v at hv hf ⊢
        generalize w'.view i = v' at hv hf' ⊢
        generalize o.own = y at hown hf hf'
        rcases hf with rfl | rfl | rfl <;> cases hv
        all_goals
          first
          | rfl
          | cases hown
          | exact absurd rfl (hu' _ _ _)
          | rcases hf' with hf' | hf' | hf' <;> cases hf'
  | set wk =>
    obtain ⟨o₁, o₂, ho, hop, hv'⟩ := hv.holder_inv (by rcases hf.2 with ⟨x, h⟩ | h <;> rw [h] <;> exact hown)
      (by rcases hf.2 with ⟨x, h⟩ | h <;> rw [h] <;> rfl)
    obtain ⟨x, hview⟩ : ∃ x, w.view i = ⟨o.own, .idle, some (.removing x unnotified .handle)⟩ := by
      refine hf.2.resolve_right fun h => ?_
      rw [h] at ho
      obtain rfl := Option.some.inj ho
      cases hop.runs
    obtain rfl : HolderOp.removing x unnotified .handle = o₁ := by
      rw [hview] at ho
      exact Option.some.inj ho
    have hrec : (∀ y s, e ≠ .remove y s) → record w w' i e L = L := fun he => by
      unfold record
      rw [hp, hp']
      split <;> simp_all
    cases hop with
    | more o h =>
      rw [hrec (by simp)]
      refine keep (by simp) (by simp [Event.Removes]) ?_
      show (∃ y, (w'.view i).op.bind HolderOp.target = some y ∧ ¬ Marked w'.q y) ↔
        ∃ y, (w.view i).op.bind HolderOp.target = some y ∧ ¬ Marked w.q y
      rw [hv', ho]
      refine exists_congr fun y => and_congr_right fun _ => not_congr ?_
      rw [hw.marked_iff hm (by simp), or_iff_left (by simp [Event.Removes])]
    | remove =>
      rw [show record w w' i (.remove x unnotified) L = move (.calling i) (.held x) L by simp [record, hp]]
      exact h.give hw hl hm hp
    | removed _ _ _ b =>
      rw [hrec (by simp)]
      refine keep (by simp) (by simp [Event.Removes]) (iff_of_false ?_ ?_)
      · rintro ⟨y, hy, -⟩
        rw [hv'] at hy
        cases hy
      · rintro ⟨y, hy, hny⟩
        rw [ho] at hy
        obtain rfl := Option.some.inj hy
        exact hny (hm.marked_of_dequeues (.inl ⟨b, rfl⟩))
  | dequeued =>
    obtain ⟨o₁, o₂, ho, hop, -⟩ := hv.holder_inv
      (by rcases hf.2 with h | h | ⟨x, h⟩ <;> rw [h] <;> exact hown)
      (by rcases hf.2 with h | h | ⟨x, h⟩ <;> rw [h] <;> rfl)
    have hrec : record w w' i e L = L := by
      unfold record
      rw [hp, hp']
    rw [hrec]
    obtain rfl : o₁ = .dequeuing := by
      rcases hf.2 with h | h | ⟨x, h⟩ <;> rw [h] at ho <;> obtain rfl := Option.some.inj ho
      · rfl
      · cases hop.runs
      · cases hop.runs
    cases hop <;> exact keep (by simp) (by simp [Event.Removes]) Iff.rfl
  | _ =>
    exfalso
    have hf := hf.2
    simp only [SinglePc.Fits] at hf
    first
    | (obtain ⟨x, hf⟩ := hf
       obtain ⟨o₁, o₂, ho, hop, -⟩ := hv.holder_inv (by rw [hf]; exact hown) (by rw [hf]; rfl)
       rw [hf] at ho
       obtain rfl := Option.some.inj ho
       cases hop.runs)
    | (obtain ⟨o₁, o₂, ho, hop, -⟩ := hv.holder_inv (by rw [hf]; exact hown) (by rw [hf]; rfl)
       rw [hf] at ho
       first
       | (cases ho; done)
       | (obtain rfl := Option.some.inj ho
          cases hop.runs))

/-- The poll has taken the stored permit. -/
def FutPc.took : FutPc W → Bool
  | .got => true
  | _ => false

/-- The last poll has returned `Ready`. -/
def FutPc.answered : FutPc W → Bool
  | .idle .ready => true
  | _ => false

/-- What a future holds when it goes on to wait. -/
theorem Reached.holds_fut {p₀ p₁ : FutPc W} (hw : Reached cfg w a)
    (hm : (notify willWake).Moves cfg a w i n w' e) (hp : w.pc i = .fut f p₀) (hp' : w'.pc i = .fut f p₁)
    (h : p₁.waits f = p₀.waits f) : Holds w' i ↔ Holds w i :=
  hw.holds_iff hm (by rw [hp, hp']; exact h) (not_gives (by rw [hp]; rfl))

theorem holds_none (h : (w.pc i).waits = false) (h' : (w'.pc i).waits = false) :
    Holds w' i ↔ Holds w i := iff_of_false (not_holds h') (not_holds h)

/-- The ledger of a step of a future that neither takes the stored permit nor becomes ready. -/
theorem Balanced.futStep {p₀ p₁ : FutPc W} (h : Balanced w L) (hw : Reached cfg w a)
    (hm : (notify willWake).Moves cfg a w i n w' e) (he : e = .tau ∨ e = .unlock)
    (hp : w.pc i = .fut f p₀) (hp' : w'.pc i = .fut f p₁) (hh : Holds w' i ↔ Holds w i)
    (h₀ : p₀.took = false) (h₁ : p₁.took = false) (h₂ : p₁.answered = false)
    (hs : w'.shared.ready = w.shared.ready) : Balanced w' (record w w' i e L) := by
  have hu : ∀ t s s', e ≠ .update t s s' := by rcases he with rfl | rfl <;> simp
  have hrec : record w w' i e L = L := by
    unfold record
    rw [hp, hp']
    split <;> simp_all [FutPc.took, FutPc.answered]
  rw [hrec]
  refine h.still hw hm hu hp hp' (by simp) (by simp) hh (fun f' hf => ?_) (fun f' hf => ?_) (by rw [hs])
  · obtain ⟨-, rfl⟩ := Pc.fut.inj hf
    cases h₀
  · obtain ⟨-, rfl⟩ := Pc.fut.inj hf
    cases h₁

/-- The ledger of a step of a `notify_waiters`. -/
theorem Balanced.waitersStep {p₀ : WaitersPc W} (h : Balanced w L) (hw : Reached cfg w a)
    (hm : (notify willWake).Moves cfg a w i n w' e) (hp : w.pc i = .waiters p₀)
    (hp' : w'.pc i = .idle ∨ ∃ p₁, w'.pc i = .waiters p₁) (hu : ∀ t s s', e ≠ .update t s s')
    (hs : w'.shared.ready = w.shared.ready) : Balanced w' (record w w' i e L) := by
  have hrec : record w w' i e L = L := by
    unfold record
    rw [hp]
  rw [hrec]
  rcases hp' with hp' | ⟨p₁, hp'⟩ <;>
    exact h.still hw hm hu hp hp' (by simp) (by simp) (holds_none (by rw [hp]; rfl) (by rw [hp']; rfl))
      (by simp) (by simp) (by rw [hs])

/-- A waiting future has not completed. -/
theorem Completed.open (hc : Completed w) {p₀ : FutPc W} (hp : w.pc i = .fut f p₀)
    (hs : p₀.settled = false) : f.completed = false := by
  cases hf : f.completed with
  | false => rfl
  | true => rw [hc.settled hp hf] at hs; cases hs

/-- The ledger of a step with which a future becomes ready, or is dropped without a notification. -/
theorem Balanced.ret {p₀ : FutPc W} {c : Cause} (h : Balanced w L) (hw : Reached cfg w a)
    (hm : (notify willWake).Moves cfg a w i n w' e) (hu : ∀ t s s', e ≠ .update t s s')
    (hp : w.pc i = .fut f p₀) (hp' : w'.pc i = c.ret f) (hs : w'.shared = c.shared w.shared i)
    (hg : p₀.took = true → c = .poll ∧ ¬ Holds w i) (hn : c = .drop → ¬ Holds w i)
    (hfetch : ∀ cx, p₀ ≠ .fetching cx) : Balanced w' (record w w' i e L) := by
  cases c with
  | poll =>
    by_cases ht : p₀ = .got
    · subst ht
      rw [show record w w' i e L = move (.taken i) (.consumed w.shared.ready.length) L by
        unfold record
        rw [hp, hp']
        rfl]
      exact h.consume hw hm hu hp hp' hs (.inr ⟨rfl, (hg rfl).2⟩)
    · rw [show record w w' i e L = move (.held i) (.consumed w.shared.ready.length) L by
        unfold record
        rw [hp, hp', Cause.ret, Inner.ready]
        split <;> simp_all]
      exact h.consume hw hm hu hp hp' hs (.inl ⟨rfl, ht⟩)
  | drop =>
    have ht : p₀ ≠ .got := by
      rintro rfl
      cases (hg rfl).1
    rw [show record w w' i e L = L by
      unfold record
      rw [hp, hp', Cause.ret]
      split <;> simp_all]
    exact h.still hw hm hu hp hp' (by simp) (by simp [Cause.ret])
      (iff_of_false (not_holds (by rw [hp']; rfl)) (hn rfl)) (by simp [ht]) (by simp [Cause.ret])
      (by rw [hs]; exact le_refl _)

/-- A new node is not held. -/
theorem holds_create (hw : Reached cfg w a) (hm : (notify willWake).Moves cfg a w i n w' (.create i))
    (h : (w.pc i).waits = false) : Holds w' i ↔ Holds w i :=
  iff_of_false (fun hh => hm.not_marked_of_create hw.ok hh.marked) (not_holds h)

theorem Balanced.step (h : Balanced w L) (hw : Reached cfg w a) (hc : Completed w) (hl : Listed w a)
    (hm : (notify willWake).Moves cfg a w i n w' e) : Balanced w' (record w w' i e L) := by
  obtain ⟨hgo, hf'⟩ := hw.control.goes hm
  have hf := hw.control i
  have hqueued : (w.view i).op = some (.queued i) → ¬ Holds w i := fun ho =>
    hw.not_holds (hw.ok.member_of_node ho rfl)
  generalize hp : w.pc i = p at hgo hf
  generalize hp' : w'.pc i = p' at hgo hf'
  cases hgo with
  | instr p e hv hs =>
    cases p with
    | fut f p => exact h.futInstr hw hm hv hs hp hp'
    | single o k p => exact h.singleInstr hw hl hm hv hs hp hp'
    | waiters p =>
      have hupd : (w.view i).upd = .idle := by
        cases p with
        | forEach p => exact hf.2.1
        | _ => exact congrArg View.upd (show w.view i = _ from hf)
      refine h.waitersStep hw hm hp (.inr ⟨p, hp'⟩) ?_ (congrArg Shared.ready hs.shared)
      rintro t s s' rfl
      obtain ⟨-, -, g, m, hg, -⟩ := hv.update_inv
      rcases hg with hg | hg | hg <;> rw [hg] at hupd <;> cases hupd
    | fault => exact absurd hp (hw.fault i)
    | _ =>
      rw [show w.view i = _ from hf] at hv
      generalize w'.view i = v' at hv
      cases hv
  | create hd =>
    rw [show record w w' i _ L = L by unfold record; rw [hp, hp']]
    exact h.still hw hm (by simp) hp hp' (by simp) (by simp) (holds_create hw hm (by rw [hp]; rfl)) (by simp)
      (by simp) (by rw [hd.shared])
  | created hs =>
    rw [show record w w' i _ L = L by unfold record; rw [hp, hp']]
    exact h.still hw hm (by simp) hp hp' (by simp) (by simp)
      (hw.holds_iff hm (by rw [hp, hp']; rfl) (not_gives (by rw [hp]; rfl))) (by simp) (by simp)
      (by rw [hs.shared])
  | load hs =>
    rw [show record w w' i _ L = L by unfold record; rw [hp, hp']]
    exact h.still hw hm (by simp) hp hp' (by simp) (by simp)
      (holds_none (by rw [hp]; rfl) (by rw [hp']; rfl)) (by simp) (by simp) (by rw [hs.shared])
  | loaded g hd =>
    rw [show record w w' i _ L = L by unfold record; rw [hp, hp']]
    exact h.still hw hm (by simp) hp hp' (by simp) (by simp) (holds_create hw hm (by rw [hp]; rfl)) (by simp)
      (by simp) (by rw [hd.shared])
  | goto f p₀ p₁ hg hq hv hs =>
    refine h.futStep hw hm (.inl rfl) hp hp' (hw.holds_fut hm hp hp' ?_) ?_ ?_ ?_ (congrArg Shared.ready hs)
    · have := hc.open hp
      cases hg <;> simp_all [FutPc.waits, FutPc.settled]
    all_goals cases hg <;> rfl
  | state f p₀ p₁ hpp hv hs =>
    rcases hpp with ⟨r, cx, rfl, rfl⟩ | ⟨c, rfl, rfl⟩ <;>
      exact h.futStep hw hm (.inl rfl) hp hp' (hw.holds_fut hm hp hp' rfl) rfl rfl rfl
        (congrArg Shared.ready hs.shared)
  | done f p₀ c hd hdata hs =>
    have hun : (w.view i).own = .unqueued → ¬ Holds w i := fun hv hh => hw.ok.not_marked hv hh.marked
    refine h.ret hw hm (by simp) hp hp' hs (fun ht => ?_) (fun hcd => ?_) fun cx hpc => ?_
    · cases hd with
      | got => exact ⟨rfl, hun (congrArg View.own (show w.view i = _ from hf))⟩
      | _ => cases ht
    · cases hd with
      | unqueued c hv => exact hun (congrArg View.own hv)
      | all c hv hn =>
        rintro ⟨-, -, k, hk, hne⟩
        exact hne (Option.some.inj (hk.symm.trans hn))
      | _ => cases hcd
    · subst hpc
      cases hd
  | fetching f cx hs =>
    exact h.futStep hw hm (.inl rfl) hp hp' (hw.holds_fut hm hp hp' rfl) rfl rfl rfl
      (congrArg Shared.ready hs.shared)
  | blocked f cx hq hs =>
    exact h.futStep hw hm (.inl rfl) hp hp' (hw.holds_fut hm hp hp' rfl) rfl rfl rfl
      (congrArg Shared.ready hs.shared)
  | got f cx hq hs =>
    rw [show record w w' i _ L = move .permit (.taken i) L by unfold record; rw [hp, hp']]
    exact h.take hw hm hp hp' hq hs.shared
  | failed f cx st hs =>
    exact h.futStep hw hm (.inl rfl) hp hp' (hw.holds_fut hm hp hp' rfl) rfl rfl rfl
      (congrArg Shared.ready hs.shared)
  | fill f wk st hd =>
    exact h.futStep hw hm (.inl rfl) hp hp' (hw.holds_fut hm hp hp' rfl) rfl rfl rfl
      (congrArg Shared.ready hd.shared)
  | enqueue f cx st hv hs =>
    refine h.futStep hw hm (.inl rfl) hp hp' (hw.holds_fut hm hp hp' ?_) rfl rfl rfl
      (congrArg Shared.ready hs.shared)
    simp [FutPc.waits, hc.open hp rfl]
  | remove f p₀ c hpp hv hv' hs =>
    refine h.futStep hw hm (.inl rfl) hp hp' (iff_of_false (not_holds (by rw [hp']; rfl)) (hqueued (by rw [hv]))) ?_ rfl
      rfl (congrArg Shared.ready hs.shared)
    rcases hpp with ⟨rfl, -⟩ | rfl <;> rfl
  | removed f c hv hd hs =>
    have hn : ¬ Holds w i := not_holds (by rw [hp]; rfl)
    exact h.ret hw hm (by simp) hp hp' hs (fun ht => by cases ht) (fun _ => hn) (by simp)
  | refresh f wk hd =>
    exact h.futStep hw hm (.inl rfl) hp hp' (hw.holds_fut hm hp hp' rfl) rfl rfl rfl
      (congrArg Shared.ready hd.shared)
  | pending f hs =>
    exact h.futStep hw hm (.inr rfl) hp hp' (hw.holds_fut hm hp hp' rfl) rfl rfl rfl
      (congrArg Shared.ready hs.shared)
  | unwrap f c hv hn hs => exact absurd hp' (hw.fault_step hm i)
  | forward f c k hv hn hk hs =>
    rw [show record w w' i _ L = move (.held i) (.calling i) L by unfold record; rw [hp, hp']]
    exact h.forward hw hm hp hp' hv hn hk hs.shared
  | drop f hs =>
    exact h.futStep hw hm (.inl rfl) hp hp' (hw.holds_fut hm hp hp' rfl) rfl rfl rfl
      (congrArg Shared.ready hs.shared)
  | dropped f hs =>
    rw [show record w w' i _ L = L by unfold record; rw [hp, hp']]
    exact h.still hw hm (by simp) hp hp' (by simp) (by simp)
      (holds_none (by rw [hp]; rfl) (by rw [hp']; rfl)) (by simp) (by simp) (by rw [hs.shared])
  | notify k hk hs =>
    rw [show record w w' i _ L = L ++ [.calling i] by unfold record; rw [hp, hp']]
    exact h.start hw hm hp hp' hs.shared
  | ask o k hv hs =>
    rw [show record w w' i _ L = L by unfold record; rw [hp, hp']]
    exact h.single hw hm (by simp) (by simp [Event.Removes]) hp
      (.inl ⟨_, hp', iff_of_true (by rw [SinglePc.Passes, hv]; rfl) trivial⟩) (by rw [hs.shared])
  | stored o k e hv hv' he hd hs =>
    by_cases hu : ∃ t s s', e = .update t s s'
    · obtain ⟨t, s, s', rfl⟩ := hu
      rw [show record w w' i (.update t s s') L = move (.calling i) .permit L by simp [record, hp]]
      exact h.store hw hm hp
    · have hu' : ∀ t s s', e ≠ .update t s s' := fun t s s' he => hu ⟨t, s, s', he⟩
      have hback := View.Asking.returned hf.2 hv o.own_runs (by rw [hv']) he hu'
      rw [show record w w' i e L = L by unfold record; rw [hp]; split <;> simp_all]
      exact h.single hw hm hu' hback.2 hp (.inr ⟨hp', by rw [SinglePc.Passes, hback.1]; simp⟩)
        (by rw [hs]; exact o.shared_ready_le _)
  | guarded o k hq hs =>
    rw [show record w w' i _ L = L by unfold record; rw [hp, hp']]
    exact h.single hw hm (by simp) (by simp [Event.Removes]) hp
      (.inl ⟨_, hp', iff_of_true trivial hm.guarded_inv⟩) (by rw [hs.shared])
  | take o k e c hc op hv hv' hs =>
    rw [show record w w' i _ L = L by unfold record; rw [hp, hp']]
    have he : (∀ t s s', e ≠ .update t s s') ∧ ∀ x, ¬ e.Removes x := by
      rcases hc with rfl | rfl <;> cases hv <;> simp [Event.Removes]
    exact h.single hw hm he.1 he.2 hp (.inl ⟨_, hp', Iff.rfl⟩) (by rw [hs.shared])
  | empty o k hv hs => exact absurd hp' (hw.fault_step hm i)
  | mark o k x hv hv' hd =>
    rw [show record w w' i _ L = L by unfold record; rw [hp, hp']]
    exact h.single hw hm (by simp) (by simp [Event.Removes]) hp (.inl ⟨_, hp', Iff.rfl⟩)
      (by rw [hd.shared])
  | set o k wk x hv hv' hs =>
    rw [show record w w' i _ L = L by unfold record; rw [hp, hp']]
    have hx : ¬ Marked w.q x := fun hmk =>
      hw.ok.inv.not_member_of_marked hmk (hw.ok.member_of_node (congrArg View.op hv) rfl)
    refine h.single hw hm (by simp) (by simp [Event.Removes]) hp
      (.inl ⟨_, hp', iff_of_true ⟨x, by rw [hv']; rfl, ?_⟩ trivial⟩) (by rw [hs.shared])
    rw [hw.marked_iff hm (by simp), or_iff_left (by simp [Event.Removes])]
    exact hx
  | unlock o k wk hv hs =>
    rw [show record w w' i _ L = L by unfold record; rw [hp, hp']]
    refine h.single hw hm (by simp) (by simp [Event.Removes]) hp
      (.inl ⟨_, hp', iff_of_false (fun h => h) ?_⟩) (by rw [hs.shared])
    rintro ⟨x, hx, -⟩
    rw [hv] at hx
    cases hx
  | wake o k wk hd hs =>
    rw [show record w w' i _ L = L by unfold record; rw [hp]]
    refine h.single hw hm (by simp) (by simp [Event.Removes]) hp (.inr ⟨hp', fun h => h⟩) ?_
    rw [hs]
    refine le_trans ?_ (o.shared_ready_le _)
    cases wk <;> simp [Shared.wake]
  | lock hv hs =>
    rw [show record w w' i _ L = L by unfold record; rw [hp, hp']]
    exact h.still hw hm (by simp) hp hp' (by simp) (by simp)
      (holds_none (by rw [hp]; rfl) (by rw [hp']; rfl)) (by simp) (by simp) (by rw [hs.shared])
  | generation hq hs =>
    exact h.waitersStep hw hm hp (.inr ⟨_, hp'⟩) (by simp) (by rw [hs])
  | drain d e op hv hv' hs =>
    refine h.waitersStep hw hm hp (.inr ⟨_, hp'⟩) ?_ (congrArg Shared.ready hs.shared)
    rintro t s s' rfl
    cases hv
  | drained d x ws ws' hv hv' hd =>
    exact h.waitersStep hw hm hp (.inr ⟨_, hp'⟩) (by simp) (congrArg Shared.ready hd.shared)
  | dropNode d ws b hv hv' hs =>
    exact h.waitersStep hw hm hp (.inr ⟨_, hp'⟩) (by simp) (congrArg Shared.ready hs.shared)
  | forEach p₀ p₁ e hpp hr hd hg hs =>
    refine h.waitersStep hw hm hp (.inr ⟨_, hp'⟩) ?_ hs
    rintro t s s' rfl
    obtain ⟨-, -, g, m, hg, -⟩ := (Client.Moves.instr_of_writes hm rfl).update_inv
    rcases hg with hg | hg | hg <;> rw [show (w.view i).upd = _ from hf.2.1] at hg <;> cases hg
  | closed d ws hv hs =>
    exact h.waitersStep hw hm hp (.inr ⟨_, hp'⟩) (by simp) (congrArg Shared.ready hs.shared)
  | call wk ws hd hs =>
    exact h.waitersStep hw hm hp (.inr ⟨_, hp'⟩) (by simp) (by rw [hs]; rfl)
  | «return» hs =>
    exact h.waitersStep hw hm hp (.inl hp') (by simp) (congrArg Shared.ready hs.shared)

/-! ## Every run -/

variable {ls : List (TaskId × Bool × Input W)} {u u' : WorldOf W × List Place}

/-- A step of a `Notify` with its ledger, which is not a poll or an `enable` of a completed future that finds
its node `Unqueued` and the generation unchanged. -/
def Recorded (willWake : W → W → Bool) (cfg : Config) (u : WorldOf W × List Place)
    (l : TaskId × Bool × Input W) (u' : WorldOf W × List Place) : Prop :=
  Keeps willWake cfg u.1 l u'.1 ∧ ∃ e, (notify willWake).event cfg u.1 l.1 l.2.1 l.2.2 = some e ∧
    u'.2 = record u.1 u'.1 l.1 e u.2

theorem Balanced.init : Balanced (Notify.init : WorldOf W) [] := by
  refine Accounts.nil fun r hl => ?_
  cases r with
  | calling i => exact not_calls (by simp [Notify.init])
  | permit => exact fun h => by cases h
  | held x => exact not_holds rfl
  | taken i => simp [There, Notify.init]
  | consumed m => cases hl

/-- **No notification is lost, and none is made up.** The ledger has a token for every call of `notify_one`
and `notify_last`. In every run, in which no poll of a completed future starts to wait again, every token is
at the place where its notification is: in a call that has yet to pass it on, in the stored permit, with a
dequeued future that has not completed, with a poll that has taken the permit, or with a completion. There is
a token for every notification that has not been consumed, and only one unless it is the stored permit, or a
poll that has taken it. -/
theorem no_notification_lost (h : Lts.Run (Recorded willWake cfg) (init, []) ls u) :
    Balanced u.1 u.2 := by
  obtain ⟨a, -, -, -, hb⟩ := Lts.Run.prefixed
    (P := fun _ u => ∃ a, Reached cfg u.1 a ∧ Completed u.1 ∧ Listed u.1 a ∧ Balanced u.1 u.2) h
    ⟨_, Reached.init, Completed.init, Listed.init, Balanced.init⟩
    fun ks l u₁ u₂ hl hs hP => by
      obtain ⟨⟨hr, hs⟩, e, he, hrec⟩ := hs
      obtain ⟨a₁, hw, hc, hlist, hb⟩ := hP
      obtain ⟨e', he', hm⟩ := Client.moves_event hw.ok hs
      obtain rfl := Option.some.inj (he.symm.trans he')
      exact ⟨_, hw.step hm, hc.step hw hm hr, hlist.step hw hc hm, hrec ▸ hb.step hw hc hlist hm⟩
  exact hb

/-- The steps `ls`, made one after the other, with the ledger; all of them meet the condition `ok`. -/
def follow (ok : WorldOf W → TaskId × Bool × Input W → WorldOf W → Bool) (willWake : W → W → Bool)
    (cfg : Config) (u : WorldOf W × List Place) :
    List (TaskId × Bool × Input W) → Option (WorldOf W × List Place)
  | [] => some u
  | l :: ls =>
    match (notify willWake).step cfg u.1 l.1 l.2.1 l.2.2,
      (notify willWake).event cfg u.1 l.1 l.2.1 l.2.2 with
    | some w', some e =>
      if retries u.1 l.1 = false ∧ ok u.1 l w' = true then
        follow ok willWake cfg (w', record u.1 w' l.1 e u.2) ls
      else none
    | _, _ => none

theorem run_of_follow {ok : WorldOf W → TaskId × Bool × Input W → WorldOf W → Bool}
    (h : follow ok willWake cfg u ls = some u') :
    Lts.Run (fun u l u' => Recorded willWake cfg u l u' ∧ ok u.1 l u'.1 = true) u ls u' := by
  induction ls generalizing u with
  | nil =>
    obtain rfl : u = u' := by simpa [follow] using h
    exact .nil
  | cons l ls ih =>
    unfold follow at h
    split at h
    · rename_i w' e hs he
      split at h
      · rename_i hok
        exact Lts.Run.cons ⟨⟨⟨hok.1, hs⟩, e, he, rfl⟩, hok.2⟩ (ih h)
      · cases h
    · cases h

/-- A future is polled and waits, and another task calls `notify_one` twice. -/
def twiceActs : List (TaskId × Bool × Input ℕ) :=
  acts 0 (.notified false) 1 ++ acts 0 (.poll 7) 11 ++ acts 1 .notifyOne 13 ++ acts 1 .notifyOne 2

/-- The future has been dequeued with the first notification, and the second is stored. -/
theorem no_notification_lost_twiceActs : ∃ u : WorldOf ℕ × List Place,
    follow (fun _ _ _ => true) (fun _ _ => true) ⟨.x86, 0⟩ (init, []) twiceActs = some u ∧
      u.2 = [.held 0, .permit] ∧ Balanced u.1 u.2 := by
  have hs : (follow (fun _ _ _ => true) (fun _ _ => true) ⟨.x86, 0⟩ (init, []) twiceActs).isSome = true := by
    decide +kernel
  obtain ⟨u, hu⟩ := Option.isSome_iff_exists.1 hs
  have hl : (follow (fun _ _ _ => true) (fun _ _ => true) ⟨.x86, 0⟩ (init, []) twiceActs).map Prod.snd =
      some [.held 0, .permit] := by
    decide +kernel
  rw [hu] at hl
  exact ⟨u, hu, by simpa using hl,
    no_notification_lost ((run_of_follow hu).mono fun _ _ _ h => h.1)⟩

end Aiq.Notify
