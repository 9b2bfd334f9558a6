import Aiq.Notify.Control
import Aiq.Task.Drains
import Aiq.Task.Tail

/-!
# Notifications of nodes

A node that a call has in hand carries the notification of that call from the moment at which the call has
stored it (`Noted.marks`), and so does every node of a future that waits and has been removed from the queue
by someone else (`Noted.waits`). So `cancel` finds a notification in every `NodeDequeued`, and no `unwrap` is
applied to `None` (`Reached.fault`). `Reached` collects what holds in every state that a `Notify` reaches.
-/

namespace Aiq.Notify

variable {W : Type} {willWake : W → W → Bool} {cfg : Config} {a : Abs ℕ} {w w' : WorldOf W}
  {i j : TaskId} {e : Event ℕ} {n : Input W} {r : InstrOf W} {q : State ℕ (Waiter W)} {x : NodeId}
  {p p' : Pc W} {k : Notification}

/-! ## The `Drain`s of the calls -/

/-- The `for_each` that a call is in. -/
def Pc.forEach? : Pc W → Option (ForEachPc W)
  | .waiters (.forEach p) => some p
  | _ => none

theorem forEach?_eq_some {f : ForEachPc W} (h : p.forEach? = some f) : p = .waiters (.forEach f) := by
  unfold Pc.forEach? at h
  split at h
  · exact congrArg _ (congrArg _ (Option.some.inj h))
  · cases h

@[simp] theorem Cause.ret_forEach? (c : Cause) (f : Inner) : (c.ret f : Pc W).forEach? = none := by
  cases c <;> rfl

@[simp] theorem Origin.ret_forEach? (o : Origin) : (o.ret : Pc W).forEach? = none := by
  cases o with
  | user => rfl
  | cancel f c => exact c.ret_forEach? f

/-- A call of `notify_waiters` starts its `for_each` at the head. -/
theorem next_forEach {f : ForEachPc W} (hp : (w.pc i).forEach? = none)
    (hr : next willWake w i n = some r) (h : (r.pc e q).forEach? = some f) :
    ∃ d ws, f = .head d ws := by
  unfold next at hr
  cases hpc : w.pc i with
  | waiters p =>
    simp only [hpc] at hr
    unfold waitersNext at hr
    repeat' split at hr
    case h_3 => simp [hpc, Pc.forEach?] at hp
    case h_2 d =>
      obtain rfl := Option.some.inj hr
      exact ⟨d, [], (Option.some.inj h).symm⟩
    all_goals first | contradiction | obtain rfl := Option.some.inj hr
    all_goals simp [Pc.forEach?] at h
  | _ =>
    simp only [hpc, reduceCtorEq] at hr
    try unfold futNext at hr
    try unfold singleNext at hr
    try unfold start at hr
    repeat' split at hr
    all_goals first | contradiction | obtain rfl := Option.some.inj hr
    all_goals first | cases h | simp at h

theorem observe_forEach? : (observe w i e q).1.forEach? = (w.pc i).forEach? := by
  unfold observe
  repeat' split
  all_goals first | rfl | simp_all only [Origin.ret_forEach?]
  all_goals rfl

theorem hasForEach :
    (notify willWake).HasForEach (Pc.forEach? : Pc W → Option (ForEachPc W)) .fault where
  observe := fun _ _ _ _ => observe_forEach?
  next := fun {w i n r p} hp hr => by
    simp only [notify, next, forEach?_eq_some hp, waitersNext] at hr
    exact ⟨_, _, _, _, hr, fun _ => rfl, fun _ => rfl⟩
  start := fun hp hr h => by
    obtain ⟨d, ws, rfl⟩ := next_forEach hp hr h
    rfl

/-- A `Drain` belongs to a `for_each`. -/
theorem Pc.Fits.drainId {v : View ℕ} {o : HolderOp ℕ} {d : DrainId} (h : p.Fits i v) (hf : p ≠ .fault)
    (ho : v.op = some o) (hd : o.drainId = some d) : ∃ f, p.forEach? = some f ∧ f.id = d := by
  cases p with
  | fut f p =>
    cases p <;>
      simp only [Fits, FutPc.Fits, View.Asked, View.Entering, View.Leaving, View.Dropping] at h <;>
      grind [HolderOp.drainId]
  | single o' k p =>
    have h := h.2
    cases p <;> simp only [SinglePc.Fits, View.Asking] at h <;> grind [HolderOp.drainId]
  | waiters p =>
    cases p with
    | forEach p =>
      refine ⟨p, rfl, ?_⟩
      have hp := h.2.2
      rw [ho] at hp
      cases p <;> simp only [ForEachPc.Fits] at hp <;> grind [HolderOp.drainId, ForEachPc.id]
    | _ =>
      simp only [Fits, WaitersPc.Fits] at h
      grind [HolderOp.drainId]
  | fault => exact absurd rfl hf
  | _ =>
    rw [show v = _ from h] at ho
    cases ho

theorem Control.forEachFits (h : Control w) (hf : ∀ i, w.pc i ≠ .fault) :
    ForEachFits (Pc.forEach? : Pc W → Option (ForEachPc W)) w where
  fits := fun {i p} hp => by
    have hi := h i
    rw [forEach?_eq_some hp] at hi
    exact ⟨_, hi.2.2⟩
  holds := fun {i o d} ho hd => (h i).drainId (hf i) ho hd

/-! ## Notifications -/

/-- The notification that a call has stored in the node that it has in hand. -/
def Pc.mark : Pc W → Option Notification
  | .single _ k (.taken _) | .single _ k (.set _) => some k
  | .waiters (.forEach (.drop _ _)) | .waiters (.forEach (.dropped _ _)) => some .all
  | _ => none

/-- The wakers that a call has taken and not called. -/
def Pc.wakers : Pc W → List W
  | .single _ _ (.taken wk) | .single _ _ (.set wk) | .single _ _ (.final wk) => wk.toList
  | .waiters (.forEach p) => p.wakers
  | .waiters (.final ws) => ws
  | _ => []

/-- The task `i` has the node `x` in hand, and has stored the notification `k` in it. -/
def Marks (w : WorldOf W) (i : TaskId) (x : NodeId) (k : Notification) : Prop :=
  (w.pc i).mark = some k ∧ (w.view i).op.bind HolderOp.target = some x

/-- A future that only others remove from the queue. -/
def FutPc.waits (f : Inner) : FutPc W → Bool
  | .removing _ | .canceled | .dropping => false
  | .enqueued _ _ | .cancel _ | .canceling _ => true
  | _ => !f.completed

/-- See `FutPc.waits`. -/
def Pc.waits : Pc W → Bool
  | .created => true
  | .fut f p => p.waits f
  | _ => false

@[simp] theorem Cause.ret_waits (c : Cause) (f : Inner) : (c.ret f : Pc W).waits = false := by
  cases c <;> rfl

@[simp] theorem Origin.ret_waits (o : Origin) : (o.ret : Pc W).waits = false := by
  cases o with
  | user => rfl
  | cancel f c => exact c.ret_waits f

@[simp] theorem Cause.ret_mark (c : Cause) (f : Inner) : (c.ret f : Pc W).mark = none := by
  cases c <;> rfl

@[simp] theorem Origin.ret_mark (o : Origin) : (o.ret : Pc W).mark = none := by
  cases o with
  | user => rfl
  | cancel f c => exact c.ret_mark f

/-- The notifications that the nodes carry. -/
structure Noted (w : WorldOf W) : Prop where
  marks : ∀ {i x k}, Marks w i x k → w.q.mem.data x = ⟨none, some k⟩
  waits : ∀ {x}, (w.pc x).waits = true → Marked w.q x → ∃ k, w.q.mem.data x = ⟨none, some k⟩

theorem Noted.init : Noted (init : WorldOf W) where
  marks := fun h => by simp [Marks, Notify.init, Pc.mark] at h
  waits := fun h => by simp [Notify.init, Pc.waits] at h

/-- What a step does to the data of the node `x`. -/
theorem Goes.data (h : Goes willWake w w' i p e p') (hf : p.Fits i (w.view i)) (hp : w'.pc i = p')
    (x : NodeId) :
    w'.q.mem.data x = w.q.mem.data x ∨
      (x = i ∧ (e = .create i ∧ w'.q.mem.data x = .default ∨
        ((w.view i).own = .unqueued ∨ (w.view i).op = some (.queued i)) ∧ e = .tau ∧
          (w'.q.mem.data x).notification = (w.q.mem.data x).notification)) ∨
      ∃ k, w'.q.mem.data x = ⟨none, some k⟩ ∧ Marks w' i x k ∧
        ∀ wk ∈ (w.q.mem.data x).waker, wk ∈ p'.wakers := by
  have hsame : w'.q.mem.data = w.q.mem.data → w'.q.mem.data x = w.q.mem.data x := fun h => by rw [h]
  have hwrites : ∀ {y v}, Writes w w' y v → x ≠ y → w'.q.mem.data x = w.q.mem.data x :=
    fun h hx => by simp [h.data, hx]
  have hmark : ∀ {y k}, Writes w w' y ⟨none, some k⟩ → (x = y → Marks w' i x k) →
      (∀ wk ∈ (w.q.mem.data y).waker, wk ∈ p'.wakers) →
      w'.q.mem.data x = w.q.mem.data x ∨ ∃ k, w'.q.mem.data x = ⟨none, some k⟩ ∧ Marks w' i x k ∧
        ∀ wk ∈ (w.q.mem.data x).waker, wk ∈ p'.wakers := by
    intro y k h hk hwk
    by_cases hx : x = y
    · exact .inr ⟨k, by simp [h.data, hx], hk hx, hx ▸ hwk⟩
    · exact .inl (hwrites h hx)
  have hown : ∀ {v}, Writes w w' i v → ((w.view i).own = .unqueued ∨ (w.view i).op = some (.queued i)) →
      e = .tau → v.notification = (w.q.mem.data i).notification →
      w'.q.mem.data x = w.q.mem.data x ∨ (x = i ∧ (e = .create i ∧ w'.q.mem.data x = .default ∨
        ((w.view i).own = .unqueued ∨ (w.view i).op = some (.queued i)) ∧ e = .tau ∧
          (w'.q.mem.data x).notification = (w.q.mem.data x).notification)) := by
    intro v hd ho he hv
    by_cases hx : x = i
    · exact .inr ⟨hx, .inr ⟨ho, he, by simpa [hd.data, hx] using hv⟩⟩
    · exact .inl (hwrites hd hx)
  cases h with
  | create hd =>
    by_cases hx : x = i
    · exact .inr (.inl ⟨hx, .inl ⟨rfl, by simp [hd.data, hx]⟩⟩)
    · exact .inl (hwrites hd hx)
  | loaded g hd =>
    by_cases hx : x = i
    · exact .inr (.inl ⟨hx, .inl ⟨rfl, by simp [hd.data, hx]⟩⟩)
    · exact .inl (hwrites hd hx)
  | fill f wk st hd => exact (hown hd (.inl (by rw [hf.2])) rfl rfl).imp_right .inl
  | refresh f wk hd =>
    refine (hown hd (.inr (by rw [show w.view i = _ from hf])) rfl ?_).imp_right .inl
    rw [Waiter.refresh]
    split <;> rfl
  | mark o k y hv hv' hd =>
    refine (hmark hd (fun hx => ⟨by rw [hp]; rfl, ?_⟩) ?_).imp_right .inr
    · rw [hv', hx]
      rfl
    · simp [Pc.wakers]
  | drained d y ws ws' hv hv' hd hws =>
    refine (hmark hd (fun hx => ⟨by rw [hp]; rfl, ?_⟩) ?_).imp_right .inr
    · rw [hv', hx]
      rfl
    · intro wk hwk
      simp [Pc.wakers, ForEachPc.wakers, hws, Option.mem_def.1 hwk]
  | done f p c h hd hs => exact .inl (hsame hd)
  | removed f c hv hd hs => exact .inl (hsame hd)
  | stored o k e hv hv' he hd hs => exact .inl (hsame hd)
  | wake o k wk hd hs => exact .inl (hsame hd)
  | forEach p p' e hp' hr hd hg hs => exact .inl (hsame hd)
  | call wk ws hd hs => exact .inl (hsame hd)
  | goto f p p' hg hq hv hs => exact .inl (hsame (by rw [hq]))
  | generation hq hs => exact .inl (hsame (by rw [hq]))
  | _ => exact .inl (hsame (Same.data ‹_›))

@[simp] theorem Cause.ret_wakers (c : Cause) (f : Inner) : (c.ret f : Pc W).wakers = [] := by
  cases c <;> rfl

@[simp] theorem Origin.ret_wakers (o : Origin) : (o.ret : Pc W).wakers = [] := by
  cases o with
  | user => rfl
  | cancel f c => exact c.ret_wakers f

@[simp] theorem Cause.shared_woken (c : Cause) (s : Shared W) : (c.shared s i).woken = s.woken := by
  cases c <;> rfl

@[simp] theorem Origin.shared_woken (o : Origin) (s : Shared W) : (o.shared s i).woken = s.woken := by
  cases o with
  | user => rfl
  | cancel f c => exact c.shared_woken s

/-- A call keeps the wakers that it has taken, or calls one of them. -/
theorem Goes.wakers (h : Goes willWake w w' i p e p') :
    (∀ wk ∈ p.wakers, wk ∈ p'.wakers) ∧ w'.shared.woken = w.shared.woken ∨
      ∃ wk, p.wakers = wk :: p'.wakers ∧ w'.shared.woken = w.shared.woken ++ [wk] := by
  have hnone : p.wakers = [] → w'.shared.woken = w.shared.woken →
      (∀ wk ∈ p.wakers, wk ∈ p'.wakers) ∧ w'.shared.woken = w.shared.woken ∨
        ∃ wk, p.wakers = wk :: p'.wakers ∧ w'.shared.woken = w.shared.woken ++ [wk] :=
    fun h h' => .inl ⟨by simp [h], h'⟩
  cases h with
  | instr p e hv hs => exact .inl ⟨fun _ h => h, by rw [hs.shared]⟩
  | goto f p p' hg hq hv hs => exact hnone rfl (by rw [hs])
  | done f p c h hd hs => exact hnone rfl (by rw [hs, Cause.shared_woken])
  | removed f c hv hd hs => exact hnone rfl (by rw [hs, Cause.shared_woken])
  | stored o k e hv hv' he hd hs => exact hnone rfl (by rw [hs, Origin.shared_woken])
  | set o k wk x hv hv' hs => exact .inl ⟨fun _ h => h, by rw [hs.shared]⟩
  | unlock o k wk hv hs => exact .inl ⟨fun _ h => h, by rw [hs.shared]⟩
  | wake o k wk hd hs =>
    rw [hs, Origin.shared_woken, Origin.ret_wakers]
    cases wk with
    | none => exact .inl ⟨by simp [Pc.wakers], rfl⟩
    | some wk => exact .inr ⟨wk, rfl, rfl⟩
  | generation hq hs => exact hnone rfl (by rw [hs])
  | drained d x ws ws' hv hv' hd hws =>
    exact .inl ⟨fun wk h => by simp_all [Pc.wakers, ForEachPc.wakers], by rw [hd.shared]⟩
  | dropNode d ws b hv hv' hs => exact .inl ⟨fun _ h => h, by rw [hs.shared]⟩
  | forEach p p' e hp hr hd hg hs hl hw =>
    rcases hw with ⟨hw, hs⟩ | ⟨wk, hw, hs⟩
    · exact .inl ⟨fun wk h => by simpa [Pc.wakers, hw] using h, hs⟩
    · exact .inr ⟨wk, by simpa [Pc.wakers] using hw, hs⟩
  | closed d ws hv hs => exact .inl ⟨fun _ h => h, by rw [hs.shared]⟩
  | call wk ws hd hs => exact .inr ⟨wk, rfl, by rw [hs]; rfl⟩
  | _ =>
    first
    | exact hnone rfl (by rw [Same.shared ‹_›])
    | exact hnone rfl (by rw [Writes.shared ‹_›])

/-- Where a call with a marked node is in its operation. -/
theorem Pc.Fits.mark_view {v : View ℕ} (h : p.Fits i v) (hk : p.mark = some k) :
    v.own.runs = false ∧ v.upd.runs = false ∧ v.op ≠ some .dequeuing := by
  unfold Pc.mark at hk
  split at hk
  case h_1 o _ _ =>
    obtain ⟨x, rfl⟩ := h.2
    exact ⟨o.own_runs, rfl, by simp⟩
  case h_2 o _ _ => rcases h.2 with ⟨x, rfl⟩ | rfl <;> exact ⟨o.own_runs, rfl, by simp⟩
  case h_3 =>
    obtain ⟨h₁, h₂, b, h₃⟩ := h
    simp [h₁, h₂, h₃, OwnOp.runs, UpdOp.runs]
  case h_4 =>
    obtain ⟨h₁, h₂, ⟨b, h₃⟩ | h₃⟩ := h <;> simp [h₁, h₂, h₃, OwnOp.runs, UpdOp.runs]
  case h_5 => cases hk

/-- The task that moves has stored the notification in the step, or before. -/
theorem Goes.marks (h : Goes willWake w w' i p e p') (hf : p.Fits i (w.view i)) (hp : w.pc i = p)
    (hp' : w'.pc i = p') (hk : Marks w' i x k) :
    w'.q.mem.data x = ⟨none, some k⟩ ∨ Marks w i x k ∧ w'.q.mem.data = w.q.mem.data := by
  obtain ⟨hk, hx⟩ := hk
  rw [hp'] at hk
  have hwrites : ∀ {y k'}, Writes w w' y ⟨none, some k'⟩ → k' = k → x = y →
      w'.q.mem.data x = ⟨none, some k⟩ := fun h hk hy => by simp [h.data, hy, hk]
  cases h with
  | instr p e hv hs =>
    obtain ⟨hown, hupd, hne⟩ := hf.mark_view hk
    obtain ⟨o, o', ho, hop, hw'⟩ := hv.holder_inv hown hupd
    rw [hw'] at hx
    obtain ⟨o'', rfl, hx⟩ := Option.bind_eq_some_iff.1 hx
    rcases hop.target_inv hx with hx | rfl
    · exact .inr ⟨⟨hp ▸ hk, by rw [ho]; exact hx⟩, hs.data⟩
    · exact absurd ho hne
  | mark o k' y hv hv' hd =>
    rw [hv'] at hx
    exact .inl (hwrites hd (Option.some.inj hk) (Option.some.inj hx).symm)
  | drained d y ws ws' hv hv' hd =>
    rw [hv'] at hx
    exact .inl (hwrites hd (Option.some.inj hk) (Option.some.inj hx).symm)
  | set o k' wk y hv hv' hs =>
    rw [hv'] at hx
    exact .inr ⟨⟨by rw [hp]; exact hk, by rw [hv]; exact hx⟩, hs.data⟩
  | dropNode d ws b hv hv' hs =>
    refine .inr ⟨⟨by rw [hp]; exact hk, ?_⟩, hs.data⟩
    rw [hv'] at hx
    rw [hv]
    cases b <;> exact hx
  | done f p c h hd hs => simp at hk
  | removed f c hv hd hs => simp at hk
  | stored o k' e hv hv' he hd hs => simp at hk
  | wake o k' wk hd hs => simp at hk
  | forEach p₀ p₁ e hp₁ hr hd hg hs =>
    unfold Pc.mark at hk
    split at hk
    case h_3 heq =>
      cases heq
      exact absurd rfl (hp₁ _ _).1
    case h_4 heq =>
      cases heq
      exact absurd rfl (hp₁ _ _).2
    all_goals simp_all
  | _ => cases hk

theorem Noted.marks_step (h : Noted w) (hw : w.Ok cfg a) (hc : Control w)
    (hm : (notify willWake).Moves cfg a w i n w' e) (hk : Marks w' j x k) :
    w'.q.mem.data x = ⟨none, some k⟩ := by
  by_cases hj : j = i
  · subst hj
    rcases (hc.goes hm).1.marks (hc j) rfl rfl hk with hd | ⟨hk', hd⟩
    · exact hd
    · rw [hd]
      exact h.marks hk'
  · obtain ⟨hk₁, hk₂⟩ := hk
    rw [hm.pc_ne hj] at hk₁
    rw [hm.view_ne hj] at hk₂
    rw [hm.data_of_target hw hj hk₂]
    exact h.marks ⟨hk₁, hk₂⟩

/-- What a call does that takes a node out of its list. -/
theorem Pc.Fits.target {v : View ℕ} {o : HolderOp ℕ} (h : p.Fits i v) (hf : p ≠ .fault)
    (ho : v.op = some o) (hx : o.target = some x) (hr : o.runs = true) : ∃ k, p.mark = some k := by
  cases p with
  | fut f p =>
    cases p <;>
      simp only [Fits, FutPc.Fits, View.Asked, View.Entering, View.Leaving, View.Dropping] at h <;>
      grind [HolderOp.target]
  | single o' k p =>
    have h := h.2
    cases p <;> simp only [SinglePc.Fits, View.Asking] at h <;>
      first | exact ⟨_, rfl⟩ | grind [HolderOp.target, HolderOp.runs]
  | waiters p =>
    cases p with
    | forEach p =>
      have hp := h.2.2
      rw [ho] at hp
      cases p <;> simp only [ForEachPc.Fits] at hp <;>
        first | exact ⟨_, rfl⟩ | grind [HolderOp.target, HolderOp.runs]
    | _ =>
      simp only [Fits, WaitersPc.Fits] at h
      grind [HolderOp.target]
  | fault => exact absurd rfl hf
  | _ =>
    rw [show v = _ from h] at ho
    cases ho

/-- Only its own task removes a node that is not in hand with a handle. -/
theorem Pc.Fits.removing {v : View ℕ} {s : ℕ} {c : Caller} (h : p.Fits i v) (hf : p ≠ .fault)
    (ho : v.op = some (.removing x s c)) (hc : c ≠ .handle) : x = i ∧ p.waits = false := by
  cases p with
  | fut f p =>
    cases p <;>
      simp only [Fits, FutPc.Fits, View.Asked, View.Entering, View.Leaving, View.Dropping] at h <;>
      grind [Pc.waits, FutPc.waits]
  | single o' k p =>
    have h := h.2
    cases p <;> simp only [SinglePc.Fits, View.Asking] at h <;> grind
  | waiters p =>
    cases p with
    | forEach p =>
      have hp := h.2.2
      rw [ho] at hp
      cases p <;> simp only [ForEachPc.Fits] at hp <;> grind
    | _ =>
      simp only [Fits, WaitersPc.Fits] at h
      grind
  | fault => exact absurd rfl hf
  | _ =>
    rw [show v = _ from h] at ho
    cases ho

/-- Where the lock is held to drop a `Drain`, it is at the end of a `for_each`. -/
theorem Pc.Fits.closing {v : View ℕ} {d : DrainId} (h : p.Fits i v) (hf : p ≠ .fault)
    (ho : v.op = some (.closing d)) : ∃ f, p.forEach? = some f ∧ f.id = d ∧ f.isDone = true := by
  obtain ⟨f, hf, hid⟩ := h.drainId hf ho rfl
  refine ⟨f, hf, hid, ?_⟩
  rw [forEach?_eq_some hf] at h
  have hp := h.2.2
  rw [ho] at hp
  cases f <;> simp only [ForEachPc.Fits] at hp
  case closing => rfl
  all_goals simp at hp

/-- A node of another task is removed by a call that has stored a notification in it. -/
theorem Control.removes (hc : Control w) (hf : ∀ i, w.pc i ≠ .fault)
    (hd : DrainsOk (Pc.forEach? : Pc W → Option (ForEachPc W)) w a)
    (hm : (notify willWake).Moves cfg a w i n w' e) (hx : a.Member x) (hx' : ¬ (a.apply e).Member x) :
    (∃ k, Marks w i x k) ∨ x = i ∧ (w.pc i).waits = false := by
  obtain ⟨-, o, ho, ⟨ht, hr⟩ | ⟨s, c, rfl, hck⟩ | ⟨d, rfl, hxd⟩⟩ := hm.removes hx hx'
  · obtain ⟨k, hk⟩ := (hc i).target (hf i) ho ht hr
    exact .inl ⟨k, hk, by rw [ho]; exact ht⟩
  · exact .inr ((hc i).removing (hf i) ho hck)
  · obtain ⟨f, hp, rfl, hdone⟩ := (hc i).closing (hf i) ho
    simp [hd.done hp hdone] at hxd

/-- Where a future starts to wait, its node is new or has not been enqueued. -/
theorem Goes.waits (h : Goes willWake w w' i p e p') (hf : p.Fits i (w.view i))
    (hp' : p'.waits = true) :
    p.waits = true ∨ e = .create i ∨ (w.view i).own = .unqueued ∧ e = .tau := by
  cases h with
  | instr p e hv hs => exact .inl hp'
  | create hd => exact .inr (.inl rfl)
  | loaded g hd => exact .inr (.inl rfl)
  | created hs => exact .inl rfl
  | goto f p p' hg hq hv hs =>
    left
    cases hg <;> simp_all [Pc.waits, FutPc.waits]
  | state f p p' hp hv hs =>
    left
    rcases hp with ⟨r, cx, rfl, rfl⟩ | ⟨c, rfl, rfl⟩ <;> exact hp'
  | enqueue f cx st hv hs => exact .inr (.inr ⟨by rw [hf.2], rfl⟩)
  | done f p c h hd hs => simp at hp'
  | removed f c hv hd hs => simp at hp'
  | stored o k' e hv hv' he hd hs => simp at hp'
  | wake o k' wk hd hs => simp at hp'
  | remove f p c hp hv hv' hs => cases hp'
  | _ =>
    first
    | cases hp'
    | exact .inl hp'

theorem Noted.waits_step (h : Noted w) (hw : w.Ok cfg a) (hc : Control w) (hf : ∀ i, w.pc i ≠ .fault)
    (hd : DrainsOk (Pc.forEach? : Pc W → Option (ForEachPc W)) w a)
    (hm : (notify willWake).Moves cfg a w i n w' e) (hx : (w'.pc x).waits = true)
    (hx' : Marked w'.q x) : ∃ k, w'.q.mem.data x = ⟨none, some k⟩ := by
  have hgo := (hc.goes hm).1
  have hcreate : e ≠ .create x := by
    rintro rfl
    exact hm.not_marked_of_create hw hx'
  have hkeep : (∃ k, w.q.mem.data x = ⟨none, some k⟩) →
      (x = i → (w.view i).own ≠ .unqueued ∧ (w.view i).op ≠ some (.queued i)) →
      ∃ k, w'.q.mem.data x = ⟨none, some k⟩ := by
    rintro ⟨k, hn⟩ ho
    rcases hgo.data (hc i) rfl x with hd | ⟨rfl, hd | ⟨hd, -⟩⟩ | ⟨k, hd, -⟩
    · exact ⟨k, hd.trans hn⟩
    · exact absurd hd.1 hcreate
    · exact (hd.elim (ho rfl).1 (ho rfl).2).elim
    · exact ⟨k, hd⟩
  have hstep : (w.pc x).waits = true → ∃ k, w'.q.mem.data x = ⟨none, some k⟩ := by
    intro hwx
    rcases hm.marked_cases hw hx' with hx' | hr
    · refine hkeep (h.waits hwx hx') ?_
      rintro rfl
      exact ⟨fun hun => hw.not_marked hun hx', fun hl => hw.not_marked_of_queued hl hx'⟩
    · rcases hc.removes hf hd hm (Abs.member_of_removes hr hm.allows)
        ((hm.ok' hw).inv.not_member_of_marked hx') with ⟨k, hk⟩ | ⟨rfl, hk⟩
      · have hd := h.marks hk
        rcases hgo.data (hc i) rfl x with hd' | ⟨rfl, hd' | ⟨-, rfl, -⟩⟩ | ⟨k, hd', -⟩
        · exact ⟨k, hd'.trans hd⟩
        · exact absurd hd'.1 hcreate
        · simp [Event.Removes] at hr
        · exact ⟨k, hd'⟩
      · simp [hwx] at hk
  by_cases hj : x = i
  · subst hj
    rcases hgo.waits (hc x) hx with hwx | rfl | ⟨hun, rfl⟩
    · exact hstep hwx
    · exact absurd rfl hcreate
    · rcases hm.marked_cases hw hx' with hx' | hr
      · exact absurd hx' (hw.not_marked hun)
      · simp [Event.Removes] at hr
  · exact hstep (by rwa [← hm.pc_ne hj])

/-! ## No `unwrap` fails -/

/-- `wake_single` has the lock, and the queue has a node. -/
structure Single (w : WorldOf W) (a : Abs ℕ) : Prop where
  take : ∀ {i o k}, w.pc i = .single o k .take → a.queue ≠ []
  dequeued : ∀ {i o k}, w.pc i = .single o k .dequeued → (w.view i).op ≠ some .guard

theorem Single.init : Single (init : WorldOf W) (.init unnotified) :=
  ⟨fun h => by simp [Notify.init] at h, fun h => by simp [Notify.init] at h⟩

theorem Cause.ret_ne_single (c : Cause) (f : Inner) {o : Origin} {s : SinglePc W} :
    c.ret f ≠ .single o k s := by
  cases c <;> exact fun h => by cases h

theorem Origin.ret_ne_single (o o' : Origin) {s : SinglePc W} : o.ret ≠ .single o' k s := by
  cases o with
  | user => exact fun h => by cases h
  | cancel f c => exact c.ret_ne_single f

theorem Single.step (h : Single w a) (hw : w.Ok cfg a) (hc : Control w)
    (hm : (notify willWake).Moves cfg a w i n w' e) : Single w' (a.apply e) where
  take := fun {j o k} hp => by
    by_cases hj : j = i
    · subst hj
      have hgo := (hc.goes hm).1
      have hf := hc j
      have hall := hm.allows
      generalize w.pc j = p at hgo hf
      generalize w'.pc j = p' at hgo hp
      cases hgo with
      | instr p e hv hs =>
        subst hp
        rw [show w.view j = ⟨o.own, .idle, some .guard⟩ from hf.2] at hv
        obtain ⟨b, b', hb, hop, -⟩ := hv.holder_inv o.own_runs rfl
        obtain rfl := Option.some.inj hb
        cases hop
        cases ‹HolderOp.long _ = true›
      | guarded o k hq hs => exact hall
      | done f p c h hd hs => exact absurd hp (c.ret_ne_single f)
      | removed f c hv hd hs => exact absurd hp (c.ret_ne_single f)
      | stored o' k e hv hv' he hd hs => exact absurd hp (o'.ret_ne_single o)
      | wake o' k wk hd hs => exact absurd hp (o'.ret_ne_single o)
      | _ => cases hp
    · rw [hm.pc_ne hj] at hp
      have hf := hc j
      rw [hp] at hf
      exact hm.queue_ne_nil (World.op_of_view (congrArg View.op hf.2)).1 hj (h.take hp)
  dequeued := fun {j o k} hp => by
    by_cases hj : j = i
    · subst hj
      have hgo := (hc.goes hm).1
      have hf := hc j
      generalize hpc : w.pc j = p at hgo hf
      generalize w'.pc j = p' at hgo hp
      cases hgo with
      | instr p e hv hs =>
        subst hp
        have hne := h.dequeued hpc
        have hf := hf.2
        generalize w'.view j = v' at hv
        rcases hf with hf | hf | ⟨x, hf⟩
        · rw [hf] at hv
          obtain ⟨b, b', hb, hop, rfl⟩ := hv.holder_inv o.own_runs rfl
          obtain rfl := Option.some.inj hb
          cases hop <;> simp
        · exact absurd (congrArg View.op hf) hne
        · rw [hf] at hv
          obtain ⟨b, b', hb, hop, rfl⟩ := hv.holder_inv o.own_runs rfl
          obtain rfl := Option.some.inj hb
          cases hop
          simp
      | take o k e c hck op hv hv' =>
        rw [hv', hw.queueState_of_ne_nil (h.take hpc)] at *
        rcases hck with rfl | rfl <;> cases hv <;> simp_all
      | done f p c h hd hs => exact absurd hp (c.ret_ne_single f)
      | removed f c hv hd hs => exact absurd hp (c.ret_ne_single f)
      | stored o' k e hv hv' he hd hs => exact absurd hp (o'.ret_ne_single o)
      | wake o' k wk hd hs => exact absurd hp (o'.ret_ne_single o)
      | _ => cases hp
    · rw [hm.pc_ne hj] at hp
      rw [hm.view_ne hj]
      exact h.dequeued hp

/-! ## Nodes that their tasks have taken out of the queue -/

theorem next_ne_reset {r : InstrOf W} (hr : next willWake w i n = some r) : r.call ≠ some .reset := by
  unfold next futNext singleNext waitersNext start ForEachPc.next at hr
  repeat' split at hr
  all_goals grind

/-- The task has taken its node out of the queue, or has found it so, in a `cancel` that goes on. -/
def Pc.Away (v : View ℕ) : Pc W → Prop
  | .fut _ (.removing _) => v.op = some .guard
  | .single (.cancel _ _) _ _ => True
  | _ => False

/-- Only a poll enqueues a node. -/
theorem Pc.Fits.inserting (h : p.Fits i v) (hf : p ≠ .fault)
    (hv : (∃ m, v.own = .inserting m) ∨ v.own = .refusing) : ∃ f cx st, p = .fut f (.enqueued cx st) := by
  cases p with
  | fut f p =>
    cases p <;>
      simp only [Fits, FutPc.Fits, View.Asked, View.Entering, View.Leaving, View.Dropping] at h <;> grind
  | single o k p =>
    have h := h.2
    have : ∀ m, o.own ≠ .inserting m := fun m => by cases o <;> simp [Origin.own]
    have : o.own ≠ .refusing := by cases o <;> simp [Origin.own]
    cases p <;> simp only [SinglePc.Fits, View.Asking] at h <;> grind
  | waiters p =>
    cases p with
    | forEach p => simp [h.1] at hv
    | _ => simp [show v = _ from h] at hv
  | fault => exact absurd rfl hf
  | _ => simp [show v = _ from h] at hv

theorem Pc.Fits.not_inLoop (h : (w.pc i).Fits i (w.view i)) (hf : w.pc i ≠ .fault)
    (hp : ∀ f cx st, w.pc i ≠ .fut f (.enqueued cx st)) : (w.q.own i).inLoop = false := by
  by_contra hl
  have hown : (∃ m, (w.view i).own = .inserting m) ∨ (w.view i).own = .refusing := by
    rw [show (w.view i).own = (w.q.own i).op from rfl]
    cases ho : w.q.own i <;> simp_all [OwnPc.inLoop, OwnPc.op]
  obtain ⟨f, cx, st, hp'⟩ := h.inserting hf hown
  exact hp f cx st hp'

/-- A node that is dequeued is not queued. -/
theorem Client.Moves.rawState_of_dequeues (hm : (notify willWake).Moves cfg a w i n w' e) {x : NodeId}
    (he : e.Dequeues x) : w'.q.mem.rawState x ≠ .queued := by
  have key : ∀ {k q'}, TaskStep cfg a w i k e q' → q'.mem.rawState x ≠ .queued := by
    intro k q' hs hq
    have hone : q'.mem.prev (.node x) = .one := (hs.sound.dequeues he).2
    rw [Mem.rawState, hone] at hq
    cases hq
  cases hm with
  | op hk hs hw => exact hw ▸ key hs
  | call hi hr hk hl hs hw => exact hw ▸ key hs
  | own hi hr hk hw => simp [Event.Dequeues] at he

theorem Pc.Away.single {o : Origin} {s s' : SinglePc W} {v v' : View ℕ}
    (h : (Pc.single o k s).Away v) : (Pc.single o k s').Away v' := by
  cases o with
  | user => cases h
  | cancel f c => trivial

theorem Cause.not_away_ret {v : View ℕ} (c : Cause) (f : Inner) : ¬ (c.ret f : Pc W).Away v := by
  cases c <;> exact fun h => h

theorem Origin.not_away_ret {v : View ℕ} (o : Origin) : ¬ (o.ret : Pc W).Away v := by
  cases o with
  | user => exact fun h => h
  | cancel f c => exact c.not_away_ret f

/-- A node that its task has taken out of the queue leaves it in the step, or has left it before. -/
theorem Goes.away (h : Goes willWake w w' i p e p') (hw : w.Ok cfg a) (hf : p.Fits i (w.view i))
    (hl : p'.Away (w'.view i)) :
    p.Away (w.view i) ∨ w.q.mem.rawState i ≠ .queued ∧ e = .tau ∨ e.Dequeues i := by
  cases h with
  | instr p e hv hs =>
    unfold Pc.Away at hl
    split at hl
    case h_1 f c =>
      rcases hf with hv₀ | hv₀
      · rw [hv₀] at hv
        obtain ⟨o, o', ho, hop, hw'⟩ := hv.holder_inv rfl rfl
        obtain rfl := Option.some.inj ho
        rw [hw'] at hl
        obtain rfl : o' = some .guard := hl
        cases hop
        exact .inr (.inr (.inl ⟨_, rfl⟩))
      · exact .inl (by rw [hv₀]; rfl)
    case h_2 => exact .inl trivial
    case h_3 => cases hl
  | goto f p p' hg hq hv hs => cases hg <;> cases hl
  | state f p p' hp hv hs => rcases hp with ⟨r, cx, rfl, rfl⟩ | ⟨c, rfl, rfl⟩ <;> cases hl
  | done f p c h hd hs => exact absurd hl (c.not_away_ret f)
  | removed f c hv hd hs => exact absurd hl (c.not_away_ret f)
  | stored o k e hv hv' he hd hs => exact absurd hl o.not_away_ret
  | wake o k wk hd hs => exact absurd hl o.not_away_ret
  | remove f p c hp hv hv' hs =>
    rw [hv'] at hl
    cases hl
  | forward f c k hv hn hk hs =>
    refine .inr (.inl ⟨?_, rfl⟩)
    rw [hw.rawState_of_dequeued (by rw [hv])]
    simp
  | _ => first | cases hl | exact .inl hl.single

/-! ## The lists of wakers -/

/-- A list of wakers is never full when a waker is taken. -/
def Roomy (w : WorldOf W) : Prop := ∀ i p, w.pc i = .waiters (.forEach p) → p.HasRoom

theorem Goes.roomy {p' : ForEachPc W} (h : Goes willWake w w' i p e (.waiters (.forEach p')))
    (hp : w.pc i = p) (hr : Roomy w) : p'.HasRoom := by
  generalize hx : (Pc.waiters (.forEach p') : Pc W) = x at h
  cases h with
  | instr p e hv hs => exact hr i _ (hp.trans hx.symm)
  | drain d e op hv hv' hs =>
    cases hx
    simp [ForEachPc.HasRoom, wakersCapacity]
  | drained d y ws ws' hv hv' hd hws =>
    cases hx
    have hl : ws.length < wakersCapacity := hr i _ hp
    have hle : (w.q.mem.data y).waker.toList.length ≤ 1 := by
      cases (w.q.mem.data y).waker <;> simp
    simp only [ForEachPc.HasRoom, hws, List.length_append]
    omega
  | dropNode d ws b hv hv' hs =>
    cases hx
    exact show (ForEachPc.drop d ws).HasRoom from hr i _ hp
  | forEach p p₁ e hp₁ hrest hd hg hs hl hw =>
    cases hx
    exact hl (hr i _ hp)
  | done f p c h hd hs => cases c <;> cases hx
  | removed f c hv hd hs => cases c <;> cases hx
  | stored o k e hv hv' he hd hs => rcases o with _ | ⟨f, _ | _⟩ <;> cases hx
  | wake o k wk hd hs => rcases o with _ | ⟨f, _ | _⟩ <;> cases hx
  | _ => cases hx

theorem Roomy.step (h : Roomy w) (hc : Control w) (hm : (notify willWake).Moves cfg a w i n w' e) :
    Roomy w' := by
  intro j p hp
  by_cases hj : j = i
  · subst hj
    have hgo := (hc.goes hm).1
    rw [hp] at hgo
    exact hgo.roomy rfl h
  · exact h j p ((hm.pc_ne hj).symm.trans hp)

/-! ## Every run -/

variable {ls : List (TaskId × Bool × Input W)}

/-- What holds in every state that a `Notify` reaches. -/
structure Reached (cfg : Config) (w : WorldOf W) (a : Abs ℕ) : Prop where
  ok : w.Ok cfg a
  control : Control w
  noted : Noted w
  single : Single w a
  drains : DrainsOk (Pc.forEach? : Pc W → Option (ForEachPc W)) w a
  away : ∀ {i}, (w.pc i).Away (w.view i) → w.q.mem.rawState i ≠ .queued
  fault : ∀ i, w.pc i ≠ .fault
  roomy : Roomy w

/-- No step applies an `unwrap` to `None`. -/
theorem Reached.fault_step (h : Reached cfg w a) (hm : (notify willWake).Moves cfg a w i n w' e)
    (j : TaskId) : w'.pc j ≠ .fault := by
  by_cases hj : j = i
  · subst hj
    intro hp'
    have hgo := (h.control.goes hm).1
    have hne := h.fault j
    generalize hp : w.pc j = p at hgo hne
    generalize w'.pc j = p' at hgo hp'
    cases hgo with
    | instr p e hv hs => exact hne hp'
    | empty o k hv hs => exact h.single.dequeued hp (congrArg View.op hv)
    | unwrap f c hv hn hs =>
      obtain ⟨k, hk⟩ := h.noted.waits (x := j) (by rw [hp]; rfl) (h.ok.marked_of_dequeued (by rw [hv]))
      simp [hk] at hn
    | done f p c hd hs => cases c <;> cases hp'
    | removed f c hv hd hs => cases c <;> cases hp'
    | stored o k e hv hv' he hd hs =>
      rcases o with _ | ⟨f, _ | _⟩ <;> cases hp'
    | wake o k wk hd hs =>
      rcases o with _ | ⟨f, _ | _⟩ <;> cases hp'
    | _ => cases hp'
  · rw [hm.pc_ne hj]
    exact h.fault j

/-- A task enqueues its node only in a poll. -/
theorem Reached.ne_enqueue (h : Reached cfg w a) (hm : (notify willWake).Moves cfg a w i n w' e)
    (hp : ∀ f cx st, w.pc x ≠ .fut f (.enqueued cx st)) : e ≠ .enqueue x := by
  rintro rfl
  obtain ⟨rfl, m, u, o, hv⟩ := hm.enqueue_inv
  obtain ⟨f, cx, st, hp'⟩ := (h.control x).inserting (h.fault x) (.inl ⟨m, by rw [hv]⟩)
  exact hp f cx st hp'

/-- A node that is not queued stays so until it is enqueued. -/
theorem Reached.ne_queued (h : Reached cfg w a) (hm : (notify willWake).Moves cfg a w i n w' e)
    (he : e ≠ .enqueue x) (hp' : ∀ f cx st, w'.pc x ≠ .fut f (.enqueued cx st))
    (hx : w.q.mem.rawState x ≠ .queued) : w'.q.mem.rawState x ≠ .queued :=
  (hm.ok' h.ok).inv.rawState_ne_queued ((h.control.step hm x).not_inLoop (h.fault_step hm x) hp')
    (hm.out he (h.ok.inv.out_of_rawState hx))

theorem Pc.Away.ne_enqueued {v : View ℕ} (h : p.Away v) (f : Inner) (cx : Option W) (st : Option ℕ) :
    p ≠ .fut f (.enqueued cx st) := by
  rintro rfl
  cases h

theorem Reached.away_step (h : Reached cfg w a) (hm : (notify willWake).Moves cfg a w i n w' e)
    (hl : (w'.pc j).Away (w'.view j)) : w'.q.mem.rawState j ≠ .queued := by
  have hkeep : (w.pc j).Away (w.view j) → w'.q.mem.rawState j ≠ .queued := fun hl₀ =>
    h.ne_queued hm (h.ne_enqueue hm hl₀.ne_enqueued) hl.ne_enqueued (h.away hl₀)
  by_cases hj : j = i
  · subst hj
    rcases (h.control.goes hm).1.away h.ok (h.control j) hl with hl₀ | ⟨hx, rfl⟩ | he
    · exact hkeep hl₀
    · exact h.ne_queued hm (by simp) hl.ne_enqueued hx
    · exact Client.Moves.rawState_of_dequeues hm he
  · rw [hm.pc_ne hj, hm.view_ne hj] at hl
    exact hkeep hl

theorem Reached.step (h : Reached cfg w a) (hm : (notify willWake).Moves cfg a w i n w' e) :
    Reached cfg w' (a.apply e) where
  ok := hm.ok' h.ok
  control := h.control.step hm
  noted := ⟨h.noted.marks_step h.ok h.control hm,
    h.noted.waits_step h.ok h.control h.fault h.drains hm⟩
  single := h.single.step h.ok h.control hm
  drains := h.drains.step hasForEach (h.control.forEachFits h.fault)
    ((h.control.step hm).forEachFits (h.fault_step hm)) h.ok hm (h.fault_step hm i)
  away := h.away_step hm
  fault := h.fault_step hm
  roomy := h.roomy.step h.control hm

theorem Reached.init : Reached cfg (init : WorldOf W) (.init unnotified) where
  ok := World.init_ok ..
  control := Control.init
  noted := Noted.init
  single := Single.init
  drains := {
    live := fun h => absurd rfl h
    gone := fun h => by simp [Notify.init, Pc.forEach?] at h
    done := fun h => by simp [Notify.init, Pc.forEach?] at h }
  away := fun h => by simp [Notify.init, Pc.Away] at h
  fault := fun _ => by simp [Notify.init]
  roomy := fun _ _ hp => by simp [Notify.init] at hp

/-- The induction rule for a `Notify`. -/
theorem Reached.induct {Q : WorldOf W → Abs ℕ → Prop} (h : Reached cfg w a)
    (hr : (notify willWake).Runs cfg w ls w') (h₀ : Q w a)
    (hQ : ∀ l ∈ ls, ∀ w a w' e, Reached cfg w a →
      (notify willWake).step cfg w l.1 l.2.1 l.2.2 = some w' →
      (notify willWake).Moves cfg a w l.1 l.2.2 w' e → Q w a → Q w' (a.apply e)) :
    ∃ a', Reached cfg w' a' ∧ Q w' a' :=
  hr.induct Reached.ok Reached.step h h₀ hQ

theorem runs_reached (h : (notify willWake).Runs cfg init ls w) : ∃ a, Reached cfg w a := by
  obtain ⟨a, hw, -⟩ := Reached.init.induct (Q := fun _ _ => True) h trivial fun _ _ _ _ _ _ _ _ _ _ =>
    trivial
  exact ⟨a, hw⟩

/-- **`Notify` does not panic.** In every run, also with polls of completed futures, no `unwrap` finds `None`,
no `unreachable!()` is reached, and no waker is pushed to a full list. -/
theorem no_panic (h : (notify willWake).Runs cfg init ls w) :
    (∀ i, w.pc i ≠ .fault) ∧
      ∀ i d ws, w.pc i = .waiters (.forEach (.node d ws)) → ws.length < wakersCapacity := by
  obtain ⟨a, hw⟩ := runs_reached h
  exact ⟨hw.fault, fun i _ _ hp => hw.roomy i _ hp⟩

/-- The task `i` makes `m` steps after the input `n`. -/
def acts (i : TaskId) (n : Input ℕ) (m : ℕ) : List (TaskId × Bool × Input ℕ) :=
  (i, false, n) :: List.replicate m (i, false, .none)

/-- Two futures wait, and a call of `notify_waiters` has taken the waker of the first. -/
def takenActs : List (TaskId × Bool × Input ℕ) :=
  acts 0 (.notified false) 1 ++ acts 0 (.poll 7) 11 ++ acts 1 (.notified false) 1 ++
    acts 1 (.poll 8) 10 ++ acts 2 .notifyWaiters 1 ++ acts 2 (.drain 0) 12

theorem no_panic_takenActs :
    let w := (notify fun _ _ => true).after ⟨.x86, 0⟩ init takenActs
    w.pc 2 = .waiters (.forEach (.node 0 [7])) ∧ [7].length < wakersCapacity := by
  intro w
  have hr : ((notify fun _ _ => true).perform ⟨.x86, 0⟩ init takenActs).isSome := by decide +kernel
  have hp : w.pc 2 = .waiters (.forEach (.node 0 [7])) := by rfl
  exact ⟨hp, (no_panic (Client.runs_after hr)).2 2 0 [7] hp⟩

end Aiq.Notify
