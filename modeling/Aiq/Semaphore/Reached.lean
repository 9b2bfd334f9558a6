import Aiq.Semaphore.Ranges
import Aiq.Task.Tail

/-!
# What holds of a semaphore in every run

The state of the queue is changed by the steps of the tasks in few ways (`writes`), so it can always be
encoded (`StateOk`); a waiter that is about to be enqueued has been filled in (`Filled`). `Reached`
collects what holds in every state that a semaphore reaches (`Reached.induct`).
-/

namespace Aiq.Semaphore

variable {W : Type} {willWake : W → W → Bool} {cfg : Config} {a : Abs ℕ} {w w' : WorldOf W}
  {i j : TaskId} {e : Event ℕ} {n : Input W} {v v' : View ℕ} {k : Kind} {r : InstrOf W}

/-- How a task in a control state changes the state of the queue. -/
inductive Writes (i : TaskId) : Pc W → Event ℕ → Prop
  | fetch (c m s s') (h : FetchCont.fn c m s = some s') : Writes i (.fetch c) (.update i s s')
  | close (s) : Writes i (.close .ask) (.update i s (s ||| closed))
  | cancel (k : Kind) (e : Ending) (acquired : ℕ) : Writes i (.fut k (.removing e acquired)) (.remove i acquired)
  | dropNode (k : Kind) (e : Ending) : Writes i (.fut k (.dropping e)) (.remove i 0)
  | set (o p ws x) : Writes i (.add o (.set p ws)) (.remove x (shift p))
  | unwind (o b x) : Writes i (.add o (.unlock b)) (.remove x 0)
  | drain (p d) : Writes i (.close (.forEach p)) (.drain d closed)

/-- A call that no task of a semaphore makes. -/
def foreign : Call ℕ (Waiter W) → Bool
  | .thread (.compareExchangeState _ _) | .holder .pop => true
  | _ => false

theorem next_not_foreign {c : Call ℕ (Waiter W)} (hr : next willWake w i n = some r)
    (hc : r.call = some c) : foreign c = false := by
  unfold next at hr
  cases hp : w.pc i <;> simp only [hp, reduceCtorEq] at hr
  case idle r' =>
    unfold start permitNext at hr
    repeat' split at hr
    all_goals
      first
      | contradiction
      | obtain rfl := Option.some.inj hr
      | obtain ⟨m, -, rfl⟩ := Option.map_eq_some_iff.1 hr
    all_goals
      first
      | (obtain rfl := Option.some.inj hc
         rfl)
      | (simp at hc; done)
      | (split at hc <;> simp at hc)
  case fut k p =>
    unfold futNext at hr
    repeat' split at hr
    all_goals first | contradiction | obtain rfl := Option.some.inj hr
    all_goals
      first
      | (obtain rfl := Option.some.inj hc
         rfl)
      | simp at hc
  case add o p =>
    cases p <;> simp only [addNext] at hr
    all_goals repeat' split at hr
    all_goals first | contradiction | obtain rfl := Option.some.inj hr
    all_goals
      first
      | (obtain rfl := Option.some.inj hc
         rfl)
      | simp at hc
  case close p =>
    unfold closeNext ForEachPc.next at hr
    repeat' split at hr
    all_goals first | contradiction | obtain rfl := Option.some.inj hr
    all_goals
      first
      | (obtain rfl := Option.some.inj hc
         rfl)
      | simp at hc

/-- An update is made by a `fetch_update_state`, or by `close`. -/
theorem Pc.Fits.update {p : Pc W} {s s' : ℕ} {f : UpdateFn ℕ} {m : ℕ} (h : p.Fits i v)
    (hu : v.upd = .trying f m s ∨ v.upd = .asking (some f) ∨ v.upd = .deciding (some f))
    (hf : f m s = some s') : Writes i p (.update i s s') := by
  have hidle : v.upd ≠ .idle := by
    rintro h
    simp [h] at hu
  cases p with
  | idle r => exact absurd (congrArg View.upd h) hidle
  | fetch c =>
    obtain ⟨m', s₁, rfl⟩ := h
    rcases hu with hu | hu | hu <;> simp only [UpdOp.trying.injEq, reduceCtorEq] at hu
    obtain ⟨rfl, rfl, rfl⟩ := hu
    exact .fetch c m' s₁ s' hf
  | fut k p =>
    suffices v.upd = .idle from absurd this hidle
    cases p <;> simp only [Fits, FutPc.Fits, Asked] at h
    all_goals
      first
      | (subst h; rfl)
      | (rcases h with rfl | rfl | rfl | rfl | rfl | rfl <;> rfl)
  | add o p => exact absurd h.2.1 hidle
  | close p =>
    cases p
    case ask =>
      rcases h with rfl | rfl | rfl <;> rcases hu with hu | hu | hu <;>
        simp only [UpdOp.asking.injEq, UpdOp.deciding.injEq, Option.some.injEq, reduceCtorEq] at hu <;>
        subst hu <;> obtain rfl := Option.some.inj hf <;> exact .close s
    case failed =>
      obtain ⟨d, b, rfl⟩ := h
      exact absurd rfl hidle
    case unwound => obtain ⟨d, ⟨b, rfl⟩ | rfl⟩ := h <;> exact absurd rfl hidle
    case closing => rcases h with ⟨d, rfl⟩ | rfl <;> exact absurd rfl hidle
    all_goals first | exact absurd h.2.1 hidle | exact absurd (congrArg View.upd h) hidle

/-- A node is removed from the queue by `cancel`, by the drop of a node, or by `add_permits`. -/
theorem Pc.Fits.remove {p : Pc W} {x : NodeId} {s : ℕ} {c : Caller} (h : p.Fits i v)
    (ho : v.op = some (.removing x s c)) : Writes i p (.remove x s) := by
  cases p with
  | idle r =>
    rw [show v = ⟨.dead, .idle, none⟩ from h] at ho
    simp at ho
  | fetch c' =>
    obtain ⟨m', s₁, rfl⟩ := h
    have := c'.op_runs _ ho
    simp [HolderOp.runs] at this
  | fut k p =>
    cases p <;> simp only [Fits, FutPc.Fits, Asked] at h
    case removing e acquired =>
      subst h
      obtain ⟨rfl, rfl, -⟩ := HolderOp.removing.inj (Option.some.inj ho)
      exact .cancel ..
    case dropping e =>
      rcases h with rfl | rfl | rfl | rfl | rfl <;>
        simp only [Option.some.injEq, HolderOp.removing.injEq, reduceCtorEq] at ho
      obtain ⟨rfl, rfl, -⟩ := ho
      exact .dropNode ..
    all_goals
      first
      | (subst h; simp at ho)
      | (rcases h with rfl | rfl | rfl | rfl | rfl | rfl <;> simp at ho)
  | add o p =>
    obtain ⟨-, -, h⟩ := h
    rw [ho] at h
    cases p <;> simp only [AddPc.Fits, Option.some.injEq, HolderOp.removing.injEq, reduceCtorEq,
      exists_const, or_self, false_or] at h
    case set m ws =>
      obtain ⟨y, rfl, rfl, -⟩ := h
      exact .set ..
    case unlock b =>
      obtain ⟨y, rfl, rfl, -⟩ := h
      exact .unwind ..
    case failed f => cases f <;> simp at h
  | close p =>
    cases p
    case forEach p =>
      obtain ⟨-, -, h⟩ := h
      rw [ho] at h
      cases p <;> simp [ForEachPc.Fits] at h
    case ask => rcases h with rfl | rfl | rfl <;> simp at ho
    case failed =>
      obtain ⟨d, b, rfl⟩ := h
      simp at ho
    case unwound => obtain ⟨d, ⟨b, rfl⟩ | rfl⟩ := h <;> simp at ho
    case closing => rcases h with ⟨d, rfl⟩ | rfl <;> simp at ho
    all_goals
      rw [show v = _ from h] at ho
      simp at ho

/-- The queue is drained by `close`. -/
theorem Pc.Fits.drain {p : Pc W} {d : DrainId} {s : ℕ} (h : p.Fits i v)
    (ho : v.op = some (.newDrain d s)) : Writes i p (.drain d s) := by
  cases p with
  | idle r =>
    rw [show v = ⟨.dead, .idle, none⟩ from h] at ho
    simp at ho
  | fetch c' =>
    obtain ⟨m', s₁, rfl⟩ := h
    have := c'.op_runs _ ho
    simp [HolderOp.runs] at this
  | fut k p =>
    cases p <;> simp only [Fits, FutPc.Fits, Asked] at h
    all_goals
      first
      | (subst h; simp at ho)
      | (rcases h with rfl | rfl | rfl | rfl | rfl | rfl <;> simp at ho)
  | add o p =>
    obtain ⟨-, -, h⟩ := h
    rw [ho] at h
    cases p <;> simp [AddPc.Fits] at h
    case failed f => cases f <;> simp at h
  | close p =>
    cases p
    case forEach p =>
      obtain ⟨-, -, h⟩ := h
      rw [ho] at h
      cases p <;> simp only [ForEachPc.Fits, Option.some.injEq, HolderOp.newDrain.injEq, reduceCtorEq,
        or_false, or_self, exists_false] at h
      obtain ⟨rfl, rfl⟩ := h
      exact .drain ..
    case ask => rcases h with rfl | rfl | rfl <;> simp at ho
    case failed =>
      obtain ⟨d, b, rfl⟩ := h
      simp at ho
    case unwound => obtain ⟨d, ⟨b, rfl⟩ | rfl⟩ := h <;> simp at ho
    case closing => rcases h with ⟨d, rfl⟩ | rfl <;> simp at ho
    all_goals
      rw [show v = _ from h] at ho
      simp at ho

theorem writes (hc : Control w) (hm : (semaphore willWake).Moves cfg a w i n w' e)
    (he : e.writes = true) : Writes i (w.pc i) e := by
  cases hm.mover with
  | op hs hd hv hp hg =>
    cases e <;> simp only [Event.writes, Bool.false_eq_true] at he
    case update t s s' =>
      obtain ⟨rfl, -, f, m, hu, hf⟩ := hv.update_inv
      exact (hc t).update hu hf
    case remove x s =>
      obtain ⟨c, ho⟩ := hv.shrinks_inv.1 x s rfl
      exact (hc i).remove ho
    case drain d s => exact (hc i).drain (hv.shrinks_inv.2 d s rfl)
  | call hr hk hrest hs hv hp hg =>
    obtain ⟨t, t', rfl⟩ := hv.writes_inv he
    cases next_not_foreign hr hk
  | own hr hk hrest hq hv hp hg => cases he

/-! ## The state can be encoded -/

/-- The state that the `fetch_update_state` of the task `i` has loaded. -/
def loaded (w : WorldOf W) (i : TaskId) : Option ℕ :=
  match w.q.upd i with
  | .attempt _ _ _ s => some s
  | _ => none

theorem loaded_of_trying {f : UpdateFn ℕ} {m s : ℕ} (h : (w.view i).upd = .trying f m s) :
    loaded w i = some s := by
  rw [loaded, UpdPc.eq_of_trying h]

/-- The state of the queue, and the states that a `fetch_update_state` has loaded, can be encoded. -/
structure StateOk (w : WorldOf W) (a : Abs ℕ) : Prop where
  state : a.state ≤ maxState
  loaded : ∀ {i f m s}, (w.view i).upd = .trying f m s → s ≤ maxState

theorem FetchCont.fn_le {c : FetchCont W} {m s s' : ℕ} (hs : s ≤ maxState) (h : c.fn m s = some s') :
    s' ≤ maxState := by
  have hacq : ∀ {n}, checkAcquirePermits s n = some s' → s' ≤ maxState := fun h => by
    unfold checkAcquirePermits at h
    repeat' split at h
    all_goals first | contradiction | obtain rfl := Option.some.inj h
    exact (Nat.sub_le ..).trans hs
  cases c
  case acquire k wk => exact hacq h
  case retry k wk => exact hacq h
  case tryAcquire k => exact hacq h
  case forget n => exact (forgetState_inv h).2
  case add o again l p =>
    obtain ⟨h₁, rfl⟩ := checkAddPermits_inv h
    have := maxPermits_eq
    have := maxState_eq
    omega

theorem Writes.le {p : Pc W} (h : Writes i p e) (hp : p.Ok) (ha : a.state ≤ maxState)
    (hal : a.Allows e) : (a.apply e).state ≤ maxState := by
  have hm := maxState_eq
  have hremove : ∀ {x s}, s ≤ maxState → (a.apply (.remove x s)).state ≤ maxState := fun hs => by
    simp only [Abs.apply]
    split
    · exact hs
    · exact ha
  cases h with
  | fetch c m s s' h => exact c.fn_le (hal.2 ▸ ha) h
  | close s => exact or_closed_le (hal.2 ▸ ha)
  | cancel k e acquired => exact hremove (by have : acquired < 2 ^ 32 := hp.2; omega)
  | dropNode k e => exact hremove (Nat.zero_le _)
  | set o p ws x => exact hremove hp.2.2.1
  | unwind o b x => exact hremove (Nat.zero_le _)
  | drain p d => exact closed_le_maxState

/-- What holds of the state of the queue holds of the states that are loaded. -/
theorem loaded_step {P : ℕ → Prop} (hs : P a.state)
    (hl : ∀ {j f m s}, (w.view j).upd = .trying f m s → P s) (hw : w.Ok cfg a)
    (hm : (semaphore willWake).Moves cfg a w i n w' e) {f : UpdateFn ℕ} {m s : ℕ}
    (hu : (w'.view j).upd = .trying f m s) : P s := by
  have hload : w.q.mem.queueState = some s → P s := fun h => (hw.queueState_eq_some.1 h).2 ▸ hs
  by_cases hj : j = i
  · subst hj
    cases hm.mover with
    | op hs hd hv hp hg =>
      rcases hv.trying_inv hu with ⟨f, m, hu⟩ | hs
      · exact hl hu
      · exact hload hs
    | call hr hk hrest hs hv hp hg =>
      rcases hv.trying_inv hu with ⟨f, m, hu⟩ | hs
      · exact hl hu
      · exact hload hs
    | own hr hk hrest hq hv hp hg => exact hl (hv ▸ hu)
  · exact hl (hm.view_ne hj ▸ hu)

theorem StateOk.step (h : StateOk w a) (hw : w.Ok cfg a) (hc : Control w) (hr : Ranges w)
    (hm : (semaphore willWake).Moves cfg a w i n w' e) : StateOk w' (a.apply e) where
  state := by
    cases he : e.writes with
    | false => exact (Abs.state_apply he).symm ▸ h.state
    | true => exact (writes hc hm he).le (hr.pc i) h.state hm.allows
  loaded := loaded_step h.state h.loaded hw hm

/-! ## Waiters are filled in -/

/-- A waiter that is about to be enqueued has a waker, and the count of the permits that it lacks. -/
def Filled (w : WorldOf W) : Prop := ∀ i k wk st,
  w.pc i = .fut k (.stored wk st) ∨ w.pc i = .fut k (.enqueued wk st) → (w.view i).own.out = true →
    ∃ wk', w.q.mem.data i = ⟨some wk', k.request - permitsOf st⟩

theorem fetch_fut {c : FetchCont W} {g : Shared W} {q : State ℕ (Waiter W)} {p' : FutPc W}
    (hp : (fetch i g c).pc e q = .fut k p') : c.err none = .fut k p' := by
  unfold fetch at hp
  dsimp only at hp
  split at hp
  · exact hp
  · simp at hp

/-- A step of a future, seen from where it leads. -/
theorem next_fut {q : State ℕ (Waiter W)} {p' : FutPc W} (hr : next willWake w i n = some r)
    (hp : r.pc e q = .fut k p') (h₁ : p' ≠ .created) (h₂ : ∀ e, p' ≠ .canceled e) :
    ∃ p, w.pc i = .fut k p ∧ futNext willWake w i k p n = some r := by
  unfold next at hr
  cases hi : w.pc i <;> simp only [hi, reduceCtorEq] at hr
  case idle r' =>
    cases n <;> simp only [start, permitNext, reduceCtorEq] at hr
    case acquireMany owned m =>
      obtain rfl := Option.some.inj hr
      exact absurd (Pc.fut.inj hp).2.symm h₁
    case permitSplit p m =>
      obtain ⟨m', -, rfl⟩ := Option.map_eq_some_iff.1 hr
      split at hp <;> simp at hp
    all_goals repeat' split at hr
    all_goals
      first
      | contradiction
      | obtain rfl := Option.some.inj hr
      | obtain ⟨m, -, rfl⟩ := Option.map_eq_some_iff.1 hr
    all_goals
      first
      | (have hf := fetch_fut hp
         simp [FetchCont.err] at hf)
      | simp at hp
  case fut k' p =>
    suffices k' = k by subst this; exact ⟨p, rfl, hr⟩
    unfold futNext at hr
    repeat' split at hr
    all_goals first | contradiction | obtain rfl := Option.some.inj hr
    all_goals
      first
      | exact (Pc.fut.inj hp).1
      | (have hf := fetch_fut hp
         simp only [FetchCont.err, Pc.fut.injEq] at hf
         exact hf.1)
      | simp at hp
  case add o p =>
    have hret : ∀ b, (o.ret b : Pc W) ≠ .fut k p' := fun b h => by
      cases o with
      | user => simp [AddOwner.ret] at h
      | cancel k' e' => exact h₂ _ (Pc.fut.inj h).2.symm
    cases p <;> simp only [addNext] at hr
    all_goals repeat' split at hr
    all_goals first | contradiction | obtain rfl := Option.some.inj hr
    all_goals
      first
      | exact absurd hp (hret _)
      | (have hf := fetch_fut hp
         simp [FetchCont.err] at hf)
      | simp at hp
  case close p =>
    obtain ⟨⟨p', h⟩ | h | h, -⟩ := closeNext_pc (e := e) hr q <;> rw [h] at hp <;> simp at hp

theorem next_stored {wk : W} {st : Option ℕ} {q : State ℕ (Waiter W)}
    (hr : next willWake w i n = some r) (hp : r.pc e q = .fut k (.stored wk st)) :
    r.call = some (.withDataMut (Waiter.fill k st wk)) := by
  obtain ⟨p, -, hr⟩ := next_fut hr hp (by simp) (by simp)
  unfold futNext at hr
  repeat' split at hr
  all_goals first | contradiction | obtain rfl := Option.some.inj hr
  all_goals
    first
    | (obtain ⟨rfl, rfl⟩ : _ ∧ _ := by simpa using hp
       rfl)
    | (have hf := fetch_fut hp
       simp [FetchCont.err] at hf)
    | simp at hp

theorem next_enqueued {wk : W} {st : Option ℕ} {q : State ℕ (Waiter W)}
    (hr : next willWake w i n = some r) (hp : r.pc e q = .fut k (.enqueued wk st)) :
    w.pc i = .fut k (.stored wk st) ∧ r.call = some (.tryEnqueue (· = st)) := by
  obtain ⟨p, hi, hr⟩ := next_fut hr hp (by simp) (by simp)
  rw [hi]
  unfold futNext at hr
  repeat' split at hr
  all_goals first | contradiction | obtain rfl := Option.some.inj hr
  all_goals
    first
    | (obtain ⟨rfl, rfl⟩ : _ ∧ _ := by simpa using hp
       exact ⟨rfl, rfl⟩)
    | (have hf := fetch_fut hp
       simp [FetchCont.err] at hf)
    | simp at hp

/-- An instruction of a `try_enqueue_with_queue_state` that leaves the node out of the lists. -/
theorem FutPc.Fits.enqueued_out {wk : W} {st s : Option ℕ} (h : (FutPc.enqueued wk st).Fits i v)
    (hs : InstrStep i s v e v') (ho : v'.own.out = true) : v.own.out = true := by
  rcases h with rfl | rfl | rfl | rfl | rfl <;> first | rfl | cases hs <;> cases ho

/-- Where a task goes on when its operation has returned, with the event `e`. -/
inductive Returns (w : WorldOf W) (i : TaskId) (q : State ℕ (Waiter W)) : Pc W → Event ℕ → Pc W → Prop
  | ok {c e s} (h : w.fetched i e q = some (.ok s)) : Returns w i q (.fetch c) e (c.ok s)
  | err {c e st} (h : w.fetched i e q = some (.error st)) : Returns w i q (.fetch c) e (c.err st)
  | removedLast (k : Kind) (e' acquired x) :
      Returns w i q (.fut k (.removing e' acquired)) (.removed x true) (.fut k (.unlock e' 0))
  | removed (k : Kind) (e' acquired x) :
      Returns w i q (.fut k (.removing e' acquired)) (.removed x false) (.fut k (.removed e' acquired))
  | set (o p ws x b) : Returns w i q (.add o (.set p ws)) (.removed x b)
      (.add o (if b ∨ p = 0 then .done ws
        else if ws.length = wakersCapacity then .full p ws
        else .take p ws))
  | guarded : Returns w i q (.close .ask) (.guarded i) (.close .drain)
  | closed (e : Event ℕ) : Returns w i q (.close .ask) e (.idle .ok)

/-- After an instruction a task is where it was, or its operation has returned. -/
theorem observe_pc (w : WorldOf W) (i : TaskId) (e : Event ℕ) (q : State ℕ (Waiter W)) :
    (observe w i e q).1 = w.pc i ∨ Returns w i q (w.pc i) e (observe w i e q).1 := by
  unfold observe
  cases hp : w.pc i with
  | idle r => exact .inl rfl
  | fetch c =>
    dsimp only
    split
    · exact .inl rfl
    · exact .inr (.ok ‹_›)
    · exact .inr (.err ‹_›)
  | fut k p =>
    cases p <;> try exact .inl rfl
    case removing e' acquired =>
      dsimp only
      split
      · exact .inr (.removedLast ..)
      · exact .inr (.removed ..)
      · exact .inl rfl
  | add o p =>
    cases p <;> try exact .inl rfl
    case set p ws =>
      dsimp only
      split
      · exact .inr (.set ..)
      · exact .inl rfl
  | close p =>
    cases p <;> try exact .inl rfl
    case ask =>
      dsimp only
      split
      · rename_i he
        exact he ▸ .inr .guarded
      · split
        · exact .inr (.closed e)
        · exact .inl rfl

/-- Where a future goes on when its operation has returned. -/
theorem Returns.fut_inv {q : State ℕ (Waiter W)} {x : Pc W} {p : FutPc W}
    (h : Returns w i q x e (.fut k p)) :
    p = .got ∨ (∃ e', p = .canceled e') ∨ (∃ wk, p = .node wk) ∨
      (∃ wk st, p = .failed wk st ∧ x = .fetch (.retry k wk)) ∨ (∃ e', p = .unlock e' 0) ∨
      ∃ e' m y, p = .removed e' m ∧ x = .fut k (.removing e' m) ∧ e = .removed y false := by
  have hret : ∀ {o : AddOwner} {b}, (.fut k p : Pc W) = o.ret b → ∃ e', p = .canceled e' := fun {o b} h => by
    cases o with
    | user => simp [AddOwner.ret] at h
    | cancel k' e' => exact ⟨_, (Pc.fut.inj h).2⟩
  generalize hy : (Pc.fut k p : Pc W) = y at h
  cases h
  case ok c s hs =>
    cases c <;> simp only [FetchCont.ok, reduceCtorEq] at hy
    case retry k' wk => exact .inl (Pc.fut.inj hy).2
    case add o again l m =>
      cases l
      · exact .inr (.inl (hret hy))
      · simp at hy
  case err c st hs =>
    cases c <;> simp only [FetchCont.err, reduceCtorEq] at hy
    case acquire k' wk => exact .inr (.inr (.inl ⟨_, (Pc.fut.inj hy).2⟩))
    case retry k' wk =>
      obtain ⟨rfl, rfl⟩ := Pc.fut.inj hy
      exact .inr (.inr (.inr (.inl ⟨_, _, rfl, rfl⟩)))
    case add o again l m =>
      cases st <;> cases l
      · simp at hy
      · simp at hy
      · exact .inr (.inl (hret hy))
      · simp at hy
  case removedLast k' e' m x => exact .inr (.inr (.inr (.inr (.inl ⟨e', (Pc.fut.inj hy).2⟩))))
  case removed k' e' m x =>
    obtain ⟨rfl, rfl⟩ := Pc.fut.inj hy
    exact .inr (.inr (.inr (.inr (.inr ⟨e', m, x, rfl, rfl, rfl⟩))))
  all_goals simp at hy

/-- A task that is about to enqueue its node has not come there by an instruction. -/
theorem observe_stored {q : State ℕ (Waiter W)} {p : FutPc W} (h : (observe w i e q).1 = .fut k p)
    (hp : (∃ wk st, p = .stored wk st) ∨ ∃ wk st, p = .enqueued wk st) : w.pc i = .fut k p := by
  rcases observe_pc w i e q with ho | ho
  · exact ho ▸ h
  · rw [h] at ho
    rcases hp with ⟨wk, st, rfl⟩ | ⟨wk, st, rfl⟩ <;> simpa using ho.fut_inv

theorem Filled.step (h : Filled w) (hw : w.Ok cfg a) (hc : Control w)
    (hm : (semaphore willWake).Moves cfg a w i n w' e) : Filled w' := by
  intro j k wk st hp ho
  by_cases hj : j = i
  · subst hj
    cases hm.mover with
    | op hs hd hv hp' hg =>
      rw [hp'] at hp
      have hpc : w.pc j = .fut k (.stored wk st) ∨ w.pc j = .fut k (.enqueued wk st) := by
        rcases hp with hp | hp
        · exact .inl (observe_stored hp (.inl ⟨wk, st, rfl⟩))
        · exact .inr (observe_stored hp (.inr ⟨wk, st, rfl⟩))
      rw [hd]
      refine h j k wk st hpc ?_
      have hf := hc j
      rcases hpc with hp | hp <;> rw [hp] at hf
      · rw [show w.view j = _ from hf]
        rfl
      · have hf : (FutPc.enqueued wk st).Fits j (w.view j) := hf
        exact hf.enqueued_out hv ho
    | call hr hk hrest hs hv hp' hg =>
      rw [hp'] at hp
      rcases hp with hp | hp
      · obtain rfl := Option.some.inj (hk.symm.trans (next_stored hr hp))
        exact ⟨_, hs.data_owner⟩
      · obtain ⟨hi, hk'⟩ := next_enqueued hr hp
        obtain rfl := Option.some.inj (hk.symm.trans hk')
        rcases hs.data_call j with hd | hd
        · rw [hd]
          have hf := hc j
          rw [hi] at hf
          exact h j k wk st (.inl hi) (by rw [show w.view j = _ from hf]; rfl)
        · cases hd
    | own hr hk hrest hq hv hp' hg =>
      rw [hp'] at hp
      rcases hp with hp | hp
      · simpa [hk] using next_stored hr hp
      · simpa [hk] using (next_enqueued hr hp).2
  · rw [hm.pc_ne hj] at hp
    rw [hm.view_ne hj] at ho
    rw [hm.data_ne hw hj ho]
    exact h j k wk st hp ho

/-! ## Every run -/

/-- What holds in every state that a semaphore reaches. -/
structure Reached (cfg : Config) (w : WorldOf W) (a : Abs ℕ) : Prop where
  ok : w.Ok cfg a
  control : Control w
  ranges : Ranges w
  state : StateOk w a
  filled : Filled w
  head : w.q.AtHead

theorem Reached.step (h : Reached cfg w a) (hm : (semaphore willWake).Moves cfg a w i n w' e) :
    Reached cfg w' (a.apply e) where
  ok := hm.ok' h.ok
  control := h.control.step hm
  ranges := h.ranges.step h.control hm
  state := h.state.step h.ok h.control h.ranges hm
  filled := Filled.step h.filled h.ok h.control hm
  head := hm.atHead h.head fun r hr hk => by cases next_not_foreign hr hk

/-- What `Semaphore::new` makes. -/
theorem newState_inv {permits s : ℕ} (h : newState permits = some s) :
    permits ≤ maxPermits ∧ s = 2 * permits := by
  obtain ⟨h₁, h₂⟩ := checkAddPermits_inv h
  omega

theorem Reached.init {permits s : ℕ} (h : newState permits = some s) :
    Reached cfg (init s : WorldOf W) (.init s) where
  ok := World.init_ok ..
  control := Control.init s
  ranges := Ranges.init s
  state := by
    obtain ⟨h₁, rfl⟩ := newState_inv h
    have := maxPermits_eq
    have := maxState_eq
    exact ⟨by simp only [Abs.init]; omega, fun hu => by simp [World.view, State.view, Semaphore.init,
      State.init, UpdPc.op] at hu⟩
  filled := fun i k wk st hp => by simp [Semaphore.init] at hp
  head := fun p hp => by simp [Semaphore.init, State.init] at hp

variable {ls : List (TaskId × Bool × Input W)}

/-- The induction rule for a semaphore. -/
theorem Reached.induct {Q : WorldOf W → Abs ℕ → Prop} (h : Reached cfg w a)
    (hr : (semaphore willWake).Runs cfg w ls w') (h₀ : Q w a)
    (hQ : ∀ l ∈ ls, ∀ w a w' e, Reached cfg w a →
      (semaphore willWake).step cfg w l.1 l.2.1 l.2.2 = some w' →
      (semaphore willWake).Moves cfg a w l.1 l.2.2 w' e → Q w a → Q w' (a.apply e)) :
    ∃ a', Reached cfg w' a' ∧ Q w' a' :=
  hr.induct Reached.ok Reached.step h h₀ hQ

theorem runs_reached {permits s : ℕ} (hs : newState permits = some s)
    (h : (semaphore willWake).Runs cfg (init s) ls w) : ∃ a, Reached cfg w a := by
  obtain ⟨a, hw, -⟩ := (Reached.init hs).induct (Q := fun _ _ => True) h trivial
    fun _ _ _ _ _ _ _ _ _ _ => trivial
  exact ⟨a, hw⟩

end Aiq.Semaphore
