import Aiq.WaitQueue.Delivery

/-!
# No lost wakeup

Setters make a condition true and then call `notify_all`, and the predicates of the `WaitUntil` futures
are that condition. A `WaitUntil` that sleeps has enqueued its node before it evaluated its predicate for
the last time. So once a `notify_all` of a setter has found the queue empty, or has taken its nodes, no
future sleeps in the queue (`Announce`), and when all calls have returned, every future that sleeps has
been dequeued and woken (`no_lost_wakeup`).
-/

namespace Aiq.WaitQueue

variable {W : Type} {willWake : W → W → Bool} {cfg : Config} {a : Abs ℕ} {w w' : WorldOf W}
  {i j : TaskId} {e : Event ℕ} {n : Input W} {r : InstrOf W} {q : State ℕ (Waiter W)} {x : NodeId}
  {wk : W} {m : ℕ}

/-- The predicates of the `WaitUntil` futures are the condition of the setters. -/
def answers (w : WorldOf W) (i : TaskId) (n : Input W) : Bool :=
  match w.pc i, n with
  | .fut .waitUntil _, .answer b => b == w.shared.condition
  | _, _ => true

/-- The task is a setter that has made the condition true. -/
def Pc.sets : Pc W → Bool
  | .call .set | .call (.ask .setAll) | .call (.drain .setAll) | .call (.forEach .setAll _)
  | .call (.final .setAll _ _) => true
  | _ => false

/-- The future is a `WaitUntil` whose last poll returned `Pending`. -/
def Pc.sleeps : Pc W → Bool
  | .fut .waitUntil (.idle (.pending _ _)) => true
  | _ => false

/-- The `notify_all` of a setter has found the queue empty, or has taken its nodes. -/
inductive Passed (w : WorldOf W) (i : TaskId) : Prop
  | final {ws : List W} {b : Bool} (h : w.pc i = .call (.final .setAll ws b))
  | ask (h : w.pc i = .call (.ask .setAll)) (hv : (w.view i).upd = .releasing)
  | forEach {p : ForEachPc W} (h : w.pc i = .call (.forEach .setAll p))
      (hv : ∀ d s, (w.view i).op ≠ some (.newDrain d s))

theorem Passed.of_eq (h : Passed w i) (hp : w'.pc i = w.pc i) (hv : w'.view i = w.view i) :
    Passed w' i := by
  cases h with
  | final h => exact .final (hp.trans h)
  | ask h h' => exact .ask (hp.trans h) (by rw [hv, h'])
  | forEach h h' => exact .forEach (hp.trans h) (by rw [hv]; exact h')

/-- The control states at which it may have passed. -/
def Pc.passes : Pc W → Bool
  | .call (.final .setAll _ _) | .call (.ask .setAll) | .call (.forEach .setAll _) => true
  | _ => false

theorem Passed.passes (h : Passed w i) : (w.pc i).passes = true := by
  cases h with
  | final h => rw [h]; rfl
  | ask h => rw [h]; rfl
  | forEach h => rw [h]; rfl

theorem sets_of_passes {p : Pc W} (h : p.passes = true) : p.sets = true := by
  unfold Pc.passes at h
  split at h <;> first | rfl | simp at h

theorem passes_iff {p : Pc W} : p.passes = true ↔ (∃ ws b, p = .call (.final .setAll ws b)) ∨
    p = .call (.ask .setAll) ∨ ∃ f, p = .call (.forEach .setAll f) := by
  unfold Pc.passes
  split <;> simp_all

/-! ## The programs -/

theorem next_condition (hr : next willWake w i n = some r) (h : w.shared.condition = true) :
    r.shared.condition = true := by
  unfold next futNext callNext start ForEachPc.next at hr
  repeat' split at hr
  all_goals grind [CallKind.ret, Shared.wake]

theorem next_sets (hr : next willWake w i n = some r) (h : (r.pc e q).sets = true) :
    r.shared.condition = true ∨ (w.pc i).sets = true := by
  have hp : r.pc e q = .call .set ∨ r.pc e q = .call (.ask .setAll) ∨
      r.pc e q = .call (.drain .setAll) ∨ (∃ p, r.pc e q = .call (.forEach .setAll p)) ∨
      ∃ ws b, r.pc e q = .call (.final .setAll ws b) := by
    unfold Pc.sets at h
    split at h <;> simp_all
  unfold next futNext callNext start ForEachPc.next at hr
  repeat' split at hr
  all_goals grind [CallKind.ret, Shared.wake, Pc.sets]

theorem observe_sets (h : (observe w i e q).1.sets = true) : (w.pc i).sets = true := by
  unfold observe at h
  split at h
  · rename_i k hp
    rw [hp] at h ⊢
    cases k <;> repeat' split at h
    all_goals first | rfl | simp [Pc.sets, CallKind.locked] at h
  · repeat' split at h
    all_goals simp_all [Pc.sets]
  · exact h

@[grind =] theorem sleeps_pending (k : Kind) : (Pc.fut k (k.pending wk m)).sleeps = false := by
  cases k <;> rfl

@[grind =] theorem sleeps_ready (k : Kind) : (Pc.fut k (k.ready wk m)).sleeps = false := by
  cases k <;> rfl

theorem next_sleeps (hr : next willWake w i n = some r) (h : (r.pc e q).sleeps = true) :
    n = .answer false ∧ ∃ p, w.pc i = .fut .waitUntil p := by
  have hp : ∃ wk m, r.pc e q = .fut .waitUntil (.idle (.pending wk m)) := by
    unfold Pc.sleeps at h
    split at h <;> simp_all
  unfold next futNext callNext start ForEachPc.next at hr
  repeat' split at hr
  all_goals grind [CallKind.ret]

theorem next_announced (hr : next willWake w i n = some r) (h : r.shared.announced = true) :
    w.shared.announced = true ∨ w.pc i = .call (.final .setAll [] false) := by
  unfold next futNext callNext start ForEachPc.next at hr
  repeat' split at hr
  all_goals grind [CallKind.ret, Shared.wake]

/-- Where the call of a setter is after a step with a call or without one: it has passed before, it has
found the queue empty, or it is about to drain the queue. -/
theorem next_passed (hr : next willWake w i n = some r)
    (h : (r.pc e q).passes = true) :
    (∃ ws b, w.pc i = .call (.final .setAll ws b)) ∨ (∃ p, w.pc i = .call (.forEach .setAll p)) ∨
      w.pc i = .call .set ∧ r.call = some (.thread .isEmptyOrLock) ∧ (r.pc e q = .call (.final .setAll [] false) ∧
        q.upd i = .idle ∨ r.pc e q = .call (.ask .setAll)) ∨
      w.pc i = .call (.drain .setAll) ∧ ∃ d s p, r.call = some (.holder (.drain d s)) ∧
        r.pc e q = .call (.forEach .setAll p) := by
  rw [passes_iff] at h
  unfold next futNext callNext start ForEachPc.next at hr
  repeat' split at hr
  all_goals grind [CallKind.ret]

/-! ## One step -/

/-- When the `notify_all` of a setter passes, the queue is empty. -/
theorem Passed.step_inv (h : Passed w' i) (hw : Reached cfg w a)
    (hm : (waitQueue willWake).Moves cfg a w i n w' e) :
    Passed w i ∨ (w.pc i).sets = true ∧ (a.apply e).queue = [] := by
  have hf := hw.control i
  have hempty : w.q.mem.queueState ≠ none → a.queue = [] := fun hs => by
    by_contra hne
    exact hs (hw.ok.inv.queueState_eq_none.2 hne)
  have hforEach : ∀ {p}, w.pc i = .call (.forEach .setAll p) → (w.view i).Rests → Passed w i :=
    fun hp hrest => .forEach hp fun d s ho => by simpa [HolderOp.runs] using hrest.op ho
  cases hm.mover with
  | op hs hd hv hp hg =>
    have ho := (observe_spec (w := w) (i := i) (e := e) w'.q).1
    rw [show (observe w i e w'.q).1 = w'.pc i from hp.symm] at ho
    by_cases hask : w.pc i = .call (.ask .setAll)
    · rw [hask] at hf ho
      have key : (w'.view i).upd = .releasing ∨ e ≠ .guarded i ∧ (w'.view i).upd = .idle := by
        rcases ho with ⟨-, ho⟩ | ⟨he, ⟨hu, ho⟩ | ⟨hu, ho⟩⟩
        · simpa [ho, CallKind.locked, Pc.passes] using h.passes
        · exact .inr ⟨he, hu⟩
        · cases h with
          | ask _ hv => exact .inl hv
          | final h => simp [ho] at h
          | forEach h => simp [ho] at h
      rcases Asks.passed hf hv key with hr | ⟨hq, rfl⟩
      · exact .inl (.ask hask hr)
      · exact .inr ⟨by rw [hask]; rfl, hempty hq⟩
    by_cases hfe : ∃ p, w.pc i = .call (.forEach .setAll p)
    · obtain ⟨p, hpc⟩ := hfe
      rw [hpc] at hf ho
      by_cases hnd : ∃ d s, (w.view i).op = some (.newDrain d s)
      · obtain ⟨d, s, hnd⟩ := hnd
        refine .inr ⟨by rw [hpc]; rfl, ?_⟩
        obtain ⟨o, o', ho', hop, hw'⟩ := hv.holder_inv (by rw [hf.1]; rfl) (by rw [hf.2.1]; rfl)
        obtain rfl := Option.some.inj (hnd.symm.trans ho')
        have ho : w'.pc i = .call (.forEach .setAll p) := ho
        cases h with
        | ask h => simp [ho] at h
        | final h => simp [ho] at h
        | forEach h hv' =>
          rw [hw'] at hv'
          cases hop
          · exact absurd rfl (hv' d s)
          · rfl
      · exact .inl (.forEach hpc (by simpa using hnd))
    · left
      have hpc : w'.pc i = w.pc i := by
        have hne := h.passes
        unfold observed at ho
        split at ho
        · rename_i k hk
          cases k <;> simp_all [CallKind.locked, Pc.passes] <;> grind [Pc.passes]
        · grind [Pc.passes]
        · exact ho
      cases h with
      | ask h => exact absurd (hpc ▸ h) hask
      | final h => exact .final (hpc ▸ h)
      | forEach h => exact absurd ⟨_, hpc ▸ h⟩ hfe
  | call hr hk hrest hs hv hp hg =>
    have hcase := h.passes
    rw [hp] at hcase
    rcases next_passed hr hcase with ⟨ws, b, hpc⟩ | ⟨p, hpc⟩ | ⟨hpc, hk', h'⟩ | ⟨hpc, d, s, p, hk', hpc'⟩
    · exact .inl (.final hpc)
    · exact .inl (hforEach hpc hrest)
    · refine .inr ⟨by rw [hpc]; rfl, ?_⟩
      obtain rfl := Option.some.inj (hk.symm.trans hk')
      rcases hv.isEmptyOrLock_inv with ⟨hqs, rfl⟩ | hu
      · exact hempty hqs
      · rcases h' with ⟨-, hi⟩ | h'
        · simp [World.view, State.view, hi, UpdPc.op] at hu
        · cases h with
          | ask h hv => simp [hv] at hu
          | final h => simp [hp, h'] at h
          | forEach h => simp [hp, h'] at h
    · refine .inr ⟨by rw [hpc]; rfl, ?_⟩
      obtain rfl := Option.some.inj (hk.symm.trans hk')
      obtain ⟨y, u, o, o', -, hcs, hw'⟩ := hv.holder_inv
      cases hcs
      case drainEmpty => exact hs.allows
      case drain =>
        cases h with
        | ask h => simp [hp, hpc'] at h
        | final h => simp [hp, hpc'] at h
        | forEach h hv => exact absurd (by rw [hw']) (hv d s)
  | own hr hk hrest hq hv hp hg =>
    have hcase := h.passes
    rw [hp] at hcase
    rcases next_passed hr hcase with ⟨ws, b, hpc⟩ | ⟨p, hpc⟩ | ⟨hpc, hk', h'⟩ | ⟨hpc, d, s, p, hk', hpc'⟩
    · exact .inl (.final hpc)
    · exact .inl (hforEach hpc hrest)
    · simp [hk'] at hk
    · simp [hk'] at hk

/-- What the setters have achieved: no future sleeps in the queue once a `notify_all` of a setter has
passed. -/
structure Announce (w : WorldOf W) (a : Abs ℕ) : Prop where
  sets : ∀ {i}, (w.pc i).sets = true → w.shared.condition = true
  announced : w.shared.announced = true → w.shared.condition = true
  passed : (w.shared.announced = true ∨ ∃ i, Passed w i) → ∀ x ∈ a.queue, (w.pc x).sleeps = false

theorem Announce.init : Announce (init : WorldOf W) (.init empty) where
  sets := fun h => by simp [WaitQueue.init, Pc.sets] at h
  announced := fun h => by simp [WaitQueue.init] at h
  passed := fun _ x hx => by simp [Abs.init] at hx

theorem condition_step (hm : (waitQueue willWake).Moves cfg a w i n w' e)
    (h : w.shared.condition = true) : w'.shared.condition = true := by
  cases hm.mover with
  | op hs hd hv hp hg => rw [hg, show (waitQueue willWake).observe = observe from rfl, (observe_spec _).2, h]
  | call hr hk hrest hs hv hp hg => rw [hg]; exact next_condition hr h
  | own hr hk hrest hq hv hp hg => rw [hg]; exact next_condition hr h

/-- Once the condition is true, no future starts to sleep in the queue. -/
theorem sleeps_step (hm : (waitQueue willWake).Moves cfg a w i n w' e) (hw : Reached cfg w a)
    (hn : answers w i n = true) (hc : w.shared.condition = true)
    (h : ∀ x ∈ a.queue, (w.pc x).sleeps = false) (x : NodeId) (hx : x ∈ (a.apply e).queue) :
    (w'.pc x).sleeps = false := by
  rw [← Bool.not_eq_true]
  intro hsl
  have key : ∀ {r : InstrOf W} {e q}, next willWake w i n = some r → (r.pc e q).sleeps ≠ true := by
    intro r e q hr h'
    obtain ⟨rfl, p, hp⟩ := next_sleeps hr h'
    simp [answers, hp, hc] at hn
  have hsl' : (w.pc x).sleeps = true := by
    by_cases hxi : x = i
    · subst hxi
      cases hm.mover with
      | op hs hd hv hp hg =>
        rcases observe_pc hp with ho | ⟨-, r, ho⟩ | ⟨-, k, ho⟩ | ⟨k, ho⟩ <;> rw [ho] at hsl
        · exact hsl
        all_goals simp [Pc.sleeps] at hsl
      | call hr hk hrest hs hv hp hg => exact absurd (hp ▸ hsl) (key hr)
      | own hr hk hrest hq hv hp hg => exact absurd (hp ▸ hsl) (key hr)
    · rwa [hm.pc_ne hxi] at hsl
  rcases Abs.mem_queue_apply hx with hx | rfl
  · simp [h x hx] at hsl'
  · obtain ⟨rfl, f, u, o, hv⟩ := hm.enqueue_inv
    have hst := stores_of_inserting (hw.control x) (congrArg View.own hv) (hw.wakers.fault x)
    unfold Pc.stores at hst
    split at hst <;> simp_all [Pc.sleeps]

theorem Announce.step (h : Announce w a) (hw : Reached cfg w a) (hn : answers w i n = true)
    (hm : (waitQueue willWake).Moves cfg a w i n w' e) : Announce w' (a.apply e) := by
  have hnext : ∀ {r : InstrOf W} {e q}, next willWake w i n = some r → w'.pc i = r.pc e q →
      w'.shared = r.shared → ((w'.pc i).sets = true → w'.shared.condition = true) ∧
      (w'.shared.announced = true → w.shared.announced = true ∨ Passed w i) := by
    intro r e q hr hp hg
    rw [hp, hg]
    refine ⟨fun hs => ?_, fun ha => ?_⟩
    · rcases next_sets hr hs with hs | hs
      · exact hs
      · exact next_condition hr (h.sets hs)
    · exact (next_announced hr ha).imp_right .final
  have hmover : ((w'.pc i).sets = true → w'.shared.condition = true) ∧
      (w'.shared.announced = true → w.shared.announced = true ∨ Passed w i) := by
    cases hm.mover with
    | op hs hd hv hp hg =>
      have hg : w'.shared = w.shared := hg.trans (observe_spec _).2
      rw [hg]
      exact ⟨fun hs => h.sets (observe_sets (hp ▸ hs)), .inl⟩
    | call hr hk hrest hs hv hp hg => exact hnext hr hp hg
    | own hr hk hrest hq hv hp hg => exact hnext hr hp hg
  have hcond : w.shared.announced = true ∨ (∃ i, Passed w i) → w.shared.condition = true := by
    rintro (h' | ⟨j, hj⟩)
    · exact h.announced h'
    · exact h.sets (sets_of_passes hj.passes)
  refine ⟨fun {j} hj => ?_, fun ha => ?_, fun hp => ?_⟩
  · by_cases hji : j = i
    · subst hji
      exact hmover.1 hj
    · rw [hm.pc_ne hji] at hj
      exact condition_step hm (h.sets hj)
  · exact condition_step hm (hcond ((hmover.2 ha).imp_right fun h => ⟨i, h⟩))
  · have hcase : (w.shared.announced = true ∨ ∃ i, Passed w i) ∨ (a.apply e).queue = [] := by
      rcases hp with ha | ⟨j, hj⟩
      · exact .inl ((hmover.2 ha).imp_right fun h => ⟨i, h⟩)
      · by_cases hji : j = i
        · subst hji
          rcases hj.step_inv hw hm with hj | ⟨-, hq⟩
          · exact .inl (.inr ⟨j, hj⟩)
          · exact .inr hq
        · exact .inl (.inr ⟨j, hj.of_eq (hm.pc_ne hji).symm (hm.view_ne hji).symm⟩)
    rcases hcase with h' | hq
    · exact sleeps_step hm hw hn (hcond h') (h.passed h')
    · simp [hq]

/-! ## Every run -/

/-- The lock is held for a future, unless a call is in progress. -/
theorem leaving_ne (hw : Reached cfg w a) (hc : ∀ j p, w.pc j = .call p → p = .set)
    (hi : (w.pc i).sleeps = true) : w.q.leaving ≠ some i := by
  intro hl
  obtain ⟨p, hp, hl⟩ := Option.bind_eq_some_iff.1 hl
  obtain ⟨j, hj⟩ := hw.ok.view_of_op (show w.q.op = some p.op by simp [State.op, hp])
  have hf := hw.control j
  cases hpc : w.pc j with
  | idle =>
    rw [hpc] at hf
    simp [show w.view j = _ from hf] at hj
  | fut k c =>
    rw [hpc] at hf
    have hji : i = j ∧ c = .dropping := by
      have hop := HolderPc.op_of_leaving hl
      cases c <;> simp only [Pc.Fits, FutPc.Fits] at hf <;> grind
    obtain ⟨rfl, rfl⟩ := hji
    simp [hpc, Pc.sleeps] at hi
  | call c =>
    obtain rfl := hc j c hpc
    rw [hpc] at hf
    simp [show w.view j = _ from hf] at hj
  | fault => exact hw.wakers.fault j hpc

variable {ls : List (TaskId × Bool × Input W)}

/-- **No lost wakeup.** In every run in which the predicates of the `WaitUntil` futures are a condition
that setters make true before they call `notify_all`: once such a `notify_all` has returned and no call is
in progress, a `WaitUntil` whose last poll returned `Pending` is not queued, and the waker of that poll, or
an equivalent one, has been called since the poll stored it or found it. -/
theorem no_lost_wakeup
    (h : Lts.Run (fun w l w' => answers w l.1 l.2.2 = true ∧
      (waitQueue willWake).step cfg w l.1 l.2.1 l.2.2 = some w') init ls w)
    (ha : w.shared.announced = true) (hc : ∀ j p, w.pc j = .call p → p = .set)
    (hi : w.pc i = .fut .waitUntil (.idle (.pending wk m))) :
    w.q.mem.rawState i ≠ .queued ∧
      ∃ wk₀, (wk₀ = wk ∨ willWake wk₀ wk = true) ∧ ∃ k, m ≤ k ∧ w.shared.woken[k]? = some wk₀ := by
  obtain ⟨a, hw, han⟩ : ∃ a, Served willWake cfg w a ∧ Announce w a := by
    refine Lts.Run.prefixed (P := fun _ w => ∃ a, Served willWake cfg w a ∧ Announce w a) h
      ⟨_, Served.init, Announce.init⟩ ?_
    rintro ks l w₁ w₂ - ⟨hn, hs⟩ ⟨a₁, hw₁, han⟩
    obtain ⟨e, hm⟩ := Client.moves hw₁.reached.ok hs
    exact ⟨_, hw₁.step hm, han.step hw₁.reached hn hm⟩
  have hsl : (w.pc i).sleeps = true := by rw [hi]; rfl
  have hmem : ¬ a.Member i := by
    rintro (hq | ⟨d, hd⟩)
    · simp [han.passed (.inl ha) i hq] at hsl
    · have hdr := hw.reached.ok.inv.drain d
      by_cases hdead : w.q.drains d = .none ∨ w.q.drains d = .gone
      · have : (a.drained d).rest = [] := by
          rcases hdead with hdead | hdead <;> rw [hdead] at hdr <;> exact hdr
        simp [this] at hd
      · obtain ⟨j, p, hp, -⟩ := hw.drains.live (fun h => hdead (.inl h)) fun h => hdead (.inr h)
        obtain ⟨k, hk⟩ := forEach?_eq_some hp
        cases hc j _ hk
  have hout : Out (w.q.ch a) w.q.leaving i := out_iff.2 ⟨hmem, leaving_ne hw.reached hc hsl⟩
  refine ⟨?_, ?_⟩
  · have hf := hw.reached.control i
    rw [hi] at hf
    have hown := hw.reached.ok.inv.own i
    rw [OwnPc.op_eq_idle.1 (congrArg View.own hf)] at hown
    rcases hown hout with h | ⟨h, -⟩ <;> simp [Mem.rawState, h, Ptr.state]
  · have hwait : (w.pc i).waits (w.view i).own = some (wk, m) := by rw [hi]; rfl
    obtain ⟨-, hdel⟩ := hw.delivery.waits hwait
    cases hdel with
    | stored _ hi' => exact absurd hi' hmem
    | taken _ j hj =>
      exfalso
      cases hp : w.pc j with
      | call p =>
        obtain rfl := hc j p hp
        simp [hp, Pc.wakers] at hj
      | _ => simp [hp, Pc.wakers] at hj
    | called hs k hk hwk => exact ⟨_, hs, k, hk, hwk⟩

/-- A `WaitUntil` is polled and sleeps; then a setter makes the condition true and calls `notify_all`. -/
def setAllActs : List (TaskId × Bool × Input ℕ) :=
  (3, false, .create .waitUntil) :: (3, false, .poll 7) :: (3, false, .answer false) ::
    List.replicate 7 (3, false, .none) ++ (3, false, .answer false) :: (0, false, .call .setAll) ::
    List.replicate 20 (0, false, .drain 0)

theorem no_lost_wakeup_setAllActs :
    let w := (waitQueue fun _ _ => true).after ⟨.x86, 0⟩ init setAllActs
    w.shared.announced = true ∧ w.pc 3 = .fut .waitUntil (.idle (.pending 7 0)) ∧
      w.q.mem.rawState 3 ≠ .queued ∧
      ∃ wk₀, (wk₀ = 7 ∨ true = true) ∧ ∃ k, 0 ≤ k ∧ w.shared.woken[k]? = some wk₀ := by
  intro w
  have h : (waitQueue fun _ _ => true).meets ⟨.x86, 0⟩ (fun w l => answers w l.1 l.2.2) init
      setAllActs = true := by decide +kernel
  have ha : w.shared.announced = true := by decide +kernel
  have hp : w.pc 3 = .fut .waitUntil (.idle (.pending 7 0)) := by rfl
  refine ⟨ha, hp, no_lost_wakeup (Client.run_of_meets h) ha (fun j p hj => ?_) hp⟩
  have hr : ((waitQueue fun _ _ => true).perform ⟨.x86, 0⟩ init setAllActs).isSome := by decide +kernel
  by_cases h₃ : j = 3
  · subst h₃
    cases hp.symm.trans hj
  by_cases h₀ : j = 0
  · have hp₀ : w.pc 0 = .idle := by rfl
    subst h₀
    cases hp₀.symm.trans hj
  · have hpj : w.pc j = .idle := (Client.runs_after hr).pc_ne (by simp [setAllActs, h₃, h₀])
    cases hpj.symm.trans hj

end Aiq.WaitQueue
