import Aiq.Notify.Ready
import Aiq.Task.Alone
import Mathlib.Data.UInt

/-!
# What `notify_waiters` reaches

`notify_waiters` increases the generation under the lock, and drains the queue afterwards. The generation
counts the calls (`Counted`, for fewer than `2 ^ 64` of them), so a future that was created before the
increase has an older generation. When no call is under way its node is in no list, unless it is in a poll
(`notify_waiters_leaves_none`), and a poll of it that has yet to call `state` does not return `Pending`
(`notify_waiters_reaches`).
-/

namespace Aiq.Notify

variable {W : Type} {willWake : W → W → Bool} {cfg : Config} {a : Abs ℕ} {w w' : WorldOf W}
  {i j : TaskId} {e : Event ℕ} {n : Input W} {v : View ℕ} {p p' : Pc W} {f : Inner} {g : UInt64} {m : ℕ}

/-! ## The generation counts the calls -/

/-- The generation with which the future of a task is created. -/
def Pc.generation? : Pc W → Option UInt64
  | .loaded g => some g
  | .fut f _ | .single (.cancel f _) _ _ => some f.generation
  | _ => none

/-- The step starts a call of `notify_waiters`. -/
def announces (l : TaskId × Bool × Input W) : Bool :=
  match l.2.2 with
  | .notifyWaiters => true
  | _ => false

@[simp] theorem Cause.shared_generation (c : Cause) (s : Shared W) :
    (c.shared s i).generation = s.generation := by
  cases c <;> rfl

@[simp] theorem Origin.shared_generation (o : Origin) (s : Shared W) :
    (o.shared s i).generation = s.generation := by
  cases o with
  | user => rfl
  | cancel f c => exact c.shared_generation s

/-- Only `notify_waiters` changes the generation. -/
theorem Goes.generation_eq (h : Goes willWake w w' i p e p') :
    w'.shared.generation = w.shared.generation ∨
      p = .waiters .locked ∧ p' = .waiters .drain ∧ w'.shared.generation = w.shared.generation + 1 := by
  have hsame : ∀ {s : Shared W}, w'.shared = s → s.generation = w.shared.generation →
      w'.shared.generation = w.shared.generation := fun h h' => by rw [h, h']
  cases h with
  | generation hq hs => exact .inr ⟨rfl, rfl, by rw [hs]⟩
  | create hd => exact .inl (hsame hd.shared rfl)
  | loaded g hd => exact .inl (hsame hd.shared rfl)
  | fill f wk st hd => exact .inl (hsame hd.shared rfl)
  | refresh f wk hd => exact .inl (hsame hd.shared rfl)
  | mark o k x hv hv' hd => exact .inl (hsame hd.shared rfl)
  | drained d x ws ws' hv hv' hd => exact .inl (hsame hd.shared rfl)
  | goto f p p' hg hq hv hs => exact .inl (hsame hs rfl)
  | done f p c h hd hs => exact .inl (hsame hs (by simp))
  | removed f c hv hd hs => exact .inl (hsame hs (by simp))
  | stored o k e hv hv' he hd hs => exact .inl (hsame hs (by simp))
  | wake o k wk hd hs => exact .inl (hsame hs (by cases wk <;> simp [Shared.wake]))
  | forEach p p' e hp hr hd hg hs => exact .inl hg
  | call wk ws hd hs => exact .inl (hsame hs rfl)
  | _ => exact .inl (hsame (Same.shared ‹_›) rfl)

theorem Cause.generation_of_ret (c : Cause) (h : (c.ret f : Pc W).generation? = some g) :
    f.generation = g := by
  cases c <;> exact Option.some.inj h

/-- A future keeps the generation that it is created with. -/
theorem Goes.made (h : Goes willWake w w' i p e p') (hg : p'.generation? = some g) :
    p.generation? = some g ∨ g = w.shared.generation := by
  cases h with
  | created hs => exact .inr (Option.some.inj hg).symm
  | load hs => exact .inr (Option.some.inj hg).symm
  | stored o k e hv hv' he hd hs =>
    cases o with
    | user => cases hg
    | cancel f c => exact .inl (congrArg some (c.generation_of_ret hg))
  | wake o k wk hd hs =>
    cases o with
    | user => cases hg
    | cancel f c => exact .inl (congrArg some (c.generation_of_ret hg))
  | done f p c h hd hs => exact .inl (congrArg some (c.generation_of_ret hg))
  | removed f c hv hd hs => exact .inl (congrArg some (c.generation_of_ret hg))
  | ask o k hv hs => cases o <;> exact .inl hg
  | guarded o k hq hs => cases o <;> exact .inl hg
  | take o k e c hc op hv hv' => cases o <;> exact .inl hg
  | mark o k x hv hv' hd => cases o <;> exact .inl hg
  | set o k wk x hv hv' hs => cases o <;> exact .inl hg
  | unlock o k wk hv hs => cases o <;> exact .inl hg
  | _ => first | exact .inl hg | cases hg

/-- Where `notify_waiters` has the lock and has yet to increase the generation. -/
theorem Goes.locked (h : Goes willWake w w' i p e p') (hp : p' = .waiters .locked) :
    p = .waiters .locked ∨ p = .idle := by
  cases h with
  | instr p e hv hs => exact .inl hp
  | lock hv hs => exact .inr rfl
  | done f p c h hd hs => cases c <;> cases hp
  | removed f c hv hd hs => cases c <;> cases hp
  | stored o k e hv hv' he hd hs => rcases o with _ | ⟨f, _ | _⟩ <;> cases hp
  | wake o k wk hd hs => rcases o with _ | ⟨f, _ | _⟩ <;> cases hp
  | _ => cases hp

theorem Client.Moves.input_of_lock (hm : (notify willWake).Moves cfg a w i n w' e)
    (hp : w.pc i = .idle) (hp' : w'.pc i = .waiters .locked) : n = .notifyWaiters := by
  have key : ∀ {r : InstrOf W} {q}, next willWake w i n = some r → r.pc e q = .waiters .locked →
      n = .notifyWaiters := by
    intro r q hr hpc
    simp only [next, hp] at hr
    unfold start at hr
    split at hr
    case h_5 => rfl
    all_goals first | contradiction | obtain rfl := Option.some.inj hr
    all_goals cases hpc
  cases hm.mover with
  | op hs hd hv hpc hg =>
    rw [hp'] at hpc
    simp [notify, observe, hp] at hpc
  | call hr hk hrest hs hv hpc hg => exact key hr (hpc.symm.trans hp')
  | own hr hk hrest hq hv hpc hg => exact key hr (hpc.symm.trans hp')

/-- `m` calls of `notify_waiters` have started at most. -/
structure Counted (m : ℕ) (w : WorldOf W) : Prop where
  count : w.shared.generation.toNat ≤ m
  locked : ∀ {j}, w.pc j = .waiters .locked → w.shared.generation.toNat + 1 ≤ m
  made : ∀ {j g}, (w.pc j).generation? = some g → g.toNat ≤ w.shared.generation.toNat

theorem Counted.init : Counted 0 (init : WorldOf W) where
  count := le_refl 0
  locked := fun h => by simp [Notify.init] at h
  made := fun h => by simp [Notify.init, Pc.generation?] at h

theorem toNat_succ (h : g.toNat + 1 < 2 ^ 64) : (g + 1).toNat = g.toNat + 1 := by
  rw [UInt64.toNat_add]
  simp only [UInt64.toNat_one]
  omega

theorem Counted.step (h : Counted m w) (hw : Reached cfg w a)
    (hm : (notify willWake).Moves cfg a w i n w' e) {b : Bool} (hlt : m + b.toNat < 2 ^ 64)
    (hn : n = .notifyWaiters → b = true) : Counted (m + b.toNat) w' := by
  have hgo := (hw.control.goes hm).1
  have hone : ∀ {j}, w.pc j = .waiters .locked → (w.view j).op = some .guard := fun {j} hj => by
    have hc := hw.control j
    rw [hj] at hc
    rw [show w.view j = _ from hc]
  rcases hgo.generation_eq with hg | ⟨hp, hp', hg⟩
  · refine ⟨?_, fun {j} hj => ?_, fun {j g} hj => ?_⟩
    · have := h.count
      rw [hg]
      omega
    · rw [hg]
      by_cases hji : j = i
      · subst hji
        rcases hgo.locked hj with hp | hp
        · have := h.locked hp
          omega
        · have := hn (Client.Moves.input_of_lock hm hp hj)
          subst this
          have := h.count
          simp only [Bool.toNat_true]
          omega
      · rw [hm.pc_ne hji] at hj
        have := h.locked hj
        omega
    · rw [hg]
      by_cases hji : j = i
      · subst hji
        rcases hgo.made hj with hj | rfl
        · exact h.made hj
        · exact le_refl _
      · rw [hm.pc_ne hji] at hj
        exact h.made hj
  · have hl := h.locked hp
    have hs : w'.shared.generation.toNat = w.shared.generation.toNat + 1 := by
      rw [hg, toNat_succ (by omega)]
    refine ⟨by omega, fun {j} hj => ?_, fun {j g} hj => ?_⟩
    · by_cases hji : j = i
      · subst hji
        simp [hp'] at hj
      · rw [hm.pc_ne hji] at hj
        exact absurd (World.op_unique (hone hj) (hone hp)) hji
    · by_cases hji : j = i
      · subst hji
        simp [hp', Pc.generation?] at hj
      · rw [hm.pc_ne hji] at hj
        have := h.made hj
        omega

/-! ## The queue holds futures of the current generation -/

/-- The future does not check the generation before its poll returns, or it is not polled. -/
def FutPc.checked : FutPc W → Bool
  | .idle _ | .refresh _ | .refreshed => true
  | _ => false

/-- The call of `notify_waiters` of the task `j` has increased the generation, and has yet to drain the
queue. -/
def Opening (w : WorldOf W) (j : TaskId) : Prop :=
  w.pc j = .waiters .drain ∨ ∃ d s, (w.view j).op = some (.newDrain d s)

/-- The nodes in the queue belong to futures of the current generation, until their owners check it, or a
`notify_waiters` is about to drain the queue. -/
def Current (w : WorldOf W) (a : Abs ℕ) : Prop :=
  ∀ {x f p}, w.pc x = .fut f p → p.checked = true → x ∈ a.queue →
    f.generation = w.shared.generation ∨ ∃ j, Opening w j

theorem Pc.Fits.newDrain {d : DrainId} {s : ℕ} (h : p.Fits i v) (hf : p ≠ .fault)
    (ho : v.op = some (.newDrain d s)) : ∃ ws, p = .waiters (.forEach (.head d ws)) := by
  cases p with
  | fut f p =>
    cases p <;>
      simp only [Fits, FutPc.Fits, View.Asked, View.Entering, View.Leaving, View.Dropping] at h <;> grind
  | single o k p =>
    have h := h.2
    cases p <;> simp only [SinglePc.Fits, View.Asking] at h <;> grind
  | waiters p =>
    cases p with
    | forEach p =>
      have hp := h.2.2
      rw [ho] at hp
      cases p <;> simp only [ForEachPc.Fits] at hp <;> simp at hp
      obtain ⟨rfl, -⟩ := hp
      exact ⟨_, rfl⟩
    | _ =>
      simp only [Fits, WaitersPc.Fits] at h
      grind
  | fault => exact absurd rfl hf
  | _ =>
    rw [show v = _ from h] at ho
    cases ho

/-- The call goes on to drain the queue, and then the queue is empty. -/
theorem Opening.step (h : Opening w j) (hw : Reached cfg w a)
    (hm : (notify willWake).Moves cfg a w i n w' e) (hx : (a.apply e).queue ≠ []) : Opening w' j := by
  by_cases hj : j = i
  · subst hj
    have hgo := (hw.control.goes hm).1
    have hf := hw.control j
    rcases h with hp | ⟨d, s, ho⟩
    · rw [hp] at hf
      have hv : w.view j = ⟨.dead, .idle, some .guard⟩ := hf
      rw [hp] at hgo
      generalize hp' : w'.pc j = p' at hgo
      cases hgo with
      | instr p e hv' hs =>
        rw [hv] at hv'
        obtain ⟨o, o', ho, hop, -⟩ := hv'.holder_inv rfl rfl
        obtain rfl := Option.some.inj ho
        cases hop
        cases ‹HolderOp.long _ = true›
      | drain d e op hc hv' hs =>
        right
        rw [hv']
        cases hc with
        | drainEmpty d v hs =>
          refine absurd (hw.ok.queueState_of_ne_nil ?_) hs
          exact hx
        | drain d v hs => exact ⟨d, unnotified, rfl⟩
    · obtain ⟨ws, hp⟩ := hf.newDrain (hw.fault j) ho
      rw [hp] at hf hgo
      obtain ⟨hown, hupd, -⟩ := hf
      generalize hp' : w'.pc j = p' at hgo
      cases hgo with
      | instr p e hv' hs =>
        obtain ⟨o, o', ho', hop, hw'⟩ := hv'.holder_inv (by rw [hown]; rfl) (by rw [hupd]; rfl)
        obtain rfl := Option.some.inj (ho.symm.trans ho')
        cases hop with
        | more o hl => exact .inr ⟨d, s, by rw [hw']⟩
        | drain d s => exact absurd rfl hx
      | forEach p₀ p₁ e hp₁ hr hd hg hs => cases hr.op ho
  · rcases h with hp | ho
    · exact .inl (by rw [hm.pc_ne hj, hp])
    · exact .inr (by rw [hm.view_ne hj]; exact ho)

/-- Where a future comes to rest, its generation is current, or it was at rest, or its node is in no list. -/
theorem Goes.checked (h : Goes willWake w w' i p e p') (hw : Reached cfg w a) (hp : w.pc i = p)
    {p₁ : FutPc W} (hp' : p' = .fut f p₁) (hc : p₁.checked = true) :
    f.generation = w.shared.generation ∨ (∃ p₀, p = .fut f p₀ ∧ p₀.checked = true) ∨ ¬ a.Member i := by
  have hf := hw.control i
  rw [hp] at hf
  have hout : (w.view i).own.out = true → ¬ a.Member i := fun h => hw.ok.not_member h
  have haway : p.Away (w.view i) → ¬ a.Member i := fun h =>
    (out_iff.1 (hw.ok.inv.out_of_rawState (hw.away (by rw [hp]; exact h)))).1
  cases h with
  | instr p e hv hs => exact .inr (.inl ⟨p₁, hp', hc⟩)
  | created hs => exact .inl (by obtain ⟨rfl, -⟩ := Pc.fut.inj hp'; rfl)
  | loaded g hd =>
    refine .inr (.inr (hout ?_))
    rw [show w.view i = _ from hf]
    rfl
  | goto f₀ p p' hg hq hv hs =>
    obtain ⟨rfl, rfl⟩ := Pc.fut.inj hp'
    cases hg with
    | refresh wk hv hg => exact .inl hg.symm
    | refreshed hv hg => exact .inl hg.symm
    | pending cx st hv hg => exact .inl hg.symm
    | _ => cases hc
  | state f₀ p p' hpp hv hs =>
    obtain ⟨rfl, rfl⟩ := Pc.fut.inj hp'
    rcases hpp with ⟨r, cx, rfl, rfl⟩ | ⟨c, rfl, rfl⟩ <;> cases hc
  | done f₀ p c h hd hs =>
    refine .inr (.inr (hout ?_))
    cases h with
    | dequeued cx hv => rw [hv]; rfl
    | older cx hg => rw [show w.view i = _ from hf]; rfl
    | got => rw [show w.view i = _ from hf]; rfl
    | unqueued c hv => rw [hv]; rfl
    | all c hv hn => rw [hv]; rfl
  | removed f₀ c hv hd hs => exact .inr (.inr (haway (by rw [hv]; rfl)))
  | stored o k e hv hv' he hd hs =>
    cases o with
    | user => cases hp'
    | cancel f₀ c => exact .inr (.inr (haway trivial))
  | wake o k wk hd hs =>
    cases o with
    | user => cases hp'
    | cancel f₀ c => exact .inr (.inr (haway trivial))
  | refresh f₀ wk hd =>
    obtain ⟨rfl, rfl⟩ := Pc.fut.inj hp'
    exact .inr (.inl ⟨_, rfl, rfl⟩)
  | pending f₀ hs =>
    obtain ⟨rfl, rfl⟩ := Pc.fut.inj hp'
    exact .inr (.inl ⟨_, rfl, rfl⟩)
  | _ =>
    cases hp'
    try cases hc

theorem Current.step (h : Current w a) (hw : Reached cfg w a)
    (hm : (notify willWake).Moves cfg a w i n w' e) : Current w' (a.apply e) := by
  intro x f p hp hc hx
  have hgo := (hw.control.goes hm).1
  -- an increase of the generation opens the queue, and every other step leaves it alone
  have hkeep : f.generation = w.shared.generation ∨ (∃ j, Opening w j) →
      f.generation = w'.shared.generation ∨ ∃ j, Opening w' j := by
    rintro (hf | ⟨j, hj⟩)
    · rcases hgo.generation_eq with hg | ⟨-, hp', -⟩
      · exact .inl (hf.trans hg.symm)
      · exact .inr ⟨i, .inl hp'⟩
    · exact .inr ⟨j, hj.step hw hm fun hnil => by simp [hnil] at hx⟩
  rcases Abs.mem_queue_apply hx with hx | rfl
  · by_cases hxi : x = i
    · subst hxi
      rcases hgo.checked hw rfl hp hc with hg | ⟨p₀, hp₀, hc₀⟩ | hout
      · exact hkeep (.inl hg)
      · exact hkeep (h hp₀ hc₀ hx)
      · exact absurd (.inl hx) hout
    · rw [hm.pc_ne hxi] at hp
      exact hkeep (h hp hc hx)
  · exfalso
    obtain ⟨rfl, m, u, o, hv⟩ := hm.enqueue_inv
    obtain ⟨f', cx, st, hp₀⟩ := (hw.control x).inserting (hw.fault x) (.inl ⟨m, by rw [hv]⟩)
    rw [hp₀] at hgo
    generalize he : Event.enqueue x = e at hgo
    generalize w'.pc x = p' at hgo hp
    cases hgo with
    | instr p e hv hs =>
      cases hp
      cases hc
    | _ => cases he

/-- The list of a `Drain` belongs to a `notify_waiters` that is under way. -/
theorem Reached.waiters_of_drained (h : Reached cfg w a) {d : DrainId} {x : NodeId}
    (hx : x ∈ (a.drained d).rest) : ∃ j p, w.pc j = .waiters p := by
  have hok := h.ok.inv.drain d
  have hne : w.q.drains d ≠ .none ∧ w.q.drains d ≠ .gone := by
    constructor <;> intro hd <;> rw [hd] at hok <;>
      simp [show (a.drained d).rest = [] from hok] at hx
  obtain ⟨j, p, hp, -⟩ := h.drains.live hne.1 hne.2
  exact ⟨j, _, forEach?_eq_some hp⟩

/-- When no `notify_waiters` is under way, a future at rest with a node in a list has the current
generation. -/
theorem Current.of_member (h : Current w a) (hw : Reached cfg w a)
    (hn : ∀ j p, w.pc j ≠ .waiters p) {r : Polled} (hp : w.pc i = .fut f (.idle r)) (hx : a.Member i) :
    f.generation = w.shared.generation := by
  rcases hx with hx | ⟨d, hx⟩
  · refine (h hp rfl hx).resolve_right ?_
    rintro ⟨j, hj | ⟨d, s, ho⟩⟩
    · exact hn j _ hj
    · obtain ⟨ws, hj⟩ := (hw.control j).newDrain (hw.fault j) ho
      exact hn j _ hj
  · obtain ⟨j, p, hj⟩ := hw.waiters_of_drained hx
    exact absurd hj (hn j p)

/-! ## Earlier futures -/

theorem Cause.ret_generation (c : Cause) : (c.ret f : Pc W).generation? = some f.generation := by
  cases c <;> rfl

/-- A future keeps its generation until it is dropped. -/
theorem Goes.keeps_generation (h : Goes willWake w w' i p e p') (hg : p.generation? = some g)
    (hi : p' ≠ .idle) (hf : p' ≠ .fault) : p'.generation? = some g := by
  cases h with
  | done f p c h hd hs => exact c.ret_generation.trans hg
  | removed f c hv hd hs => exact c.ret_generation.trans hg
  | stored o k e hv hv' he hd hs =>
    cases o with
    | user => cases hg
    | cancel f c => exact c.ret_generation.trans hg
  | wake o k wk hd hs =>
    cases o with
    | user => cases hg
    | cancel f c => exact c.ret_generation.trans hg
  | ask o k hv hs => cases o <;> exact hg
  | guarded o k hq hs => cases o <;> exact hg
  | take o k e c hc op hv hv' => cases o <;> exact hg
  | mark o k x hv hv' hd => cases o <;> exact hg
  | set o k wk x hv hv' hs => cases o <;> exact hg
  | unlock o k wk hv hs => cases o <;> exact hg
  | empty o k hv hs => exact absurd rfl hf
  | unwrap f c hv hn hs => exact absurd rfl hf
  | dropped f hs => exact absurd rfl hi
  | _ => first | exact hg | cases hg

/-- The generation does not wrap. -/
theorem Counted.le (h : Counted m w) (hgo : Goes willWake w w' i (w.pc i) e p') (hlt : m < 2 ^ 64) :
    w.shared.generation.toNat ≤ w'.shared.generation.toNat := by
  rcases hgo.generation_eq with hg | ⟨hp, -, hg⟩
  · rw [hg]
  · have := h.locked hp
    rw [hg, toNat_succ (by omega)]
    omega

variable {ls ls₁ ls₂ : List (TaskId × Bool × Input W)} {l : TaskId × Bool × Input W} {w₁ w₂ w₃ : WorldOf W}

/-- What holds in every run with fewer than `2 ^ 64` calls of `notify_waiters`. -/
structure Counts (cfg : Config) (m : ℕ) (w : WorldOf W) (a : Abs ℕ) : Prop where
  reached : Reached cfg w a
  counted : Counted m w
  current : Current w a

theorem Counts.init : Counts cfg 0 (init : WorldOf W) (.init unnotified) :=
  ⟨Reached.init, Counted.init, fun h => by simp [Notify.init] at h⟩

theorem Counts.step (h : Counts cfg m w a) (hm : (notify willWake).Moves cfg a w l.1 l.2.2 w' e)
    (hlt : m + (announces l).toNat < 2 ^ 64) : Counts cfg (m + (announces l).toNat) w' (a.apply e) where
  reached := h.reached.step hm
  counted := h.counted.step h.reached hm hlt fun hn => by simp [announces, hn]
  current := Current.step h.current h.reached hm

theorem countP_snoc (ks : List (TaskId × Bool × Input W)) (l : TaskId × Bool × Input W) :
    (ks ++ [l]).countP announces = ks.countP announces + (announces l).toNat := by
  cases h : announces l <;> simp [h]

theorem runs_counts (h : (notify willWake).Runs cfg init ls w) (hlt : ls.countP announces < 2 ^ 64) :
    ∃ a, Counts cfg (ls.countP announces) w a := by
  induction h with
  | nil => exact ⟨_, Counts.init⟩
  | @snoc ks w₁ w₂ l hr hs ih =>
    rw [countP_snoc] at hlt ⊢
    obtain ⟨a, hc⟩ := ih (by omega)
    obtain ⟨e, hm⟩ := Client.moves hc.reached.ok hs
    exact ⟨_, hc.step hm hlt⟩

/-- The future of the task `i` is of the generation `g`, which is not the current one any more. -/
structure Earlier (w : WorldOf W) (i : TaskId) (g : UInt64) : Prop where
  future : (w.pc i).generation? = some g
  lt : g.toNat < w.shared.generation.toNat

theorem Earlier.step (h : Earlier w i g) (hc : Counts cfg m w a) (hlt : m < 2 ^ 64)
    (hm : (notify willWake).Moves cfg a w j n w' e) (hi : w'.pc i ≠ .idle) : Earlier w' i g where
  future := by
    by_cases hij : i = j
    · subst hij
      exact (hc.reached.control.goes hm).1.keeps_generation h.future hi (hc.reached.fault_step hm i)
    · rw [hm.pc_ne hij]
      exact h.future
  lt := lt_of_lt_of_le h.lt (hc.counted.le (hc.reached.control.goes hm).1 hlt)

/-- The steps until the future of the task `i` is dropped. -/
def Alive (willWake : W → W → Bool) (cfg : Config) (i : TaskId) (w : WorldOf W)
    (l : TaskId × Bool × Input W) (w' : WorldOf W) : Prop :=
  (notify willWake).step cfg w l.1 l.2.1 l.2.2 = some w' ∧ w'.pc i ≠ .idle

/-- The call of `notify_waiters` that has the lock increases the generation. -/
theorem Goes.of_locked (h : Goes willWake w w' i (.waiters .locked) e p')
    (hv : w.view i = ⟨.dead, .idle, some .guard⟩) :
    w'.shared.generation = w.shared.generation + 1 := by
  generalize hp : Pc.waiters (W := W) .locked = p at h
  cases h with
  | instr p e hi hs =>
    rw [hv] at hi
    obtain ⟨o, o', ho, hop, -⟩ := hi.holder_inv rfl rfl
    obtain rfl := Option.some.inj ho
    cases hop
    cases ‹HolderOp.long _ = true›
  | generation hq hs => rw [hs]
  | _ => cases hp

/-- A future that was created before the generation was increased is an earlier one until it is dropped. -/
theorem earlier_of_runs (h₁ : (notify willWake).Runs cfg init ls₁ w₁)
    (hg : (w₁.pc i).generation? = some g) (hl : w₁.pc l.1 = .waiters .locked)
    (hs : (notify willWake).step cfg w₁ l.1 l.2.1 l.2.2 = some w₂)
    (h₂ : Lts.Run (Alive willWake cfg i) w₂ ls₂ w₃)
    (hlt : (ls₁ ++ l :: ls₂).countP announces < 2 ^ 64) :
    ∃ a, Counts cfg ((ls₁ ++ l :: ls₂).countP announces) w₃ a ∧ Earlier w₃ i g := by
  rw [show ls₁ ++ l :: ls₂ = (ls₁ ++ [l]) ++ ls₂ by simp] at hlt ⊢
  induction h₂ with
  | nil =>
    rw [List.append_nil, countP_snoc] at hlt ⊢
    obtain ⟨a₁, hc₁⟩ := runs_counts h₁ (by omega)
    obtain ⟨e, hm⟩ := Client.moves hc₁.reached.ok hs
    have hgo := (hc₁.reached.control.goes hm).1
    have hf := hc₁.reached.control l.1
    rw [hl] at hgo hf
    have hne : i ≠ l.1 := by
      rintro rfl
      simp [hl, Pc.generation?] at hg
    have hle := hc₁.counted.made hg
    have hlk := hc₁.counted.locked hl
    refine ⟨_, hc₁.step hm hlt, by rw [hm.pc_ne hne]; exact hg, ?_⟩
    rw [hgo.of_locked hf, toNat_succ (by omega)]
    omega
  | @snoc ks w₃ w₄ l' hr hs' ih =>
    rw [← List.append_assoc, countP_snoc] at hlt ⊢
    obtain ⟨a₃, hc₃, he⟩ := ih (by omega)
    obtain ⟨e, hm⟩ := Client.moves hc₃.reached.ok hs'.1
    exact ⟨_, hc₃.step hm hlt, he.step hc₃ (by omega) hm hs'.2⟩

/-- **No earlier future is left waiting.** A future was created before a call of `notify_waiters` increased
the generation, and has not been dropped since. In every later state in which no `notify_waiters` is under way
and the future is not in a poll, its node is in no list; so it is not `Queued` when the lock is free. -/
theorem notify_waiters_leaves_none (h₁ : (notify willWake).Runs cfg init ls₁ w₁)
    (hg : (w₁.pc i).generation? = some g) (hl : w₁.pc l.1 = .waiters .locked)
    (hs : (notify willWake).step cfg w₁ l.1 l.2.1 l.2.2 = some w₂)
    (h₂ : Lts.Run (Alive willWake cfg i) w₂ ls₂ w₃)
    (hlt : (ls₁ ++ l :: ls₂).countP announces < 2 ^ 64) {r : Polled}
    (hn : ∀ j p, w₃.pc j ≠ .waiters p) (hp : w₃.pc i = .fut f (.idle r)) :
    ∃ a, w₃.Ok cfg a ∧ ¬ a.Member i ∧ (w₃.q.mutex = none → w₃.q.mem.rawState i ≠ .queued) := by
  obtain ⟨a, hc, he⟩ := earlier_of_runs h₁ hg hl hs h₂ hlt
  have hfg : f.generation = g := by
    have := he.future
    rw [hp] at this
    exact Option.some.inj this
  have hmem : ¬ a.Member i := by
    intro hx
    have := Current.of_member hc.current hc.reached hn hp hx
    have hlt := he.lt
    rw [← hfg, this] at hlt
    exact lt_irrefl _ hlt
  refine ⟨a, hc.reached.ok, hmem, fun hm => ?_⟩
  refine hc.reached.ok.inv.rawState_ne_queued ?_ (out_iff.2 ⟨hmem, by simp [State.leaving, hm]⟩)
  exact (hc.reached.control i).not_inLoop (hc.reached.fault i) (by simp [hp])

/-- A future is created and polled, and waits; another task calls `notify_waiters`. -/
def lockedActs : List (TaskId × Bool × Input ℕ) :=
  acts 0 (.notified false) 1 ++ acts 0 (.poll 7) 11 ++ [(1, false, .notifyWaiters)]

/-- The call goes on until it returns. -/
def drainActs : List (TaskId × Bool × Input ℕ) := acts 1 (.drain 0) 16

/-- The future has not been dropped. -/
def alive (i : TaskId) (w : WorldOf W) : Bool := (w.pc i).generation?.isSome

theorem Alive.run_of_meets {ls : List (TaskId × Bool × Input W)}
    (h : (notify willWake).meets cfg (fun w _ => alive i w) w ls = true)
    (h' : alive i ((notify willWake).after cfg w ls) = true) :
    Lts.Run (Alive willWake cfg i) w ls ((notify willWake).after cfg w ls) := by
  have hne : ∀ {w : WorldOf W}, alive i w = true → w.pc i ≠ .idle := fun h hp => by
    simp [alive, hp, Pc.generation?] at h
  have hrun : Lts.Run (fun w l w' => (notify willWake).step cfg w l.1 l.2.1 l.2.2 = some w' ∧ w.pc i ≠ .idle)
      w ls ((notify willWake).after cfg w ls) :=
    (Client.run_of_meets h).mono fun _ _ _ h => ⟨h.2, hne h.1⟩
  exact hrun.targets (hne h')

theorem notify_waiters_leaves_none_lockedActs :
    let C : Client ℕ (Waiter ℕ) (Pc ℕ) (Shared ℕ) (Input ℕ) := notify fun _ _ => true
    let w₁ := C.after ⟨.x86, 0⟩ init lockedActs
    let w₂ := C.after ⟨.x86, 0⟩ w₁ [(1, false, .none)]
    let w₃ := C.after ⟨.x86, 0⟩ w₂ drainActs
    w₃.pc 0 = .fut ⟨0, false⟩ (.idle .pending) ∧ w₃.q.mem.rawState 0 ≠ .queued := by
  intro C w₁ w₂ w₃
  have h₁ : C.Runs ⟨.x86, 0⟩ init lockedActs w₁ := Client.runs_after (by decide +kernel)
  have h₂ : C.Runs ⟨.x86, 0⟩ w₁ [(1, false, .none)] w₂ := Client.runs_after (by decide +kernel)
  have hm : C.meets ⟨.x86, 0⟩ (fun w _ => alive 0 w) w₂ drainActs = true := by decide +kernel
  have ha : alive 0 w₃ = true := by decide +kernel
  have h₃ : C.Runs ⟨.x86, 0⟩ w₂ drainActs w₃ := Client.runs_after (by decide +kernel)
  have hg : (w₁.pc 0).generation? = some 0 := by decide +kernel
  have hl : w₁.pc 1 = .waiters .locked := by decide +kernel
  have hp : w₃.pc 0 = .fut ⟨0, false⟩ (.idle .pending) := by decide +kernel
  have hi : w₃.pc 1 = .idle := by decide +kernel
  have hmx : w₃.q.mutex.isNone = true := by decide +kernel
  have hrun : Lts.Run (Alive (fun _ _ => true) ⟨.x86, 0⟩ 0) w₂ drainActs w₃ := Alive.run_of_meets hm ha
  clear_value w₃ w₂ w₁
  have hn : ∀ j p, w₃.pc j ≠ .waiters p := fun j p => by
    by_cases hj : j = 0 ∨ j = 1
    · rcases hj with rfl | rfl
      · simp [hp]
      · simp [hi]
    · have hne : ∀ l ∈ lockedActs ++ [(1, false, .none)] ++ drainActs, j ≠ l.1 := by
        simp only [lockedActs, drainActs, acts, List.mem_append, List.mem_cons, List.mem_replicate]
        rintro l hl rfl
        rcases hl with ((((rfl | ⟨-, rfl⟩) | rfl | ⟨-, rfl⟩) | rfl | hl) | rfl | hl) | rfl | ⟨-, rfl⟩ <;>
          simp_all
      rw [Client.Runs.pc_ne ((h₁.append h₂).append h₃) hne]
      simp [init]
  obtain ⟨a, -, -, h⟩ := notify_waiters_leaves_none (l := (1, false, .none)) h₁ hg hl h₂.single_inv
    hrun (by decide) hn hp
  exact ⟨hp, h (Option.isNone_iff_eq_none.1 hmx)⟩

/-! ## Polls of earlier futures -/

/-- Where a poll or an `enable` of a future of an older generation is, once it has called `state`. -/
def FutPc.older : FutPc W → Bool
  | .state _ | .load _ | .stale | .removing .poll => true
  | _ => false

/-- The task `i` polls or enables the future `f`, whose generation is not the current one. -/
structure Returning (w : WorldOf W) (i : TaskId) (f : Inner) : Prop where
  older : ∃ p, w.pc i = .fut f p ∧ p.older = true
  ne : w.shared.generation ≠ f.generation

/-- Such a poll goes on to return `Ready`. -/
theorem Goes.older {p : FutPc W} (h : Goes willWake w w' i (.fut f p) e p') (hp : p.older = true)
    (hg : w.shared.generation ≠ f.generation) :
    p' = f.ready ∨ ∃ p₁, p' = .fut f p₁ ∧ p₁.older = true := by
  generalize hpc : Pc.fut f p = p₀ at h
  cases h with
  | instr p e hv hs => exact .inr ⟨_, hpc.symm, hp⟩
  | goto f₀ p₀ p' hgo hq hv hs =>
    obtain ⟨rfl, rfl⟩ := Pc.fut.inj hpc
    refine .inr ⟨_, rfl, ?_⟩
    cases hgo with
    | unqueued cx hv => rfl
    | stale cx hv hg => rfl
    | refresh wk hv hg' => exact absurd hg' hg
    | refreshed hv hg' => exact absurd hg' hg
    | fetch cx hg' => exact absurd hg' hg
    | _ => cases hp
  | state f₀ p₀ p' hp' hv hs =>
    obtain ⟨rfl, rfl⟩ := Pc.fut.inj hpc
    rcases hp' with ⟨r, cx, rfl, rfl⟩ | ⟨c, rfl, rfl⟩ <;> cases hp
  | done f₀ p₀ c hd hdata hs =>
    obtain ⟨rfl, rfl⟩ := Pc.fut.inj hpc
    cases hd with
    | dequeued cx hv => exact .inl rfl
    | older cx hg => exact .inl rfl
    | _ => cases hp
  | remove f₀ p₀ c hp' hv hv' hs =>
    obtain ⟨rfl, rfl⟩ := Pc.fut.inj hpc
    rcases hp' with ⟨rfl, rfl⟩ | rfl
    · exact .inr ⟨_, rfl, rfl⟩
    · cases hp
  | removed f₀ c hv hd hs =>
    obtain ⟨rfl, rfl⟩ := Pc.fut.inj hpc
    cases c with
    | poll => exact .inl rfl
    | drop => cases hp
  | _ =>
    cases hpc
    try cases hp

theorem Earlier.ne (h : Earlier w i g) {p : FutPc W} (hp : w.pc i = .fut f p) :
    w.shared.generation ≠ f.generation := by
  have hg := h.future
  rw [hp] at hg
  obtain rfl := Option.some.inj hg
  exact fun he => lt_irrefl _ (he ▸ h.lt)

/-- How many steps the poll has to make at most when nothing interferes with it. -/
def stepsLeft (w : WorldOf W) (i : TaskId) : ℕ :=
  match w.pc i with
  | .fut _ (.load _) => 1
  | .fut _ (.removing _) => 1 + w.q.rank
  | .fut _ .stale => 11
  | .fut _ (.state _) => 12 + (w.view i).askedRank
  | _ => 0

/-- A poll that nothing interferes with makes its next step. -/
theorem Returning.exists_step (h : Returning w i f) (hw : Reached cfg w a) (hq : w.Quiet i) :
    ∃ w', (notify willWake).step cfg w i false .none = some w' := by
  obtain ⟨⟨p, hp, ho⟩, hg⟩ := h
  have hf := hw.control i
  rw [hp] at hf
  have hown : ∀ {v : View ℕ}, w.view i = v → v.own.runs = false → v.upd = .idle → v.op = none →
      (w.view i).Rests := fun h h₁ h₂ h₃ => h ▸ View.rests_of_idle h₁ h₂ h₃
  cases p with
  | state cx =>
    by_cases hr : (w.view i).Rests
    · rcases View.Asked.rests hf hr with hv | hv | hv
      · have ho : w.q.own i = .unqueued := OwnPc.op_eq_unqueued.1 (congrArg View.own hv)
        exact ⟨_, Client.step_own hr (by simp only [notify, next, hp, futNext, ho]; rfl) rfl⟩
      · have ho : w.q.own i = .dequeued := OwnPc.op_eq_dequeued.1 (congrArg View.own hv)
        exact hr.step false (r := ⟨some .release, fun _ _ => f.ready, w.shared.complete i⟩)
          (by simp [notify, next, hp, futNext, ho, Cause.ret, Cause.shared])
          (by simp [Call.onLock, Call.act, Aiq.step, Aiq.ownerCall, ho])
      · have ho : w.q.own i = .locked := OwnPc.op_eq_locked.1 (congrArg View.own hv)
        exact ⟨_, Client.step_own hr (by simp only [notify, next, hp, futNext, ho, if_pos hg]; rfl) rfl⟩
    · exact hq.asked_step hw.ok hf hr false Input.none
  | load cx =>
    have ho : w.q.own i = .unqueued := OwnPc.op_eq_unqueued.1 (congrArg View.own (show w.view i = _ from hf))
    exact (hown hf rfl rfl rfl).step false (r := ⟨some .release, fun _ _ => f.ready, w.shared.complete i⟩)
      (by simp [notify, next, hp, futNext, hg, Cause.ret, Cause.shared])
      (by simp [Call.onLock, Call.act, Aiq.step, Aiq.ownerCall, ho])
  | stale =>
    have hv : w.view i = ⟨.locked, .idle, some (.queued i)⟩ := hf
    obtain ⟨hl, hop⟩ := World.op_of_view (congrArg View.op hv)
    refine View.Rests.holderCall ⟨by rw [hv]; rfl, by rw [hv]; rfl, fun h => ?_⟩ false hl
      (State.mutex_of_op_queued hop) (by simp only [notify, next, hp, futNext]; rfl) rfl rfl
    rw [hv] at h
    obtain rfl := Option.some.inj h
    rfl
  | removing c =>
    rcases hf with hv | hv
    · exact (World.Advancing.of_view (by rw [hv]; rfl) (by rw [hv]; rfl) (congrArg View.op hv)
        (.inr ⟨_, _, _, rfl⟩)).step hq hw.ok false Input.none
    · obtain ⟨hl, hop⟩ := World.op_of_view (congrArg View.op hv)
      refine View.Rests.holderCall ⟨by rw [hv]; rfl, by rw [hv]; rfl, fun h => ?_⟩ false hl
        (State.mutex_of_op_guard hop) (by simp only [notify, next, hp, futNext]; rfl) rfl rfl
      rw [hv] at h
      obtain rfl := Option.some.inj h
      rfl
  | _ => cases ho

/-- It has fewer steps left then. -/
theorem Returning.stepsLeft_lt (h : Returning w i f) (hw : Reached cfg w a) (hq : w.Quiet i)
    (hm : (notify willWake).Moves cfg a w i n w' e) (hr : w'.pc i ≠ f.ready) :
    stepsLeft w' i < stepsLeft w i := by
  obtain ⟨⟨p, hp, ho⟩, hg⟩ := h
  have hgo := (hw.control.goes hm).1
  have hf := hw.control i
  rw [hp] at hgo hf
  have hrank := w'.q.rank_le
  generalize hpc : Pc.fut f p = p₀ at hgo
  generalize hpc' : w'.pc i = p' at hgo hr
  cases hgo with
  | instr p₀ e hv hs =>
    obtain rfl := hpc
    cases p with
    | state cx =>
      have hlt := hv.askedRank_lt hf
      simp only [stepsLeft, hp, hpc']
      omega
    | load cx =>
      rw [show w.view i = _ from hf] at hv
      cases hv
    | stale =>
      rw [show w.view i = _ from hf] at hv
      obtain ⟨o, o', ho', hop, -⟩ := hv.holder_inv rfl rfl
      obtain rfl := Option.some.inj ho'
      cases hop.runs
    | removing c =>
      have hadv : w.Advancing i := by
        rcases hf with hv' | hv'
        · exact .of_view (by rw [hv']; rfl) (by rw [hv']; rfl) (congrArg View.op hv') (.inr ⟨_, _, _, rfl⟩)
        · rw [hv'] at hv
          obtain ⟨o, o', ho', hop, -⟩ := hv.holder_inv rfl rfl
          obtain rfl := Option.some.inj ho'
          cases hop.runs
      have hlt := hadv.rank_lt hq hm
      simp only [stepsLeft, hp, hpc']
      omega
    | _ => cases ho
  | goto f₀ p₀ p' hgo hq hv hs =>
    obtain ⟨rfl, rfl⟩ := Pc.fut.inj hpc
    cases hgo with
    | unqueued cx hv =>
      simp only [stepsLeft, hp, hpc']
      omega
    | stale cx hv hg =>
      simp only [stepsLeft, hp, hpc']
      omega
    | refresh wk hv hg' => exact absurd hg' hg
    | refreshed hv hg' => exact absurd hg' hg
    | fetch cx hg' => exact absurd hg' hg
    | _ => cases ho
  | state f₀ p₀ p' hp' hv hs =>
    obtain ⟨rfl, rfl⟩ := Pc.fut.inj hpc
    rcases hp' with ⟨r, cx, rfl, rfl⟩ | ⟨c, rfl, rfl⟩ <;> cases ho
  | done f₀ p₀ c hd hdata hs =>
    obtain ⟨rfl, rfl⟩ := Pc.fut.inj hpc
    cases hd with
    | dequeued cx hv => exact absurd rfl hr
    | older cx hg => exact absurd rfl hr
    | _ => cases ho
  | remove f₀ p₀ c hp' hv hv' hs =>
    obtain ⟨rfl, rfl⟩ := Pc.fut.inj hpc
    rcases hp' with ⟨rfl, rfl⟩ | rfl
    · simp only [stepsLeft, hp, hpc']
      omega
    · cases ho
  | removed f₀ c hv hd hs =>
    obtain ⟨rfl, rfl⟩ := Pc.fut.inj hpc
    cases c with
    | poll => exact absurd rfl hr
    | drop => cases ho
  | _ =>
    cases hpc
    try cases ho

variable {ls₃ : List (TaskId × Bool × Input W)} {w₄ : WorldOf W}

/-- The steps of the task `i`. -/
def OwnStep (willWake : W → W → Bool) (cfg : Config) (i : TaskId) (w : WorldOf W)
    (l : TaskId × Bool × Input W) (w' : WorldOf W) : Prop :=
  l.1 = i ∧ (notify willWake).step cfg w l.1 l.2.1 l.2.2 = some w'

/-- The steps until the poll of the task `i` has returned. -/
def Unreturned (willWake : W → W → Bool) (cfg : Config) (i : TaskId) (w : WorldOf W)
    (l : TaskId × Bool × Input W) (w' : WorldOf W) : Prop :=
  (notify willWake).step cfg w l.1 l.2.1 l.2.2 = some w' ∧ ∀ f r, w.pc i ≠ .fut f (.idle r)

theorem Returning.step (h : Returning w i f) (hc : Counts cfg m w a) (he : Earlier w i g) (hlt : m < 2 ^ 64)
    (hm : (notify willWake).Moves cfg a w j n w' e) :
    Earlier w' i g ∧ (w'.pc i = f.ready ∨ Returning w' i f) := by
  obtain ⟨⟨p, hp, ho⟩, hg⟩ := h
  have key : w'.pc i = f.ready ∨ ∃ p', w'.pc i = .fut f p' ∧ p'.older = true := by
    by_cases hij : i = j
    · subst hij
      have hgo := (hc.reached.control.goes hm).1
      rw [hp] at hgo
      exact hgo.older ho hg
    · exact .inr ⟨p, by rw [hm.pc_ne hij, hp], ho⟩
  have hne : w'.pc i ≠ .idle := by
    rcases key with hk | ⟨p', hk, -⟩ <;> rw [hk] <;> simp [Inner.ready]
  have he' := he.step hc hlt hm hne
  refine ⟨he', key.imp_right fun hk => ⟨hk, ?_⟩⟩
  obtain ⟨p', hk, -⟩ := hk
  exact he'.ne hk

/-- A poll that nothing interferes with returns `Ready`. -/
theorem Returning.returns (h : Returning w i f) (hc : Counts cfg m w a) (he : Earlier w i g)
    (hlt : m < 2 ^ 64) (hq : w.Quiet i) :
    ∃ ls w', Lts.Run (OwnStep willWake cfg i) w ls w' ∧ w'.pc i = f.ready := by
  refine Lts.Run.exists_of_measure
    (I := fun w => ∃ a, Counts cfg m w a ∧ Earlier w i g ∧ Returning w i f ∧ w.Quiet i)
    (fun w => stepsLeft w i) ⟨a, hc, he, h, hq⟩ ?_
  rintro w ⟨a, hc, he, h, hq⟩
  obtain ⟨w', hs⟩ : ∃ w', (notify willWake).step cfg w i false .none = some w' :=
    h.exists_step hc.reached hq
  obtain ⟨e, hm⟩ := Client.moves hc.reached.ok hs
  refine ⟨(i, false, .none), w', ⟨rfl, hs⟩, ?_⟩
  obtain ⟨he', hret⟩ := h.step hc he hlt hm
  rcases hret with hret | hret
  · exact .inl hret
  · obtain ⟨⟨p, hp, ho⟩, hg⟩ := hret
    have hc' : Counts cfg m w' (a.apply e) := hc.step (l := (i, false, .none)) hm hlt
    refine .inr ⟨⟨_, hc', he', ⟨⟨p, hp, ho⟩, hg⟩, hm.quiet hq ?_⟩, h.stepsLeft_lt hc.reached hq hm ?_⟩
    · have hf := hc'.reached.control i
      rw [hp] at hf
      have hl : (w'.view i).own ≠ .linking := by
        cases p with
        | state cx => rcases hf with hv | hv | hv | hv | hv | hv <;> rw [hv] <;> simp
        | load cx => rw [show w'.view i = _ from hf]; simp
        | stale => rw [show w'.view i = _ from hf]; simp
        | removing c => rcases hf with hv | hv <;> rw [hv] <;> simp
        | _ => cases ho
      unfold State.pend OwnPc.pend
      split
      · exact absurd (show (w'.q.own i).op = .linking by simp [*, OwnPc.op]) hl
      · rfl
    · rintro hr
      obtain ⟨-, rfl⟩ := Pc.fut.inj (hp.symm.trans hr)
      cases ho

/-- **`notify_waiters` reaches every earlier future.** A future was created before a call of
`notify_waiters` increased the generation, and a poll or an `enable` of it that is in its first operation is
under way at some later time; so is every one that starts later. Then, wherever the node is, the poll does
not return `Pending`: until it is over it is on its way to return `Ready`, which it does when nothing
interferes with it. -/
theorem notify_waiters_reaches (h₁ : (notify willWake).Runs cfg init ls₁ w₁)
    (hg : (w₁.pc i).generation? = some g) (hl : w₁.pc l.1 = .waiters .locked)
    (hs : (notify willWake).step cfg w₁ l.1 l.2.1 l.2.2 = some w₂)
    (h₂ : Lts.Run (Alive willWake cfg i) w₂ ls₂ w₃) {cx : Option W} (hp : w₃.pc i = .fut f (.state cx))
    (h₃ : Lts.Run (Unreturned willWake cfg i) w₃ ls₃ w₄)
    (hlt : (ls₁ ++ l :: ls₂ ++ ls₃).countP announces < 2 ^ 64) :
    w₄.pc i = f.ready ∨ (∃ p, w₄.pc i = .fut f p ∧ p.older = true) ∧
      (w₄.Quiet i → ∃ ls w₅, Lts.Run (OwnStep willWake cfg i) w₄ ls w₅ ∧ w₅.pc i = f.ready) := by
  have key : ∃ a, Counts cfg ((ls₁ ++ l :: ls₂ ++ ls₃).countP announces) w₄ a ∧ Earlier w₄ i g ∧
      (w₄.pc i = f.ready ∨ Returning w₄ i f) := by
    induction h₃ with
    | nil =>
      rw [List.append_nil] at hlt ⊢
      obtain ⟨a, hc, he⟩ := earlier_of_runs h₁ hg hl hs h₂ hlt
      exact ⟨a, hc, he, .inr ⟨⟨_, hp, rfl⟩, he.ne hp⟩⟩
    | @snoc ks w₄ w₅ l' hr hs' ih =>
      rw [← List.append_assoc, countP_snoc] at hlt ⊢
      obtain ⟨a, hc, he, hret⟩ := ih (by omega)
      obtain ⟨hs', hn⟩ := hs'
      have hret : Returning w₄ i f := hret.resolve_left (hn _ _)
      obtain ⟨e, hm⟩ := Client.moves hc.reached.ok hs'
      exact ⟨_, hc.step hm hlt, hret.step hc he (by omega) hm⟩
  obtain ⟨a, hc, he, hret⟩ := key
  exact hret.imp_right fun h => ⟨h.older, fun hq => h.returns hc he hlt hq⟩

/-- The poll of the future that starts when the call has returned. -/
theorem notify_waiters_reaches_lockedActs :
    let C : Client ℕ (Waiter ℕ) (Pc ℕ) (Shared ℕ) (Input ℕ) := notify fun _ _ => true
    let w₁ := C.after ⟨.x86, 0⟩ init lockedActs
    let w₂ := C.after ⟨.x86, 0⟩ w₁ [(1, false, .none)]
    let w₃ := C.after ⟨.x86, 0⟩ w₂ (drainActs ++ [(0, false, .poll 8)])
    let w₄ := C.after ⟨.x86, 0⟩ w₃ [(0, false, .none)]
    w₃.pc 0 = .fut ⟨0, false⟩ (.state (some 8)) ∧ w₄.pc 0 = .fut ⟨0, true⟩ (.idle .ready) := by
  intro C w₁ w₂ w₃ w₄
  have h₁ : C.Runs ⟨.x86, 0⟩ init lockedActs w₁ := Client.runs_after (by decide +kernel)
  have h₂ : C.Runs ⟨.x86, 0⟩ w₁ [(1, false, .none)] w₂ := Client.runs_after (by decide +kernel)
  have hm : C.meets ⟨.x86, 0⟩ (fun w _ => alive 0 w) w₂ (drainActs ++ [(0, false, .poll 8)]) = true := by
    decide +kernel
  have ha : alive 0 w₃ = true := by decide +kernel
  have h₄ : C.Runs ⟨.x86, 0⟩ w₃ [(0, false, .none)] w₄ := Client.runs_after (by decide +kernel)
  have hg : (w₁.pc 0).generation? = some 0 := by decide +kernel
  have hl : w₁.pc 1 = .waiters .locked := by decide +kernel
  have hp : w₃.pc 0 = .fut ⟨0, false⟩ (.state (some 8)) := by decide +kernel
  have hp' : w₄.pc 0 = .fut ⟨0, true⟩ (.idle .ready) := by decide +kernel
  have hrun : Lts.Run (Alive (fun _ _ => true) ⟨.x86, 0⟩ 0) w₂ (drainActs ++ [(0, false, .poll 8)]) w₃ :=
    Alive.run_of_meets hm ha
  clear_value w₄ w₃ w₂ w₁
  refine ⟨hp, (notify_waiters_reaches (l := (1, false, .none)) h₁ hg hl h₂.single_inv hrun hp
    (.single ⟨h₄.single_inv, fun f r => by simp [hp]⟩) (by decide)).resolve_right ?_⟩
  rintro ⟨⟨p, hq, ho⟩, -⟩
  obtain ⟨-, rfl⟩ := Pc.fut.inj (hq.symm.trans hp')
  cases ho

end Aiq.Notify
