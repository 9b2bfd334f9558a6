import Aiq.Semaphore.Holdings
import Aiq.Semaphore.Overflow
import Mathlib.Algebra.BigOperators.Group.Finset.Piecewise
import Mathlib.Algebra.Order.BigOperators.Group.Finset

/-!
# The semaphore never over-issues

The available permits, those that the tasks hold, and those that have been handed out are at most the
initial permits and the amounts that users have added (`never_over_issues`). Every step of a borrowed call
keeps the balance (`Sound.balance`): what it adds to one place it takes from another, or loses.
-/

namespace Aiq.Semaphore

variable {W : Type} {willWake : W → W → Bool} {cfg : Config} {a : Abs ℕ} {w w' : WorldOf W}
  {i j x : TaskId} {e : Event ℕ} {n : Input W} {k : Kind} {r : InstrOf W} {o : AddOwner}

/-! ## Borrowed calls -/

/-- The calls of the borrowed API other than `forget_permits`. -/
def Input.Borrowed : Input W → Prop
  | .acquireMany owned _ | .tryAcquireMany owned _ => owned = false
  | .forgetPermits _ => False
  | _ => True

/-- See `Pc.Borrowed`. -/
def AddOwner.Borrowed : AddOwner → Prop
  | .user => True
  | .cancel k e => k.owned = false ∧ e ≠ .ok

/-- See `Pc.Borrowed`. -/
def FetchCont.Borrowed : FetchCont W → Prop
  | .acquire k _ | .retry k _ | .tryAcquire k => k.owned = false
  | .forget _ => False
  | .add o _ _ _ => o.Borrowed

/-- See `Pc.Borrowed`. -/
def FutPc.Borrowed : FutPc W → Prop
  | .refreshed (some e) | .cancel e | .removing e _ | .removed e _ | .unlock e _ | .canceled e => e ≠ .ok
  | _ => True

/-- The call at the control state is borrowed, and does not forget permits; a future that is cancelled has
not returned `Ready(Ok)`. -/
def Pc.Borrowed : Pc W → Prop
  | .fetch c => c.Borrowed
  | .fut k p => k.owned = false ∧ p.Borrowed
  | .add o _ => o.Borrowed
  | _ => True

theorem Kind.request_of_borrowed (h : k.owned = false) : k.request = k.permits := by simp [request, h]

theorem AddOwner.Borrowed.ret (h : o.Borrowed) (b : Bool) : (o.ret b : Pc W).Borrowed := by
  cases o with
  | user => trivial
  | cancel k e =>
    refine ⟨h.1, ?_⟩
    cases b
    · exact h.2
    · exact Ending.noConfusion

theorem FetchCont.Borrowed.ok {c : FetchCont W} (h : c.Borrowed) (s : ℕ) : (c.ok s).Borrowed := by
  cases c <;> try exact trivial
  case retry k wk => exact ⟨h, trivial⟩
  case add o again l p =>
    cases l
    · exact AddOwner.Borrowed.ret h _
    · exact h

theorem FetchCont.Borrowed.err {c : FetchCont W} (h : c.Borrowed) (st : Option ℕ) :
    (c.err st).Borrowed := by
  cases c <;> try exact trivial
  case acquire k wk => exact ⟨h, trivial⟩
  case retry k wk => exact ⟨h, trivial⟩
  case add o again l p =>
    cases st <;> cases l
    · exact h
    · exact h
    · exact AddOwner.Borrowed.ret h _
    · exact h

theorem borrowed_fetch {g : Shared W} {c : FetchCont W} (h : c.Borrowed) (q : State ℕ (Waiter W)) :
    ((fetch i g c).pc e q).Borrowed := by
  unfold fetch
  dsimp only
  split
  · exact h.err none
  · exact h

theorem borrowed_futNext {p : FutPc W} (hk : k.owned = false) (h : p.Borrowed)
    (hr : futNext willWake w i k p n = some r) (q : State ℕ (Waiter W)) : (r.pc e q).Borrowed := by
  cases p <;> simp only [futNext] at hr
  case created =>
    cases n <;> simp only [reduceCtorEq] at hr <;> obtain rfl := Option.some.inj hr
    · exact borrowed_fetch (c := .acquire k _) hk q
    · trivial
  case suspended =>
    cases n <;> simp only [reduceCtorEq] at hr <;> obtain rfl := Option.some.inj hr <;>
      exact ⟨hk, trivial⟩
  case retry wk =>
    obtain rfl := Option.some.inj hr
    exact borrowed_fetch (c := .retry k wk) hk q
  case queued wk b =>
    repeat' split at hr
    all_goals obtain rfl := Option.some.inj hr
    · exact ⟨hk, Ending.noConfusion⟩
    · exact ⟨hk, Ending.noConfusion⟩
    · exact ⟨hk, trivial⟩
  case ready e' =>
    split at hr <;> obtain rfl := Option.some.inj hr
    · exact ⟨hk, And.left ‹_›⟩
    · exact ⟨hk, trivial⟩
  case cancel e' =>
    split at hr
    all_goals first | contradiction | obtain rfl := Option.some.inj hr
    all_goals exact ⟨hk, h⟩
  case removed e' acquired =>
    repeat' split at hr
    all_goals
      obtain rfl := Option.some.inj hr
      exact ⟨hk, h⟩
  case unlock e' acquired =>
    obtain rfl := Option.some.inj hr
    exact ⟨hk, h⟩
  case dropping e' =>
    obtain rfl := Option.some.inj hr
    trivial
  all_goals
    repeat' split at hr
    all_goals first | contradiction | obtain rfl := Option.some.inj hr
    all_goals exact ⟨hk, trivial⟩

theorem borrowed_addNext {p : AddPc W} (h : o.Borrowed) (hr : addNext w i o p = some r)
    (q : State ℕ (Waiter W)) : (r.pc e q).Borrowed := by
  cases p <;> simp only [addNext] at hr
  case start again p =>
    split at hr <;> obtain rfl := Option.some.inj hr
    · exact h.ret _
    · exact borrowed_fetch (c := .add o again false p) h q
  case second again p =>
    obtain rfl := Option.some.inj hr
    exact borrowed_fetch (c := .add o again true p) h q
  case final ws =>
    cases ws <;> obtain rfl := Option.some.inj hr
    · exact h.ret _
    · exact h
  case unlock b =>
    obtain rfl := Option.some.inj hr
    exact h.ret _
  all_goals
    repeat' split at hr
    all_goals first | contradiction | obtain rfl := Option.some.inj hr
    all_goals exact h

theorem borrowed_start (hn : n.Borrowed) (hr : start w i n = some r) (q : State ℕ (Waiter W)) :
    (r.pc e q).Borrowed := by
  cases n <;> simp only [start, permitNext, reduceCtorEq] at hr
  case acquireMany owned m =>
    obtain rfl := Option.some.inj hr
    exact ⟨hn, trivial⟩
  case tryAcquireMany owned m =>
    obtain rfl := Option.some.inj hr
    exact borrowed_fetch (c := .tryAcquire ⟨owned, m.toNat⟩) hn q
  case forgetPermits m => exact hn.elim
  case permitSplit p m =>
    obtain ⟨m', -, rfl⟩ := Option.map_eq_some_iff.1 hr
    split <;> trivial
  all_goals repeat' split at hr
  all_goals
    first
    | contradiction
    | obtain rfl := Option.some.inj hr
    | obtain ⟨m, -, rfl⟩ := Option.map_eq_some_iff.1 hr
  all_goals trivial

theorem borrowed_next (h : (w.pc i).Borrowed) (hn : n.Borrowed) (hr : next willWake w i n = some r)
    (q : State ℕ (Waiter W)) : (r.pc e q).Borrowed := by
  unfold next at hr
  cases hp : w.pc i <;> rw [hp] at h <;> simp only [hp, reduceCtorEq] at hr
  case idle r' => exact borrowed_start hn hr q
  case fut k p => exact borrowed_futNext h.1 h.2 hr q
  case add o p => exact borrowed_addNext h hr q
  case close p =>
    obtain ⟨⟨p', hp'⟩ | hp' | hp', -⟩ := closeNext_pc (e := e) hr q <;> rw [hp'] <;> trivial

theorem borrowed_observe (h : (w.pc i).Borrowed) (q : State ℕ (Waiter W)) :
    (observe w i e q).1.Borrowed := by
  rcases observe_pc w i e q with ho | ho
  · rw [ho]
    exact h
  · generalize w.pc i = p at h ho
    generalize (observe w i e q).1 = p' at ho
    cases ho with
    | ok _ => exact FetchCont.Borrowed.ok h _
    | err _ => exact FetchCont.Borrowed.err h _
    | removedLast k e' acquired x => exact h
    | removed k e' acquired x => exact h
    | set o p ws x b => exact h
    | guarded => trivial
    | closed => trivial

/-- All calls are borrowed. -/
def Borrowed (w : WorldOf W) : Prop := ∀ i, (w.pc i).Borrowed

theorem Borrowed.step (h : Borrowed w) (hn : n.Borrowed)
    (hm : (semaphore willWake).Moves cfg a w i n w' e) : Borrowed w' := by
  intro j
  by_cases hj : j = i
  · subst hj
    cases hm.mover with
    | op hs hd hv hp hg => exact hp ▸ borrowed_observe (h j) _
    | call hr hk hrest hs hv hp hg => exact hp ▸ borrowed_next (h j) hn hr _
    | own hr hk hrest hq hv hp hg => exact hp ▸ borrowed_next (h j) hn hr _
  · rw [hm.pc_ne hj]
    exact h j

/-! ## The balance of a step -/

/-- With the step the task `i` has not more than it had, when it gives `g` to the waiters of others. -/
def Balanced (w w' : WorldOf W) (i : TaskId) (g : ℕ) : Prop :=
  availablePermits w'.q + held w' i + g + w'.shared.permits.sum + w.shared.added ≤
    availablePermits w.q + held w i + w.shared.permits.sum + w'.shared.added

theorem FutPc.holds_congr {p : FutPc W} (hq : w'.q = w.q) (hv : w'.view i = w.view i) :
    p.holds w' i k = p.holds w i k := by
  cases p <;> try (simp only [holds, hq]; done)
  case enqueued wk st => simp only [holds, hq, hv]
  case dequeued b => cases b <;> simp only [holds, hq]
  case ready e' => cases e' <;> simp only [holds, hq]
  case dropping e' => cases e' <;> simp only [holds]

theorem Pc.holds_congr {p : Pc W} (hq : w'.q = w.q) (hv : w'.view i = w.view i) :
    p.holds w' i = p.holds w i := by
  cases p with
  | fut k p => exact FutPc.holds_congr hq hv
  | _ => simp only [holds, hq]

theorem Kind.assigned_of_unqueued {q : State ℕ (Waiter W)} (h : q.mem.rawState i = .unqueued) :
    k.assigned q i = 0 := by simp [assigned, h]

theorem Kind.assigned_of_ne {q : State ℕ (Waiter W)} (h : q.mem.rawState i ≠ .unqueued) :
    k.assigned q i = k.acquired (q.mem.data i) := by simp [assigned, h]

/-- A future that finds its node dequeued, and the semaphore open, has been assigned its permits. -/
theorem Settled.assigned (h : Settled w a) (hw : Reached cfg w a) (hs : Served w i)
    (ho : (w.view i).own = .dequeued) (hopen : isClosed w.q = false) :
    k.assigned w.q i = k.request := by
  rw [Kind.assigned_of_ne (by simp [hw.ok.rawState_of_dequeued ho]), Kind.acquired]
  rcases h i hs with hz | hsh
  · rw [hz, Nat.sub_zero]
  · rw [World.Ok.isClosed_of_nil hw.ok hsh.1, hsh.2] at hopen
    cases hopen

/-- A step of a future that is not in a call of the queue. -/
theorem Reached.balance_own {p : FutPc W} (hw : Reached cfg w a) (hs : Settled w a)
    (hb : k.owned = false) (hp : w.pc i = .fut k p) (hr : futNext willWake w i k p n = some r)
    (hk : r.call = none) (hrest : (w.view i).Rests) (hq : w'.q = w.q) (hv : w'.view i = w.view i)
    (hp' : w'.pc i = r.pc .tau w.q) (hg : w'.shared = r.shared) : Balanced w w' i 0 := by
  have hreq := Kind.request_of_borrowed hb
  have hf := hw.control i
  have hown : (w.view i).own = (w.q.own i).op := rfl
  unfold Balanced held
  rw [Pc.holds_congr hq hv, hp, hp', hg, hq]
  rw [hp] at hf
  cases p <;> simp only [futNext] at hr
  case created =>
    cases n <;> simp only [reduceCtorEq] at hr <;> obtain rfl := Option.some.inj hr
    · simp [fetch] at hk
    · simp only [Pc.holds, Pc.inHand, FutPc.holds]
      omega
  case suspended =>
    cases n <;> simp only [reduceCtorEq] at hr <;> obtain rfl := Option.some.inj hr
    · simp at hk
    · simp only [Pc.holds, FutPc.holds]
      omega
  case state wk =>
    cases ho : w.q.own i <;> simp only [ho, reduceCtorEq] at hr <;> obtain rfl := Option.some.inj hr
    · simp only [Pc.holds, FutPc.holds]
      omega
    · cases hcl : isClosed w.q
      · have hown' : (w.view i).own = .dequeued := by rw [hown, ho]; rfl
        have := hs.assigned (k := k) hw ⟨k, _, hp, rfl, hw.ok.marked_of_dequeued hown'⟩ hown' hcl
        simp only [Pc.holds, FutPc.holds]
        omega
      · simp only [Pc.holds, FutPc.holds]
        omega
    · simp only [Pc.holds, FutPc.holds]
      omega
  case enqueued wk st =>
    have hv : w.view i = ⟨.unqueued, .idle, none⟩ ∨ w.view i = ⟨.idle, .idle, none⟩ := by
      rcases hf with hv | hv | hv | hv | hv
      · simpa [hv, OwnOp.runs] using hrest.own
      · simpa [hv, OwnOp.runs] using hrest.own
      · exact .inl hv
      · simpa [hv, OwnOp.runs] using hrest.own
      · exact .inr hv
    rcases hv with hv | hv
    · have hz := Kind.assigned_of_unqueued (k := k) (hw.ok.rawState_of_unqueued (congrArg View.own hv))
      rw [show w.q.own i = .unqueued from OwnPc.op_eq_unqueued.1 (congrArg View.own hv)] at hr
      obtain rfl := Option.some.inj hr
      simp only [Pc.holds, FutPc.holds]
      omega
    · rw [show w.q.own i = .idle from OwnPc.op_eq_idle.1 (congrArg View.own hv)] at hr
      obtain rfl := Option.some.inj hr
      simp only [Pc.holds, FutPc.holds, hv, OwnOp.out, Bool.false_eq_true, if_false]
      omega
  case queued wk b =>
    repeat' split at hr
    all_goals obtain rfl := Option.some.inj hr
    · simp only [Pc.holds, FutPc.holds]
      omega
    · simp only [Pc.holds, FutPc.holds]
      omega
    · simp at hk
  case removed e' acquired =>
    repeat' split at hr
    all_goals
      obtain rfl := Option.some.inj hr
      simp only [Pc.holds, FutPc.holds, Pc.inHand]
      omega
  case dropping e' =>
    obtain rfl := Option.some.inj hr
    cases e' <;> simp [Pc.holds, FutPc.holds, Pc.inHand, Shared.grant]
    omega
  all_goals
    repeat' split at hr
    all_goals first | contradiction | obtain rfl := Option.some.inj hr
    all_goals simp [fetch] at hk

theorem holds_fetch {c : FetchCont W} {g : Shared W} (hc : c.acquires = true) (q : State ℕ (Waiter W)) :
    ((fetch i g c).pc e q).holds w i ≤ (c.err none).holds w i := by
  unfold fetch
  dsimp only
  split
  · exact le_rfl
  · cases c <;> first | exact Nat.zero_le _ | cases hc

/-- The call of an operation of the queue by a future. -/
theorem Reached.balance_call {p : FutPc W} {c : Call ℕ (Waiter W)} (hw : Reached cfg w a)
    (hm : (semaphore willWake).Moves cfg a w i n w' e)
    (hb : k.owned = false) (hb' : p.Borrowed) (hp : w.pc i = .fut k p)
    (hr : futNext willWake w i k p n = some r) (hk : r.call = some c) (hrest : (w.view i).Rests)
    (hs : TaskStep cfg a w i (c.act i) e w'.q)
    (hv : CallStep i w.q.mem.queueState (w.q.mem.rawState i) c (w.view i) e (w'.view i))
    (hp' : w'.pc i = r.pc e w'.q) (hg : w'.shared = r.shared) : Balanced w w' i 0 := by
  have hreq := Kind.request_of_borrowed hb
  have hf := hw.control i
  have hf' := (hw.step hm).control i
  have hok := hm.ok' hw.ok
  have hown : (w.view i).own = (w.q.own i).op := rfl
  have hav : availablePermits w'.q ≤ availablePermits w.q := by
    refine hw.availablePermits_le hm ?_
    by_contra he
    obtain ⟨t, t', rfl⟩ := hv.writes_inv (by simpa using he)
    have := next_not_foreign (show next willWake w i n = some r by rw [next, hp]; exact hr) hk
    cases this
  suffices hle : (r.pc e w'.q).holds w' i ≤ p.holds w i k ∧ r.shared = w.shared by
    unfold Balanced held
    rw [hp, hp', hg, hle.2]
    have := hle.1
    simp only [Pc.holds] at this ⊢
    omega
  -- a call that neither renews the node nor fills its waiter in
  have hsame : (∀ v, c ≠ .create v) ∧ c ≠ .reset →
      (w'.q.mem.data i).permitsRemaining = (w.q.mem.data i).permitsRemaining →
      k.assigned w'.q i = k.assigned w.q i := fun hc hd => by
    rw [Kind.assigned, Kind.assigned, hs.rawState_call (hv.ne_renewed hc), Kind.acquired,
      Kind.acquired, hd]
  have hdata : c.setsData = false →
      (w'.q.mem.data i).permitsRemaining = (w.q.mem.data i).permitsRemaining := fun hc => by
    rw [hs.data_of_call hc]
  rw [hp] at hf
  rw [hp'] at hf'
  cases p <;> simp only [futNext] at hr
  case created =>
    cases n <;> simp only [reduceCtorEq] at hr <;> obtain rfl := Option.some.inj hr
    · exact ⟨(holds_fetch rfl _).trans (Nat.zero_le _), rfl⟩
    · simp at hk
  case node wk =>
    obtain rfl := Option.some.inj hr
    obtain rfl := Option.some.inj hk
    obtain rfl := hv.create_event
    refine ⟨?_, rfl⟩
    have hprev := prev_of_renewed hs.step (.inr rfl)
    exact (Kind.assigned_of_unqueued (by rw [Mem.rawState, hprev]; rfl)).le
  case fresh wk =>
    obtain rfl := Option.some.inj hr
    obtain rfl := Option.some.inj hk
    exact ⟨(hsame (by simp) (hdata rfl)).le, rfl⟩
  case suspended =>
    cases n <;> simp only [reduceCtorEq] at hr <;> obtain rfl := Option.some.inj hr
    · obtain rfl := Option.some.inj hk
      exact ⟨(hsame (by simp) (hdata rfl)).le, rfl⟩
    · simp at hk
  case retry wk =>
    obtain rfl := Option.some.inj hr
    obtain rfl := Option.some.inj hk
    exact ⟨(holds_fetch rfl _).trans (hsame (by simp) (hdata rfl)).le, rfl⟩
  case failed wk st =>
    split at hr <;> obtain rfl := Option.some.inj hr <;> obtain rfl := Option.some.inj hk
    · exact ⟨(hsame (by simp) (hdata rfl)).le, rfl⟩
    · have hz := hok.rawState_of_unqueued (congrArg View.own hf')
      exact ⟨(Kind.assigned_of_unqueued hz).le.trans (Nat.zero_le _), rfl⟩
  case stored wk st =>
    obtain rfl := Option.some.inj hr
    obtain rfl := Option.some.inj hk
    have hout : (w'.view i).own.out = true := by
      generalize w.view i = v at hv
      generalize w'.view i = v' at hv
      cases hv
      rfl
    refine ⟨?_, rfl⟩
    simp [Pc.holds, FutPc.holds, hout]
  case queued wk b =>
    repeat' split at hr
    all_goals obtain rfl := Option.some.inj hr
    · simp at hk
    · simp at hk
    · obtain rfl := Option.some.inj hk
      refine ⟨(hsame (by simp) ?_).le, rfl⟩
      rcases hs.data_call i with hd | hd
      · rw [hd]
      · cases hd with
        | holder g o ho hn hd =>
          rw [hd, Waiter.refresh]
          split <;> rfl
  case refreshed e' =>
    cases e' with
    | none =>
      obtain rfl := Option.some.inj hr
      obtain rfl := Option.some.inj hk
      exact ⟨(hsame (by simp) (hdata rfl)).le, rfl⟩
    | some e' =>
      obtain rfl := Option.some.inj hr
      obtain rfl := Option.some.inj hk
      refine ⟨?_, rfl⟩
      cases e' with
      | ok => exact absurd rfl hb'
      | _ => exact (hsame (by simp) (hdata rfl)).le
  case dequeued b =>
    obtain rfl := Option.some.inj hr
    obtain rfl := Option.some.inj hk
    refine ⟨?_, rfl⟩
    cases b
    · exact le_rfl
    · exact (hsame (by simp) (hdata rfl)).le
  case got =>
    obtain rfl := Option.some.inj hr
    exact ⟨le_rfl, rfl⟩
  case ready e' =>
    split at hr <;> obtain rfl := Option.some.inj hr <;> obtain rfl := Option.some.inj hk <;>
      refine ⟨?_, rfl⟩ <;> cases e' <;> first | exact le_rfl | exact Nat.zero_le _ | skip
    · exact absurd rfl (And.left ‹_›)
    all_goals exact (hsame (by simp) (hdata rfl)).le
  case cancel e' =>
    have hv₀ := Asked.rests hf hrest
    cases ho : w.q.own i <;> simp only [ho, reduceCtorEq] at hr <;> obtain rfl := Option.some.inj hr
    · exact ⟨Nat.zero_le _, rfl⟩
    · have hraw := hw.ok.rawState_of_dequeued (hown.trans (by rw [ho]; rfl))
      exact ⟨(Kind.assigned_of_ne (by simp [hraw])).ge, rfl⟩
    · have hop : (w.view i).op = some (.queued i) := by
        rcases hv₀ with hv₀ | hv₀ | hv₀ <;> rw [hv₀] at hown ⊢ <;> simp [ho, OwnPc.op] at hown
      have hraw := hw.ok.rawState_of_queued hop
      refine ⟨le_trans ?_ (Kind.assigned_of_ne (by simp [hraw])).ge, rfl⟩
      simp only [Pc.holds, FutPc.holds]
      split
      · exact Nat.zero_le _
      · exact le_rfl
  case unlock e' acquired =>
    obtain rfl := Option.some.inj hr
    exact ⟨le_rfl, rfl⟩
  case canceled e' =>
    obtain rfl := Option.some.inj hr
    refine ⟨?_, rfl⟩
    cases e' <;> first | exact absurd rfl hb' | exact le_rfl
  all_goals
    repeat' split at hr
    all_goals first | contradiction | obtain rfl := Option.some.inj hr
    all_goals simp at hk

/-- An instruction of an operation of a future. -/
theorem Reached.balance_instr {p : FutPc W} (hw : Reached cfg w a)
    (hm : (semaphore willWake).Moves cfg a w i n w' e) (hb : k.owned = false) (hp : w.pc i = .fut k p)
    (hd : w'.q.mem.data = w.q.mem.data)
    (hv : InstrStep i w.q.mem.queueState (w.view i) e (w'.view i))
    (hp' : w'.pc i = (observe w i e w'.q).1) (hg : w'.shared = (observe w i e w'.q).2) :
    Balanced w w' i 0 := by
  have hreq := Kind.request_of_borrowed hb
  have hf := hw.control i
  have hf' := (hw.step hm).control i
  have hok := hm.ok' hw.ok
  have hshared : w'.shared = w.shared := by
    rw [hg]
    unfold observe
    rw [hp]
    cases p <;> first | rfl | (dsimp only; split <;> rfl)
  have hsame : (∀ e' m, p ≠ .removing e' m) → w'.pc i = .fut k p := fun hne => by
    rw [hp']
    unfold observe
    rw [hp]
    cases p <;> first | rfl | exact absurd rfl (hne _ _)
  -- what is left to show
  have hle : ∀ {p'}, w'.pc i = .fut k p' →
      availablePermits w'.q + p'.holds w' i k ≤ availablePermits w.q + p.holds w i k →
      Balanced w w' i 0 := fun hp' hle => by
    unfold Balanced held
    rw [hp, hp', hshared]
    simp only [Pc.holds]
    omega
  have hquiet : (∀ b, ¬ Writes i (.fut k p) b) → availablePermits w'.q ≤ availablePermits w.q :=
    fun hne => hw.availablePermits_le hm (by
      by_contra he
      exact hne e (hp ▸ writes hw.control hm (by simpa using he)))
  have hassigned : (w.view i).own.out = false → k.assigned w'.q i ≤ k.assigned w.q i := fun ho => by
    have := Kind.assigned_le (k := k) fun hx =>
      hm.rawState_unqueued hx (.inr (OwnPc.claims_of_out (p := w.q.own i) ho))
    simpa [reduced, hd] using this
  rw [hp] at hf
  cases p <;> simp only [Pc.Fits, FutPc.Fits] at hf
  case state wk =>
    have ho : (w.view i).own.out = false := by
      rcases hf with hf | hf | hf | hf | hf | hf <;> rw [hf] at hv ⊢ <;> first | rfl | cases hv
    have := hquiet fun b hb => by cases hb
    have := hassigned ho
    refine hle (hsame (by simp)) ?_
    simp only [FutPc.holds]
    omega
  case cancel e' =>
    have ho : (w.view i).own.out = false := by
      rcases hf with hf | hf | hf | hf | hf | hf <;> rw [hf] at hv ⊢ <;> first | rfl | cases hv
    have := hquiet fun b hb => by cases hb
    have := hassigned ho
    refine hle (hsame (by simp)) ?_
    simp only [FutPc.holds]
    omega
  case enqueued wk st =>
    have hav := hquiet fun b hb => by cases hb
    refine hle (hsame (by simp)) ?_
    simp only [FutPc.holds]
    -- the node is out of the lists, or it has been enqueued before
    have hout : (w'.view i).own.out = true → availablePermits w'.q +
        (if (w'.view i).own.out then 0 else k.assigned w'.q i) ≤ availablePermits w.q +
        (if (w.view i).own.out then 0 else k.assigned w.q i) := fun ho => by
      rw [if_pos ho]
      omega
    have hin : (w.view i).own.out = false → availablePermits w'.q +
        (if (w'.view i).own.out then 0 else k.assigned w'.q i) ≤ availablePermits w.q +
        (if (w.view i).own.out then 0 else k.assigned w.q i) := fun ho => by
      have := hassigned ho
      rw [ho]
      split <;> simp <;> omega
    have hcases : (w'.view i).own.out = true ∨ (w.view i).own.out = false ∨ e = .enqueue i := by
      rcases hf with hf | hf | hf | hf | hf <;> rw [hf] at hv ⊢ <;>
        generalize w'.view i = v' at hv <;> cases hv <;> simp [OwnOp.out]
    rcases hcases with ho | ho | rfl
    · exact hout ho
    · exact hin ho
    · obtain ⟨k', wk', st', hpc, hst, -, -, hrem⟩ := hw.enqueue hm
      obtain ⟨rfl, -⟩ := Pc.fut.inj (hpc.symm.trans hp)
      have hnil : availablePermits w'.q = 0 :=
        World.Ok.availablePermits_of_ne_nil hok (by simp [Abs.apply])
      have hle : permitsOf st' ≤ availablePermits w.q := hst ▸ permitsOf_le
      have hacq : k'.assigned w'.q i ≤ k'.acquired (w'.q.mem.data i) := by
        unfold Kind.assigned
        split <;> omega
      rw [Kind.acquired, hrem] at hacq
      split <;> omega
  case removing e' m =>
    have hop : (w.view i).op = some (.removing i m .queued) := congrArg View.op hf
    obtain ⟨hremove, htau, hremoved⟩ := hm.removing_result hop
    obtain ⟨op, op', hop', hos, -⟩ := hv.holder_inv (by rw [hf]; rfl) (by rw [hf]; rfl)
    obtain rfl := Option.some.inj (hop.symm.trans hop')
    simp only [observe, hp] at hp'
    cases hos with
    | more =>
      have hav := hw.availablePermits_le hm rfl
      refine hle hp' ?_
      simp only [FutPc.holds, htau rfl]
      omega
    | remove =>
      obtain ⟨hr, hr'⟩ := hremove _ _ rfl
      have hav := hw.availablePermits_remove hm
      refine hle hp' ?_
      simp only [FutPc.holds, hr, hr', reduceCtorEq, if_false, Option.some.injEq, decide_eq_true_eq]
      split at hav
      · rename_i hq
        simp [hq]
        omega
      · split <;> omega
    | removed _ _ _ b =>
      have hav := hw.availablePermits_le hm rfl
      have hr := hremoved _ _ rfl
      cases b
      · refine hle hp' ?_
        simp only [FutPc.holds, hr]
        simpa using hav
      · refine hle hp' ?_
        simp only [FutPc.holds, hr]
        simpa using hav
  case dropping e' =>
    refine hle (hsame (by simp)) ?_
    have hsame : (FutPc.dropping e' : FutPc W).holds w' i k = (FutPc.dropping e').holds w i k := by
      cases e' <;> rfl
    rw [hsame]
    have hav : availablePermits w'.q ≤ availablePermits w.q := by
      by_cases he : e.writes = true
      · have hwr := writes hw.control hm he
        rw [hp] at hwr
        cases hwr
        simpa using hw.availablePermits_remove hm
      · exact hw.availablePermits_le hm (by simpa using he)
    omega
  all_goals
    rw [hf] at hv
    generalize w'.view i = v' at hv
    cases hv
    try
      rename_i h
      cases h.runs

/-- A step of an acquisition that tries to take its permits from the state. -/
theorem Reached.balance_fetch {c : FetchCont W} (hw : Reached cfg w a)
    (hm : (semaphore willWake).Moves cfg a w i n w' e) (hb : c.Borrowed) (hc : c.acquires = true)
    (hp : w.pc i = .fetch c) : Balanced w w' i 0 := by
  have hf := hw.control i
  have hf' := (hw.step hm).control i
  have hok := hw.ranges.pc i
  have hok' := hm.ok' hw.ok
  rw [hp] at hf hok
  obtain ⟨m, s, hv⟩ := hf
  have hzero : held w i = 0 := by
    rw [held, hp]
    cases c <;> first | rfl | cases hc
  cases hm.mover with
  | call hr hk hrest hs hi hp' hg => simp [semaphore, next, hp] at hr
  | own hr hk hrest hq hi hp' hg => simp [semaphore, next, hp] at hr
  | op hs hd hi hp' hg =>
    rcases World.fetched_cases c.own_runs c.op_runs hv hi rfl with ⟨hfe, rfl, -⟩ | ⟨r, hfe, -, hfr⟩ <;>
      simp only [semaphore, observe, hp, hfe] at hp' hg
    · have hav := hw.availablePermits_le hm rfl
      have hz : (Pc.fetch c).holds w' i = 0 := by cases c <;> first | rfl | cases hc
      unfold Balanced
      rw [hzero, held, hp', hz, hg]
      omega
    cases hfr with
    | @ok s' hfn hq =>
      obtain ⟨hav, hav'⟩ := hw.availablePermits_update hm
      unfold Balanced
      rw [hzero, hav, hav', held, hp', hg]
      cases c <;> simp only [FetchCont.acquires, Bool.false_eq_true] at hc
      case acquire k wk =>
        have hreq := Kind.request_of_borrowed hb
        obtain ⟨-, h₁, rfl⟩ := checkAcquirePermits_inv (Kind.Ok.request hok) hfn
        simp [FetchCont.ok, Pc.holds, Pc.inHand, FetchCont.grant, Shared.grant]
        omega
      case retry k wk =>
        have hreq := Kind.request_of_borrowed hb
        obtain ⟨-, h₁, rfl⟩ := checkAcquirePermits_inv (Kind.Ok.request hok) hfn
        simp only [FetchCont.ok, Pc.holds, FutPc.holds, FetchCont.grant]
        omega
      case tryAcquire k =>
        obtain ⟨-, h₁, rfl⟩ := checkAcquirePermits_inv hok hfn
        simp [FetchCont.ok, Pc.holds, Pc.inHand, FetchCont.grant, Shared.grant]
        omega
    | _ =>
      have hav := hw.availablePermits_le hm rfl
      have hz : held w' i = 0 := by
        rw [held, hp']
        rw [hp'] at hf'
        cases c <;> simp only [FetchCont.acquires, Bool.false_eq_true] at hc
        case acquire k wk => rfl
        case retry k wk =>
          exact Kind.assigned_of_unqueued (hok'.rawState_of_unqueued (congrArg View.own hf'))
        case tryAcquire k => rfl
      unfold Balanced
      rw [hzero, hz, hg]
      dsimp only
      omega

/-- `close` adds no permits. -/
theorem closeNext_added {p : ClosePc W} (hr : closeNext w p n = some r) :
    r.shared.added = w.shared.added := by
  cases p <;> simp only [closeNext] at hr
  case forEach p =>
    unfold ForEachPc.next at hr
    repeat' split at hr
    all_goals first | contradiction | obtain rfl := Option.some.inj hr
    all_goals rfl
  case final ws => cases ws <;> obtain rfl := Option.some.inj hr <;> rfl
  all_goals repeat' split at hr
  all_goals first | contradiction | obtain rfl := Option.some.inj hr
  all_goals rfl

/-- A step of a `close` makes no permits available. -/
theorem Reached.balance_close {p : ClosePc W} (hw : Reached cfg w a)
    (hm : (semaphore willWake).Moves cfg a w i n w' e) (hp : w.pc i = .close p) :
    Balanced w w' i 0 := by
  have hav : availablePermits w'.q ≤ availablePermits w.q := by
    by_cases he : e.writes = true
    · have hwr := writes hw.control hm he
      rw [hp] at hwr
      cases hwr with
      | close s =>
        obtain ⟨hav, hav'⟩ := hw.availablePermits_update hm
        rw [hav, hav', or_closed_div]
      | drain p d =>
        rw [World.Ok.availablePermits_of_nil (hm.ok' hw.ok) rfl]
        exact (show closed / 2 = 0 by decide).le.trans (Nat.zero_le _)
    · exact hw.availablePermits_le hm (by simpa using he)
  have key : held w' i = 0 ∧ w'.shared.permits = w.shared.permits ∧ w'.shared.added = w.shared.added := by
    have hnext : ∀ {r : InstrOf W} {q}, next willWake w i n = some r → (r.pc e q).holds w' i = 0 ∧
        r.shared.permits = w.shared.permits ∧ r.shared.added = w.shared.added := fun {r q} hr => by
      simp only [next, hp] at hr
      obtain ⟨hpc, hpm⟩ := closeNext_pc (e := e) hr q
      refine ⟨?_, hpm, closeNext_added hr⟩
      rcases hpc with ⟨p', hpc⟩ | hpc | hpc <;> rw [hpc] <;> rfl
    cases hm.mover with
    | op hs hd hv hp' hg =>
      rw [held, hp', hg]
      simp only [semaphore, observe, hp]
      cases p <;> try exact ⟨rfl, rfl, rfl⟩
      case ask =>
        dsimp only
        repeat' split
        all_goals exact ⟨rfl, rfl, rfl⟩
    | call hr hk hrest hs hv hp' hg =>
      rw [held, hp', hg]
      exact hnext hr
    | own hr hk hrest hq hv hp' hg =>
      rw [held, hp', hg]
      exact hnext hr
  unfold Balanced
  rw [key.1, key.2.1, key.2.2]
  omega

theorem sum_eraseIdx {l : List ℕ} {p m : ℕ} (h : l[p]? = some m) : (l.eraseIdx p).sum + m = l.sum := by
  obtain ⟨hp, rfl⟩ := List.getElem?_eq_some_iff.1 h
  rw [add_comm]
  exact List.CommMonoid.add_sum_eraseIdx hp

theorem sum_set {l : List ℕ} {p m k : ℕ} (h : l[p]? = some m) : (l.set p k).sum + m = l.sum + k := by
  obtain ⟨hp, -⟩ := List.getElem?_eq_some_iff.1 h
  have h₁ := sum_eraseIdx h
  have h₂ := sum_eraseIdx (l := l.set p k) (p := p) (m := k) (by simp [hp])
  rw [List.eraseIdx_set_eq] at h₂
  omega

/-- The start of a call: what is taken from the permits goes to the hands of the task. -/
theorem start_holds (hn : n.Borrowed) (hr : start w i n = some r) (w' : WorldOf W)
    (q : State ℕ (Waiter W)) :
    (r.pc e q).holds w' i + r.shared.permits.sum + w.shared.added ≤
      w.shared.permits.sum + r.shared.added := by
  cases n <;> simp only [start, permitNext, reduceCtorEq] at hr
  case acquireMany owned m =>
    obtain rfl := Option.some.inj hr
    simp [Pc.holds, FutPc.holds]
  case tryAcquireMany owned m =>
    obtain rfl := Option.some.inj hr
    have : ((fetch i w.shared (.tryAcquire ⟨owned, m.toNat⟩)).pc e q).holds w' i ≤ 0 := holds_fetch rfl q
    simp only [fetch] at this ⊢
    omega
  case addPermits m =>
    obtain rfl := Option.some.inj hr
    simp only [Pc.holds, Pc.inHand]
    omega
  case forgetPermits m => exact hn.elim
  case close =>
    obtain rfl := Option.some.inj hr
    simp [Pc.holds, Pc.inHand]
  case permitDrop p =>
    obtain ⟨m, hm, rfl⟩ := Option.map_eq_some_iff.1 hr
    have := sum_eraseIdx hm
    simp only [Pc.holds, Pc.inHand]
    omega
  case permitForget p =>
    obtain ⟨m, hm, rfl⟩ := Option.map_eq_some_iff.1 hr
    have := sum_eraseIdx hm
    simp only [Pc.holds, Pc.inHand]
    omega
  case permitSplit p m =>
    obtain ⟨m', hm', rfl⟩ := Option.map_eq_some_iff.1 hr
    split
    · have := sum_set (k := m' - m.toNat) hm'
      simp only [Pc.holds, Pc.inHand, List.sum_append, List.sum_singleton]
      omega
    · simp [Pc.holds, Pc.inHand]
  case permitMerge p other =>
    split at hr
    · rename_i m m' hm hm'
      split at hr
      · simp at hr
      rename_i hne
      split at hr <;> obtain rfl := Option.some.inj hr
      · have h₁ := sum_set (k := m + m') hm
        have h₂ := sum_eraseIdx (l := w.shared.permits.set p (m + m')) (p := other) (m := m')
          (by rw [List.getElem?_set_ne hne, hm'])
        simp only [Pc.holds, Pc.inHand]
        omega
      · have := sum_eraseIdx hm'
        simp only [Pc.holds, Pc.inHand]
        omega
    · simp at hr

/-- The start of a call, or a call on a permit. -/
theorem Reached.balance_idle {r' : Result} (hw : Reached cfg w a)
    (hm : (semaphore willWake).Moves cfg a w i n w' e) (hn : n.Borrowed) (hp : w.pc i = .idle r') :
    Balanced w w' i 0 := by
  have hf := hw.control i
  rw [hp] at hf
  have hav : availablePermits w'.q ≤ availablePermits w.q := hw.availablePermits_le hm (by
    by_contra he
    have hwr := writes hw.control hm (by simpa using he)
    rw [hp] at hwr
    cases hwr)
  have hz : held w i = 0 := by
    rw [held, hp]
    rfl
  unfold Balanced
  rw [hz]
  cases hm.mover with
  | op hs hd hv hp' hg =>
    rw [show w.view i = _ from hf] at hv
    generalize w'.view i = v' at hv
    cases hv
  | @call r c _ hr hk hrest hs hv hp' hg =>
    simp only [semaphore, next, hp] at hr
    have := start_holds (e := e) hn hr w' w'.q
    rw [held, hp', hg]
    omega
  | @own r hr hk hrest hq hv hp' hg =>
    simp only [semaphore, next, hp] at hr
    have := start_holds (e := .tau) hn hr w' w.q
    rw [held, hp', hg]
    omega

/-! ## Steps that add permits -/

theorem sum_reduced_of_data (h : w'.q.mem.data = w.q.mem.data) (t : Finset TaskId) :
    ∑ j ∈ t, reduced w w' j = 0 := by
  simp [reduced, h]

/-- What a step gives that changes one waiter. -/
theorem sum_reduced_of_update {v : Waiter W} (h : w'.q.mem.data = Function.update w.q.mem.data x v)
    (t : Finset TaskId) :
    ∑ j ∈ t, reduced w w' j ≤ (w.q.mem.data x).permitsRemaining - v.permitsRemaining := by
  have hj : ∀ j, reduced w w' j =
      if j = x then (w.q.mem.data x).permitsRemaining - v.permitsRemaining else 0 := fun j => by
    unfold reduced
    rw [h, Function.update_apply]
    split
    · rename_i hx
      rw [hx]
    · exact Nat.sub_self _
  simp only [hj, Finset.sum_ite_eq']
  split
  · exact le_rfl
  · exact Nat.zero_le _

/-- A step of a task that adds permits takes from what it has in hand what it gives to waiters, and what
becomes available. -/
theorem Reached.balance_add (hw : Reached cfg w a) (hm : (semaphore willWake).Moves cfg a w i n w' e)
    (ha : (w.pc i).Adds o) :
    ∃ g, (∀ t, ∑ j ∈ t, reduced w w' j ≤ g) ∧ Balanced w w' i g := by
  have hadd := hw.addStep hm ha
  have hok := hm.ok' hw.ok
  have hret : ∀ b, (o.ret b : Pc W).holds w' i = 0 := fun b => by cases o <;> rfl
  unfold Balanced held
  generalize w.pc i = p at hadd
  generalize w'.pc i = p' at hadd
  cases hadd with
  | goes hg he hd hsh =>
    have hav := World.Ok.availablePermits_eq hw.ok (he a ▸ hok)
    refine ⟨0, fun t => (sum_reduced_of_data hd t).le, ?_⟩
    suffices hle : p'.holds w' i ≤ p.holds w i by
      rw [hav, hsh]
      omega
    cases hg with
    | nothing => exact (hret _).le
    | final => exact (hret _).le
    | unlock b => exact (hret _).le
    | overflow again l p s =>
      cases l
      · exact (hret _).le.trans (Nat.zero_le _)
      · exact Nat.zero_le _
    | queued again p => cases again <;> exact le_rfl
    | queuedAtOnce again p => cases again <;> exact le_rfl
    | served p ws hle hr => simp [Pc.holds, Pc.inHand, hr]
    | set p ws hr => simp [Pc.holds, Pc.inHand, hr]
    | removed p ws b hr =>
      cases b
      · by_cases hp : p = 0
        · simp [Pc.holds, Pc.inHand, hp]
        · by_cases hl : ws.length = wakersCapacity <;> simp [Pc.holds, Pc.inHand, hr, hp, hl]
      · simp [Pc.holds, Pc.inHand]
    | _ => first | exact le_rfl | exact Nat.zero_le _
  | wake p wk ws hq hsh =>
    refine ⟨0, fun t => (sum_reduced_of_data (by rw [hq]) t).le, ?_⟩
    simp [hq, hsh, Shared.wake, Pc.holds, Pc.inHand]
  | wakeLast wk ws hq hsh =>
    refine ⟨0, fun t => (sum_reduced_of_data (by rw [hq]) t).le, ?_⟩
    simp [hq, hsh, Shared.wake, Pc.holds, Pc.inHand]
  | update again l p s s' hc hmx hd hsh =>
    obtain ⟨-, rfl⟩ := checkAddPermits_inv hc
    obtain ⟨hav, hav'⟩ := hw.availablePermits_update hm
    refine ⟨0, fun t => (sum_reduced_of_data hd t).le, ?_⟩
    have hz : (if l then .add o (.unlock false) else o.ret false : Pc W).holds w' i = 0 := by
      cases l
      · exact hret _
      · rfl
    rw [hz, hav, hav', hsh]
    simp only [Pc.holds, Pc.inHand]
    omega
  | reduce p ws x hmx hlt hd hsh =>
    have hav := hw.availablePermits_le hm rfl
    refine ⟨_, sum_reduced_of_update hd, ?_⟩
    rw [hsh]
    simp only [Pc.holds, Pc.inHand]
    omega
  | serve p ws x wk hmx hle hwk hlen hd hmx' hsh =>
    have hav := hw.availablePermits_le hm rfl
    refine ⟨_, sum_reduced_of_update hd, ?_⟩
    rw [hsh]
    simp only [Pc.holds, Pc.inHand]
    omega
  | unwrap p ws x hmx hle hwk hd hsh =>
    have hav := hw.availablePermits_le hm rfl
    refine ⟨_, sum_reduced_of_update hd, ?_⟩
    rw [hsh]
    simp only [Pc.holds, Pc.inHand]
    omega
  | remove p ws x l hq hr hr' hd hsh =>
    have hav := hw.availablePermits_remove hm
    have hp : shift p / 2 ≤ p := by rw [shift_eq]; omega
    refine ⟨0, fun t => (sum_reduced_of_data hd t).le, ?_⟩
    rw [hsh]
    simp only [Pc.holds, Pc.inHand, hr, hr']
    cases l with
    | nil =>
      rw [hq, if_pos rfl] at hav
      simp
      omega
    | cons y l =>
      rw [hq, if_neg (by simp)] at hav
      simp
      omega
  | drop b x l hq hmx hd hsh =>
    have hav := hw.availablePermits_remove hm
    refine ⟨0, fun t => (sum_reduced_of_data hd t).le, ?_⟩
    rw [hsh]
    simp only [Pc.holds, Pc.inHand]
    split at hav <;> omega

/-! ## Runs -/

/-- What holds in every state that a semaphore reaches by borrowed calls. -/
structure Sound (cfg : Config) (w : WorldOf W) (a : Abs ℕ) : Prop where
  reached : Reached cfg w a
  closing : Closing a
  given : Given w a
  settled : Settled w a
  borrowed : Borrowed w

theorem Sound.init {permits s : ℕ} (h : newState permits = some s) :
    Sound cfg (init s : WorldOf W) (.init s) where
  reached := Reached.init h
  closing := Closing.init s
  given := Given.init s
  settled := Settled.init s
  borrowed := fun _ => trivial

theorem Sound.step (h : Sound cfg w a) (hn : n.Borrowed)
    (hm : (semaphore willWake).Moves cfg a w i n w' e) : Sound cfg w' (a.apply e) where
  reached := h.reached.step hm
  closing := h.closing.step h.reached hm
  given := h.given.step h.reached hm
  settled := h.settled.step h.given h.reached h.closing hm
  borrowed := h.borrowed.step hn hm

/-- **One step.** What it gives to other waiters its task has had before. -/
theorem Sound.balance (h : Sound cfg w a) (hn : n.Borrowed)
    (hm : (semaphore willWake).Moves cfg a w i n w' e) :
    ∃ g, (∀ t, i ∉ t → ∑ j ∈ t, reduced w w' j ≤ g) ∧ Balanced w w' i g := by
  have hw := h.reached
  have hother : (∀ o, ¬ (w.pc i).Adds o) → Balanced w w' i 0 →
      ∃ g, (∀ t, i ∉ t → ∑ j ∈ t, reduced w w' j ≤ g) ∧ Balanced w w' i g := fun ha hb => by
    refine ⟨0, fun t hi => (Finset.sum_eq_zero fun j hj => ?_).le, hb⟩
    exact reduced_eq_zero hm (by rintro rfl; exact hi hj) ha
  have hbor := h.borrowed i
  cases hp : w.pc i with
  | idle r =>
    refine hother ?_ (hw.balance_idle hm hn hp)
    rintro o (⟨p, ha⟩ | ⟨again, l, m, ha⟩) <;> simp [hp] at ha
  | close p =>
    refine hother ?_ (hw.balance_close hm hp)
    rintro o (⟨p, ha⟩ | ⟨again, l, m, ha⟩) <;> simp [hp] at ha
  | add o p =>
    obtain ⟨g, hg, hb⟩ := hw.balance_add hm (.inl ⟨p, hp⟩)
    exact ⟨g, fun t _ => hg t, hb⟩
  | fetch c =>
    rw [hp] at hbor
    cases hc : c.acquires with
    | true =>
      refine hother ?_ (hw.balance_fetch hm hbor hc hp)
      rintro o (⟨p, ha⟩ | ⟨again, l, m, ha⟩) <;> rw [hp] at ha
      · cases ha
      · obtain rfl := Pc.fetch.inj ha
        cases hc
    | false =>
      cases c <;> first | cases hc; done | skip
      case forget m => exact hbor.elim
      case add o again l m =>
        obtain ⟨g, hg, hb⟩ := hw.balance_add hm (.inr ⟨again, l, m, hp⟩)
        exact ⟨g, fun t _ => hg t, hb⟩
  | fut k p =>
    rw [hp] at hbor
    refine hother ?_ ?_
    · rintro o (⟨p, ha⟩ | ⟨again, l, m, ha⟩) <;> simp [hp] at ha
    · cases hm.mover with
      | op hs hd hv hp' hg => exact hw.balance_instr hm hbor.1 hp hd hv hp' hg
      | call hr hk hrest hs hv hp' hg =>
        simp only [semaphore, next, hp] at hr
        exact hw.balance_call hm hbor.1 hbor.2 hp hr hk hrest hs hv hp' hg
      | own hr hk hrest hq hv hp' hg =>
        simp only [semaphore, next, hp] at hr
        exact hw.balance_own h.settled hbor.1 hp hr hk hrest hq hv hp' hg

/-- The permits that there are: those available, those that the tasks hold, and those handed out. -/
def issued (w : WorldOf W) (t : Finset TaskId) : ℕ :=
  availablePermits w.q + ∑ i ∈ t, held w i + w.shared.permits.sum

theorem issued_mono {t t' : Finset TaskId} (h : t ⊆ t') : issued w t ≤ issued w t' := by
  have := Finset.sum_le_sum_of_subset (f := held w) h
  unfold issued
  omega

/-- A step issues no more permits than a user adds in it. -/
theorem Sound.issued_step (h : Sound cfg w a) (hn : n.Borrowed)
    (hm : (semaphore willWake).Moves cfg a w i n w' e) {t : Finset TaskId} (hi : i ∈ t) :
    issued w' t + w.shared.added ≤ issued w t + w'.shared.added := by
  obtain ⟨g, hg, hb⟩ := h.balance hn hm
  have hrest : ∑ j ∈ t.erase i, held w' j ≤
      ∑ j ∈ t.erase i, held w j + ∑ j ∈ t.erase i, reduced w w' j := by
    rw [← Finset.sum_add_distrib]
    exact Finset.sum_le_sum fun j hj => h.reached.held_ne hm (Finset.ne_of_mem_erase hj)
  have := hg _ (Finset.notMem_erase i t)
  have h₁ := Finset.add_sum_erase t (held w) hi
  have h₂ := Finset.add_sum_erase t (held w') hi
  unfold Balanced at hb
  unfold issued
  omega

variable {ls : List (TaskId × Bool × Input W)}

/-- **The semaphore never over-issues.** In every state that is reached by borrowed calls without
`forget_permits`, for any set of tasks: the available permits, those that the tasks hold (assigned to
their waiters, or in the hands of an `add_permits` or of a cancellation), and those of the live permits
are together at most the initial permits and all the amounts that users have added. -/
theorem never_over_issues {permits s : ℕ} (hs : newState permits = some s)
    (h : (semaphore willWake).Runs cfg (init s) ls w) (hb : ∀ l ∈ ls, l.2.2.Borrowed)
    (t : Finset TaskId) :
    availablePermits w.q + ∑ i ∈ t, held w i + w.shared.permits.sum ≤ permits + w.shared.added := by
  have hinit : Sound cfg (init s : WorldOf W) (.init s) := Sound.init hs
  have hstart : ∀ t, issued (init s : WorldOf W) t ≤ permits + (init s : WorldOf W).shared.added :=
    fun t => by
      obtain ⟨-, rfl⟩ := newState_inv hs
      have hz : ∀ i, held (init (2 * permits) : WorldOf W) i = 0 := fun _ => rfl
      have hav := World.Ok.availablePermits_of_nil hinit.reached.ok rfl
      simp only [issued, hz, Finset.sum_const_zero, hav]
      simp [Abs.init, Semaphore.init]
  obtain ⟨a, -, -, key⟩ := hinit.reached.induct (Q := fun w a => Sound cfg w a ∧
      ∀ t, issued w t ≤ permits + w.shared.added) h ⟨hinit, hstart⟩ (by
    rintro l hl w a w' e - - hm ⟨hsd, hle⟩
    refine ⟨hsd.step (hb l hl) hm, fun t => ?_⟩
    have h₁ := hsd.issued_step (hb l hl) hm (Finset.mem_insert_self l.1 t)
    have h₂ := issued_mono (w := w') (Finset.subset_insert l.1 t)
    have h₃ := hle (insert l.1 t)
    omega)
  exact key t

/-- Of three permits eight are asked for, and two are added: five are assigned to the waiter. -/
theorem never_over_issues_three :
    let w := (semaphore fun _ _ => true).after ⟨.x86, 0⟩ (init 6)
      (acquireActs 0 false 8 12 ++ (1, false, .addPermits 2) :: List.replicate 10 (1, false, .none))
    held w 0 = 5 ∧ availablePermits w.q + ∑ i ∈ {0, 1}, held w i + w.shared.permits.sum ≤ 3 + 2 := by
  intro w
  have hr : ((semaphore fun _ _ => true).perform ⟨.x86, 0⟩ (init 6) (acquireActs 0 false 8 12 ++
      (1, false, .addPermits 2) :: List.replicate 10 (1, false, .none))).isSome := by decide +kernel
  have hb : ∀ l ∈ acquireActs 0 false 8 12 ++ (1, false, .addPermits 2) ::
      List.replicate 10 (1, false, Input.none), l.2.2.Borrowed := by
    simp [acquireActs, Input.Borrowed]
  have hadded : w.shared.added = 2 := by decide +kernel
  have hle := never_over_issues (by decide : newState 3 = some 6) (Client.runs_after hr) hb {0, 1}
  rw [hadded] at hle
  exact ⟨by decide +kernel, hle⟩

end Aiq.Semaphore
