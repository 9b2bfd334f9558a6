import Aiq.Semaphore.Adding

/-!
# Waiters to serve

A task that adds permits under the lock has a waiter to serve: the queue stays nonempty until it removes
the last one (`HasWaiter`). Every queued waiter has a waker, as long as the states that
`try_set_queue_state` is called with are accepted (`Wakers`). So neither the assertion of
`add_permits_locked` nor one of its `unwrap`s fails (`Serving.not_failed`).
-/

namespace Aiq.Semaphore

variable {W : Type} {willWake : W → W → Bool} {cfg : Config} {a : Abs ℕ} {w w' : WorldOf W}
  {i j x : TaskId} {e : Event ℕ} {n : Input W} {r : InstrOf W} {o : AddOwner} {k : Kind}

/-! ## Where `add_permits` is called from -/

section Next

variable {q : State ℕ (Waiter W)} {p' : AddPc W}

theorem fetch_add {c : FetchCont W} {g : Shared W} (h : (fetch i g c).pc e q = .add o p') :
    ∃ again l m, c = .add o again l m := by
  unfold fetch at h
  dsimp only at h
  split at h
  · cases c <;> simp only [FetchCont.err, reduceCtorEq] at h
    case add o' again l m =>
      cases l <;> obtain ⟨rfl, -⟩ := Pc.add.inj h <;> exact ⟨_, _, _, rfl⟩
  · simp at h

theorem ret_ne_add {o' : AddOwner} {b : Bool} (h : (o'.ret b : Pc W) = .add o p') : False := by
  cases o' <;> simp [AddOwner.ret] at h

theorem start_add (hr : start w i n = some r) (hp : r.pc e q = .add o p') : ∃ m, p' = .start false m := by
  cases n <;> simp only [start, permitNext, reduceCtorEq] at hr
  case permitSplit p m =>
    obtain ⟨m', -, rfl⟩ := Option.map_eq_some_iff.1 hr
    split at hp <;> simp at hp
  all_goals repeat' split at hr
  all_goals
    first
    | contradiction
    | obtain rfl := Option.some.inj hr
    | obtain ⟨m, -, rfl⟩ := Option.map_eq_some_iff.1 hr
  all_goals
    first
    | (obtain ⟨-, rfl⟩ := Pc.add.inj hp
       exact ⟨_, rfl⟩)
    | (obtain ⟨again, l, m, hc⟩ := fetch_add hp
       cases hc)
    | simp at hp

theorem futNext_add {p : FutPc W} (hr : futNext willWake w i k p n = some r)
    (hp : r.pc e q = .add o p') : (∃ m, p' = .start false m) ∨
      ∃ e' m, p = .removed e' m ∧ r.call = none ∧ isClosed w.q = false ∧ p' = .locked m := by
  unfold futNext at hr
  repeat' split at hr
  all_goals first | contradiction | obtain rfl := Option.some.inj hr
  all_goals
    first
    | (obtain ⟨-, rfl⟩ := Pc.add.inj hp
       first
       | exact .inl ⟨_, rfl⟩
       | exact .inr ⟨_, _, rfl, rfl, by simpa using ‹¬ isClosed w.q = true›, rfl⟩)
    | (obtain ⟨again, l, m, hc⟩ := fetch_add hp
       cases hc)
    | simp at hp

theorem addNext_add {o' : AddOwner} {p : AddPc W} (hr : addNext w i o' p = some r)
    (hp : r.pc e q = .add o p') : o' = o := by
  cases p <;> simp only [addNext, reduceCtorEq] at hr
  all_goals repeat' split at hr
  all_goals first | contradiction | obtain rfl := Option.some.inj hr
  all_goals
    first
    | exact (Pc.add.inj hp).1
    | exact (ret_ne_add hp).elim
    | (obtain ⟨again, l, m, hc⟩ := fetch_add hp
       exact (FetchCont.add.inj hc).1)

end Next

/-- A task that adds permits has done so before, or has just called `add_permits`, or
`add_permits_locked`. -/
theorem add_inv (hm : (semaphore willWake).Moves cfg a w i n w' e) {p' : AddPc W}
    (hp : w'.pc i = .add o p') :
    (w.pc i).Adds o ∨ (∃ m, p' = .start false m) ∨
      ∃ k e' m, w.pc i = .fut k (.removed e' m) ∧ e = .tau ∧ isClosed w.q = false ∧ p' = .locked m := by
  have hnext : ∀ {r : InstrOf W} {q}, next willWake w i n = some r → r.pc e q = .add o p' →
      (w.pc i).Adds o ∨ (∃ m, p' = .start false m) ∨
        ∃ k e' m, w.pc i = .fut k (.removed e' m) ∧ r.call = none ∧ isClosed w.q = false ∧
          p' = .locked m := by
    intro r q hr hrp
    unfold next at hr
    cases hi : w.pc i <;> simp only [hi, reduceCtorEq] at hr
    case idle r' => exact .inr (.inl (start_add hr hrp))
    case fut k p =>
      rcases futNext_add hr hrp with h | ⟨e', m, rfl, hk, hcl, rfl⟩
      · exact .inr (.inl h)
      · exact .inr (.inr ⟨k, e', m, rfl, hk, hcl, rfl⟩)
    case add o' p =>
      obtain rfl := addNext_add hr hrp
      exact .inl (.inl ⟨p, rfl⟩)
    case close p =>
      obtain ⟨⟨p'', h⟩ | h | h, -⟩ := closeNext_pc (e := e) hr q <;> rw [h] at hrp <;> simp at hrp
  cases hm.mover with
  | op hs hd hv hp' hg =>
    rcases observe_pc w i e w'.q with ho | ho <;>
      rw [show (observe w i e w'.q).1 = _ from hp'.symm, hp] at ho
    · exact .inl (.inl ⟨p', ho.symm⟩)
    · generalize hi : w.pc i = x at ho
      generalize hy : (Pc.add o p' : Pc W) = y at ho
      cases ho
      case ok c s hs =>
        cases c <;> simp only [FetchCont.ok, reduceCtorEq] at hy
        case add o' again l p =>
          cases l
          · exact (ret_ne_add hy.symm).elim
          · obtain ⟨rfl, -⟩ := Pc.add.inj hy
            exact .inl (.inr ⟨_, _, _, rfl⟩)
      case err c st hs =>
        cases c <;> simp only [FetchCont.err, reduceCtorEq] at hy
        case add o' again l p =>
          cases st <;> cases l <;>
            first
            | exact (ret_ne_add hy.symm).elim
            | (obtain ⟨rfl, -⟩ := Pc.add.inj hy
               exact .inl (.inr ⟨_, _, _, rfl⟩))
      case set o' p ws x b =>
        obtain ⟨rfl, -⟩ := Pc.add.inj hy
        exact .inl (.inl ⟨_, rfl⟩)
      all_goals cases hy
  | call hr hk hrest hs hv hp' hg =>
    rcases hnext hr (hp' ▸ hp) with h | h | ⟨-, -, -, -, hk', -⟩
    · exact .inl h
    · exact .inr (.inl h)
    · simp [hk] at hk'
  | own hr hk hrest hq hv hp' hg =>
    rcases hnext hr (hp' ▸ hp) with h | h | ⟨k, e', m, hi, -, hcl, hp'⟩
    · exact .inl h
    · exact .inr (.inl h)
    · exact .inr (.inr ⟨k, e', m, hi, rfl, hcl, hp'⟩)

/-! ## Waiters -/

/-- At the control state there is a waiter to serve. -/
def Pc.HasWaiter (q : State ℕ (Waiter W)) (a : Abs ℕ) : Pc W → Prop
  | .add _ (.locked _) | .add _ (.take _ _) | .add _ (.requeue _) | .add _ (.served _ _)
  | .add _ (.full _ _) => a.queue ≠ []
  | .add _ (.dequeued _ _) => a.queue ≠ [] ∧ q.mutex ≠ some .guard
  | .add _ (.set _ _) => q.result = some false → a.queue ≠ []
  | .add _ (.failed .assertion) | .add _ (.failed .dequeue) => False
  | .fut _ (.removing _ _) => q.result = some false → a.queue ≠ [] ∨ Shut a
  | .fut _ (.removed _ _) => a.queue ≠ [] ∨ Shut a
  | _ => True

/-- See `Pc.HasWaiter`. -/
def HasWaiter (w : WorldOf W) (a : Abs ℕ) : Prop := ∀ i, (w.pc i).HasWaiter w.q a

theorem HasWaiter.init (s : ℕ) : HasWaiter (init s : WorldOf W) (.init s) := fun _ => trivial

theorem AddStep.hasWaiter {p p' : Pc W} (h : AddStep w w' a i o p e p') (hw : Reached cfg w a)
    (hi : p.HasWaiter w.q a) : p'.HasWaiter w'.q (a.apply e) := by
  have hret : ∀ b c, (o.ret b : Pc W).HasWaiter w'.q c := fun b c => by cases o <;> trivial
  cases h with
  | goes h he hd hg =>
    rw [he]
    cases h with
    | nothing => exact hret _ _
    | final => exact hret _ _
    | unlock b => exact hret _ _
    | overflow again l p s hs hc =>
      cases l
      · exact hret _ _
      · trivial
    | queued again p hq => cases again <;> exact hq
    | queuedAtOnce again p hq => cases again <;> exact hq
    | locked p hc => exact hi
    | assertion p hc =>
      rw [World.Ok.isClosed_of_ne_nil hw.ok hi] at hc
      cases hc
    | take p ws hm => exact ⟨hi, hm hi⟩
    | dequeue p ws hm => exact ⟨hi.1, hm⟩
    | empty p ws hm => exact absurd hm hi.2
    | served p ws hs hr => exact fun hf => by simp [hr] at hf
    | set p ws hr => exact fun hf => hi (hr ▸ hf)
    | removed p ws b hr =>
      split
      · trivial
      · rename_i hb
        have hne : a.queue ≠ [] := hi (by simpa [hr] using fun h => hb (.inl h))
        split <;> exact hne
    | _ => trivial
  | reduce p ws x hm hlt hd hg => exact hi.1
  | serve p ws x wk hm hle hwk hlen hd hm' hg => exact hi.1
  | update again l p s s' hs hd hg =>
    cases l
    · exact hret _ _
    · trivial
  | remove p ws x l hq hr hr' hd hg =>
    intro hf
    rw [hr'] at hf
    simp only [Abs.apply, hq, List.erase_cons_head]
    rintro rfl
    simp at hf
  | _ => trivial

/-- The queue is not empty when a node leaves it that is not the last. -/
theorem Reached.removed_last {s : ℕ} (h : Reached cfg w a) (hcl : Closing a)
    (hm : (semaphore willWake).Moves cfg a w i n w' (.remove x s))
    (hx : a.queue.getLast? ≠ some x) :
    (a.apply (.remove x s)).queue ≠ [] ∨ Shut (a.apply (.remove x s)) := by
  by_cases hmem : x ∈ a.queue
  · left
    intro hnil
    obtain ⟨l, m, hq⟩ := List.append_of_mem hmem
    have hn := h.ok.inv.queue_nodup
    simp only [Abs.apply, hq] at hnil hn hx
    rw [List.erase_append_right _ (by grind)] at hnil
    obtain ⟨rfl, hm⟩ := List.append_eq_nil_iff.1 hnil
    obtain rfl : m = [] := by simpa using hm
    simp at hx
  · right
    obtain ⟨d, hd⟩ : ∃ d, x ∈ (a.drained d).rest := Or.resolve_left hm.allows hmem
    rcases hcl with hcl | hcl
    · simp [hcl d] at hd
    · exact hcl.step h hm

/-- The removal of a node by its future. -/
theorem HasWaiter.fut_step (h : HasWaiter w a) (hw : Reached cfg w a) (hcl : Closing a)
    (hm : (semaphore willWake).Moves cfg a w i n w' e) {p' : FutPc W} (hp : w'.pc i = .fut k p') :
    (Pc.fut k p').HasWaiter w'.q (a.apply e) := by
  have hi := h i
  have hf := hw.control i
  have hnext : ∀ {r : InstrOf W} {q}, next willWake w i n = some r → r.pc e q = .fut k p' →
      (∀ e' m, p' = .removing e' m →
        r.call = some (.holder (.dequeueTrySetQueueState m))) ∧ ∀ e' m, p' ≠ .removed e' m := by
    intro r q hr hrp
    by_cases hex : p' = .created ∨ ∃ e', p' = .canceled e'
    · rcases hex with rfl | ⟨e', rfl⟩ <;> simp
    obtain ⟨p, hpc, hr⟩ := next_fut hr hrp (fun h => hex (.inl h)) fun e' h => hex (.inr ⟨e', h⟩)
    unfold futNext at hr
    repeat' split at hr
    all_goals first | contradiction | obtain rfl := Option.some.inj hr
    all_goals
      first
      | (have hf := fetch_fut hrp
         simp only [FetchCont.err, Pc.fut.injEq, true_and] at hf
         subst hf
         simp)
      | (obtain rfl := (Pc.fut.inj hrp).2
         simp)
      | simp at hrp
  cases p' <;> try exact trivial
  case removing e' m =>
    intro hres
    cases hm.mover with
    | op hs hd hv hp' hg =>
      have hpc : w.pc i = .fut k (.removing e' m) := by
        rcases observe_pc w i e w'.q with ho | ho <;>
          rw [show (observe w i e w'.q).1 = _ from hp'.symm, hp] at ho
        · exact ho.symm
        · simpa using ho.fut_inv
      rw [hpc] at hi hf
      have hview : w.view i = ⟨.locked, .idle, some (.removing i m .queued)⟩ := hf
      obtain ⟨hremove, htau, -⟩ := hm.removing_result (congrArg View.op hview)
      rw [hview] at hv
      obtain ⟨o₁, o₂, h₁, hos, -⟩ := hv.holder_inv rfl rfl
      obtain rfl := Option.some.inj h₁
      cases hos with
      | more => exact hi ((htau rfl).symm.trans hres)
      | remove =>
        have := (hremove _ _ rfl).2.symm.trans hres
        exact hw.removed_last hcl hm (by simpa using this)
      | removed _ _ _ b =>
        have hstay : w'.pc i = .fut k (if b then .unlock e' 0 else .removed e' m) := by
          rw [hp']
          simp only [semaphore, observe, hpc]
          cases b <;> rfl
        rw [hstay] at hp
        cases b <;> simp at hp
    | call hr hk hrest hs hv hp' hg =>
      have := (hnext hr (hp' ▸ hp)).1 e' m rfl
      obtain rfl := Option.some.inj (hk.symm.trans this)
      have hnone : w'.q.result = none := TaskStep.result_of_call hs
      simp [hnone] at hres
    | own hr hk hrest hq hv hp' hg => simpa [hk] using (hnext hr (hp' ▸ hp)).1 e' m rfl
  case removed e' m =>
    cases hm.mover with
    | op hs hd hv hp' hg =>
      rcases observe_pc w i e w'.q with ho | ho <;>
        rw [show (observe w i e w'.q).1 = _ from hp'.symm, hp] at ho
      · rw [← ho] at hf
        rw [show w.view i = ⟨.idle, .idle, some .guard⟩ from hf] at hv
        obtain ⟨o₁, o₂, h₁, hos, -⟩ := hv.holder_inv rfl rfl
        obtain rfl := Option.some.inj h₁
        cases hos
        simp [HolderOp.long] at *
      · obtain ⟨e'', m', y, -, hpc, rfl⟩ : ∃ e'' m' y, (FutPc.removed e' m : FutPc W) = .removed e'' m' ∧
            w.pc i = .fut k (.removing e'' m') ∧ e = .removed y false := by
          simpa using ho.fut_inv
        rw [hpc] at hi hf
        have hview : w.view i = ⟨.locked, .idle, some (.removing i m' .queued)⟩ := hf
        exact hi ((hm.removing_result (congrArg View.op hview)).2.2 y false rfl)
    | call hr hk hrest hs hv hp' hg => exact absurd rfl ((hnext hr (hp' ▸ hp)).2 e' m)
    | own hr hk hrest hq hv hp' hg => exact absurd rfl ((hnext hr (hp' ▸ hp)).2 e' m)

/-- A waiter is there as long as a task has the lock. -/
theorem Pc.HasWaiter.frame (h : (w.pc j).HasWaiter w.q a) (hw : Reached cfg w a)
    (hm : (semaphore willWake).Moves cfg a w i n w' e) (hj : j ≠ i) :
    (w.pc j).HasWaiter w'.q (a.apply e) := by
  have hf := hw.control j
  have hlock : ∀ {o}, (w.view j).op = some o → w.lockedBy = some j := fun ho => (World.op_of_view ho).1
  have hne : ∀ {o}, (w.view j).op = some o → a.queue ≠ [] → (a.apply e).queue ≠ [] := fun ho =>
    hm.queue_ne_nil (hlock ho) hj
  have hres : ∀ {o}, (w.view j).op = some o → w'.q.result = w.q.result := fun ho => by
    rw [State.result, State.result, hm.mutex_ne (hlock ho) hj]
  cases hp : w.pc j with
  | fut k p =>
    rw [hp] at h hf
    cases p <;> try exact trivial
    case removing e' m =>
      have ho := congrArg View.op (show w.view j = ⟨.locked, .idle, some (.removing j m .queued)⟩ from hf)
      exact fun hr => (h (hres ho ▸ hr)).imp (hne ho) fun hs => hs.step hw hm
    case removed e' m =>
      have ho := congrArg View.op (show w.view j = ⟨.idle, .idle, some .guard⟩ from hf)
      exact Or.imp (hne ho) (fun hs => hs.step hw hm) h
  | add o p =>
    rw [hp] at h hf
    obtain ⟨-, -, hf⟩ := hf
    cases p <;> try exact trivial
    case locked p => exact hne hf h
    case take p ws => exact hne hf h
    case full p ws => exact hne hf h
    case requeue ws =>
      obtain ⟨x, hx⟩ := hf
      exact hne hx h
    case served p ws =>
      obtain ⟨x, hx⟩ := hf
      exact hne hx h
    case set p ws =>
      obtain ⟨x, hx⟩ := hf
      exact fun hr => hne hx (h (hres hx ▸ hr))
    case dequeued p ws =>
      have ho : ∃ o, (w.view j).op = some o := by
        rcases hf with ho | ho | ⟨x, ho⟩ <;> exact ⟨_, ho⟩
      obtain ⟨o, ho⟩ := ho
      exact ⟨hne ho h.1, hm.mutex_ne (hlock ho) hj ▸ h.2⟩
    case failed f => cases f <;> exact h
  | _ => trivial

theorem HasWaiter.step (h : HasWaiter w a) (hw : Reached cfg w a) (hcl : Closing a)
    (hm : (semaphore willWake).Moves cfg a w i n w' e) : HasWaiter w' (a.apply e) := by
  intro j
  by_cases hj : j = i
  · subst hj
    cases hp : w'.pc j with
    | fut k p => exact h.fut_step hw hcl hm hp
    | add o p =>
      rcases add_inv hm hp with ha | ⟨m, rfl⟩ | ⟨k, e', m, hi, rfl, hopen, rfl⟩
      · exact hp ▸ (hw.addStep hm ha).hasWaiter hw (h j)
      · trivial
      · have hi' := h j
        have hf := hw.control j
        rw [hi] at hi' hf
        have hsh : ¬ Shut a := fun hs => by
          rw [World.Ok.isClosed_of_nil hw.ok hs.1, hs.2] at hopen
          cases hopen
        exact hi'.resolve_right hsh
    | _ => trivial
  · rw [hm.pc_ne hj]
    exact (h j).frame hw hm hj

/-! ## Wakers -/

/-- The task has taken the waker of the node, which it is going to remove. -/
def Satisfied (w : WorldOf W) (i x : TaskId) : Prop :=
  ∃ o p ws, w.pc i = .add o (.served p ws) ∧ (w.view i).op = some (.handle x) ∨
    w.pc i = .add o (.set p ws) ∧ (w.view i).op = some (.removing x (shift p) .handle)

/-- A state that the task calls `try_set_queue_state` with is accepted. -/
def Accepted (w : WorldOf W) (i : TaskId) : Prop :=
  ∀ o p ws, w.pc i = .add o (.served p ws) → shift p ≤ maxState

/-- Nothing has failed in `add_permits_locked`. -/
structure Serving (w : WorldOf W) (a : Abs ℕ) : Prop where
  closing : Closing a
  waiter : HasWaiter w a
  waker : ∀ {x}, x ∈ a.queue → (w.q.mem.data x).waker ≠ none ∨ ∃ i, Satisfied w i x
  failed : ∀ i o f, w.pc i ≠ .add o (.failed f)
  unlock : ∀ {i o b}, w.pc i = .add o (.unlock b) → w.q.mutex = some .guard

theorem Serving.init (s : ℕ) : Serving (init s : WorldOf W) (.init s) where
  closing := Closing.init s
  waiter := HasWaiter.init s
  waker := fun hx => by simp [Abs.init] at hx
  failed := fun i o f h => by simp [Semaphore.init] at h
  unlock := fun h => by simp [Semaphore.init] at h

/-- A task that has satisfied a waiter has the lock. -/
theorem Satisfied.lockedBy (h : Satisfied w i x) : w.lockedBy = some i := by
  obtain ⟨o, p, ws, ⟨-, h⟩ | ⟨-, h⟩⟩ := h <;> exact (World.op_of_view h).1

/-- A waiter that has been dequeued has a waker. -/
theorem Serving.waker_of_dequeued (h : Serving w a) (hw : Reached cfg w a) {p : ℕ} {ws : List W}
    (hi : w.pc i = .add o (.dequeued p ws)) (hx : w.q.mutex = some (.dequeue x)) :
    (w.q.mem.data x).waker ≠ none := by
  have hf := hw.control i
  rw [hi] at hf
  have hl : w.lockedBy = some i := by
    obtain ⟨-, -, ho | ho | ⟨y, ho⟩⟩ := hf <;> exact (World.op_of_view ho).1
  refine (h.waker (List.mem_of_mem_head? (hw.ok.inv.holder hx).1)).resolve_right ?_
  rintro ⟨j, hj⟩
  obtain rfl := Option.some.inj (hl.symm.trans hj.lockedBy)
  obtain ⟨o', p', ws', ⟨hj, -⟩ | ⟨hj, -⟩⟩ := hj <;> simp [hi] at hj

theorem Serving.failed_step (h : Serving w a) (hw : Reached cfg w a) (hacc : Accepted w i)
    (hm : (semaphore willWake).Moves cfg a w i n w' e) (j : TaskId) (f : Failure) :
    w'.pc j ≠ .add o (.failed f) := by
  intro hp
  by_cases hj : j = i
  · subst hj
    have hok := (hw.step hm).ranges.pc j
    have hwait := h.waiter.step hw h.closing hm j
    rcases add_inv hm hp with ha | ⟨m, hp'⟩ | ⟨k, e', m, -, -, -, hp'⟩
    · have hadd := hw.addStep hm ha
      rw [hp] at hadd hok hwait
      generalize hi : w.pc j = p at hadd
      generalize hy : (Pc.add o (.failed f) : Pc W) = y at hadd
      cases hadd with
      | goes hg =>
        have hret : ∀ b, (.add o (.failed f) : Pc W) ≠ o.ret b := fun b hb => ret_ne_add hb.symm
        cases hg <;> try first | exact hret _ hy | (simp at hy; done)
        case overflow again l p s hs hc hm =>
          cases l
          · exact hret _ hy
          · simp at hy
        case queued again p hq => cases again <;> simp [AddPc.atQueue] at hy
        case queuedAtOnce again p hq => cases again <;> simp [AddPc.atQueue] at hy
        case assertion p hc =>
          obtain ⟨-, rfl⟩ := AddPc.failed.inj (Pc.add.inj hy).2
          exact hwait
        case empty p ws hm =>
          obtain rfl := AddPc.failed.inj (Pc.add.inj hy).2
          exact hwait
        case exceeded p ws hs => exact absurd (hacc _ _ _ hi) (by omega)
        case removed p ws b hr =>
          split at hy
          · simp at hy
          · split at hy <;> simp at hy
      | update again l p s s' => cases l <;> first | exact ret_ne_add hy.symm | simp at hy
      | unwrap p ws x hx hle hwk hd hg => exact h.waker_of_dequeued hw hi hx hwk
      | _ => simp at hy
    · simp at hp'
    · simp at hp'
  · exact h.failed j o f (hm.pc_ne hj ▸ hp)

theorem Serving.unlock_step (h : Serving w a) (hw : Reached cfg w a)
    (hm : (semaphore willWake).Moves cfg a w i n w' e) {b : Bool} (hp : w'.pc j = .add o (.unlock b)) :
    w'.q.mutex = some .guard := by
  by_cases hj : j = i
  · subst hj
    rcases add_inv hm hp with ha | ⟨m, hp'⟩ | ⟨k, e', m, -, -, -, hp'⟩
    · have hadd := hw.addStep hm ha
      rw [hp] at hadd
      generalize hi : w.pc j = p at hadd
      generalize hy : (Pc.add o (.unlock b) : Pc W) = y at hadd
      cases hadd with
      | goes hg =>
        have hret : ∀ b', (.add o (.unlock b) : Pc W) ≠ o.ret b' := fun b' hb => ret_ne_add hb.symm
        cases hg <;> try first | exact absurd hy (hret _) | (simp at hy; done)
        case overflow again l p s hs hc hm =>
          cases l
          · exact absurd hy (hret _)
          · exact hm rfl
        case queued again p hq => cases again <;> simp [AddPc.atQueue] at hy
        case queuedAtOnce again p hq => cases again <;> simp [AddPc.atQueue] at hy
        case removed p ws b hr =>
          split at hy
          · simp at hy
          · split at hy <;> simp at hy
        case unwind b hb => exact absurd (h.unlock hi) hb
        case failed f => exact absurd hi (h.failed j o f)
      | update again l p s s' hs hm =>
        cases l
        · exact (ret_ne_add hy.symm).elim
        · exact hm rfl
      | drop b x l hq hmx => exact absurd (h.unlock hi) hmx
      | _ => simp at hy
    · simp at hp'
    · simp at hp'
  · have hp' := (hm.pc_ne hj).symm.trans hp
    have hmx := h.unlock hp'
    have hf := hw.control j
    rw [hp'] at hf
    have hl : w.lockedBy = some j := by
      obtain ⟨-, -, ho | ⟨y, ho⟩⟩ := hf <;> exact (World.op_of_view ho).1
    rw [hm.mutex_ne hl hj, hmx]

/-- Who writes to the data of the node that it has in hand. -/
theorem next_withDataMut {g : Waiter W → Waiter W} (hr : next willWake w i n = some r)
    (hk : r.call = some (.holder (.withDataMut g))) :
    (∃ o, (w.pc i).Adds o) ∨
      (∃ k wk b, w.pc i = .fut k (.queued wk b) ∧ g = Waiter.refresh willWake wk) ∨
      (∃ d ws, w.pc i = .close (.forEach (.node d ws))) ∧ g = takeWaker.data := by
  unfold next at hr
  cases hi : w.pc i <;> simp only [hi, reduceCtorEq] at hr
  case idle r' =>
    cases n <;> simp only [start, permitNext, reduceCtorEq] at hr
    case permitSplit p m =>
      obtain ⟨m', -, rfl⟩ := Option.map_eq_some_iff.1 hr
      split at hk <;> simp at hk
    all_goals repeat' split at hr
    all_goals
      first
      | contradiction
      | obtain rfl := Option.some.inj hr
      | obtain ⟨m, -, rfl⟩ := Option.map_eq_some_iff.1 hr
    all_goals simp [fetch] at hk
  case fut k p =>
    unfold futNext at hr
    repeat' split at hr
    all_goals first | contradiction | obtain rfl := Option.some.inj hr
    all_goals
      first
      | exact .inr (.inl ⟨_, _, _, rfl, by simpa using hk.symm⟩)
      | simp [fetch] at hk
  case add o p => exact .inl ⟨o, .inl ⟨p, rfl⟩⟩
  case close p =>
    cases p <;> simp only [closeNext] at hr
    case forEach p =>
      obtain ⟨d, ws, x, rfl, -, rfl, -⟩ := ForEachPc.next_withDataMut hr hk
      exact .inr (.inr ⟨⟨d, ws, rfl⟩, rfl⟩)
    all_goals repeat' split at hr
    all_goals first | contradiction | obtain rfl := Option.some.inj hr
    all_goals simp at hk

theorem Waiter.waker_refresh {wk : W} {v : Waiter W} (h : v.waker ≠ none) :
    (v.refresh willWake wk).waker ≠ none := by
  unfold Waiter.refresh
  split
  · simp
  · exact h

/-- A waker that is stored in a queued node stays there until its waiter is satisfied. -/
theorem waker_stays (hw : Reached cfg w a) (hm : (semaphore willWake).Moves cfg a w i n w' e)
    (hx : x ∈ a.queue) (hwk : (w.q.mem.data x).waker ≠ none) :
    (w'.q.mem.data x).waker ≠ none ∨ Satisfied w' i x := by
  by_cases ha : ∃ o, (w.pc i).Adds o
  · obtain ⟨o, ha⟩ := ha
    have hadd := hw.addStep hm ha
    have hf := (hw.step hm).control i
    generalize hi : w.pc i = p at hadd
    generalize hi' : w'.pc i = p' at hadd hf
    cases hadd with
    | goes hg he hd => exact .inl (by rwa [hd])
    | wake p wk ws hq => exact .inl (by rwa [hq])
    | wakeLast wk ws hq => exact .inl (by rwa [hq])
    | update again l p s s' hs hmx hd => exact .inl (by rwa [hd])
    | remove p ws y l hq hr hr' hd => exact .inl (by rwa [hd])
    | drop b y l hq hmx hd => exact .inl (by rwa [hd])
    | reduce p ws y hmx hlt hd =>
      left
      rw [hd, Function.update_apply]
      split
      · rename_i hxy
        exact hxy ▸ hwk
      · exact hwk
    | unwrap p ws y hmx hle hnone hd =>
      left
      rw [hd, Function.update_of_ne]
      · exact hwk
      · rintro rfl
        exact hwk hnone
    | serve p ws y wk hmx hle hwk' hlen hd hm' =>
      by_cases hxy : x = y
      · subst hxy
        obtain ⟨-, -, z, hz⟩ := hf
        have : w'.q.op = some (.handle x) := by rw [State.op, hm', hmx]; rfl
        exact .inr ⟨o, _, _, .inl ⟨hi', hz.trans ((World.op_of_view hz).2.symm.trans this)⟩⟩
      · rw [hd, Function.update_of_ne hxy]
        exact .inl hwk
  cases hm.mover with
  | op hs hd hv hp hg => exact .inl (by rwa [hd])
  | own hr hk hrest hq hv hp hg => exact .inl (by rwa [hq])
  | call hr hk hrest hs hv hp hg =>
    left
    rcases hs.data_call x with hd | hd
    · rwa [hd]
    obtain ⟨g, o, rfl, ho, hn, hd⟩ := hd.member hw.ok (.inl hx)
    rw [hd]
    rcases next_withDataMut hr hk with hadd | ⟨k, wk, b, -, rfl⟩ | ⟨⟨d, ws, hp⟩, -⟩
    · exact absurd hadd ha
    · exact Waiter.waker_refresh hwk
    · have hf := hw.control i
      rw [hp] at hf
      obtain ⟨b, hb⟩ := hf.2.2
      obtain rfl := Option.some.inj (ho.symm.trans hb)
      cases b <;> simp only [HolderOp.node, reduceCtorEq, Option.some.injEq] at hn
      have hhead := hw.ok.inv.head_of_drained (World.op_of_view ho).2
      rw [hn] at hhead
      have hq : Addr.node x ∈ w.q.ch a .queue := List.mem_map_of_mem hx
      cases hw.ok.inv.shape.disj hq (List.mem_of_mem_head? hhead)

/-- A task that has satisfied a waiter removes it. -/
theorem Satisfied.step (h : Satisfied w i x) (hw : Reached cfg w a) (hacc : Accepted w i)
    (hm : (semaphore willWake).Moves cfg a w i n w' e) (hx : x ∈ (a.apply e).queue) :
    Satisfied w' i x := by
  obtain ⟨o, p, ws, ⟨hp, ho⟩ | ⟨hp, ho⟩⟩ := h
  · have hf := hw.control i
    rw [hp] at hf
    cases hm.mover with
    | op hs hd hv hp' hg =>
      obtain ⟨o₁, o₂, h₁, hos, -⟩ := hv.holder_inv (by rw [hf.1]; exact o.own_runs) (by rw [hf.2.1]; rfl)
      obtain rfl := Option.some.inj (ho.symm.trans h₁)
      cases hos
      simp [HolderOp.long] at *
    | call hr hk hrest hs hv hp' hg =>
      simp only [semaphore, next, hp, addNext] at hr
      split at hr <;> obtain rfl := Option.some.inj hr
      · obtain rfl := Option.some.inj hk
        obtain ⟨y, u, o₁, o₂, hv₁, hcs, hv₂⟩ := hv.holder_inv
        obtain rfl := Option.some.inj (ho.symm.trans (congrArg View.op hv₁))
        cases hcs
        exact ⟨o, p, ws, .inr ⟨hp', by rw [hv₂]⟩⟩
      · simp at hk
    | own hr hk hrest hq hv hp' hg =>
      simp only [semaphore, next, hp, addNext] at hr
      rw [if_pos (hacc o p ws hp)] at hr
      obtain rfl := Option.some.inj hr
      simp at hk
  · have hf := hw.control i
    rw [hp] at hf
    cases hm.mover with
    | op hs hd hv hp' hg =>
      obtain ⟨o₁, o₂, h₁, hos, hv'⟩ := hv.holder_inv (by rw [hf.1]; exact o.own_runs) (by rw [hf.2.1]; rfl)
      obtain rfl := Option.some.inj (ho.symm.trans h₁)
      simp only [semaphore, observe, hp] at hp'
      cases hos with
      | more => exact ⟨o, p, ws, .inr ⟨hp', by rw [hv']⟩⟩
      | remove => exact absurd hx (by simpa [Abs.apply] using hw.ok.inv.queue_nodup.not_mem_erase)
      | removed _ _ _ b =>
        have hres := (hm.removing_result ho).2.2 x b rfl
        exact absurd hx (hw.ok.inv.not_mem_of_result (World.op_of_view ho).2 (by simp [hres]))
    | call hr hk hrest hs hv hp' hg => simp [semaphore, next, hp, addNext] at hr
    | own hr hk hrest hq hv hp' hg => simp [semaphore, next, hp, addNext] at hr

theorem Serving.waker_step (h : Serving w a) (hw : Reached cfg w a) (hacc : Accepted w i)
    (hm : (semaphore willWake).Moves cfg a w i n w' e) (hx : x ∈ (a.apply e).queue) :
    (w'.q.mem.data x).waker ≠ none ∨ ∃ j, Satisfied w' j x := by
  rcases Abs.mem_queue_apply hx with hx' | rfl
  · rcases h.waker hx' with hwk | ⟨j, hj⟩
    · exact (waker_stays hw hm hx' hwk).imp_right fun h => ⟨i, h⟩
    · by_cases hji : j = i
      · subst hji
        exact .inr ⟨j, hj.step hw hacc hm hx⟩
      · obtain ⟨o, p, ws, hj⟩ := hj
        exact .inr ⟨j, o, p, ws, by rwa [hm.pc_ne hji, hm.view_ne hji]⟩
  · left
    obtain ⟨rfl, f, u, o, hv⟩ := hm.enqueue_inv
    obtain ⟨k, wk, st, hp, -⟩ := hw.enqueue hm
    obtain ⟨wk', hd⟩ := hw.filled _ k wk st (.inr hp) (by rw [hv]; rfl)
    cases hm.mover with
    | op hs hd' hv' hp' hg => simp [hd', hd]
    | call hr hk hrest hs hv' hp' hg => exact absurd rfl hv'.ne_enqueue

theorem Serving.step (h : Serving w a) (hw : Reached cfg w a) (hacc : Accepted w i)
    (hm : (semaphore willWake).Moves cfg a w i n w' e) : Serving w' (a.apply e) where
  closing := h.closing.step hw hm
  waiter := h.waiter.step hw h.closing hm
  waker := h.waker_step hw hacc hm
  failed := fun j _ f => h.failed_step hw hacc hm j f
  unlock := h.unlock_step hw hm

end Aiq.Semaphore
