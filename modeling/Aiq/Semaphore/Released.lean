import Aiq.Semaphore.Taken

/-!
# Waiters that have been released

`close` drains the queue with one `for_each` (`DrainsOk`), and it drops the `Drain` when no node is left. So a
node of a pending future leaves the queue only when its waker has been taken: by then it has no waker
(`Emptied`).
-/

namespace Aiq.Semaphore

variable {W : Type} {willWake : W → W → Bool} {cfg : Config} {a : Abs ℕ} {w w' : WorldOf W}
  {i j x : TaskId} {e : Event ℕ} {n : Input W} {r : InstrOf W} {o : AddOwner} {k : Kind}
  {q : State ℕ (Waiter W)}

/-! ## The `for_each` of `close` -/

/-- The `for_each` that a task is in. -/
def Pc.forEach? : Pc W → Option (ForEachPc W)
  | .close (.forEach p) => some p
  | _ => none

theorem forEach?_eq_some {p : Pc W} {f : ForEachPc W} (h : p.forEach? = some f) :
    p = .close (.forEach f) := by
  unfold Pc.forEach? at h
  split at h
  · rw [Option.some.inj h]
  · cases h

@[simp] theorem AddOwner.ret_forEach? (o : AddOwner) (b : Bool) : (o.ret b : Pc W).forEach? = none := by
  cases o <;> rfl

@[simp] theorem FetchCont.err_forEach? (c : FetchCont W) (st : Option ℕ) : (c.err st).forEach? = none := by
  cases c with
  | forget m => cases st <;> rfl
  | add o again l p =>
    cases st <;> cases l
    · rfl
    · rfl
    · exact o.ret_forEach? true
    · rfl
  | _ => rfl

@[simp] theorem fetch_forEach? (c : FetchCont W) (g : Shared W) : ((fetch j g c).pc e q).forEach? = none := by
  unfold fetch
  dsimp only
  split
  · exact c.err_forEach? none
  · rfl

/-- A call of `close` starts its `for_each` at the head. -/
theorem next_forEach {f : ForEachPc W} (hp : (w.pc i).forEach? = none) (hr : next willWake w i n = some r)
    (h : (r.pc e q).forEach? = some f) : ∃ d ws, f = .head d ws := by
  have hpc := forEach?_eq_some h
  rcases next_close hr hpc with ⟨p, hi⟩ | ⟨h, -⟩
  · simp only [next, hi] at hr
    cases p with
    | drain =>
      cases n <;> simp only [closeNext, reduceCtorEq] at hr
      obtain rfl := Option.some.inj hr
      exact ⟨_, _, (Option.some.inj h).symm⟩
    | forEach p => simp [hi, Pc.forEach?] at hp
    | ask => simp [closeNext] at hr
    | final ws =>
      cases ws <;> obtain rfl := Option.some.inj hr <;> cases h
    | _ =>
      obtain rfl := Option.some.inj hr
      cases h
  · cases h

theorem observe_forEach? : (observe w i e q).1.forEach? = (w.pc i).forEach? := by
  rcases observe_pc w i e q with h | h
  · rw [h]
  · generalize w.pc i = p at h
    generalize (observe w i e q).1 = p' at h
    cases h with
    | @ok c e s hs =>
      cases c with
      | add o again l m => cases l <;> first | exact o.ret_forEach? false | rfl
      | _ => rfl
    | @err c e st hs => exact c.err_forEach? st
    | _ => rfl

theorem hasForEach :
    (semaphore willWake).HasForEach (Pc.forEach? : Pc W → Option (ForEachPc W)) (.close .failed) where
  observe := fun _ _ _ _ => observe_forEach?
  next := fun {w i n r p} hp hr => by
    simp only [semaphore, next, forEach?_eq_some hp, closeNext] at hr
    exact ⟨_, _, _, _, hr, fun _ => rfl, fun _ => rfl⟩
  start := fun hp hr h => by
    obtain ⟨d, ws, rfl⟩ := next_forEach hp hr h
    rfl

/-- A `Drain` belongs to a `for_each`, as long as no `close` has failed. -/
theorem Pc.Fits.drainId {p : Pc W} {v : View ℕ} {b : HolderOp ℕ} {d : DrainId} (h : p.Fits i v)
    (hf : ∀ p', p = .close p' → p'.unwinds = false) (ho : v.op = some b) (hd : b.drainId = some d) :
    ∃ f, p.forEach? = some f ∧ f.id = d := by
  cases p with
  | idle r =>
    rw [show v = _ from h] at ho
    cases ho
  | fetch c =>
    obtain ⟨m, s, rfl⟩ := h
    cases c <;> try cases ho
    case add o again l p =>
      cases l <;> cases ho
      cases hd
  | fut k p => cases p <;> simp only [Fits, FutPc.Fits, Asked] at h <;> grind [HolderOp.drainId]
  | add o p =>
    have h := h.2.2
    rw [ho] at h
    cases p <;> simp only [AddPc.Fits] at h <;> grind [HolderOp.drainId]
  | close p =>
    have hf := hf p rfl
    cases p with
    | forEach p =>
      refine ⟨p, rfl, ?_⟩
      have hp := h.2.2
      rw [ho] at hp
      cases p <;> simp only [ForEachPc.Fits] at hp <;> grind [HolderOp.drainId, ForEachPc.id]
    | ask => simp only [Fits, ClosePc.Fits] at h; grind [HolderOp.drainId]
    | drain => simp only [Fits, ClosePc.Fits] at h; grind [HolderOp.drainId]
    | final ws => simp only [Fits, ClosePc.Fits] at h; grind [HolderOp.drainId]
    | _ => cases hf

theorem Armed.forEachFits (h : Armed w a) (hw : Reached cfg w a) :
    ForEachFits (Pc.forEach? : Pc W → Option (ForEachPc W)) w where
  fits := fun {i p} hp => by
    have hi := hw.control i
    rw [forEach?_eq_some hp] at hi
    exact ⟨_, hi.2.2⟩
  holds := fun {i o d} ho hd => (hw.control i).drainId (fun _ hp => h.close hp) ho hd

theorem drainsOk_init (s : ℕ) :
    DrainsOk (Pc.forEach? : Pc W → Option (ForEachPc W)) (init s) (.init s) where
  live := fun h => absurd rfl h
  gone := fun h => by cases h
  done := fun h => by cases h

theorem Armed.drains_step (h : Armed w a) (hd : DrainsOk (Pc.forEach? : Pc W → Option (ForEachPc W)) w a)
    (hw : Reached cfg w a) (hacc : Accepted w i) (hm : (semaphore willWake).Moves cfg a w i n w' e) :
    DrainsOk (Pc.forEach? : Pc W → Option (ForEachPc W)) w' (a.apply e) := by
  have h' := h.step hw hacc hm
  exact hd.step hasForEach (h.forEachFits hw) (h'.forEachFits (hw.step hm)) hw.ok hm (h'.not_failed i)

/-! ## Nodes that are released -/

@[simp] theorem AddOwner.ret_takes (o : AddOwner) (b : Bool) : (o.ret b : Pc W).takes = false := by
  cases o <;> rfl

@[simp] theorem FetchCont.ok_takes (c : FetchCont W) (s : ℕ) : (c.ok s).takes = false := by
  cases c with
  | add o again l p =>
    cases l
    · exact o.ret_takes false
    · rfl
  | _ => rfl

@[simp] theorem FetchCont.err_takes (c : FetchCont W) (st : Option ℕ) : (c.err st).takes = false := by
  cases c with
  | add o again l p =>
    cases st <;> cases l
    · rfl
    · cases again <;> rfl
    · exact o.ret_takes true
    · rfl
  | _ => rfl

@[simp] theorem fetch_takes (c : FetchCont W) (g : Shared W) : ((fetch j g c).pc e q).takes = false := by
  unfold fetch
  dsimp only
  split
  · exact c.err_takes none
  · rfl

/-- A call of a task that has taken a waker: it has done so before, or does it now. -/
theorem next_takes_inv (hr : next willWake w i n = some r) (hp : (r.pc e q).takes = true) :
    (∃ c, r.call = some c ∧ (w.pc i).takes = true ∧ c ≠ .holder .pop ∧ c ≠ .holder .next) ∨
      ∃ g, r.call = some (.holder (.withDataMut g)) ∧ ∀ v, (g v).waker = none := by
  unfold next at hr
  cases hi : w.pc i <;> simp only [hi, reduceCtorEq] at hr
  case idle r' =>
    exfalso
    unfold start permitNext at hr
    repeat' split at hr
    all_goals
      first
      | contradiction
      | obtain rfl := Option.some.inj hr
      | obtain ⟨m, -, rfl⟩ := Option.map_eq_some_iff.1 hr
    all_goals
      first
      | (rw [fetch_takes] at hp; cases hp)
      | cases hp
      | (split at hp <;> cases hp)
  case fut k p =>
    exfalso
    unfold futNext at hr
    repeat' split at hr
    all_goals first | contradiction | obtain rfl := Option.some.inj hr
    all_goals
      first
      | (rw [fetch_takes] at hp; cases hp)
      | cases hp
  case add o p =>
    cases p with
    | served p ws =>
      simp only [addNext] at hr
      split at hr <;> obtain rfl := Option.some.inj hr
      · exact .inl ⟨_, rfl, rfl, by simp, by simp⟩
      · cases hp
    | dequeued p ws =>
      simp only [addNext] at hr
      repeat' split at hr
      all_goals first | contradiction | obtain rfl := Option.some.inj hr
      all_goals first | exact .inr ⟨_, rfl, fun _ => rfl⟩ | cases hp
    | _ =>
      exfalso
      simp only [addNext] at hr
      repeat' split at hr
      all_goals first | contradiction | obtain rfl := Option.some.inj hr
      all_goals
        first
        | (rw [fetch_takes] at hp; cases hp)
        | (rw [AddOwner.ret_takes] at hp; cases hp)
        | cases hp
  case close p =>
    cases p with
    | forEach p =>
      simp only [closeNext] at hr
      cases p with
      | node d ws =>
        simp only [ForEachPc.next] at hr
        repeat' split at hr
        all_goals first | contradiction | obtain rfl := Option.some.inj hr
        · cases hp
        · exact .inr ⟨_, rfl, fun _ => rfl⟩
      | drop d ws =>
        obtain rfl := Option.some.inj hr
        exact .inl ⟨_, rfl, rfl, by simp, by simp⟩
      | head d ws =>
        obtain rfl := Option.some.inj hr
        dsimp only at hp
        split at hp <;> cases hp
      | _ =>
        exfalso
        unfold ForEachPc.next at hr
        repeat' split at hr
        all_goals first | contradiction | obtain rfl := Option.some.inj hr
        all_goals cases hp
    | _ =>
      exfalso
      unfold closeNext at hr
      repeat' split at hr
      all_goals first | contradiction | obtain rfl := Option.some.inj hr
      all_goals cases hp

/-- A task that takes a waker leaves none in the node. -/
theorem Takes.inv (h : Takes w' i x) (hw : Reached cfg w a)
    (hm : (semaphore willWake).Moves cfg a w i n w' e) :
    Takes w i x ∨ (w'.q.mem.data x).waker = none := by
  obtain ⟨hp, hx⟩ := h
  have hf := hw.control i
  cases hm.mover with
  | op hs hd hv hp' hg =>
    left
    have htakes : (w.pc i).takes = true := by
      rcases observe_pc w i e w'.q with ho | ho <;>
        rw [show (observe w i e w'.q).1 = _ from hp'.symm] at ho
      · exact ho ▸ hp
      · exfalso
        generalize w.pc i = p at ho
        generalize w'.pc i = p' at ho hp
        cases ho with
        | set o p ws x b => repeat' split at hp <;> try cases hp
        | ok => simp at hp
        | err => simp at hp
        | _ => cases hp
    refine ⟨htakes, (hv.target_inv hx).resolve_right fun ho => ?_⟩
    generalize w.pc i = p at hf htakes
    cases p with
    | add o p =>
      have h := hf.2.2
      rw [ho] at h
      cases p <;> first | (cases htakes; done) | (obtain ⟨y, h⟩ := h; cases h)
    | close p =>
      cases p with
      | forEach p =>
        have h := hf.2.2
        rw [ho] at h
        cases p with
        | drop d ws =>
          obtain ⟨b, h⟩ := h
          cases h
        | dropped d ws => rcases h with ⟨b, h⟩ | h <;> cases h
        | _ => cases htakes
      | _ => cases htakes
    | _ => cases htakes
  | call hr hk hrest hs hv hp' hg =>
    rcases next_takes_inv hr (hp' ▸ hp) with ⟨c, hc, htakes, h₁, h₂⟩ | ⟨g, hc, hg⟩ <;>
      obtain rfl := Option.some.inj (hk.symm.trans hc)
    · exact .inl ⟨htakes, hv.target_inv ⟨h₁, h₂⟩ hx⟩
    · right
      have hx' := hv.target_inv ⟨by simp, by simp⟩ hx
      obtain ⟨y, u, o₁, o₂, hv₁, hcs, hv₂⟩ := hv.holder_inv
      have hop := (World.op_of_view (congrArg View.op hv₁)).2
      rw [hv₁] at hx'
      rw [hs.data_holder (x := x)]
      · exact hg _
      · rw [hop]
        cases hcs <;> first | exact hx' | simp [HolderOp.target] at hx'
  | own hr hk hrest hq hv hp' hg =>
    rcases next_takes_inv hr (hp' ▸ hp) with ⟨c, hc, -⟩ | ⟨g, hc, -⟩ <;> simp [hk] at hc

/-- A node of a pending future is released by a task that leaves no waker in it. -/
theorem Released.inv (h : Released w' x) (harm : Armed w a)
    (hd : DrainsOk (Pc.forEach? : Pc W → Option (ForEachPc W)) w a) (hw : Reached cfg w a)
    (hm : (semaphore willWake).Moves cfg a w i n w' e) {p' : FutPc W} (hp : w'.pc x = .fut k p')
    (hpend : p'.pending = true) : Released w x ∨ (w'.q.mem.data x).waker = none := by
  rcases h with h | ⟨j, h⟩
  · left
    rcases hm.marked_cases hw.ok h with h | he
    · exact .inl h
    refine .inr ⟨i, ?_⟩
    rcases he with ⟨s, rfl⟩ | ⟨d, flush, rfl⟩
    · rcases hw.remove_cases hm with ⟨rfl, k', p, hpe, hi⟩ | ⟨hop, o, ⟨p, ws, hi⟩ | ⟨b, hi⟩⟩
      · obtain ⟨-, rfl⟩ := Pc.fut.inj (hi.symm.trans hp)
        simp [hpend] at hpe
      · exact ⟨by rw [hi]; rfl, by rw [hop]; rfl⟩
      · have hmx := mutex_guard_iff.1 (harm.serving.unlock hi)
        rw [(World.op_of_view hop).2] at hmx
        cases hmx
    · have hal : (a.drained d).rest.head? = some x := hm.allows
      cases hm.mover with
      | call hr hk hrest hs hv hp' hg => exact absurd (.inr ⟨d, flush, rfl⟩) hv.not_removes
      | op hs hd' hv hp' hg =>
        have hf := hw.control i
        have hop : (w.view i).op = some (.dropDrained d (.node x)) ∨ (w.view i).op = some (.closing d) := by
          generalize w.view i = v at hv
          generalize w'.view i = v' at hv
          cases hv with
          | holder _ _ _ _ _ h =>
            cases h
            · exact .inl rfl
            · exact .inr rfl
        obtain ⟨f, hfe, hid⟩ : ∃ f, (w.pc i).forEach? = some f ∧ f.id = d := by
          rcases hop with hop | hop <;> exact (harm.forEachFits hw).holds hop rfl
        have hi := forEach?_eq_some hfe
        rw [hi] at hf
        have hfit := hf.2.2
        rcases hop with hop | hop
        · refine ⟨?_, by rw [hop]; rfl⟩
          rw [hop] at hfit
          rw [hi]
          cases f <;> simp [ForEachPc.Fits] at hfit
          rfl
        · have hdone : f.isDone = true := by
            rw [hop] at hfit
            cases f <;> simp [ForEachPc.Fits] at hfit
            rfl
          have := hd.done hfe hdone
          rw [hid] at this
          simp [this] at hal
  · by_cases hj : j = i
    · subst hj
      exact (h.inv hw hm).imp_left fun h => .inr ⟨j, h⟩
    · exact .inl (.inr ⟨j, by rw [← hm.pc_ne hj]; exact h.1, by rw [← hm.view_ne hj]; exact h.2⟩)

/-- A node of a pending future that is released has no waker. -/
def Emptied (w : WorldOf W) : Prop := ∀ x k p, w.pc x = .fut k p → p.pending = true → Released w x →
  (w.q.mem.data x).waker = none

theorem Emptied.init (s : ℕ) : Emptied (init s : WorldOf W) := fun x k p h => by cases h

theorem Emptied.step (h : Emptied w) (harm : Armed w a)
    (hd : DrainsOk (Pc.forEach? : Pc W → Option (ForEachPc W)) w a) (hw : Reached cfg w a)
    (hm : (semaphore willWake).Moves cfg a w i n w' e) : Emptied w' := by
  intro x k p' hp hpend hrel'
  rcases hrel'.inv harm hd hw hm hp hpend with hrel | hn
  swap
  · exact hn
  obtain ⟨k', p, hpx, hpe⟩ : ∃ k' p, w.pc x = .fut k' p ∧ p.pending = true := by
    by_cases hx : x = i
    · subst hx
      rcases pending_inv hw.control hm hp hpend with h | h | ⟨h, rfl, -⟩
      · exact h
      · exact absurd (hrel.entered hw.ok) (hw.ok.not_entered h)
      · exact absurd (hrel'.entered (hm.ok' hw.ok)) (hm.not_entered_of_create hw.ok)
    · exact ⟨k, p', hm.pc_ne hx ▸ hp, hpend⟩
  have hn := h x k' p hpx hpe hrel
  rcases hrel with hmk | ⟨j, hj⟩
  · rw [Served.data ⟨k', p, hpx, hpe, hmk⟩ hw hm]
    exact hn
  cases hw.data_goes hm x with
  | same hd => rwa [hd]
  | reduce p hlt hd => rwa [hd]
  | take ht hwk hn => exact hn
  | unwrap o hp hn hd => rw [hd]
  | out hx ho =>
    have := hw.ok.not_out_of_target hj.2
    rw [hx, ho] at this
    cases this
  | refresh hx hi hd =>
    have hf := hw.control i
    rw [hi] at hf
    have ho := congrArg View.op (show w.view i = ⟨.locked, .idle, some (.queued i)⟩ from hf)
    obtain rfl := Option.some.inj ((World.op_of_view ho).1.symm.trans hj.lockedBy)
    have := hj.1
    rw [hi] at this
    cases this

end Aiq.Semaphore
