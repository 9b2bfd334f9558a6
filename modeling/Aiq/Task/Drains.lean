import Aiq.Task.Node

/-!
# The `Drain`s of tasks

In a client whose tasks use `Drain`s only through `for_each` (`Client.HasForEach`) every `Drain` that is
in use belongs to a task that is in `for_each`, and `for_each` leaves its loop only when no node is left
(`DrainsOk`). So a `Drain` is dropped empty, and between the calls there is none.
-/

namespace Aiq

variable {S T W P G I : Type} {cfg : Config} {a : Abs S} {e : Event S} {i j : TaskId} {d : DrainId}
  {x : NodeId}

/-- The `Drain` of a `for_each`. -/
def ForEachPc.id : ForEachPc W → DrainId
  | .head d _ | .node d _ | .drop d _ | .dropped d _ | .unlocked d _ | .relock d | .done d _
  | .closing d _ => d

/-- The wakers that a `for_each` has taken and not called. -/
def ForEachPc.wakers : ForEachPc W → List W
  | .head _ ws | .node _ ws | .drop _ ws | .dropped _ ws | .unlocked _ ws | .done _ ws
  | .closing _ ws => ws
  | .relock _ => []

/-- The `for_each` has left its loop. -/
def ForEachPc.isDone : ForEachPc W → Bool
  | .done _ _ | .closing _ _ => true
  | _ => false

/-- The `Drain` that holds the lock. -/
def HolderOp.drainId : HolderOp S → Option DrainId
  | .drain d | .drained d _ | .dropDrained d _ | .unlocking d | .relocking d | .closing d => some d
  | _ => none

theorem HolderPc.drainId_op (p : HolderPc S) : p.op.drainId = p.drainId := by
  cases p <;> try rfl
  case get l g k =>
    cases k <;> try rfl
    case drained d b flush => cases flush <;> rfl
  case ddPrev d b flush => cases flush <;> rfl
  case ddSetHead d b v flush => cases flush <;> rfl
  case ddDone d b flush => cases flush <;> rfl

theorem Inv.held_iff {c : State S T} (h : Inv cfg c a) :
    c.drains d = .held ↔ c.op.bind HolderOp.drainId = some d := by
  rw [h.held d, State.op]
  cases c.mutex with
  | none => rfl
  | some p => simp [HolderPc.drainId_op]

/-- A `Drain` without a next node is empty. -/
theorem Inv.rest_eq_nil [DecidableEq S] [QueueState S] {c : State S T} (h : Inv cfg c a)
    (hm : c.mutex = some (.drain d)) (hl : c.mem.link (.next (.sentinel d)) = .null) :
    (a.drained d).rest = [] := by
  have hs : Aiq.step cfg c (.holderCall .next) = some (c, .next d none) := by
    simp [Aiq.step, hm, Aiq.holderCall, Aiq.drainLockedCall, hl]
  have := (Inv.step (t := ⟨c, .holderCall .next, .next d none, c⟩) h trivial hs).1
  simpa [Abs.Allows] using this

/-- Where `for_each` goes on after a step with the call `k` and the event `e`: it keeps its `Drain`, leaves
its loop when there is no next node, and returns at its end. -/
inductive ForEachPc.Goes (q : State S T) (p : ForEachPc W) (k : Option (Call S T)) (e : Event S) :
    Option (ForEachPc W) → Prop
  | stay (p' : ForEachPc W) (hid : p'.id = p.id) (hd : p'.isDone = false) : Goes q p k e (some p')
  | empty (ws : List W) (hk : k = some (.holder .next)) (he : e = .next p.id none) :
      Goes q p k e (some (.done p.id ws))
  | full (ws : List W) (hp : p = .dropped p.id ws) (hk : k = none)
      (hl : q.mem.link (.next (.sentinel p.id)) = .null) : Goes q p k e (some (.done p.id ws))
  | close (ws : List W) (hp : p = .done p.id ws) (hk : k = some (.holder .dropDrain)) :
      Goes q p k e (some (.closing p.id ws))
  | ret (ws : List W) (hp : p = .closing p.id ws) (hk : k = none) : Goes q p k e none

theorem ForEachPc.next_goes [DecidableEq S] {f : OnNext T W} {emb : ForEachPc W → P}
    {ret : List W → P} {fault : P} {wake : W → G → G} {g : G} {q q' : State S T} {p : ForEachPc W}
    {r : Instr S T P G} (hr : p.next f emb ret fault wake g q = some r) (hf : r.pc e q' ≠ fault) :
    (∃ ws, r.pc e q' = ret ws ∧ p.Goes q r.call e none) ∨
      ∃ p', r.pc e q' = emb p' ∧ p.Goes q r.call e (some p') := by
  cases p <;> simp only [ForEachPc.next] at hr
  case head d ws =>
    obtain rfl := Option.some.inj hr
    by_cases he : e = .next d none
    · exact .inr ⟨.done d ws, by simp [he], .empty ws rfl he⟩
    · exact .inr ⟨.node d ws, by simp [he], .stay _ rfl rfl⟩
  case node d ws =>
    split at hr
    · split at hr <;> obtain rfl := Option.some.inj hr
      · exact absurd rfl hf
      · exact .inr ⟨_, rfl, .stay _ rfl rfl⟩
    · simp at hr
  case dropped d ws =>
    split at hr
    · split at hr <;> obtain rfl := Option.some.inj hr
      · exact .inr ⟨_, rfl, .full ws rfl rfl ‹_›⟩
      · exact .inr ⟨_, rfl, .stay _ rfl rfl⟩
    · obtain rfl := Option.some.inj hr
      exact .inr ⟨_, rfl, .stay _ rfl rfl⟩
  case unlocked d ws =>
    cases ws <;> obtain rfl := Option.some.inj hr <;> exact .inr ⟨_, rfl, .stay _ rfl rfl⟩
  case done d ws =>
    obtain rfl := Option.some.inj hr
    exact .inr ⟨_, rfl, .close ws rfl rfl⟩
  case closing d ws =>
    obtain rfl := Option.some.inj hr
    exact .inl ⟨ws, rfl, .ret ws rfl rfl⟩
  all_goals
    obtain rfl := Option.some.inj hr
    exact .inr ⟨_, rfl, .stay _ rfl rfl⟩

/-- The program of the tasks uses `Drain`s through `for_each`, whose control states `F` picks out. -/
structure Client.HasForEach [DecidableEq S] (C : Client S T P G I) (F : P → Option (ForEachPc W))
    (fault : P) : Prop where
  observe : ∀ w i e q, F (C.observe w i e q).1 = F (w.pc i)
  next : ∀ {w i n r p}, F (w.pc i) = some p → C.next w i n = some r →
    ∃ f emb ret wake, p.next f emb ret fault wake w.shared w.q = some r ∧
      (∀ p', F (emb p') = some p') ∧ ∀ ws, F (ret ws) = none
  start : ∀ {w i n r e q p}, F (w.pc i) = none → C.next w i n = some r → F (r.pc e q) = some p →
    p.isDone = false

/-- The control states of `for_each` fit the views of the tasks, and only these hold the lock with a
`Drain`. -/
structure ForEachFits (F : P → Option (ForEachPc W)) (w : World S T P G) : Prop where
  fits : ∀ {i p}, F (w.pc i) = some p → ∃ st, p.Fits st (w.view i).op
  holds : ∀ {i o d}, (w.view i).op = some o → o.drainId = some d → ∃ p, F (w.pc i) = some p ∧ p.id = d

/-- What is known of the `Drain`s. -/
structure DrainsOk (F : P → Option (ForEachPc W)) (w : World S T P G) (a : Abs S) : Prop where
  live : ∀ {d}, w.q.drains d ≠ .none → w.q.drains d ≠ .gone → ∃ i p, F (w.pc i) = some p ∧ p.id = d
  gone : ∀ {i d ws}, F (w.pc i) = some (.closing d ws) → (w.view i).op = none → w.q.drains d = .gone
  done : ∀ {i p}, F (w.pc i) = some p → p.isDone = true → (a.drained p.id).rest = []

section Step

variable {w w' : World S T P G} {F : P → Option (ForEachPc W)} {fault : P}

/-- What the lock is held with is in the view of a task. -/
theorem World.Ok.view_of_op {o : HolderOp S} (h : w.Ok cfg a) (ho : w.q.op = some o) :
    ∃ i, (w.view i).op = some o := by
  have hs : w.q.mutex.isSome := by
    obtain ⟨p, hp, -⟩ := Option.map_eq_some_iff.1 ho
    simp [hp]
  rw [h.lock.isSome] at hs
  obtain ⟨i, hi⟩ := Option.isSome_iff_exists.1 hs
  exact ⟨i, by simp [World.view, State.view, heldOp, hi, ho]⟩

theorem State.mutex_of_op_drain {c : State S T} (h : c.op = some (.drain d)) :
    c.mutex = some (.drain d) := by
  obtain ⟨p, hp, ho⟩ := Option.map_eq_some_iff.1 h
  rw [hp]
  unfold HolderPc.op GetCont.op at ho
  grind

theorem drains_of_dropDrain [DecidableEq S] [QueueState S] {c c' : State S T} {k : Act S T}
    (hs : step cfg c k = some (c', .dropDrain d)) : c'.drains d = .gone := by
  have key := drains_setDrain_apply (S := S) (T := T) d
  cases k <;> simp only [step] at hs
  case holder =>
    cases hm : c.mutex <;> simp only [hm, reduceCtorEq] at hs
    unfold holderStep at hs
    repeat' split at hs
    all_goals
      first
      | (rcases getStep_event hs with h | ⟨y, h⟩ <;> simp at h)
      | grind [State.drains_free]
  case holderCall q =>
    cases hm : c.mutex <;> simp only [hm, reduceCtorEq] at hs
    unfold holderCall guardCall drainLockedCall at hs
    grind
  case owner x weak =>
    unfold ownerStep at hs
    grind
  case ownerCall x q =>
    unfold ownerCall at hs
    grind
  case thread t weak =>
    unfold threadStep Attempt.test Attempt.err Attempt.ok at hs
    repeat' split at hs
    all_goals grind
  case threadCall t q =>
    unfold threadCall Attempt.test Attempt.err at hs
    repeat' split at hs
    all_goals grind
  case drain d' q =>
    unfold drainStep at hs
    grind
  case lock => grind

/-- A `for_each` that has left its loop keeps its `Drain` from being created again. -/
theorem DrainsOk.ne_none (h : DrainsOk F w a) (hf : ForEachFits F w) (hw : w.Ok cfg a)
    {p : ForEachPc W} (hp : F (w.pc i) = some p) (hd : p.isDone = true) :
    w.q.drains p.id ≠ .none := by
  obtain ⟨st, hfit⟩ := hf.fits hp
  have hheld : ∀ {o}, (w.view i).op = some o → o.drainId = some p.id → w.q.drains p.id ≠ .none := by
    intro o ho hid hn
    have := hw.inv.held_iff.2 (show w.q.op.bind HolderOp.drainId = some p.id by
      rw [(World.op_of_view ho).2]
      exact hid)
    simp [hn] at this
  cases p <;> simp only [ForEachPc.isDone, reduceCtorEq] at hd
  case done d ws => exact hheld hfit rfl
  case closing d ws =>
    rcases hfit with ho | ho
    · exact hheld ho rfl
    · rw [ForEachPc.id, h.gone hp ho]
      simp

variable [DecidableEq S] [QueueState S] {C : Client S T P G I} {n : I}

/-- The `Drain`s in a step. -/
theorem Client.Moves.drains (hm : C.Moves cfg a w i n w' e) (d : DrainId) :
    w'.q.drains d = w.q.drains d ∨ (w.q.drains d).Next (w'.q.drains d) := by
  cases hm with
  | op hk hs hw => exact hw ▸ hs.sound.drains d
  | call hi hr hk hl hs hw => exact hw ▸ hs.sound.drains d
  | own hi hr hk hw => exact hw ▸ .inl rfl

theorem Client.Moves.starts (hm : C.Moves cfg a w i n w' e) (he : e.Starts d) :
    w.q.drains d = .none := by
  cases hm with
  | op hk hs hw => exact (hs.sound.starts he).1
  | call hi hr hk hl hs hw => exact (hs.sound.starts he).1
  | own hi hr hk hw => rcases he with ⟨s, he⟩ | he <;> simp at he

/-- How a node leaves its list, seen from the task that makes the step. -/
theorem Client.Moves.removes (hm : C.Moves cfg a w i n w' e) (hx : a.Member x)
    (hx' : ¬ (a.apply e).Member x) :
    e.Removes x ∧ ∃ o, (w.view i).op = some o ∧
      (o.target = some x ∧ o.runs = true ∨ (∃ s k, o = .removing x s k ∧ k ≠ .handle) ∨
        ∃ d, o = .closing d ∧ x ∈ (a.drained d).rest) := by
  have he : e.Removes x := by
    rcases Abs.member_or (e := e) hx with h | h | ⟨d, hs, h⟩
    · exact absurd h hx'
    · exact h
    · have hok : ∀ {k q'}, TaskStep cfg a w i k e q' → (a.drained d).rest = [] := fun hts => by
        have := hts.ok.inv.drain d
        rw [hm.starts hs] at this
        exact this
      cases hm with
      | op hk hts hw => simp [hok hts] at h
      | call hi hr hk hl hts hw => simp [hok hts] at h
      | own hi hr hk hw => rcases hs with ⟨s, hs⟩ | hs <;> simp at hs
  refine ⟨he, ?_⟩
  cases hm.mover with
  | op hs hd hv hp hg =>
    generalize w.view i = v at hv
    generalize w'.view i = v' at hv
    cases hv
    case holder y u o o' h =>
      refine ⟨o, rfl, ?_⟩
      rcases h.removes he with h | h | ⟨d, rfl, rfl⟩
      · exact .inl h
      · exact .inr (.inl h)
      · exact .inr (.inr ⟨d, rfl, List.mem_of_head? hs.allows⟩)
    all_goals simp [Event.Removes] at he
  | call hr hk hrest hs hv hp hg =>
    exact absurd he hv.not_removes
  | own hr hk hrest hq hv hp hg => simp [Event.Removes] at he

omit [QueueState S] in
/-- What a step does to the `for_each` of the task that makes it. -/
theorem Client.HasForEach.goes (hC : C.HasForEach F fault) {r : Instr S T P G} {c : State S T}
    (hr : C.next w i n = some r) {p : ForEachPc W} (hp : F (w.pc i) = some p)
    (hf : r.pc e c ≠ fault) : p.Goes w.q r.call e (F (r.pc e c)) := by
  obtain ⟨f, emb, ret, wake, hnext, hemb, hret⟩ := hC.next hp hr
  rcases ForEachPc.next_goes hnext hf with ⟨ws, hpc, hg⟩ | ⟨p', hpc, hg⟩
  · rwa [hpc, hret]
  · rwa [hpc, hemb]

theorem DrainsOk.live_step (h : DrainsOk F w a) (hC : C.HasForEach F fault) (hf : ForEachFits F w)
    (hf' : ForEachFits F w') (hw' : w'.Ok cfg (a.apply e)) (hm : C.Moves cfg a w i n w' e)
    (hnf : w'.pc i ≠ fault) (h₁ : w'.q.drains d ≠ .none) (h₂ : w'.q.drains d ≠ .gone) :
    ∃ j p, F (w'.pc j) = some p ∧ p.id = d := by
  by_cases hheld : w'.q.drains d = .held
  · obtain ⟨o, ho, hid⟩ := Option.bind_eq_some_iff.1 (hw'.inv.held_iff.1 hheld)
    obtain ⟨j, hj⟩ := hw'.view_of_op ho
    exact ⟨j, hf'.holds hj hid⟩
  · have hlive : w.q.drains d ≠ .none ∧ w.q.drains d ≠ .gone := by
      rcases hm.drains d with hd | hd
      · exact ⟨by rwa [← hd], by rwa [← hd]⟩
      · generalize w.q.drains d = s at hd
        generalize w'.q.drains d = s' at hd h₁ h₂ hheld
        cases hd <;> simp_all
    obtain ⟨j, p, hp, hid⟩ := h.live hlive.1 hlive.2
    by_cases hj : j = i
    · subst hj
      have key : ∀ {r : Instr S T P G} {q'}, C.next w j n = some r → w'.pc j = r.pc e q' →
          (w.view j).Rests → ∃ j p, F (w'.pc j) = some p ∧ p.id = d := by
        intro r q' hr hpc hrest
        have hg := hC.goes (e := e) (c := q') hr hp (by rwa [← hpc])
        rw [← hpc] at hg
        generalize hF : F (w'.pc j) = o at hg
        cases hg with
        | stay p' hid' => exact ⟨j, p', hF, hid'.trans hid⟩
        | empty ws => exact ⟨j, _, hF, hid⟩
        | full ws => exact ⟨j, _, hF, hid⟩
        | close ws => exact ⟨j, _, hF, hid⟩
        | ret ws hp' hk =>
          rw [hp'] at hp
          obtain ⟨st, hfit⟩ := hf.fits hp
          have ho : (w.view j).op = none := by
            rcases hfit with ho | ho
            · simpa [HolderOp.runs] using hrest.op ho
            · exact ho
          rw [hid] at hp
          exact absurd (h.gone hp ho) hlive.2
      cases hm.mover with
      | op hs hd hv hpc hg => exact ⟨j, p, by rw [hpc, hC.observe, hp], hid⟩
      | call hr hk hrest hs hv hpc hg => exact key hr hpc hrest
      | own hr hk hrest hq hv hpc hg => exact key hr hpc hrest
    · exact ⟨j, p, by rw [hm.pc_ne hj, hp], hid⟩

omit [DecidableEq S] in
/-- The lock is released with a `Drain` that is being dropped when the drop ends. -/
theorem InstrStep.dropDrain {s : Option S} {v v' : View S} (h : InstrStep i s v e v')
    (ho : v.op = some (.closing d)) (ho' : v'.op = none) : e = .dropDrain d := by
  cases h
  case holder o o' h =>
    obtain rfl := Option.some.inj ho
    obtain rfl : o' = none := ho'
    cases h
    rfl
  all_goals simp_all

theorem DrainsOk.gone_step (h : DrainsOk F w a) (hC : C.HasForEach F fault) (hf : ForEachFits F w)
    (hm : C.Moves cfg a w i n w' e) (hnf : w'.pc i ≠ fault) {ws : List W}
    (hp : F (w'.pc j) = some (.closing d ws)) (ho : (w'.view j).op = none) :
    w'.q.drains d = .gone := by
  have hkeep : w.q.drains d = .gone → w'.q.drains d = .gone := fun hd => by
    rcases hm.drains d with hd' | hd'
    · rw [hd', hd]
    · rw [hd] at hd'
      cases hd'
  by_cases hj : j = i
  · subst hj
    have key : ∀ {r : Instr S T P G} {q'}, C.next w j n = some r → w'.pc j = r.pc e q' →
        r.call = some (.holder .dropDrain) := by
      intro r q' hr hpc
      cases hF : F (w.pc j) with
      | none =>
        have hd := hC.start hF hr (by rw [← hpc]; exact hp)
        cases hd
      | some p =>
        have hg := hC.goes (e := e) (c := q') hr hF (by rwa [← hpc])
        rw [← hpc, hp] at hg
        cases hg with
        | stay _ hid hd => cases hd
        | close _ _ hk => exact hk
    cases hm.mover with
    | op hs hd hv hpc hg =>
      rw [hpc, hC.observe] at hp
      obtain ⟨st, hfit⟩ := hf.fits hp
      rcases hfit with ho' | ho'
      · obtain rfl := hv.dropDrain ho' ho
        exact drains_of_dropDrain hs.step
      · exact hkeep (h.gone hp ho')
    | call hr hk hrest hs hv hpc hg =>
      obtain rfl := Option.some.inj (hk.symm.trans (key hr hpc))
      obtain ⟨x, u, o, o', -, hcs, hv'⟩ := hv.holder_inv
      rw [hv'] at ho
      cases hcs
      simp at ho
    | own hr hk hrest hq hv hpc hg => simp [key hr hpc] at hk
  · rw [hm.pc_ne hj] at hp
    rw [hm.view_ne hj] at ho
    exact hkeep (h.gone hp ho)

theorem DrainsOk.done_step (h : DrainsOk F w a) (hC : C.HasForEach F fault) (hf : ForEachFits F w)
    (hw : w.Ok cfg a) (hm : C.Moves cfg a w i n w' e) (hnf : w'.pc i ≠ fault) {p : ForEachPc W}
    (hp : F (w'.pc j) = some p) (hd : p.isDone = true) : ((a.apply e).drained p.id).rest = [] := by
  have hkeep : ∀ {p₀ : ForEachPc W}, F (w.pc j) = some p₀ → p₀.isDone = true → p₀.id = p.id →
      ((a.apply e).drained p.id).rest = [] := by
    intro p₀ hp₀ hd₀ hid
    have hrest := h.done hp₀ hd₀
    have hne := h.ne_none hf hw hp₀ hd₀
    rw [hid] at hrest hne
    rcases Abs.drained_apply (a := a) (fun he => hne (hm.starts he)) with h' | ⟨x, s, -, h'⟩ |
      ⟨x, flush, -, h'⟩ <;> rw [h'] <;> simp [hrest]
  by_cases hj : j = i
  · subst hj
    have key : ∀ {r : Instr S T P G} {q'}, C.next w j n = some r → w'.pc j = r.pc e q' → a.Allows e →
        (r.call = none → e = .tau ∧ (w.view j).Rests) → ((a.apply e).drained p.id).rest = [] := by
      intro r q' hr hpc hall hown
      cases hF : F (w.pc j) with
      | none => simp [hC.start hF hr (by rw [← hpc]; exact hp)] at hd
      | some p₀ =>
        have hg := hC.goes (e := e) (c := q') hr hF (by rwa [← hpc])
        rw [← hpc, hp] at hg
        cases hg with
        | stay _ hid hd' => simp [hd'] at hd
        | empty ws hk he =>
          subst he
          simpa [Abs.Allows, Abs.apply, ForEachPc.id] using hall
        | full ws hp₀ hk hl =>
          obtain ⟨rfl, hrest⟩ := hown hk
          obtain ⟨st, hfit⟩ := hf.fits hF
          rw [hp₀] at hfit
          have ho : (w.view j).op = some (.drain p₀.id) := by
            rcases hfit with ⟨b, ho⟩ | ho
            · simpa [HolderOp.runs] using hrest.op ho
            · exact ho
          exact hw.inv.rest_eq_nil (State.mutex_of_op_drain (World.op_of_view ho).2) hl
        | close ws hp₀ hk => exact hkeep hF (by rw [hp₀]; rfl) rfl
    cases hm.mover with
    | op hs hd' hv hpc hg =>
      rw [hpc, hC.observe] at hp
      exact hkeep hp hd rfl
    | call hr hk hrest hs hv hpc hg => exact key hr hpc hs.allows fun hk' => by simp [hk] at hk'
    | own hr hk hrest hq hv hpc hg => exact key hr hpc trivial fun _ => ⟨rfl, hrest⟩
  · rw [hm.pc_ne hj] at hp
    exact hkeep hp hd rfl

/-- Every step keeps what is known of the `Drain`s. -/
theorem DrainsOk.step (h : DrainsOk F w a) (hC : C.HasForEach F fault) (hf : ForEachFits F w)
    (hf' : ForEachFits F w') (hw : w.Ok cfg a) (hm : C.Moves cfg a w i n w' e)
    (hnf : w'.pc i ≠ fault) : DrainsOk F w' (a.apply e) where
  live := h.live_step hC hf hf' (hm.ok' hw) hm hnf
  gone := h.gone_step hC hf hm hnf
  done := h.done_step hC hf hw hm hnf

end Step

end Aiq
