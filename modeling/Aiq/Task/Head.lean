import Aiq.Task.Fetch

/-!
# Nodes taken from the head

A node that is removed through the handle of `dequeue` is the first of the queue when it leaves it
(`Inv.remove_handle`): its predecessor is the head marker, which the holder of the lock remembers from the
call of `dequeue` on (`HolderPc.AtHead`). This is not so for the handle of `pop`.
-/

namespace Aiq

variable {S T : Type} {cfg : Config} {c c' : State S T} {a : Abs S} {e : Event S} {x : NodeId}
  {p p' : HolderPc S} {s : S}

/-- A handle is not that of `pop`, and a removal through one is a removal from the head. -/
def HolderPc.AtHead : HolderPc S → Prop
  | .pop _ => False
  | .rmPrev _ _ _ k => k ≠ .handle
  | .get _ _ (.waitEnqueued r) => r.caller ≠ .handle
  | .get _ _ (.relink r) | .rmNext r | .rmClear r | .rmCas r | .rmSetPrev r _ =>
    r.caller = .handle → r.prev = headMarker
  | _ => True

theorem HolderPc.AtHead.of_isEntry (h : p.isEntry = true) : p.AtHead := by
  cases p <;> trivial

section Step

variable [QueueState S]

theorem holderStep_atHead [DecidableEq S] (h : p.AtHead) (hs : holderStep cfg c p = some (c', e))
    (hp : c'.mutex = some p') : p'.AtHead := by
  unfold HolderPc.AtHead at h ⊢
  unfold holderStep getStep GetCont.resume Removal.return Release.apply at hs
  repeat' split at hs
  all_goals grind [State.mutex_hold, State.mutex_free, State.mutex_withMem, State.mutex_setDrain,
    State.mutex_setOwn, State.mutex_setUpd]

theorem holderCall_atHead {k : HolderCall S T} (h : p.AtHead) (hk : k ≠ .pop)
    (hm : c.mutex = some p) (hs : holderCall c p k = some (c', e)) (hp : c'.mutex = some p') :
    p'.AtHead := by
  unfold HolderPc.AtHead at h ⊢
  unfold holderCall guardCall drainLockedCall at hs
  repeat' split at hs
  all_goals grind [State.mutex_hold, State.mutex_free, State.mutex_withMem, State.mutex_setDrain,
    State.mutex_setOwn]

end Step

/-- An element whose predecessor is the head marker is the first of the queue. -/
theorem head_of_inPrev {ch : ListId → List Addr} {i : ListId} {y : Addr} (hn : (ch i).Nodup)
    (hy : y ∈ ch i) (h : inPrev ch i y = headMarker) : i = .queue ∧ (ch i).head? = some y := by
  unfold inPrev at h
  cases hp : (ch i).predOf y with
  | some z => simp [hp, headMarker, RawNodeState.intoPtr] at h
  | none =>
    refine ⟨?_, (List.predOf_eq_none_iff hn hy).1 hp⟩
    cases i with
    | queue => rfl
    | drain d => simp [hp, ListId.firstPrev, headMarker, RawNodeState.intoPtr] at h

theorem Inv.queue_nodup (h : Inv cfg c a) : a.queue.Nodup := (h.shape.nodup .queue).of_map

/-- A `NodeDrained` is of the first element of its list. -/
theorem Inv.head_of_drained {d : DrainId} {b : Addr} (h : Inv cfg c a) (ho : c.op = some (.drained d b)) :
    (c.ch a (.drain d)).head? = some b := by
  obtain ⟨p, hp, ho⟩ := Option.map_eq_some_iff.1 ho
  cases p <;> simp only [HolderPc.op, reduceCtorEq, HolderOp.drained.injEq] at ho
  case drained d' b' =>
    obtain ⟨rfl, rfl⟩ := ho
    exact h.holder hp
  case get l g k => cases k <;> simp [GetCont.op] at ho; split at ho <;> simp at ho
  all_goals split at ho <;> simp at ho

/-! ## The result of a removal -/

/-- What `remove_with_prev` is going to return, when its node has left its list. -/
def HolderPc.result : HolderPc S → Option Bool
  | .rmSetNext _ _ => some false
  | .rmDone _ b => some b
  | _ => none

/-- See `HolderPc.result`. -/
def State.result (c : State S T) : Option Bool := c.mutex.bind HolderPc.result

theorem HolderPc.Returning.result {b : Bool} (h : p.Returning x b) : p.result = some b := by
  cases p <;> simp only [HolderPc.Returning] at h
  · exact congrArg some h.2.symm
  · exact congrArg some h.2

theorem HolderPc.Removing.result (h : p.Removing x s) : p.result = none := by
  cases p <;> first | rfl | exact absurd h id

theorem HolderPc.removing_or_returning {k : Caller} (h : p.op = .removing x s k) :
    p.Removing x s ∨ ∃ b, p.Returning x b := by
  cases p <;> simp only [HolderPc.op, reduceCtorEq, HolderOp.removing.injEq] at h
  case get l g k =>
    cases k <;> simp only [GetCont.op, reduceCtorEq, HolderOp.removing.injEq] at h
    · exact .inl ⟨h.1, h.2.1⟩
    · exact .inl ⟨h.1, h.2.1⟩
    · split at h <;> simp at h
  case rmSetNext r b => exact .inr ⟨false, h.1, rfl⟩
  case rmDone r b => exact .inr ⟨b, h.1, rfl⟩
  case ddPrev => split at h <;> simp at h
  case ddSetHead => split at h <;> simp at h
  case ddDone => split at h <;> simp at h
  all_goals exact .inl ⟨h.1, h.2.1⟩

/-- A node that is being removed is not in the queue any more when the result is known. -/
theorem Inv.not_mem_of_result {k : Caller} (h : Inv cfg c a) (ho : c.op = some (.removing x s k))
    (hr : c.result ≠ none) : x ∉ a.queue := by
  obtain ⟨p, hp, ho⟩ := Option.map_eq_some_iff.1 ho
  have hh := h.holder hp
  have hmem : x ∈ a.queue → .node x ∈ c.ch a .queue := fun hx => List.mem_map_of_mem hx
  simp only [State.result, hp, Option.bind_some] at hr
  cases p <;> simp only [HolderPc.result, ne_eq, not_true_eq_false] at hr
  case rmSetNext r b =>
    obtain rfl := (HolderOp.removing.inj ho).1
    exact fun hx => hh.2.2.1.out _ (hmem hx)
  case rmDone r b =>
    obtain rfl := (HolderOp.removing.inj ho).1
    exact fun hx => hh.1.out _ (hmem hx)

section Remove

variable [DecidableEq S] [QueueState S]

omit [DecidableEq S] in
theorem holderCall_of_runs {k : HolderCall S T} (hp : p.runs = true) : holderCall c p k = none := by
  cases p <;> first | (cases hp; done) | simp [holderCall]

omit [DecidableEq S] in
/-- After a call nothing has left a list. -/
theorem holderCall_result {k : HolderCall S T} (hm : c.mutex = some p)
    (hs : holderCall c p k = some (c', e)) : c'.result = none := by
  unfold holderCall guardCall drainLockedCall at hs
  unfold State.result
  repeat' split at hs
  all_goals grind [State.mutex_hold, State.mutex_free, State.mutex_withMem, State.mutex_setDrain,
    State.mutex_setOwn, HolderPc.result]

/-- A node that leaves the queue through a handle is the first, and `remove_with_prev` returns whether it
is the only one. -/
theorem Inv.remove_handle (h : Inv cfg c a) (hm : c.mutex = some p) (hat : p.AtHead)
    (ho : p.op = .removing x s .handle) (hs : Aiq.holderStep cfg c p = some (c', .remove x s)) :
    ∃ l q, a.queue = x :: l ∧ c'.mutex = some q ∧ q.Returning x l.isEmpty := by
  have hn := (h.shape.nodup .queue).of_map
  have hhead : ∀ {i}, Addr.node x ∈ c.ch a i → inPrev (c.ch a) i (.node x) = headMarker →
      i = .queue ∧ ∃ l, a.queue = x :: l := fun hmem hprev => by
    obtain ⟨rfl, hh⟩ := head_of_inPrev (h.shape.nodup _) hmem hprev
    refine ⟨rfl, ?_⟩
    cases hq : a.queue with
    | nil => simp [State.ch, chain, hq] at hh
    | cons y l =>
      obtain rfl : y = x := by simpa [State.ch, chain, hq] using hh
      exact ⟨l, rfl⟩
  have hrem : p.Removing x s := by
    cases p <;> simp only [HolderPc.op, reduceCtorEq, HolderOp.removing.injEq] at ho
    case get l g k =>
      cases k <;> simp only [GetCont.op, reduceCtorEq, HolderOp.removing.injEq] at ho
      · exact ⟨ho.1, ho.2.1⟩
      · exact ⟨ho.1, ho.2.1⟩
      · split at ho <;> simp at ho
    case rmSetNext r b => simp [Aiq.holderStep] at hs
    case rmDone r b => simp [Aiq.holderStep] at hs
    case ddPrev => split at ho <;> simp at ho
    case ddSetHead => split at ho <;> simp at ho
    case ddDone => split at ho <;> simp at ho
    all_goals exact ⟨ho.1, ho.2.1⟩
  obtain ⟨he, -⟩ | ⟨-, ⟨r, rfl, rfl, rfl, ht, -, hm'⟩ | ⟨r, b, rfl, rfl, hm', -⟩⟩ :=
    holderStep_removing hrem hs
  · cases he
  · have hk : r.caller = .handle := (HolderOp.removing.inj ho).2.2
    obtain ⟨⟨i, hr⟩, -⟩ := h.holder hm
    obtain ⟨rfl, l, hl⟩ := hhead hr.mem (hr.prev.symm.trans (hat hk))
    refine ⟨l, _, hl, hm', rfl, ?_⟩
    have hlast : a.queue.getLast? = some r.node := by
      obtain ⟨y, hy, he⟩ := Abs.tail_eq_ptr_iff.1 (h.tail.symm.trans ht)
      rw [hy, Addr.node.inj he]
    rw [hl] at hn hlast
    cases l with
    | nil => rfl
    | cons y l =>
      rw [List.getLast?_cons_cons] at hlast
      exact absurd (List.mem_of_getLast? hlast) (List.nodup_cons.1 hn).1
  · have hk : r.caller = .handle := (HolderOp.removing.inj ho).2.2
    obtain ⟨⟨i, hr, hpred⟩, -⟩ := h.holder hm
    obtain ⟨rfl, l, hl⟩ := hhead hr.mem (hr.prev.symm.trans (hat hk))
    refine ⟨l, _, hl, hm', rfl, ?_⟩
    cases l with
    | nil => simp [State.ch, chain, hl] at hpred
    | cons y l => rfl

/-- `remove_with_prev` returns whether the node was the last of the queue. -/
theorem Inv.remove_result (h : Inv cfg c a) (hm : c.mutex = some p)
    (hs : Aiq.holderStep cfg c p = some (c', .remove x s)) :
    c.result = none ∧ c'.result = some (decide (a.queue.getLast? = some x)) := by
  have hrem : p.Removing x s := by
    cases p <;> simp only [Aiq.holderStep, reduceCtorEq] at hs
    case get l g k => rcases getStep_event hs with h | ⟨y, h⟩ <;> simp at h
    case rmCas r =>
      split at hs <;> obtain ⟨-, he⟩ := Prod.mk.inj (Option.some.inj hs)
      · obtain ⟨rfl, rfl⟩ := Event.remove.inj he
        exact ⟨rfl, rfl⟩
      · cases he
    case rmSetPrev r b =>
      obtain ⟨-, he⟩ := Prod.mk.inj (Option.some.inj hs)
      obtain ⟨rfl, rfl⟩ := Event.remove.inj he
      exact ⟨rfl, rfl⟩
    all_goals grind
  refine ⟨by simp [State.result, hm, hrem.result], ?_⟩
  obtain ⟨he, -⟩ | ⟨-, ⟨r, rfl, rfl, rfl, ht, -, hm'⟩ | ⟨r, b, rfl, rfl, hm', -⟩⟩ :=
    holderStep_removing hrem hs
  · cases he
  · obtain ⟨y, hy, he⟩ := Abs.tail_eq_ptr_iff.1 (h.tail.symm.trans ht)
    simp [State.result, hm', HolderPc.result, hy, Addr.node.inj he]
  · obtain ⟨⟨i, hr, hpred⟩, -⟩ := h.holder hm
    suffices a.queue.getLast? ≠ some r.node by
      simpa [State.result, hm', HolderPc.result] using this
    intro hlast
    have hch : (c.ch a .queue).getLast? = some (.node r.node) := by
      simp [State.ch, chain, List.getLast?_map, hlast]
    obtain rfl := h.shape.disj hr.mem (List.mem_of_getLast? hch)
    exact List.predOf_ne_getLast (h.shape.nodup _) hch hpred

/-- The result of a removal is known from the removal on. -/
theorem holderStep_result {k : Caller} (hm : c.mutex = some p)
    (ho : p.op = .removing x s k) (hs : holderStep cfg c p = some (c', e))
    (hf : c'.mutex ≠ some .fault) :
    (e = .tau → c'.result = c.result) ∧ ∀ y b, e = .removed y b → c.result = some b := by
  rcases HolderPc.removing_or_returning ho with hr | ⟨b, hr⟩
  · rcases holderStep_removing hr hs with ⟨rfl, -, ⟨q, hq, hr' | rfl⟩, -⟩ | ⟨rfl, -⟩
    · exact ⟨fun _ => by simp [State.result, hm, hq, hr.result, hr'.result], by simp⟩
    · exact absurd hq hf
    · exact ⟨by simp, by simp⟩
  · rcases (holderStep_returning hr hs).2 with ⟨rfl, r, hq, -⟩ | ⟨rfl, -⟩
    · refine ⟨fun _ => ?_, by simp⟩
      simp only [State.result, hm, hq, Option.bind_some, hr.result]
      rfl
    · refine ⟨by simp, fun y b' he => ?_⟩
      obtain ⟨-, rfl⟩ := Event.removed.inj he
      simp [State.result, hm, hr.result]

end Remove

/-! ## Tasks -/

/-- The holder of the mutex has no handle of `pop`. -/
def State.AtHead (c : State S T) : Prop := ∀ p, c.mutex = some p → p.AtHead

section Task

variable {P G I : Type} [DecidableEq S] [QueueState S] {k : Act S T} {w w' : World S T P G}
  {q' : State S T} {i : TaskId} {C : Client S T P G I} {n : I}

theorem TaskStep.atHead (h : TaskStep cfg a w i k e q') (hat : w.q.AtHead)
    (hk : k ≠ .holderCall .pop) : q'.AtHead := by
  intro p hp
  cases hh : k.isHolder with
  | true =>
    obtain ⟨p', hp', ⟨-, hs⟩ | ⟨q, rfl, hs⟩⟩ := step_holder hh h.step
    · exact holderStep_atHead (hat p' hp') hs hp
    · exact holderCall_atHead (hat p' hp') (fun hq => hk (hq ▸ rfl)) hp' hs hp
  | false =>
    rcases step_mutex hh h.step with hm | ⟨-, p', hp', he⟩
    · exact hat p (hm ▸ hp)
    · obtain rfl := Option.some.inj (hp'.symm.trans hp)
      exact HolderPc.AtHead.of_isEntry he

/-- A client that does not call `pop` takes nodes from the head only. -/
theorem Client.Moves.atHead (hm : C.Moves cfg a w i n w' e) (hat : w.q.AtHead)
    (hC : ∀ r, C.next w i n = some r → r.call ≠ some (.holder .pop)) : w'.q.AtHead := by
  cases hm with
  | op hk hs hw =>
    subst hw
    refine hs.atHead hat ?_
    rintro rfl
    unfold World.instruction at hk
    repeat' split at hk
    all_goals simp at hk
  | @call r k e q' hi hr hk hl hs hw =>
    subst hw
    refine hs.atHead hat fun he => hC r hr ?_
    cases k <;> simp only [Call.act, reduceCtorEq, Act.holderCall.injEq] at he
    rw [hk, he]
  | own hi hr hk hw => exact hw ▸ hat

/-- A node that a task takes out of the queue through a handle is the first. -/
theorem Client.Moves.remove_handle (hm : C.Moves cfg a w i n w' (.remove x s)) (hat : w.q.AtHead)
    (ho : (w.view i).op = some (.removing x s .handle)) :
    ∃ l q, a.queue = x :: l ∧ w'.q.mutex = some q ∧ q.Returning x l.isEmpty := by
  have key : ∀ {k : Act S T} {q' : State S T}, TaskStep cfg a w i k (.remove x s) q' →
      ∃ l q, a.queue = x :: l ∧ q'.mutex = some q ∧ q.Returning x l.isEmpty := fun {k q'} hs => by
    have hk : k.isHolder = true := by
      by_contra hk
      have := step_event (by simpa using hk) hs.step
      simp [Event.byHolder] at this
    obtain ⟨p, hp, ⟨-, hs'⟩ | ⟨q, -, hs'⟩⟩ := step_holder hk hs.step
    · have hop : p.op = .removing x s .handle := by
        have := (World.op_of_view ho).2
        simpa [State.op, hp] using this
      exact hs.sound.inv.remove_handle hp (hat p hp) hop hs'
    · exact absurd (.inl ⟨s, rfl⟩) (holderCall_removes (x := x) hs')
  cases hm with
  | op hk hs hw => exact hw ▸ key hs
  | call hi hr hk hl hs hw => exact hw ▸ key hs

/-- The instructions of a removal, by the task that has called it. -/
theorem Client.Moves.removing_result {y : NodeId} {t : S} {k : Caller} (hm : C.Moves cfg a w i n w' e)
    (ho : (w.view i).op = some (.removing y t k)) :
    (∀ x s, e = .remove x s → w.q.result = none ∧
      w'.q.result = some (decide (a.queue.getLast? = some x))) ∧
    (e = .tau → w'.q.result = w.q.result) ∧ ∀ x b, e = .removed x b → w.q.result = some b := by
  have key : ∀ {k : Act S T} {q' : State S T}, TaskStep cfg a w i k e q' →
      (∀ x s, e = .remove x s → w.q.result = none ∧
        q'.result = some (decide (a.queue.getLast? = some x))) ∧
      (e = .tau → q'.result = w.q.result) ∧ ∀ x b, e = .removed x b → w.q.result = some b := by
    intro k q' hs
    obtain ⟨p, hp, hpo⟩ := Option.map_eq_some_iff.1 (World.op_of_view ho).2
    cases hk : k.isHolder with
    | false =>
      have hev := step_event hk hs.step
      refine ⟨fun x s h => by simp [h, Event.byHolder] at hev, fun _ => ?_,
        fun x b h => by simp [h, Event.byHolder] at hev⟩
      exact hs.sound.inv.bind_step _ (fun p hp => by cases p <;> first | rfl | cases hp) hk hs.step
    | true =>
      obtain ⟨p', hp', ⟨-, hs'⟩ | ⟨q, -, hs'⟩⟩ := step_holder hk hs.step <;>
        obtain rfl := Option.some.inj (hp.symm.trans hp')
      · obtain ⟨h₁, h₂⟩ := holderStep_result hp hpo hs' hs.sound.not_fault
        refine ⟨?_, h₁, h₂⟩
        rintro x s rfl
        exact hs.sound.inv.remove_result hp hs'
      · have hrun : p.runs = true := by
          rw [← HolderPc.runs_op, hpo]
          rfl
        simp [holderCall_of_runs hrun] at hs'
  cases hm with
  | op hk hs hw => exact hw ▸ key hs
  | call hi hr hk hl hs hw => exact hw ▸ key hs
  | own hi hr hk hw => exact hw ▸ ⟨by simp, fun _ => rfl, by simp⟩

/-- After a call under the lock nothing has left a list. -/
theorem TaskStep.result_of_call {k : HolderCall S T} {q' : State S T}
    (h : TaskStep cfg a w i (.holderCall k) e q') : q'.result = none := by
  obtain ⟨p, hp, ⟨hk, -⟩ | ⟨q, -, hs⟩⟩ := step_holder rfl h.step
  · cases hk
  · exact holderCall_result hp hs

/-- The mutex is left alone while another task has it. -/
theorem Client.Moves.mutex_ne {j : TaskId} (hm : C.Moves cfg a w i n w' e) (hl : w.lockedBy = some j)
    (hj : j ≠ i) : w'.q.mutex = w.q.mutex := by
  cases hm with
  | op hk hs hw => exact hw ▸ hs.mutex_ne hl hj
  | call hi hr hk hl' hs hw => exact hw ▸ hs.mutex_ne hl hj
  | own hi hr hk hw => exact hw ▸ rfl

end Task

end Aiq
