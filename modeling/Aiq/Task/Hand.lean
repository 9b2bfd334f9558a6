import Aiq.Task.Trace

/-!
# Nodes in hand, and nodes that are not queued

A task that removes a node has it in hand until it is marked as dequeued (`HolderOp.hand`); meanwhile its
owner does not work on it, and no other task writes to its data. A node that has not been enqueued stays
`Unqueued` until its owner enqueues it (`Client.Moves.rawState_unqueued`).
-/

namespace Aiq

variable {S T P G I : Type} {cfg : Config} {a : Abs S} {w w' : World S T P G} {i j : TaskId}
  {x : NodeId} {e : Event S} {n : I}

/-! ## Nodes in hand -/

/-- The node that a handle is for, also while it is being removed. -/
def HolderOp.hand : HolderOp S → Option NodeId
  | .handle x | .removing x _ .handle => some x
  | _ => none

/-- A node that is being removed is in a list, or it is on its way out. -/
theorem Inv.member_or_leaving {c : State S T} {s : S} {k : Caller} (h : Inv cfg c a)
    (ho : c.op = some (.removing x s k)) : a.Member x ∨ c.leaving = some x := by
  obtain ⟨p, hp, ho⟩ := Option.map_eq_some_iff.1 ho
  have hk := h.holder hp
  have hmem : ∀ {i y}, .node y ∈ c.ch a i → y = x → a.Member x := fun hi hy =>
    member_iff.2 ⟨_, hy ▸ hi⟩
  have hleave : p.leaving = some x → c.leaving = some x := fun hl => by simp [State.leaving, hp, hl]
  cases p <;> simp only [HolderPc.op, reduceCtorEq, HolderOp.removing.injEq] at ho
  case get l g k =>
    obtain ⟨i, y, hy, -, haw⟩ := hk.1
    cases k <;> simp only [GetCont.op, reduceCtorEq, HolderOp.removing.injEq] at ho
    case waitEnqueued r => exact .inl (hmem haw.2.mem ho.1)
    case relink r => exact .inl (hmem haw.2.1.mem ho.1)
    case drained d b flush => split at ho <;> simp at ho
  case rmPrev y s w k => exact .inl (hmem hk.1.choose_spec ho.1)
  case rmNext r => exact .inl (hmem hk.1.choose_spec.mem ho.1)
  case rmClear r => exact .inl (hmem hk.1.choose_spec.mem ho.1)
  case rmCas r => exact .inl (hmem hk.1.choose_spec.mem ho.1)
  case rmSetPrev r b => exact .inl (hmem hk.1.choose_spec.1.mem ho.1)
  case rmSetNext r b => exact .inr (hleave (congrArg some ho.1))
  case rmDone r b => exact .inr (hleave (congrArg some ho.1))
  all_goals split at ho <;> simp at ho

/-- The owner of a node in hand does not work on it outside of the lists. -/
theorem World.Ok.not_out_of_hand (h : w.Ok cfg a)
    (hx : (w.view i).op.bind HolderOp.hand = some x) : (w.view x).own.out = false := by
  by_contra ho
  have hout := h.inv.out_of_own (x := x) (by simpa [World.view, State.view] using ho)
  obtain ⟨o, hop, hx⟩ := Option.bind_eq_some_iff.1 hx
  unfold HolderOp.hand at hx
  split at hx
  · obtain rfl := Option.some.inj hx
    exact (out_iff.1 hout).1 (h.member_of_node hop rfl)
  · obtain rfl := Option.some.inj hx
    rcases h.inv.member_or_leaving (World.op_of_view hop).2 with hm | hl
    · exact (out_iff.1 hout).1 hm
    · exact hout.2 hl
  · cases hx

theorem InstrStep.hand_inv [QueueState S] {s : Option S} {v v' : View S} (h : InstrStep i s v e v')
    (hx : v'.op.bind HolderOp.hand = some x) :
    v.op.bind HolderOp.hand = some x ∨ v.op = some .dequeuing := by
  cases h
  case holder h =>
    cases h <;> first | exact .inl hx | exact .inr rfl | simp [HolderOp.hand] at hx
  all_goals exact .inl hx

theorem CallStep.hand_inv [QueueState S] {s : Option S} {r : RawNodeState} {k : Call S T}
    {v v' : View S} (h : CallStep i s r k v e v') (hk : k ≠ .holder .pop)
    (hx : v'.op.bind HolderOp.hand = some x) : v.op.bind HolderOp.hand = some x := by
  cases h
  case holder h =>
    cases h <;> first | exact hx | exact absurd rfl hk | simp [HolderOp.hand] at hx
  all_goals exact hx

/-- The data of a node in a list is not written by a task that does not have the lock. -/
theorem Client.Moves.data_of_locked [DecidableEq S] [QueueState S] {C : Client S T P G I}
    (hm : C.Moves cfg a w i n w' e) (hw : w.Ok cfg a) (hl : w.lockedBy = some j) (hj : j ≠ i)
    (hx : a.Member x) : w'.q.mem.data x = w.q.mem.data x := by
  cases hm.mover with
  | op hs hd hv hp hg => rw [hd]
  | own hr hk hrest hq hv hp hg => rw [hq]
  | call hr hk hrest hs hv hp hg =>
    refine (hs.data_call x).resolve_right fun hd => ?_
    obtain ⟨g, o, -, ho, -, -⟩ := hd.member hw hx
    exact hj (Option.some.inj (hl.symm.trans (World.op_of_view ho).1))

/-- The owner of a node that is in hand under the lock does not work on it outside of the lists. -/
theorem World.Ok.not_out_of_target (h : w.Ok cfg a)
    (hx : (w.view i).op.bind HolderOp.target = some x) : (w.view x).own.out = false := by
  by_contra ho
  have hout := h.inv.out_of_own (x := x) (by simpa [World.view, State.view] using ho)
  obtain ⟨o, hop, hx⟩ := Option.bind_eq_some_iff.1 hx
  rcases h.inv.member_of_target (x := x) (by rw [(World.op_of_view hop).2]; exact hx) with hm | hl
  · exact (out_iff.1 hout).1 hm
  · exact hout.2 hl

/-- The data of a node in hand is not written by other tasks. -/
theorem Client.Moves.data_of_target [DecidableEq S] [QueueState S] {C : Client S T P G I}
    (hm : C.Moves cfg a w i n w' e) (hw : w.Ok cfg a) (hj : j ≠ i)
    (hx : (w.view j).op.bind HolderOp.target = some x) : w'.q.mem.data x = w.q.mem.data x := by
  have hout := hw.not_out_of_target hx
  cases hm.mover with
  | op hs hd hv hp hg => rw [hd]
  | own hr hk hrest hq hv hp hg => rw [hq]
  | call hr hk hrest hs hv hp hg =>
    refine (hs.data_call x).resolve_right fun hd => ?_
    cases hd with
    | create hy h => simp [hy, h, OwnOp.out] at hout
    | owner g hy h hv' => rcases h with h | h <;> simp [hy, h, OwnOp.out] at hout
    | holder g o ho h hv' =>
      obtain ⟨o', ho', -⟩ := Option.bind_eq_some_iff.1 hx
      exact hj (Option.some.inj ((World.op_of_view ho').1.symm.trans (World.op_of_view ho).1))

/-- A node in hand stays in hand until it is removed. -/
theorem InstrStep.target [QueueState S] {s : Option S} {v v' : View S} (h : InstrStep i s v e v')
    (hown : v.own.runs = false) (hupd : v.upd.runs = false)
    (hx : v.op.bind HolderOp.target = some x) :
    v'.op.bind HolderOp.target = some x ∨ e.Removes x ∨ e.Dequeues x := by
  obtain ⟨o, o', ho, hop, rfl⟩ := h.holder_inv hown hupd
  rw [ho] at hx
  exact hop.target hx

/-! ## Marks -/

/-- A node that its owner knows as `Unqueued` is not marked. -/
theorem World.Ok.not_marked (h : w.Ok cfg a) (hx : (w.view x).own = .unqueued) : ¬ Marked w.q x := by
  have hown : w.q.own x = .unqueued := OwnPc.op_eq_unqueued.1 hx
  have hok := h.inv.own x
  rw [hown] at hok
  rintro (hl | ⟨-, hcl⟩)
  · exact hok.1.2 hl
  · simp [hown, OwnPc.claims] at hcl

theorem World.Ok.not_marked_of_queued (h : w.Ok cfg a) (hx : (w.view x).op = some (.queued x)) :
    ¬ Marked w.q x := by
  obtain ⟨-, k, hk⟩ := h.inv.holder (State.mutex_of_op_queued (World.op_of_view hx).2)
  exact fun hmk => h.inv.not_member_of_marked hmk (member_iff.2 ⟨k, hk⟩)

section Marks

variable [DecidableEq S] [QueueState S] {C : Client S T P G I}

/-- A node is made by its task. -/
theorem Client.Moves.create_inv (hm : C.Moves cfg a w i n w' (.create x)) :
    x = i ∧ (w.view i).own = .dead := by
  cases hm.mover with
  | op hs hd hv hp hg =>
    generalize w.view i = v at hv
    generalize w'.view i = v' at hv
    cases hv with
    | holder _ _ _ _ _ h => cases h
  | call hr hk hrest hs hv hp hg =>
    generalize w.view i = v at hv ⊢
    generalize w'.view i = v' at hv
    cases hv with
    | create v u o => exact ⟨rfl, rfl⟩
    | holder _ _ _ _ _ _ h => cases h

/-- A node is reset by a call. -/
theorem Client.Moves.reset_inv (hm : C.Moves cfg a w i n w' (.reset x)) :
    ∃ r, C.next w i n = some r ∧ r.call = some .reset := by
  cases hm.mover with
  | op hs hd hv hp hg =>
    generalize w.view i = v at hv
    generalize w'.view i = v' at hv
    cases hv with
    | holder _ _ _ _ _ h => cases h
  | call hr hk hrest hs hv hp hg =>
    generalize w.view i = v at hv
    generalize w'.view i = v' at hv
    cases hv with
    | reset u o => exact ⟨_, hr, hk⟩
    | holder _ _ _ _ _ _ h => cases h

/-- A removal does not change the data of the nodes. -/
theorem Client.Moves.data_of_removes (hm : C.Moves cfg a w i n w' e) (he : e.Removes x) :
    w'.q.mem.data = w.q.mem.data := by
  cases hm.mover with
  | op hs hd hv hp hg => exact hd
  | call hr hk hrest hs hv hp hg =>
    exfalso
    generalize w.view i = v at hv
    generalize w'.view i = v' at hv
    cases hv with
    | holder _ _ _ _ _ _ h => cases h <;> simp [Event.Removes] at he
    | _ => simp [Event.Removes] at he
  | own hr hk hrest hq hv hp hg => rw [hq]

/-- A marked node stays marked until its owner makes it new. -/
theorem Client.Moves.marked (hm : C.Moves cfg a w i n w' e) (he : e ≠ .create x ∧ e ≠ .reset x)
    (hx : Marked w.q x) : Marked w'.q x := by
  cases hm with
  | op hk hs hw => exact hw ▸ hs.sound.marked he.2 he.1 hx
  | call hi hr hk hl hs hw => exact hw ▸ hs.sound.marked he.2 he.1 hx
  | own hi hr hk hw => exact hw ▸ hx

/-- A removed node is marked. -/
theorem Client.Moves.marked_of_removes (hm : C.Moves cfg a w i n w' e)
    (he : e.Removes x ∨ e.Dequeues x) : Marked w'.q x := by
  have key : ∀ {k q'}, TaskStep cfg a w i k e q' → Marked q' x := by
    intro k q' hs
    rcases he with he | he
    · exact .inl (hs.sound.leaving_of_removes he)
    · refine hs.sound.marked ?_ ?_ (.inl (hs.sound.dequeues he).1) <;>
        rcases he with ⟨b, rfl⟩ | ⟨d, rfl⟩ <;> simp
  cases hm with
  | op hk hs hw => exact hw ▸ key hs
  | call hi hr hk hl hs hw => exact hw ▸ key hs
  | own hi hr hk hw => simp [Event.Removes, Event.Dequeues] at he

/-- A node whose removal stores `Dequeued` has been marked before. -/
theorem Client.Moves.marked_of_dequeues (hm : C.Moves cfg a w i n w' e) (he : e.Dequeues x) :
    Marked w.q x := by
  cases hm with
  | op hk hs hw => exact .inl (hs.sound.dequeues he).1
  | call hi hr hk hl hs hw => exact .inl (hs.sound.dequeues he).1
  | own hi hr hk hw => simp [Event.Dequeues] at he

/-- A node is marked by its removal. -/
theorem Client.Moves.marked_cases (hm : C.Moves cfg a w i n w' e) (hw : w.Ok cfg a)
    (hx : Marked w'.q x) : Marked w.q x ∨ e.Removes x := by
  rcases hm.marked_inv hx with h | h | ⟨d, hd, h⟩
  · exact .inl h
  · exact .inr h
  · have := hw.inv.drain d
    rw [hm.starts hd] at this
    simp [show (a.drained d).rest = [] from this] at h

/-- A new node is not marked. -/
theorem Client.Moves.not_marked_of_create (hm : C.Moves cfg a w i n w' (.create x)) (hw : w.Ok cfg a) :
    ¬ Marked w'.q x := by
  have key : (w.view x).own = .dead → w'.q.mem.prev (.node x) = .null → ¬ Marked w'.q x := by
    rintro hown hp (hl | ⟨hr, -⟩)
    · exact (hm.out (by simp) (hw.inv.out_of_own (x := x) (by
        rw [show (w.q.own x).op = _ from hown]
        rfl))).2 hl
    · simp [hp] at hr
  cases hm.mover with
  | op hs hd hv hp hg =>
    generalize w.view i = v at hv
    generalize w'.view i = v' at hv
    cases hv with
    | holder _ _ _ _ _ h => cases h
  | call hr hk hrest hs hv hp hg =>
    generalize hvi : w.view i = v at hv
    generalize w'.view i = v' at hv
    cases hv with
    | create v u o => exact key (by rw [hvi]) (prev_of_renewed hs.step (.inr rfl))
    | holder _ _ _ _ _ _ h => cases h

end Marks

/-! ## Nodes that have not been enqueued -/

theorem OwnPc.claims_of_out {p : OwnPc S} (h : p.op.out = false) : p.claims = false := by
  cases p <;> first | rfl | cases h

theorem World.Ok.rawState_of_unqueued (h : w.Ok cfg a) (ho : (w.view i).own = .unqueued) :
    w.q.mem.rawState i = .unqueued := by
  have hok := h.inv.own i
  rw [show w.q.own i = .unqueued from OwnPc.op_eq_unqueued.1 ho] at hok
  exact Ptr.state_eq_unqueued.2 hok.2.1

theorem World.Ok.rawState_of_dequeued (h : w.Ok cfg a) (ho : (w.view i).own = .dequeued) :
    w.q.mem.rawState i = .dequeued := by
  have hok := h.inv.own i
  have hown : w.q.own i = .dequeued := by
    have : (w.q.own i).op = .dequeued := ho
    cases hp : w.q.own i <;> simp [hp, OwnPc.op] at this
    rfl
  rw [hown] at hok
  exact Ptr.state_eq_dequeued.2 hok.2

/-- A node that has been dequeued by its owner has left the queue. -/
theorem World.Ok.marked_of_dequeued (h : w.Ok cfg a) (ho : (w.view i).own = .dequeued) :
    Marked w.q i := by
  refine .inr ⟨Ptr.state_eq_dequeued.1 (h.rawState_of_dequeued ho), ?_⟩
  have : (w.q.own i).op = .dequeued := ho
  cases hp : w.q.own i <;> simp [hp, OwnPc.op] at this
  rfl

theorem World.Ok.rawState_of_queued (h : w.Ok cfg a) (ho : (w.view i).op = some (.queued x)) :
    w.q.mem.rawState x = .queued := by
  obtain ⟨l, hl⟩ := member_iff.1 (h.member_of_node ho rfl)
  exact h.inv.shape.state_eq_queued hl

variable [DecidableEq S] [QueueState S]

/-- A node stays `Unqueued` until its owner enqueues it. -/
theorem TaskStep.rawState_unqueued {k : Act S T} {q' : State S T} (h : TaskStep cfg a w i k e q')
    (hx : w.q.mem.rawState x = .unqueued) (hc : x ≠ i ∨ (w.q.own x).claims = false) :
    q'.mem.rawState x = .unqueued := by
  have hout := h.sound.inv.out_of_rawState (x := x) (by simp [hx])
  have hprev : q'.mem.prev (.node x) = w.q.mem.prev (.node x) → q'.mem.rawState x = .unqueued :=
    fun hp => by rw [Mem.rawState, hp]; exact hx
  cases hk : k.isHolder with
  | true =>
    obtain ⟨p, hmx, ⟨-, hs⟩ | ⟨q, -, hs⟩⟩ := step_holder hk h.step
    · rcases holderStep_prev hs x with hq | ⟨hl, -⟩ | ⟨r, rfl⟩ | ⟨d, rfl⟩
      · exact hprev hq
      · exact absurd (by simp [State.leaving, hmx, hl]) hout.2
      · obtain ⟨⟨l, -, hl⟩, -⟩ := h.sound.inv.holder hmx
        exact absurd (List.mem_of_predOf hl) (hout.1 l)
      · exact absurd (List.mem_of_head? (h.sound.inv.holder hmx)) (hout.1 _)
    · exact hprev (holderCall_prev hs x)
  | false =>
    rcases step_prev hk h.step x with hq | ⟨⟨b, rfl⟩, hq⟩ | ⟨⟨q, rfl⟩, hq⟩
    · exact hprev hq
    · rcases hc with hx | hc
      · exact absurd h.byTask hx
      · simp [hc] at hq
    · rw [Mem.rawState, prev_of_renewed h.step hq]
      rfl

omit [DecidableEq S] in
/-- The calls that make a node `Unqueued`. -/
theorem CallStep.ne_renewed {s : Option S} {r : RawNodeState} {k : Call S T} {v v' : View S}
    (h : CallStep i s r k v e v') (hk : (∀ v, k ≠ .create v) ∧ k ≠ .reset) :
    e ≠ .create x ∧ e ≠ .reset x := by
  cases h
  case create v u o => exact absurd rfl (hk.1 v)
  case reset u o => exact absurd rfl hk.2
  case holder h => cases h <;> simp
  all_goals simp

/-- A call other than those that make a node or reset it leaves the raw states alone. -/
theorem TaskStep.rawState_call {k : Call S T} {q' : State S T} (h : TaskStep cfg a w i (k.act i) e q')
    (he : e ≠ .create x ∧ e ≠ .reset x) : q'.mem.rawState x = w.q.mem.rawState x := by
  suffices hp : q'.mem.prev (.node x) = w.q.mem.prev (.node x) by rw [Mem.rawState, hp]; rfl
  cases hk : (k.act i).isHolder with
  | true =>
    obtain ⟨p, hmx, ⟨hk', -⟩ | ⟨q, -, hs⟩⟩ := step_holder hk h.step
    · cases k <;> simp [Call.act] at hk'
    · exact holderCall_prev hs x
  | false =>
    rcases step_prev hk h.step x with hq | ⟨⟨b, hb⟩, -⟩ | ⟨-, hq | hq⟩
    · exact hq
    · cases k <;> simp [Call.act] at hb
    · exact absurd hq he.2
    · exact absurd hq he.1

theorem Client.Moves.rawState_unqueued {C : Client S T P G I} (hm : C.Moves cfg a w i n w' e)
    (hx : w.q.mem.rawState x = .unqueued) (hc : x ≠ i ∨ (w.q.own x).claims = false) :
    w'.q.mem.rawState x = .unqueued := by
  cases hm.mover with
  | op hs hd hv hp hg => exact hs.rawState_unqueued hx hc
  | call hr hk hrest hs hv hp hg => exact hs.rawState_unqueued hx hc
  | own hr hk hrest hq hv hp hg => rw [hq, hx]

end Aiq
