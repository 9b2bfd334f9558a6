import Aiq.Removal

/-!
# The state word of a node

The `prev` word of a node is its state. This module says who writes it: under the lock the removals,
and otherwise the owner alone, from `reset` to the end of the CAS loop of `enqueue`
(`OwnPc.claims`). So a node that has been removed is on its way out or `Dequeued` until its owner
resets it (`Sound.marked`).
-/

namespace Aiq

variable {S T : Type} {cfg : Config} {c c' : State S T} {a : Abs S} {e : Event S} {x : NodeId}

/-- The owner has the node as a `NodeUnqueued`, or is inside `enqueue` or `reset`. -/
def OwnPc.claims : OwnPc S → Bool
  | .unqueued | .resetNext | .check _ _ _ | .refuse | .store _ _ _ | .cas _ _ _ => true
  | _ => false

/-- The owner of a node after a step of the holder. -/
theorem holderStep_own [DecidableEq S] [QueueState S] {p : HolderPc S}
    (hs : holderStep cfg c p = some (c', e)) (x : NodeId) :
    c'.own x = c.own x ∨ c'.own x = .idle ∨ c'.own x = .dequeued ∨ c'.own x = .dead := by
  have key := own_setOwn_apply (S := S) (T := T) x
  unfold holderStep getStep Removal.return Release.apply at hs
  repeat' split at hs
  all_goals grind [State.own_hold, State.own_free, State.own_withMem, State.own_setDrain,
    State.own_setUpd]

theorem holderCall_own [QueueState S] {p : HolderPc S} {k : HolderCall S T}
    (hs : holderCall c p k = some (c', e)) (x : NodeId) :
    c'.own x = c.own x ∨ c'.own x = .idle := by
  have key := own_setOwn_apply (S := S) (T := T) x
  unfold holderCall guardCall drainLockedCall at hs
  repeat' split at hs
  all_goals grind [State.own_hold, State.own_free, State.own_withMem, State.own_setDrain]

/-- The owner claims a node that it has reset, or whose state it has read as `Unqueued`. -/
theorem step_claims [DecidableEq S] [QueueState S] {k : Act S T} (hs : step cfg c k = some (c', e))
    (h : (c.own x).claims = false) (h' : (c'.own x).claims = true) :
    e = .reset x ∨ c.mem.rawState x = .unqueued := by
  have key := own_setOwn_apply (S := S) (T := T) x
  cases hk : k.isHolder with
  | true =>
    obtain ⟨p, hp, ⟨-, hs⟩ | ⟨q, -, hs⟩⟩ := step_holder hk hs
    · rcases holderStep_own hs x with e | e | e | e <;> simp_all [OwnPc.claims]
    · rcases holderCall_own hs x with e | e <;> simp_all [OwnPc.claims]
  | false =>
    rcases step_own hk hs x with ho | ⟨w, rfl⟩ | ⟨q, rfl⟩
    · rw [ho, h] at h'
      simp at h'
    · simp only [step] at hs
      unfold ownerStep linkStep at hs
      grind [OwnPc.claims, State.own_hold, State.own_withMem]
    · simp only [step] at hs
      unfold ownerCall at hs
      grind [OwnPc.claims, State.own_hold, State.own_withMem]

/-- Under the lock, the `prev` word of a node is written by the removal of the node before it, by
`execute_unlocked`, and at the end of the node's own removal. -/
theorem holderStep_prev [DecidableEq S] [QueueState S] {p : HolderPc S}
    (hs : holderStep cfg c p = some (c', e)) (x : NodeId) :
    c'.mem.prev (.node x) = c.mem.prev (.node x) ∨
      p.leaving = some x ∧ c'.mem.prev (.node x) = .one ∨
      (∃ r, p = .rmSetPrev r (.node x)) ∨ ∃ d, p = .exPrev d (.node x) := by
  have key := fun (m : Mem S T) y v => Mem.prev_setPrev m y (.node x) v
  cases p <;> simp only [holderStep, reduceCtorEq] at hs
  case rmSetPrev r y =>
    obtain ⟨rfl, rfl⟩ := hs
    by_cases hy : y = .node x
    · exact .inr (.inr (.inl ⟨r, by rw [hy]⟩))
    · exact .inl (by simp [key, Ne.symm hy])
  case exPrev d y =>
    obtain ⟨rfl, rfl⟩ := hs
    by_cases hy : y = .node x
    · exact .inr (.inr (.inr ⟨d, by rw [hy]⟩))
    · exact .inl (by simp [key, Ne.symm hy])
  case rmDone r b =>
    obtain ⟨rfl, rfl⟩ := hs
    rw [mem_return]
    by_cases hy : r.node = x
    · exact .inr (.inl ⟨by simp [HolderPc.leaving, hy], by simp [hy, RawNodeState.intoPtr]⟩)
    · exact .inl (by simp [key, Ne.symm hy])
  case ddDone d b flush =>
    obtain ⟨rfl, rfl⟩ := hs
    by_cases hy : b = .node x
    · subst hy
      exact .inr (.inl ⟨rfl, by simp [RawNodeState.intoPtr]⟩)
    · exact .inl (by simp [key, Ne.symm hy])
  case drainSwap d b s =>
    split at hs <;> obtain ⟨rfl, rfl⟩ := hs <;> left
    · simp [Mem.newSentinel, Mem.prev_setPrev]
    · rfl
  case get l g k =>
    left
    unfold getStep at hs
    grind [State.mem_hold, State.mem_withMem, Mem.prev_setLink, Mem.prev_setToken,
      Mem.prev_setParkedNext]
  all_goals
    left
    grind [State.mem_hold, State.mem_withMem, Mem.prev_setLink, Mem.prev_setTail, mem_release,
      State.mem_free, State.mem_setDrain]

/-- Without the lock, the `prev` word of a node is written by its owner. -/
theorem step_prev [DecidableEq S] [QueueState S] {k : Act S T} (hk : k.isHolder = false)
    (hs : step cfg c k = some (c', e)) (x : NodeId) :
    c'.mem.prev (.node x) = c.mem.prev (.node x) ∨
      (∃ w, k = .owner x w) ∧ (c.own x).claims = true ∨
      (∃ q, k = .ownerCall x q) ∧ (e = .reset x ∨ e = .create x) := by
  have key := fun (m : Mem S T) y v => Mem.prev_setPrev m y (.node x) v
  cases k <;> simp only [step] at hs
  case lock => grind [State.mem_hold]
  case holder => simp [Act.isHolder] at hk
  case holderCall => simp [Act.isHolder] at hk
  case owner y weak =>
    unfold ownerStep at hs
    grind [State.mem_hold, State.mem_setOwn, State.mem_withMem, mem_linkStep, Mem.prev_setLink,
      Mem.prev_setTail, Mem.prev_setToken, OwnPc.claims]
  case ownerCall y k =>
    unfold ownerCall at hs
    grind [State.mem_setOwn, State.mem_withMem, Mem.prev_setLink, Mem.prev_setData]
  case thread t weak =>
    rcases threadStep_mem hs with h | ⟨s, h⟩ <;> rw [h] <;> exact .inl rfl
  case threadCall t k =>
    rcases threadCall_mem hs with h | ⟨s, h⟩ <;> rw [h] <;> exact .inl rfl
  case drain d k => rw [drainStep_mem hs]; exact .inl rfl

theorem holderCall_prev [QueueState S] {p : HolderPc S} {k : HolderCall S T}
    (hs : holderCall c p k = some (c', e)) (x : NodeId) :
    c'.mem.prev (.node x) = c.mem.prev (.node x) := by
  have key := fun (m : Mem S T) y v => Mem.prev_setPrev m y (.node x) v
  unfold holderCall guardCall drainLockedCall Mem.newSentinel at hs
  repeat' split at hs
  all_goals grind [State.mem_hold, State.mem_setOwn, State.mem_free, State.mem_withMem,
    State.mem_setDrain, Mem.prev_setLink, Mem.prev_setData]

/-! ## Removed nodes -/

/-- The node is marked as dequeued, and its owner has not claimed it. -/
def Retired (c : State S T) (x : NodeId) : Prop :=
  c.mem.prev (.node x) = .one ∧ (c.own x).claims = false

/-- The node has been removed: it is on its way out, or is marked as dequeued. -/
def Marked (c : State S T) (x : NodeId) : Prop := c.leaving = some x ∨ Retired c x

theorem Inv.out_of_claims (h : Inv cfg c a) (hx : (c.own x).claims = true) :
    Out (c.ch a) c.leaving x := by
  have hok := h.own x
  cases ho : c.own x <;> rw [ho] at hx hok <;> simp only [OwnPc.claims, reduceCtorEq] at hx <;>
    exact hok.1

/-- The removal of a node goes on, or marks the node. -/
theorem holderStep_marks [DecidableEq S] [QueueState S] {p : HolderPc S}
    (hs : holderStep cfg c p = some (c', e)) (hp : p.leaving = some x) :
    c'.leaving = some x ∨ c'.mem.prev (.node x) = .one := by
  cases p <;> simp only [HolderPc.leaving, reduceCtorEq, Option.some.injEq] at hp
  case rmSetNext r b =>
    obtain ⟨rfl, rfl⟩ := Prod.mk.inj (Option.some.inj hs)
    exact .inl (by simp [State.leaving, HolderPc.leaving, hp])
  case rmDone r b =>
    obtain ⟨rfl, rfl⟩ := Prod.mk.inj (Option.some.inj hs)
    exact .inr (by simp [hp, RawNodeState.intoPtr])
  case ddDone d b flush =>
    cases b <;> simp only [reduceCtorEq, Option.some.injEq] at hp
    obtain ⟨rfl, rfl⟩ := Prod.mk.inj (Option.some.inj hs)
    exact .inr (by simp [hp, RawNodeState.intoPtr])

theorem holderCall_of_leaving [QueueState S] {p : HolderPc S} {k : HolderCall S T}
    (hp : p.leaving = some x) : holderCall c p k = none := by
  unfold HolderPc.leaving at hp
  unfold holderCall
  grind

section Steps

variable [DecidableEq S] [QueueState S] {t : Transition S T}

/-- A node that leaves its list is on its way out. -/
theorem Sound.leaving_of_removes (h : Sound cfg a t) (he : t.event.Removes x) :
    t.dst.leaving = some x := by
  cases hk : t.act.isHolder with
  | false =>
    have hev := step_event hk h.step
    rcases he with ⟨s, he⟩ | ⟨d, flush, he⟩ <;> simp [he, Event.byHolder] at hev
  | true =>
    obtain ⟨p, -, ⟨-, hs⟩ | ⟨q, -, hs⟩⟩ := step_holder hk h.step
    · exact holderStep_removes hs he
    · exact absurd he (holderCall_removes hs)

/-- A dequeued node stays so until its owner resets it, or a new node is created in its place. -/
theorem Sound.retired (h : Sound cfg a t) (hr : t.event ≠ .reset x) (hcr : t.event ≠ .create x)
    (hx : Retired t.src x) : Retired t.dst x := by
  obtain ⟨hp, hcl⟩ := hx
  have hs := h.step
  have hst : t.src.mem.rawState x = .dequeued := by simp [Mem.rawState, hp, Ptr.state]
  have hout := h.inv.out_of_rawState (x := x) (by simp [hst])
  refine ⟨?_, ?_⟩
  · rw [← hp]
    cases hk : t.act.isHolder with
    | false =>
      rcases step_prev hk hs x with e | ⟨-, e⟩ | ⟨-, e | e⟩
      · exact e
      · simp [hcl] at e
      · exact absurd e hr
      · exact absurd e hcr
    | true =>
      obtain ⟨p, hm, ⟨-, hs⟩ | ⟨q, -, hs⟩⟩ := step_holder hk hs
      · rcases holderStep_prev hs x with e | ⟨-, e⟩ | ⟨r, rfl⟩ | ⟨d, rfl⟩
        · exact e
        · exact e.trans hp.symm
        · obtain ⟨⟨i, -, hi⟩, -⟩ := h.inv.holder hm
          exact absurd (List.mem_of_predOf hi) (hout.1 i)
        · exact absurd (List.mem_of_head? (h.inv.holder hm)) (hout.1 _)
      · exact holderCall_prev hs x
  · by_contra hcl'
    rcases step_claims hs hcl (by simpa using hcl') with e | e
    · exact hr e
    · simp [hst] at e

/-- A removed node stays so until then. -/
theorem Sound.marked (h : Sound cfg a t) (hr : t.event ≠ .reset x) (hcr : t.event ≠ .create x)
    (hx : Marked t.src x) : Marked t.dst x := by
  rcases hx with hlv | hx
  · cases hk : t.act.isHolder with
    | false => exact .inl ((h.inv.bind_step _ (fun p => p.leaving_of_isEntry) hk h.step).trans hlv)
    | true =>
      obtain ⟨p, hp, hs⟩ := step_holder hk h.step
      have hlv' : p.leaving = some x := by simpa [State.leaving, hp] using hlv
      rcases hs with ⟨-, hs⟩ | ⟨q, -, hs⟩
      · rcases holderStep_marks hs hlv' with h' | h'
        · exact .inl h'
        · have hcl : (t.src.own x).claims = false := by
            by_contra hcl
            exact (h.inv.out_of_claims (by simpa using hcl)).2 hlv
          refine .inr ⟨h', ?_⟩
          rcases holderStep_own hs x with e | e | e | e <;> rw [e]
          · exact hcl
          all_goals rfl
      · simp [holderCall_of_leaving hlv'] at hs
  · exact .inr (h.retired hr hcr hx)

end Steps

end Aiq
