import Aiq.Parking

/-!
# The course of a removal

`remove_with_prev` runs under the lock from the load of `prev`, or from the load of `next` when
`prev` is known, to the store of `Dequeued`. Before the node has left its list the holder is in a
control state of `HolderPc.Removing`, and every step leaves the tail as it is or takes the node out
(`holderStep_removing`); after that it is in one of `HolderPc.Returning`.
-/

namespace Aiq

variable {S T : Type} {cfg : Config} {c c' : State S T} {a : Abs S} {e : Event S} {x : NodeId}

/-- `remove_with_prev` runs on `x` and has not taken it out of its list yet; `s` is the state to leave
behind. -/
def HolderPc.Removing (x : NodeId) (s : S) : HolderPc S → Prop
  | .rmPrev y s' _ _ => y = x ∧ s' = s
  | .get _ _ (.waitEnqueued r) | .rmNext r | .rmClear r | .rmCas r | .get _ _ (.relink r)
  | .rmSetPrev r _ => r.node = x ∧ r.newTail = s
  | _ => False

/-- `remove_with_prev` has taken `x` out of its list and will return `b`. -/
def HolderPc.Returning (x : NodeId) (b : Bool) : HolderPc S → Prop
  | .rmSetNext r _ => r.node = x ∧ b = false
  | .rmDone r b' => r.node = x ∧ b' = b
  | _ => False

theorem holderStep_removing [DecidableEq S] [QueueState S] {p : HolderPc S} {s : S}
    (hp : p.Removing x s) (hs : holderStep cfg c p = some (c', e)) :
    (e = .tau ∧ c'.mem.tail = c.mem.tail ∧ (∃ q, c'.mutex = some q ∧ (q.Removing x s ∨ q = .fault)) ∧
      ∀ r, p = .rmCas r → c.mem.tail ≠ .ptr (.node x)) ∨
    e = .remove x s ∧
      ((∃ r, p = .rmCas r ∧ r.node = x ∧ r.newTail = s ∧ c.mem.tail = .ptr (.node x) ∧
        c'.mem.tail = r.casTail ∧ c'.mutex = some (.rmDone r true)) ∨
      ∃ r b, p = .rmSetPrev r b ∧ r.node = x ∧ c'.mutex = some (.rmSetNext r b) ∧
        c'.mem.tail = c.mem.tail) := by
  unfold HolderPc.Removing at hp ⊢
  unfold holderStep getStep GetCont.resume GetCont.event at hs
  repeat' split at hs
  all_goals grind [State.mutex_hold, State.mutex_withMem, State.mem_hold, State.mem_withMem,
    Mem.tail_setLink, Mem.tail_setPrev, Mem.tail_setTail, Mem.tail_setToken,
    Mem.tail_setParkedNext]

theorem holderStep_returning [DecidableEq S] [QueueState S] {p : HolderPc S} {b : Bool}
    (hp : p.Returning x b) (hs : holderStep cfg c p = some (c', e)) :
    c'.mem.tail = c.mem.tail ∧ ((e = .tau ∧ ∃ r, c'.mutex = some (.rmDone r b) ∧ r.node = x) ∨
      e = .removed x b ∧ c'.mem.prev (.node x) = .one ∧
        (c'.mutex = some .guard ∨ c'.mutex = some (.release (.node x)))) := by
  unfold HolderPc.Returning at hp
  cases p <;> simp only at hp
  case rmSetNext r y =>
    obtain ⟨rfl, rfl⟩ := hp
    simp only [holderStep, Option.some.injEq, Prod.mk.injEq] at hs
    obtain ⟨rfl, rfl⟩ := hs
    exact ⟨rfl, .inl ⟨rfl, r, rfl, rfl⟩⟩
  case rmDone r b' =>
    obtain ⟨rfl, rfl⟩ := hp
    simp only [holderStep, Option.some.injEq, Prod.mk.injEq] at hs
    obtain ⟨rfl, rfl⟩ := hs
    refine ⟨by simp, .inr ⟨rfl, by simp [RawNodeState.intoPtr], ?_⟩⟩
    unfold Removal.return
    cases r.caller <;> simp

/-! ## The events of the holder -/

theorem getStep_event {l : Loc} {g : GetPc} {k : GetCont S}
    (hs : getStep cfg c l g k = some (c', e)) : e = .tau ∨ ∃ x, e = .dequeue (some x) := by
  unfold getStep GetCont.event at hs
  repeat' split at hs
  all_goals grind

theorem holderStep_removes [DecidableEq S] [QueueState S] {p : HolderPc S}
    (hs : holderStep cfg c p = some (c', e)) (he : e.Removes x) : c'.leaving = some x := by
  cases p <;> simp only [holderStep, reduceCtorEq] at hs
  case get l g k => rcases getStep_event hs with rfl | ⟨y, rfl⟩ <;> simp [Event.Removes] at he
  case rmCas r =>
    split at hs <;> obtain ⟨rfl, rfl⟩ := hs <;>
      simp_all [Event.Removes, State.leaving, HolderPc.leaving]
  case rmSetPrev r b =>
    obtain ⟨rfl, rfl⟩ := hs
    simp_all [Event.Removes, State.leaving, HolderPc.leaving]
  case ddSetHead d b v flush =>
    obtain ⟨rfl, rfl⟩ := hs
    cases b <;> simp_all [Event.Removes, State.leaving, HolderPc.leaving]
  all_goals
    unfold Event.Removes at he
    grind

theorem holderCall_removes [QueueState S] {p : HolderPc S} {k : HolderCall S T}
    (hs : holderCall c p k = some (c', e)) : ¬ e.Removes x := by
  unfold holderCall guardCall drainLockedCall at hs
  unfold Event.Removes
  grind

end Aiq
