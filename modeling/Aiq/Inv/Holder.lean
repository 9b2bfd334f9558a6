import Aiq.Inv.Unlocked

/-!
# Steps of the holder

The steps of the holder of the mutex, put together: every instruction (`Inv.holderStep`) and every
call on the value held (`Inv.holderCall`) is allowed by the abstract queue and keeps the invariant.
-/

namespace Aiq

variable {S T : Type} {cfg : Config} {c c' : State S T} {a : Abs S} {p : HolderPc S} {e : Event S}
  {x : NodeId} {b : Addr} {d : DrainId}

/-! ## A node's owner under the lock -/

/-- The second load of the raw state in `state_from_raw`. -/
theorem Inv.recheck (h : Inv cfg c a) (hp : c.mutex = some (.recheck x)) :
    c.mem.rawState x = .queued ∧ Inv cfg (c.hold (.queued x)) a ∨
      c.mem.rawState x = .dequeued ∧ Inv cfg (c.hold (.release (.state x))) a := by
  have ho : c.own x = .locked := h.holder hp
  have hok : Out (c.ch a) c.leaving x → c.mem.prev (.node x) = .one := by
    have := h.own x
    rwa [ho] at this
  have hlv : c.leaving = none := by simp [State.leaving, hp, HolderPc.leaving]
  cases hr : c.mem.rawState x with
  | unqueued =>
    have := hok (h.out_of_rawState (by simp [hr]))
    simp [Mem.rawState, this, Ptr.state] at hr
  | queued =>
    refine .inl ⟨rfl, h.hold hp (.inl rfl) rfl (.inl rfl) rfl rfl ⟨ho, ?_⟩⟩
    by_contra hx
    have := hok ⟨fun i hi => hx ⟨i, hi⟩, by simp [hlv]⟩
    simp [Mem.rawState, this, Ptr.state] at hr
  | dequeued =>
    have hout := h.out_of_rawState (x := x) (by simp [hr])
    exact .inr ⟨rfl, h.hold hp (.inl rfl) rfl (.inl rfl) rfl rfl ⟨ho, hout.1, hok hout⟩⟩

/-- The second load of the raw state in `Node::dequeue`. -/
theorem Inv.dropRecheck [QueueState S] (h : Inv cfg c a) (hp : c.mutex = some (.dropRecheck x)) :
    Inv cfg (c.hold (if c.mem.rawState x = .queued then .rmPrev x QueueState.null false .nodeDrop
      else .release (.node x))) a := by
  have ho : c.own x = .locked := h.holder hp
  have hok : Out (c.ch a) c.leaving x → c.mem.prev (.node x) = .one := by
    have := h.own x
    rwa [ho] at this
  have hlv : c.leaving = none := by simp [State.leaving, hp, HolderPc.leaving]
  split
  · rename_i hr
    refine h.hold hp (.inl rfl) rfl (.inl rfl) rfl rfl ⟨?_, fun _ => ?_, fun _ => ho⟩
    · by_contra hx
      have := hok ⟨fun i hi => hx ⟨i, hi⟩, by simp [hlv]⟩
      simp [Mem.rawState, this, Ptr.state] at hr
    · simp [State.pend, ho, OwnPc.pend]
  · rename_i hr
    exact h.hold hp (.inl rfl) rfl (.inl rfl) rfl rfl ⟨ho, (h.out_of_rawState hr).1⟩

/-- The release of the mutex at the end of an operation. -/
theorem Inv.releaseStep (h : Inv cfg c a) {k : Release} (hp : c.mutex = some (.release k)) :
    Inv cfg (k.apply c) a := by
  have hk := h.holder hp
  have hlv : c.leaving = none := by simp [State.leaving, hp, HolderPc.leaving]
  cases k with
  | state x =>
    obtain ⟨ho, hx, hpx⟩ := hk
    exact (h.release hp rfl rfl rfl rfl rfl).ownerGoesOn ho (.inl rfl) rfl ⟨⟨hx, fun h => by cases h⟩, hpx⟩
  | node x =>
    have hout : Out (c.ch a) c.leaving x := ⟨hk.2, by simp [hlv]⟩
    have hx := h.own x
    rw [hk.1] at hx
    exact (h.release hp rfl rfl rfl rfl rfl).ownerGoesOn hk.1 (.inl rfl) rfl
      ⟨⟨hk.2, fun h => by cases h⟩, by simp [hx hout, Ptr.state]⟩
  | thread t =>
    refine h.move rfl rfl rfl rfl rfl h.own ?_ hlv.symm ?_ ?_ ?_ (fun h => by cases h)
    · intro y hy
      simp [State.hole, hp, HolderPc.hole] at hy
    · exact fun {l} hl => absurd hl (h.link_ne_one hp rfl l)
    · simp [hp, HolderPc.drainId, Release.apply]
    · intro t'
      by_cases e : t' = t
      · subst e
        simp [Release.apply, ThreadOk]
      · have : ThreadOk none t' (c.upd t') :=
          (h.thread t').of_ne (by simp [hp, HolderPc.threadId, Ne.symm e])
        simpa [Release.apply, e] using this

/-! ## The instructions -/

/-- An instruction of the holder. -/
theorem Inv.holderStep [DecidableEq S] [QueueState S] (h : Inv cfg c a) (hp : c.mutex = some p)
    (hs : holderStep cfg c p = some (c', e)) : a.Allows e ∧ Inv cfg c' (a.apply e) := by
  cases p <;> simp only [Aiq.holderStep, reduceCtorEq] at hs
  case get l g k => exact h.getStep hp hs
  case rmPrev x s w k =>
    obtain ⟨hq, h'⟩ := h.rmPrev hp
    rw [if_pos hq] at hs
    obtain ⟨rfl, rfl⟩ := hs
    exact ⟨trivial, h'⟩
  case rmNext r =>
    rcases h.rmNext hp with ⟨hl, h'⟩ | ⟨b, hl, h'⟩ <;> rw [hl] at hs <;> obtain ⟨rfl, rfl⟩ := hs <;>
      exact ⟨trivial, h'⟩
  case rmClear r =>
    obtain ⟨rfl, rfl⟩ := hs
    exact ⟨trivial, h.rmClear hp⟩
  case rmCas r =>
    split at hs <;> rename_i ht <;> obtain ⟨rfl, rfl⟩ := hs
    · exact h.removeLast hp ht
    · exact ⟨trivial, h.rmCasFail hp ht⟩
  case rmSetPrev r b =>
    obtain ⟨rfl, rfl⟩ := hs
    exact h.removeBefore hp
  case rmSetNext r b =>
    obtain ⟨rfl, rfl⟩ := hs
    exact ⟨trivial, h.rmSetNext hp⟩
  case rmDone r b =>
    obtain ⟨rfl, rfl⟩ := hs
    exact ⟨trivial, h.rmDone hp⟩
  case recheck x =>
    rcases h.recheck hp with ⟨hr, h'⟩ | ⟨hr, h'⟩ <;> rw [hr] at hs <;> obtain ⟨rfl, rfl⟩ := hs <;>
      exact ⟨trivial, h'⟩
  case dropRecheck x =>
    have h' := h.dropRecheck hp
    split at hs <;> rename_i hr <;> obtain ⟨rfl, rfl⟩ := hs <;> simp only [hr, if_true, if_false] at h' <;>
      exact ⟨trivial, h'⟩
  case release k =>
    obtain ⟨rfl, rfl⟩ := hs
    exact ⟨trivial, h.releaseStep hp⟩
  case drainClear d b s =>
    obtain ⟨rfl, rfl⟩ := hs
    exact ⟨trivial, h.drainClear hp⟩
  case drainSwap d b s =>
    obtain ⟨z, ht, hq, h'⟩ := h.drainSwap hp
    rw [ht] at hs
    obtain ⟨rfl, rfl⟩ := hs
    exact ⟨hq, h'⟩
  case ddPrev d b flush =>
    have h' := h.ddPrev hp
    split at hs <;> rename_i hr <;> obtain ⟨rfl, rfl⟩ := hs <;> simp only [hr, if_true, if_false] at h' <;>
      exact ⟨trivial, h'⟩
  case ddSetHead d b v flush =>
    obtain ⟨rfl, rfl⟩ := hs
    cases b with
    | node x => exact h.ddSetHead hp
    | sentinel s => exact ⟨trivial, h.ddSetHead_sentinel hp⟩
  case ddDone d b flush =>
    obtain ⟨rfl, rfl⟩ := hs
    exact ⟨trivial, h.ddDone hp⟩
  case exPrev d b =>
    obtain ⟨rfl, rfl⟩ := hs
    exact ⟨trivial, h.exPrev hp⟩
  case exTail d =>
    obtain ⟨z, hz, h'⟩ := h.exTail hp
    rw [hz] at hs
    obtain ⟨rfl, rfl⟩ := hs
    exact ⟨trivial, h'⟩
  case exTailStore d b =>
    obtain ⟨rfl, rfl⟩ := hs
    exact ⟨trivial, h.exTailStore hp⟩
  case exUnlock d linked =>
    obtain ⟨rfl, rfl⟩ := hs
    exact ⟨trivial, h.exUnlock hp⟩
  case exCheck d =>
    obtain ⟨rfl, rfl⟩ := hs
    exact ⟨trivial, h.exCheck hp⟩
  case exSetNull d =>
    obtain ⟨rfl, rfl⟩ := hs
    exact ⟨trivial, h.exSetNull hp⟩
  case dropLoop d =>
    rcases h.dropLoop hp with ⟨hl, h'⟩ | ⟨b, hl, h'⟩ <;> rw [hl] at hs <;> obtain ⟨rfl, rfl⟩ := hs <;>
      exact ⟨trivial, h'⟩
  case drainFree d =>
    obtain ⟨rfl, rfl⟩ := hs
    exact ⟨h.holder hp, h.drainFree hp⟩

/-! ## The calls -/

/-- The first node of a queue that is not empty. -/
theorem Inv.head_awaited (h : Inv cfg c a) {b : Addr} (ht : c.mem.tail = .ptr b) :
    ∃ y, (c.ch a .queue).head? = some y ∧ y ∈ c.ch a .queue ∧ inLoc (c.ch a) .queue y = .head := by
  have hq : a.queue ≠ [] := Abs.queue_ne_nil_of_tail (h.tail.symm.trans ht)
  obtain ⟨x, l, hx⟩ := List.exists_cons_of_ne_nil hq
  have hy : (c.ch a .queue).head? = some (.node x) := by simp [State.ch, chain, hx]
  exact ⟨_, hy, List.mem_of_head? hy, inLoc_of_head (h.shape.nodup _) hy⟩

/-- A call on a `LockedQueue`. -/
theorem Inv.guardCall (h : Inv cfg c a) {k : HolderCall S T} (hp : c.mutex = some .guard)
    (hs : guardCall c k = some (c', e)) : a.Allows e ∧ Inv cfg c' (a.apply e) := by
  cases k <;> simp only [Aiq.guardCall, reduceCtorEq] at hs
  case dequeue =>
    cases ht : c.mem.tail <;> rw [ht] at hs <;> obtain ⟨rfl, rfl⟩ := hs
    case state s =>
      obtain ⟨hq, -⟩ := Abs.tail_eq_state_iff.1 (h.tail.symm.trans ht)
      exact ⟨by simp [Abs.Allows, hq], h⟩
    case ptr b =>
      obtain ⟨y, hy, hm, hl⟩ := h.head_awaited ht
      exact ⟨trivial, h.hold hp (.inl rfl) rfl (.inl rfl) rfl rfl
        ⟨⟨.queue, y, hm, hl, rfl, hy⟩, trivial, by simp⟩⟩
  case pop =>
    cases ht : c.mem.tail
    case state s =>
      rw [ht] at hs
      obtain ⟨rfl, rfl⟩ := hs
      obtain ⟨hq, -⟩ := Abs.tail_eq_state_iff.1 (h.tail.symm.trans ht)
      exact ⟨by simp [Abs.Allows, hq], h⟩
    case ptr b =>
      obtain ⟨x, hx, rfl⟩ := Abs.tail_eq_ptr_iff.1 (h.tail.symm.trans ht)
      rw [ht] at hs
      obtain ⟨rfl, rfl⟩ := hs
      exact ⟨hx, h.hold hp (.inl rfl) rfl (.inl rfl) rfl rfl (List.mem_of_getLast? hx)⟩
  case drain d s =>
    split at hs
    · rename_i hd
      cases ht : c.mem.tail <;> rw [ht] at hs <;> obtain ⟨rfl, rfl⟩ := hs
      case state s =>
        obtain ⟨hq, -⟩ := Abs.tail_eq_state_iff.1 (h.tail.symm.trans ht)
        exact ⟨hq, h.drainEmpty hp hd⟩
      case ptr b =>
        obtain ⟨y, hy, hm, hl⟩ := h.head_awaited ht
        exact ⟨trivial, h.hold hp (.inl rfl) rfl (.inl rfl) rfl rfl
          ⟨⟨.queue, y, hm, hl, rfl, hy, hd⟩, trivial, by simp⟩⟩
    · simp at hs
  case unlock =>
    obtain ⟨rfl, rfl⟩ := hs
    exact ⟨trivial, h.release hp rfl rfl rfl rfl rfl⟩

/-- A call on a `Drain` that holds its lock. -/
theorem Inv.drainLockedCall (h : Inv cfg c a) {k : HolderCall S T} (hp : c.mutex = some (.drain d))
    (hs : drainLockedCall c d k = some (c', e)) : a.Allows e ∧ Inv cfg c' (a.apply e) := by
  have hex : Exhausted c a d := h.holder hp
  have hch := ch_drain_of_lk (a := a) (h.lk_held hp rfl)
  have key : (∃ x, (a.drained d).rest.head? = some x ∧
      c.mem.link (.next (.sentinel d)) = .to (.node x)) ∨
      (a.drained d).rest = [] ∧ c.mem.link (.next (.sentinel d)) = .null := by
    rcases h.head_cases hp rfl rfl with hx | ⟨hr, -⟩
    · exact .inl hx
    · exact .inr ⟨hr, hex hr⟩
  cases k <;> simp only [Aiq.drainLockedCall, reduceCtorEq] at hs
  case next =>
    rcases key with ⟨x, hx, hl⟩ | ⟨hr, hl⟩ <;> rw [hl] at hs <;> obtain ⟨rfl, rfl⟩ := hs
    · exact ⟨by simp [Abs.Allows, hx], h.hold hp (.inl rfl) rfl (.inl rfl) rfl rfl
        (by simp [HolderOk, hch, hx])⟩
    · exact ⟨by simp [Abs.Allows, hr], h⟩
  case executeUnlocked =>
    rcases key with ⟨x, hx, hl⟩ | ⟨hr, hl⟩ <;> rw [hl] at hs <;> obtain ⟨rfl, rfl⟩ := hs
    · exact ⟨trivial, h.hold hp (.inl rfl) rfl (.inl rfl) rfl rfl (by simp [HolderOk, hch, hx])⟩
    · exact ⟨trivial, h.hold hp (.inl rfl) rfl (.inl rfl) rfl rfl ⟨hr, hl⟩⟩
  case dropDrain =>
    rcases key with ⟨x, hx, hl⟩ | ⟨hr, hl⟩ <;> simp only [hl, reduceCtorEq, if_true, if_false] at hs <;>
      obtain ⟨rfl, rfl⟩ := hs
    · exact ⟨trivial, h.hold hp (.inl rfl) rfl (.inl rfl) rfl rfl trivial⟩
    · exact ⟨trivial, h.hold hp (.inl rfl) rfl (.inl rfl) rfl rfl hr⟩

/-- A call of the holder on the value it holds. -/
theorem Inv.holderCall [QueueState S] (h : Inv cfg c a) {k : HolderCall S T} (hp : c.mutex = some p)
    (hs : holderCall c p k = some (c', e)) : a.Allows e ∧ Inv cfg c' (a.apply e) := by
  have hk := h.holder hp
  cases p
  case guard => exact h.guardCall hp hs
  case drain d => exact h.drainLockedCall hp hs
  case dequeue x =>
    obtain ⟨hx, hn⟩ := hk
    have hm : .node x ∈ c.ch a .queue := node_mem_chain_queue.2 (List.mem_of_head? hx)
    have hx' : (c.ch a .queue).head? = some (.node x) := by simp [State.ch, chain, hx]
    have hr : ∀ s, Removing c a ⟨x, s, headMarker, .handle⟩ .queue := fun s =>
      ⟨hm, (inPrev_of_head (h.shape.nodup _) hx').symm, fun hc => absurd rfl hc⟩
    cases k <;> simp only [Aiq.holderCall, reduceCtorEq] at hs <;> obtain ⟨rfl, rfl⟩ := hs
    case drop => exact ⟨trivial, h.hold hp (.inl rfl) rfl (.inl rfl) rfl rfl ⟨⟨_, hr _⟩, hn⟩⟩
    case trySetQueueState s =>
      exact ⟨trivial, h.hold hp (.inl rfl) rfl (.inl rfl) rfl rfl ⟨⟨_, hr _⟩, hn⟩⟩
    case requeue =>
      exact ⟨List.mem_of_head? hx, h.hold hp (.inl rfl) rfl (.inl rfl) rfl rfl trivial⟩
    case withDataMut g => exact ⟨trivial, h.setData _ _⟩
  case pop x =>
    have hm : .node x ∈ c.ch a .queue := node_mem_chain_queue.2 hk
    have hr : ∀ s, HolderOk cfg c a (.rmPrev x s true .handle) := fun s =>
      ⟨⟨_, hm⟩, by simp, fun hc => absurd rfl hc⟩
    cases k <;> simp only [Aiq.holderCall, reduceCtorEq] at hs <;> obtain ⟨rfl, rfl⟩ := hs
    case drop => exact ⟨trivial, h.hold hp (.inl rfl) rfl (.inl rfl) rfl rfl (hr _)⟩
    case trySetQueueState s => exact ⟨trivial, h.hold hp (.inl rfl) rfl (.inl rfl) rfl rfl (hr _)⟩
    case requeue => exact ⟨hk, h.hold hp (.inl rfl) rfl (.inl rfl) rfl rfl trivial⟩
    case withDataMut g => exact ⟨trivial, h.setData _ _⟩
  case queued x =>
    obtain ⟨ho, i, hi⟩ := hk
    have hr : ∀ s, HolderOk cfg c a (.rmPrev x s false .queued) := fun s =>
      ⟨⟨i, hi⟩, fun _ => by simp [State.pend, ho, OwnPc.pend], fun _ => ho⟩
    cases k <;> simp only [Aiq.holderCall, reduceCtorEq] at hs <;> obtain ⟨rfl, rfl⟩ := hs
    case drop =>
      exact ⟨trivial, (h.release hp rfl rfl rfl rfl rfl).ownerGoesOn ho (.inl rfl) rfl
        fun hout => absurd hi (hout.1 i)⟩
    case dequeueSelf => exact ⟨trivial, h.hold hp (.inl rfl) rfl (.inl rfl) rfl rfl (hr _)⟩
    case dequeueTrySetQueueState s =>
      exact ⟨trivial, h.hold hp (.inl rfl) rfl (.inl rfl) rfl rfl (hr _)⟩
    case withDataMut g => exact ⟨trivial, h.setData _ _⟩
  case drained d b =>
    have hb : (c.ch a (.drain d)).head? = some b := hk
    cases k <;> simp only [Aiq.holderCall, reduceCtorEq] at hs
    case drop =>
      obtain ⟨rfl, rfl⟩ := hs
      exact ⟨trivial, h.hold hp (.inl rfl) rfl (.inl rfl) rfl rfl (.inl hb)⟩
    case requeue =>
      obtain ⟨rfl, rfl⟩ := hs
      refine ⟨trivial, h.hold hp (.inl rfl) rfl (.inl rfl) rfl rfl fun hr => ?_⟩
      simp [ch_drain_of_lk (h.lk_held hp rfl), hr] at hb
    case withDataMut g =>
      cases b with
      | node x =>
        obtain ⟨rfl, rfl⟩ := hs
        exact ⟨trivial, h.setData _ _⟩
      | sentinel s => simp at hs
  all_goals simp only [Aiq.holderCall, reduceCtorEq] at hs

end Aiq
