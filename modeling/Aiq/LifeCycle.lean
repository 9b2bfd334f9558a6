import Aiq.Draining

/-!
# The life cycle of a node

A node is enqueued, removed once by whoever comes first of its owner, a dequeuer, a popper and a
`Drain`, and then reset by its owner. The state word says where it is: apart from the moments in which
it is being inserted or removed it is `Queued` if and only if the node is in a list, and then it is in
exactly one (`Inv.queued_iff`). Only the owner makes a node `Unqueued` (`Sound.unqueued`), so the arms
of the source that are marked as unreachable are not reached (`node_life_cycle`).
-/

namespace Aiq

variable {S T : Type} {cfg : Config} {c c' : State S T} {a : Abs S} {e : Event S} {x : NodeId}

/-! ## One list at a time -/

/-- The nodes of a list. -/
def Abs.list (a : Abs S) : ListId → List NodeId
  | .queue => a.queue
  | .drain d => (a.drained d).rest

theorem mem_list_iff {i : ListId} : x ∈ a.list i ↔ .node x ∈ c.ch a i := by
  cases i with
  | queue => exact node_mem_chain_queue.symm
  | drain d => exact node_mem_chain_drain.symm

/-- The owner is inside the CAS loop of `enqueue`. -/
def OwnPc.inLoop : OwnPc S → Bool
  | .check _ _ _ | .refuse | .store _ _ _ | .cas _ _ _ => true
  | _ => false

/-- Outside of the CAS loop a node that is in no list is not marked as queued. -/
theorem Inv.rawState_ne_queued (h : Inv cfg c a) (ho : (c.own x).inLoop = false)
    (hx : Out (c.ch a) c.leaving x) : c.mem.rawState x ≠ .queued := by
  have hok := h.own x
  have key : c.mem.prev (.node x) = .one ∨ c.mem.prev (.node x) = .null →
      c.mem.rawState x ≠ .queued := by
    rintro (e | e) <;> simp [Mem.rawState, e, Ptr.state]
  cases hq : c.own x <;> rw [hq] at hok ho <;> simp only [OwnPc.inLoop, reduceCtorEq] at ho
  case dead => exact hok.2
  case idle | parkedLoad | unpark => exact key ((hok hx).imp id And.left)
  case unqueued => exact key (.inr hok.2.1)
  case dequeued => exact key (.inl hok.2)
  case resetNext => exact key (.inr hok.2)
  case waitState | waitDrop | locked => exact key (.inl (hok hx))
  case link p =>
    obtain ⟨i, hi, -⟩ := h.shape.pend_mem (x := x) (l := prevLoc p) (by simp [State.pend, hq, OwnPc.pend])
    exact absurd hi (hx.1 i)

/-- The state word of a node that is not being inserted or removed. -/
theorem Inv.queued_iff (h : Inv cfg c a) (hl : c.leaving ≠ some x) (ho : (c.own x).inLoop = false) :
    c.mem.rawState x = .queued ↔ ∃! i, x ∈ a.list i := by
  constructor
  · intro hq
    by_contra hne
    refine h.rawState_ne_queued ho ⟨fun i hi => hne ?_, hl⟩ hq
    exact ⟨i, mem_list_iff.2 hi, fun j hj => h.shape.disj (mem_list_iff.1 hj) hi⟩
  · rintro ⟨i, hi, -⟩
    exact h.shape.state_eq_queued (mem_list_iff.1 hi)

/-! ## One removal for an insertion -/

/-- The node `x` is marked as dequeued. -/
def Event.Dequeues (e : Event S) (x : NodeId) : Prop :=
  (∃ b, e = .removed x b) ∨ ∃ d, e = .drained d (.node x)

theorem holderStep_dequeues [DecidableEq S] [QueueState S] {p : HolderPc S}
    (hs : holderStep cfg c p = some (c', e)) (he : e.Dequeues x) :
    p.leaving = some x ∧ c'.mem.prev (.node x) = .one := by
  cases p <;> simp only [holderStep, reduceCtorEq] at hs
  case get l g k => rcases getStep_event hs with rfl | ⟨y, rfl⟩ <;> simp [Event.Dequeues] at he
  case rmDone r b =>
    obtain ⟨rfl, rfl⟩ := hs
    obtain rfl : r.node = x := by simpa [Event.Dequeues] using he
    exact ⟨rfl, by simp [RawNodeState.intoPtr]⟩
  case ddDone d b flush =>
    obtain ⟨rfl, rfl⟩ := hs
    obtain rfl : b = .node x := by simpa [Event.Dequeues] using he
    exact ⟨rfl, by simp [RawNodeState.intoPtr]⟩
  all_goals
    unfold Event.Dequeues at he
    grind

theorem holderCall_dequeues [QueueState S] {p : HolderPc S} {k : HolderCall S T}
    (hs : holderCall c p k = some (c', e)) : ¬ e.Dequeues x := by
  unfold holderCall guardCall drainLockedCall at hs
  unfold Event.Dequeues
  grind

theorem Abs.not_member_run {us : List (Transition S T)} (h : ¬ a.Member x)
    (he : ∀ u ∈ us, u.event ≠ .enqueue x) :
    ¬ (a.run us).Member x := by
  induction us generalizing a with
  | nil => exact h
  | cons u us ih =>
    refine ih (fun hm => h (Abs.member_apply hm (he u (by simp)))) fun w hw => he w (by simp [hw])

section Cycle

variable [DecidableEq S] [QueueState S] {t : Transition S T} {us : List (Transition S T)}

/-- A node is marked as dequeued at the end of its removal. -/
theorem Sound.dequeues (h : Sound cfg a t) (he : t.event.Dequeues x) :
    t.src.leaving = some x ∧ t.dst.mem.prev (.node x) = .one := by
  cases hk : t.act.isHolder with
  | false =>
    have hev := step_event hk h.step
    rcases he with ⟨b, he⟩ | ⟨d, he⟩ <;> simp [he, Event.byHolder] at hev
  | true =>
    obtain ⟨p, hp, ⟨-, hs⟩ | ⟨q, -, hs⟩⟩ := step_holder hk h.step
    · obtain ⟨hl, hm⟩ := holderStep_dequeues hs he
      exact ⟨by simp [State.leaving, hp, hl], hm⟩
    · exact absurd he (holderCall_dequeues hs)

/-- A node that has left its list is in no list. -/
theorem Sound.not_member (h : Sound cfg a t) (he : t.event.Removes x) :
    ¬ (a.apply t.event).Member x := by
  have hl := h.inv'.leaving_ok (h.leaving_of_removes he)
  rw [member_iff (f := t.dst.drains)]
  exact fun ⟨i, hi⟩ => hl.out i hi

variable {t' : Transition S T} {us' : List (Transition S T)}

/-- Between two removals of a node the node is enqueued. -/
theorem Exec.enqueue_between (h : Exec cfg c (t :: us ++ t' :: us') c')
    (hc : ∀ u ∈ t :: us ++ t' :: us', u.Clean) (hi : Inv cfg c a)
    (ht : t.event.Removes x ∧ t'.event.Removes x ∨ t.event.Dequeues x ∧ t'.event.Dequeues x) :
    ∃ u ∈ us, u.event = .enqueue x := by
  by_contra hne
  have he : ∀ u ∈ us, u.event ≠ .enqueue x := fun u hu e => hne ⟨u, hu, e⟩
  obtain ⟨hs, h₁⟩ := Exec.at_head h hc hi
  have hc₁ : ∀ u ∈ us ++ t' :: us', u.Clean := fun u hu => hc u (List.mem_cons_of_mem _ hu)
  obtain ⟨h₂, hs', -⟩ := Exec.at_step h₁ hc₁ hs.inv'
  rcases ht with ⟨ht, ht'⟩ | ⟨ht, ht'⟩
  · exact Abs.not_member_run (hs.not_member ht) he (Abs.member_of_removes ht' hs'.allows)
  · have hout := hs.inv'.out_of_rawState (x := x) (by
      simp [Mem.rawState, (hs.dequeues ht).2, Ptr.state])
    refine (Exec.out h₂ ?_ hs.inv' hout he).2 (hs'.dequeues ht').1
    exact fun u hu => hc₁ u (List.mem_append_left _ hu)

/-! ## The owner -/

/-- Only the owner of a node makes it `Unqueued`. -/
theorem Sound.unqueued (h : Sound cfg a t) (hx : t.src.mem.rawState x ≠ .unqueued)
    (hx' : t.dst.mem.rawState x = .unqueued) :
    (∃ w, t.act = .owner x w) ∨ ∃ q, t.act = .ownerCall x q := by
  have hne : t.dst.mem.prev (.node x) ≠ t.src.mem.prev (.node x) := fun e =>
    hx (by rw [Mem.rawState, ← e]; exact hx')
  cases hk : t.act.isHolder with
  | false =>
    rcases step_prev hk h.step x with e | ⟨hw, -⟩ | ⟨hq, -⟩
    · exact absurd e hne
    · exact .inl hw
    · exact .inr hq
  | true =>
    obtain ⟨p, hp, ⟨-, hs⟩ | ⟨q, -, hs⟩⟩ := step_holder hk h.step
    · have hk := h.inv.holder hp
      rcases holderStep_prev hs x with e | ⟨-, e⟩ | ⟨r, rfl⟩ | ⟨d, rfl⟩
      · exact absurd e hne
      · simp [Mem.rawState, e, Ptr.state] at hx'
      · obtain ⟨⟨i, hr, -⟩, -⟩ := hk
        obtain ⟨hd, -⟩ := Prod.mk.inj (Option.some.inj hs)
        simp [Mem.rawState, ← hd, hr.prev, state_inPrev] at hx'
      · obtain ⟨hd, -⟩ := Prod.mk.inj (Option.some.inj hs)
        simp [Mem.rawState, ← hd, Ptr.state] at hx'
    · exact absurd (holderCall_prev hs x) hne

/-- The raw state that `state_from_raw` finds under the lock. -/
theorem Inv.recheck_ne (h : Inv cfg c a) (hm : c.mutex = some (.recheck x)) :
    c.mem.rawState x ≠ .unqueued := fun hx => by
  have hs : Aiq.step cfg c .holder = some (c.hold .fault, .tau) := by
    simp [Aiq.step, hm, Aiq.holderStep, hx]
  exact (Inv.step (t := ⟨c, .holder, .tau, c.hold .fault⟩) h trivial hs).2.holder rfl

/-- The tail that `Drain::new` swaps. -/
theorem Inv.drainSwap_tail (h : Inv cfg c a) {d : DrainId} {b : Addr} {s : S}
    (hm : c.mutex = some (.drainSwap d b s)) (s' : S) : c.mem.tail ≠ .state s' := fun ht => by
  have hs : Aiq.step cfg c .holder = some (c.hold .fault, .tau) := by
    simp [Aiq.step, hm, Aiq.holderStep, ht]
  exact (Inv.step (t := ⟨c, .holder, .tau, c.hold .fault⟩) h trivial hs).2.holder rfl

variable {s : S} {v : T} {ts : List (Transition S T)}

/-- **The life cycle of a node.** In every execution without unwinding closures: between two removals
of a node it is enqueued; the raw state is `Queued` if and only if the node is in exactly one list,
unless the owner is inside the CAS loop of `enqueue` or the holder of the lock is removing the node;
only the owner makes it `Unqueued`; and `state_from_raw` does not find the node `Unqueued` under the
lock, nor `Drain::new` a state in the tail. -/
theorem node_life_cycle (h : Exec cfg (.init s v) ts c) (hc : ∀ t ∈ ts, t.Calm) (x : NodeId) :
    (∀ ts₁ t us t' ts₂, ts = ts₁ ++ (t :: us ++ t' :: ts₂) →
      t.event.Removes x ∧ t'.event.Removes x ∨ t.event.Dequeues x ∧ t'.event.Dequeues x →
      ∃ u ∈ us, u.event = .enqueue x) ∧
    (c.leaving ≠ some x → (c.own x).inLoop = false →
      (c.mem.rawState x = .queued ↔ ∃! i, x ∈ ((Abs.init s).run ts).list i)) ∧
    (∀ t ∈ ts, t.src.mem.rawState x ≠ .unqueued → t.dst.mem.rawState x = .unqueued →
      (∃ w, t.act = .owner x w) ∨ ∃ q, t.act = .ownerCall x q) ∧
    (c.mutex = some (.recheck x) → c.mem.rawState x ≠ .unqueued) ∧
    (∀ d b s', c.mutex = some (.drainSwap d b s') → ∀ s'', c.mem.tail ≠ .state s'') ∧
    c.mutex ≠ some .fault := by
  have hclean := Exec.clean h hc
  have hi := Exec.inv h hclean
  refine ⟨?_, hi.queued_iff, ?_, hi.recheck_ne, fun d b s' hm => hi.drainSwap_tail hm,
    fun hm => hi.holder hm⟩
  · rintro ts₁ t us t' ts₂ rfl ht
    obtain ⟨c₁, h₁, h₂⟩ := Lts.Run.split h
    have hi₁ := Exec.inv h₁ fun t ht => hclean t (List.mem_append_left _ ht)
    exact Exec.enqueue_between h₂ (fun t ht => hclean t (List.mem_append_right _ ht)) hi₁ ht
  · intro t ht
    obtain ⟨ts₁, ts₂, rfl⟩ := List.append_of_mem ht
    obtain ⟨-, hs, -⟩ := Exec.at_step h hclean (Inv.init cfg s v)
    exact hs.unqueued

end Cycle

/-- A node is dequeued, reset and enqueued again. -/
def dequeueAndReenqueue : List (Act ℕ Unit) :=
  insertActs 0 () ++ [.owner 0 false, .lock, .holderCall .dequeue, .holder, .holderCall .drop,
    .holder, .holder, .holder, .holder, .holderCall .unlock, .ownerCall 0 .state,
    .ownerCall 0 .reset, .owner 0 false, .ownerCall 0 (.enqueue .always), .owner 0 false,
    .owner 0 false, .owner 0 false, .owner 0 false]

theorem node_life_cycle_dequeueAndReenqueue :
    let ts := trace ⟨.x86, 0⟩ (.init 7 ()) dequeueAndReenqueue
    let c := State.after (.init 7 ()) ts
    c.mem.rawState 0 = .queued ∧ (∃! i, 0 ∈ ((Abs.init 7).run ts).list i) ∧
      c.mutex ≠ some .fault := by
  intro ts c
  have h : (perform ⟨.x86, 0⟩ (.init 7 ()) dequeueAndReenqueue).isSome := by decide +kernel
  have hq : c.mem.rawState 0 = .queued := by decide +kernel
  obtain ⟨-, hiff, -, -, -, hf⟩ := node_life_cycle (exec_trace h) (by decide +kernel) 0
  exact ⟨hq, (hiff (by decide +kernel) (by decide +kernel)).1 hq, hf⟩

end Aiq
