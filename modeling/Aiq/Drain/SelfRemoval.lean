import Aiq.Drain.Log

/-!
# Self-removals of drained nodes

While a `Drain` has released its lock, the owners of its nodes may remove them. They run the ordinary
`remove_with_prev`, tail CAS included, but the list of a `Drain` that is not locked is circular, so the
CAS never finds the node as the tail: nothing of the queue or of another `Drain` changes
(`Exec.selfRemovalsLocal`). Nobody else removes a drained node behind the back of its `Drain`
(`Sound.byOwner_of_remove`).
-/

namespace Aiq

variable {S T : Type} {cfg : Config} {c c' : State S T} {a : Abs S} {e : Event S} {d : DrainId}
  {x : NodeId}

/-! ## Removals of drained nodes -/

/-- `remove_with_prev` runs on `x`. -/
def HolderPc.Removes (p : HolderPc S) (x : NodeId) : Prop :=
  (∃ s, p.Removing x s) ∨ ∃ b, p.Returning x b

/-- The removal of the drained node `x`, as far as it has come. -/
def DrainedRemoval (c : State S T) (a : Abs S) (d : DrainId) (x : NodeId) : Prop :=
  (∃ p s, c.mutex = some p ∧ p.Removing x s ∧ x ∈ (a.drained d).rest) ∨
    ∃ p b, c.mutex = some p ∧ p.Returning x b ∧ ∀ r y, p = .rmSetNext r y → r.prevNext ≠ .head

theorem inLoc_drain_ne_head {ch : ListId → List Addr} {y : Addr} :
    inLoc ch (.drain d) y ≠ .head := by
  unfold inLoc
  cases (ch (.drain d)).predOf y <;> simp [ListId.firstLoc]

/-- The holder writes `head` in `get_next(head)`, in a removal and in `Drain::new`. -/
theorem holderStep_head [DecidableEq S] [QueueState S] {p : HolderPc S}
    (hs : holderStep cfg c p = some (c', e)) (hg : ∀ g k, p ≠ .get .head g k)
    (hc : ∀ r, p = .rmClear r → r.prevNext ≠ .head)
    (hn : ∀ r y, p = .rmSetNext r y → r.prevNext ≠ .head) (hd : ∀ d b s, p ≠ .drainClear d b s) :
    c'.mem.link .head = c.mem.link .head := by
  have key := fun (m : Mem S T) l v => Mem.link_setLink m l .head v
  cases p <;> simp only [holderStep, reduceCtorEq] at hs
  case get l g k =>
    have hl : Loc.head ≠ l := by
      rintro rfl
      exact hg g k rfl
    unfold getStep at hs
    grind [State.mem_hold, State.mem_withMem, Mem.link_setToken, Mem.link_setParkedNext]
  case rmDone r b =>
    obtain ⟨rfl, rfl⟩ := hs
    rw [mem_return]
    rfl
  case drainSwap d b s =>
    split at hs <;> obtain ⟨rfl, rfl⟩ := hs
    · simp [Mem.newSentinel, Mem.link_setLink]
    · rfl
  all_goals
    grind [State.mem_hold, State.mem_withMem, Mem.link_setPrev, Mem.link_setTail, mem_release,
      State.mem_free, State.mem_setDrain]

/-- The step changes neither the queue nor the list of another `Drain` than `d`. -/
structure LeavesQueue (a : Abs S) (d : DrainId) (t : Transition S T) : Prop where
  tail : t.dst.mem.tail = t.src.mem.tail
  head : t.dst.mem.link .head = t.src.mem.link .head
  queue : (a.apply t.event).queue = a.queue
  state : (a.apply t.event).state = a.state
  drained : ∀ d' ≠ d, (a.apply t.event).drained d' = a.drained d'

theorem Abs.drained_of_byHolder (h : e.byHolder = false) : (a.apply e).drained = a.drained := by
  cases e <;> simp_all [Event.byHolder, apply]

theorem Inv.eq_drain (h : Inv cfg c a) {i : ListId} (hx : x ∈ (a.drained d).rest)
    (hi : .node x ∈ c.ch a i) : i = .drain d :=
  h.shape.disj hi (node_mem_chain_drain.2 hx)

/-- A drained node is not in the queue, and in no other list. -/
theorem Inv.not_mem_queue (h : Inv cfg c a) (hx : x ∈ (a.drained d).rest) : x ∉ a.queue := fun hq =>
  nomatch h.eq_drain hx (i := .queue) (node_mem_chain_queue.2 hq)

theorem Inv.not_mem_rest (h : Inv cfg c a) (hx : x ∈ (a.drained d).rest) {d' : DrainId}
    (hd : d' ≠ d) : x ∉ (a.drained d').rest := fun hx' => by
  have := h.eq_drain hx (i := .drain d') (node_mem_chain_drain.2 hx')
  exact hd (ListId.drain.inj this)

/-- The links that the removal of a drained node writes are not `head`. -/
theorem Inv.removing_head (h : Inv cfg c a) {p : HolderPc S} (hp : c.mutex = some p) {s : S}
    (hr : p.Removing x s) (hx : x ∈ (a.drained d).rest) :
    (∀ g k, p ≠ .get .head g k) ∧ (∀ r, p = .rmClear r → r.prevNext ≠ .head) ∧
      ∀ r y, p = .rmSetPrev r y → r.prevNext ≠ .head := by
  have hk := h.holder hp
  have hrem : ∀ {r : Removal S} {i}, r.node = x → Removing c a r i → r.prevNext ≠ .head := by
    rintro r i rfl hr
    rw [hr.prevNext, h.eq_drain hx hr.mem]
    exact inLoc_drain_ne_head
  refine ⟨?_, ?_, ?_⟩
  · rintro g k rfl
    obtain ⟨⟨i, y, -, hl, haw⟩, -⟩ := hk
    have hi : i = .drain d := by
      cases k <;> simp only [HolderPc.Removing] at hr
      case waitEnqueued r => exact h.eq_drain hx (hr.1 ▸ haw.2.mem)
      case relink r => exact h.eq_drain hx (hr.1 ▸ haw.2.1.mem)
    rw [hi] at hl
    exact inLoc_drain_ne_head hl
  · rintro r rfl
    obtain ⟨⟨i, hi⟩, -⟩ := hk
    exact hrem hr.1 hi
  · rintro r y rfl
    obtain ⟨⟨i, hi, -⟩, -⟩ := hk
    exact hrem hr.1 hi

section SelfRemoval

variable [DecidableEq S] [QueueState S] {t : Transition S T} {p : HolderPc S}

/-- A step of the removal of a drained node that is still in its list. -/
theorem Sound.drainedRemoving (h : Sound cfg a t) (hp : t.src.mutex = some p) {s : S}
    (hs : holderStep cfg t.src p = some (t.dst, t.event)) (hr : p.Removing x s)
    (hx : x ∈ (a.drained d).rest) :
    LeavesQueue a d t ∧ DrainedRemoval t.dst (a.apply t.event) d x := by
  obtain ⟨hg, hcl, hsp⟩ := h.inv.removing_head hp hr hx
  have hhead := holderStep_head hs hg hcl (by rintro r y rfl; exact hr.elim)
    (by rintro d b s rfl; exact hr.elim)
  have hq := h.inv.not_mem_queue hx
  rcases holderStep_removing hr hs with ⟨he, ht, ⟨q, hm, hq⟩, -⟩ | ⟨he, hcas⟩
  · have happ : a.apply t.event = a := by rw [he]; rfl
    rw [happ]
    refine ⟨⟨ht, hhead, by rw [happ], by rw [happ], fun d' _ => by rw [happ]⟩, .inl ⟨q, s, hm, ?_, hx⟩⟩
    refine hq.resolve_right ?_
    rintro rfl
    exact h.inv'.holder hm
  · rcases hcas with ⟨r, rfl, rfl, rfl, ht, -⟩ | ⟨r, y, rfl, rfl, hm, ht⟩
    -- the tail CAS fails, since the node is not the last of the queue
    · rw [h.inv.tail] at ht
      obtain ⟨z, hz, e⟩ := Abs.tail_eq_ptr_iff.1 ht
      obtain rfl := Addr.node.inj e
      exact absurd (List.mem_of_getLast? hz) hq
    · refine ⟨⟨ht, hhead, ?_, ?_, fun d' hd' => ?_⟩, .inr ⟨_, false, hm, ⟨rfl, rfl⟩, ?_⟩⟩
      · rw [he]
        exact List.erase_of_not_mem hq
      · rw [he]
        exact if_neg fun e => hq (by simp [e])
      · rw [he]
        exact if_neg (h.inv.not_mem_rest hx hd')
      · intro r' y' e
        obtain ⟨rfl, rfl⟩ := HolderPc.rmSetNext.inj e
        exact hsp r y rfl

/-- A step of the removal of a drained node that has left its list. -/
theorem Sound.drainedReturning {b : Bool} (hp : t.src.mutex = some p)
    (hs : holderStep cfg t.src p = some (t.dst, t.event)) (hr : p.Returning x b)
    (hn : ∀ r y, p = .rmSetNext r y → r.prevNext ≠ .head) :
    LeavesQueue a d t ∧ ((∃ q, t.dst.mutex = some q ∧ q.Removes x) →
      DrainedRemoval t.dst (a.apply t.event) d x) := by
  have hhead := holderStep_head hs (by rintro g k rfl; exact hr.elim)
    (by rintro r rfl; exact hr.elim) hn (by rintro d b s rfl; exact hr.elim)
  obtain ⟨ht, he⟩ := holderStep_returning hr hs
  have happ : a.apply t.event = a := by
    rcases he with ⟨he, -⟩ | ⟨he, -⟩ <;> rw [he] <;> rfl
  refine ⟨⟨ht, hhead, by rw [happ], by rw [happ], fun d' _ => by rw [happ]⟩, ?_⟩
  rintro ⟨q, hm, hq⟩
  rcases he with ⟨-, r, hm', rfl⟩ | ⟨-, -, hm' | hm'⟩
  · exact .inr ⟨_, b, hm', ⟨rfl, rfl⟩, by simp⟩
  all_goals
    obtain rfl := Option.some.inj (hm.symm.trans hm')
    rcases hq with ⟨s, hq⟩ | ⟨b, hq⟩ <;> exact hq.elim

/-- A step during the removal of a drained node. -/
theorem Sound.drainedRemoval (h : Sound cfg a t) (hd : DrainedRemoval t.src a d x) :
    (t.act.isHolder = true → LeavesQueue a d t) ∧ ((∃ q, t.dst.mutex = some q ∧ q.Removes x) →
      DrainedRemoval t.dst (a.apply t.event) d x) := by
  cases hk : t.act.isHolder with
  | false =>
    refine ⟨by simp, fun _ => ?_⟩
    have hdr := Abs.drained_of_byHolder (a := a) (step_event hk h.step)
    rcases hd with ⟨p, s, hm, hr, hx⟩ | ⟨p, b, hm, hr, hn⟩
    · exact .inl ⟨p, s, h.inv.mutex_step hm (by rintro u rfl; exact hr) hk h.step, hr, hdr ▸ hx⟩
    · exact .inr ⟨p, b, h.inv.mutex_step hm (by rintro u rfl; exact hr) hk h.step, hr, hn⟩
  | true =>
    obtain ⟨p, hp, hs⟩ := step_holder hk h.step
    rcases hd with ⟨p', s, hm, hr, hx⟩ | ⟨p', b, hm, hr, hn⟩ <;>
      obtain rfl : p = p' := Option.some.inj (hp.symm.trans hm) <;>
      rcases hs with ⟨-, hs⟩ | ⟨q, -, hs⟩
    · obtain ⟨hl, hd'⟩ := h.drainedRemoving hp hs hr hx
      exact ⟨fun _ => hl, fun _ => hd'⟩
    · simp [hr.holderCall] at hs
    · obtain ⟨hl, hd'⟩ := Sound.drainedReturning hp hs hr hn
      exact ⟨fun _ => hl, hd'⟩
    · simp [hr.holderCall] at hs

/-- The removals of the nodes of `d` by their owners in the steps `us` change neither the queue nor
another `Drain`: `w` is the first step of such a removal, and `ws` are the steps that follow it until
it returns. -/
def SelfRemovalsLocal (a : Abs S) (d : DrainId) (us : List (Transition S T)) : Prop :=
  ∀ us₁ w ws us₂ x s k, us = us₁ ++ (w :: ws) ++ us₂ → w.src.mutex = some (.rmPrev x s false k) →
    x ∈ ((a.run us₁).drained d).rest → (∀ u ∈ ws, ∃ p, u.src.mutex = some p ∧ p.Removes x) →
    ∀ ws₁ u ws₂, w :: ws = ws₁ ++ u :: ws₂ → u.act.isHolder = true →
      LeavesQueue (a.run (us₁ ++ ws₁)) d u

theorem Exec.selfRemovalsLocal {us : List (Transition S T)} (h : Exec cfg c us c')
    (hc : ∀ t ∈ us, t.Clean) (hi : Inv cfg c a) : SelfRemovalsLocal a d us := by
  rintro us₁ w ws us₂ x s k rfl hw hx hws ws₁ u ws₂ hsplit hu
  have hrem : ∀ u ∈ w :: ws, ∃ p, u.src.mutex = some p ∧ p.Removes x := by
    intro u hu
    rcases List.mem_cons.1 hu with rfl | hu
    · exact ⟨_, hw, .inl ⟨s, rfl, rfl⟩⟩
    · exact hws u hu
  rw [List.append_assoc] at h hc
  obtain ⟨c₁, h₁, h₂⟩ := Lts.Run.split h
  have hc₂ : ∀ u ∈ (w :: ws) ++ us₂, u.Clean := fun u hu => hc u (List.mem_append_right _ hu)
  have hi₁ := Exec.inv_run h₁ (fun u hu => hc u (List.mem_append_left _ hu)) hi
  obtain ⟨c₂, ⟨rfl, -⟩, -⟩ := h₂.cons_inv
  rw [hsplit] at h₂ hc₂ hrem
  rw [List.append_assoc, List.cons_append] at h₂ hc₂
  obtain ⟨h₃, hs, -⟩ := Exec.at_step h₂ hc₂ hi₁
  -- the removal is under way in every state in which the holder is inside `remove_with_prev`
  have key : (∃ q, u.src.mutex = some q ∧ q.Removes x) →
      DrainedRemoval u.src (((a.run us₁)).run ws₁) d x := by
    refine Exec.induct (P := fun vs c => (∃ q, c.mutex = some q ∧ q.Removes x) →
      DrainedRemoval c ((a.run us₁).run vs) d x) h₃ (fun u hu => hc₂ u (List.mem_append_left _ hu)) hi₁
      (fun _ => .inl ⟨_, s, hw, ⟨rfl, rfl⟩, hx⟩) ?_
    intro vs v hv hs hd hq
    rw [Abs.run_append]
    exact (hs.drainedRemoval (hd (hrem v (List.mem_append_left _ hv)))).2 hq
  rw [Abs.run_append]
  exact (hs.drainedRemoval (key (hrem u (by simp)))).1 hu

end SelfRemoval

/-! ## Who removes drained nodes -/

/-- The owner of `x` has removed it from the list of `d`. -/
def SelfRemoved (a : Abs S) (d : DrainId) (us : List (Transition S T)) (x : NodeId) : Prop :=
  ∃ us₁ u us₂ s, us = us₁ ++ u :: us₂ ∧ u.event = .remove x s ∧ u.act.ByOwner u.src x ∧
    x ∈ ((a.run us₁).drained d).rest

theorem selfRemoved_concat {us : List (Transition S T)} {t : Transition S T} :
    SelfRemoved a d (us ++ [t]) x ↔
    SelfRemoved a d us x ∨
      ∃ s, t.event = .remove x s ∧ t.act.ByOwner t.src x ∧ x ∈ ((a.run us).drained d).rest := by
  constructor
  · rintro ⟨us₁, u, us₂, s, hsplit, he⟩
    rcases List.eq_nil_or_concat us₂ with rfl | ⟨us₂, w, rfl⟩
    · obtain ⟨rfl, hu⟩ := List.append_inj' hsplit rfl
      obtain rfl : t = u := by simpa using hu
      exact .inr ⟨s, he⟩
    · rw [List.concat_eq_append, ← List.cons_append, ← List.append_assoc] at hsplit
      obtain ⟨rfl, -⟩ := List.append_inj' hsplit rfl
      exact .inl ⟨us₁, u, us₂, s, rfl, he⟩
  · rintro (⟨us₁, u, us₂, s, rfl, he⟩ | ⟨s, he⟩)
    · exact ⟨us₁, u, us₂ ++ [t], s, by simp, he⟩
    · exact ⟨us, t, [], s, rfl, he⟩

theorem Abs.mem_left_apply (he : ¬ e.Starts d) : x ∈ ((a.apply e).drained d).left ↔
    x ∈ (a.drained d).left ∨ (∃ s, e = .remove x s) ∧ x ∈ (a.drained d).rest := by
  by_cases hr : ∃ y s, e = .remove y s
  · obtain ⟨y, s, rfl⟩ := hr
    simp only [apply, DrainLog.leave]
    split <;> grind
  · have hleft : ((a.apply e).drained d).left = (a.drained d).left := by
      rcases drained_apply (a := a) he with h | ⟨y, s, hev, -⟩ | ⟨y, flush, -, h⟩
      · rw [h]
      · exact absurd ⟨y, s, hev⟩ hr
      · rw [h]
        cases flush <;> rfl
    rw [hleft]
    refine (or_iff_left ?_).symm
    rintro ⟨⟨s, hev⟩, -⟩
    exact hr ⟨x, s, hev⟩

/-- The node that a dropped `Dequeue` or `Pop` is removing. -/
def HolderPc.handled : HolderPc S → Option NodeId
  | .rmPrev x _ _ k => if k = .handle then some x else none
  | .get _ _ (.waitEnqueued r) | .rmNext r | .rmClear r | .rmCas r | .get _ _ (.relink r)
  | .rmSetPrev r _ => if r.caller = .handle then some r.node else none
  | _ => none

/-- A `Dequeue` or `Pop` removes a node of the queue. -/
def HandleOk (c : State S T) (a : Abs S) : Prop :=
  ∀ x, c.mutex.bind HolderPc.handled = some x → x ∈ a.queue

theorem holderStep_handled [DecidableEq S] [QueueState S] {p : HolderPc S}
    (hs : holderStep cfg c p = some (c', e)) (h : c'.mutex.bind HolderPc.handled = some x) :
    p.handled = some x ∧ e = .tau := by
  unfold HolderPc.handled at h ⊢
  unfold holderStep getStep GetCont.resume GetCont.event Removal.return Release.apply at hs
  repeat' split at hs
  all_goals grind [State.mutex_hold, State.mutex_withMem, State.mutex_free, State.mutex_setOwn,
    State.mutex_setDrain, State.mutex_setUpd]

theorem holderCall_handled [QueueState S] {p : HolderPc S} {k : HolderCall S T}
    (hp : c.mutex = some p) (hs : holderCall c p k = some (c', e))
    (h : c'.mutex.bind HolderPc.handled = some x) :
    (p = .dequeue x ∨ p = .pop x) ∧ e = .tau := by
  unfold HolderPc.handled at h
  unfold holderCall guardCall drainLockedCall at hs
  repeat' split at hs
  all_goals grind [State.mutex_hold, State.mutex_withMem, State.mutex_free, State.mutex_setOwn,
    State.mutex_setDrain]

theorem holderStep_remove [DecidableEq S] [QueueState S] {p : HolderPc S} {s : S}
    (hs : holderStep cfg c p = some (c', .remove x s)) : p.actor = some x ∨ p.handled = some x := by
  unfold HolderPc.handled HolderPc.actor
  unfold holderStep getStep GetCont.event at hs
  repeat' split at hs
  all_goals grind

section Handles

variable [DecidableEq S] [QueueState S] {t : Transition S T}

theorem Sound.handleOk (h : Sound cfg a t) (hok : HandleOk t.src a) :
    HandleOk t.dst (a.apply t.event) := by
  intro x hx
  cases hk : t.act.isHolder with
  | false =>
    have hev := step_event hk h.step
    have hent : ∀ p : HolderPc S, p.isEntry = true → p.handled = none := fun p hp => by
      cases p <;> simp [HolderPc.isEntry] at hp <;> rfl
    rw [h.inv.bind_step _ hent hk h.step] at hx
    refine Abs.mem_apply (hok x hx) ?_
    cases he : t.event <;> simp [he, Event.byHolder] at hev <;> simp [Event.Takes]
  | true =>
    obtain ⟨p, hp, ⟨-, hs⟩ | ⟨q, -, hs⟩⟩ := step_holder hk h.step
    · obtain ⟨hh, he⟩ := holderStep_handled hs hx
      rw [he]
      exact hok x (by simp [hp, hh])
    · obtain ⟨rfl | rfl, he⟩ := holderCall_handled hp hs hx <;> rw [he]
      · exact List.mem_of_head? (h.inv.holder hp).1
      · exact h.inv.holder hp

/-- A drained node that is not removed by its `Drain` is removed by its owner. -/
theorem Sound.byOwner_of_remove (h : Sound cfg a t) (hok : HandleOk t.src a) {s : S}
    (he : t.event = .remove x s) (hx : x ∈ (a.drained d).rest) : t.act.ByOwner t.src x := by
  cases hk : t.act.isHolder with
  | false =>
    have hev := step_event hk h.step
    simp [he, Event.byHolder] at hev
  | true =>
    have hstep := h.step
    rw [he] at hstep
    obtain ⟨p, hp, ⟨hq, hs⟩ | ⟨q, -, hs⟩⟩ := step_holder hk hstep
    · rcases holderStep_remove hs with ha | hh
      · simpa [hq, Act.ByOwner, hp] using ha
      · exact absurd (hok x (by simp [hp, hh])) (h.inv.not_mem_queue hx)
    · exact absurd (.inl ⟨s, rfl⟩) (holderCall_removes hs)

variable {us : List (Transition S T)}

theorem Exec.handleOk {s : S} {v : T} (h : Exec cfg (.init s v) us c) (hc : ∀ t ∈ us, t.Clean) :
    HandleOk c ((Abs.init s).run us) := by
  refine Exec.induct (P := fun us c => HandleOk c ((Abs.init s).run us)) h hc (Inv.init cfg s v)
    (by simp [HandleOk, State.init]) ?_
  intro us t _ hs hok
  rw [Abs.run_append]
  exact hs.handleOk hok

/-- The nodes that left a `Drain` are those that were removed by their owners. -/
theorem Exec.mem_left_iff (h : Exec cfg c us c') (hc : ∀ t ∈ us, t.Clean) (hi : Inv cfg c a)
    (hok : HandleOk c a) (hd : c.drains d ≠ .none) (hl : (a.drained d).left = []) (x : NodeId) :
    x ∈ ((a.run us).drained d).left ↔ SelfRemoved a d us x := by
  refine And.right (And.right (Exec.induct (P := fun us c => c.drains d ≠ .none ∧
    HandleOk c (a.run us) ∧ (x ∈ ((a.run us).drained d).left ↔ SelfRemoved a d us x)) h hc hi
    ⟨hd, hok, by simp [hl, SelfRemoved]⟩ ?_))
  rintro us t - hs ⟨hd, hok, hl⟩
  refine ⟨hs.drains_ne_none hd, by simpa using hs.handleOk hok, ?_⟩
  rw [selfRemoved_concat, ← hl, Abs.run_append, Abs.run_cons, Abs.run_nil,
    Abs.mem_left_apply (hs.not_starts hd)]
  refine or_congr_right ⟨?_, ?_⟩
  · rintro ⟨⟨s, he⟩, hx⟩
    exact ⟨s, he, hs.byOwner_of_remove hok he hx, hx⟩
  · rintro ⟨s, he, -, hx⟩
    exact ⟨⟨s, he⟩, hx⟩

end Handles

end Aiq
