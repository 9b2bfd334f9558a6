import Aiq.Machine.Access
import Aiq.Representation

/-!
# A dequeued node belongs to its owner

Once the `prev` word of a node holds `Dequeued`, the node is in no list and on its way out of none,
and it stays so until its owner enqueues it again (`Exec.out`). No step of another party accesses
such a node (`Inv.byOwner_of_out`): the pointers to it that are left in memory are overwritten, or
used as comparands only, before anybody follows them. So its owner may free it as soon as it sees
`Dequeued` (`dequeued_node_is_private`).
-/

namespace Aiq

variable {S T : Type} {cfg : Config} {c c' : State S T} {a : Abs S} {x : NodeId} {e : Event S}

/-! ## Out of the lists -/

theorem out_iff : Out (c.ch a) c.leaving x ↔ ¬ a.Member x ∧ c.leaving ≠ some x := by
  unfold Out
  rw [show a.Member x ↔ ∃ i, Addr.node x ∈ c.ch a i from member_iff, not_exists]

/-- A node enters a list only by `enqueue`. -/
theorem Abs.member_apply (h : (a.apply e).Member x) (he : e ≠ .enqueue x) : a.Member x := by
  cases e
  case enqueue y =>
    rcases h with h | h
    · rcases List.mem_append.1 h with h | h
      · exact .inl h
      · obtain rfl : x = y := by simpa using h
        exact absurd rfl he
    · exact .inr h
  case remove y s =>
    rcases h with h | ⟨d, h⟩
    · exact .inl (List.mem_of_mem_erase h)
    · have h' : x ∈ (a.drained d).rest.erase y := by simpa [apply] using h
      exact .inr ⟨d, List.mem_of_mem_erase h'⟩
  case drain d s =>
    rcases h with h | ⟨d', h⟩
    · simp [apply] at h
    · by_cases hd : d' = d
      · subst hd
        exact .inl (by simpa [apply, DrainLog.start] using h)
      · exact .inr ⟨d', by simpa [apply, hd] using h⟩
  case drainEmpty d =>
    rcases h with h | ⟨d', h⟩
    · exact .inl h
    · by_cases hd : d' = d
      · subst hd
        simp [apply, DrainLog.empty] at h
      · exact .inr ⟨d', by simpa [apply, hd] using h⟩
  case drainRemove d y flush =>
    rcases h with h | ⟨d', h⟩
    · exact .inl h
    · by_cases hd : d' = d
      · subst hd
        have h' : x ∈ (a.drained d').rest.erase y := by simpa [apply] using h
        exact .inr ⟨d', List.mem_of_mem_erase h'⟩
      · exact .inr ⟨d', by simpa [apply, hd] using h⟩
  all_goals exact h

/-- The event takes `x` out of its list. -/
def Event.Removes (e : Event S) (x : NodeId) : Prop :=
  (∃ s, e = .remove x s) ∨ ∃ d flush, e = .drainRemove d x flush

theorem Abs.member_of_removes (h : e.Removes x) (ha : a.Allows e) : a.Member x := by
  rcases h with ⟨s, rfl⟩ | ⟨d, flush, rfl⟩
  · exact ha
  · exact .inr ⟨d, List.mem_of_head? ha⟩

/-- Under the lock a node is on its way out from the step that takes it out of its list. -/
theorem holderStep_leaving [DecidableEq S] [QueueState S] {p : HolderPc S} (hp : c.mutex = some p)
    (hs : holderStep cfg c p = some (c', e)) (hx : c'.leaving = some x) :
    c.leaving = some x ∨ e.Removes x := by
  unfold holderStep getStep GetCont.resume Removal.return Release.apply at hs
  unfold Event.Removes
  simp only [State.leaving] at hx ⊢
  repeat' split at hs
  all_goals grind [HolderPc.leaving, State.mutex_hold, State.mutex_setOwn, State.mutex_free,
    State.mutex_withMem, State.mutex_setDrain]

theorem holderCall_leaving [QueueState S] {p : HolderPc S} {k : HolderCall S T}
    (hp : c.mutex = some p) (hs : holderCall c p k = some (c', e)) : c'.leaving = none := by
  unfold holderCall guardCall drainLockedCall at hs
  simp only [State.leaving]
  repeat' split at hs
  all_goals grind [HolderPc.leaving, State.mutex_hold, State.mutex_setOwn, State.mutex_free,
    State.mutex_withMem, State.mutex_setDrain]

theorem HolderPc.leaving_of_isEntry {p : HolderPc S} (h : p.isEntry = true) : p.leaving = none := by
  cases p <;> simp [isEntry] at h <;> rfl

/-- A node is on its way out from the step that takes it out of its list. -/
theorem step_leaving [DecidableEq S] [QueueState S] {k : Act S T}
    (hs : step cfg c k = some (c', e)) (hx : c'.leaving = some x) :
    c.leaving = some x ∨ e.Removes x := by
  by_cases hk : k.isHolder = true
  · cases k <;> simp only [Act.isHolder, reduceCtorEq] at hk <;> simp only [step] at hs
    case holder =>
      split at hs
      · simp at hs
      · exact holderStep_leaving ‹_› hs hx
    case holderCall k =>
      split at hs
      · simp at hs
      · simp [holderCall_leaving ‹_› hs] at hx
  · rcases step_mutex (by simpa using hk) hs with hm | ⟨-, p, hm, hp⟩
    · simp only [State.leaving, hm] at hx
      exact .inl hx
    · simp [State.leaving, hm, HolderPc.leaving_of_isEntry hp] at hx

/-- A node that is out of the lists stays out until it is enqueued. -/
theorem Sound.out [DecidableEq S] [QueueState S] {t : Transition S T} (hs : Sound cfg a t)
    (he : t.event ≠ .enqueue x) (hx : Out (t.src.ch a) t.src.leaving x) :
    Out (t.dst.ch (a.apply t.event)) t.dst.leaving x := by
  obtain ⟨hmem, hlv⟩ := out_iff.1 hx
  refine out_iff.2 ⟨fun h => hmem (Abs.member_apply h he), fun h => ?_⟩
  rcases step_leaving hs.step h with h | h
  · exact hlv h
  · exact hmem (Abs.member_of_removes h hs.allows)

/-! ## The accesses to a node -/

/-- No enqueuer has yet to write the link of a node that is in no list. -/
theorem Inv.own_ne_link (h : Inv cfg c a) (hx : ∀ i, .node x ∉ c.ch a i) (y : NodeId) :
    c.own y ≠ .link (some (.node x)) := by
  intro ho
  obtain ⟨i, -, hi⟩ := h.shape.pend_mem (x := y) (l := .next (.node x))
    (by simp [State.pend, ho, OwnPc.pend, prevLoc])
  exact inLoc_ne_next hx hi

theorem mem_addrs {l : Loc} {y : Addr} : y ∈ l.addrs ↔ l = .next y := by
  cases l <;> simp [Loc.addrs, eq_comm]

/-- The links that the holder follows do not belong to a node that is out of the lists. -/
theorem prevNext_ne_next {r : Removal S} {i : ListId} (hx : ∀ i, .node x ∉ c.ch a i)
    (hr : Removing c a r i) : r.prevNext ≠ .next (.node x) := by
  rw [hr.prevNext]
  exact inLoc_ne_next hx

/-- The holder does not access a node that is out of the lists, unless it is the owner. -/
theorem Inv.holder_byOwner (h : Inv cfg c a) {p : HolderPc S} (hp : c.mutex = some p)
    (hx : Out (c.ch a) c.leaving x) (hacc : .node x ∈ p.accesses) : p.actor = some x := by
  obtain ⟨hmem, hlv⟩ := hx
  have hk := h.holder hp
  have hlv' : p.leaving ≠ some x := by simpa [State.leaving, hp] using hlv
  cases p <;> simp only [HolderPc.accesses, List.mem_singleton, List.not_mem_nil, reduceCtorEq,
    Addr.node.injEq, mem_addrs] at hacc
  case get l g k =>
    obtain ⟨⟨i, y, -, hl, -⟩, -⟩ := hk
    have hne : l ≠ .next (.node x) := hl ▸ inLoc_ne_next hmem
    cases g <;> simp [GetPc.accesses, mem_addrs, hne] at hacc
  case rmPrev y s w k =>
    obtain ⟨⟨i, hi⟩, -⟩ := hk
    exact absurd (hacc ▸ hi) (hmem i)
  case rmNext r =>
    obtain ⟨⟨i, hr⟩, -⟩ := hk
    exact absurd (hacc ▸ hr.mem) (hmem i)
  case rmClear r =>
    obtain ⟨⟨i, hr⟩, -⟩ := hk
    exact absurd hacc (prevNext_ne_next hmem hr)
  case rmSetPrev r b =>
    obtain ⟨⟨i, -, hb⟩, -⟩ := hk
    exact absurd (hacc ▸ List.mem_of_predOf hb) (hmem i)
  case rmSetNext r b =>
    obtain ⟨⟨i, -, hr⟩, -⟩ := hk
    rw [Removal.prevNext, hr, prevNext_inPrev] at hacc
    exact absurd hacc (inLoc_ne_next hmem)
  case rmDone r b => exact absurd (by rw [hacc]; rfl) hlv'
  case recheck y => rw [hacc]; rfl
  case dropRecheck y => rw [hacc]; rfl
  case ddDone d b flush => exact absurd (by rw [← hacc]; rfl) hlv'
  case exPrev d b => exact absurd (hacc ▸ List.mem_of_head? hk) (hmem _)
  case exTailStore d b => exact absurd (hacc ▸ List.mem_of_getLast? hk.2) (hmem _)

theorem Inv.holderCall_byOwner (h : Inv cfg c a) {p : HolderPc S} (hp : c.mutex = some p)
    {k : HolderCall S T} (hx : Out (c.ch a) c.leaving x) (hacc : .node x ∈ p.callAccesses k) :
    p.actor = some x := by
  have hk := h.holder hp
  cases p <;> cases k <;> simp only [HolderPc.callAccesses, List.mem_singleton, List.not_mem_nil,
    reduceCtorEq, Addr.node.injEq] at hacc
  case dequeue.withDataMut y g =>
    exact absurd (node_mem_chain_queue.2 (hacc ▸ List.mem_of_head? hk.1)) (hx.1 .queue)
  case pop.withDataMut y g => exact absurd (node_mem_chain_queue.2 (hacc ▸ hk)) (hx.1 .queue)
  case queued.withDataMut y g => rw [hacc]; rfl
  case drained.withDataMut d b g => exact absurd (hacc ▸ List.mem_of_head? hk) (hx.1 _)

/-- No step of another party accesses a node that is out of the lists. -/
theorem Inv.byOwner_of_out (h : Inv cfg c a) {k : Act S T} (hx : Out (c.ch a) c.leaving x)
    (hacc : .node x ∈ k.accesses c) : k.ByOwner c x := by
  cases k
  case holder =>
    cases hp : c.mutex with
    | none => simp [Act.accesses, hp] at hacc
    | some p =>
      simp only [Act.accesses, hp, Option.map_some, Option.getD_some] at hacc
      simpa [Act.ByOwner, hp] using h.holder_byOwner hp hx hacc
  case holderCall k =>
    cases hp : c.mutex with
    | none => simp [Act.accesses, hp] at hacc
    | some p =>
      simp only [Act.accesses, hp, Option.map_some, Option.getD_some] at hacc
      simpa [Act.ByOwner, hp] using h.holderCall_byOwner hp hx hacc
  case owner y weak =>
    cases ho : c.own y <;>
      simp only [Act.accesses, ho, OwnPc.accesses, List.mem_singleton, List.not_mem_nil,
        Addr.node.injEq, mem_addrs] at hacc
    case link p =>
      cases p with
      | none => simp [prevLoc] at hacc
      | some b =>
        obtain rfl : b = .node x := by simpa [prevLoc] using hacc
        exact absurd ho (h.own_ne_link hx.1 y)
    all_goals exact hacc.symm
  case ownerCall y k =>
    cases k <;> simp only [Act.accesses, OwnerCall.accesses, List.mem_singleton, List.not_mem_nil,
      Addr.node.injEq] at hacc <;> exact hacc.symm
  case drain d k => cases k <;> simp [Act.accesses] at hacc
  all_goals simp [Act.accesses] at hacc

/-! ## The claim on whole executions -/

variable [DecidableEq S] [QueueState S] {s : S} {v : T} {ts ts' : List (Transition S T)}

/-- A node that is out of the lists stays out along every execution that does not enqueue it. -/
theorem Exec.out (h : Exec cfg c ts c') (hc : ∀ t ∈ ts, t.Clean) (hi : Inv cfg c a)
    (hx : Out (c.ch a) c.leaving x) (he : ∀ t ∈ ts, t.event ≠ .enqueue x) :
    Out (c'.ch (a.run ts)) c'.leaving x := by
  refine Exec.induct (P := fun us c => Out (c.ch (a.run us)) c.leaving x) h hc hi hx ?_
  intro us t ht hs hx
  rw [Abs.run_append]
  exact hs.out (he t ht) hx

/-- **A dequeued node is its owner's.** After the `prev` word of a node has been stored as
`Dequeued`, only steps of the node's owner access the node until the next successful tail CAS of its
`enqueue`: the others do not read it, they leave its words as they are, and no enqueuer has yet to
write its `next`. -/
theorem dequeued_node_is_private (h : Exec cfg (.init s v) ts c) (h' : Exec cfg c ts' c')
    (hc : ∀ t ∈ ts ++ ts', t.Calm) (hx : c.mem.prev (.node x) = RawNodeState.dequeued.intoPtr)
    (he : ∀ t ∈ ts', t.event ≠ .enqueue x) :
    (∀ t ∈ ts', ¬ t.act.ByOwner t.src x →
      .node x ∉ t.act.accesses t.src ∧ SameWords t.src.mem t.dst.mem (.node x)) ∧
      ∀ y, c'.own y ≠ .link (some (.node x)) := by
  have hclean := Exec.clean (Lts.Run.append h h') hc
  have hclean' : ∀ t ∈ ts', t.Clean := fun t ht => hclean t (List.mem_append_right _ ht)
  have hi := Exec.inv h fun t ht => hclean t (List.mem_append_left _ ht)
  have hout : Out (c.ch ((Abs.init s).run ts)) c.leaving x :=
    hi.out_of_rawState (by simp [Mem.rawState, hx, RawNodeState.intoPtr, Ptr.state])
  refine ⟨fun t ht hown => ?_, ?_⟩
  · obtain ⟨ts₁, ts₂, rfl⟩ := List.append_of_mem ht
    obtain ⟨h₁, hs, -⟩ := Exec.at_step h' hclean' hi
    have hx₁ := Exec.out h₁ (fun t ht => hclean' t (List.mem_append_left _ ht)) hi hout
      fun t ht => he t (List.mem_append_left _ ht)
    have hacc : .node x ∉ t.act.accesses t.src := fun hacc => hown (hs.inv.byOwner_of_out hx₁ hacc)
    exact ⟨hacc, step_frame hs.step hacc⟩
  · exact (Exec.inv_run h' hclean' hi).own_ne_link (Exec.out h' hclean' hi hout he).1

/-- The first of two nodes is dequeued, and then the second. -/
def dequeueFirst : List (Act ℕ Unit) :=
  insertActs 0 () ++ insertActs 1 () ++ [.owner 0 false, .owner 1 false, .lock,
    .holderCall .dequeue, .holder, .holderCall .drop, .holder, .holder, .holder, .holder]

/-- See `dequeueFirst`. -/
def dequeueSecond : List (Act ℕ Unit) :=
  [.holderCall .dequeue, .holder, .holderCall .drop, .holder, .holder, .holder, .holder]

theorem dequeued_node_is_private_dequeueSecond :
    let c := State.after (.init 7 ()) (trace ⟨.x86, 0⟩ (.init 7 ()) dequeueFirst)
    c.mem.prev (.node 0) = .one ∧ ∀ t ∈ trace ⟨.x86, 0⟩ c dequeueSecond, ¬ t.act.ByOwner t.src 0 →
      .node 0 ∉ t.act.accesses t.src ∧ SameWords t.src.mem t.dst.mem (.node 0) := by
  have h₁ : (perform ⟨.x86, 0⟩ (.init 7 ()) dequeueFirst).isSome := by decide +kernel
  have h₂ : (perform ⟨.x86, 0⟩ (State.after (.init 7 ())
      (trace ⟨.x86, 0⟩ (.init 7 ()) dequeueFirst)) dequeueSecond).isSome := by decide +kernel
  exact ⟨by decide +kernel, (dequeued_node_is_private (exec_trace h₁) (exec_trace h₂)
    (by decide +kernel) (by decide +kernel) (by decide +kernel)).1⟩

end Aiq
