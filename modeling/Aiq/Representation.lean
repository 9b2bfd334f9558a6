import Aiq.Refinement

/-!
# How the memory represents the queue

While the mutex is free, the nodes of the queue are a doubly linked list whose backward links are
exact, and whose forward links are exact but for those that an enqueuer between its tail CAS and its
link write has yet to write (`Represents`). This holds in every state that any interleaving of
enqueuers, state updaters and lock holders reaches (`queue_represented`).
-/

namespace Aiq

variable {S T : Type}

/-- The memory represents the queue with the nodes `l`. -/
structure Represents (c : State S T) (l : List NodeId) : Prop where
  nodup : l.Nodup
  tail_state : (∃ s, c.mem.tail = .state s) ↔ l = []
  tail_ptr : ∀ {z}, l.getLast? = some z → c.mem.tail = .ptr (.node z)
  head_prev : ∀ {x}, l.head? = some x → c.mem.prev (.node x) = headMarker
  head_link : ∀ {x}, l.head? = some x → c.mem.link .head = .to (.node x) ∨
    c.mem.link .head = .null ∧ c.own x = .link none
  head_null : l = [] → c.mem.link .head = .null
  prev : ∀ {i x y}, l[i]? = some x → l[i + 1]? = some y → c.mem.prev (.node y) = .to (.node x)
  next : ∀ {i x y}, l[i]? = some x → l[i + 1]? = some y →
    c.mem.link (.next (.node x)) = .to (.node y) ∨
      c.mem.link (.next (.node x)) = .null ∧ c.own y = .link (some (.node x))
  last_next : ∀ {z}, l.getLast? = some z → c.mem.link (.next (.node z)) = .null
  not_parked : ∀ k, c.mem.link k ≠ parked

variable {cfg : Config} {c : State S T} {a : Abs S} {x : NodeId}

/-- The pending links are those of the enqueuers between their two phases. -/
theorem own_of_pend {k : Loc} (h : c.pend x = some k) : ∃ p, c.own x = .link p ∧ prevLoc p = k := by
  unfold State.pend at h
  cases ho : c.own x <;> rw [ho] at h <;> simp only [OwnPc.pend, reduceCtorEq, Option.some.injEq] at h
  exact ⟨_, rfl, h⟩

theorem own_of_pend_head (h : c.pend x = some .head) : c.own x = .link none := by
  obtain ⟨p, ho, hp⟩ := own_of_pend h
  cases p with
  | none => exact ho
  | some b => simp [prevLoc] at hp

theorem own_of_pend_next {b : Addr} (h : c.pend x = some (.next b)) : c.own x = .link (some b) := by
  obtain ⟨p, ho, hp⟩ := own_of_pend h
  cases p with
  | none => simp [prevLoc] at hp
  | some b' =>
    obtain rfl : b' = b := by simpa [prevLoc] using hp
    exact ho

/-- While the mutex is free a forward link is exact or pending. -/
theorem Inv.link_of_free (h : Inv cfg c a) (hm : c.mutex = none)
    {i : ListId} {y : Addr} (hy : y ∈ c.ch a i) :
    c.mem.link (inLoc (c.ch a) i y) = .to y ∨
      ∃ x, y = .node x ∧ c.mem.link (inLoc (c.ch a) i y) = .null ∧
        c.pend x = some (inLoc (c.ch a) i y) := by
  rcases h.shape.link hy with e | e | ⟨x, rfl, hx⟩
  · exact .inl e
  · simp [State.hole, hm] at e
  · refine .inr ⟨x, rfl, (h.shape.pend_link hx).resolve_right fun e => ?_, hx⟩
    have := (h.parked e).1
    simp [State.parkedAt, hm] at this

theorem predOf_of_getElem? {l : List NodeId} (hn : l.Nodup) {i : ℕ} {x y : NodeId}
    (hx : l[i]? = some x) (hy : l[i + 1]? = some y) : l.predOf y = some x := by
  rw [List.predOf_eq_some_iff hn]
  obtain ⟨hi, rfl⟩ := List.getElem?_eq_some_iff.1 hx
  obtain ⟨hi', rfl⟩ := List.getElem?_eq_some_iff.1 hy
  exact ⟨l.take i, l.drop (i + 2), by simp⟩

/-- The invariant gives the representation. -/
theorem Inv.represents (h : Inv cfg c a) (hm : c.mutex = none) : Represents c a.queue := by
  have hn : a.queue.Nodup := (h.shape.nodup .queue).of_map
  have hnh : ∀ d, c.drains d ≠ .held := fun d hd => by
    have := (h.held d).1 hd
    simp [hm] at this
  have hhead : ∀ {x}, a.queue.head? = some x → (c.ch a .queue).head? = some (.node x) :=
    fun hx => by simp [State.ch, chain, hx]
  have hpred : ∀ {i x y}, a.queue[i]? = some x → a.queue[i + 1]? = some y →
      (c.ch a .queue).predOf (.node y) = some (.node x) := fun hx hy => by
    rw [show c.ch a .queue = a.queue.map .node from rfl, predOf_map_node,
      predOf_of_getElem? hn hx hy]
    rfl
  refine ⟨hn, ?_, ?_, ?_, ?_, ?_, ?_, ?_, ?_, ?_⟩
  · rw [h.tail]
    simp [Abs.tail_eq_state_iff]
  · intro z hz
    exact h.tail.trans (Abs.tail_eq_ptr_iff.2 ⟨z, hz, rfl⟩)
  · intro x hx
    rw [h.prev_eq hnh (List.mem_of_head? (hhead hx)), inPrev_of_head (h.shape.nodup _) (hhead hx)]
    rfl
  · intro x hx
    have hl : inLoc (c.ch a) .queue (.node x) = .head := inLoc_of_head (h.shape.nodup _) (hhead hx)
    rcases h.link_of_free hm (List.mem_of_head? (hhead hx)) with e | ⟨z, hz, e, hp⟩ <;> rw [hl] at e
    · exact .inl e
    · obtain rfl := Addr.node.inj hz
      rw [hl] at hp
      exact .inr ⟨e, own_of_pend_head hp⟩
  · intro hq
    have := h.last
    simpa [hq, prevLoc] using this
  · intro i x y hx hy
    rw [h.prev_eq hnh (List.mem_of_predOf (hpred hx hy)), inPrev_of_predOf (hpred hx hy)]
  · intro i x y hx hy
    have hl : inLoc (c.ch a) .queue (.node y) = .next (.node x) := inLoc_of_predOf (hpred hx hy)
    rcases h.link_of_free hm (List.mem_of_predOf (hpred hx hy)) with e | ⟨z, hz, e, hp⟩ <;> rw [hl] at e
    · exact .inl e
    · obtain rfl := Addr.node.inj hz
      rw [hl] at hp
      exact .inr ⟨e, own_of_pend_next hp⟩
  · intro z hz
    have := h.last
    rwa [hz] at this
  · intro k hk
    have := (h.parked hk).1
    simp [State.parkedAt, hm] at this

variable [DecidableEq S] [QueueState S] {s : S} {v : T} {ts : List (Transition S T)}

/-- **The representation invariant.** Whenever the mutex is free, the memory represents a queue
whose nodes are in the order of the successful tail CASes of `enqueue`. -/
theorem queue_represented (h : Exec cfg (.init s v) ts c) (hc : ∀ t ∈ ts, t.Calm)
    (hm : c.mutex = none) : ∃ l, l.Sublist (insertionOrder ts) ∧ Represents c l :=
  ⟨_, Exec.sublist_insertionOrder h (Exec.clean h hc), (Exec.inv h (Exec.clean h hc)).represents hm⟩

/-- Two enqueuers are between their two phases at once. -/
def twoInserts : List (Act ℕ Unit) := insertActs 0 () ++ insertActs 1 ()

theorem queue_represented_twoInserts :
    ∃ l, l.Sublist [0, 1] ∧ Represents (State.after (.init 0 ())
      (trace ⟨.parkedNext, 0⟩ (.init 0 ()) twoInserts)) l := by
  have hrun : (perform ⟨.parkedNext, 0⟩ (.init 0 ()) twoInserts).isSome := by decide +kernel
  have ho : insertionOrder (trace ⟨.parkedNext, 0⟩ (.init 0 ()) twoInserts) = [0, 1] := by
    decide +kernel
  rw [← ho]
  exact queue_represented (exec_trace hrun) (by decide +kernel) (by decide +kernel)

end Aiq
