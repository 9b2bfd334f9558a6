import Aiq.Lib.Predecessor
import Aiq.Spec

/-!
# The lists in memory

A node is in the queue or in the list of a `Drain`. In memory these lists are chains of `NodeLink`s:
`prev` goes back from every element to the one before it, and the forward link that leads to an
element is the `next` field of the one before it. Before the first element stands the queue, with
`HEAD_MARKER` and its `head`, or the sentinel of the `Drain`. While a `Drain` has released its lock
its list is circular: its chain ends with the sentinel.

`Shape` says how the memory holds the chains at every moment, not only when the mutex is free. The
`prev` words are exact. A forward link is exact but for two exceptions: the enqueuer of the element
has done its tail CAS and not its link write (`pend`), or the lock holder has cleared the link and
will write it (`hole`).
-/

namespace Aiq

variable {S T : Type}

/-- The lists a node can be in. -/
inductive ListId
  | queue
  | drain (d : DrainId)
  deriving DecidableEq

/-- The link that leads to the first element. -/
def ListId.firstLoc : ListId → Loc
  | .queue => .head
  | .drain d => .next (.sentinel d)

/-- The `prev` word of the first element. -/
def ListId.firstPrev : ListId → Ptr
  | .queue => headMarker
  | .drain d => .to (.sentinel d)

theorem ListId.firstLoc_inj {i j : ListId} (h : i.firstLoc = j.firstLoc) : i = j := by
  cases i <;> cases j <;> simp_all [firstLoc]

@[simp] theorem ListId.prevNext_firstPrev (i : ListId) : i.firstPrev.prevNext = i.firstLoc := by
  cases i <;> rfl

/-- Whether the list of a `Drain` is circular through its sentinel. -/
def DrainPc.linked : DrainPc → Bool
  | .running l | .relock l | .loose l | .dropLock l => l
  | .none | .held | .gone => false

/-- The elements of the lists. -/
def chain (a : Abs S) (ds : DrainId → DrainPc) : ListId → List Addr
  | .queue => a.queue.map .node
  | .drain d => (a.drained d).rest.map .node ++ if (ds d).linked then [.sentinel d] else []

/-- The link that leads to `y`. -/
def inLoc (ch : ListId → List Addr) (i : ListId) (y : Addr) : Loc :=
  ((ch i).predOf y).elim i.firstLoc .next

/-- The `prev` word of `y`. -/
def inPrev (ch : ListId → List Addr) (i : ListId) (y : Addr) : Ptr :=
  ((ch i).predOf y).elim i.firstPrev .to

@[simp] theorem prevNext_inPrev (ch : ListId → List Addr) (i : ListId) (y : Addr) :
    (inPrev ch i y).prevNext = inLoc ch i y := by
  unfold inPrev inLoc
  cases (ch i).predOf y with
  | none => simp
  | some p => rfl

theorem state_inPrev (ch : ListId → List Addr) (i : ListId) (y : Addr) :
    (inPrev ch i y).state = .queued := by
  unfold inPrev
  cases (ch i).predOf y with
  | none => cases i <;> rfl
  | some p => rfl

/-- What is left in the `prev` word of a node at the head of the list of `d`, when the nodes before it
are gone: a mark that it is queued, and the sentinel of no other `Drain`. -/
def Ptr.StaleFor (p : Ptr) (d : DrainId) : Prop :=
  p.state = .queued ∧ ∀ e, p = .to (.sentinel e) → e = d

/-- How the memory holds the chains `ch`. `lk d` tells whether the chain of the `Drain` `d` is
circular, `pend x` is the link that the enqueuer of `x` has yet to write, and `hole` is the element
whose link the lock holder has yet to write. -/
structure Shape (m : Mem S T) (ch : ListId → List Addr) (lk : DrainId → Bool)
    (pend : NodeId → Option Loc) (hole : Option Addr) : Prop where
  nodup : ∀ i, (ch i).Nodup
  disj : ∀ {i j y}, y ∈ ch i → y ∈ ch j → i = j
  pred_node : ∀ {i y p}, (ch i).predOf y = some p → ∃ x, p = .node x
  prev : ∀ {i y}, y ∈ ch i → m.prev y = inPrev ch i y ∨
    ∃ d, i = .drain d ∧ lk d = false ∧ (ch i).head? = some y ∧ (m.prev y).StaleFor d
  link : ∀ {i y}, y ∈ ch i → m.link (inLoc ch i y) = .to y ∨ hole = some y ∨
    ∃ x, y = .node x ∧ pend x = some (inLoc ch i y)
  pend_mem : ∀ {x l}, pend x = some l → ∃ i, .node x ∈ ch i ∧ inLoc ch i (.node x) = l
  pend_link : ∀ {x l}, pend x = some l → m.link l = .null ∨ m.link l = .one
  pend_loc : ∀ {x l d}, pend x = some l → l ≠ .next (.sentinel d)

section Chains

variable {ch : ListId → List Addr} {i j : ListId} {x : NodeId} {y z p : Addr}

theorem inLoc_of_head (hn : (ch i).Nodup) (h : (ch i).head? = some y) :
    inLoc ch i y = i.firstLoc := by
  rw [inLoc, (List.predOf_eq_none_iff hn (List.mem_of_head? h)).2 h]
  rfl

theorem inPrev_of_head (hn : (ch i).Nodup) (h : (ch i).head? = some y) :
    inPrev ch i y = i.firstPrev := by
  rw [inPrev, (List.predOf_eq_none_iff hn (List.mem_of_head? h)).2 h]
  rfl

theorem inLoc_of_predOf (h : (ch i).predOf y = some p) : inLoc ch i y = .next p := by
  rw [inLoc, h]
  rfl

theorem inPrev_of_predOf (h : (ch i).predOf y = some p) : inPrev ch i y = .to p := by
  rw [inPrev, h]
  rfl

/-- The link behind a node that is in no list leads to no element. -/
theorem inLoc_ne_next (hx : ∀ j, .node x ∉ ch j) :
    inLoc ch i y ≠ .next (.node x) := by
  intro e
  unfold inLoc at e
  cases hp : (ch i).predOf y with
  | none => rw [hp] at e; cases i <;> simp [ListId.firstLoc] at e
  | some p =>
    rw [hp] at e
    obtain rfl : p = .node x := by simpa using e
    exact hx i (List.predOf_mem hp)

theorem node_mem_chain_queue {a : Abs S} {ds : DrainId → DrainPc} :
    Addr.node x ∈ chain a ds .queue ↔ x ∈ a.queue := by
  simp [chain]

theorem node_mem_chain_drain {a : Abs S} {ds : DrainId → DrainPc} {d : DrainId} :
    Addr.node x ∈ chain a ds (.drain d) ↔ x ∈ (a.drained d).rest := by
  simp [chain]

theorem member_iff {a : Abs S} {f : DrainId → DrainPc} :
    a.Member x ↔ ∃ i, Addr.node x ∈ chain a f i := by
  constructor
  · rintro (h | ⟨d, h⟩)
    · exact ⟨.queue, node_mem_chain_queue.2 h⟩
    · exact ⟨.drain d, node_mem_chain_drain.2 h⟩
  · rintro ⟨i, h⟩
    cases i with
    | queue => exact .inl (node_mem_chain_queue.1 h)
    | drain d => exact .inr ⟨d, node_mem_chain_drain.1 h⟩

end Chains

namespace Shape

variable {m : Mem S T} {ch : ListId → List Addr} {lk : DrainId → Bool}
  {pend : NodeId → Option Loc} {hole : Option Addr} {i j : ListId} {y z p : Addr} {x : NodeId}

/-- Different elements are reached by different links. -/
theorem inLoc_inj (h : Shape m ch lk pend hole) (hy : y ∈ ch i) (hz : z ∈ ch j)
    (e : inLoc ch i y = inLoc ch j z) : i = j ∧ y = z := by
  unfold inLoc at e
  cases hp : (ch i).predOf y with
  | none =>
    cases hq : (ch j).predOf z with
    | none =>
      rw [hp, hq] at e
      obtain rfl := ListId.firstLoc_inj e
      exact ⟨rfl, List.predOf_inj (h.nodup i) hy hz (hp.trans hq.symm)⟩
    | some q =>
      obtain ⟨n, rfl⟩ := h.pred_node hq
      rw [hp, hq] at e
      cases i <;> simp [ListId.firstLoc] at e
  | some p =>
    obtain ⟨n, rfl⟩ := h.pred_node hp
    cases hq : (ch j).predOf z with
    | none =>
      rw [hp, hq] at e
      cases j <;> simp [ListId.firstLoc] at e
    | some q =>
      rw [hp, hq] at e
      obtain rfl : Addr.node n = q := by simpa using e
      obtain rfl := h.disj (List.predOf_mem hp) (List.predOf_mem hq)
      exact ⟨rfl, List.predOf_inj (h.nodup i) hy hz (hp.trans hq.symm)⟩

/-- The link behind the last element leads to no element. -/
theorem inLoc_ne_next_last (h : Shape m ch lk pend hole) (hz : (ch j).getLast? = some (.node x)) :
    inLoc ch i y ≠ .next (.node x) := by
  intro e
  unfold inLoc at e
  cases hp : (ch i).predOf y with
  | none => rw [hp] at e; cases i <;> simp [ListId.firstLoc] at e
  | some p =>
    rw [hp] at e
    obtain rfl : p = .node x := by simpa using e
    obtain rfl := h.disj (List.predOf_mem hp) (List.mem_of_getLast? hz)
    exact List.predOf_ne_getLast (h.nodup i) hz hp

/-- The sentinel of an empty list leads to no element. -/
theorem inLoc_ne_sentinel {d : DrainId} (h : Shape m ch lk pend hole) (hd : ch (.drain d) = [])
    (hy : y ∈ ch i) : inLoc ch i y ≠ .next (.sentinel d) := by
  intro e
  unfold inLoc at e
  cases hp : (ch i).predOf y with
  | none =>
    rw [hp] at e
    cases i with
    | queue => simp [ListId.firstLoc] at e
    | drain d' =>
      obtain rfl : d' = d := by simpa [ListId.firstLoc] using e
      simp [hd] at hy
  | some q =>
    obtain ⟨z, rfl⟩ := h.pred_node hp
    rw [hp] at e
    simp at e

theorem pend_inj (h : Shape m ch lk pend hole) {x₁ x₂ : NodeId} {l : Loc} (h₁ : pend x₁ = some l)
    (h₂ : pend x₂ = some l) : x₁ = x₂ := by
  obtain ⟨i, hi, ei⟩ := h.pend_mem h₁
  obtain ⟨j, hj, ej⟩ := h.pend_mem h₂
  have := (h.inLoc_inj hi hj (ei.trans ej.symm)).2
  simpa using this

/-- A written link leads to an element that is not pending. -/
theorem pend_eq_none_of_link (h : Shape m ch lk pend hole) {b : Addr} (hx : .node x ∈ ch i)
    (hl : m.link (inLoc ch i (.node x)) = .to b) : pend x = none := by
  cases hp : pend x with
  | none => rfl
  | some l =>
    obtain ⟨j, hj, ej⟩ := h.pend_mem hp
    obtain rfl := h.disj hx hj
    rw [ej] at hl
    rcases h.pend_link hp with h' | h' <;> rw [h'] at hl <;> simp at hl

/-- The shape depends on the words of the elements only. -/
theorem of_mem {m' : Mem S T} (h : Shape m ch lk pend hole)
    (hp : ∀ {i y}, y ∈ ch i → m'.prev y = m.prev y)
    (hl : ∀ {i y}, y ∈ ch i → m'.link (inLoc ch i y) = m.link (inLoc ch i y)) :
    Shape m' ch lk pend hole where
  nodup := h.nodup
  disj := h.disj
  pred_node := h.pred_node
  prev := fun hy => by rw [hp hy]; exact h.prev hy
  link := fun hy => by rw [hl hy]; exact h.link hy
  pend_mem := h.pend_mem
  pend_link := fun {x l} hx => by
    obtain ⟨i, hi, rfl⟩ := h.pend_mem hx
    rw [hl hi]
    exact h.pend_link hx
  pend_loc := h.pend_loc

/-- One link is written. The element it leads to has its link written, or is the new hole, or is
pending. -/
theorem setLink {l : Loc} {v : Ptr} {hole' : Option Addr} (h : Shape m ch lk pend hole)
    (hself : ∀ {i y}, y ∈ ch i → inLoc ch i y = l →
      v = .to y ∨ hole' = some y ∨ ∃ x, y = .node x ∧ pend x = some l)
    (hhole : ∀ {i y}, y ∈ ch i → inLoc ch i y ≠ l → hole = some y → hole' = some y)
    (hpend : ∀ {x}, pend x = some l → v = .null ∨ v = .one) :
    Shape (m.setLink l v) ch lk pend hole' where
  nodup := h.nodup
  disj := h.disj
  pred_node := h.pred_node
  prev := h.prev
  link := fun {i y} hy => by
    rw [Mem.link_setLink]
    split
    · rename_i e
      rw [e]
      exact hself hy e
    · rename_i e
      exact (h.link hy).imp_right (Or.imp_left (hhole hy e))
  pend_mem := h.pend_mem
  pend_link := fun {x k} hx => by
    rw [Mem.link_setLink]
    split
    · rename_i e
      exact hpend (e ▸ hx)
    · exact h.pend_link hx
  pend_loc := h.pend_loc

/-- A node that is not pending is taken out. The element behind it takes over its predecessor and its
link, or is the new hole; at the head of the list of a `Drain` that holds the lock its `prev` may
stay as it is. -/
theorem erase {m' : Mem S T} {hole' : Option Addr} (h : Shape m ch lk pend hole)
    (hx : .node x ∈ ch i) (hpx : pend x = none) (hhole : hole = none ∨ hole = some (.node x))
    (hsucc : ∀ {b}, (ch i).predOf b = some (.node x) →
      (m'.prev b = inPrev ch i (.node x) ∨ ∃ d, i = .drain d ∧ lk d = false ∧
        (ch i).head? = some (.node x) ∧ (m'.prev b).StaleFor d) ∧
      (m'.link (inLoc ch i (.node x)) = .to b ∨ hole' = some b) ∧ ∀ z, b = .node z → pend z = none)
    (hprev : ∀ {j y}, y ∈ ch j → (ch j).predOf y ≠ some (.node x) → m'.prev y = m.prev y)
    (hlink : ∀ {j y}, y ∈ ch j → y ≠ .node x → (ch j).predOf y ≠ some (.node x) →
      m'.link (inLoc ch j y) = m.link (inLoc ch j y)) :
    Shape m' (fun j => (ch j).erase (.node x)) lk pend hole' := by
  set ch' : ListId → List Addr := fun j => (ch j).erase (.node x) with hch'
  have hmem : ∀ {j y}, y ∈ ch' j → y ≠ .node x ∧ y ∈ ch j := fun {j y} hy =>
    (h.nodup j).mem_erase_iff.1 hy
  have hpred : ∀ {j y}, y ∈ ch' j → (ch' j).predOf y =
      if (ch j).predOf y = some (.node x) then (ch j).predOf (.node x) else (ch j).predOf y :=
    fun {j y} hy => List.predOf_erase (h.nodup j) (hmem hy).2 (hmem hy).1
  have hone : ∀ {j y}, (ch j).predOf y = some (.node x) → j = i := fun hp =>
    h.disj (List.predOf_mem hp) hx
  -- the element behind `x`, and the others
  have hloc : ∀ {y}, y ∈ ch' i → (ch i).predOf y = some (.node x) →
      inLoc ch' i y = inLoc ch i (.node x) := fun hy hp => by
    rw [inLoc, hpred hy, if_pos hp, inLoc]
  have hloc' : ∀ {j y}, y ∈ ch' j → (ch j).predOf y ≠ some (.node x) →
      inLoc ch' j y = inLoc ch j y := fun hy hp => by
    rw [inLoc, hpred hy, if_neg hp, inLoc]
  refine ⟨fun j => (h.nodup j).erase _, fun hi hj => h.disj (hmem hi).2 (hmem hj).2, ?_, ?_, ?_, ?_,
    ?_, h.pend_loc⟩
  · intro j y p hp
    rw [hpred (List.mem_of_predOf hp)] at hp
    split at hp <;> exact h.pred_node hp
  · intro j y hy
    by_cases hp : (ch j).predOf y = some (.node x)
    · obtain rfl := hone hp
      rcases (hsucc hp).1 with e | ⟨d, rfl, hd, hh, hs⟩
      · left
        rw [e, inPrev, inPrev, hpred hy, if_pos hp]
      · refine .inr ⟨d, rfl, hd, ?_, hs⟩
        rw [← List.predOf_eq_none_iff ((h.nodup _).erase _) hy, hpred hy, if_pos hp,
          List.predOf_eq_none_iff (h.nodup _) hx]
        exact hh
    · rw [hprev (hmem hy).2 hp]
      rcases h.prev (hmem hy).2 with e | ⟨d, rfl, hd, hh, hs⟩
      · left
        rw [e, inPrev, inPrev, hpred hy, if_neg hp]
      · refine .inr ⟨d, rfl, hd, ?_, hs⟩
        rw [← List.predOf_eq_none_iff ((h.nodup _).erase _) hy, hpred hy, if_neg hp,
          List.predOf_eq_none_iff (h.nodup _) (hmem hy).2]
        exact hh
  · intro j y hy
    by_cases hp : (ch j).predOf y = some (.node x)
    · obtain rfl := hone hp
      rw [hloc hy hp]
      exact (hsucc hp).2.1.imp_right .inl
    · rw [hloc' hy hp, hlink (hmem hy).2 (hmem hy).1 hp]
      rcases h.link (hmem hy).2 with e | e | e
      · exact .inl e
      · rcases hhole with e' | e'
        · simp [e'] at e
        · rw [e'] at e
          exact absurd (Option.some.inj e).symm (hmem hy).1
      · exact .inr (.inr e)
  · intro z l hz
    obtain ⟨j, hj, rfl⟩ := h.pend_mem hz
    have hzx : Addr.node z ≠ .node x := fun e => by
      rw [Addr.node.inj e, hpx] at hz
      simp at hz
    have hp : (ch j).predOf (.node z) ≠ some (.node x) := fun hp => by
      obtain rfl := hone hp
      rw [(hsucc hp).2.2 z rfl] at hz
      simp at hz
    have hj' : .node z ∈ ch' j := (h.nodup j).mem_erase_iff.2 ⟨hzx, hj⟩
    exact ⟨j, hj', hloc' hj' hp⟩
  · intro z l hz
    obtain ⟨j, hj, rfl⟩ := h.pend_mem hz
    have hzx : Addr.node z ≠ .node x := fun e => by
      rw [Addr.node.inj e, hpx] at hz
      simp at hz
    have hp : (ch j).predOf (.node z) ≠ some (.node x) := fun hp => by
      obtain rfl := hone hp
      rw [(hsucc hp).2.2 z rfl] at hz
      simp at hz
    rw [hlink hj hzx hp]
    exact h.pend_link hz

/-- A queued node is recognisable by its raw state. -/
theorem state_eq_queued (h : Shape m ch lk pend hole) (hy : y ∈ ch i) :
    (m.prev y).state = .queued := by
  rcases h.prev hy with e | ⟨_, _, _, _, e⟩
  · rw [e, state_inPrev]
  · exact e.1

end Shape

/-! ## Closing a list through its sentinel -/

/-- The chains `ch'` are `ch` with the sentinel of `d` behind the list of `d`. -/
structure Closes (ch ch' : ListId → List Addr) (d : DrainId) : Prop where
  self : ch' (.drain d) = ch (.drain d) ++ [.sentinel d]
  other : ∀ {i}, i ≠ .drain d → ch' i = ch i
  fresh : ∀ i, .sentinel d ∉ ch i

namespace Closes

variable {m : Mem S T} {ch ch' : ListId → List Addr} {lk lk' : DrainId → Bool}
  {pend : NodeId → Option Loc} {hole : Option Addr} {i : ListId} {y : Addr} {d : DrainId}

theorem mem_iff (h : Closes ch ch' d) : y ∈ ch' i ↔ y ∈ ch i ∨ i = .drain d ∧ y = .sentinel d := by
  by_cases hi : i = .drain d
  · subst hi
    simp [h.self]
  · simp [h.other hi, hi]

theorem nodup_iff (h : Closes ch ch' d) : (∀ i, (ch' i).Nodup) ↔ ∀ i, (ch i).Nodup := by
  constructor
  · intro hn i
    by_cases hi : i = .drain d
    · subst hi
      have := hn (.drain d)
      rw [h.self] at this
      exact (List.nodup_append.1 this).1
    · rw [← h.other hi]
      exact hn i
  · intro hn i
    by_cases hi : i = .drain d
    · subst hi
      rw [h.self, List.nodup_append]
      refine ⟨hn _, by simp, ?_⟩
      rintro y hy z hz rfl
      obtain rfl : y = .sentinel d := by simpa using hz
      exact h.fresh _ hy
    · rw [h.other hi]
      exact hn i

theorem predOf_eq (h : Closes ch ch' d) (hn : ∀ i, (ch i).Nodup) (hy : y ∈ ch i) :
    (ch' i).predOf y = (ch i).predOf y := by
  by_cases hi : i = .drain d
  · subst hi
    have hn' := h.nodup_iff.2 hn (.drain d)
    rw [h.self] at hn' ⊢
    exact List.predOf_append_left hn' hy
  · rw [h.other hi]

theorem inLoc_eq (h : Closes ch ch' d) (hn : ∀ i, (ch i).Nodup) (hy : y ∈ ch i) :
    inLoc ch' i y = inLoc ch i y := by
  rw [inLoc, inLoc, h.predOf_eq hn hy]

theorem inPrev_eq (h : Closes ch ch' d) (hn : ∀ i, (ch i).Nodup) (hy : y ∈ ch i) :
    inPrev ch' i y = inPrev ch i y := by
  rw [inPrev, inPrev, h.predOf_eq hn hy]

theorem predOf_sentinel (h : Closes ch ch' d) (hn : ∀ i, (ch i).Nodup) :
    (ch' (.drain d)).predOf (.sentinel d) = (ch (.drain d)).getLast? := by
  have hn' := h.nodup_iff.2 hn (.drain d)
  rw [h.self] at hn' ⊢
  exact List.predOf_append_self hn'

/-- Before the lock is released, the sentinel is the last element, and exactly so. -/
theorem close (h : Closes ch ch' d) (hs : Shape m ch lk pend hole) {z : NodeId}
    (hlk : ∀ {e}, e ≠ d → lk' e = lk e) (hz : (ch (.drain d)).getLast? = some (.node z))
    (hp : m.prev (.sentinel d) = .to (.node z)) (hl : m.link (.next (.node z)) = .to (.sentinel d))
    (hf : ∀ {y}, (ch (.drain d)).head? = some y → m.prev y = .to (.sentinel d)) :
    Shape m ch' lk' pend hole := by
  have hn := hs.nodup
  have hpred : (ch' (.drain d)).predOf (.sentinel d) = some (.node z) :=
    (h.predOf_sentinel hn).trans hz
  refine ⟨h.nodup_iff.2 hn, fun {i j y} hi hj => ?_, fun {i y q} hq => ?_, fun {i y} hy => ?_,
    fun {i y} hy => ?_, fun {x l} hx => ?_, hs.pend_link, hs.pend_loc⟩
  · rcases h.mem_iff.1 hi with hi | ⟨rfl, rfl⟩ <;> rcases h.mem_iff.1 hj with hj | ⟨rfl, hy⟩
    · exact hs.disj hi hj
    · exact absurd (hy ▸ hi) (h.fresh _)
    · exact absurd hj (h.fresh _)
    · rfl
  · rcases h.mem_iff.1 (List.mem_of_predOf hq) with hy | ⟨rfl, rfl⟩
    · rw [h.predOf_eq hn hy] at hq
      exact hs.pred_node hq
    · exact ⟨z, (Option.some.inj (hpred.symm.trans hq)).symm⟩
  · rcases h.mem_iff.1 hy with hy | ⟨rfl, rfl⟩
    · rw [h.inPrev_eq hn hy]
      rcases hs.prev hy with e | ⟨e, rfl, he, hh, hq⟩
      · exact .inl e
      · by_cases hed : e = d
        · subst hed
          exact .inl ((hf hh).trans (inPrev_of_head (hn _) hh).symm)
        · exact .inr ⟨e, rfl, (hlk hed).trans he, by rw [h.other (by simpa using hed)]; exact hh, hq⟩
    · exact .inl (hp.trans (inPrev_of_predOf hpred).symm)
  · rcases h.mem_iff.1 hy with hy | ⟨rfl, rfl⟩
    · rw [h.inLoc_eq hn hy]
      exact hs.link hy
    · rw [inLoc_of_predOf hpred]
      exact .inl hl
  · obtain ⟨i, hi, rfl⟩ := hs.pend_mem hx
    exact ⟨i, h.mem_iff.2 (.inl hi), h.inLoc_eq hn hi⟩

/-- When the lock is back, the sentinel is no element any more. -/
theorem reopen (h : Closes ch ch' d) (hs : Shape m ch' lk' pend hole)
    (hlk : ∀ {e}, e ≠ d → lk e = lk' e) (hd : lk' d = true) : Shape m ch lk pend hole := by
  have hn := h.nodup_iff.1 hs.nodup
  have hin : ∀ {i y}, y ∈ ch i → y ∈ ch' i := fun hy => h.mem_iff.2 (.inl hy)
  refine ⟨hn, fun hi hj => hs.disj (hin hi) (hin hj), fun {i y q} hq => ?_, fun {i y} hy => ?_,
    fun {i y} hy => ?_, fun {x l} hx => ?_, hs.pend_link, hs.pend_loc⟩
  · rw [← h.predOf_eq hn (List.mem_of_predOf hq)] at hq
    exact hs.pred_node hq
  · rw [← h.inPrev_eq hn hy]
    rcases hs.prev (hin hy) with e | ⟨e, rfl, he, hh, hq⟩
    · exact .inl e
    · have hed : e ≠ d := by
        rintro rfl
        simp [hd] at he
      exact .inr ⟨e, rfl, (hlk hed).trans he, by rw [← h.other (by simpa using hed)]; exact hh, hq⟩
  · rw [← h.inLoc_eq hn hy]
    exact hs.link (hin hy)
  · obtain ⟨i, hi, rfl⟩ := hs.pend_mem hx
    rcases h.mem_iff.1 hi with hi' | ⟨-, e⟩
    · exact ⟨i, hi', (h.inLoc_eq hn hi').symm⟩
    · simp at e

end Closes

end Aiq
