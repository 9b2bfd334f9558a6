import Aiq.Inv.Frame

/-!
# Steps of the owners

The steps of `enqueue`, `reset`, `Node::state` and `Node::drop` outside the lock keep the invariant.
Most of them touch the owner's own node only, and only while it is in no list (`Inv.ownerLocal`).
The two that matter are the tail CAS, which appends the node with its link pending
(`Inv.enqueueCas`), and the link write (`Inv.enqueueLink`).
-/

namespace Aiq

variable {S T : Type} {cfg : Config} {c : State S T} {a : Abs S} {x : NodeId}

/-- `m'` differs from `m` in the words of the node `x` only. -/
structure OnlyNode (m m' : Mem S T) (x : NodeId) : Prop where
  tail : m'.tail = m.tail
  prev : ∀ {y}, y ≠ .node x → m'.prev y = m.prev y
  link : ∀ {l}, l ≠ .next (.node x) → m'.link l = m.link l
  next : m'.link (.next (.node x)) = m.link (.next (.node x)) ∨ m'.link (.next (.node x)) = .null
  parkedNext : m'.parkedNext = m.parkedNext

namespace OnlyNode

variable (m : Mem S T)

theorem refl : OnlyNode m m x := ⟨rfl, fun _ => rfl, fun _ => rfl, .inl rfl, rfl⟩

theorem setPrev (p : Ptr) : OnlyNode m (m.setPrev (.node x) p) x :=
  ⟨rfl, fun h => by simp [Mem.prev_setPrev, h], fun _ => rfl, .inl rfl, rfl⟩

theorem setNext : OnlyNode m (m.setLink (.next (.node x)) .null) x :=
  ⟨rfl, fun _ => rfl, fun h => by simp [Mem.link_setLink, h], .inr (by simp), rfl⟩

theorem setData (v : T) : OnlyNode m (m.setData x v) x :=
  ⟨rfl, fun _ => rfl, fun _ => rfl, .inl rfl, rfl⟩

theorem setToken (b : Bool) : OnlyNode m (m.setToken b) x :=
  ⟨rfl, fun _ => rfl, fun _ => rfl, .inl rfl, rfl⟩

theorem trans {m m₁ m₂ : Mem S T} (h₁ : OnlyNode m m₁ x) (h₂ : OnlyNode m₁ m₂ x) :
    OnlyNode m m₂ x where
  tail := h₂.tail.trans h₁.tail
  prev := fun h => (h₂.prev h).trans (h₁.prev h)
  link := fun h => (h₂.link h).trans (h₁.link h)
  next := by
    rcases h₂.next with h | h
    · rw [h]; exact h₁.next
    · exact .inr h
  parkedNext := h₂.parkedNext.trans h₁.parkedNext

end OnlyNode

/-- The last element of the chain of the queue. -/
theorem getLast?_ch_queue (c : State S T) (a : Abs S) :
    (c.ch a .queue).getLast? = a.queue.getLast?.map .node := by
  simp [State.ch, chain]

/-- The link behind the last node of the queue leads to no element. -/
theorem Inv.inLoc_ne_last (h : Inv cfg c a) {i : ListId} {y : Addr} (hy : y ∈ c.ch a i) :
    inLoc (c.ch a) i y ≠ prevLoc (a.queue.getLast?.map .node) := by
  cases hz : a.queue.getLast? with
  | none =>
    intro e
    have hq : a.queue = [] := List.getLast?_eq_none_iff.1 hz
    unfold inLoc at e
    cases hp : (c.ch a i).predOf y with
    | none =>
      rw [hp] at e
      cases i with
      | queue => simp [State.ch, chain, hq] at hy
      | drain d => simp [ListId.firstLoc, prevLoc] at e
    | some p => rw [hp] at e; simp [prevLoc] at e
  | some z =>
    exact h.shape.inLoc_ne_next_last (j := .queue) (by rw [getLast?_ch_queue, hz]; rfl)

/-- A step of the owner of `x` that touches its own node only: its control state is moved, and the
words of `x` are written if `x` is in no list. -/
theorem Inv.ownerLocal (h : Inv cfg c a) {m : Mem S T} {p : OwnPc S} (hx : c.own x ≠ .locked)
    (hn : c.pend x = none) (hp : p.pend = none) (hm : OnlyNode c.mem m x)
    (hf : (m.prev = c.mem.prev ∧ m.link = c.mem.link) ∨ Out (c.ch a) c.leaving x)
    (ho : OwnOk m (c.ch a) c.leaving x p) : Inv cfg ((c.withMem m).setOwn x p) a := by
  have hpend : ((c.withMem m).setOwn x p).pend = c.pend := by
    funext y
    by_cases hy : y = x
    · subst hy
      simp [State.pend, hp]
      exact hn.symm
    · simp [State.pend, hy]
  have hprev : ∀ y, m.prev y = c.mem.prev y ∨ ∃ z, y = .node z ∧ Foreign c a z := by
    intro y
    rcases hf with ⟨e, -⟩ | hf
    · exact .inl (by rw [e])
    · by_cases hy : y = .node x
      · exact .inr ⟨x, hy, hf, hx⟩
      · exact .inl (hm.prev hy)
  have hlink : ∀ l, m.link l = c.mem.link l ∨
      ∃ z, l = .next (.node z) ∧ Foreign c a z ∧ m.link l = .null := by
    intro l
    rcases hf with ⟨-, e⟩ | hf
    · exact .inl (by rw [e])
    · by_cases hl : l = .next (.node x)
      · subst hl
        rcases hm.next with h' | h'
        · exact .inl h'
        · exact .inr ⟨x, rfl, ⟨hf, hx⟩, h'⟩
      · exact .inl (hm.link hl)
  have hlinkIn : ∀ {i y}, y ∈ c.ch a i → m.link (inLoc (c.ch a) i y) = c.mem.link (inLoc (c.ch a) i y) := by
    intro i y hy
    rcases hlink (inLoc (c.ch a) i y) with h' | ⟨z, hz, hf, -⟩
    · exact h'
    · exact absurd hz (inLoc_ne_next hf.1.1)
  have hprevIn : ∀ {i y}, y ∈ c.ch a i → m.prev y = c.mem.prev y := by
    intro i y hy
    rcases hprev y with h' | ⟨z, rfl, hf⟩
    · exact h'
    · exact absurd hy (hf.1.1 i)
  have e : EnvStep c a ((c.withMem m).setOwn x p) a :=
    { mutex := rfl
      queue := ⟨[], by simp, by simp⟩
      nodup := (h.shape.nodup .queue).of_map
      drained := rfl
      lk := fun _ => rfl
      fresh := fun hd => hd
      held := fun _ => Iff.rfl
      pend := fun {y} hy => .inl (by rw [hpend]; exact hy)
      locked := fun {y} hy => by
        have hyx : y ≠ x := by rintro rfl; exact hx hy
        simpa [hyx] using hy
      prev := hprev
      link := fun l => (hlink l).imp_right .inl
      parkedNext := hm.parkedNext }
  refine h.env e ?_ (hm.tail.trans h.tail) ?_ ?_ (fun d => e.drainOk h d) h.thread
  · rw [hpend]
    exact h.shape.of_mem hprevIn hlinkIn
  · rcases hlink (prevLoc (a.queue.getLast?.map .node)) with h' | ⟨z, -, -, h'⟩
    · exact h'.trans h.last
    · exact h'
  · intro y
    by_cases hy : y = x
    · subst hy
      have : ((c.withMem m).setOwn y p).own y = p := by simp
      rw [this]
      exact ho
    · have : ((c.withMem m).setOwn x p).own y = c.own y := by simp [hy]
      rw [this]
      have hne : Addr.node y ≠ .node x := by simpa using hy
      exact (h.own y).frame (fun ho => ⟨ho, hm.prev hne, hm.link (by simpa using hy)⟩)
        (fun ho ho' => absurd ho' ho)

/-! ## The tail CAS -/

theorem Abs.tail?_tail (a : Abs S) : a.tail.tail? = a.queue.getLast?.map .node := by
  unfold Abs.tail
  cases a.queue.getLast? <;> rfl

/-- The `prev` value of a node that is enqueued behind such a tail. -/
theorem StateOrPtr.NoSentinel.prevPtr {t : StateOrPtr S} (h : t.NoSentinel) :
    (prevPtr t.tail?).NoSentinel := by
  intro d
  cases t with
  | state s => simp [tail?, Aiq.prevPtr, headMarker, RawNodeState.intoPtr]
  | ptr b => simpa [tail?, Aiq.prevPtr] using h d

theorem Abs.noSentinel_tail (a : Abs S) : a.tail.NoSentinel := by
  intro d
  unfold Abs.tail
  cases a.queue.getLast? <;> simp

theorem prevPtr_eq_inPrev (c : State S T) (a : Abs S) (y : Addr) :
    inPrev (c.ch a) .queue y = prevPtr ((c.ch a .queue).predOf y) := by
  unfold inPrev
  cases (c.ch a .queue).predOf y <;> rfl

theorem prevLoc_eq_inLoc (c : State S T) (a : Abs S) (y : Addr) :
    inLoc (c.ch a) .queue y = prevLoc ((c.ch a .queue).predOf y) := by
  unfold inLoc
  cases (c.ch a .queue).predOf y <;> rfl

/-- The successful tail CAS of `enqueue` appends the node, with its link pending. -/
theorem Inv.enqueueCas (h : Inv cfg c a) {f : MatchState S} {i : ℕ} {t : StateOrPtr S}
    (hx : c.own x = .cas f i t) (ht : c.mem.tail = t) :
    ¬ a.Member x ∧
      Inv cfg ((c.withMem (c.mem.setTail (.ptr (.node x)))).setOwn x (.link t.tail?))
        (a.apply (.enqueue x)) := by
  obtain ⟨hout, hnext, hprev, -⟩ : OwnOk c.mem (c.ch a) c.leaving x (.cas f i t) := hx ▸ h.own x
  have hmem : ¬ a.Member x := fun hm => by
    obtain ⟨j, hj⟩ := member_iff.1 hm
    exact hout.1 j hj
  refine ⟨hmem, ?_⟩
  have htl : t.tail? = (c.ch a .queue).getLast? := by
    rw [← ht, h.tail, Abs.tail?_tail, getLast?_ch_queue]
  set c' := (c.withMem (c.mem.setTail (.ptr (.node x)))).setOwn x (.link t.tail?) with hc'
  set a' := a.apply (.enqueue x) with ha'
  have hf : Foreign c a x := ⟨hout, by simp [hx]⟩
  have hpx : c.pend x = none := by simp [State.pend, hx, OwnPc.pend]
  have hpx' : c'.pend x = some (prevLoc t.tail?) := by simp [hc', State.pend, OwnPc.pend]
  have hpy : ∀ {y}, y ≠ x → c'.pend y = c.pend y := fun {y} hy => by simp [hc', State.pend, hy]
  have hnq : (a.queue ++ [x]).Nodup := by
    have h₁ : a.queue.Nodup := (h.shape.nodup .queue).of_map
    have h₂ : x ∉ a.queue := fun hm => hmem (.inl hm)
    simpa [List.nodup_append] using ⟨h₁, fun y hy e => h₂ (e ▸ hy)⟩
  have e : EnvStep c a c' a' :=
    { mutex := rfl
      queue := ⟨[x], rfl, by simpa using hf⟩
      nodup := hnq
      drained := rfl
      lk := fun _ => rfl
      fresh := fun hd => hd
      held := fun _ => Iff.rfl
      pend := fun {y} hy => by
        by_cases hyx : y = x
        · exact .inr (hyx ▸ hf)
        · exact .inl (by rw [hpy hyx]; exact hy)
      locked := fun {y} hy => by
        have hyx : y ≠ x := by rintro rfl; simp [hx] at hy
        simpa [hc', hyx] using hy
      prev := fun _ => .inl rfl
      link := fun _ => .inl rfl
      parkedNext := rfl }
  have hq' : c'.ch a' .queue = c.ch a .queue ++ [.node x] := by simp [State.ch, chain, ha', Abs.apply]
  have hnd := e.nodup_ch h .queue
  rw [hq'] at hnd
  -- the new element, its predecessor and its link
  have hpred : (c'.ch a' .queue).predOf (.node x) = t.tail? := by
    rw [hq', htl]
    exact List.predOf_append_self hnd
  have hmem' : ∀ {i y}, y ∈ c'.ch a' i → y ∈ c.ch a i ∨ i = .queue ∧ y = .node x := by
    intro i y hy
    cases i with
    | queue => rw [hq'] at hy; simpa using hy
    | drain d => rw [e.ch_drain] at hy; exact .inl hy
  have hxin : Addr.node x ∈ c'.ch a' .queue := by rw [hq']; simp
  have hloc : inLoc (c'.ch a') .queue (.node x) = prevLoc t.tail? := by
    rw [prevLoc_eq_inLoc, hpred]
  have hlast : c.mem.link (prevLoc t.tail?) = .null := by
    rw [htl, getLast?_ch_queue]
    exact h.last
  refine h.env e ?_ ?_ ?_ ?_ (fun d => e.drainOk h d) h.thread
  · refine ⟨e.nodup_ch h, ?_, ?_, ?_, ?_, ?_, ?_, ?_⟩
    · intro i j y hi hj
      rcases hmem' hi with hi | ⟨rfl, rfl⟩ <;> rcases hmem' hj with hj | ⟨rfl, hy⟩
      · exact h.shape.disj hi hj
      · exact absurd (hy ▸ hi) (hout.1 i)
      · exact absurd hj (hout.1 j)
      · rfl
    · intro i y p hp
      rcases hmem' (List.mem_of_predOf hp) with hy | ⟨rfl, rfl⟩
      · rw [e.predOf_ch h hy] at hp
        exact h.shape.pred_node hp
      · rw [hpred, htl, getLast?_ch_queue] at hp
        obtain ⟨z, -, rfl⟩ := Option.map_eq_some_iff.1 hp
        exact ⟨z, rfl⟩
    · intro i y hy
      rcases hmem' hy with hy | ⟨rfl, rfl⟩
      · rw [e.inPrev_ch h hy]
        refine (h.shape.prev hy).imp_right ?_
        rintro ⟨d, rfl, hd, hh, hs⟩
        exact ⟨d, rfl, hd, e.head_ch hh, hs⟩
      · left
        rw [prevPtr_eq_inPrev, hpred]
        exact hprev
    · intro i y hy
      rcases hmem' hy with hy₀ | ⟨rfl, rfl⟩
      · rw [e.inLoc_ch h hy₀]
        refine (h.shape.link hy₀).imp_right (Or.imp_right ?_)
        rintro ⟨z, rfl, hz⟩
        have hzx : z ≠ x := fun hzx => hout.1 i (hzx ▸ hy₀)
        exact ⟨z, rfl, by rw [hpy hzx]; exact hz⟩
      · exact .inr (.inr ⟨x, rfl, by rw [hpx', hloc]⟩)
    · intro z l hz
      by_cases hzx : z = x
      · subst hzx
        rw [hpx'] at hz
        exact ⟨.queue, hxin, by rw [hloc]; simpa using hz⟩
      · rw [hpy hzx] at hz
        obtain ⟨i, hi, rfl⟩ := h.shape.pend_mem hz
        exact ⟨i, e.mem_ch hi, e.inLoc_ch h hi⟩
    · intro z l hz
      by_cases hzx : z = x
      · subst hzx
        rw [hpx'] at hz
        obtain rfl : prevLoc t.tail? = l := by simpa using hz
        exact .inl hlast
      · rw [hpy hzx] at hz
        exact h.shape.pend_link hz
    · intro z l d hz
      by_cases hzx : z = x
      · subst hzx
        rw [hpx', htl, getLast?_ch_queue] at hz
        obtain rfl := Option.some.inj hz
        cases a.queue.getLast? <;> simp [prevLoc]
      · rw [hpy hzx] at hz
        exact h.shape.pend_loc hz
  · simp [ha', hc', Abs.apply, Abs.tail]
  · simpa [ha', hc', Abs.apply, prevLoc] using hnext
  · intro y
    by_cases hyx : y = x
    · subst hyx
      have : c'.own y = .link t.tail? := by simp [hc']
      rw [this]
      trivial
    · have hoy : c'.own y = c.own y := by simp [hc', hyx]
      rw [hoy]
      refine (h.own y).frame (fun ho => ⟨⟨fun i hi => ?_, ho.2⟩, rfl, rfl⟩) (fun ho ho' => absurd ⟨fun i hi => ?_, ho'.2⟩ ho)
      · rcases hmem' hi with hi | ⟨-, hy⟩
        · exact ho.1 i hi
        · exact hyx (by simpa using hy)
      · exact ho'.1 i (e.mem_ch hi)

/-! ## The link write -/

/-- Phase 2 of `enqueue` writes the pending link. -/
theorem Inv.enqueueLink (h : Inv cfg c a) {l : Loc} {p : OwnPc S} (hx : c.pend x = some l)
    (hp : p = .idle ∨ p = .unpark ∨ ∃ k, p = .parkedLoad k) :
    Inv cfg ((c.withMem (c.mem.setLink l (.to (.node x)))).setOwn x p) a := by
  obtain ⟨i, hi, rfl⟩ := h.shape.pend_mem hx
  set l := inLoc (c.ch a) i (.node x) with hl
  set c' := (c.withMem (c.mem.setLink l (.to (.node x)))).setOwn x p with hc'
  have hpx' : c'.pend x = none := by
    rcases hp with rfl | rfl | ⟨k, rfl⟩ <;> simp [hc', State.pend, OwnPc.pend]
  have hpy : ∀ {y}, y ≠ x → c'.pend y = c.pend y := fun {y} hy => by simp [hc', State.pend, hy]
  have hlk : ∀ {k}, k ≠ l → c'.mem.link k = c.mem.link k := fun {k} hk => by
    simp [hc', Mem.link_setLink, hk]
  have hll : c'.mem.link l = .to (.node x) := by simp [hc']
  have hlocked : c.own x ≠ .locked := by
    intro ho
    simp [State.pend, ho, OwnPc.pend] at hx
  have e : EnvStep c a c' a :=
    { mutex := rfl
      queue := ⟨[], by simp, by simp⟩
      nodup := (h.shape.nodup .queue).of_map
      drained := rfl
      lk := fun _ => rfl
      fresh := fun hd => hd
      held := fun _ => Iff.rfl
      pend := fun {y} hy => by
        by_cases hyx : y = x
        · exact .inl (hyx ▸ hpx')
        · exact .inl (by rw [hpy hyx]; exact hy)
      locked := fun {y} hy => by
        have hyx : y ≠ x := by rintro rfl; exact hlocked hy
        simpa [hc', hyx] using hy
      prev := fun _ => .inl rfl
      link := fun k => by
        by_cases hk : k = l
        · subst hk
          exact .inr (.inr ⟨x, hx, hll⟩)
        · exact .inl (hlk hk)
      parkedNext := rfl }
  refine h.env e ?_ h.tail ?_ ?_ (fun d => e.drainOk h d) h.thread
  · refine ⟨h.shape.nodup, h.shape.disj, h.shape.pred_node, h.shape.prev, ?_, ?_, ?_, ?_⟩
    · intro j y hy
      by_cases hk : inLoc (c.ch a) j y = l
      · obtain ⟨-, rfl⟩ := h.shape.inLoc_inj hy hi hk
        left
        show c'.mem.link (inLoc (c.ch a) j (.node x)) = _
        rw [hk, hll]
      · show c'.mem.link (inLoc (c.ch a) j y) = _ ∨ _
        rw [hlk hk]
        refine (h.shape.link hy).imp_right (Or.imp_right ?_)
        rintro ⟨z, rfl, hz⟩
        have hzx : z ≠ x := by
          rintro rfl
          rw [hx] at hz
          exact hk (Option.some.inj hz).symm
        exact ⟨z, rfl, by rw [hpy hzx]; exact hz⟩
    · intro z k hz
      have hzx : z ≠ x := by rintro rfl; simp [hpx'] at hz
      rw [hpy hzx] at hz
      exact h.shape.pend_mem hz
    · intro z k hz
      have hzx : z ≠ x := by rintro rfl; simp [hpx'] at hz
      rw [hpy hzx] at hz
      have hk : k ≠ l := by
        rintro rfl
        exact hzx (h.shape.pend_inj hz hx)
      rw [hlk hk]
      exact h.shape.pend_link hz
    · intro z k d hz
      have hzx : z ≠ x := by rintro rfl; simp [hpx'] at hz
      rw [hpy hzx] at hz
      exact h.shape.pend_loc hz
  · rw [hlk (fun e => h.inLoc_ne_last hi (hl.symm.trans e.symm))]
    exact h.last
  · intro y
    by_cases hyx : y = x
    · subst hyx
      have : c'.own y = p := by simp [hc']
      rw [this]
      have hno : ¬ Out (c'.ch a) c'.leaving y := fun ho => ho.1 i hi
      rcases hp with rfl | rfl | ⟨k, rfl⟩ <;> exact fun ho => absurd ho hno
    · have hoy : c'.own y = c.own y := by simp [hc', hyx]
      rw [hoy]
      exact (h.own y).frame (fun ho => ⟨ho, rfl, hlk (fun e => inLoc_ne_next ho.1 (hl.symm.trans e.symm))⟩)
        (fun ho ho' => absurd ho' ho)

/-! ## The steps -/

/-- A step of the owner of `x` that moves its control state only. -/
theorem Inv.ownerMove (h : Inv cfg c a) {p : OwnPc S} (hx : c.own x ≠ .locked)
    (hn : c.pend x = none) (hp : p.pend = none) (ho : OwnOk c.mem (c.ch a) c.leaving x p) :
    Inv cfg (c.setOwn x p) a :=
  h.ownerLocal hx hn hp (.refl _) (.inl ⟨rfl, rfl⟩) ho

/-- An instruction of the owner of `x`. -/
theorem Inv.ownerStep [DecidableEq S] (h : Inv cfg c a) {weak : Bool} {c' : State S T} {e : Event S}
    (hu : (c.own x).unwindsLate = false) (hs : ownerStep cfg c x weak = some (c', e)) :
    a.Allows e ∧ Inv cfg c' (a.apply e) := by
  have hok := h.own x
  cases ho : c.own x <;> rw [ho] at hok <;> simp only [Aiq.ownerStep, ho, reduceCtorEq] at hs
  case check f i t =>
    have hx : c.own x ≠ .locked := by simp [ho]
    have hn : c.pend x = none := by simp [State.pend, ho, OwnPc.pend]
    obtain ⟨hout, hl, hp, ht, h0⟩ := hok
    cases hv : f i t.state? <;> rw [hv] at hs <;> obtain ⟨rfl, rfl⟩ := hs
    case accept => exact ⟨trivial, h.ownerMove hx hn rfl ⟨hout, hl, hp, ht, hv⟩⟩
    case refuse => exact ⟨trivial, h.ownerMove hx hn rfl ⟨hout, hl, hp⟩⟩
    case unwind =>
      -- only the first call may unwind, when nothing is stored yet
      have hi : i = 0 := by simpa [ho, OwnPc.unwindsLate, hv] using hu
      exact ⟨trivial, h.ownerMove hx hn rfl fun _ => .inr ⟨h0 hi, hl⟩⟩
  case refuse =>
    obtain ⟨rfl, rfl⟩ := hs
    obtain ⟨hout, hl, -⟩ := hok
    exact ⟨trivial, h.ownerLocal (by simp [ho]) (by simp [State.pend, ho, OwnPc.pend]) rfl
      (.setPrev _ _) (.inr hout) ⟨hout, by simp [RawNodeState.intoPtr], hl⟩⟩
  case store f i t =>
    obtain ⟨rfl, rfl⟩ := hs
    obtain ⟨hout, hl, -, ht⟩ := hok
    exact ⟨trivial, h.ownerLocal (by simp [ho]) (by simp [State.pend, ho, OwnPc.pend]) rfl
      (.setPrev _ _) (.inr hout) ⟨hout, hl, by simp, ht⟩⟩
  case cas f i t =>
    split at hs
    · rename_i hc
      obtain ⟨rfl, rfl⟩ := hs
      exact h.enqueueCas ho hc.1
    · obtain ⟨rfl, rfl⟩ := hs
      obtain ⟨hout, hl, hp, ht, -⟩ := hok
      refine ⟨trivial, h.ownerMove (by simp [ho]) (by simp [State.pend, ho, OwnPc.pend]) rfl
        ⟨hout, hl, hp ▸ ht.prevPtr, by rw [h.tail]; exact a.noSentinel_tail, by simp⟩⟩
  case link p =>
    obtain ⟨rfl, rfl⟩ := hs
    refine ⟨trivial, ?_⟩
    have hp : c.pend x = some (prevLoc p) := by simp [State.pend, ho, OwnPc.pend]
    unfold linkStep
    cases cfg.variant with
    | neverBlocks => exact h.enqueueLink hp (.inl rfl)
    | parkedNext => exact h.enqueueLink hp (.inr (.inr ⟨_, rfl⟩))
    | x86 => exact h.enqueueLink hp (by split <;> simp)
  case parkedLoad l =>
    obtain ⟨rfl, rfl⟩ := hs
    refine ⟨trivial, h.ownerMove (by simp [ho]) (by simp [State.pend, ho, OwnPc.pend]) ?_ ?_⟩
    · split <;> rfl
    · split <;> exact hok
  case unpark =>
    obtain ⟨rfl, rfl⟩ := hs
    exact ⟨trivial, h.ownerLocal (by simp [ho]) (by simp [State.pend, ho, OwnPc.pend]) rfl
      (.setToken _ _) (.inl ⟨rfl, rfl⟩) hok⟩
  case resetNext =>
    obtain ⟨rfl, rfl⟩ := hs
    exact ⟨trivial, h.ownerLocal (by simp [ho]) (by simp [State.pend, ho, OwnPc.pend]) rfl
      (.setNext _) (.inr hok.1) ⟨hok.1, hok.2, by simp⟩⟩
  case waitState =>
    cases hm : c.mutex <;> simp only [hm, reduceCtorEq, Option.some.injEq, Prod.mk.injEq] at hs
    obtain ⟨rfl, rfl⟩ := hs
    have h' : Inv cfg (c.setOwn x .locked) a :=
      h.ownerMove (by simp [ho]) (by simp [State.pend, ho, OwnPc.pend]) rfl hok
    refine ⟨trivial, h'.acquire hm rfl rfl ?_⟩
    simp [HolderOk]
  case waitDrop =>
    cases hm : c.mutex <;> simp only [hm, reduceCtorEq, Option.some.injEq, Prod.mk.injEq] at hs
    obtain ⟨rfl, rfl⟩ := hs
    have h' : Inv cfg (c.setOwn x .locked) a :=
      h.ownerMove (by simp [ho]) (by simp [State.pend, ho, OwnPc.pend]) rfl hok
    refine ⟨trivial, h'.acquire hm rfl rfl ?_⟩
    simp [HolderOk]

/-- The node that is on its way out is still marked as queued. -/
theorem Inv.leaving_ok (h : Inv cfg c a) (hx : c.leaving = some x) : Leaving c a x := by
  obtain ⟨p, hp, hl⟩ := Option.bind_eq_some_iff.1 hx
  have hk := h.holder hp
  cases p <;> simp only [HolderPc.leaving, reduceCtorEq, Option.some.injEq] at hl
  case rmSetNext r b => exact hl ▸ hk.2.2.1
  case rmDone r e => exact hl ▸ hk.1
  case ddDone d b flush =>
    cases b <;> simp only [reduceCtorEq, Option.some.injEq] at hl
    subst hl
    rcases hk.2 with ⟨z, hz, hl⟩ | ⟨-, hz⟩
    · obtain rfl := Addr.node.inj hz
      exact hl
    · simp at hz

/-- A node that is not marked as queued is in no list. -/
theorem Inv.out_of_rawState (h : Inv cfg c a) (hx : c.mem.rawState x ≠ .queued) :
    Out (c.ch a) c.leaving x :=
  ⟨fun _ hi => hx (h.shape.state_eq_queued hi), fun hl => hx (h.leaving_ok hl).queued⟩

/-- A call of the owner of `x`. -/
theorem Inv.ownerCall (h : Inv cfg c a) {k : OwnerCall S T} {c' : State S T} {e : Event S}
    (hs : ownerCall c x k = some (c', e)) : a.Allows e ∧ Inv cfg c' (a.apply e) := by
  have hok := h.own x
  cases ho : c.own x <;> rw [ho] at hok <;> cases k <;>
    simp only [Aiq.ownerCall, ho, reduceCtorEq] at hs
  all_goals have hx : c.own x ≠ .locked := by simp [ho]
  all_goals have hn : c.pend x = none := by simp [State.pend, ho, OwnPc.pend]
  case dead.create v =>
    obtain ⟨rfl, rfl⟩ := hs
    refine ⟨trivial, h.ownerLocal hx hn rfl (((OnlyNode.setPrev _ _).trans (.setNext _)).trans
      (.setData _ _)) (.inr hok.1) fun _ => .inr ⟨?_, ?_⟩⟩
    · simp
    · simp
  case idle.state =>
    cases hr : c.mem.rawState x <;> rw [hr] at hs <;> obtain ⟨rfl, rfl⟩ := hs
    case unqueued =>
      have hp : c.mem.prev (.node x) = .null := Ptr.state_eq_unqueued.1 hr
      have hout := h.out_of_rawState (x := x) (by simp [hr])
      refine ⟨trivial, h.ownerMove hx hn rfl ⟨hout, hp, ?_⟩⟩
      rcases hok hout with e | ⟨-, e⟩
      · simp [hp] at e
      · exact e
    case queued =>
      refine ⟨trivial, h.ownerMove hx hn rfl fun hout => ?_⟩
      rcases hok hout with e | ⟨e, -⟩
      · exact e
      · simp [Mem.rawState, e, Ptr.state] at hr
    case dequeued =>
      have hout := h.out_of_rawState (x := x) (by simp [hr])
      exact ⟨trivial, h.ownerMove hx hn rfl ⟨hout, Ptr.state_eq_dequeued.1 hr⟩⟩
  case idle.drop =>
    cases hr : c.mem.rawState x <;> rw [hr] at hs <;> obtain ⟨rfl, rfl⟩ := hs
    case queued =>
      refine ⟨trivial, h.ownerMove hx hn rfl fun hout => ?_⟩
      rcases hok hout with e | ⟨e, -⟩
      · exact e
      · simp [Mem.rawState, e, Ptr.state] at hr
    all_goals
      have hq : c.mem.rawState x ≠ .queued := by simp [hr]
      exact ⟨trivial, h.ownerMove hx hn rfl ⟨h.out_of_rawState hq, hq⟩⟩
  case unqueued.enqueue f =>
    obtain ⟨rfl, rfl⟩ := hs
    obtain ⟨hout, hp, hl⟩ := hok
    exact ⟨trivial, h.ownerMove hx hn rfl ⟨hout, hl, by simp [Ptr.NoSentinel, hp],
      by rw [h.tail]; exact a.noSentinel_tail, fun _ => hp⟩⟩
  case unqueued.release =>
    obtain ⟨rfl, rfl⟩ := hs
    exact ⟨trivial, h.ownerMove hx hn rfl fun _ => .inr hok.2⟩
  case unqueued.withDataMut g =>
    obtain ⟨rfl, rfl⟩ := hs
    exact ⟨trivial, h.setData _ _⟩
  case dequeued.release =>
    obtain ⟨rfl, rfl⟩ := hs
    exact ⟨trivial, h.ownerMove hx hn rfl fun _ => .inl hok.2⟩
  case dequeued.reset =>
    obtain ⟨rfl, rfl⟩ := hs
    exact ⟨trivial, h.ownerLocal hx hn rfl (.setPrev _ _) (.inr hok.1)
      ⟨hok.1, by simp [RawNodeState.intoPtr]⟩⟩
  case dequeued.withDataMut g =>
    obtain ⟨rfl, rfl⟩ := hs
    exact ⟨trivial, h.setData _ _⟩

end Aiq
