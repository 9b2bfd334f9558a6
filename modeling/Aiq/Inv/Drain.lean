import Aiq.Inv.Remove

/-!
# Draining

`Drain::new` takes the whole queue with the tail swap (`Inv.drainSwap`): the chain of the queue
becomes the chain of the new `Drain`, behind its sentinel. The holder then takes the nodes from its
head (`Inv.ddSetHead`), or closes the chain through the sentinel before it releases the lock
(`Inv.exPrev`, `Inv.exTailStore`).
-/

namespace Aiq

variable {S T : Type} {cfg : Config} {c : State S T} {a : Abs S} {p : HolderPc S} {i j : ListId}
  {x : NodeId} {y b : Addr} {d : DrainId}

/-! ## Chains and sentinels -/

theorem ch_setDrain_ne {q : DrainPc} (hj : j ≠ .drain d) : (c.setDrain d q).ch a j = c.ch a j := by
  cases j with
  | queue => rfl
  | drain e =>
    have hne : e ≠ d := fun h => hj (h ▸ rfl)
    simp [State.ch, chain, hne]

theorem ch_setDrain {q : DrainPc} (hq : q.linked = c.lk d) : (c.setDrain d q).ch a = c.ch a := by
  funext j
  by_cases hj : j = .drain d
  · subst hj
    rw [State.lk] at hq
    simp [State.ch, chain, hq]
  · exact ch_setDrain_ne hj

theorem prevLoc_last_ne_sentinel (l : List NodeId) :
    prevLoc (l.getLast?.map .node) ≠ .next (.sentinel d) := by
  cases l.getLast? <;> simp [prevLoc]

/-- The head of a `Drain` that holds the lock leads to its first node. -/
theorem Inv.first_link (h : Inv cfg c a) (hp : c.mutex = some p) (hd : p.drainId = some d)
    (hh : p.hole = none) (hx : (a.drained d).rest.head? = some x) :
    c.mem.link (.next (.sentinel d)) = .to (.node x) := by
  have hlk := h.lk_held hp hd
  have hx' : (c.ch a (.drain d)).head? = some (.node x) := by simp [ch_drain_of_lk hlk, hx]
  have hl := inLoc_of_head (h.shape.nodup _) hx'
  have hm := List.mem_of_head? hx'
  rcases h.shape.link hm with e | e | ⟨z, -, hz⟩
  · rwa [hl] at e
  · simp [State.hole, hp, hh] at e
  · rw [hl] at hz
    exact absurd rfl (h.shape.pend_loc hz)

theorem Inv.openOk (h : Inv cfg c a) (hp : c.mutex = some p) (hd : p.drainId = some d) :
    OpenOk c.mem (a.drained d).rest d := by
  have hq : c.drains d = .held := (h.held d).2 (by simp [hp, hd])
  have := h.drain d
  rwa [hq] at this

/-- What the head of a `Drain` that holds the lock can be. -/
theorem Inv.head_cases (h : Inv cfg c a) (hp : c.mutex = some p) (hd : p.drainId = some d)
    (hh : p.hole = none) :
    (∃ x, (a.drained d).rest.head? = some x ∧ c.mem.link (.next (.sentinel d)) = .to (.node x)) ∨
      (a.drained d).rest = [] ∧ (c.mem.link (.next (.sentinel d)) = .null ∨
        c.mem.link (.next (.sentinel d)) = .to (.sentinel d) ∧
          c.mem.prev (.sentinel d) = .to (.sentinel d)) := by
  cases hr : (a.drained d).rest with
  | nil => exact .inr ⟨rfl, (h.openOk hp hd).empty hr⟩
  | cons x l => exact .inl ⟨x, rfl, h.first_link hp hd hh (by rw [hr]; rfl)⟩

/-- Only one `Drain` holds the lock. -/
theorem Inv.eq_of_held (h : Inv cfg c a) (hp : c.mutex = some p) (hd : p.drainId = some d)
    {e : DrainId} (he : c.drains e = .held) : e = d := by
  have := (h.held e).1 he
  rw [hp, Option.bind_some, hd] at this
  exact (Option.some.inj this).symm

/-! ## `Drain::new` -/

/-- `head` is cleared. -/
theorem Inv.drainClear (h : Inv cfg c a) {s : S} (hp : c.mutex = some (.drainClear d b s)) :
    Inv cfg ((c.withMem (c.mem.setLink .head .null)).hold (.drainSwap d b s)) a := by
  obtain ⟨hb, hw, hd⟩ := h.holder hp
  have hl : inLoc (c.ch a) .queue b = .head := inLoc_of_head (h.shape.nodup _) hb
  rw [← hl]
  refine h.clearLink hp ⟨rfl, rfl, rfl, rfl, rfl⟩ ⟨rfl, rfl, rfl⟩ (List.mem_of_head? hb)
    ⟨hb, hw, hd, ?_⟩
  rw [hl]
  simp

section NewSentinel

variable (m : Mem S T) (t h : Ptr)

@[simp] theorem Mem.tail_newSentinel : (m.newSentinel d t h).tail = m.tail := rfl

@[simp] theorem Mem.prev_newSentinel_self : (m.newSentinel d t h).prev (.sentinel d) = t := by
  simp [newSentinel]

@[simp] theorem Mem.link_newSentinel_self : (m.newSentinel d t h).link (.next (.sentinel d)) = h := by
  simp [newSentinel]

theorem Mem.prev_newSentinel_ne (hy : y ≠ .sentinel d) : (m.newSentinel d t h).prev y = m.prev y := by
  simp [newSentinel, prev_setPrev, hy]

theorem Mem.link_newSentinel_ne {l : Loc} (hl : l ≠ .next (.sentinel d)) :
    (m.newSentinel d t h).link l = m.link l := by
  simp [newSentinel, link_setLink, hl]

end NewSentinel

/-- The tail swap: the queue becomes the list of the new `Drain`. -/
theorem Inv.drainSwap (h : Inv cfg c a) {s : S} (hp : c.mutex = some (.drainSwap d b s)) :
    ∃ z, c.mem.tail = .ptr z ∧ a.queue ≠ [] ∧
      Inv cfg (((c.withMem ((c.mem.setTail (.state s)).newSentinel d (.to z) (.to b))).setDrain d
        .held).hold (.drain d)) (a.apply (.drain d s)) := by
  obtain ⟨hb, hw, hd, hl⟩ := h.holder hp
  have hnh := h.not_held hp rfl
  obtain ⟨z, hz⟩ : ∃ z, a.queue.getLast? = some z := by
    cases e : a.queue.getLast? with
    | none => simp [State.ch, chain, List.getLast?_eq_none_iff.1 e] at hb
    | some z => exact ⟨z, rfl⟩
  have ht : c.mem.tail = .ptr (.node z) := h.tail.trans (Abs.tail_eq_ptr_iff.2 ⟨z, hz, rfl⟩)
  have hq : a.queue ≠ [] := by rintro e; simp [e] at hz
  refine ⟨.node z, ht, hq, ?_⟩
  set m := (c.mem.setTail (.state s)).newSentinel d (.to (.node z)) (.to b) with hm
  set c' := ((c.withMem m).setDrain d .held).hold (.drain d) with hc'
  set a' := a.apply (.drain d s) with ha'
  have hlkd : c.lk d = false := by rw [State.lk, hd]; rfl
  have hlke : ∀ {e}, e ≠ d → c'.lk e = c.lk e := fun he => by simp [hc', State.lk, he]
  have hprev : ∀ {y}, y ≠ .sentinel d → m.prev y = c.mem.prev y := Mem.prev_newSentinel_ne _ _ _
  have hlink : ∀ {l}, l ≠ .next (.sentinel d) → m.link l = c.mem.link l :=
    Mem.link_newSentinel_ne _ _ _
  -- the lists, old and new
  have chq : c'.ch a' .queue = [] := rfl
  have chd : c'.ch a' (.drain d) = c.ch a .queue := by
    simp [State.ch, chain, hc', ha', Abs.apply, DrainPc.linked, DrainLog.start]
  have che : ∀ {e}, e ≠ d → c'.ch a' (.drain e) = c.ch a (.drain e) := fun he => by
    simp [State.ch, chain, hc', ha', Abs.apply, he]
  have hold : c.ch a (.drain d) = [] := (h.ch_eq_nil (hnh d) hlkd).2
  have hsent : ∀ {i y}, y ∈ c.ch a i → y ≠ .sentinel d := by
    rintro i y hy rfl
    have := (sentinel_mem_ch hy).2
    simp [hlkd] at this
  have hlocs : ∀ {i y}, y ∈ c.ch a i → inLoc (c.ch a) i y ≠ .next (.sentinel d) := fun hy =>
    h.inLoc_ne_sentinel (hnh d) hlkd hy
  have hmem : ∀ {j y}, y ∈ c'.ch a' j → j = .drain d ∧ y ∈ c.ch a .queue ∨
      ∃ e, e ≠ d ∧ j = .drain e ∧ y ∈ c.ch a (.drain e) := by
    intro j y hy
    cases j with
    | queue => simp [chq] at hy
    | drain e =>
      by_cases he : e = d
      · subst he
        exact .inl ⟨rfl, chd ▸ hy⟩
      · exact .inr ⟨e, he, rfl, che he ▸ hy⟩
  have hnode : ∀ {z : NodeId}, (∃ j, .node z ∈ c'.ch a' j) ↔ ∃ j, .node z ∈ c.ch a j := by
    intro z
    constructor
    · rintro ⟨j, hj⟩
      rcases hmem hj with ⟨-, hy⟩ | ⟨e, -, -, hy⟩
      · exact ⟨_, hy⟩
      · exact ⟨_, hy⟩
    · rintro ⟨j, hj⟩
      cases j with
      | queue => exact ⟨.drain d, chd ▸ hj⟩
      | drain e =>
        by_cases he : e = d
        · subst he
          simp [hold] at hj
        · exact ⟨.drain e, che he ▸ hj⟩
  have hout : ∀ z, Out (c'.ch a') c'.leaving z ↔ Out (c.ch a) c.leaving z := by
    intro z
    have h₁ : c'.leaving = none := rfl
    have h₂ : c.leaving = none := by simp [State.leaving, hp, HolderPc.leaving]
    simp only [Out, h₁, h₂, ← not_exists, hnode]
  -- behind the first node nothing changes
  have hpred : ∀ {y q}, (c.ch a .queue).predOf y = some q →
      inLoc (c'.ch a') (.drain d) y = inLoc (c.ch a) .queue y ∧
        inPrev (c'.ch a') (.drain d) y = inPrev (c.ch a) .queue y := by
    intro y q hy
    simp [inLoc, inPrev, chd, hy]
  have hloce : ∀ {e y}, e ≠ d → inLoc (c'.ch a') (.drain e) y = inLoc (c.ch a) (.drain e) y ∧
      inPrev (c'.ch a') (.drain e) y = inPrev (c.ch a) (.drain e) y := by
    intro e y he
    simp [inLoc, inPrev, che he]
  have hshape : Shape m (c'.ch a') c'.lk c.pend none := by
    refine ⟨fun j => ?_, fun {j k y} hj hk => ?_, fun {j y q} hj => ?_, fun {j y} hy => ?_,
      fun {j y} hy => ?_, fun {x l} hx => ?_, fun {x l} hx => ?_, h.shape.pend_loc⟩
    · cases j with
      | queue => simp [chq]
      | drain e =>
        by_cases he : e = d
        · subst he
          rw [chd]
          exact h.shape.nodup _
        · rw [che he]
          exact h.shape.nodup _
    · rcases hmem hj with ⟨rfl, hy⟩ | ⟨e, he, rfl, hy⟩ <;>
        rcases hmem hk with ⟨rfl, hy'⟩ | ⟨e', he', rfl, hy'⟩
      · rfl
      · exact absurd (h.shape.disj hy hy') (by simp)
      · exact absurd (h.shape.disj hy hy') (by simp)
      · exact h.shape.disj hy hy'
    · rcases hmem (List.mem_of_predOf hj) with ⟨rfl, -⟩ | ⟨e, he, rfl, -⟩
      · rw [chd] at hj
        exact h.shape.pred_node hj
      · rw [che he] at hj
        exact h.shape.pred_node hj
    · rcases hmem hy with ⟨rfl, hy'⟩ | ⟨e, he, rfl, hy'⟩
      · rw [hprev (hsent hy')]
        cases hq : (c.ch a .queue).predOf y with
        | none =>
          have hh := (List.predOf_eq_none_iff (h.shape.nodup _) hy').1 hq
          refine .inr ⟨d, rfl, ?_, chd ▸ hh, h.shape.state_eq_queued hy', fun e he => ?_⟩
          · simp [hc', State.lk, DrainPc.linked]
          · rw [h.prev_eq hnh hy', inPrev, hq] at he
            simp [ListId.firstPrev, headMarker, RawNodeState.intoPtr] at he
        | some q =>
          left
          rw [(hpred hq).2]
          exact h.prev_eq hnh hy'
      · rw [hprev (hsent hy'), (hloce he).2]
        exact .inl (h.prev_eq hnh hy')
    · have hhole : c.hole = some b := by simp [State.hole, hp, HolderPc.hole]
      rcases hmem hy with ⟨rfl, hy'⟩ | ⟨e, he, rfl, hy'⟩
      · cases hq : (c.ch a .queue).predOf y with
        | none =>
          have hh := (List.predOf_eq_none_iff (h.shape.nodup _) hy').1 hq
          obtain rfl : b = y := Option.some.inj (hb.symm.trans hh)
          left
          simp [inLoc, chd, hq, ListId.firstLoc, hm]
        | some q =>
          rw [(hpred hq).1, hlink (hlocs hy')]
          rcases h.shape.link hy' with e | e | e
          · exact .inl e
          · rw [hhole] at e
            rw [← Option.some.inj e,
              (List.predOf_eq_none_iff (h.shape.nodup _) (List.mem_of_head? hb)).2 hb] at hq
            simp at hq
          · exact .inr (.inr e)
      · rw [(hloce he).1, hlink (hlocs hy')]
        rcases h.shape.link hy' with e' | e' | e'
        · exact .inl e'
        · rw [hhole] at e'
          rw [← Option.some.inj e'] at hy'
          exact absurd (h.shape.disj hy' (List.mem_of_head? hb)) (by simp)
        · exact .inr (.inr e')
    · obtain ⟨j, hj, rfl⟩ := h.shape.pend_mem hx
      cases j with
      | queue =>
        refine ⟨.drain d, chd ▸ hj, ?_⟩
        cases hq : (c.ch a .queue).predOf (.node x) with
        | none =>
          have hh := (List.predOf_eq_none_iff (h.shape.nodup _) hj).1 hq
          rw [hw x (Option.some.inj (hb.symm.trans hh))] at hx
          simp at hx
        | some q => exact (hpred hq).1
      | drain e =>
        have he : e ≠ d := by
          rintro rfl
          simp [hold] at hj
        exact ⟨.drain e, che he ▸ hj, (hloce he).1⟩
    · rw [hlink (h.shape.pend_loc hx)]
      exact h.shape.pend_link hx
  refine ⟨hshape, ?_, ?_, fun {l} e => ?_, fun z => ?_, fun e => ?_, fun e => ?_, fun t => ?_, ?_⟩
  · simp [hc', hm, ha', Abs.apply, Abs.tail]
  · show m.link .head = .null
    rw [hlink (by simp)]
    exact hl
  · have e' : m.link l = .one := e
    by_cases hl' : l = .next (.sentinel d)
    · simp [hl', hm] at e'
    · rw [hlink hl'] at e'
      exact absurd e' (h.link_ne_one hp rfl l)
  · exact (h.own z).frame (fun ho => ⟨(hout z).2 ho, hprev (by simp), hlink (by simp)⟩)
      (fun ho ho' => absurd ((hout z).1 ho') ho)
  · by_cases he : e = d
    · subst he
      have h₁ : c'.drains e = .held := by simp [hc']
      have h₂ : (a'.drained e).rest = a.queue := by simp [ha', Abs.apply, DrainLog.start]
      rw [h₁, h₂]
      refine ⟨fun {w} hw => ?_, fun e => absurd e hq⟩
      obtain rfl : z = w := Option.some.inj (hz.symm.trans hw)
      refine ⟨by simp [hc', hm], .inl ?_⟩
      show m.link _ = _
      rw [hlink (by simp)]
      have := h.last
      rwa [hz] at this
    · have h₁ : c'.drains e = c.drains e := by simp [hc', he]
      have h₂ : (a'.drained e).rest = (a.drained e).rest := by simp [ha', Abs.apply, he]
      rw [h₁, h₂]
      exact (h.drain e).frame (hprev (by simpa using he)) (hlink (by simpa using he))
        fun _ hh _ => absurd hh (hnh e)
  · by_cases he : e = d
    · simp [hc', he, HolderPc.drainId]
    · simp [hc', he, HolderPc.drainId, Ne.symm he, hnh e]
  · exact (h.thread t).of_ne (by simp [hp, HolderPc.threadId])
  · rintro _ ⟨⟩
    intro e
    simp [ha', Abs.apply, DrainLog.start] at e
    exact absurd e hq

/-- A `Drain` of an empty queue. -/
theorem Inv.drainEmpty (h : Inv cfg c a) (hp : c.mutex = some .guard) (hd : c.drains d = .none) :
    Inv cfg (((c.withMem (c.mem.newSentinel d .null .null)).setDrain d .held).hold (.drain d))
      (a.apply (.drainEmpty d)) := by
  have hnh := h.not_held hp rfl
  set m := c.mem.newSentinel d .null .null with hm
  set c' := ((c.withMem m).setDrain d .held).hold (.drain d) with hc'
  set a' := a.apply (.drainEmpty d) with ha'
  have hlkd : c.lk d = false := by rw [State.lk, hd]; rfl
  have hrest : (a.drained d).rest = [] := (h.ch_eq_nil (hnh d) hlkd).1
  have hrest' : ∀ e, (a'.drained e).rest = (a.drained e).rest := by
    intro e
    by_cases he : e = d
    · subst he
      simp [ha', Abs.apply, DrainLog.empty, hrest]
    · simp [ha', Abs.apply, he]
  have hlk : c'.lk = c.lk := by
    funext e
    by_cases he : e = d
    · subst he
      rw [hlkd]
      simp [hc', State.lk, DrainPc.linked]
    · simp [hc', State.lk, he]
  have hch : c'.ch a' = c.ch a := by
    funext j
    cases j with
    | queue => rfl
    | drain e =>
      have := congrFun hlk e
      simp only [State.lk] at this
      simp only [State.ch, chain, hrest', this]
  have hprev : ∀ {y}, y ≠ .sentinel d → m.prev y = c.mem.prev y := Mem.prev_newSentinel_ne _ _ _
  have hlink : ∀ {l}, l ≠ .next (.sentinel d) → m.link l = c.mem.link l :=
    Mem.link_newSentinel_ne _ _ _
  have hhole : c.hole = none := by simp [State.hole, hp, HolderPc.hole]
  have hlv : c.leaving = none := by simp [State.leaving, hp, HolderPc.leaving]
  refine ⟨?_, h.tail, ?_, fun {l} e => ?_, fun z => ?_, fun e => ?_, fun e => ?_, fun t => ?_, ?_⟩
  · have hs : Shape m (c.ch a) c.lk c.pend c.hole := by
      refine h.shape.of_mem (fun {j y} hy => hprev ?_) fun {j y} hy => hlink ?_
      · rintro rfl
        have := (sentinel_mem_ch hy).2
        simp [hlkd] at this
      · exact h.inLoc_ne_sentinel (hnh d) hlkd hy
    rw [hch, hlk]
    rw [hhole] at hs
    exact hs
  · show m.link _ = _
    rw [hlink (prevLoc_last_ne_sentinel _)]
    exact h.last
  · have e' : m.link l = .one := e
    by_cases hl' : l = .next (.sentinel d)
    · simp [hl', hm] at e'
    · rw [hlink hl'] at e'
      exact absurd e' (h.link_ne_one hp rfl l)
  · rw [hch]
    exact (h.own z).frame (fun ho => ⟨⟨ho.1, fun h => by cases h⟩, hprev (by simp), hlink (by simp)⟩)
      (fun ho ho' => absurd ⟨ho'.1, by simp [hlv]⟩ ho)
  · rw [hrest']
    by_cases he : e = d
    · subst he
      have h₁ : c'.drains e = .held := by simp [hc']
      rw [h₁, hrest]
      exact ⟨by simp, fun _ => .inl (by simp [hc', hm])⟩
    · have h₁ : c'.drains e = c.drains e := by simp [hc', he]
      rw [h₁]
      exact (h.drain e).frame (hprev (by simpa using he)) (hlink (by simpa using he))
        fun _ hh _ => absurd hh (hnh e)
  · by_cases he : e = d
    · simp [hc', he, HolderPc.drainId]
    · simp [hc', he, HolderPc.drainId, Ne.symm he, hnh e]
  · exact (h.thread t).of_ne (by simp [hp, HolderPc.threadId])
  · rintro _ ⟨⟩
    intro _
    simp [hc', hm]

/-! ## `NodeDrained::drop` -/

/-- The load of the sentinel's `prev` tells whether the node is the last. -/
theorem Inv.ddPrev (h : Inv cfg c a) {flush : Bool} (hp : c.mutex = some (.ddPrev d b flush)) :
    Inv cfg (c.hold (if c.mem.prev (.sentinel d) = .to b then .ddSetHead d b .null flush
      else .get (.next b) .load (.drained d b flush))) a := by
  have hlk := h.lk_held hp rfl
  have hch : c.ch a (.drain d) = (a.drained d).rest.map .node := ch_drain_of_lk hlk
  have hnd := h.shape.nodup (.drain d)
  have hk := h.holder hp
  have hopen := h.openOk hp rfl
  split
  · rename_i e
    refine h.hold hp (.inl rfl) rfl (.inl rfl) rfl rfl ?_
    rcases hk with hb | ⟨hf, hr, hb, -⟩
    · left
      cases hr : (a.drained d).rest with
      | nil => simp [hch, hr] at hb
      | cons x l =>
        obtain rfl : Addr.node x = b := by simpa [hch, hr] using hb
        refine ⟨x, l, rfl, rfl, ?_⟩
        -- the sentinel's `prev` is the last node, so there is no other
        obtain rfl : l = [] := by
          cases hz : l.getLast? with
          | none => exact List.getLast?_eq_none_iff.1 hz
          | some z =>
            have hz' : (a.drained d).rest.getLast? = some z := by
              rw [hr, List.getLast?_cons, hz]
              rfl
            obtain rfl : z = x := by simpa [(hopen.last hz').1] using e
            rw [hch, hr] at hnd
            have := List.mem_of_getLast? hz
            simp [this] at hnd
        exact ⟨rfl, by simp⟩
    · exact .inr ⟨hf, hr, hb, rfl⟩
  · rename_i e
    refine h.hold hp (.inl rfl) rfl (.inl rfl) rfl rfl ?_
    rcases hk with hb | ⟨-, -, rfl, hs⟩
    · cases hr : (a.drained d).rest with
      | nil => simp [hch, hr] at hb
      | cons x l =>
        obtain rfl : Addr.node x = b := by simpa [hch, hr] using hb
        cases l with
        | nil => exact absurd (hopen.last (z := x) (by simp [hr])).1 e
        | cons z l =>
          have hpz : (c.ch a (.drain d)).predOf (.node z) = some (.node x) := by
            simp [hch, hr, List.predOf_cons_cons]
          exact ⟨⟨.drain d, .node z, List.mem_of_predOf hpz, inLoc_of_predOf hpz, rfl, hb, hpz⟩,
            trivial, by simp⟩
    · exact absurd hs e

/-- The lists after the first node of a `Drain` was taken out. -/
theorem Inv.ch_drainRemove (h : Inv cfg c a) (hx : x ∈ (a.drained d).rest) (flush : Bool) :
    c.ch (a.apply (.drainRemove d x flush)) = fun j => (c.ch a j).erase (.node x) := by
  have hx' : .node x ∈ c.ch a (.drain d) := node_mem_chain_drain.2 hx
  have hne : ∀ {j}, j ≠ .drain d → (c.ch a j).erase (.node x) = c.ch a j := fun hj =>
    List.erase_of_not_mem fun hm => hj (h.shape.disj hm hx')
  funext j
  cases j with
  | queue => exact (hne (j := .queue) (by simp)).symm
  | drain e =>
    by_cases he : e = d
    · subst he
      have herase := congrFun (ch_remove c a x a.state) (.drain e)
      simpa [State.ch, chain, Abs.apply] using herase
    · rw [hne (by simpa using he)]
      simp [State.ch, chain, Abs.apply, he]

/-- The head is moved on: the first node leaves the list. -/
theorem Inv.ddSetHead (h : Inv cfg c a) {v : Ptr} {flush : Bool}
    (hp : c.mutex = some (.ddSetHead d (.node x) v flush)) :
    (a.drained d).rest.head? = some x ∧
      Inv cfg ((c.withMem (c.mem.setLink (.next (.sentinel d)) v)).hold (.ddDone d (.node x) flush))
        (a.apply (.drainRemove d x flush)) := by
  obtain ⟨x', l, hr, hx', rfl, hl⟩ | ⟨-, -, hb, -⟩ := h.holder hp
  swap
  · simp at hb
  obtain rfl := Addr.node.inj hx'
  have hh : (a.drained d).rest.head? = some x := by simp [hr]
  refine ⟨hh, ?_⟩
  have hlk := h.lk_held hp rfl
  have hch : c.ch a (.drain d) = .node x :: l.map .node := by simp [ch_drain_of_lk hlk, hr]
  have hx : .node x ∈ c.ch a (.drain d) := by simp [hch]
  have hhc : (c.ch a (.drain d)).head? = some (.node x) := by simp [hch]
  have hloc : inLoc (c.ch a) (.drain d) (.node x) = .next (.sentinel d) :=
    inLoc_of_head (h.shape.nodup _) hhc
  have hnd := h.shape.nodup (.drain d)
  have hch' := h.ch_drainRemove (x := x) (d := d) (by simp [hr]) flush
  have hpx : c.pend x = none := by
    cases e : c.pend x with
    | none => rfl
    | some k =>
      obtain ⟨j, hj, rfl⟩ := h.shape.pend_mem e
      obtain rfl := h.shape.disj hj hx
      exact absurd hloc (h.shape.pend_loc e)
  set v := l.head?.elim Ptr.null (fun y => .to (.node y)) with hv
  have hvo : v ≠ .one := by cases e : l.head? <;> simp [hv, e]
  have hother : ∀ {k}, k ≠ .next (.sentinel d) →
      (c.mem.setLink (.next (.sentinel d)) v).link k = c.mem.link k := fun {k} e => by
    simp [Mem.link_setLink, e]
  have hrest : ((a.apply (.drainRemove d x flush)).drained d).rest = l := by
    simp [Abs.apply, hr]
  refine h.write hp rfl rfl ?_ h.tail ?_ (fun {k} e => ?_) (fun z hz => ?_) (fun z hz hz' => ?_)
    (fun e => ?_) ⟨fun e => ?_, .inl ⟨x, rfl, fun j hj => ?_, h.shape.state_eq_queued hx,
      h.live_of_prev hx, fun {e} he => h.live_of_next hx ?_ ((hother ?_).symm.trans he)⟩⟩
  · rw [hch']
    refine h.shape.erase hx hpx (.inl ?_) (fun {b} hb => ?_) (fun _ _ => rfl)
      fun {j y} hy hyx _ => hother fun e => hyx (h.shape.inLoc_inj hy hx (e.trans hloc.symm)).2
    · simp [State.hole, hp, HolderPc.hole]
    · have hpb : c.mem.prev b = .to (.node x) := by
        rcases h.shape.prev (List.mem_of_predOf hb) with e | ⟨-, -, -, hh', -⟩
        · rw [e, inPrev_of_predOf hb]
        · rw [← List.predOf_eq_none_iff hnd (List.mem_of_predOf hb), hb] at hh'
          simp at hh'
      refine ⟨.inr ⟨d, rfl, hlk, hhc, ?_⟩, .inl ?_, ?_⟩
      · show (c.mem.prev b).StaleFor d
        rw [hpb]
        exact ⟨rfl, fun e he => by simp at he⟩
      all_goals
        obtain ⟨w, l', rfl, rfl⟩ : ∃ w l', l = w :: l' ∧ b = .node w := by
          cases l with
          | nil => simp [hch] at hb
          | cons w l' =>
            refine ⟨w, l', rfl, List.predOf_inj hnd (List.mem_of_predOf hb) ?_ (hb.trans ?_)⟩
            · simp [hch]
            · simp [hch, List.predOf_cons_cons]
      · rw [hloc]
        simp [hv]
      · rintro _ ⟨⟩
        exact hl w rfl
  · rw [hother (prevLoc_last_ne_sentinel _)]
    exact h.last
  · by_cases hk : k = .next (.sentinel d)
    · simp [hk, hvo] at e
    · rw [hother hk] at e
      exact absurd e (h.link_ne_one hp rfl k)
  · rw [hch']
    exact ⟨(out_erase h.shape.nodup hx).2 hz, rfl, hother (by simp)⟩
  · rw [hch'] at hz'
    exact absurd ((out_erase h.shape.nodup hx).1 hz') hz
  · by_cases he : e = d
    · subst he
      rw [(h.held e).2 (by simp [hp, HolderPc.drainId]), hrest]
      refine ⟨fun {z} hz => ?_, fun hl => .inl (by simp [hv, hl])⟩
      rw [hother (by simp)]
      refine (h.openOk hp rfl).last ?_
      rw [hr, List.getLast?_cons, hz]
      rfl
    · have hne : ((a.apply (.drainRemove d x flush)).drained e).rest = (a.drained e).rest := by
        simp [Abs.apply, he]
      rw [hne]
      exact (h.drain e).frame rfl (hother (by simpa using he)) fun _ _ _ => hother (by simp)
  · rw [hrest] at e
    simp [hv, e]
  · have hj' : Addr.node x ∈ c.ch (a.apply (.drainRemove d x flush)) j := hj
    rw [hch'] at hj'
    exact ((h.shape.nodup j).mem_erase_iff.1 hj').1 rfl
  · intro b hb
    simp [State.hole, hp, HolderPc.hole] at hb
  · simp

/-- A holder that has an exhausted `Drain` clears its head. -/
theorem Inv.clearHead (h : Inv cfg c a) {q : HolderPc S} (hp : c.mutex = some p)
    (hp' : p.drainId = some d ∧ p.threadId = none ∧ p.parkedAt = none ∧ p.hole = none ∧
      p.leaving = none) (hq : q.drainId = some d ∧ q.leaving = none ∧ q.hole = none)
    (hr : (a.drained d).rest = [])
    (hh : HolderOk cfg ((c.withMem (c.mem.setLink (.next (.sentinel d)) .null)).hold q) a q) :
    Inv cfg ((c.withMem (c.mem.setLink (.next (.sentinel d)) .null)).hold q) a := by
  obtain ⟨hid, hth, hpk, hhole, hlv⟩ := hp'
  obtain ⟨hid', hlv', hhole'⟩ := hq
  have hnil : c.ch a (.drain d) = [] := by simp [ch_drain_of_lk (h.lk_held hp hid), hr]
  have hother : ∀ {k}, k ≠ .next (.sentinel d) →
      (c.mem.setLink (.next (.sentinel d)) .null).link k = c.mem.link k := fun {k} e => by
    simp [Mem.link_setLink, e]
  refine h.write hp (hid'.trans hid.symm) hth ?_ h.tail ?_ (fun {k} e => ?_) ?_ ?_ (fun e => ?_) hh
  · have hs : q.hole = c.hole := by simp [State.hole, hp, hhole, hhole']
    rw [hs]
    exact h.shape.of_mem (fun _ => rfl) fun hy => hother (h.shape.inLoc_ne_sentinel hnil hy)
  · rw [hother (prevLoc_last_ne_sentinel _)]
    exact h.last
  · by_cases hk : k = .next (.sentinel d)
    · simp [hk] at e
    · rw [hother hk] at e
      exact absurd e (h.link_ne_one hp hpk k)
  · exact fun z ho => ⟨⟨ho.1, by simp [hlv']⟩, rfl, hother (by simp)⟩
  · exact fun z ho ho' => absurd ⟨ho'.1, by simp [hlv]⟩ ho
  · by_cases he : e = d
    · subst he
      rw [(h.held e).2 (by simp [hp, hid]), hr]
      exact ⟨by simp, fun _ => .inl (by simp)⟩
    · exact (h.drain e).frame rfl (hother (by simpa using he)) fun _ _ _ => hother (by simp)

/-- The head of a list whose nodes all removed themselves is cleared. -/
theorem Inv.ddSetHead_sentinel (h : Inv cfg c a) {e : DrainId} {v : Ptr} {flush : Bool}
    (hp : c.mutex = some (.ddSetHead d (.sentinel e) v flush)) :
    Inv cfg ((c.withMem (c.mem.setLink (.next (.sentinel d)) v)).hold
      (.ddDone d (.sentinel e) flush)) a := by
  obtain ⟨x', l, hr, hx', -⟩ | ⟨hf, hr, hb, rfl⟩ := h.holder hp
  · simp at hx'
  · exact h.clearHead hp ⟨rfl, rfl, rfl, rfl, rfl⟩ ⟨rfl, rfl, rfl⟩ hr
      ⟨fun _ => by simp, .inr ⟨hr, hb⟩⟩

/-- The node is marked as dequeued. -/
theorem Inv.ddDone (h : Inv cfg c a) {flush : Bool} (hp : c.mutex = some (.ddDone d b flush)) :
    Inv cfg ((c.withMem (c.mem.setPrev b RawNodeState.dequeued.intoPtr)).hold
      (if flush then .dropLoop d else .drain d)) a := by
  obtain ⟨hex, hk⟩ := h.holder hp
  set m := c.mem.setPrev b RawNodeState.dequeued.intoPtr with hm
  have hprev : ∀ {y}, y ≠ b → m.prev y = c.mem.prev y := fun hy => by
    simp [hm, Mem.prev_setPrev, hy]
  have hlk := h.lk_held hp rfl
  have hout : ∀ i, b ∉ c.ch a i := by
    intro i hi
    rcases hk with ⟨x, rfl, hx⟩ | ⟨-, rfl⟩
    · exact hx.out i hi
    · have := (sentinel_mem_ch hi).2
      simp [hlk] at this
  have key : ∀ q : HolderPc S, q.drainId = some d → q.hole = none → q.leaving = none →
      HolderOk cfg ((c.withMem m).hold q) a q → Inv cfg ((c.withMem m).hold q) a := by
    intro q hid hhole hlv hq
    refine h.write hp hid rfl ?_ h.tail h.last (fun e => absurd e (h.link_ne_one hp rfl _))
      (fun z hz => ?_) (fun z hz hz' => ?_) (fun e => ?_) hq
    · have e : q.hole = c.hole := by rw [hhole]; simp [State.hole, hp, HolderPc.hole]
      rw [e]
      exact h.shape.of_mem (fun {i y} hy => hprev (fun e => hout i (e ▸ hy))) (fun _ => rfl)
    · refine ⟨⟨hz.1, by simp [hlv]⟩, hprev ?_, rfl⟩
      rintro rfl
      exact hz.2 rfl
    · obtain rfl : b = .node z := by
        by_contra hne
        refine hz ⟨hz'.1, ?_⟩
        cases b with
        | node w => simpa [HolderPc.leaving] using hne
        | sentinel w => simp [HolderPc.leaving]
      simp [hm, RawNodeState.intoPtr]
    · by_cases he : b = .sentinel e
      · subst he
        rcases hk with ⟨x, hx, -⟩ | ⟨hr, he⟩
        · simp at hx
        · obtain rfl : e = d := by simpa using he
          rw [(h.held e).2 (by simp [hp, HolderPc.drainId]), hr]
          exact ⟨by simp, fun _ => .inl (hex hr)⟩
      · exact (h.drain e).frame (hprev (Ne.symm he)) rfl (fun _ _ _ => rfl)
  cases flush with
  | false => exact key (.drain d) rfl rfl rfl hex
  | true => exact key (.dropLoop d) rfl rfl rfl trivial

/-! ## `execute_unlocked` -/

/-- The first node's `prev` is set to the sentinel. -/
theorem Inv.exPrev (h : Inv cfg c a) (hp : c.mutex = some (.exPrev d b)) :
    Inv cfg ((c.withMem (c.mem.setPrev b (.to (.sentinel d)))).hold (.exTail d)) a := by
  have hb : (c.ch a (.drain d)).head? = some b := h.holder hp
  have hm := List.mem_of_head? hb
  have hlk := h.lk_held hp rfl
  obtain ⟨x, hx, rfl⟩ : ∃ x, (a.drained d).rest.head? = some x ∧ .node x = b :=
    Option.map_eq_some_iff.1 (by rw [← List.head?_map, ← ch_drain_of_lk hlk]; exact hb)
  have hprev : ∀ {y}, y ≠ .node x →
      (c.mem.setPrev (.node x) (.to (.sentinel d))).prev y = c.mem.prev y := fun hy => by
    simp [Mem.prev_setPrev, hy]
  have hx' : (c.mem.setPrev (.node x) (.to (.sentinel d))).prev (.node x) = .to (.sentinel d) := by
    simp
  refine h.write hp rfl rfl ?_ h.tail h.last (fun e => absurd e (h.link_ne_one hp rfl _))
    (fun z hz => ⟨hz, hprev ?_, rfl⟩) (fun z ho ho' => absurd ho' ho)
    (fun e => (h.drain e).frame (hprev (by simp)) rfl fun _ _ _ => rfl) ⟨x, hx, hx'⟩
  · have hs := h.shape
    have hhole : c.hole = none := by simp [State.hole, hp, HolderPc.hole]
    rw [hhole] at hs
    refine ⟨hs.nodup, hs.disj, hs.pred_node, fun {i y} hy => ?_, hs.link, hs.pend_mem, hs.pend_link,
      hs.pend_loc⟩
    by_cases e : y = .node x
    · subst e
      obtain rfl := hs.disj hy hm
      exact .inl (hx'.trans (inPrev_of_head (hs.nodup _) hb).symm)
    · rw [hprev e]
      exact hs.prev hy
  · rintro ⟨⟩
    exact hz.1 _ hm

/-- The load of the sentinel's `prev`. -/
theorem Inv.exTail (h : Inv cfg c a) (hp : c.mutex = some (.exTail d)) :
    ∃ z, c.mem.prev (.sentinel d) = .to z ∧ Inv cfg (c.hold (.exTailStore d z)) a := by
  obtain ⟨x, hx, hpx⟩ : FirstPrev c a d := h.holder hp
  obtain ⟨z, hz⟩ : ∃ z, (a.drained d).rest.getLast? = some z := by
    cases e : (a.drained d).rest.getLast? with
    | none => simp [List.getLast?_eq_none_iff.1 e] at hx
    | some z => exact ⟨z, rfl⟩
  refine ⟨.node z, ((h.openOk hp rfl).last hz).1, ?_⟩
  exact h.hold hp (.inl rfl) rfl (.inl rfl) rfl rfl
    ⟨⟨x, hx, hpx⟩, by simp [ch_drain_of_lk (h.lk_held hp rfl), hz]⟩

/-- The last node's `next` is set to the sentinel. -/
theorem Inv.exTailStore (h : Inv cfg c a) (hp : c.mutex = some (.exTailStore d b)) :
    Inv cfg ((c.withMem (c.mem.setLink (.next b) (.to (.sentinel d)))).hold (.exUnlock d true)) a := by
  obtain ⟨hf, hb⟩ := h.holder hp
  have hlk := h.lk_held hp rfl
  obtain ⟨z, hz, rfl⟩ : ∃ z, (a.drained d).rest.getLast? = some z ∧ .node z = b :=
    Option.map_eq_some_iff.1 (by rw [← List.getLast?_map, ← ch_drain_of_lk hlk]; exact hb)
  have hm := List.mem_of_getLast? hb
  have hheld : c.drains d = .held := (h.held d).2 (by simp [hp, HolderPc.drainId])
  have hother : ∀ {k}, k ≠ .next (.node z) →
      (c.mem.setLink (.next (.node z)) (.to (.sentinel d))).link k = c.mem.link k := fun {k} e => by
    simp [Mem.link_setLink, e]
  refine h.write hp rfl rfl ?_ h.tail ?_ (fun {k} e => ?_) (fun w hw => ⟨hw, rfl, hother ?_⟩)
    (fun w ho ho' => absurd ho' ho) (fun e => ?_) ⟨hf, z, hz, by simp⟩
  · have hhole : (HolderPc.exUnlock d true : HolderPc S).hole = c.hole := by
      simp [State.hole, hp, HolderPc.hole]
    rw [hhole]
    exact h.shape.of_mem (fun _ => rfl) fun hy => hother (h.inLoc_ne_held hheld hz)
  · rw [hother]
    · exact h.last
    · cases hq : a.queue.getLast? with
      | none => simp [prevLoc]
      | some w =>
        rintro e
        obtain rfl : w = z := by simpa [prevLoc] using e
        have hw : .node w ∈ c.ch a .queue := node_mem_chain_queue.2 (List.mem_of_getLast? hq)
        exact absurd (h.shape.disj hw hm) (by simp)
  · by_cases hk : k = .next (.node z)
    · simp [hk] at e
    · rw [hother hk] at e
      exact absurd e (h.link_ne_one hp rfl k)
  · rintro e
    obtain rfl : w = z := by simpa using e
    exact hw.1 _ hm
  · by_cases he : e = d
    · subst he
      rw [hheld]
      refine ⟨fun {w} hw => ?_, fun hr => by simp [hr] at hz⟩
      obtain rfl : z = w := Option.some.inj (hz.symm.trans hw)
      exact ⟨((h.openOk hp rfl).last hz).1, .inr (by simp)⟩
    · exact (h.drain e).frame rfl (hother (by simp)) fun _ hh _ =>
        absurd (h.eq_of_held hp rfl hh) he

end Aiq
