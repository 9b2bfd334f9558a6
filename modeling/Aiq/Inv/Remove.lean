import Aiq.Inv.GetNext

/-!
# `remove_with_prev`

The removal of a node under the lock, on the queue or on the list of a `Drain` whose lock is
released. Such a list is circular, so only the queue has a last node (`Inv.exists_succ`). The node
leaves its list at the tail CAS, if it is the last (`Inv.removeLast`), and at the store of its
successor's `prev` otherwise (`Inv.removeBefore`).
-/

namespace Aiq

variable {S T : Type} {cfg : Config} {c : State S T} {a : Abs S} {p : HolderPc S} {i j : ListId}
  {x : NodeId} {y b : Addr} {d : DrainId}

/-! ## The lists while no `Drain` holds the lock -/

theorem Inv.not_held (h : Inv cfg c a) (hp : c.mutex = some p) (hid : p.drainId = none)
    (d : DrainId) : c.drains d ≠ .held := by
  rw [Ne, h.held d, hp]
  simp [hid]

/-- A sentinel is only in the circular list of its own `Drain`. -/
theorem sentinel_mem_ch (h : .sentinel d ∈ c.ch a j) : j = .drain d ∧ c.lk d = true := by
  cases j with
  | queue => simp [State.ch, chain] at h
  | drain e =>
    cases he : (c.drains e).linked with
    | false => simp [State.ch, chain, he] at h
    | true =>
      obtain rfl : d = e := by simpa [State.ch, chain, he] using h
      exact ⟨rfl, he⟩

/-- A list that is not circular is empty. -/
theorem Inv.ch_eq_nil (h : Inv cfg c a) (hd : c.drains d ≠ .held) (hlk : c.lk d = false) :
    (a.drained d).rest = [] ∧ c.ch a (.drain d) = [] := by
  have hr : (a.drained d).rest = [] := by
    have := h.drain d
    rw [State.lk] at hlk
    cases hq : c.drains d with
    | held => exact absurd hq hd
    | none => rw [hq] at this; exact this
    | gone => rw [hq] at this; exact this
    | _ => rw [hq] at this hlk; exact (this hlk).1
  exact ⟨hr, by rw [ch_drain_of_lk hlk, hr]; rfl⟩

/-- A `Drain` with elements in its list uses its sentinel. -/
theorem Inv.live_of_mem (h : Inv cfg c a) (hy : y ∈ c.ch a (.drain d)) : Live c d := by
  by_contra hl
  obtain ⟨hlk, hd⟩ := not_or.1 hl
  rw [(h.ch_eq_nil hd (by simpa using hlk)).2] at hy
  simp at hy

theorem Inv.live_of_prev (h : Inv cfg c a) (hy : y ∈ c.ch a i)
    (he : c.mem.prev y = .to (.sentinel d)) : Live c d := by
  rcases h.shape.prev hy with e | ⟨d', rfl, -, -, hs⟩
  · rw [he, inPrev] at e
    cases hp : (c.ch a i).predOf y with
    | none =>
      rw [hp] at e
      cases i with
      | queue => simp [ListId.firstPrev, headMarker, RawNodeState.intoPtr] at e
      | drain d' =>
        obtain rfl : d = d' := by simpa [ListId.firstPrev] using e
        exact h.live_of_mem hy
    | some q =>
      obtain ⟨z, rfl⟩ := h.shape.pred_node hp
      rw [hp] at e
      simp at e
  · obtain rfl := hs.2 d he
    exact h.live_of_mem hy

/-- The `next` field of an element is the sentinel of no `Drain` that is not in use, whether or not
the holder has yet to write it. -/
theorem Inv.live_of_next (h : Inv cfg c a) (hx : .node x ∈ c.ch a i)
    (hh : ∀ b, c.hole = some b → (c.ch a i).predOf b = some (.node x) →
      (c.mem.link (.next (.node x))).NoSentinel)
    (he : c.mem.link (.next (.node x)) = .to (.sentinel d)) : Live c d := by
  by_cases hz : (c.ch a i).getLast? = some (.node x)
  · cases i with
    | queue =>
      have hl := h.last
      rw [getLast?_ch_queue] at hz
      rw [hz] at hl
      simp [prevLoc, he] at hl
    | drain d' =>
      cases hlk : c.lk d' with
      | true =>
        rw [State.lk] at hlk
        simp [State.ch, chain, hlk] at hz
      | false =>
        have hheld : c.drains d' = .held := (h.live_of_mem hx).resolve_left (by simp [hlk])
        have hopen : OpenOk c.mem (a.drained d').rest d' := by
          have := h.drain d'
          rwa [hheld] at this
        rw [ch_drain_of_lk hlk, List.getLast?_map] at hz
        obtain ⟨w, hw, e⟩ := Option.map_eq_some_iff.1 hz
        obtain rfl := Addr.node.inj e
        rcases (hopen.last hw).2 with e | e
        · simp [he] at e
        · obtain rfl : d = d' := by simpa [he] using e
          exact .inr hheld
  · obtain ⟨b, hb, hp⟩ := List.exists_predOf_eq (h.shape.nodup i) hx hz
    have hl : inLoc (c.ch a) i b = .next (.node x) := inLoc_of_predOf hp
    rcases h.shape.link hb with e | e | ⟨z, -, hz⟩
    · rw [hl, he] at e
      obtain rfl : Addr.sentinel d = b := by simpa using e
      obtain ⟨rfl, hlk⟩ := sentinel_mem_ch hb
      exact .inl hlk
    · exact absurd he (hh b e hp d)
    · rw [hl] at hz
      rcases h.shape.pend_link hz with e | e <;> simp [he] at e

/-- The `prev` words are exact. -/
theorem Inv.prev_eq (h : Inv cfg c a) (hd : ∀ d, c.drains d ≠ .held) (hy : y ∈ c.ch a i) :
    c.mem.prev y = inPrev (c.ch a) i y := by
  rcases h.shape.prev hy with e | ⟨d, rfl, hlk, -⟩
  · exact e
  · rw [(h.ch_eq_nil (hd d) hlk).2] at hy
    simp at hy

/-- A node with no node behind it is the last of the queue. -/
theorem Inv.exists_succ (h : Inv cfg c a) (hd : ∀ d, c.drains d ≠ .held) (hx : .node x ∈ c.ch a i)
    (ht : c.mem.tail ≠ .ptr (.node x)) : ∃ b ∈ c.ch a i, (c.ch a i).predOf b = some (.node x) := by
  refine List.exists_predOf_eq (h.shape.nodup i) hx fun hz => ?_
  cases i with
  | queue =>
    rw [getLast?_ch_queue] at hz
    refine ht (h.tail.trans ?_)
    obtain ⟨z, hz, e⟩ := Option.map_eq_some_iff.1 hz
    exact Abs.tail_eq_ptr_iff.2 ⟨z, hz, e.symm⟩
  | drain d =>
    cases hlk : c.lk d with
    | false => rw [(h.ch_eq_nil (hd d) hlk).2] at hx; simp at hx
    | true =>
      rw [State.lk] at hlk
      simp [State.ch, chain, hlk] at hz

/-- The `next` field of a node: null, or the node behind it. -/
theorem Inv.next_link (h : Inv cfg c a) (hd : ∀ d, c.drains d ≠ .held) (hh : c.hole = none)
    (ho : ∀ l, c.mem.link l ≠ .one) (hx : .node x ∈ c.ch a i) :
    c.mem.link (.next (.node x)) = .null ∨ ∃ b, (c.ch a i).predOf b = some (.node x) ∧
      c.mem.link (.next (.node x)) = .to b ∧ Written c b := by
  by_cases ht : c.mem.tail = .ptr (.node x)
  · obtain ⟨z, hz, e⟩ := Abs.tail_eq_ptr_iff.1 (h.tail.symm.trans ht)
    obtain rfl := Addr.node.inj e
    have := h.last
    rw [hz] at this
    exact .inl this
  · obtain ⟨b, hb, hp⟩ := h.exists_succ hd hx ht
    have hl : inLoc (c.ch a) i b = .next (.node x) := inLoc_of_predOf hp
    rcases h.shape.link hb with e | e | ⟨z, rfl, hz⟩
    · refine .inr ⟨b, hp, hl ▸ e, ?_⟩
      rintro z rfl
      exact h.shape.pend_eq_none_of_link hb e
    · simp [hh] at e
    · rw [hl] at hz
      exact .inl ((h.shape.pend_link hz).resolve_right (ho _))

theorem DrainOk.unlocked {m m' : Mem S T} {l l' : List NodeId} {q : DrainPc}
    (h : DrainOk m l d q) (hq : q ≠ .held) (hl : l = [] → l' = [])
    (hk : q.linked = false → l = [] →
      m'.link (.next (.sentinel d)) = m.link (.next (.sentinel d))) : DrainOk m' l' d q := by
  cases q with
  | held => exact absurd rfl hq
  | none => exact hl h
  | gone => exact hl h
  | _ => exact fun hlk => ⟨hl (h hlk).1, (hk hlk (h hlk).1).trans (h hlk).2⟩

/-- The sentinel of a list that is not circular leads to no element. -/
theorem Inv.inLoc_ne_sentinel (h : Inv cfg c a) (hd : c.drains d ≠ .held) (hlk : c.lk d = false)
    (hy : y ∈ c.ch a i) : inLoc (c.ch a) i y ≠ .next (.sentinel d) :=
  h.shape.inLoc_ne_sentinel (h.ch_eq_nil hd hlk).2 hy

/-! ## Taking the node out -/

/-- The lists after a removal. -/
theorem ch_remove (c : State S T) (a : Abs S) (x : NodeId) (s : S) :
    c.ch (a.apply (.remove x s)) = fun j => (c.ch a j).erase (.node x) := by
  have herase : ∀ l : List NodeId, (l.erase x).map Addr.node = (l.map .node).erase (.node x) :=
    fun l => List.map_erase (fun _ _ e => Addr.node.inj e) ..
  funext j
  cases j with
  | queue => exact herase _
  | drain d =>
    simp only [State.ch, chain, Abs.apply, DrainLog.rest_leave, herase]
    split
    · by_cases hx : Addr.node x ∈ (a.drained d).rest.map .node
      · rw [List.erase_append_left _ hx]
      · rw [List.erase_append_right _ hx, List.erase_of_not_mem hx]
        simp
    · simp

/-- Taking a node out makes no other node leave or enter a list. -/
theorem out_erase {ch : ListId → List Addr} {z : NodeId} (hn : ∀ i, (ch i).Nodup)
    (hx : .node x ∈ ch i) :
    Out (fun j => (ch j).erase (.node x)) (some x) z ↔ Out ch none z := by
  constructor
  · rintro ⟨ho, hz⟩
    refine ⟨fun j hj => ho j ((hn j).mem_erase_iff.2 ⟨?_, hj⟩), by simp⟩
    rintro ⟨⟩
    exact hz rfl
  · rintro ⟨ho, -⟩
    refine ⟨fun j hj => ho j ((hn j).mem_erase_iff.1 hj).2, ?_⟩
    rintro ⟨⟩
    exact ho i hx

/-- Removing another node than the last keeps the tail. -/
theorem Abs.tail_remove_of_ne (s : S) (hx : a.queue.getLast? ≠ some x) :
    (a.queue.erase x).getLast? = a.queue.getLast? ∧ (a.apply (.remove x s)).tail = a.tail := by
  cases hz : a.queue.getLast? with
  | none =>
    have hq : a.queue = [] := List.getLast?_eq_none_iff.1 hz
    simp [hq, Abs.apply, Abs.tail]
  | some z =>
    have hzx : z ≠ x := fun e => hx (e ▸ hz)
    have he : (a.queue.erase x).getLast? = some z := List.getLast?_erase_of_ne hz hzx
    exact ⟨he, by simp [Abs.apply, Abs.tail, hz, he]⟩

/-- Removing the last node leaves the one before it, or the new state. -/
theorem Abs.tail_remove_last (s : S) (hn : a.queue.Nodup) (hx : a.queue.getLast? = some x) :
    (a.queue.erase x).getLast? = a.queue.predOf x ∧
      (a.apply (.remove x s)).tail =
        match a.queue.predOf x with
        | none => .state s
        | some z => .ptr (.node z) := by
  have he : (a.queue.erase x).getLast? = a.queue.predOf x := List.getLast?_erase_getLast hn hx
  refine ⟨he, ?_⟩
  unfold Abs.tail
  simp only [Abs.apply, he]
  cases hp : a.queue.predOf x with
  | none =>
    have hh := (List.predOf_eq_none_iff hn (List.mem_of_getLast? hx)).1 hp
    obtain ⟨l, hl⟩ := List.getLast?_eq_some_iff.1 hx
    have : a.queue = [x] := by
      cases l with
      | nil => exact hl
      | cons z l =>
        rw [hl] at hh hn
        obtain rfl : z = x := by simpa using hh
        simp at hn
    simp [this]
  | some z => rfl

theorem predOf_map_node (l : List NodeId) (x : NodeId) :
    (l.map Addr.node).predOf (.node x) = (l.predOf x).map .node := by
  induction l with
  | nil => rfl
  | cons z l ih =>
    cases l with
    | nil => rfl
    | cons w l =>
      simp only [List.map_cons, List.predOf_cons_cons, Addr.node.injEq] at ih ⊢
      split
      · rfl
      · exact ih

/-- The successful tail CAS: the last node of the queue leaves it. -/
theorem Inv.removeLast (h : Inv cfg c a) {r : Removal S} (hp : c.mutex = some (.rmCas r))
    (ht : c.mem.tail = .ptr (.node r.node)) :
    a.Member r.node ∧
      Inv cfg ((c.withMem (c.mem.setTail r.casTail)).hold (.rmDone r true))
        (a.apply (.remove r.node r.newTail)) := by
  obtain ⟨⟨i, hr⟩, hn, hl⟩ := h.holder hp
  obtain ⟨z, hz, e⟩ := Abs.tail_eq_ptr_iff.1 (h.tail.symm.trans ht)
  obtain rfl := Addr.node.inj e
  have hq : .node r.node ∈ c.ch a .queue := node_mem_chain_queue.2 (List.mem_of_getLast? hz)
  obtain rfl := h.shape.disj hr.mem hq
  refine ⟨member_iff.2 ⟨_, hq⟩, ?_⟩
  have hlast : (c.ch a .queue).getLast? = some (.node r.node) := by rw [getLast?_ch_queue, hz]; rfl
  have hnq : a.queue.Nodup := (h.shape.nodup .queue).of_map
  obtain ⟨hgl, htl⟩ := Abs.tail_remove_last r.newTail hnq hz
  have hpred : (c.ch a .queue).predOf (.node r.node) = (a.queue.predOf r.node).map .node :=
    predOf_map_node _ _
  refine h.write hp rfl rfl ?_ ?_ ?_ (fun e => absurd e (h.link_ne_one hp rfl _)) ?_ ?_ ?_ ?_
  · rw [ch_remove]
    refine h.shape.erase hq hn (.inr ?_) (fun hb => absurd hb ?_) (fun _ _ => rfl) fun _ _ _ => rfl
    · simp [State.hole, hp, HolderPc.hole]
    · exact List.predOf_ne_getLast (h.shape.nodup _) hlast
  · rw [htl]
    show r.casTail = _
    rw [Removal.casTail, hr.prev, inPrev, hpred]
    cases a.queue.predOf r.node <;> rfl
  · rw [hr.prevNext, prevLoc_eq_inLoc, hpred] at hl
    show c.mem.link (prevLoc ((a.queue.erase r.node).getLast?.map .node)) = .null
    rw [hgl]
    exact hl
  · intro z hz
    rw [ch_remove]
    exact ⟨(out_erase h.shape.nodup hq).2 hz, rfl, rfl⟩
  · intro z hz hz'
    rw [ch_remove] at hz'
    exact absurd ((out_erase h.shape.nodup hq).1 hz') hz
  · intro d
    exact (h.drain d).unlocked (h.not_held hp rfl d) (fun e => by simp [Abs.apply, e])
      fun _ _ => rfl
  · refine ⟨⟨fun j hj => ?_, h.shape.state_eq_queued hq, h.live_of_prev hq,
      h.live_of_next hq fun b hb hb' => ?_⟩, hr.waits⟩
    · have hj' : Addr.node r.node ∈ c.ch (a.apply (.remove r.node r.newTail)) j := hj
      rw [ch_remove] at hj'
      exact ((h.shape.nodup j).mem_erase_iff.1 hj').1 rfl
    · exact absurd hb' (List.predOf_ne_getLast (h.shape.nodup _) hlast)

/-- The store of the successor's `prev`: the node leaves its list. -/
theorem Inv.removeBefore (h : Inv cfg c a) {r : Removal S} (hp : c.mutex = some (.rmSetPrev r b)) :
    a.Member r.node ∧
      Inv cfg ((c.withMem (c.mem.setPrev b r.prev)).hold (.rmSetNext r b))
        (a.apply (.remove r.node r.newTail)) := by
  obtain ⟨⟨i, hr, hb⟩, hn, hw, hs⟩ := h.holder hp
  refine ⟨member_iff.2 ⟨i, hr.mem⟩, ?_⟩
  have hnd := h.shape.nodup i
  have hbi := List.mem_of_predOf hb
  have hbx : b ≠ .node r.node := by
    rintro rfl
    exact List.predOf_ne_self hnd _ hb
  have hprev : ∀ {y}, y ≠ b → (c.mem.setPrev b r.prev).prev y = c.mem.prev y := fun hy => by
    simp [Mem.prev_setPrev, hy]
  have hq : a.queue.getLast? ≠ some r.node := by
    intro hz
    have hm : .node r.node ∈ c.ch a .queue := node_mem_chain_queue.2 (List.mem_of_getLast? hz)
    obtain rfl := h.shape.disj hr.mem hm
    exact List.predOf_ne_getLast hnd (by rw [getLast?_ch_queue, hz]; rfl) hb
  obtain ⟨hgl, htl⟩ := Abs.tail_remove_of_ne r.newTail hq
  -- the successor in the new lists
  have hb' : b ∈ (c.ch a i).erase (.node r.node) := hnd.mem_erase_iff.2 ⟨hbx, hbi⟩
  have hpred : ((c.ch a i).erase (.node r.node)).predOf b = (c.ch a i).predOf (.node r.node) := by
    rw [List.predOf_erase hnd hbi hbx, if_pos hb]
  refine h.write hp rfl rfl ?_ (h.tail.trans htl.symm) ?_
    (fun e => absurd e (h.link_ne_one hp rfl _)) ?_ ?_ ?_ ?_
  · rw [ch_remove]
    refine h.shape.erase hr.mem hn (.inr ?_) (fun {b'} hb' => ?_) (fun {j y} hy hy' => ?_)
      fun _ _ _ => rfl
    · simp [State.hole, hp, HolderPc.hole]
    · obtain rfl := List.predOf_inj hnd (List.mem_of_predOf hb') hbi (hb'.trans hb.symm)
      exact ⟨.inl (by simp [hr.prev]), .inr rfl, hw⟩
    · refine hprev ?_
      rintro rfl
      obtain rfl := h.shape.disj hy hbi
      exact hy' hb
  · show c.mem.link (prevLoc ((a.queue.erase r.node).getLast?.map .node)) = .null
    rw [hgl]
    exact h.last
  · intro z hz
    rw [ch_remove]
    refine ⟨(out_erase h.shape.nodup hr.mem).2 hz, hprev ?_, rfl⟩
    rintro rfl
    exact hz.1 i hbi
  · intro z hz hz'
    rw [ch_remove] at hz'
    exact absurd ((out_erase h.shape.nodup hr.mem).1 hz') hz
  · intro d
    exact (h.drain d).unlocked (h.not_held hp rfl d) (fun e => by simp [Abs.apply, e])
      fun _ _ => rfl
  · have hch : ∀ m q, ((c.withMem m).hold q).ch (a.apply (.remove r.node r.newTail)) =
        fun j => (c.ch a j).erase (.node r.node) := fun _ _ => ch_remove ..
    have hpx : ((c.mem.setPrev b r.prev).prev (.node r.node)) = c.mem.prev (.node r.node) :=
      hprev hbx.symm
    refine ⟨⟨i, ?_, ?_⟩, hw, ⟨fun j hj => ?_, ?_, fun {d} e => ?_,
      h.live_of_next hr.mem fun b' e hb' => ?_⟩, hr.waits, hs⟩
    · rw [hch]
      exact hb'
    · rw [hch, hr.prev, inPrev, inPrev, hpred]
    · rw [hch] at hj
      exact ((h.shape.nodup j).mem_erase_iff.1 hj).1 rfl
    · show ((c.mem.setPrev b r.prev).prev (.node r.node)).state = .queued
      rw [hpx]
      exact h.shape.state_eq_queued hr.mem
    · exact h.live_of_prev hr.mem (hpx.symm.trans e)
    · obtain rfl : Addr.node r.node = b' := by simpa [State.hole, hp, HolderPc.hole] using e
      exact absurd hb' (List.predOf_ne_self hnd _)

/-! ## The other steps -/

/-- The holder clears the link to an element, which it is going to write again. -/
theorem Inv.clearLink (h : Inv cfg c a) {q : HolderPc S} (hp : c.mutex = some p)
    (hp' : p.drainId = none ∧ p.threadId = none ∧ p.parkedAt = none ∧ p.hole = none ∧
      p.leaving = none) (hq : q.drainId = none ∧ q.leaving = none ∧ q.hole = some y)
    (hy : y ∈ c.ch a i)
    (hh : HolderOk cfg ((c.withMem (c.mem.setLink (inLoc (c.ch a) i y) .null)).hold q) a q) :
    Inv cfg ((c.withMem (c.mem.setLink (inLoc (c.ch a) i y) .null)).hold q) a := by
  obtain ⟨hid, hth, hpk, hhole, hlv⟩ := hp'
  obtain ⟨hid', hlv', hhole'⟩ := hq
  have hother : ∀ {l}, l ≠ inLoc (c.ch a) i y →
      (c.mem.setLink (inLoc (c.ch a) i y) .null).link l = c.mem.link l := fun {l} e => by
    simp [Mem.link_setLink, e]
  refine h.write hp (hid'.trans hid.symm) hth ?_ h.tail ?_ (fun {l} e => ?_) ?_ ?_ (fun d => ?_) hh
  · refine h.shape.setLink (fun {j z} hz e => .inr (.inl ?_)) (fun {j z} hz _ e => ?_)
      fun _ => .inl rfl
    · rw [(h.shape.inLoc_inj hz hy e).2]
      exact hhole'
    · simp [State.hole, hp, hhole] at e
  · rw [hother (h.inLoc_ne_last hy).symm]
    exact h.last
  · by_cases hl : l = inLoc (c.ch a) i y
    · simp [hl] at e
    · rw [hother hl] at e
      exact absurd e (h.link_ne_one hp hpk l)
  · exact fun z ho => ⟨⟨ho.1, by simp [hlv']⟩, rfl, hother (inLoc_ne_next ho.1).symm⟩
  · exact fun z ho ho' => absurd ⟨ho'.1, by simp [hlv]⟩ ho
  · exact (h.drain d).unlocked (h.not_held hp hid d) id
      fun hlk _ => hother (h.inLoc_ne_sentinel (h.not_held hp hid d) hlk hy).symm

/-- The link to the node is cleared. -/
theorem Inv.rmClear (h : Inv cfg c a) {r : Removal S} (hp : c.mutex = some (.rmClear r)) :
    Inv cfg ((c.withMem (c.mem.setLink r.prevNext .null)).hold (.rmCas r)) a := by
  obtain ⟨⟨i, hr⟩, hn⟩ := h.holder hp
  rw [hr.prevNext]
  refine h.clearLink hp ⟨rfl, rfl, rfl, rfl, rfl⟩ ⟨rfl, rfl, rfl⟩ hr.mem
    ⟨⟨i, hr.congr rfl rfl⟩, hn, ?_⟩
  rw [hr.prevNext]
  simp

/-- The link to the successor is written. -/
theorem Inv.rmSetNext (h : Inv cfg c a) {r : Removal S} (hp : c.mutex = some (.rmSetNext r b)) :
    Inv cfg ((c.withMem (c.mem.setLink r.prevNext (.to b))).hold (.rmDone r false)) a := by
  obtain ⟨⟨i, hb, hr⟩, hw, hx, ho, hs⟩ := h.holder hp
  have hpn : r.prevNext = inLoc (c.ch a) i b := by rw [Removal.prevNext, hr, prevNext_inPrev]
  have hother : ∀ {l}, l ≠ inLoc (c.ch a) i b →
      (c.mem.setLink r.prevNext (.to b)).link l = c.mem.link l := fun {l} e => by
    rw [hpn]
    simp [Mem.link_setLink, e]
  refine h.write hp rfl rfl ?_ h.tail ?_ (fun {l} e => ?_) (fun z ho => ⟨ho, rfl, ?_⟩)
    (fun z ho ho' => absurd ho' ho) (fun d => ?_)
    ⟨⟨hx.out, hx.queued, hx.prev, fun {d} e => hx.next ((hother ?_).symm.trans e)⟩, ho⟩
  · refine h.shape.setLink (fun {j y} hy e => .inl ?_) (fun {j y} hy hne e => ?_) fun {z} hz => ?_
    · rw [hpn] at e
      rw [(h.shape.inLoc_inj hy hb e).2]
    · obtain rfl : b = y := by simpa [State.hole, hp, HolderPc.hole] using e
      obtain rfl := h.shape.disj hy hb
      exact absurd hpn.symm hne
    · obtain ⟨j, hj, ej⟩ := h.shape.pend_mem hz
      obtain ⟨-, e⟩ := h.shape.inLoc_inj hj hb (ej.trans hpn)
      simp [hw z e.symm] at hz
  · rw [hother (h.inLoc_ne_last hb).symm]
    exact h.last
  · by_cases hl : l = r.prevNext
    · simp [hl] at e
    · rw [hother (hpn ▸ hl)] at e
      exact absurd e (h.link_ne_one hp rfl l)
  · exact hother (inLoc_ne_next ho.1).symm
  · exact (h.drain d).unlocked (h.not_held hp rfl d) id
      fun hlk _ => hother (h.inLoc_ne_sentinel (h.not_held hp rfl d) hlk hb).symm
  · exact (inLoc_ne_next hx.out).symm

/-- The node is marked as dequeued, and `remove_with_prev` returns. -/
theorem Inv.rmDone (h : Inv cfg c a) {r : Removal S} {e : Bool} (hp : c.mutex = some (.rmDone r e)) :
    Inv cfg (r.return (c.withMem (c.mem.setPrev (.node r.node) RawNodeState.dequeued.intoPtr))) a := by
  obtain ⟨hx, ho⟩ := h.holder hp
  set m := c.mem.setPrev (.node r.node) RawNodeState.dequeued.intoPtr with hm
  have hprev : ∀ {y}, y ≠ .node r.node → m.prev y = c.mem.prev y := fun hy => by
    simp [hm, Mem.prev_setPrev, hy]
  have hone : m.prev (.node r.node) = .one := by simp [hm, RawNodeState.intoPtr]
  have key : ∀ q : HolderPc S, q.drainId = none → q.hole = none → q.leaving = none →
      HolderOk cfg ((c.withMem m).hold q) a q → Inv cfg ((c.withMem m).hold q) a := by
    intro q hid hhole hlv hq
    refine h.write hp hid rfl ?_ h.tail h.last (fun e => absurd e (h.link_ne_one hp rfl _)) ?_ ?_ ?_ hq
    · have e : q.hole = c.hole := by rw [hhole]; simp [State.hole, hp, HolderPc.hole]
      rw [e]
      exact h.shape.of_mem (fun {i y} hy => hprev (fun e => hx.out i (e ▸ hy))) (fun _ => rfl)
    · intro z hz
      refine ⟨⟨hz.1, by simp [hlv]⟩, hprev ?_, rfl⟩
      rintro ⟨⟩
      exact hz.2 rfl
    · intro z hz hz'
      obtain rfl : r.node = z := by
        by_contra hne
        exact hz ⟨hz'.1, by simpa [HolderPc.leaving] using hne⟩
      exact hone
    · exact fun d => (h.drain d).frame (hprev (by simp)) rfl (fun _ _ _ => rfl)
  unfold Removal.return
  cases hc : r.caller with
  | handle => exact key .guard rfl rfl rfl trivial
  | queued =>
    have hown : c.own r.node = .locked := ho (by simp [hc])
    exact (key .guard rfl rfl rfl trivial).ownerGoesOn hown (.inr rfl) rfl fun _ => .inl hone
  | nodeDrop =>
    have hown : c.own r.node = .locked := ho (by simp [hc])
    exact key (.release (.node r.node)) rfl rfl rfl ⟨hown, hx.out⟩

/-- The load of the node's `prev`. -/
theorem Inv.rmPrev (h : Inv cfg c a) {s : S} {w : Bool} {k : Caller}
    (hp : c.mutex = some (.rmPrev x s w k)) :
    (c.mem.prev (.node x)).state = .queued ∧
      Inv cfg (c.hold (if w then .get (c.mem.prev (.node x)).prevNext .load
        (.waitEnqueued ⟨x, s, c.mem.prev (.node x), k⟩) else .rmNext ⟨x, s, c.mem.prev (.node x), k⟩))
        a := by
  obtain ⟨⟨i, hi⟩, hn, ho⟩ := h.holder hp
  have hr : Removing c a ⟨x, s, c.mem.prev (.node x), k⟩ i :=
    ⟨hi, h.prev_eq (h.not_held hp rfl) hi, ho⟩
  refine ⟨h.shape.state_eq_queued hi, ?_⟩
  cases w with
  | false => exact h.hold hp (.inl rfl) rfl (.inl rfl) rfl rfl ⟨⟨i, hr⟩, hn rfl⟩
  | true =>
    exact h.hold hp (.inl rfl) rfl (.inl rfl) rfl rfl 
      ⟨⟨i, _, hi, hr.prevNext.symm, rfl, hr⟩, trivial, by simp⟩

/-- The load of the node's `next`. -/
theorem Inv.rmNext (h : Inv cfg c a) {r : Removal S} (hp : c.mutex = some (.rmNext r)) :
    c.mem.link (.next (.node r.node)) = .null ∧ Inv cfg (c.hold (.rmClear r)) a ∨
      ∃ b, c.mem.link (.next (.node r.node)) = .to b ∧ Inv cfg (c.hold (.rmSetPrev r b)) a := by
  obtain ⟨⟨i, hr⟩, hn⟩ := h.holder hp
  have hh : c.hole = none := by simp [State.hole, hp, HolderPc.hole]
  rcases h.next_link (h.not_held hp rfl) hh (h.link_ne_one hp rfl) hr.mem with e | ⟨b, hb, e, hw⟩
  · exact .inl ⟨e, h.hold hp (.inl rfl) rfl (.inl rfl) rfl rfl ⟨⟨i, hr⟩, hn⟩⟩
  · refine .inr ⟨b, e, h.hold hp (.inl rfl) rfl (.inl rfl) rfl rfl ⟨⟨i, hr, hb⟩, hn, hw, ?_⟩⟩
    intro d hd
    rw [hr.prevNext] at hd
    rcases h.shape.link hr.mem with e | e | ⟨z, ez, hz⟩
    · simp [hd] at e
    · simp [hh] at e
    · obtain rfl := Addr.node.inj ez
      simp [hn] at hz

/-- The tail CAS fails: a node has been enqueued behind. -/
theorem Inv.rmCasFail (h : Inv cfg c a) {r : Removal S} (hp : c.mutex = some (.rmCas r))
    (ht : c.mem.tail ≠ .ptr (.node r.node)) :
    Inv cfg (c.hold (.get (.next (.node r.node)) .load (.relink r))) a := by
  obtain ⟨⟨i, hr⟩, hn, hl⟩ := h.holder hp
  obtain ⟨b, hb, hbr⟩ := h.exists_succ (h.not_held hp rfl) hr.mem ht
  refine h.hold hp (.inr rfl) rfl (.inl rfl) rfl rfl
    ⟨⟨i, b, hb, inLoc_of_predOf hbr, hbr, hr, hn⟩, trivial, ?_⟩
  rintro _ ⟨⟩
  simp [hl, Ptr.NoSentinel]

end Aiq
