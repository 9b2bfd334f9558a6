import Aiq.Inv.Invariant

/-!
# Steps of the others

What an owner or the holder knows is kept by the steps of the other parties. `OwnOk.frame` is the
rule for an owner: nobody else touches a node that is in no list. `EnvStep` describes the steps that
are not the holder's own: they append to the queue, write a pending link, or write a node that is in
no list, and `HolderOk.env` says that the holder's knowledge survives them.
-/

namespace Aiq

variable {S T : Type}

theorem OwnOk.frame {m m' : Mem S T} {ch ch' : ListId → List Addr} {lv lv' : Option NodeId}
    {x : NodeId} {p : OwnPc S} (h : OwnOk m ch lv x p)
    (hout : Out ch lv x → Out ch' lv' x ∧ m'.prev (.node x) = m.prev (.node x) ∧
      m'.link (.next (.node x)) = m.link (.next (.node x)))
    (hin : ¬ Out ch lv x → Out ch' lv' x → m'.prev (.node x) = .one) : OwnOk m' ch' lv' x p := by
  by_cases ho : Out ch lv x
  · obtain ⟨ho', hp, hl⟩ := hout ho
    cases p <;> simp only [OwnOk, hp, hl, ho, ho', true_and, forall_const] at h ⊢ <;> exact h
  · have key : Out ch' lv' x → m'.prev (.node x) = .one := hin ho
    cases p <;> simp only [OwnOk, ho, false_and] at h ⊢
    case idle => exact fun h' => .inl (key h')
    case parkedLoad => exact fun h' => .inl (key h')
    case unpark => exact fun h' => .inl (key h')
    case waitState => exact key
    case waitDrop => exact key
    case locked => exact key

theorem Removing.prevNext {c : State S T} {a : Abs S} {r : Removal S} {i : ListId}
    (h : Removing c a r i) : r.prevNext = inLoc (c.ch a) i (.node r.node) := by
  rw [Removal.prevNext, h.prev, prevNext_inPrev]

/-- The node does not belong to the holder: it is in no list, and its owner is not waiting for the
holder. -/
def Foreign (c : State S T) (a : Abs S) (x : NodeId) : Prop :=
  Out (c.ch a) c.leaving x ∧ c.own x ≠ .locked

/-- The steps of the parties other than the holder, as far as the holder can see them. -/
structure EnvStep (c : State S T) (a : Abs S) (c' : State S T) (a' : Abs S) : Prop where
  mutex : c'.mutex = c.mutex
  queue : ∃ l, a'.queue = a.queue ++ l ∧ ∀ x ∈ l, Foreign c a x
  nodup : a'.queue.Nodup
  drained : a'.drained = a.drained
  lk : ∀ d, c'.lk d = c.lk d
  fresh : ∀ {d}, c.drains d = .none → c'.drains d = .none
  held : ∀ d, c'.drains d = .held ↔ c.drains d = .held
  pend : ∀ {x}, c.pend x = none → c'.pend x = none ∨ Foreign c a x
  locked : ∀ {x}, c.own x = .locked → c'.own x = .locked
  prev : ∀ y, c'.mem.prev y = c.mem.prev y ∨ ∃ x, y = .node x ∧ Foreign c a x
  link : ∀ l, c'.mem.link l = c.mem.link l ∨
    (∃ x, l = .next (.node x) ∧ Foreign c a x ∧ c'.mem.link l = .null) ∨
    ∃ x, c.pend x = some l ∧ c'.mem.link l = .to (.node x)
  parkedNext : c'.mem.parkedNext = c.mem.parkedNext

namespace EnvStep

variable {cfg : Config} {c c' : State S T} {a a' : Abs S} {i : ListId} {y p : Addr} {x : NodeId}

theorem ch_drain (e : EnvStep c a c' a') (d : DrainId) : c'.ch a' (.drain d) = c.ch a (.drain d) := by
  have := e.lk d
  simp only [State.lk] at this
  simp [State.ch, chain, e.drained, this]

theorem ch_queue (e : EnvStep c a c' a') :
    ∃ l, c'.ch a' .queue = c.ch a .queue ++ l ∧ ∀ x, .node x ∈ l → Foreign c a x := by
  obtain ⟨l, hl, hx⟩ := e.queue
  refine ⟨l.map .node, by simp [State.ch, chain, hl], fun x hm => hx x (by simpa using hm)⟩

theorem nodup_ch (e : EnvStep c a c' a') (h : Inv cfg c a) (i : ListId) : (c'.ch a' i).Nodup := by
  cases i with
  | queue => exact e.nodup.map (fun _ _ h => by simpa using h)
  | drain d => rw [e.ch_drain]; exact h.shape.nodup _

theorem mem_ch (e : EnvStep c a c' a') (hy : y ∈ c.ch a i) : y ∈ c'.ch a' i := by
  cases i with
  | queue =>
    obtain ⟨l, hl, -⟩ := e.ch_queue
    rw [hl]
    exact List.mem_append_left _ hy
  | drain d => rwa [e.ch_drain]

theorem of_mem_ch (e : EnvStep c a c' a') (hx : .node x ∈ c'.ch a' i) :
    .node x ∈ c.ch a i ∨ Foreign c a x := by
  cases i with
  | queue =>
    obtain ⟨l, hl, hf⟩ := e.ch_queue
    rw [hl] at hx
    rcases List.mem_append.1 hx with h | h
    · exact .inl h
    · exact .inr (hf x h)
  | drain d => rw [e.ch_drain] at hx; exact .inl hx

theorem predOf_ch (e : EnvStep c a c' a') (h : Inv cfg c a) (hy : y ∈ c.ch a i) :
    (c'.ch a' i).predOf y = (c.ch a i).predOf y := by
  cases i with
  | queue =>
    have hn := e.nodup_ch h .queue
    obtain ⟨l, hl, -⟩ := e.ch_queue
    rw [hl] at hn ⊢
    exact List.predOf_append_left hn hy
  | drain d => rw [e.ch_drain]

theorem inLoc_ch (e : EnvStep c a c' a') (h : Inv cfg c a) (hy : y ∈ c.ch a i) :
    inLoc (c'.ch a') i y = inLoc (c.ch a) i y := by
  rw [inLoc, inLoc, e.predOf_ch h hy]

theorem inPrev_ch (e : EnvStep c a c' a') (h : Inv cfg c a) (hy : y ∈ c.ch a i) :
    inPrev (c'.ch a') i y = inPrev (c.ch a) i y := by
  rw [inPrev, inPrev, e.predOf_ch h hy]

theorem head_ch (e : EnvStep c a c' a') (hy : (c.ch a i).head? = some y) :
    (c'.ch a' i).head? = some y := by
  cases i with
  | queue =>
    obtain ⟨l, hl, -⟩ := e.ch_queue
    rw [hl, List.head?_append, hy]
    rfl
  | drain d => rwa [e.ch_drain]

theorem pend_of_mem (e : EnvStep c a c' a') (hx : .node x ∈ c.ch a i) (hp : c.pend x = none) :
    c'.pend x = none := by
  rcases e.pend hp with h | h
  · exact h
  · exact absurd hx (h.1.1 i)

theorem written (e : EnvStep c a c' a') (hb : y ∈ c.ch a i) (hw : Written c y) : Written c' y := by
  rintro x rfl
  exact e.pend_of_mem hb (hw x rfl)

theorem prev_of_mem (e : EnvStep c a c' a') (hy : y ∈ c.ch a i) :
    c'.mem.prev y = c.mem.prev y := by
  rcases e.prev y with h | ⟨x, rfl, hx⟩
  · exact h
  · exact absurd hy (hx.1.1 i)

theorem prev_sentinel (e : EnvStep c a c' a') (d : DrainId) :
    c'.mem.prev (.sentinel d) = c.mem.prev (.sentinel d) := by
  rcases e.prev (.sentinel d) with h | ⟨x, hx, -⟩
  · exact h
  · simp at hx

theorem prev_of_locked (e : EnvStep c a c' a') (hx : c.own x = .locked) :
    c'.mem.prev (.node x) = c.mem.prev (.node x) := by
  rcases e.prev (.node x) with h | ⟨z, hz, hf⟩
  · exact h
  · obtain rfl : x = z := by simpa using hz
    exact absurd hx hf.2

theorem link_sentinel (e : EnvStep c a c' a') (h : Inv cfg c a) (d : DrainId) :
    c'.mem.link (.next (.sentinel d)) = c.mem.link (.next (.sentinel d)) := by
  rcases e.link (.next (.sentinel d)) with h' | ⟨x, hx, -, -⟩ | ⟨x, hx, -⟩
  · exact h'
  · simp at hx
  · exact absurd rfl (h.shape.pend_loc hx)

/-- The link of an element changes only when its enqueuer writes it. -/
theorem link_inLoc (e : EnvStep c a c' a') (h : Inv cfg c a) (hy : y ∈ c.ch a i) :
    c'.mem.link (inLoc (c.ch a) i y) = c.mem.link (inLoc (c.ch a) i y) ∨
      (c.mem.link (inLoc (c.ch a) i y) = .null ∨ c.mem.link (inLoc (c.ch a) i y) = .one) ∧
        c'.mem.link (inLoc (c.ch a) i y) = .to y := by
  rcases e.link (inLoc (c.ch a) i y) with h' | ⟨x, hx, hf, -⟩ | ⟨x, hx, hl⟩
  · exact .inl h'
  · exact absurd hx (inLoc_ne_next hf.1.1)
  · obtain ⟨j, hj, ej⟩ := h.shape.pend_mem hx
    obtain ⟨-, rfl⟩ := h.shape.inLoc_inj hy hj ej.symm
    exact .inr ⟨h.shape.pend_link hx, hl⟩

/-- The link of an element that is not pending does not change. -/
theorem link_written (e : EnvStep c a c' a') (h : Inv cfg c a) (hy : y ∈ c.ch a i)
    (hw : Written c y) : c'.mem.link (inLoc (c.ch a) i y) = c.mem.link (inLoc (c.ch a) i y) := by
  rcases e.link (inLoc (c.ch a) i y) with h' | ⟨x, hx, hf, -⟩ | ⟨x, hx, -⟩
  · exact h'
  · exact absurd hx (inLoc_ne_next hf.1.1)
  · obtain ⟨j, hj, ej⟩ := h.shape.pend_mem hx
    obtain ⟨-, rfl⟩ := h.shape.inLoc_inj hy hj ej.symm
    simp [hw x rfl] at hx

theorem link_prevNext (e : EnvStep c a c' a') (h : Inv cfg c a) {r : Removal S}
    (hr : Removing c a r i) (hn : c.pend r.node = none) :
    c'.mem.link r.prevNext = c.mem.link r.prevNext := by
  rw [hr.prevNext]
  exact e.link_written h hr.mem (by rintro x ⟨⟩; exact hn)

theorem link_last (e : EnvStep c a c' a') (h : Inv cfg c a) {z : NodeId}
    (hz : (c.ch a i).getLast? = some (.node z)) :
    c'.mem.link (.next (.node z)) = c.mem.link (.next (.node z)) := by
  rcases e.link (.next (.node z)) with h' | ⟨x, hx, hf, -⟩ | ⟨x, hx, -⟩
  · exact h'
  · obtain rfl : z = x := by simpa using hx
    exact absurd (List.mem_of_getLast? hz) (hf.1.1 i)
  · obtain ⟨j, hj, ej⟩ := h.shape.pend_mem hx
    exact absurd ej (h.shape.inLoc_ne_next_last hz)

theorem exhausted (e : EnvStep c a c' a') (h : Inv cfg c a) {d : DrainId} (hx : Exhausted c a d) :
    Exhausted c' a' d := by
  intro hd
  rw [e.link_sentinel h]
  exact hx (by rwa [e.drained] at hd)

theorem removing (e : EnvStep c a c' a') (h : Inv cfg c a) {r : Removal S} (hr : Removing c a r i) :
    Removing c' a' r i :=
  ⟨e.mem_ch hr.mem, by rw [e.inPrev_ch h hr.mem]; exact hr.prev, fun hc => e.locked (hr.waits hc)⟩

theorem live (e : EnvStep c a c' a') {d : DrainId} (hd : Live c d) : Live c' d :=
  hd.imp (fun h => (e.lk d).trans h) (e.held d).2

theorem leaving (e : EnvStep c a c' a') (h : Inv cfg c a) (hx : Leaving c a x)
    (hl : c.leaving = some x) : Leaving c' a' x := by
  have hp : c'.mem.prev (.node x) = c.mem.prev (.node x) := by
    rcases e.prev (.node x) with h | ⟨z, hz, hf⟩
    · exact h
    · obtain rfl : x = z := by simpa using hz
      exact absurd hl hf.1.2
  have hn : c'.mem.link (.next (.node x)) = c.mem.link (.next (.node x)) := by
    rcases e.link (.next (.node x)) with h' | ⟨z, hz, hf, -⟩ | ⟨z, hz, -⟩
    · exact h'
    · obtain rfl : x = z := by simpa using hz
      exact absurd hl hf.1.2
    · obtain ⟨j, -, ej⟩ := h.shape.pend_mem hz
      exact absurd ej (inLoc_ne_next hx.out)
  refine ⟨fun i hi => ?_, hp ▸ hx.queued, fun hd => e.live (hx.prev (hp ▸ hd)),
    fun hd => e.live (hx.next (hn ▸ hd))⟩
  rcases e.of_mem_ch hi with h | h
  · exact hx.out i h
  · exact h.1.2 hl

theorem not_mem_of_locked (e : EnvStep c a c' a') (hx : c.own x = .locked)
    (ho : ∀ i, .node x ∉ c.ch a i) (i : ListId) : .node x ∉ c'.ch a' i := by
  intro hi
  rcases e.of_mem_ch hi with h | h
  · exact ho i h
  · exact h.2 hx

theorem firstPrev (e : EnvStep c a c' a') {d : DrainId} (hx : FirstPrev c a d) :
    FirstPrev c' a' d := by
  obtain ⟨x, hx, hp⟩ := hx
  refine ⟨x, by rw [e.drained]; exact hx, ?_⟩
  rw [e.prev_of_mem (node_mem_chain_drain.2 (List.mem_of_head? hx))]
  exact hp

theorem awaited (e : EnvStep c a c' a') (h : Inv cfg c a) {k : GetCont S} (hy : y ∈ c.ch a i)
    (hk : Awaited c a k i y) : Awaited c' a' k i y := by
  cases k with
  | dequeue => exact ⟨hk.1, e.head_ch hk.2⟩
  | waitEnqueued r => exact ⟨hk.1, e.removing h hk.2⟩
  | relink r =>
    obtain ⟨hp, hr, hn⟩ := hk
    exact ⟨by rw [e.predOf_ch h hy]; exact hp, e.removing h hr, e.pend_of_mem hr.mem hn⟩
  | drainNew d s => exact ⟨hk.1, e.head_ch hk.2.1, e.fresh hk.2.2⟩
  | drained d b flush =>
    exact ⟨hk.1, e.head_ch hk.2.1, by rw [e.predOf_ch h hy]; exact hk.2.2⟩

theorem getPcOk (e : EnvStep c a c' a') (h : Inv cfg c a) {g : GetPc} (hy : y ∈ c.ch a i)
    (hp : ∀ v, g = .clear v → c.parkedAt = none)
    (hg : GetPcOk cfg c (inLoc (c.ch a) i y) g) : GetPcOk cfg c' (inLoc (c.ch a) i y) g := by
  have key := e.link_inLoc h hy
  have hne : c.mem.link (inLoc (c.ch a) i y) ≠ .null →
      c'.mem.link (inLoc (c.ch a) i y) ≠ .null := by
    rcases key with h' | ⟨-, h'⟩ <;> simp [h']
  cases g with
  | park => exact ⟨fun hv => hne (hg.1 hv), fun hv => by rw [e.parkedNext]; exact hg.2 hv⟩
  | reload => exact ⟨fun hv => hne (hg.1 hv), fun hv => by rw [e.parkedNext]; exact hg.2 hv⟩
  | clear v =>
    obtain ⟨hv, hl, hn⟩ := hg
    refine ⟨hv, ?_, hn⟩
    rcases key with h' | ⟨h' | h', -⟩
    · rw [h', hl]
    · exact absurd (hl.symm.trans h') hn
    · have := (h.parked h').1
      rw [hp v rfl] at this
      simp at this
  | load => exact hg
  | spin n => exact hg
  | cas => exact hg
  | setParked => exact hg

/-- The holder's knowledge survives the steps of the others. -/
theorem holderOk (e : EnvStep c a c' a') (h : Inv cfg c a) {p : HolderPc S}
    (hp : c.mutex = some p) : HolderOk cfg c' a' p := by
  have hk := h.holder hp
  have hlv : c.leaving = p.leaving := by simp [State.leaving, hp]
  have hpk : c.parkedAt = p.parkedAt := by simp [State.parkedAt, hp]
  cases p with
  | guard => trivial
  | get l g k =>
    obtain ⟨⟨i, y, hy, rfl, ha⟩, hg, hs⟩ := hk
    refine ⟨⟨i, y, e.mem_ch hy, e.inLoc_ch h hy, e.awaited h hy ha⟩, e.getPcOk h hy ?_ hg, ?_⟩
    · rintro v rfl
      rw [hpk]
      rfl
    · rintro r rfl
      rw [e.link_prevNext h ha.2.1 ha.2.2]
      exact hs r rfl
  | dequeue x =>
    obtain ⟨hx, hn⟩ := hk
    obtain ⟨l, hl, -⟩ := e.queue
    refine ⟨by rw [hl, List.head?_append, hx]; rfl,
      e.pend_of_mem (i := .queue) (node_mem_chain_queue.2 (List.mem_of_head? hx)) hn⟩
  | pop x =>
    obtain ⟨l, hl, -⟩ := e.queue
    show x ∈ a'.queue
    rw [hl]
    exact List.mem_append_left _ hk
  | rmPrev x s w k =>
    obtain ⟨⟨i, hi⟩, hn, ho⟩ := hk
    exact ⟨⟨i, e.mem_ch hi⟩, fun hw => e.pend_of_mem hi (hn hw), fun hc => e.locked (ho hc)⟩
  | rmNext r =>
    obtain ⟨⟨i, hr⟩, hn⟩ := hk
    exact ⟨⟨i, e.removing h hr⟩, e.pend_of_mem hr.mem hn⟩
  | rmClear r =>
    obtain ⟨⟨i, hr⟩, hn⟩ := hk
    exact ⟨⟨i, e.removing h hr⟩, e.pend_of_mem hr.mem hn⟩
  | rmCas r =>
    obtain ⟨⟨i, hr⟩, hn, hl⟩ := hk
    refine ⟨⟨i, e.removing h hr⟩, e.pend_of_mem hr.mem hn, ?_⟩
    rw [e.link_prevNext h hr hn]
    exact hl
  | rmSetPrev r b =>
    obtain ⟨⟨i, hr, hb⟩, hn, hw, hs⟩ := hk
    have hm := List.mem_of_predOf hb
    exact ⟨⟨i, e.removing h hr, by rw [e.predOf_ch h hm]; exact hb⟩, e.pend_of_mem hr.mem hn,
      e.written hm hw, by rw [e.link_prevNext h hr hn]; exact hs⟩
  | rmSetNext r b =>
    obtain ⟨⟨i, hb, hr⟩, hw, hx, ho, hs⟩ := hk
    refine ⟨⟨i, e.mem_ch hb, by rw [e.inPrev_ch h hb]; exact hr⟩, e.written hb hw,
      e.leaving h hx hlv, fun hc => e.locked (ho hc), ?_⟩
    rw [Removal.prevNext, hr, prevNext_inPrev] at hs ⊢
    rw [e.link_written h hb hw]
    exact hs
  | rmDone r b => exact ⟨e.leaving h hk.1 hlv, fun hc => e.locked (hk.2 hc)⟩
  | recheck x => exact e.locked hk
  | dropRecheck x => exact e.locked hk
  | queued x =>
    obtain ⟨ho, i, hi⟩ := hk
    exact ⟨e.locked ho, i, e.mem_ch hi⟩
  | release k =>
    cases k with
    | state x =>
      obtain ⟨ho, hx, hp⟩ := hk
      exact ⟨e.locked ho, e.not_mem_of_locked ho hx, by rw [e.prev_of_locked ho]; exact hp⟩
    | node x => exact ⟨e.locked hk.1, e.not_mem_of_locked hk.1 hk.2⟩
    | thread t => trivial
  | drainClear d b s =>
    obtain ⟨hb, hw, hd⟩ := hk
    exact ⟨e.head_ch hb, e.written (List.mem_of_head? hb) hw, e.fresh hd⟩
  | drainSwap d b s =>
    obtain ⟨hb, hw, hd, hl⟩ := hk
    have hm := List.mem_of_head? hb
    refine ⟨e.head_ch hb, e.written hm hw, e.fresh hd, ?_⟩
    have hloc : inLoc (c.ch a) .queue b = .head := inLoc_of_head (h.shape.nodup _) hb
    rw [← hloc, e.link_written h hm hw, hloc]
    exact hl
  | drain d => exact e.exhausted h hk
  | drained d b => exact e.head_ch hk
  | ddPrev d b flush =>
    rcases hk with hk | ⟨hf, hd, hb, hs⟩
    · exact .inl (e.head_ch hk)
    · exact .inr ⟨hf, by rw [e.drained]; exact hd, hb, by rw [e.prev_sentinel]; exact hs⟩
  | ddSetHead d b v flush =>
    rcases hk with ⟨x, l, hd, hb, hv, hn⟩ | ⟨hf, hd, hb, hv⟩
    · refine .inl ⟨x, l, by rw [e.drained]; exact hd, hb, hv, fun y hy => ?_⟩
      refine e.pend_of_mem (i := .drain d) (node_mem_chain_drain.2 ?_) (hn y hy)
      rw [hd]
      exact List.mem_cons_of_mem _ (List.mem_of_head? hy)
    · exact .inr ⟨hf, by rw [e.drained]; exact hd, hb, hv⟩
  | ddDone d b flush =>
    obtain ⟨hx, ⟨x, rfl, hl⟩ | ⟨hd, hb⟩⟩ := hk
    · exact ⟨e.exhausted h hx, .inl ⟨x, rfl, e.leaving h hl hlv⟩⟩
    · exact ⟨e.exhausted h hx, .inr ⟨by rw [e.drained]; exact hd, hb⟩⟩
  | exPrev d b => exact e.head_ch hk
  | exTail d => exact e.firstPrev hk
  | exTailStore d b => exact ⟨e.firstPrev hk.1, by rw [e.ch_drain]; exact hk.2⟩
  | exUnlock d linked =>
    cases linked with
    | false => exact ⟨by rw [e.drained]; exact hk.1, by rw [e.link_sentinel h]; exact hk.2⟩
    | true =>
      obtain ⟨hf, z, hz, hl⟩ := hk
      refine ⟨e.firstPrev hf, z, by rw [e.drained]; exact hz, ?_⟩
      have hlk : (c.drains d).linked = false := by
        have : c.drains d = .held := (h.held d).2 (by simp [hp, HolderPc.drainId])
        rw [this]
        rfl
      have hz' : (c.ch a (.drain d)).getLast? = some (.node z) := by
        simp [State.ch, chain, hlk, hz]
      rw [e.link_last h hz']
      exact hl
  | exCheck d => trivial
  | exSetNull d => show (a'.drained d).rest = []; rw [e.drained]; exact hk
  | dropLoop d => trivial
  | drainFree d => show (a'.drained d).rest = []; rw [e.drained]; exact hk
  | upd t => trivial
  | fault => exact hk

/-- What is known of a `Drain` survives the steps of the others. -/
theorem drainOk (e : EnvStep c a c' a') (h : Inv cfg c a) (d : DrainId) :
    DrainOk c'.mem (a'.drained d).rest d (c.drains d) := by
  have hd := h.drain d
  rw [e.drained]
  cases hp : c.drains d with
  | held =>
    rw [hp] at hd
    refine ⟨fun {z} hz => ?_, fun hz => ?_⟩
    · have hz' : (c.ch a (.drain d)).getLast? = some (.node z) := by
        simp [State.ch, chain, hp, DrainPc.linked, hz]
      rw [e.prev_sentinel, e.link_last h hz']
      exact hd.last hz
    · rw [e.prev_sentinel, e.link_sentinel h]
      exact hd.empty hz
  | _ =>
    rw [hp] at hd
    simp only [DrainOk, e.link_sentinel h] at hd ⊢
    exact hd

end EnvStep

/-- A step of another party keeps the invariant if it keeps the shape of the lists and what the
owners, the `Drain`s and the threads know. -/
theorem Inv.env {cfg : Config} {c c' : State S T} {a a' : Abs S} (h : Inv cfg c a)
    (e : EnvStep c a c' a') (hs : Shape c'.mem (c'.ch a') c'.lk c'.pend c'.hole)
    (ht : c'.mem.tail = a'.tail)
    (hl : c'.mem.link (prevLoc (a'.queue.getLast?.map .node)) = .null)
    (ho : ∀ x, OwnOk c'.mem (c'.ch a') c'.leaving x (c'.own x))
    (hd : ∀ d, DrainOk c'.mem (a'.drained d).rest d (c'.drains d))
    (hth : ∀ t, ThreadOk c'.mutex t (c'.upd t)) : Inv cfg c' a' where
  shape := hs
  tail := ht
  last := hl
  parked := by
    intro l hone
    have hp : c'.parkedAt = c.parkedAt := by simp [State.parkedAt, e.mutex]
    rw [hp]
    rcases e.link l with h' | ⟨x, -, -, h'⟩ | ⟨x, -, h'⟩
    · exact h.parked (h'.symm.trans hone)
    · simp [h'] at hone
    · simp [h'] at hone
  own := ho
  drain := hd
  held := fun d => by rw [e.held, e.mutex]; exact h.held d
  thread := hth
  holder := fun {p} hp => e.holderOk h (by rw [← e.mutex]; exact hp)

/-- The invariant says nothing of the data of the nodes. -/
theorem Inv.setData {cfg : Config} {c : State S T} {a : Abs S} (h : Inv cfg c a) (x : NodeId)
    (v : T) : Inv cfg (c.withMem (c.mem.setData x v)) a := by
  have e : EnvStep c a (c.withMem (c.mem.setData x v)) a :=
    { mutex := rfl
      queue := ⟨[], by simp, by simp⟩
      nodup := (h.shape.nodup .queue).of_map
      drained := rfl
      lk := fun _ => rfl
      fresh := fun hd => hd
      held := fun _ => Iff.rfl
      pend := .inl
      locked := fun hx => hx
      prev := fun _ => .inl rfl
      link := fun _ => .inl rfl
      parkedNext := rfl }
  exact h.env e (h.shape.of_mem (fun _ => rfl) (fun _ => rfl)) h.tail h.last
    (fun x => (h.own x).frame (fun ho => ⟨ho, rfl, rfl⟩) (fun ho ho' => absurd ho' ho))
    (fun d => e.drainOk h d) h.thread

/-! ## Moves of control -/

/-- The thread that holds the mutex. -/
def HolderPc.threadId : HolderPc S → Option ThreadId
  | .upd t => some t
  | .release (.thread t) => some t
  | _ => none

/-- A thread knows nothing of the mutex unless it holds it. -/
theorem ThreadOk.of_ne {o o' : Option (HolderPc S)} {t : ThreadId} {u : UpdPc S}
    (h : ThreadOk o t u) (ho : o.bind HolderPc.threadId ≠ some t) : ThreadOk o' t u := by
  have hne : o ≠ some (.upd t) ∧ o ≠ some (.release (.thread t)) := by
    constructor <;> rintro rfl <;> exact ho rfl
  cases u with
  | attempt f i k s =>
    cases k with
    | second => exact absurd h.2 hne.1
    | plain => trivial
    | first => exact h
  | secondLoad f i => exact absurd h.2 hne.1
  | emptyLoad => exact absurd h hne.1
  | releasing => exact absurd h hne.2
  | idle => trivial
  | waitLock f i => exact h
  | waitEmpty => trivial

section Move

variable {cfg : Config} {c c' : State S T} {a : Abs S}

theorem Removing.congr {r : Removal S} {i : ListId} (h : Removing c a r i) (ho : c'.own = c.own)
    (hd : c'.drains = c.drains) : Removing c' a r i := by
  have hch : c'.ch a = c.ch a := by rw [State.ch, State.ch, hd]
  exact ⟨hch ▸ h.mem, hch ▸ h.prev, fun hc => by rw [ho]; exact h.waits hc⟩

theorem Awaited.congr {k : GetCont S} {i : ListId} {y : Addr} (h : Awaited c a k i y)
    (ho : c'.own = c.own) (hd : c'.drains = c.drains) : Awaited c' a k i y := by
  have hch : c'.ch a = c.ch a := by rw [State.ch, State.ch, hd]
  cases k with
  | dequeue => exact ⟨h.1, by rw [hch]; exact h.2⟩
  | waitEnqueued r => exact ⟨h.1, h.2.congr ho hd⟩
  | relink r =>
    exact ⟨by rw [hch]; exact h.1, h.2.1.congr ho hd, by rw [State.pend, ho]; exact h.2.2⟩
  | drainNew d s => exact ⟨h.1, by rw [hch]; exact h.2.1, by rw [hd]; exact h.2.2⟩
  | drained d b flush => exact ⟨h.1, by rw [hch]; exact h.2.1, by rw [hch]; exact h.2.2⟩

/-- What the holder knows is about the memory, the owners and the `Drain`s. -/
theorem HolderOk.congr {p : HolderPc S} (h : HolderOk cfg c a p) (hm : c'.mem = c.mem)
    (ho : c'.own = c.own) (hd : c'.drains = c.drains) : HolderOk cfg c' a p := by
  obtain ⟨m, o, u, d, t⟩ := c
  obtain ⟨m', o', u', d', t'⟩ := c'
  obtain rfl : m' = m := hm
  obtain rfl : o' = o := ho
  obtain rfl : d' = d := hd
  have hL {x : NodeId} (hx : Leaving ⟨m', o', u, d', t⟩ a x) : Leaving ⟨m', o', u', d', t'⟩ a x :=
    ⟨hx.out, hx.queued, hx.prev, hx.next⟩
  cases p with
  | get l g k =>
    obtain ⟨⟨i, y, hy, hl, ha⟩, hg, hs⟩ := h
    exact ⟨⟨i, y, hy, hl, ha.congr rfl rfl⟩, by cases g <;> exact hg, hs⟩
  | rmNext r => exact ⟨h.1.imp fun i hi => hi.congr rfl rfl, h.2⟩
  | rmClear r => exact ⟨h.1.imp fun i hi => hi.congr rfl rfl, h.2⟩
  | rmCas r => exact ⟨h.1.imp fun i hi => hi.congr rfl rfl, h.2⟩
  | rmSetPrev r b => exact ⟨h.1.imp fun i hi => ⟨hi.1.congr rfl rfl, hi.2⟩, h.2⟩
  | rmSetNext r b => exact ⟨h.1, h.2.1, hL h.2.2.1, h.2.2.2⟩
  | rmDone r e => exact ⟨hL h.1, h.2⟩
  | ddDone d b flush => exact ⟨h.1, h.2.imp_left fun ⟨x, hx⟩ => ⟨x, hx.1, hL hx.2⟩⟩
  | release k => cases k <;> exact h
  | exUnlock d linked => cases linked <;> exact h
  | _ => exact h

/-- What is known of a `Drain` is about its sentinel and, if it holds the lock, about the link
behind its last node. -/
theorem DrainOk.frame {m m' : Mem S T} {l : List NodeId} {d : DrainId} {q : DrainPc}
    (h : DrainOk m l d q) (hp : m'.prev (.sentinel d) = m.prev (.sentinel d))
    (hl : m'.link (.next (.sentinel d)) = m.link (.next (.sentinel d)))
    (hz : ∀ z, q = .held → l.getLast? = some z →
      m'.link (.next (.node z)) = m.link (.next (.node z))) : DrainOk m' l d q := by
  cases q with
  | held =>
    refine ⟨fun {z} e => ?_, ?_⟩
    · rw [hp, hz z rfl e]
      exact h.last e
    · rw [hp, hl]
      exact h.empty
  | none => exact h
  | gone => exact h
  | _ => simp only [DrainOk, hl] at h ⊢; exact h

/-- A step that moves control only: the lists and the words they are made of stay. The holder may
announce a hole, but not fill one, and may not forget a node that is on its way out. -/
theorem Inv.move (h : Inv cfg c a) (ht : c'.mem.tail = c.mem.tail) (hp : c'.mem.prev = c.mem.prev)
    (hl : c'.mem.link = c.mem.link) (hd : c'.drains = c.drains) (hpend : c'.pend = c.pend)
    (hown : ∀ x, OwnOk c.mem (c.ch a) c.leaving x (c'.own x))
    (hhole : ∀ y, c.hole = some y → c'.hole = some y) (hlv : c'.leaving = c.leaving)
    (hpk : ∀ {l}, c.mem.link l = .one → c'.parkedAt = some l)
    (hid : c'.mutex.bind HolderPc.drainId = c.mutex.bind HolderPc.drainId)
    (hth : ∀ t, ThreadOk c'.mutex t (c'.upd t))
    (hh : ∀ {p}, c'.mutex = some p → HolderOk cfg c' a p) : Inv cfg c' a := by
  have hch : c'.ch a = c.ch a := by rw [State.ch, State.ch, hd]
  have hlk : c'.lk = c.lk := by funext d; rw [State.lk, State.lk, hd]
  refine ⟨?_, ht.trans h.tail, by rw [hl]; exact h.last, fun {l} e => ?_, ?_, ?_, ?_, hth, hh⟩
  · rw [hch, hlk, hpend]
    have hs : Shape c'.mem (c.ch a) c.lk c.pend c.hole :=
      h.shape.of_mem (fun _ => by rw [hp]) (fun _ => by rw [hl])
    exact ⟨hs.nodup, hs.disj, hs.pred_node, hs.prev,
      fun hy => (hs.link hy).imp_right (Or.imp_left (hhole _)), hs.pend_mem, hs.pend_link, hs.pend_loc⟩
  · rw [hl] at e
    exact ⟨hpk e, (h.parked e).2⟩
  · intro x
    rw [hch, hlv]
    exact (hown x).frame (fun ho => ⟨ho, by rw [hp], by rw [hl]⟩) (fun ho ho' => absurd ho' ho)
  · intro d
    rw [hd]
    exact (h.drain d).frame (by rw [hp]) (by rw [hl]) (fun z _ _ => by rw [hl])
  · intro d
    rw [hd, hid]
    exact h.held d

/-- The holder's control state is moved; words that are in no list may be written. -/
theorem Inv.holdMem (h : Inv cfg c a) {m : Mem S T} {p q : HolderPc S} (hp : c.mutex = some p)
    (hm : m.tail = c.mem.tail ∧ m.prev = c.mem.prev ∧ m.link = c.mem.link)
    (hhole : p.hole = none ∨ q.hole = p.hole) (hlv : q.leaving = p.leaving)
    (hpk : p.parkedAt = none ∨ q.parkedAt = p.parkedAt ∨
      ∀ l, p.parkedAt = some l → c.mem.link l ≠ .one)
    (hid : q.drainId = p.drainId) (hth : p.threadId = none)
    (hh : HolderOk cfg ((c.withMem m).hold q) a q) : Inv cfg ((c.withMem m).hold q) a := by
  refine h.move hm.1 hm.2.1 hm.2.2 rfl rfl h.own ?_ ?_ ?_ ?_ ?_ ?_
  · intro y hy
    have hy' : p.hole = some y := by simpa [State.hole, hp] using hy
    rcases hhole with e | e
    · simp [e] at hy'
    · simpa [State.hole, e] using hy'
  · simp [State.leaving, hp, hlv]
  · intro l hl
    have hl' : p.parkedAt = some l := by simpa [State.parkedAt, hp] using (h.parked hl).1
    rcases hpk with e | e | e
    · simp [e] at hl'
    · simpa [State.parkedAt, e] using hl'
    · exact absurd hl (e l hl')
  · simp [hp, hid]
  · intro t
    exact (h.thread t).of_ne (by simp [hp, hth])
  · rintro _ ⟨⟩
    exact hh

/-- The holder's control state is moved. -/
theorem Inv.hold (h : Inv cfg c a) {p q : HolderPc S} (hp : c.mutex = some p)
    (hhole : p.hole = none ∨ q.hole = p.hole) (hlv : q.leaving = p.leaving)
    (hpk : p.parkedAt = none ∨ q.parkedAt = p.parkedAt ∨
      ∀ l, p.parkedAt = some l → c.mem.link l ≠ .one)
    (hid : q.drainId = p.drainId) (hth : p.threadId = none) (hh : HolderOk cfg c a q) :
    Inv cfg (c.hold q) a :=
  h.holdMem (m := c.mem) hp ⟨rfl, rfl, rfl⟩ hhole hlv hpk hid hth (hh.congr rfl rfl rfl)

/-- The mutex is acquired, by a party that has no `Drain`. -/
theorem Inv.acquire (h : Inv cfg c a) {q : HolderPc S} (hp : c.mutex = none)
    (hlv : q.leaving = none) (hid : q.drainId = none) (hh : HolderOk cfg c a q) :
    Inv cfg (c.hold q) a := by
  refine h.move rfl rfl rfl rfl rfl h.own ?_ ?_ ?_ ?_ ?_ ?_
  · intro y hy
    simp [State.hole, hp] at hy
  · simp [State.leaving, hp, hlv]
  · intro l hl
    simpa [State.parkedAt, hp] using (h.parked hl).1
  · simp [hp, hid]
  · intro t
    exact (h.thread t).of_ne (by simp [hp])
  · rintro _ ⟨⟩
    exact hh.congr rfl rfl rfl

/-- The owner of `x`, who waited for the holder, goes on. -/
theorem Inv.ownerGoesOn (h : Inv cfg c a) {x : NodeId} {q : OwnPc S} (hx : c.own x = .locked)
    (hm : c.mutex = none ∨ c.mutex = some .guard) (hq : q.pend = none)
    (ho : OwnOk c.mem (c.ch a) c.leaving x q) : Inv cfg (c.setOwn x q) a := by
  refine h.move rfl rfl rfl rfl ?_ ?_ (fun y hy => hy) rfl (fun hl => (h.parked hl).1) rfl h.thread ?_
  · funext z
    by_cases e : z = x
    · subst e
      simp [State.pend, hx, hq]
      rfl
    · simp [State.pend, e]
  · intro z
    by_cases e : z = x
    · subst e
      simpa using ho
    · simpa [e] using h.own z
  · intro p hp
    rcases hm with e | e
    · simp [e] at hp
    · obtain rfl : HolderPc.guard = p := by simpa [e] using hp
      trivial

/-- The mutex is released. -/
theorem Inv.release (h : Inv cfg c a) {p : HolderPc S} (hp : c.mutex = some p)
    (hhole : p.hole = none) (hlv : p.leaving = none) (hpk : p.parkedAt = none)
    (hid : p.drainId = none) (hth : p.threadId = none) : Inv cfg c.free a := by
  refine h.move rfl rfl rfl rfl rfl h.own ?_ ?_ ?_ ?_ ?_ ?_
  · intro y hy
    simp [State.hole, hp, hhole] at hy
  · simp [State.leaving, hp, hlv]
  · intro l hl
    have := (h.parked hl).1
    simp [State.parkedAt, hp, hpk] at this
  · simp [hp, hid]
  · intro t
    exact (h.thread t).of_ne (by simp [hp, hth])
  · rintro _ ⟨⟩

/-- A step of the holder that writes memory. -/
theorem Inv.write (h : Inv cfg c a) {m : Mem S T} {a' : Abs S} {p q : HolderPc S}
    (hp : c.mutex = some p) (hid : q.drainId = p.drainId) (hth : p.threadId = none)
    (hs : Shape m (c.ch a') c.lk c.pend q.hole) (ht : m.tail = a'.tail)
    (hl : m.link (prevLoc (a'.queue.getLast?.map .node)) = .null)
    (hpk : ∀ {l}, m.link l = .one → q.parkedAt = some l ∧ cfg.variant = .x86)
    (ho : ∀ x, Out (c.ch a) p.leaving x → Out (c.ch a') q.leaving x ∧
      m.prev (.node x) = c.mem.prev (.node x) ∧
      m.link (.next (.node x)) = c.mem.link (.next (.node x)))
    (ho' : ∀ x, ¬ Out (c.ch a) p.leaving x → Out (c.ch a') q.leaving x → m.prev (.node x) = .one)
    (hd : ∀ d, DrainOk m (a'.drained d).rest d (c.drains d))
    (hh : HolderOk cfg ((c.withMem m).hold q) a' q) : Inv cfg ((c.withMem m).hold q) a' := by
  have hlv : c.leaving = p.leaving := by simp [State.leaving, hp]
  refine ⟨hs, ht, hl, hpk, fun x => ?_, hd, fun d => ?_, fun t => ?_, ?_⟩
  · exact (h.own x).frame (hlv ▸ ho x) (hlv ▸ ho' x)
  · simp [h.held d, hp, hid]
  · exact (h.thread t).of_ne (by simp [hp, hth])
  · rintro _ ⟨⟩
    exact hh

theorem Inv.link_ne_one (h : Inv cfg c a) {p : HolderPc S} (hp : c.mutex = some p)
    (hpk : p.parkedAt = none) (l : Loc) : c.mem.link l ≠ .one := by
  intro e
  have := (h.parked e).1
  simp [State.parkedAt, hp, hpk] at this

end Move

end Aiq
