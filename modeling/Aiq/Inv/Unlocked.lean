import Aiq.Inv.Drain

/-!
# A `Drain` and its lock

Before `execute_unlocked` releases the lock the chain of the `Drain` is closed through its sentinel
(`Inv.exUnlock`), so that its nodes can be removed by `remove_with_prev`, and it is opened again when
the lock is back (`Inv.relock`). A drop without the lock is of a `Drain` that has no nodes left,
unless it is torn (`Inv.looseDrop`).
-/

namespace Aiq

variable {S T : Type} {cfg : Config} {c : State S T} {a : Abs S} {p : HolderPc S} {i j : ListId}
  {x : NodeId} {y b : Addr} {d : DrainId}

theorem lk_setDrain {q : DrainPc} (hq : q.linked = c.lk d) : (c.setDrain d q).lk = c.lk := by
  funext e
  by_cases he : e = d
  · subst he
    rw [← hq]
    simp [State.lk]
  · simp [State.lk, he]

theorem node_mem_ch_setDrain {q : DrainPc} :
    .node x ∈ (c.setDrain d q).ch a j ↔ .node x ∈ c.ch a j := by
  cases j with
  | queue => exact Iff.rfl
  | drain e => exact node_mem_chain_drain.trans node_mem_chain_drain.symm

theorem closes_setDrain {q q' : DrainPc} (hq : q.linked = false) (hq' : q'.linked = true) :
    Closes ((c.setDrain d q).ch a) ((c.setDrain d q').ch a) d where
  self := by simp [State.ch, chain, hq, hq']
  other := fun {i} hi => by rw [ch_setDrain_ne hi, ch_setDrain_ne hi]
  fresh := fun i hi => by
    obtain ⟨-, h⟩ := sentinel_mem_ch hi
    simp [State.lk, hq] at h

theorem setDrain_self : c.setDrain d (c.drains d) = c := by
  simp [State.setDrain]

/-- The `Drain` `d` and the mutex change hands; the memory stays. -/
theorem Inv.handover (h : Inv cfg c a) {q : DrainPc} {o : Option (HolderPc S)}
    (hs : Shape c.mem ((c.setDrain d q).ch a) (c.setDrain d q).lk c.pend (o.bind HolderPc.hole))
    (hpk : ∀ l, c.mem.link l ≠ .one) (hlv : c.leaving = none) (hlv' : o.bind HolderPc.leaving = none)
    (hd : DrainOk c.mem (a.drained d).rest d q)
    (hheld : ∀ e, (c.setDrain d q).drains e = .held ↔ o.bind HolderPc.drainId = some e)
    (hth : c.mutex.bind HolderPc.threadId = none)
    (hh : ∀ {p}, o = some p → HolderOk cfg { c.setDrain d q with mutex := o } a p) :
    Inv cfg { c.setDrain d q with mutex := o } a := by
  have hout : ∀ z, Out ((c.setDrain d q).ch a) (o.bind HolderPc.leaving) z ↔
      Out (c.ch a) c.leaving z := by
    intro z
    rw [hlv, hlv']
    simp only [Out, node_mem_ch_setDrain]
  refine ⟨hs, h.tail, h.last, fun {l} e => absurd e (hpk l), fun z => ?_, fun e => ?_, hheld,
    fun t => ?_, hh⟩
  · exact (h.own z).frame (fun ho => ⟨(hout z).2 ho, rfl, rfl⟩)
      (fun ho ho' => absurd ((hout z).1 ho') ho)
  · by_cases he : e = d
    · subst he
      simpa using hd
    · simpa [he] using h.drain e
  · exact (h.thread t).of_ne (by simp [hth])

/-- The lock is released, with the list closed if it is not empty. -/
theorem Inv.exUnlock (h : Inv cfg c a) {linked : Bool} (hp : c.mutex = some (.exUnlock d linked)) :
    Inv cfg (c.setDrain d (.running linked)).free a := by
  have hheld : c.drains d = .held := (h.held d).2 (by simp [hp, HolderPc.drainId])
  have hlk : c.lk d = false := h.lk_held hp rfl
  have hhole : c.hole = none := by simp [State.hole, hp, HolderPc.hole]
  have hs := h.shape
  rw [hhole] at hs
  have key : Shape c.mem ((c.setDrain d (.running linked)).ch a) (c.setDrain d (.running linked)).lk
      c.pend none → DrainOk c.mem (a.drained d).rest d (.running linked) →
      Inv cfg (c.setDrain d (.running linked)).free a := by
    refine fun hs hd => h.handover (o := none) hs (h.link_ne_one hp rfl)
      (by simp [State.leaving, hp, HolderPc.leaving]) rfl hd (fun e => ?_)
      (by simp [hp, HolderPc.threadId]) (by simp)
    by_cases he : e = d
    · simp [he]
    · simpa [he] using fun hh => he (h.eq_of_held hp rfl hh)
  cases linked with
  | false =>
    have hk := h.holder hp
    refine key ?_ fun _ => hk
    rw [ch_setDrain (by rw [hlk]; rfl), lk_setDrain (by rw [hlk]; rfl)]
    exact hs
  | true =>
    obtain ⟨⟨x, hx, hpx⟩, z, hz, hl⟩ := h.holder hp
    have hc : Closes (c.ch a) ((c.setDrain d (.running true)).ch a) d := by
      have hc : Closes ((c.setDrain d (c.drains d)).ch a) ((c.setDrain d (.running true)).ch a) d :=
        closes_setDrain hlk rfl
      rwa [setDrain_self] at hc
    have hch := ch_drain_of_lk (a := a) hlk
    refine key (hc.close hs (fun he => by simp [State.lk, he]) (z := z) (by simp [hch, hz])
      ((h.openOk hp rfl).last hz).1 hl fun {y} hy => ?_) (by simp [DrainOk])
    obtain rfl : Addr.node x = y := by simpa [hch, hx] using hy
    exact hpx

/-- The lock is back, and the list is open again. -/
theorem Inv.relock (h : Inv cfg c a) {q : HolderPc S} (hm : c.mutex = none)
    (hd : (∃ l, c.drains d = .relock l) ∨ ∃ l, c.drains d = .dropLock l)
    (hq : q = .exCheck d ∨ q = .dropLoop d) : Inv cfg ((c.setDrain d .held).hold q) a := by
  have hhole : c.hole = none := by simp [State.hole, hm]
  have hone : ∀ l, c.mem.link l ≠ .one := fun l e => by
    have := (h.parked e).1
    simp [State.parkedAt, hm] at this
  have hs := h.shape
  rw [hhole] at hs
  have hnh : ∀ e, c.drains e ≠ .held := fun e he => by
    have := (h.held e).1 he
    simp [hm] at this
  have hqv : q.hole = none ∧ q.leaving = none ∧ q.drainId = some d := by
    rcases hq with rfl | rfl <;> exact ⟨rfl, rfl, rfl⟩
  have key : Shape c.mem ((c.setDrain d .held).ch a) (c.setDrain d .held).lk c.pend none →
      OpenOk c.mem (a.drained d).rest d → Inv cfg ((c.setDrain d .held).hold q) a := by
    refine fun hs hd => h.handover (o := some q) ?_ hone (by simp [State.leaving, hm]) hqv.2.1 hd
      (fun e => ?_) (by simp [hm]) ?_
    · rw [Option.bind_some, hqv.1]
      exact hs
    · by_cases he : e = d
      · simp [he, hqv.2.2]
      · simp [he, hqv.2.2, hnh e, Ne.symm he]
    · rintro p ⟨⟩
      rcases hq with rfl | rfl <;> trivial
  cases hlk : c.lk d with
  | false =>
    obtain ⟨hr, -⟩ := h.ch_eq_nil (hnh d) hlk
    have hnull : c.mem.link (.next (.sentinel d)) = .null := by
      have := h.drain d
      rcases hd with ⟨l, hd⟩ | ⟨l, hd⟩ <;> rw [State.lk, hd] at hlk <;> rw [hd] at this <;>
        exact (this hlk).2
    refine key ?_ ⟨by simp [hr], fun _ => .inl hnull⟩
    rw [ch_setDrain (by rw [hlk]; rfl), lk_setDrain (by rw [hlk]; rfl)]
    exact hs
  | true =>
    have hc : Closes ((c.setDrain d .held).ch a) (c.ch a) d := by
      have hc : Closes ((c.setDrain d .held).ch a) ((c.setDrain d (c.drains d)).ch a) d :=
        closes_setDrain rfl hlk
      rwa [setDrain_self] at hc
    have hs' : Shape c.mem ((c.setDrain d .held).ch a) (c.setDrain d .held).lk c.pend none :=
      hc.reopen hs (fun he => by simp [State.lk, he]) hlk
    have hch : (c.setDrain d .held).ch a (.drain d) = (a.drained d).rest.map .node :=
      ch_drain_of_lk (by simp [State.lk, DrainPc.linked])
    have hpred := hc.predOf_sentinel hs'.nodup
    rw [hch, List.getLast?_map] at hpred
    have hmem : .sentinel d ∈ c.ch a (.drain d) := hc.mem_iff.2 (.inr ⟨rfl, rfl⟩)
    have hprev := h.prev_eq hnh hmem
    have hlink : c.mem.link (inLoc (c.ch a) (.drain d) (.sentinel d)) = .to (.sentinel d) := by
      rcases hs.link hmem with e | e | ⟨x, e, -⟩
      · exact e
      · simp at e
      · simp at e
    refine key hs' ⟨fun {z} hz => ?_, fun hr => .inr ?_⟩
    · rw [hz] at hpred
      rw [hprev, inPrev_of_predOf hpred]
      rw [inLoc_of_predOf hpred] at hlink
      exact ⟨rfl, .inr hlink⟩
    · rw [hr] at hpred
      simp only [inPrev, inLoc, hpred] at hprev hlink
      exact ⟨hlink, hprev⟩

/-- A `Drain` that holds the lock is dropped at the end. -/
theorem Inv.drainFree (h : Inv cfg c a) (hp : c.mutex = some (.drainFree d)) :
    Inv cfg (c.setDrain d .gone).free a := by
  have hr : (a.drained d).rest = [] := h.holder hp
  have hlk : c.lk d = false := h.lk_held hp rfl
  have hhole : c.hole = none := by simp [State.hole, hp, HolderPc.hole]
  have hs := h.shape
  rw [hhole] at hs
  refine h.handover (o := none) ?_ (h.link_ne_one hp rfl)
    (by simp [State.leaving, hp, HolderPc.leaving]) rfl hr (fun e => ?_)
    (by simp [hp, HolderPc.threadId]) (by simp)
  · rw [ch_setDrain (by rw [hlk]; rfl), lk_setDrain (by rw [hlk]; rfl)]
    exact hs
  · by_cases he : e = d
    · simp [he]
    · simpa [he] using fun hh => he (h.eq_of_held hp rfl hh)

/-- The comparison of the head with the sentinel. -/
theorem Inv.exCheck (h : Inv cfg c a) (hp : c.mutex = some (.exCheck d)) :
    Inv cfg (c.hold (if c.mem.link (.next (.sentinel d)) = .to (.sentinel d) then .exSetNull d
      else .drain d)) a := by
  rcases h.head_cases hp rfl rfl with ⟨x, hx, e⟩ | ⟨hr, e⟩
  · rw [if_neg (by simp [e])]
    exact h.hold hp (.inl rfl) rfl (.inl rfl) rfl rfl fun hr => by simp [hr] at hx
  · split
    · exact h.hold hp (.inl rfl) rfl (.inl rfl) rfl rfl hr
    · rename_i hne
      exact h.hold hp (.inl rfl) rfl (.inl rfl) rfl rfl fun _ => e.resolve_right fun e' => hne e'.1

/-- The head of a list whose nodes all removed themselves is cleared. -/
theorem Inv.exSetNull (h : Inv cfg c a) (hp : c.mutex = some (.exSetNull d)) :
    Inv cfg ((c.withMem (c.mem.setLink (.next (.sentinel d)) .null)).hold (.drain d)) a :=
  h.clearHead hp ⟨rfl, rfl, rfl, rfl, rfl⟩ ⟨rfl, rfl, rfl⟩ (h.holder hp) fun _ => by simp

/-- The loop test of `Drain::drain`. -/
theorem Inv.dropLoop (h : Inv cfg c a) (hp : c.mutex = some (.dropLoop d)) :
    c.mem.link (.next (.sentinel d)) = .null ∧ Inv cfg (c.hold (.drainFree d)) a ∨
      ∃ b, c.mem.link (.next (.sentinel d)) = .to b ∧ Inv cfg (c.hold (.ddPrev d b true)) a := by
  rcases h.head_cases hp rfl rfl with ⟨x, hx, e⟩ | ⟨hr, e | ⟨e, e'⟩⟩
  · refine .inr ⟨_, e, h.hold hp (.inl rfl) rfl (.inl rfl) rfl rfl (.inl ?_)⟩
    simp [ch_drain_of_lk (h.lk_held hp rfl), hx]
  · exact .inl ⟨e, h.hold hp (.inl rfl) rfl (.inl rfl) rfl rfl hr⟩
  · exact .inr ⟨_, e, h.hold hp (.inl rfl) rfl (.inl rfl) rfl rfl (.inr ⟨rfl, hr, rfl, e'⟩)⟩

/-! ## Without the lock -/

/-- A `Drain` without its lock moves on, its list as it is. -/
theorem Inv.unlockedMove (h : Inv cfg c a) {q : DrainPc} (hq : q.linked = c.lk d)
    (hn : c.drains d ≠ .none) (hh : c.drains d ≠ .held) (hh' : q ≠ .held)
    (hd : DrainOk c.mem (a.drained d).rest d q) : Inv cfg (c.setDrain d q) a := by
  have e : EnvStep c a (c.setDrain d q) a :=
    { mutex := rfl
      queue := ⟨[], by simp, by simp⟩
      nodup := (h.shape.nodup .queue).of_map
      drained := rfl
      lk := fun e => by rw [lk_setDrain hq]
      fresh := fun {e} he => by
        have : e ≠ d := by rintro rfl; exact hn he
        simpa [this] using he
      held := fun e => by
        by_cases he : e = d
        · subst he
          simp [hh, hh']
        · simp [he]
      pend := .inl
      locked := fun hx => hx
      prev := fun _ => .inl rfl
      link := fun _ => .inl rfl
      parkedNext := rfl }
  refine h.env e ?_ h.tail h.last (fun z => ?_) (fun e => ?_) h.thread
  · rw [ch_setDrain hq, lk_setDrain hq]
    exact h.shape
  · rw [ch_setDrain hq]
    exact h.own z
  · by_cases he : e = d
    · subst he
      simpa using hd
    · simpa [he] using h.drain e

/-- The unlocked load of `Drop for Drain` sees null: the `Drain` has no nodes, or the drop is torn. -/
theorem Inv.looseDrop (h : Inv cfg c a) {l : Bool} (hd : c.drains d = .loose l)
    (hl : c.mem.link (.next (.sentinel d)) = .null) :
    TornDrop c d ∨ c.lk d = false ∧ (a.drained d).rest = [] := by
  have hnh : c.drains d ≠ .held := by simp [hd]
  cases hlk : c.lk d with
  | false => exact .inr ⟨rfl, (h.ch_eq_nil hnh hlk).1⟩
  | true =>
    left
    -- the list is not empty, so its first element is the hole
    obtain ⟨y, hy⟩ : ∃ y, (c.ch a (.drain d)).head? = some y := by
      rw [State.lk] at hlk
      simp [State.ch, chain, hlk, List.head?_append]
    have hm := List.mem_of_head? hy
    have hloc : inLoc (c.ch a) (.drain d) y = .next (.sentinel d) :=
      inLoc_of_head (h.shape.nodup _) hy
    have hprev : inPrev (c.ch a) (.drain d) y = .to (.sentinel d) :=
      inPrev_of_head (h.shape.nodup _) hy
    have hhole : c.hole = some y := by
      rcases h.shape.link hm with e | e | ⟨x, -, hx⟩
      · simp [hloc, hl] at e
      · exact e
      · rw [hloc] at hx
        exact absurd rfl (h.shape.pend_loc hx)
    obtain ⟨p, hp, hh⟩ := Option.bind_eq_some_iff.1 hhole
    have hr : ∀ {r : Removal S} {i}, Removing c a r i → Addr.node r.node = y →
        r.prev = .to (.sentinel d) := by
      rintro r i hr rfl
      obtain rfl := h.shape.disj hr.mem hm
      exact hr.prev.trans hprev
    refine ⟨by rw [hd]; rfl, hl, ?_⟩
    rw [hp, Option.bind_some]
    have hk := h.holder hp
    cases p <;> simp only [HolderPc.hole, reduceCtorEq, Option.some.injEq] at hh
    case rmCas r =>
      obtain ⟨⟨i, hr'⟩, -⟩ := hk
      exact congrArg some (hr hr' hh)
    case rmSetPrev r b =>
      obtain ⟨⟨i, hr', -⟩, -⟩ := hk
      exact congrArg some (hr hr' hh)
    case rmSetNext r b =>
      obtain ⟨⟨i, hb, hr'⟩, -⟩ := hk
      subst hh
      obtain rfl := h.shape.disj hb hm
      exact congrArg some (hr'.trans hprev)
    case drainSwap e b s =>
      subst hh
      exact absurd (h.shape.disj (List.mem_of_head? hk.1) hm) (by simp)
    case get k g r =>
      cases r <;> simp only [reduceCtorEq, Option.some.injEq] at hh
      obtain ⟨⟨i, z, -, -, -, hr', -⟩, -⟩ := hk
      exact congrArg some (hr hr' hh)

/-- A step of a `Drain` without its lock. -/
theorem Inv.drainStep (h : Inv cfg c a) {k : DrainCall} {c' : State S T} {e : Event S}
    (hk : k = .drop → ¬ TornDrop c d) (hs : drainStep c d k = some (c', e)) :
    a.Allows e ∧ Inv cfg c' (a.apply e) := by
  have hd := h.drain d
  cases hq : c.drains d <;> cases k <;> simp only [Aiq.drainStep, hq, reduceCtorEq] at hs <;>
    rw [hq] at hd
  case running.return l =>
    obtain ⟨rfl, rfl⟩ := hs
    exact ⟨trivial, h.unlockedMove (by rw [State.lk, hq]; rfl) (by simp [hq]) (by simp [hq]) (by simp) hd⟩
  case running.unwind l =>
    obtain ⟨rfl, rfl⟩ := hs
    exact ⟨trivial, h.unlockedMove (by rw [State.lk, hq]; rfl) (by simp [hq]) (by simp [hq]) (by simp) hd⟩
  case relock.lock l =>
    cases hm : c.mutex <;> simp only [hm, reduceCtorEq, Option.some.injEq, Prod.mk.injEq] at hs
    obtain ⟨rfl, rfl⟩ := hs
    exact ⟨trivial, h.relock hm (.inl ⟨l, hq⟩) (.inl rfl)⟩
  case loose.drop l =>
    split at hs <;> rename_i hl <;> obtain ⟨rfl, rfl⟩ := hs
    · rcases h.looseDrop hq hl with ht | ⟨hlk, hr⟩
      · exact absurd ht (hk rfl)
      · exact ⟨hr, h.unlockedMove (by rw [hlk]; rfl) (by simp [hq]) (by simp [hq]) (by simp) hr⟩
    · exact ⟨trivial, h.unlockedMove (by rw [State.lk, hq]; rfl) (by simp [hq]) (by simp [hq]) (by simp)
        hd⟩
  case dropLock.lock l =>
    cases hm : c.mutex <;> simp only [hm, reduceCtorEq, Option.some.injEq, Prod.mk.injEq] at hs
    obtain ⟨rfl, rfl⟩ := hs
    exact ⟨trivial, h.relock hm (.inr ⟨l, hq⟩) (.inr rfl)⟩

end Aiq
