import Aiq.Inv.Owner

/-!
# `get_next`

A lock holder calls `get_next` on the link that leads to an element of a list. The link holds that
element, or its enqueuer has yet to write it (`Inv.awaited_link`); so what `get_next` returns is the
element (`Inv.getReturn`), in each of the parking protocols.
-/

namespace Aiq

variable {S T : Type} {cfg : Config} {c : State S T} {a : Abs S} {l : Loc} {g : GetPc}
  {k : GetCont S} {i : ListId} {y : Addr}

/-- The list of a `Drain` that holds the lock is not circular. -/
theorem Inv.lk_held (h : Inv cfg c a) {p : HolderPc S} {d : DrainId} (hp : c.mutex = some p)
    (hd : p.drainId = some d) : c.lk d = false := by
  have : c.drains d = .held := (h.held d).2 (by simp [hp, hd])
  rw [State.lk, this]
  rfl

theorem ch_drain_of_lk {d : DrainId} (hd : c.lk d = false) :
    c.ch a (.drain d) = (a.drained d).rest.map .node := by
  rw [State.lk] at hd
  simp [State.ch, chain, hd]

/-- The element awaited is never the one whose link the holder has cleared. -/
theorem Inv.awaited_ne_hole (h : Inv cfg c a) (hm : c.mutex = some (.get l g k))
    (hk : Awaited c a k i y) : c.hole ≠ some y := by
  rw [State.hole, hm, Option.bind_some]
  cases k with
  | relink r =>
    obtain ⟨hp, -⟩ := hk
    intro e
    obtain rfl : Addr.node r.node = y := by simpa [HolderPc.hole] using e
    exact List.predOf_ne_self (h.shape.nodup i) _ hp
  | _ => simp [HolderPc.hole]

/-- The link that `get_next` reads holds the element awaited, or the enqueuer of that element is
between its tail CAS and its link write. -/
theorem Inv.awaited_link (h : Inv cfg c a) (hm : c.mutex = some (.get l g k)) (hy : y ∈ c.ch a i)
    (hl : inLoc (c.ch a) i y = l) (hk : Awaited c a k i y) :
    c.mem.link l = .to y ∧ Written c y ∨
      (c.mem.link l = .null ∨ c.mem.link l = .one) ∧ ∃ x, y = .node x ∧ c.pend x = some l := by
  subst hl
  rcases h.shape.link hy with e | e | ⟨x, rfl, hx⟩
  · refine .inl ⟨e, ?_⟩
    rintro x rfl
    exact h.shape.pend_eq_none_of_link hy e
  · exact absurd e (h.awaited_ne_hole hm hk)
  · exact .inr ⟨h.shape.pend_link hx, x, rfl, hx⟩

/-- Where the caller of `get_next` goes on with the element. -/
theorem Inv.resume_ok (h : Inv cfg c a) (hm : c.mutex = some (.get l g k)) (hk : Awaited c a k i y)
    (hw : Written c y) :
    a.Allows (k.event (.to y)) ∧ a.apply (k.event (.to y)) = a ∧
      HolderOk cfg c a (k.resume (.to y)) := by
  cases k with
  | dequeue =>
    obtain ⟨rfl, hh⟩ := hk
    obtain ⟨x, hx, rfl⟩ : ∃ x, a.queue.head? = some x ∧ y = .node x := by
      simpa [State.ch, chain, eq_comm] using hh
    exact ⟨hx, rfl, hx, hw x rfl⟩
  | waitEnqueued r =>
    obtain ⟨rfl, hr⟩ := hk
    exact ⟨trivial, rfl, ⟨i, hr⟩, hw _ rfl⟩
  | relink r =>
    obtain ⟨hp, hr, hn⟩ := hk
    exact ⟨trivial, rfl, ⟨i, hr, hp⟩, hn, hw, (h.holder hm).2.2 r rfl⟩
  | drainNew d s =>
    obtain ⟨rfl, hh, hd⟩ := hk
    exact ⟨trivial, rfl, hh, hw, hd⟩
  | drained d b flush =>
    obtain ⟨rfl, hh, hp⟩ := hk
    have hlk : c.lk d = false := h.lk_held hm rfl
    have hn := h.shape.nodup (.drain d)
    rw [ch_drain_of_lk hlk] at hh hp hn
    refine ⟨trivial, rfl, .inl ?_⟩
    cases hr : (a.drained d).rest with
    | nil => simp [hr] at hh
    | cons x l =>
      obtain rfl : Addr.node x = b := by simpa [hr] using hh
      refine ⟨x, l, rfl, rfl, ?_⟩
      -- the element behind the first is the second
      cases l with
      | nil => simp [hr] at hp
      | cons z l =>
        obtain rfl : y = .node z := by
          rw [hr] at hp hn
          refine List.predOf_inj hn (List.mem_of_predOf hp) (by simp) (hp.trans ?_)
          simp [List.predOf_cons_cons]
        refine ⟨rfl, fun z' hz => ?_⟩
        obtain rfl : z = z' := by simpa using hz
        exact hw _ rfl

theorem parkedAt_get {l' : Loc} (h : (HolderPc.get l g k).parkedAt = some l') :
    l = l' ∧ (g = .park ∨ g = .reload) := by
  cases g with
  | park => exact ⟨Option.some.inj h, .inl rfl⟩
  | reload => exact ⟨Option.some.inj h, .inr rfl⟩
  | _ => cases h

/-- `get_next` returns the element it was called for. -/
theorem Inv.getReturn (h : Inv cfg c a) {v : Ptr} (hm : c.mutex = some (.get l g k))
    (hv : c.mem.link l = v) (hn : v ≠ .null) (ho : v ≠ .one) :
    a.Allows (k.event v) ∧ Inv cfg (c.hold (k.resume v)) (a.apply (k.event v)) := by
  obtain ⟨⟨i, y, hy, hl, hk⟩, -⟩ := h.holder hm
  obtain ⟨rfl, hw⟩ : v = .to y ∧ Written c y := by
    rcases h.awaited_link hm hy hl hk with ⟨e, hw⟩ | ⟨e | e, -⟩
    · exact ⟨hv.symm.trans e, hw⟩
    · exact absurd (hv.symm.trans e) hn
    · exact absurd (hv.symm.trans e) ho
  obtain ⟨hev, hap, hok⟩ := h.resume_ok hm hk hw
  refine ⟨hev, ?_⟩
  rw [hap]
  have hpk : ∀ l', (HolderPc.get l g k).parkedAt = some l' → c.mem.link l' ≠ .one := by
    intro l' hl'
    obtain ⟨rfl, -⟩ := parkedAt_get hl'
    rw [hv]
    exact ho
  cases k with
  | dequeue =>
    obtain ⟨rfl, hh⟩ := hk
    obtain ⟨x, -, rfl⟩ : ∃ x, a.queue.head? = some x ∧ y = .node x := by
      simpa [State.ch, chain, eq_comm] using hh
    exact h.hold hm (.inl rfl) rfl (.inr (.inr hpk)) rfl rfl hok
  | waitEnqueued r => exact h.hold hm (.inl rfl) rfl (.inr (.inr hpk)) rfl rfl hok
  | relink r => exact h.hold hm (.inr rfl) rfl (.inr (.inr hpk)) rfl rfl hok
  | drainNew d s => exact h.hold hm (.inl rfl) rfl (.inr (.inr hpk)) rfl rfl hok
  | drained d b flush => exact h.hold hm (.inl rfl) rfl (.inr (.inr hpk)) rfl rfl hok

/-- `get_next` goes on to another instruction. -/
theorem Inv.getGoto (h : Inv cfg c a) {m : Mem S T} {g' : GetPc} (hm : c.mutex = some (.get l g k))
    (hmem : m.tail = c.mem.tail ∧ m.prev = c.mem.prev ∧ m.link = c.mem.link)
    (hg : GetPcOk cfg (c.withMem m) l g')
    (hpk : (g' = .park ∨ g' = .reload) ∨ ¬ (g = .park ∨ g = .reload) ∨ c.mem.link l ≠ .one) :
    Inv cfg ((c.withMem m).hold (.get l g' k)) a := by
  obtain ⟨⟨i, y, hy, hl, hk⟩, -, hs⟩ := h.holder hm
  refine h.holdMem hm hmem (.inr (by cases k <;> rfl)) rfl ?_ (by cases k <;> rfl) rfl
    ⟨⟨i, y, hy, hl, hk.congr rfl rfl⟩, by cases g' <;> exact hg, ?_⟩
  swap
  · intro r hr
    show (m.link r.prevNext).NoSentinel
    rw [hmem.2.2]
    exact hs r hr
  cases e : (HolderPc.get l g k).parkedAt with
  | none => exact .inl rfl
  | some l' =>
    obtain ⟨rfl, hg'⟩ := parkedAt_get e
    rcases hpk with hpk | hpk | hpk
    · refine .inr (.inl ?_)
      rcases hpk with rfl | rfl <;> rfl
    · exact absurd hg' hpk
    · refine .inr (.inr ?_)
      rintro _ ⟨⟩
      exact hpk

/-- The link behind the last node of a `Drain` that holds the lock leads to no element. -/
theorem Inv.inLoc_ne_held (h : Inv cfg c a) {d : DrainId} {z : NodeId} (hd : c.drains d = .held)
    (hz : (a.drained d).rest.getLast? = some z) : inLoc (c.ch a) i y ≠ .next (.node z) := by
  have hlk : c.lk d = false := by rw [State.lk, hd]; rfl
  exact h.shape.inLoc_ne_next_last (j := .drain d) (by simp [ch_drain_of_lk hlk, hz])

/-- The `PARKED` marker is stored in the link. -/
theorem Inv.getPark (h : Inv cfg c a) (hm : c.mutex = some (.get l .cas k))
    (hn : c.mem.link l = .null) :
    Inv cfg ((c.withMem (c.mem.setLink l Aiq.parked)).hold (.get l .park k)) a := by
  obtain ⟨⟨i, y, hy, rfl, hk⟩, hv, hs⟩ := h.holder hm
  obtain ⟨x, rfl, hx⟩ : ∃ x, y = .node x ∧ c.pend x = some (inLoc (c.ch a) i y) := by
    rcases h.awaited_link hm hy rfl hk with ⟨e, -⟩ | ⟨-, hx⟩
    · simp [hn] at e
    · exact hx
  have hother : ∀ {l'}, l' ≠ inLoc (c.ch a) i (.node x) →
      (c.mem.setLink (inLoc (c.ch a) i (.node x)) Aiq.parked).link l' = c.mem.link l' :=
    fun {l'} e => by simp [Mem.link_setLink, e]
  refine h.write hm (by cases k <;> rfl) rfl ?_ h.tail ?_ ?_ ?_ (fun z ho ho' => absurd ho' ho) ?_ ?_
  · have hhole : (HolderPc.get (inLoc (c.ch a) i (.node x)) .park k).hole = c.hole := by
      rw [State.hole, hm]
      cases k <;> rfl
    rw [hhole]
    refine h.shape.setLink (fun {j z} hz e => ?_) (fun _ _ e => e) (fun _ => .inr rfl)
    obtain ⟨-, rfl⟩ := h.shape.inLoc_inj hz hy e
    exact .inr (.inr ⟨x, rfl, hx⟩)
  · rw [hother (h.inLoc_ne_last hy).symm]
    exact h.last
  · intro l' hl'
    by_cases e : l' = inLoc (c.ch a) i (.node x)
    · exact ⟨e ▸ rfl, hv⟩
    · rw [hother e] at hl'
      exact absurd hl' (h.link_ne_one hm rfl l')
  · exact fun z ho => ⟨ho, rfl, hother (inLoc_ne_next ho.1).symm⟩
  · intro d
    exact (h.drain d).frame rfl (hother (h.shape.pend_loc hx).symm)
      fun z hd hz => hother (h.inLoc_ne_held hd hz).symm
  · refine ⟨⟨i, _, hy, rfl, hk.congr rfl rfl⟩, ⟨fun _ => ?_, fun hv' => ?_⟩, fun r hr => ?_⟩
    · show (c.mem.setLink _ Aiq.parked).link _ ≠ .null
      simp [Aiq.parked]
    · exact absurd (hv'.symm.trans hv) (by simp)
    · show ((c.mem.setLink _ Aiq.parked).link r.prevNext).NoSentinel
      rw [Mem.link_setLink]
      split
      · exact fun d e => by simp [Aiq.parked] at e
      · exact hs r hr

theorem getPcOk_afterSpin (hv : cfg.variant ≠ .neverBlocks) (n : ℕ) :
    GetPcOk cfg c l (cfg.afterSpin n) := by
  cases n with
  | zero =>
    unfold Config.afterSpin
    cases hc : cfg.variant with
    | neverBlocks => exact absurd hc hv
    | x86 => exact hc
    | parkedNext => exact hc
  | succ n => exact hv

theorem getPcOk_waitForNext : GetPcOk cfg c l cfg.waitForNext := by
  unfold Config.waitForNext
  split
  · rename_i hv
    exact ⟨by simp [hv], by simp [hv]⟩
  · rename_i hv
    exact getPcOk_afterSpin hv _

/-- One instruction of `get_next`. -/
theorem Inv.getStep (h : Inv cfg c a) {c' : State S T} {e : Event S}
    (hm : c.mutex = some (.get l g k)) (hs : getStep cfg c l g k = some (c', e)) :
    a.Allows e ∧ Inv cfg c' (a.apply e) := by
  have hg := (h.holder hm).2.1
  have hone : g ≠ .park → g ≠ .reload → c.mem.link l ≠ .one := fun h₁ h₂ =>
    h.link_ne_one hm (by cases g <;> first | rfl | contradiction) l
  have hone' : cfg.variant ≠ .x86 → c.mem.link l ≠ .one := fun hv e => hv (h.parked e).2
  cases g with
  | load =>
    simp only [Aiq.getStep] at hs
    split at hs <;> obtain ⟨rfl, rfl⟩ := hs
    · exact ⟨trivial, h.getGoto hm ⟨rfl, rfl, rfl⟩ getPcOk_waitForNext (.inr (.inl (by simp)))⟩
    · rename_i hn
      exact h.getReturn hm rfl hn (hone (by simp) (by simp))
  | spin n =>
    simp only [Aiq.getStep] at hs
    split at hs <;> obtain ⟨rfl, rfl⟩ := hs
    · exact ⟨trivial, h.getGoto hm ⟨rfl, rfl, rfl⟩ (getPcOk_afterSpin hg n)
        (.inr (.inl (by simp)))⟩
    · rename_i hn
      exact h.getReturn hm rfl hn (hone (by simp) (by simp))
  | cas =>
    simp only [Aiq.getStep] at hs
    split at hs <;> obtain ⟨rfl, rfl⟩ := hs
    · rename_i hn
      exact ⟨trivial, h.getPark hm hn⟩
    · rename_i hn
      exact h.getReturn hm rfl hn (hone (by simp) (by simp))
  | setParked =>
    obtain ⟨rfl, rfl⟩ := hs
    refine ⟨trivial, h.getGoto hm ⟨rfl, rfl, rfl⟩ ⟨fun hv => ?_, fun _ => rfl⟩ (.inl (.inr rfl))⟩
    exact absurd (hv.symm.trans hg) (by simp)
  | park =>
    simp only [Aiq.getStep] at hs
    split at hs
    · obtain ⟨rfl, rfl⟩ := hs
      exact ⟨trivial, h.getGoto hm ⟨rfl, rfl, rfl⟩ hg (.inl (.inr rfl))⟩
    · split at hs
      · obtain ⟨rfl, rfl⟩ := hs
        exact ⟨trivial, h.getGoto hm ⟨rfl, rfl, rfl⟩ hg (.inl (.inr rfl))⟩
      · simp at hs
  | reload =>
    simp only [Aiq.getStep] at hs
    cases hv : cfg.variant <;> simp only [hv] at hs <;> split at hs <;> obtain ⟨rfl, rfl⟩ := hs <;>
      rename_i hn
    · exact ⟨trivial, h.getGoto hm ⟨rfl, rfl, rfl⟩ hg (.inl (.inl rfl))⟩
    · exact h.getReturn hm rfl hn (hone' (by simp [hv]))
    · exact ⟨trivial, h.getGoto hm ⟨rfl, rfl, rfl⟩ hg (.inl (.inl rfl))⟩
    · exact h.getReturn hm rfl (hg.1 hv) hn
    · exact ⟨trivial, h.getGoto hm ⟨rfl, rfl, rfl⟩ hg (.inl (.inl rfl))⟩
    · exact ⟨trivial, h.getGoto hm ⟨rfl, rfl, rfl⟩ ⟨hv, rfl, hn⟩
        (.inr (.inr (hone' (by simp [hv]))))⟩
  | clear v =>
    obtain ⟨rfl, rfl⟩ := hs
    obtain ⟨hv, hl, hn⟩ := hg
    have h' : Inv cfg ((c.withMem (c.mem.setParkedNext none)).hold (.get l (.clear v) k)) a :=
      h.getGoto hm ⟨rfl, rfl, rfl⟩ ⟨hv, hl, hn⟩ (.inr (.inl (by simp)))
    exact h'.getReturn rfl hl hn (hl ▸ hone (by simp) (by simp))

end Aiq
