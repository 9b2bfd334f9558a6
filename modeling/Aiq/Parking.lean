import Aiq.Reclamation

/-!
# `get_next` is answered

The holder of the mutex waits in `get_next` for a link that an enqueuer has yet to write. Such an
enqueuer exists whenever the link is not written (`Inv.awaits`), and it is the only one. Once it has
written the link, the holder is not left sleeping: it has a token, or the enqueuer has yet to call
`unpark` (`ParkOk`). In the `x86_64` protocol the enqueuer knows that it has to from the marker that
its swap returns, in the other one from `parked_next`, which it loads after its write. What
`get_next` returns is the node of that enqueuer (`Exec.brings`).
-/

namespace Aiq

variable {S T : Type} {cfg : Config} {c c' : State S T} {a : Abs S} {x : NodeId} {e : Event S}
  {l : Loc} {g : GetPc} {k : GetCont S}

/-! ## The link and its enqueuer -/

/-- The enqueuer of `x` has done its tail CAS and has yet to write `l`. -/
def Pending (c : State S T) (x : NodeId) (l : Loc) : Prop := ∃ p, c.own x = .link p ∧ prevLoc p = l

theorem pending_iff : Pending c x l ↔ c.pend x = some l := by
  refine ⟨?_, own_of_pend⟩
  rintro ⟨p, ho, rfl⟩
  simp [State.pend, ho, OwnPc.pend]

/-- The link that `get_next` reads is written, or exactly one enqueuer has yet to write it. -/
theorem Inv.awaits (h : Inv cfg c a) (hm : c.mutex = some (.get l g k)) :
    (∃ b, c.mem.link l = .to b) ∨
      (c.mem.link l = .null ∨ c.mem.link l = Aiq.parked) ∧ ∃! x, Pending c x l := by
  obtain ⟨⟨i, y, hy, hl, hk⟩, -⟩ := h.holder hm
  rcases h.awaited_link hm hy hl hk with ⟨e, -⟩ | ⟨e, x, rfl, hx⟩
  · exact .inl ⟨y, e⟩
  · refine .inr ⟨e, x, pending_iff.2 hx, fun z hz => ?_⟩
    exact h.shape.pend_inj (pending_iff.1 hz) hx

/-- The value that `get_next(l)` returns at the instruction `g`, if it returns there. -/
def GetPc.returns (cfg : Config) (m : Mem S T) (l : Loc) : GetPc → Option Ptr
  | .load | .spin _ | .cas => if m.link l = .null then none else some (m.link l)
  | .setParked | .park => none
  | .reload =>
    match cfg.variant with
    | .neverBlocks => if m.link l = .null then none else some (m.link l)
    | .x86 => if m.link l = parked then none else some (m.link l)
    | .parkedNext => none
  | .clear v => some v

/-- The caller of `get_next` goes on with the value returned. -/
theorem getStep_returns (hs : getStep cfg c l g k = some (c', e)) :
    (∃ v, g.returns cfg c.mem l = some v ∧ c'.mutex = some (k.resume v)) ∨
      g.returns cfg c.mem l = none ∧ ∃ g', c'.mutex = some (.get l g' k) := by
  unfold getStep at hs
  unfold GetPc.returns
  grind [State.mutex_hold, State.mutex_withMem]

/-- What is returned is in the link, and is an address. -/
theorem Inv.returns_eq (h : Inv cfg c a) (hm : c.mutex = some (.get l g k)) {v : Ptr}
    (hr : g.returns cfg c.mem l = some v) : c.mem.link l = v ∧ ∃ b, v = .to b := by
  obtain ⟨-, hg, -⟩ := h.holder hm
  have hl : c.mem.link l = v ∧ v ≠ .null := by
    unfold GetPc.returns at hr
    unfold GetPcOk at hg
    grind
  refine ⟨hl.1, ?_⟩
  rcases h.awaits hm with ⟨b, hb⟩ | ⟨e | e, -⟩
  · exact ⟨b, hl.1.symm.trans hb⟩
  · exact absurd (hl.1.symm.trans e) hl.2
  -- the marker is only there in the two states of `wait_for_next` that do not return it
  · obtain ⟨hp, hx⟩ := h.parked e
    have hg' : g = .park ∨ g = .reload := by
      rw [State.parkedAt, hm] at hp
      cases g <;> simp [HolderPc.parkedAt] at hp ⊢
    rcases hg' with rfl | rfl <;> simp [GetPc.returns, hx, e] at hr

/-! ## No lost wakeup -/

/-- The enqueuer of `x` has written `l` and has yet to call `unpark`. -/
def Signals (cfg : Config) (c : State S T) (l : Loc) (x : NodeId) : Prop :=
  c.own x = .unpark ∨ c.own x = .parkedLoad l ∧ cfg.variant = .parkedNext

/-- If the link is written, the holder parks with a token or one is to come. -/
def Wakes (cfg : Config) (c : State S T) (l : Loc) : Prop :=
  ∀ b, c.mem.link l = .to b → ∃ x, b = .node x ∧ (c.mem.token = true ∨ Signals cfg c l x)

/-- Whoever parks is woken. -/
def ParkOk (cfg : Config) (c : State S T) : Prop :=
  ∀ l k, c.mutex = some (.get l .park k) → cfg.variant ≠ .neverBlocks → Wakes cfg c l

/-- The holder parks after it has seen that the link is not written. -/
theorem holderStep_park [DecidableEq S] [QueueState S] {p : HolderPc S}
    (hs : holderStep cfg c p = some (c', e)) (hm : c'.mutex = some (.get l .park k)) :
    cfg.variant = .neverBlocks ∨ ∀ b, c'.mem.link l ≠ .to b := by
  unfold holderStep getStep GetCont.resume Removal.return Release.apply Config.waitForNext
    Config.afterSpin at hs
  repeat' split at hs
  all_goals grind [State.mutex_hold, State.mutex_setOwn, State.mutex_free, State.mutex_withMem,
    State.mutex_setDrain, State.mem_hold, State.mem_withMem, Mem.link_setLink_self, parked]

theorem holderCall_park [QueueState S] {p : HolderPc S} {q : HolderCall S T}
    (hp : c.mutex = some p) (hs : holderCall c p q = some (c', e)) : c'.mutex ≠ some (.get l .park k) := by
  unfold holderCall guardCall drainLockedCall at hs
  repeat' split at hs
  all_goals grind [State.mutex_hold, State.mutex_setOwn, State.mutex_free, State.mutex_withMem,
    State.mutex_setDrain]

/-- While the holder parks, the others do not touch its control state. -/
theorem mutex_of_get [DecidableEq S] [QueueState S] {q : Act S T} (hq : q.isHolder = false)
    (hs : step cfg c q = some (c', e)) (hm : c'.mutex = some (.get l g k)) : c.mutex = some (.get l g k) := by
  rcases step_mutex hq hs with h | ⟨-, p, hp, he⟩
  · exact h ▸ hm
  · obtain rfl : p = .get l g k := Option.some.inj (hp.symm.trans hm)
    simp [HolderPc.isEntry] at he

/-- A call of `unpark` that is to come is made, or still to come. -/
theorem Signals.step [DecidableEq S] [QueueState S] {q : Act S T} (hq : q.isHolder = false)
    (hs : step cfg c q = some (c', e)) (hn : cfg.variant = .parkedNext → c.mem.parkedNext = some l)
    (h : Signals cfg c l x) :
    c'.mem.token = true ∨ Signals cfg c' l x := by
  rcases step_own hq hs x with ho | ⟨w, rfl⟩ | ⟨r, rfl⟩
  · right
    rwa [Signals, ho]
  · simp only [Aiq.step] at hs
    rcases h with h | ⟨h, hv⟩
    · simp only [ownerStep, h, Option.some.injEq, Prod.mk.injEq] at hs
      obtain ⟨rfl, rfl⟩ := hs
      exact .inl rfl
    · simp only [ownerStep, h, hn hv, if_true, Option.some.injEq, Prod.mk.injEq] at hs
      obtain ⟨rfl, rfl⟩ := hs
      exact .inr (.inl (by simp))
  · simp only [Aiq.step] at hs
    rcases h with h | ⟨h, -⟩ <;> simp [ownerCall, h] at hs

/-- The enqueuer that writes the link of a parked holder calls `unpark`. -/
theorem signals_linkStep [DecidableEq S] {q : Option Addr} {w : Bool}
    (hs : ownerStep cfg c x w = some (c', e)) (ho : c.own x = .link q) (hv : cfg.variant ≠ .neverBlocks)
    (hx : cfg.variant = .x86 → c.mem.link (prevLoc q) ≠ .null) :
    Signals cfg c' (prevLoc q) x := by
  simp only [ownerStep, ho, Option.some.injEq, Prod.mk.injEq] at hs
  obtain ⟨rfl, rfl⟩ := hs
  unfold Signals linkStep
  cases hv' : cfg.variant with
  | neverBlocks => exact absurd hv' hv
  | x86 => simp [hx hv']
  | parkedNext => simp

theorem ParkOk.step [DecidableEq S] [QueueState S] {q : Act S T} (h : Inv cfg c a) (hok : ParkOk cfg c)
    (hs : step cfg c q = some (c', e)) : ParkOk cfg c' := by
  intro l k hm hv b hb
  by_cases hq : q.isHolder = true
  · cases q <;> simp only [Act.isHolder, reduceCtorEq] at hq <;> simp only [Aiq.step] at hs
    case holder =>
      split at hs
      · simp at hs
      · exact absurd hb ((holderStep_park hs hm).resolve_left hv b)
    case holderCall r =>
      split at hs
      · simp at hs
      · exact absurd hm (holderCall_park ‹_› hs)
  · have hq' : q.isHolder = false := by simpa using hq
    have hm' := mutex_of_get hq' hs hm
    have hg : (cfg.variant = .x86 → c.mem.link l ≠ .null) ∧
        (cfg.variant = .parkedNext → c.mem.parkedNext = some l) := (h.holder hm').2.1
    rcases step_link hq' hs l with e | ⟨x, w, p, rfl, ho, rfl, e⟩ | ⟨x, -, -, e⟩
    · obtain ⟨x, rfl, hx⟩ := hok l k hm' hv b (e ▸ hb)
      refine ⟨x, rfl, ?_⟩
      rcases hx with hx | hx
      · exact .inl ((step_token hq' hs).1 hx)
      · exact hx.step hq' hs hg.2
    · exact ⟨x, Ptr.to.inj (hb.symm.trans e), .inr (signals_linkStep hs ho hv hg.1)⟩
    · rw [e] at hb
      simp at hb

/-- The holder is blocked in `get_next` only if it parks without a token. -/
theorem blocked_iff [DecidableEq S] [QueueState S] (hm : c.mutex = some (.get l g k)) :
    step cfg c .holder = none ↔ g = .park ∧ cfg.variant ≠ .neverBlocks ∧ c.mem.token = false := by
  simp only [step, hm, holderStep]
  unfold getStep
  grind

/-! ## The node that is returned -/

/-- The link will hold `b`, or holds it. -/
def Brings (c : State S T) (l : Loc) (b : Addr) : Prop :=
  c.mem.link l = .to b ∨ ∃ x, b = .node x ∧ Pending c x l

theorem getStep_link (hs : getStep cfg c l g k = some (c', e)) :
    (c'.mem.link l = c.mem.link l ∨ c.mem.link l = .null) ∧ c'.own = c.own := by
  unfold getStep at hs
  grind [State.mem_hold, State.mem_withMem, State.own_hold, State.own_withMem,
    Mem.link_setParkedNext, Mem.link_setToken]

/-- While the holder waits for a link, only its enqueuer writes it. -/
theorem Inv.brings_step [DecidableEq S] [QueueState S] (h : Inv cfg c a) {q : Act S T} {b : Addr}
    (hm : c.mutex = some (.get l g k)) (hs : Aiq.step cfg c q = some (c', e)) (hb : Brings c l b) :
    Brings c' l b := by
  by_cases hq : q.isHolder = true
  · cases q <;> simp only [Act.isHolder, reduceCtorEq] at hq <;>
      simp only [Aiq.step, hm, Aiq.holderStep, Aiq.holderCall, reduceCtorEq] at hs
    obtain ⟨hl, ho⟩ := getStep_link hs
    rcases hb with hb | ⟨x, rfl, hx⟩
    · exact .inl ((hl.resolve_right (by simp [hb])).trans hb)
    · exact .inr ⟨x, rfl, by rwa [Pending, ho]⟩
  · have hq' : q.isHolder = false := by simpa using hq
    rcases step_link hq' hs l with e | ⟨z, w, p, rfl, ho, hp, e⟩ | ⟨z, rfl, ho, -⟩
    · rcases hb with hb | ⟨x, rfl, p, ho, hp⟩
      · exact .inl (e.trans hb)
      · rcases step_own hq' hs x with ho' | ⟨w, rfl⟩ | ⟨r, rfl⟩
        · exact .inr ⟨x, rfl, p, ho'.trans ho, hp⟩
        · simp only [Aiq.step, Aiq.ownerStep, ho, Option.some.injEq, Prod.mk.injEq] at hs
          obtain ⟨rfl, rfl⟩ := hs
          exact .inl (by simp [hp])
        · simp [Aiq.step, Aiq.ownerCall, ho] at hs
    · have hz : c.pend z = some l := pending_iff.1 ⟨p, ho, hp⟩
      rcases hb with hb | ⟨x, rfl, hx⟩
      · rcases h.shape.pend_link hz with e' | e' <;> simp [hb] at e'
      · obtain rfl := h.shape.pend_inj (pending_iff.1 hx) hz
        exact .inl e
    -- a node that is reset or created is in no list, so its link is not waited for
    · obtain ⟨⟨i, y, -, hl, -⟩, -⟩ := h.holder hm
      have hz := h.own z
      have hout : Out (c.ch a) c.leaving z := by
        rcases ho with ho | ho <;> rw [ho] at hz <;> exact hz.1
      exact absurd hl (inLoc_ne_next hout.1)

/-! ## The claim on whole executions -/

variable [DecidableEq S] [QueueState S] {s : S} {v : T} {ts : List (Transition S T)}

theorem Exec.parkOk (h : Exec cfg (.init s v) ts c) (hc : ∀ t ∈ ts, t.Clean) : ParkOk cfg c :=
  Exec.induct (P := fun _ c => ParkOk cfg c) h hc (Inv.init cfg s v) (by simp [ParkOk, State.init])
    fun _ _ _ hs hok => ParkOk.step hs.inv hok hs.step

/-- The link that the holder waits for holds in the end what it was to hold at the call. -/
theorem Exec.brings (h : Exec cfg c ts c') (hc : ∀ t ∈ ts, t.Clean) (hi : Inv cfg c a) {b : Addr}
    (hm : ∀ t ∈ ts, ∃ g, t.src.mutex = some (.get l g k)) (hb : Brings c l b) : Brings c' l b := by
  refine Exec.induct (P := fun _ c => Brings c l b) h hc hi hb ?_
  intro us t ht hs hb
  obtain ⟨g, hg⟩ := hm t ht
  exact hs.inv.brings_step hg hs.step hb

/-- **`get_next` is answered.** Whenever the holder is in `get_next`:
* the link is written, or exactly one enqueuer has yet to write it;
* if the holder is blocked, it parks without a token, and the link is not written or its enqueuer has
  yet to call `unpark`;
* a value that is returned is an address, and it was in the link when `get_next` was called or is the
  node of the enqueuer that had yet to write the link then. -/
theorem get_next_answered (h : Exec cfg (.init s v) ts c) (hc : ∀ t ∈ ts, t.Calm)
    (hm : c.mutex = some (.get l g k)) :
    ((∃ b, c.mem.link l = .to b) ∨ ∃! x, Pending c x l) ∧
    (step cfg c .holder = none → g = .park ∧ c.mem.token = false ∧
      ((c.mem.link l = .null ∨ c.mem.link l = parked) ∧ (∃! x, Pending c x l) ∨
        ∃ x, c.mem.link l = .to (.node x) ∧
          (c.own x = .unpark ∨ c.own x = .parkedLoad l ∧ c.mem.parkedNext = some l))) ∧
    ∀ w, g.returns cfg c.mem l = some w → ∃ b, w = .to b ∧
      ∀ ts₁ ts₂ c₁, ts = ts₁ ++ ts₂ → Exec cfg (.init s v) ts₁ c₁ → Exec cfg c₁ ts₂ c →
        c₁.mutex = some (.get l .load k) → (∀ t ∈ ts₂, ∃ g, t.src.mutex = some (.get l g k)) →
        c₁.mem.link l = .to b ∨ c₁.mem.link l = .null ∧ ∃ x, b = .node x ∧ Pending c₁ x l := by
  have hcl := Exec.clean h hc
  have hi := Exec.inv h hcl
  refine ⟨(hi.awaits hm).imp_right And.right, fun hb => ?_, fun w hw => ?_⟩
  · obtain ⟨rfl, hv, htok⟩ := (blocked_iff hm).1 hb
    refine ⟨rfl, htok, ?_⟩
    rcases hi.awaits hm with ⟨b, hl⟩ | hp
    · obtain ⟨x, rfl, hx⟩ := Exec.parkOk h hcl _ _ hm hv _ hl
      refine .inr ⟨x, hl, ?_⟩
      rcases hx with hx | hx | ⟨hx, hvar⟩
      · simp [hx] at htok
      · exact .inl hx
      · exact .inr ⟨hx, (hi.holder hm).2.1.2 hvar⟩
    · exact .inl hp
  · obtain ⟨hl, b, rfl⟩ := hi.returns_eq hm hw
    refine ⟨b, rfl, ?_⟩
    rintro ts₁ ts₂ c₁ rfl h₁ h₂ hm₁ hget
    have hi₁ := Exec.inv h₁ fun t ht => hcl t (List.mem_append_left _ ht)
    have hcl₂ : ∀ t ∈ ts₂, t.Clean := fun t ht => hcl t (List.mem_append_right _ ht)
    have hback : ∀ {b'}, Brings c₁ l b' → b' = b := fun hb => by
      rcases Exec.brings h₂ hcl₂ hi₁ hget hb with e | ⟨x, rfl, hx⟩
      · exact Ptr.to.inj (e.symm.trans hl)
      · rcases hi.shape.pend_link (pending_iff.1 hx) with e | e <;> simp [hl] at e
    rcases hi₁.awaits hm₁ with ⟨b', hb'⟩ | ⟨hl', x, hx, -⟩
    · exact .inl (hback (.inl hb') ▸ hb')
    · refine .inr ⟨hl'.resolve_right fun e => ?_, x, (hback (.inr ⟨x, rfl, hx⟩)).symm, hx⟩
      have := (hi₁.parked e).1
      simp [State.parkedAt, hm₁, HolderPc.parkedAt] at this

/-- A `dequeue` parks before the enqueuer of the first node has written `head`. -/
def dequeueParks : List (Act ℕ Unit) :=
  insertActs 0 () ++ [.lock, .holderCall .dequeue, .holder, .holder]

theorem get_next_answered_dequeueParks :
    let c := State.after (.init 5 ()) (trace ⟨.x86, 0⟩ (.init 5 ()) dequeueParks)
    c.mem.link .head = parked ∧ step ⟨.x86, 0⟩ c .holder = none ∧ ∃! x, Pending c x .head := by
  have hrun : (perform ⟨.x86, 0⟩ (.init 5 ()) dequeueParks).isSome := by decide +kernel
  intro c
  have hm : c.mutex = some (.get .head .park .dequeue) := rfl
  have hl : c.mem.link .head = parked := rfl
  have hb : step ⟨.x86, 0⟩ c .holder = none := rfl
  obtain ⟨-, -, ⟨-, h⟩ | ⟨x, h, -⟩⟩ :=
    (get_next_answered (exec_trace hrun) (by decide +kernel) hm).2.1 hb
  · exact ⟨hl, hb, h⟩
  · rw [hl] at h
    simp [parked] at h

end Aiq
