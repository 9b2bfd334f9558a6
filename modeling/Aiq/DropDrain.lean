import Aiq.TryEnqueue

/-!
# Dropping a `Drain`

After a `Drain` has been dropped no queued node points to its sentinel, nobody accesses the sentinel
any more, and the nodes that the `Drain` took are dequeued. This holds in every execution of clean
steps, with closures that unwind among them (`dropped_drain_cleans_up`). It fails when the drop is
torn (`TornDrop`): on the unwinding path `Drop for Drain` loads the `next` field of the sentinel
without the lock, and takes the null that a removal of the first drained node has just stored, and is
about to overwrite, for the end of the list.
-/

namespace Aiq

variable {S T : Type} {cfg : Config} {c c' : State S T} {a : Abs S} {e : Event S} {d : DrainId}
  {x : NodeId}

/-! ## Pointers to the sentinel -/

/-- The link that the holder has yet to write is no pointer to a sentinel. -/
theorem Inv.hole_noSentinel (h : Inv cfg c a) {b : Addr} {i : ListId} (hb : c.hole = some b)
    (hp : (c.ch a i).predOf b = some (.node x)) :
    (c.mem.link (.next (.node x))).NoSentinel := by
  obtain ⟨p, hm, hh⟩ := Option.bind_eq_some_iff.1 hb
  have hk := h.holder hm
  have hmem := List.mem_of_predOf hp
  have hloc : inLoc (c.ch a) i b = .next (.node x) := inLoc_of_predOf hp
  have key : ∀ {r : Removal S} {j}, Removing c a r j → Addr.node r.node = b →
      r.prevNext = .next (.node x) := by
    rintro r j hr rfl
    obtain rfl := h.shape.disj hr.mem hmem
    exact hr.prevNext.trans hloc
  cases p <;> simp only [HolderPc.hole, reduceCtorEq, Option.some.injEq] at hh
  case get l g k =>
    cases k <;> simp only [reduceCtorEq, Option.some.injEq] at hh
    obtain ⟨⟨j, z, -, -, -, hr, -⟩, -, hn⟩ := hk
    exact key hr hh ▸ hn _ rfl
  case rmCas r =>
    obtain ⟨⟨j, hr⟩, -, hn⟩ := hk
    rw [key hr hh] at hn
    simp [Ptr.NoSentinel, hn]
  case rmSetPrev r z =>
    obtain ⟨⟨j, hr, -⟩, -, -, hn⟩ := hk
    exact key hr hh ▸ hn
  case rmSetNext r z =>
    obtain ⟨⟨j, hz, hr⟩, -, -, -, hn⟩ := hk
    subst hh
    obtain rfl := h.shape.disj hz hmem
    rw [Removal.prevNext, hr, prevNext_inPrev, hloc] at hn
    exact hn
  case drainSwap d z s =>
    subst hh
    obtain rfl := h.shape.disj (List.mem_of_head? hk.1) hmem
    rw [inLoc_of_head (h.shape.nodup _) hk.1] at hloc
    simp [ListId.firstLoc] at hloc

/-- A queued node points to the sentinel of a `Drain` only as long as the sentinel is in use. -/
theorem Inv.live_of_queued (h : Inv cfg c a) (hq : c.mem.rawState x = .queued)
    (hp : c.mem.prev (.node x) = .to (.sentinel d) ∨
      c.mem.link (.next (.node x)) = .to (.sentinel d)) : Live c d := by
  by_cases hl : c.leaving = some x
  · have hlv := h.leaving_ok hl
    exact hp.elim hlv.prev hlv.next
  by_cases hm : ∃ i, .node x ∈ c.ch a i
  · obtain ⟨i, hi⟩ := hm
    rcases hp with hp | hp
    · exact h.live_of_prev hi hp
    · exact h.live_of_next hi (fun b hb hpr => h.hole_noSentinel hb hpr) hp
  have hout : Out (c.ch a) c.leaving x := ⟨not_exists.1 hm, hl⟩
  -- the owner is inside the CAS loop, and has seen no sentinel there
  have hin : (c.own x).inLoop = true := by
    by_contra hin
    exact h.rawState_ne_queued (by simpa using hin) hout hq
  exfalso
  have hok := h.own x
  have hns : (c.mem.prev (.node x)).NoSentinel ∧ c.mem.link (.next (.node x)) = .null := by
    cases ho : c.own x <;> rw [ho] at hok hin <;> simp only [OwnPc.inLoop, reduceCtorEq] at hin
    case check f i t => exact ⟨hok.2.2.1, hok.2.1⟩
    case refuse => exact ⟨hok.2.2, hok.2.1⟩
    case store f i t => exact ⟨hok.2.2.1, hok.2.1⟩
    case cas f i t =>
      refine ⟨?_, hok.2.1⟩
      rw [hok.2.2.1]
      exact hok.2.2.2.1.prevPtr
  rcases hp with hp | hp
  · exact hns.1 d hp
  · simp [hns.2] at hp

/-! ## Accesses to the sentinel -/

section Accesses

theorem Inv.held_of_drainId (h : Inv cfg c a) {p : HolderPc S} (hp : c.mutex = some p)
    (hid : p.drainId = some d) : c.drains d = .held :=
  (h.held d).2 (by simp [hp, hid])

/-- The holder does not access the sentinel of a `Drain` that was dropped. -/
theorem Inv.holder_sentinel (h : Inv cfg c a) (hd : c.drains d = .gone) {p : HolderPc S}
    (hp : c.mutex = some p) : .sentinel d ∉ p.accesses := by
  intro hacc
  have hk := h.holder hp
  have hnh : c.drains d ≠ .held := by simp [hd]
  have hlk : c.lk d = false := by simp [State.lk, hd, DrainPc.linked]
  have hheld : p.drainId ≠ some d := fun hid => hnh (h.held_of_drainId hp hid)
  have hmem : ∀ i, .sentinel d ∉ c.ch a i := fun i hi => by
    simp [(sentinel_mem_ch hi).2] at hlk
  cases p <;> simp only [HolderPc.accesses, List.mem_singleton, List.not_mem_nil, reduceCtorEq,
    Addr.sentinel.injEq, mem_addrs] at hacc
  case get l g k =>
    obtain ⟨⟨i, y, hy, hl, -⟩, -⟩ := hk
    have hne : l ≠ .next (.sentinel d) := hl ▸ h.inLoc_ne_sentinel hnh hlk hy
    cases g <;> simp [GetPc.accesses, mem_addrs, hne] at hacc
  case rmClear r =>
    obtain ⟨⟨i, hr⟩, -⟩ := hk
    exact h.inLoc_ne_sentinel hnh hlk hr.mem (hr.prevNext.symm.trans hacc)
  case rmSetPrev r b =>
    obtain ⟨⟨i, -, hb⟩, -⟩ := hk
    exact hmem i (hacc ▸ List.mem_of_predOf hb)
  case rmSetNext r b =>
    obtain ⟨⟨i, hb, hr⟩, -⟩ := hk
    rw [Removal.prevNext, hr, prevNext_inPrev] at hacc
    exact h.inLoc_ne_sentinel hnh hlk hb hacc
  case drainSwap d' b s =>
    have hnone : c.drains d = .none := hacc ▸ hk.2.2.1
    simp [hd] at hnone
  case ddDone d' b flush =>
    rcases hk.2 with ⟨z, hz, -⟩ | ⟨-, hb⟩
    · simp [hz] at hacc
    · obtain rfl : d = d' := by simpa [hb] using hacc
      exact hheld rfl
  case exPrev d' b => exact hmem _ (hacc ▸ List.mem_of_head? hk)
  case exTailStore d' b => exact hmem _ (hacc ▸ List.mem_of_getLast? hk.2)
  all_goals
    subst hacc
    exact hheld rfl

variable [DecidableEq S] [QueueState S] {t : Transition S T}

theorem Sound.holderCall_sentinel (h : Sound cfg a t) (hd : t.src.drains d = .gone) {p : HolderPc S}
    (hp : t.src.mutex = some p) {k : HolderCall S T}
    (hs : holderCall t.src p k = some (t.dst, t.event)) : .sentinel d ∉ p.callAccesses k := by
  intro hacc
  have hk := h.inv.holder hp
  have hlk : t.src.lk d = false := by simp [State.lk, hd, DrainPc.linked]
  cases p <;> cases k <;> simp only [HolderPc.callAccesses, List.mem_singleton, List.not_mem_nil,
    reduceCtorEq, Addr.sentinel.injEq] at hacc
  case guard.drain d' s =>
    subst hacc
    simp [holderCall, guardCall, hd] at hs
  case drained.withDataMut d' b g =>
    have hm := sentinel_mem_ch (hacc ▸ List.mem_of_head? hk)
    simp [hm.2] at hlk
  all_goals
    subst hacc
    have hheld := h.inv.held_of_drainId hp rfl
    simp [hd] at hheld

/-- No step accesses the sentinel of a `Drain` that was dropped. -/
theorem Sound.sentinel_accesses (h : Sound cfg a t) (hd : t.src.drains d = .gone) :
    .sentinel d ∉ t.act.accesses t.src := by
  intro hacc
  have hs := h.step
  cases hk : t.act <;> rw [hk] at hacc hs <;> simp only [Act.accesses, List.not_mem_nil] at hacc
  case holder =>
    cases hp : t.src.mutex with
    | none => simp [hp] at hacc
    | some p => exact h.inv.holder_sentinel hd hp (by simpa [hp] using hacc)
  case holderCall q =>
    cases hp : t.src.mutex with
    | none => simp [hp] at hacc
    | some p =>
      simp only [Aiq.step, hp] at hs
      exact h.holderCall_sentinel hd hp hs (by simpa [hp] using hacc)
  case owner x w =>
    cases ho : t.src.own x <;> simp only [ho, OwnPc.accesses, List.mem_singleton, List.not_mem_nil,
      reduceCtorEq, mem_addrs] at hacc
    exact h.inv.shape.pend_loc (x := x) (by simp [State.pend, ho, OwnPc.pend]) hacc
  case ownerCall x q => cases q <;> simp [OwnerCall.accesses] at hacc
  case drain d' q =>
    cases q <;> simp only [List.mem_singleton, List.not_mem_nil, Addr.sentinel.injEq] at hacc
    subst hacc
    simp [Aiq.step, drainStep, hd] at hs

end Accesses

/-! ## The nodes of a dropped `Drain` -/

/-- The `Drain` has released its lock with no nodes left. -/
def DrainPc.finished : DrainPc → Bool
  | .running l | .relock l | .loose l | .dropLock l => !l
  | .gone => true
  | .none | .held => false

theorem holderStep_finished [DecidableEq S] [QueueState S] {p : HolderPc S}
    (hs : holderStep cfg c p = some (c', e)) (hd : (c'.drains d).finished = true) :
    (c.drains d).finished = true ∨ p = .exUnlock d false ∨ p = .drainFree d := by
  have key := drains_setDrain_apply (S := S) (T := T) d
  unfold holderStep getStep at hs
  repeat' split at hs
  all_goals grind [State.drains_hold, State.drains_withMem, State.drains_free, drains_return,
    drains_release, DrainPc.finished]

theorem drainStep_finished {d' : DrainId} {k : DrainCall} (hs : drainStep c d' k = some (c', e))
    (hd : (c'.drains d).finished = true) :
    (c.drains d).finished = true ∨ d' = d ∧ k = .drop ∧ c.drains d = .loose true ∧
      c.mem.link (.next (.sentinel d)) = .null := by
  have key := drains_setDrain_apply (S := S) (T := T) d
  unfold drainStep at hs
  grind [State.drains_hold, DrainPc.finished]

section Nodes

variable [DecidableEq S] [QueueState S] {t : Transition S T} {us : List (Transition S T)}

/-- A `Drain` finishes when it has no nodes left, and none is on its way out. -/
theorem Sound.finishes (h : Sound cfg a t) (ht : t.Clean) (hd : (t.src.drains d).finished = false)
    (hd' : (t.dst.drains d).finished = true) :
    (a.drained d).rest = [] ∧ t.src.leaving = none := by
  have hs := h.step
  have hne : t.dst.drains d ≠ t.src.drains d := fun e => by simp [← e, hd'] at hd
  cases hk : t.act.isHolder with
  | true =>
    obtain ⟨p, hp, ⟨-, hs⟩ | ⟨q, -, hs⟩⟩ := step_holder hk hs
    · have hok := h.inv.holder hp
      rcases holderStep_finished hs hd' with e | rfl | rfl
      · simp [hd] at e
      · exact ⟨hok.1, by simp [State.leaving, hp, HolderPc.leaving]⟩
      · exact ⟨hok, by simp [State.leaving, hp, HolderPc.leaving]⟩
    · rcases holderCall_next hs d with e | ⟨-, e⟩
      · exact absurd e hne
      · simp [e, DrainPc.finished] at hd'
  | false =>
    obtain ⟨c, k, e, c'⟩ := t
    cases k <;> simp only [Act.isHolder, reduceCtorEq] at hk <;> simp only [Aiq.step] at hs
    case lock =>
      split at hs
      · obtain ⟨rfl, rfl⟩ := hs
        exact absurd rfl hne
      · simp at hs
    case owner x weak => exact absurd (by simp only [ownerStep_drains hs]) hne
    case ownerCall x k => exact absurd (by simp only [ownerCall_drains hs]) hne
    case thread t weak => exact absurd (by simp only [threadStep_drains hs]) hne
    case threadCall t k => exact absurd (by simp only [threadCall_drains hs]) hne
    case drain d' k =>
      rcases drainStep_finished hs hd' with e | ⟨rfl, rfl, hl, hn⟩
      · simp [hd] at e
      -- a circular list has a null head only while the drop is torn
      · rcases h.inv.looseDrop hl hn with htorn | ⟨hlk, -⟩
        · exact absurd htorn ht
        · simp [State.lk, hl, DrainPc.linked] at hlk

/-- The nodes of a finished `Drain` are dequeued. -/
theorem Exec.retired_of_finished (h : Exec cfg c us c') (hc : ∀ u ∈ us, u.Clean) (hi : Inv cfg c a)
    (hd : c.drains d = .held) (hx : x ∈ (a.drained d).rest)
    (hr : ∀ u ∈ us, u.event ≠ .reset x ∧ u.event ≠ .create x)
    (hf : (c'.drains d).finished = true) : Retired c' x := by
  refine And.right (And.right (Exec.induct (P := fun us c => c.drains d ≠ .none ∧
    (x ∈ ((a.run us).drained d).rest ∨ Marked c x) ∧
    ((c.drains d).finished = true → Retired c x)) h hc hi
    ⟨by simp [hd], .inl hx, by simp [hd, DrainPc.finished]⟩ ?_)) hf
  rintro us t ht hs ⟨hd, hx, hf⟩
  have hr' := hr t ht
  refine ⟨hs.drains_ne_none hd, ?_, fun hf' => hs.retired hr'.1 hr'.2 ?_⟩
  · rw [Abs.run_append]
    exact hs.drained_marked hd hr' hx
  · cases hsrc : (t.src.drains d).finished with
    | true => exact hf hsrc
    | false =>
      obtain ⟨hrest, hlv⟩ := hs.finishes (hc t ht) hsrc hf'
      rcases hx with hx | hx | hx
      · simp [hrest] at hx
      · simp [hlv] at hx
      · exact hx

/-- What is left of the `Drain` `d` that took the nodes `q`, in the state `c`: `us` are the steps since
its creation and `us'` those since its drop. -/
structure CleanedUp (d : DrainId) (q : List NodeId) (us us' : List (Transition S T)) (c : State S T) :
    Prop where
  pointers : ∀ x, c.mem.rawState x = .queued → c.mem.prev (.node x) ≠ .to (.sentinel d) ∧
    c.mem.link (.next (.node x)) ≠ .to (.sentinel d)
  accesses : ∀ u ∈ us', .sentinel d ∉ u.act.accesses u.src
  dequeued : ∀ x ∈ q, (∀ u ∈ us, u.event ≠ .reset x ∧ u.event ≠ .create x) →
    c.mem.rawState x = .dequeued

theorem Sound.gone_of_dropDrain (h : Sound cfg a t) (hw : t.event = .dropDrain d) :
    t.dst.drains d = .gone := by
  have hs := h.step
  rw [hw] at hs
  cases hk : t.act.isHolder with
  | false => exact (step_dropDrain hk hs).2
  | true =>
    obtain ⟨p, hp, ⟨-, hs⟩ | ⟨q, -, hs⟩⟩ := step_holder hk hs
    · exact ((holderStep_end hs).2 rfl).2
    · exact absurd rfl (holderCall_end hp hs).2

theorem Exec.gone (h : Exec cfg c us c') (hc : ∀ u ∈ us, u.Clean) (hi : Inv cfg c a)
    (hd : c.drains d = .gone) : c'.drains d = .gone :=
  Exec.induct (P := fun _ c => c.drains d = .gone) h hc hi hd fun _ _ _ hs hd => hs.drains_gone hd

variable {s : S} {v : T} {ts us' : List (Transition S T)} {w : Transition S T}

/-- **Dropping a `Drain` cleans up.** In every execution of clean steps, in every state after a `Drain`
was dropped: no queued node points to the sentinel, no step has accessed the sentinel since, and the
nodes that the `Drain` took are dequeued, unless their owners have reset them. -/
theorem dropped_drain_cleans_up (h : Exec cfg (.init s v) (ts ++ t :: (us ++ w :: us')) c)
    (hc : ∀ u ∈ ts ++ t :: (us ++ w :: us'), u.Clean) (hd : t.event.Starts d)
    (hw : w.event = .dropDrain d) :
    CleanedUp d ((Abs.init s).run ts).queue (us ++ w :: us') us' c := by
  obtain ⟨-, hs, h₁⟩ := Exec.at_step h hc (Inv.init cfg s v)
  have hc₁ : ∀ u ∈ us ++ w :: us', u.Clean := fun u hu => hc u (by
    simp only [List.mem_append, List.mem_cons] at hu ⊢
    tauto)
  have hi := Exec.inv_run h₁ hc₁ hs.inv'
  obtain ⟨-, hs', h₂⟩ := Exec.at_step h₁ hc₁ hs.inv'
  have hc₂ : ∀ u ∈ us', u.Clean := fun u hu => hc₁ u (by simp [hu])
  have hgone := hs'.gone_of_dropDrain hw
  have hgone' := Exec.gone h₂ hc₂ hs'.inv' hgone
  have hlive : ¬ Live c d := by simp [Live, State.lk, hgone', DrainPc.linked]
  refine ⟨fun x hq => ⟨fun hp => ?_, fun hn => ?_⟩, fun u hu => ?_, fun x hx hr => ?_⟩
  · exact hlive (hi.live_of_queued hq (.inl hp))
  · exact hlive (hi.live_of_queued hq (.inr hn))
  · obtain ⟨us₁, us₂, rfl⟩ := List.append_of_mem hu
    obtain ⟨h₃, hu, -⟩ := Exec.at_step h₂ hc₂ hs'.inv'
    exact hu.sentinel_accesses
      (Exec.gone h₃ (fun u hu => hc₂ u (List.mem_append_left _ hu)) hs'.inv' hgone)
  · have hheld := hs.inv'.held_of_drainId (hs.starts hd).2 rfl
    have hrest : x ∈ ((((Abs.init s).run ts).apply t.event).drained d).rest := by
      rw [Abs.drained_starts hs.allows hd]
      exact hx
    have hret := Exec.retired_of_finished h₁ hc₁ hs.inv' hheld hrest hr (by rw [hgone']; rfl)
    simp [Mem.rawState, hret.1, Ptr.state]

end Nodes

/-- Two nodes are in the queue, and `Drain::new` is about to swap the tail. -/
def beforeSwap : List (Act ℕ Unit) :=
  insertActs 0 () ++ [.owner 0 false] ++ insertActs 1 () ++ [.owner 1 false, .lock,
    .holderCall (.drain 0 5), .holder, .holder]

/-- The closure of `execute_unlocked` unwinds, and the nodes are removed by `Drain::drop`. -/
def unwindAndDrop : List (Act ℕ Unit) :=
  [.holderCall .executeUnlocked, .holder, .holder, .holder, .holder, .drain 0 .unwind,
    .drain 0 .drop, .drain 0 .lock, .holder, .holder, .holder, .holder, .holder, .holder, .holder,
    .holder, .holder, .holder]

theorem dropped_drain_cleans_up_unwindAndDrop :
    let ts := trace ⟨.x86, 0⟩ (.init 7 ()) beforeSwap
    let t := Transition.of ⟨.x86, 0⟩ (State.after (.init 7 ()) ts) .holder (.drain 0 5)
    let us := trace ⟨.x86, 0⟩ t.dst unwindAndDrop
    let w := Transition.of ⟨.x86, 0⟩ (t.dst.after us) .holder (.dropDrain 0)
    Exec ⟨.x86, 0⟩ (.init 7 ()) (ts ++ t :: (us ++ w :: [])) w.dst ∧
      CleanedUp 0 [0, 1] (us ++ w :: []) [] w.dst := by
  intro ts t us w
  have h₁ : (perform ⟨.x86, 0⟩ (.init 7 ()) beforeSwap).isSome := by decide +kernel
  have h₂ : (perform ⟨.x86, 0⟩ t.dst unwindAndDrop).isSome := by decide +kernel
  have h : Exec ⟨.x86, 0⟩ (.init 7 ()) (ts ++ t :: (us ++ w :: [])) w.dst :=
    .append (exec_trace h₁) (.cons ⟨rfl, rfl, rfl⟩
      (.append (exec_trace h₂) (.single ⟨rfl, rfl, rfl⟩)))
  exact ⟨h, dropped_drain_cleans_up h (by decide +kernel) (.inl ⟨5, rfl⟩) rfl⟩

/-- Two nodes are in the queue, the second one not linked yet, and `Drain::new` is about to swap the
tail. -/
def beforeTornSwap : List (Act ℕ Unit) :=
  insertActs 0 () ++ [.owner 0 false] ++ insertActs 1 () ++ [.lock, .holderCall (.drain 0 5),
    .holder, .holder]

/-- The first node removes itself while the lock is released, and has cleared the `next` field of the
sentinel when the closure unwinds. -/
def unwindInRemoval : List (Act ℕ Unit) :=
  [.holderCall .executeUnlocked, .holder, .holder, .holder, .holder, .ownerCall 0 .state,
    .owner 0 false, .holder, .holderCall .dequeueSelf, .holder, .holder, .holder, .drain 0 .unwind]

/-- The removal goes on after the drop: the second node is linked to the sentinel. -/
def removalGoesOn : List (Act ℕ Unit) := [.holder, .owner 1 false, .holder, .holder, .holder]

/-- After the torn drop the second node is queued, points to the sentinel and is in no list, and the
removal has written the sentinel. -/
theorem dropped_drain_unwindInRemoval :
    let ts := trace ⟨.x86, 0⟩ (.init 7 ()) beforeTornSwap
    let t := Transition.of ⟨.x86, 0⟩ (State.after (.init 7 ()) ts) .holder (.drain 0 5)
    let us := trace ⟨.x86, 0⟩ t.dst unwindInRemoval
    let w := Transition.of ⟨.x86, 0⟩ (t.dst.after us) (.drain 0 .drop) (.dropDrain 0)
    let us' := trace ⟨.x86, 0⟩ w.dst removalGoesOn
    let c := w.dst.after us'
    Exec ⟨.x86, 0⟩ (.init 7 ()) (ts ++ t :: (us ++ w :: us')) c ∧ TornDrop w.src 0 ∧
      c.mem.rawState 1 = .queued ∧ c.mem.prev (.node 1) = .to (.sentinel 0) ∧
      (∃ u ∈ us', .sentinel 0 ∈ u.act.accesses u.src) ∧
      ¬ CleanedUp 0 [0, 1] (us ++ w :: us') us' c := by
  intro ts t us w us' c
  have h₁ : (perform ⟨.x86, 0⟩ (.init 7 ()) beforeTornSwap).isSome := by decide +kernel
  have h₂ : (perform ⟨.x86, 0⟩ t.dst unwindInRemoval).isSome := by decide +kernel
  have h₃ : (perform ⟨.x86, 0⟩ w.dst removalGoesOn).isSome := by decide +kernel
  have hq : c.mem.rawState 1 = .queued := by decide +kernel
  have hp : c.mem.prev (.node 1) = .to (.sentinel 0) := by decide +kernel
  exact ⟨.append (exec_trace h₁) (.cons ⟨rfl, rfl, rfl⟩
    (.append (exec_trace h₂) (.cons ⟨rfl, rfl, rfl⟩ (exec_trace h₃)))), by decide +kernel, hq, hp,
    by decide +kernel, fun h => (h.pointers 1 hq).1 hp⟩

end Aiq
