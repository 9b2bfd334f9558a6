import Aiq.TrySetState

/-!
# The log of a `Drain`

A `Drain` takes the nodes that are in the queue at its tail swap. From then on they are in the log of
the `Drain` (`DrainLog`), as yielded, removed by `Drain::drop`, removed by their owner or still to
come, and the log accounts for all of them in the order of the queue (`DrainRun.run`). What `next` has
returned is what the log calls yielded, and the node in the user's hand (`Exec.yields_eq`). A node that
is gone from the list is marked as dequeued until its owner resets it (`Exec.drained_marked`).
-/

namespace Aiq

variable {S T : Type} {cfg : Config} {c c' : State S T} {a : Abs S} {e : Event S} {d : DrainId}
  {x : NodeId}

/-! ## The log of a `Drain` -/

/-- `Drain::new` takes the nodes of the queue. -/
def Event.Starts (e : Event S) (d : DrainId) : Prop := (∃ s, e = .drain d s) ∨ e = .drainEmpty d

theorem Abs.drained_starts (ha : a.Allows e) (he : e.Starts d) :
    (a.apply e).drained d = .start a.queue := by
  rcases he with ⟨s, rfl⟩ | rfl
  · simp [apply]
  · have hq : a.queue = [] := ha
    simp [apply, hq, DrainLog.start, DrainLog.empty]

/-- The events that concern the log of `d`. -/
theorem Abs.drained_apply (he : ¬ e.Starts d) :
    (a.apply e).drained d = a.drained d ∨
    (∃ x s, e = .remove x s ∧ (a.apply e).drained d = (a.drained d).leave x) ∨
    ∃ x flush, e = .drainRemove d x flush ∧
      (a.apply e).drained d = (a.drained d).remove x flush := by
  cases e
  case remove x s => exact .inr (.inl ⟨x, s, rfl, rfl⟩)
  case drain d' s =>
    have hd : d ≠ d' := by
      rintro rfl
      exact he (.inl ⟨s, rfl⟩)
    exact .inl (Function.update_of_ne hd _ _)
  case drainEmpty d' =>
    have hd : d ≠ d' := by
      rintro rfl
      exact he (.inr rfl)
    exact .inl (Function.update_of_ne hd _ _)
  case drainRemove d' x flush =>
    by_cases hd : d = d'
    · subst hd
      exact .inr (.inr ⟨x, flush, rfl, by simp [apply]⟩)
    · exact .inl (Function.update_of_ne hd _ _)
  all_goals exact .inl rfl

/-- The log accounts for the nodes `q`, in their order: those that their owners have not removed were
yielded, then removed by `Drain::drop`, or are still to come. -/
structure DrainLog.Exact (g : DrainLog) (q : List NodeId) : Prop where
  nodup : q.Nodup
  parts : g.yielded ++ g.flushed ++ g.rest = q.filter (· ∉ g.left)

namespace DrainLog

variable {g : DrainLog} {q : List NodeId}

theorem exact_start (h : q.Nodup) : (start q).Exact q := ⟨h, by simp [start]⟩

/-- The owner of a node removes it. -/
theorem Exact.leave (h : g.Exact q) (x : NodeId) : (g.leave x).Exact q := by
  unfold DrainLog.leave
  split
  · rename_i hx
    refine ⟨h.nodup, ?_⟩
    have hn : (g.yielded ++ g.flushed ++ g.rest).Nodup := h.parts ▸ h.nodup.filter _
    obtain ⟨-, hr, hdisj⟩ := List.nodup_append.1 hn
    have hout : (g.yielded ++ g.flushed).filter (· ≠ x) = g.yielded ++ g.flushed :=
      List.filter_eq_self.2 fun y hy => by simpa using hdisj y hy x hx
    have hrest : g.rest.filter (· ≠ x) = g.rest.erase x := by
      rw [hr.erase_eq_filter]
      exact List.filter_congr fun y _ => by by_cases h : y = x <;> simp [h]
    calc g.yielded ++ g.flushed ++ g.rest.erase x
        = (g.yielded ++ g.flushed ++ g.rest).filter (· ≠ x) := by
          rw [List.filter_append, hout, hrest]
      _ = q.filter (· ∉ g.left ++ [x]) := by
          rw [h.parts, List.filter_filter]
          congr 1
          funext y
          simp [and_comm, not_or]
  · exact h

/-- The `Drain` removes the first node. -/
theorem Exact.remove (h : g.Exact q) (hx : g.rest.head? = some x) {flush : Bool}
    (hf : flush = false → g.flushed = []) : (g.remove x flush).Exact q := by
  obtain ⟨l, hl⟩ : ∃ l, g.rest = x :: l := ⟨_, List.eq_cons_of_mem_head? hx⟩
  refine ⟨h.nodup, ?_⟩
  have hp := h.parts
  cases flush with
  | true => simpa [DrainLog.remove, hl] using hp
  | false => simpa [DrainLog.remove, hl, hf rfl] using hp

end DrainLog

/-! ## The life of a `Drain` -/

/-- The moves of a `Drain`. -/
inductive DrainPc.Next : DrainPc → DrainPc → Prop
  | new : Next .none .held
  | unlock (l : Bool) : Next .held (.running l)
  | drop : Next .held .gone
  | return (l : Bool) : Next (.running l) (.relock l)
  | unwind (l : Bool) : Next (.running l) (.loose l)
  | relock (l : Bool) : Next (.relock l) .held
  | looseDrop (l : Bool) : Next (.loose l) .gone
  | looseWait (l : Bool) : Next (.loose l) (.dropLock l)
  | dropLock (l : Bool) : Next (.dropLock l) .held

theorem holderStep_next [DecidableEq S] [QueueState S] {p : HolderPc S}
    (hs : holderStep cfg c p = some (c', e)) (d : DrainId) :
    c'.drains d = c.drains d ∨ (∃ b s, p = .drainSwap d b s) ∧ c'.drains d = .held ∨
      p.drainId = some d ∧ (c'.drains d = .gone ∨ ∃ l, c'.drains d = .running l) := by
  have hd := drains_setDrain_apply (S := S) (T := T) d
  unfold holderStep getStep at hs
  grind [State.drains_hold, State.drains_withMem, State.drains_free, drains_return, drains_release,
    HolderPc.drainId]

theorem holderCall_next [QueueState S] {p : HolderPc S} {k : HolderCall S T}
    (hs : holderCall c p k = some (c', e)) (d : DrainId) :
    c'.drains d = c.drains d ∨ c.drains d = .none ∧ c'.drains d = .held := by
  have hd := drains_setDrain_apply (S := S) (T := T) d
  unfold holderCall guardCall drainLockedCall at hs
  grind [State.drains_hold, State.drains_withMem, State.drains_free, State.drains_setOwn]

theorem drainStep_next {k : DrainCall} {d' : DrainId} (hs : drainStep c d' k = some (c', e))
    (d : DrainId) : c'.drains d = c.drains d ∨ (c.drains d).Next (c'.drains d) := by
  have hd := drains_setDrain_apply (S := S) (T := T) d
  unfold drainStep at hs
  grind [State.drains_hold, DrainPc.Next]

theorem Sound.drains [DecidableEq S] [QueueState S] {t : Transition S T} (h : Sound cfg a t)
    (d : DrainId) : t.dst.drains d = t.src.drains d ∨ (t.src.drains d).Next (t.dst.drains d) := by
  obtain ⟨c, k, e, c'⟩ := t
  have hs := h.step
  cases k <;> simp only [Aiq.step] at hs
  case lock =>
    split at hs
    · obtain ⟨rfl, rfl⟩ := hs
      exact .inl rfl
    · simp at hs
  case holder =>
    split at hs
    · simp at hs
    · rename_i p hp
      have hk := h.inv.holder hp
      rcases holderStep_next hs d with h' | ⟨⟨b, s, rfl⟩, h'⟩ | ⟨hid, h'⟩
      · exact .inl h'
      · have hnone : c.drains d = .none := hk.2.2.1
        exact .inr (by simp only [h', hnone]; exact .new)
      · have hheld : c.drains d = .held := (h.inv.held d).2 (by simp [hp, hid])
        rcases h' with h' | ⟨l, h'⟩
        · exact .inr (by simp only [h', hheld]; exact .drop)
        · exact .inr (by simp only [h', hheld]; exact .unlock l)
  case holderCall k =>
    split at hs
    · simp at hs
    · rcases holderCall_next hs d with h' | ⟨h', h''⟩
      · exact .inl h'
      · exact .inr (by simp only [h', h'']; exact .new)
  case owner x weak => exact .inl (by simp only [ownerStep_drains hs])
  case ownerCall x k => exact .inl (by simp only [ownerCall_drains hs])
  case thread t weak => exact .inl (by simp only [threadStep_drains hs])
  case threadCall t k => exact .inl (by simp only [threadCall_drains hs])
  case drain d' k => exact drainStep_next hs d

theorem holderStep_starts [DecidableEq S] [QueueState S] {p : HolderPc S}
    (hs : holderStep cfg c p = some (c', e)) (he : e.Starts d) :
    (∃ b s, p = .drainSwap d b s) ∧ c'.mutex = some (.drain d) := by
  cases p <;> simp only [holderStep, reduceCtorEq] at hs
  case drainSwap d' b s =>
    split at hs <;> obtain ⟨rfl, rfl⟩ := hs
    · obtain rfl : d' = d := by simpa [Event.Starts] using he
      exact ⟨⟨b, s, rfl⟩, rfl⟩
    · simp [Event.Starts] at he
  case get l g k => rcases getStep_event hs with rfl | ⟨y, rfl⟩ <;> simp [Event.Starts] at he
  all_goals
    unfold Event.Starts at he
    grind

theorem holderCall_starts [QueueState S] {p : HolderPc S} {k : HolderCall S T}
    (hs : holderCall c p k = some (c', e)) (he : e.Starts d) :
    c.drains d = .none ∧ c'.mutex = some (.drain d) := by
  unfold Event.Starts at he
  unfold holderCall guardCall drainLockedCall at hs
  grind [State.mutex_hold]

section Life

variable [DecidableEq S] [QueueState S] {t : Transition S T}

/-- A `Drain` is created once, and holds the lock then. -/
theorem Sound.starts (h : Sound cfg a t) (he : t.event.Starts d) :
    t.src.drains d = .none ∧ t.dst.mutex = some (.drain d) := by
  have hs := h.step
  cases hk : t.act.isHolder with
  | false =>
    have hev := step_event hk hs
    rcases he with ⟨s, he⟩ | he <;> simp [he, Event.byHolder] at hev
  | true =>
    obtain ⟨p, hp, ⟨-, hs⟩ | ⟨q, -, hs⟩⟩ := step_holder hk hs
    · obtain ⟨⟨b, s, rfl⟩, hm⟩ := holderStep_starts hs he
      exact ⟨(h.inv.holder hp).2.2.1, hm⟩
    · exact holderCall_starts hs he

theorem Sound.not_starts (h : Sound cfg a t) (hd : t.src.drains d ≠ .none) :
    ¬ t.event.Starts d := fun he => hd (h.starts he).1

theorem Sound.drains_ne_none (h : Sound cfg a t) (hd : t.src.drains d ≠ .none) :
    t.dst.drains d ≠ .none := by
  rcases h.drains d with h' | h'
  · rwa [h']
  · intro e
    rw [e] at h'
    generalize t.src.drains d = q at h'
    cases h'

theorem Sound.drains_gone (h : Sound cfg a t) (hd : t.src.drains d = .gone) :
    t.dst.drains d = .gone := by
  rcases h.drains d with h' | h'
  · rwa [h']
  · rw [hd] at h'
    cases h'

end Life

/-! ## `Drain::drop` -/

/-- The `Drain` whose `drop` removes the nodes left. -/
def HolderPc.flushing : HolderPc S → Option DrainId
  | .dropLoop d | .ddPrev d _ true | .get _ _ (.drained d _ true) | .ddSetHead d _ _ true
  | .ddDone d _ true | .drainFree d => some d
  | _ => none

theorem holderStep_flushing [DecidableEq S] [QueueState S] {p : HolderPc S}
    (hs : holderStep cfg c p = some (c', e)) (hp : p.flushing = some d) :
    c'.mutex = some .fault ∨ c'.mutex.bind HolderPc.flushing = some d ∨ c'.drains d = .gone := by
  have hd := drains_setDrain_apply (S := S) (T := T) d
  unfold HolderPc.flushing at hp ⊢
  unfold holderStep getStep GetCont.resume at hs
  repeat' split at hs
  all_goals grind [State.mutex_hold, State.mutex_free, State.mutex_withMem, State.drains_free]

theorem holderCall_flushing [QueueState S] {p : HolderPc S} {k : HolderCall S T}
    (hp : p.flushing = some d) : holderCall c p k = none := by
  unfold HolderPc.flushing at hp
  unfold holderCall
  grind

theorem holderStep_drainRemove [DecidableEq S] [QueueState S] {p : HolderPc S} {flush : Bool}
    (hs : holderStep cfg c p = some (c', .drainRemove d x flush)) :
    ∃ v, p = .ddSetHead d (.node x) v flush ∧ c'.mutex = some (.ddDone d (.node x) flush) := by
  cases p <;> simp only [holderStep, reduceCtorEq] at hs
  case get l g k => rcases getStep_event hs with h | ⟨y, h⟩ <;> simp at h
  case ddSetHead d' b v flush' =>
    cases b <;> simp only [Option.some.injEq, Prod.mk.injEq, Event.drainRemove.injEq, reduceCtorEq,
      and_false] at hs
    obtain ⟨rfl, rfl, rfl, rfl⟩ := hs
    exact ⟨v, rfl, rfl⟩
  all_goals grind

theorem holderCall_drainRemove [QueueState S] {p : HolderPc S} {flush : Bool} {k : HolderCall S T} :
    holderCall c p k ≠ some (c', .drainRemove d x flush) := by
  unfold holderCall guardCall drainLockedCall
  grind

/-- What `Drain::drop` removes is removed after everything else. -/
def FlushOk (c : State S T) (a : Abs S) (d : DrainId) : Prop :=
  (a.drained d).flushed ≠ [] → c.drains d = .gone ∨ c.mutex.bind HolderPc.flushing = some d

section Log

variable [DecidableEq S] [QueueState S] {t : Transition S T}

/-- The holder removes the first node of a `Drain`. -/
theorem Sound.drainRemove (h : Sound cfg a t) {flush : Bool} (he : t.event = .drainRemove d x flush) :
    ∃ v, t.src.mutex = some (.ddSetHead d (.node x) v flush) ∧
      t.dst.mutex = some (.ddDone d (.node x) flush) := by
  have hs := h.step
  cases hk : t.act.isHolder with
  | false =>
    have hev := step_event hk hs
    simp [he, Event.byHolder] at hev
  | true =>
    rw [he] at hs
    obtain ⟨p, hp, ⟨-, hs⟩ | ⟨q, -, hs⟩⟩ := step_holder hk hs
    · obtain ⟨v, rfl, hm⟩ := holderStep_drainRemove hs
      exact ⟨v, hp, hm⟩
    · exact absurd hs holderCall_drainRemove

/-- While `Drain::drop` runs, only its own steps move it. -/
theorem Sound.flushing (h : Sound cfg a t) (hf : t.src.mutex.bind HolderPc.flushing = some d) :
    t.dst.drains d = .gone ∨ t.dst.mutex.bind HolderPc.flushing = some d := by
  obtain ⟨p, hp, hfl⟩ := Option.bind_eq_some_iff.1 hf
  cases hk : t.act.isHolder with
  | false =>
    have hm := h.inv.mutex_step hp (by rintro u rfl; simp [HolderPc.flushing] at hfl) hk h.step
    exact .inr (by rw [hm, ← hp]; exact hf)
  | true =>
    obtain ⟨p', hp', hs⟩ := step_holder hk h.step
    obtain rfl : p = p' := Option.some.inj (hp.symm.trans hp')
    rcases hs with ⟨-, hs⟩ | ⟨q, -, hs⟩
    · rcases holderStep_flushing hs hfl with hm | hm | hd
      · exact (h.inv'.holder hm).elim
      · exact .inr hm
      · exact .inl hd
    · simp [holderCall_flushing hfl] at hs

theorem Sound.flushOk (h : Sound cfg a t) (hd : t.src.drains d ≠ .none) (hf : FlushOk t.src a d) :
    FlushOk t.dst (a.apply t.event) d := by
  intro hne
  have key : (a.drained d).flushed ≠ [] →
      t.dst.drains d = .gone ∨ t.dst.mutex.bind HolderPc.flushing = some d := fun hne => by
    rcases hf hne with hg | hg
    · exact .inl (h.drains_gone hg)
    · exact h.flushing hg
  rcases Abs.drained_apply (a := a) (h.not_starts hd) with he | ⟨x, s, -, he⟩ | ⟨x, flush, hev, he⟩
  · exact key (he ▸ hne)
  · rw [he, DrainLog.leave] at hne
    split at hne <;> exact key hne
  · cases flush with
    | false =>
      rw [he] at hne
      exact key hne
    | true =>
      obtain ⟨v, -, hm⟩ := h.drainRemove hev
      exact .inr (by simp [hm, HolderPc.flushing])

/-- The log stays exact. -/
theorem Sound.exact (h : Sound cfg a t) {q : List NodeId} (hd : t.src.drains d ≠ .none)
    (hf : FlushOk t.src a d) (hg : (a.drained d).Exact q) :
    ((a.apply t.event).drained d).Exact q := by
  rcases Abs.drained_apply (a := a) (h.not_starts hd) with he | ⟨x, s, -, he⟩ | ⟨x, flush, hev, he⟩
  · rwa [he]
  · rw [he]
    exact hg.leave x
  · rw [he]
    have ha := h.allows
    rw [hev] at ha
    refine hg.remove ha ?_
    rintro rfl
    obtain ⟨v, hm, -⟩ := h.drainRemove hev
    by_contra hne
    rcases hf hne with hg | hg
    · have hheld : t.src.drains d = .held := (h.inv.held d).2 (by simp [hm, HolderPc.drainId])
      simp [hheld] at hg
    · simp [hm, HolderPc.flushing] at hg

end Log

/-! ## What `next` returns -/

/-- The node that `next` returns. -/
def Event.yields (d : DrainId) : Event S → List NodeId
  | .next d' (some (.node x)) => if d' = d then [x] else []
  | _ => []

/-- The node that the drop of a `NodeDrained` removes. -/
def Event.takes (d : DrainId) : Event S → List NodeId
  | .drainRemove d' x false => if d' = d then [x] else []
  | _ => []

/-- The node that `next` has returned and that is not removed yet. -/
def HolderPc.inHand (d : DrainId) : HolderPc S → List NodeId
  | .drained d' (.node x) | .ddPrev d' (.node x) false | .get _ _ (.drained d' (.node x) false)
  | .ddSetHead d' (.node x) _ false => if d' = d then [x] else []
  | _ => []

/-- See `HolderPc.inHand`. -/
def State.inHand (c : State S T) (d : DrainId) : List NodeId :=
  (c.mutex.map (HolderPc.inHand d)).getD []

theorem inHand_of_mutex {p : HolderPc S} (h : c.mutex = some p) : c.inHand d = p.inHand d := by
  simp [State.inHand, h]

theorem inHand_get (l l' : Loc) (g g' : GetPc) (k : GetCont S) :
    (HolderPc.get l g k).inHand d = (HolderPc.get l' g' k).inHand d := by
  unfold HolderPc.inHand
  grind

theorem inHand_resume (l : Loc) (g : GetPc) (k : GetCont S) (v : Ptr) :
    k.resume v = .fault ∨ (k.resume v).inHand d = (HolderPc.get l g k).inHand d := by
  unfold GetCont.resume
  split
  case h_5 d' b flush y => cases b <;> cases flush <;> exact .inr rfl
  all_goals first | exact .inl rfl | exact .inr rfl

theorem getStep_inHand {l : Loc} {g : GetPc} {k : GetCont S}
    (hs : getStep cfg c l g k = some (c', e)) :
    c'.mutex = some .fault ∨ c'.inHand d = (HolderPc.get l g k).inHand d := by
  rcases getStep_returns hs with ⟨v, -, hm⟩ | ⟨-, g', hm⟩
  · rcases inHand_resume (d := d) l g k v with h | h
    · exact .inl (h ▸ hm)
    · exact .inr ((inHand_of_mutex hm).trans h)
  · exact .inr ((inHand_of_mutex hm).trans (inHand_get ..))

theorem holderStep_inHand [DecidableEq S] [QueueState S] {p : HolderPc S}
    (hs : holderStep cfg c p = some (c', e)) (d : DrainId) :
    c'.mutex = some .fault ∨ p.inHand d ++ e.yields d = e.takes d ++ c'.inHand d := by
  cases p <;> simp only [holderStep, reduceCtorEq] at hs
  case get l g k =>
    rcases getStep_event hs with he | ⟨y, he⟩
    · simpa [he, Event.yields, Event.takes, eq_comm] using getStep_inHand (d := d) hs
    · simpa [he, Event.yields, Event.takes, eq_comm] using getStep_inHand (d := d) hs
  case rmDone r b =>
    obtain ⟨rfl, rfl⟩ := hs
    unfold Removal.return
    cases r.caller <;> simp [HolderPc.inHand, Event.yields, Event.takes, State.inHand]
  case release k =>
    obtain ⟨rfl, rfl⟩ := hs
    simp [HolderPc.inHand, Event.yields, Event.takes, State.inHand]
  case ddPrev d' b flush =>
    split at hs <;> obtain ⟨rfl, rfl⟩ := hs <;> cases b <;> cases flush <;>
      simp [HolderPc.inHand, Event.yields, Event.takes, State.inHand]
  case ddSetHead d' b v flush =>
    obtain ⟨rfl, rfl⟩ := hs
    cases b <;> cases flush <;> simp [HolderPc.inHand, Event.yields, Event.takes, State.inHand]
  all_goals
    repeat' split at hs
  all_goals
    obtain ⟨rfl, rfl⟩ := hs
    simp [HolderPc.inHand, Event.yields, Event.takes, State.inHand]


theorem holderCall_inHand [QueueState S] {p : HolderPc S} {k : HolderCall S T}
    (hp : c.mutex = some p) (hs : holderCall c p k = some (c', e)) (d : DrainId)
    (hf : ∀ b, p = .drained d b → k ≠ .requeue) :
    p.inHand d ++ e.yields d = e.takes d ++ c'.inHand d := by
  cases p <;> cases k <;>
    simp only [holderCall, guardCall, drainLockedCall, reduceCtorEq] at hs
  case drained.requeue d' b =>
    obtain ⟨rfl, rfl⟩ := hs
    have hd : d' ≠ d := by
      rintro rfl
      exact hf b rfl rfl
    cases b <;> simp [HolderPc.inHand, Event.yields, Event.takes, State.inHand, hd]
  case drained.drop d' b =>
    obtain ⟨rfl, rfl⟩ := hs
    cases b <;> simp [HolderPc.inHand, Event.yields, Event.takes, State.inHand]
  case drained.withDataMut d' b g =>
    cases b with
    | node x =>
      obtain ⟨rfl, rfl⟩ := hs
      simp [HolderPc.inHand, Event.yields, Event.takes, State.inHand, hp]
    | sentinel d'' => simp at hs
  case drain.next d' =>
    split at hs
    case h_2 b hb =>
      obtain ⟨rfl, rfl⟩ := hs
      cases b <;> simp [HolderPc.inHand, Event.yields, Event.takes, State.inHand]
    all_goals
      obtain ⟨rfl, rfl⟩ := hs
      simp [HolderPc.inHand, Event.yields, Event.takes, State.inHand, hp]
  all_goals
    repeat' split at hs
  all_goals first
    | (obtain ⟨rfl, rfl⟩ := hs
       simp [HolderPc.inHand, Event.yields, Event.takes, State.inHand, hp])
    | simp at hs

theorem HolderPc.inHand_of_isEntry {p : HolderPc S} (h : p.isEntry = true) : p.inHand d = [] := by
  cases p <;> simp [isEntry] at h <;> rfl

/-- A `NodeDrained` of `d` is leaked. -/
def Transition.forgets (t : Transition S T) (d : DrainId) : Bool :=
  match t.act, t.src.mutex with
  | .holderCall .requeue, some (.drained d' _) => d' = d
  | _, _ => false

theorem Event.yields_of_byHolder (h : e.byHolder = false) : e.yields d = [] ∧ e.takes d = [] := by
  cases e <;> simp_all [byHolder, yields, takes]

theorem Sound.inHand [DecidableEq S] [QueueState S] {t : Transition S T} (h : Sound cfg a t)
    (hf : t.forgets d = false) :
    t.src.inHand d ++ t.event.yields d = t.event.takes d ++ t.dst.inHand d := by
  have hs := h.step
  cases hk : t.act.isHolder with
  | false =>
    obtain ⟨hy, ht⟩ := Event.yields_of_byHolder (d := d) (step_event hk hs)
    rw [hy, ht, List.append_nil, List.nil_append]
    exact (h.inv.view_step _ [] (fun p hp => HolderPc.inHand_of_isEntry hp) hk hs).symm
  | true =>
    obtain ⟨p, hp, ⟨-, hs⟩ | ⟨q, hq, hs⟩⟩ := step_holder hk hs
    · rw [inHand_of_mutex hp]
      refine (holderStep_inHand hs d).resolve_left fun hm => ?_
      exact h.inv'.holder hm
    · rw [inHand_of_mutex hp]
      refine holderCall_inHand hp hs d ?_
      rintro b rfl rfl
      simp [Transition.forgets, hq, hp] at hf

theorem Abs.yielded_apply (he : ¬ e.Starts d) :
    ((a.apply e).drained d).yielded = (a.drained d).yielded ++ e.takes d := by
  cases e
  case remove x s =>
    simp only [apply, DrainLog.leave, Event.takes]
    split <;> simp
  case drain d' s =>
    have hd : d ≠ d' := by
      rintro rfl
      exact he (.inl ⟨s, rfl⟩)
    simp [apply, Event.takes, hd]
  case drainEmpty d' =>
    have hd : d ≠ d' := by
      rintro rfl
      exact he (.inr rfl)
    simp [apply, Event.takes, hd]
  case drainRemove d' x flush =>
    by_cases hd : d = d'
    · subst hd
      cases flush <;> simp [apply, DrainLog.remove, Event.takes]
    · cases flush <;> simp [apply, Event.takes, hd, Ne.symm hd]
  all_goals simp [apply, Event.takes]

/-- The nodes that `next` has returned in the steps `us`. -/
def yields (d : DrainId) (us : List (Transition S T)) : List NodeId :=
  us.flatMap fun t => t.event.yields d

section Runs

variable [DecidableEq S] [QueueState S] {q : List NodeId} {us : List (Transition S T)}

/-- What is known of a `Drain` after the steps `us` that followed its creation. -/
structure DrainRun (a : Abs S) (d : DrainId) (q : List NodeId) (us : List (Transition S T))
    (c : State S T) : Prop where
  created : c.drains d ≠ .none
  flush : FlushOk c (a.run us) d
  exact : ((a.run us).drained d).Exact q

/-- The state right after `Drain::new`. -/
theorem Sound.drainRun {t : Transition S T} (h : Sound cfg a t) (he : t.event.Starts d) :
    DrainRun (a.apply t.event) d a.queue [] t.dst := by
  have hlog := Abs.drained_starts h.allows he
  have hheld : t.dst.drains d = .held := (h.inv'.held d).2 (by simp [(h.starts he).2, HolderPc.drainId])
  refine ⟨by simp [hheld], fun hf => ?_, ?_⟩
  · simp [hlog, DrainLog.start] at hf
  · rw [Abs.run_nil, hlog]
    exact DrainLog.exact_start (h.inv.shape.nodup .queue).of_map

theorem DrainRun.run (h : Exec cfg c us c') (hc : ∀ t ∈ us, t.Clean) (hi : Inv cfg c a)
    (hd : DrainRun a d q [] c) : DrainRun a d q us c' := by
  refine Exec.induct (P := fun us c => DrainRun a d q us c) h hc hi hd ?_
  rintro us t - hs ⟨hcr, hfl, hex⟩
  exact ⟨hs.drains_ne_none hcr, by simpa using hs.flushOk hcr hfl, by simpa using hs.exact hcr hfl hex⟩

/-- What `next` has returned was removed when its `NodeDrained` was dropped, but for the one in the
user's hand. -/
theorem Exec.yields_eq (h : Exec cfg c us c') (hc : ∀ t ∈ us, t.Clean) (hi : Inv cfg c a)
    (hd : c.drains d ≠ .none) (hy : (a.drained d).yielded = []) (hm : c.inHand d = [])
    (hf : ∀ t ∈ us, t.forgets d = false) :
    yields d us = ((a.run us).drained d).yielded ++ c'.inHand d := by
  refine And.right (Exec.induct (P := fun us c => c.drains d ≠ .none ∧
    yields d us = ((a.run us).drained d).yielded ++ c.inHand d) h hc hi ⟨hd, ?_⟩ ?_)
  · simp [yields, hy, hm]
  · rintro us t ht hs ⟨hd, hy⟩
    refine ⟨hs.drains_ne_none hd, ?_⟩
    have hstep := hs.inHand (hf t ht)
    have happ : yields d (us ++ [t]) = yields d us ++ t.event.yields d := by simp [yields]
    rw [happ, hy, Abs.run_append, Abs.run_cons, Abs.run_nil, Abs.yielded_apply (hs.not_starts hd),
      List.append_assoc, List.append_assoc, hstep]

/-- A drained node is in the list of its `Drain` until it is removed, and marked from then on until its
owner resets it. -/
theorem Sound.drained_marked {t : Transition S T} (h : Sound cfg a t) (hd : t.src.drains d ≠ .none)
    (hr : t.event ≠ .reset x ∧ t.event ≠ .create x)
    (hx : x ∈ (a.drained d).rest ∨ Marked t.src x) :
    x ∈ ((a.apply t.event).drained d).rest ∨ Marked t.dst x := by
  rcases hx with hx | hx
  · rcases Abs.drained_apply (a := a) (h.not_starts hd) with he | ⟨y, s, hev, he⟩ |
      ⟨y, flush, hev, he⟩
    · exact .inl (he ▸ hx)
    · by_cases hy : x = y
      · exact .inr (.inl (h.leaving_of_removes (.inl ⟨s, hy ▸ hev⟩)))
      · rw [he, DrainLog.rest_leave]
        exact .inl ((List.mem_erase_of_ne hy).2 hx)
    · by_cases hy : x = y
      · exact .inr (.inl (h.leaving_of_removes (.inr ⟨d, flush, hy ▸ hev⟩)))
      · rw [he, DrainLog.rest_remove]
        exact .inl ((List.mem_erase_of_ne hy).2 hx)
  · exact .inr (h.marked hr.1 hr.2 hx)

theorem Exec.drained_marked (h : Exec cfg c us c') (hc : ∀ t ∈ us, t.Clean) (hi : Inv cfg c a)
    (hd : c.drains d ≠ .none) (hx : x ∈ (a.drained d).rest)
    (hr : ∀ t ∈ us, t.event ≠ .reset x ∧ t.event ≠ .create x) :
    x ∈ ((a.run us).drained d).rest ∨ Marked c' x := by
  refine And.right (Exec.induct (P := fun us c => c.drains d ≠ .none ∧
    (x ∈ ((a.run us).drained d).rest ∨ Marked c x)) h hc hi ⟨hd, .inl hx⟩ ?_)
  rintro us t ht hs ⟨hd, hx⟩
  refine ⟨hs.drains_ne_none hd, ?_⟩
  rw [Abs.run_append]
  exact hs.drained_marked hd (hr t ht) hx

end Runs

end Aiq
