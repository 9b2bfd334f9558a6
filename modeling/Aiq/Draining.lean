import Aiq.Drain.SelfRemoval

/-!
# Draining is atomic and exact

A `Drain` that is iterated to its end yields the nodes that were in the queue at its tail swap and did
not remove themselves first, in the order of the queue; one that is dropped early has yielded the first
of them. When it has no more nodes, all of them are marked as dequeued (`drain_exact`).
-/

namespace Aiq

variable {S T : Type} {cfg : Config} {c c' : State S T} {a : Abs S} {e : Event S} {d : DrainId}
  {x : NodeId}

/-! ## The node in hand -/

/-- The node in the user's hand is the first one that is left. -/
theorem Inv.inHand_prefix (h : Inv cfg c a) : c.inHand d <+: (a.drained d).rest := by
  cases hp : c.mutex with
  | none => simp [State.inHand, hp]
  | some p =>
    rw [inHand_of_mutex hp]
    have hk := h.holder hp
    have key : ∀ {d' y}, p.drainId = some d' → (c.ch a (.drain d')).head? = some (.node y) →
        (if d' = d then [y] else []) <+: (a.drained d).rest := fun {d' y} hid hy => by
      split
      · rename_i hd
        subst hd
        rw [ch_drain_of_lk (h.lk_held hp hid), List.head?_map] at hy
        obtain ⟨z, hz, e⟩ := Option.map_eq_some_iff.1 hy
        obtain rfl := Addr.node.inj e
        rw [List.eq_cons_of_mem_head? hz]
        exact ⟨_, rfl⟩
      · exact List.nil_prefix
    unfold HolderPc.inHand
    split
    · exact key rfl hk
    · exact key rfl (hk.resolve_right (by simp))
    · obtain ⟨⟨i, y, -, -, rfl, hb, -⟩, -⟩ := hk
      exact key rfl hb
    · rename_i d' y v
      rcases hk with ⟨z, l, hz, e, -⟩ | ⟨hf, -⟩
      · obtain rfl := Addr.node.inj e
        split
        · rename_i hd
          subst hd
          rw [hz]
          exact ⟨_, rfl⟩
        · exact List.nil_prefix
      · simp at hf
    · exact List.nil_prefix

/-- `Drain::drop` has not begun while the user has a node in hand. -/
theorem FlushOk.eq_nil (h : FlushOk c a d) (hi : Inv cfg c a) (hh : c.inHand d ≠ []) :
    (a.drained d).flushed = [] := by
  cases hp : c.mutex with
  | none => simp [State.inHand, hp] at hh
  | some p =>
    rw [inHand_of_mutex hp] at hh
    have hid : p.drainId = some d ∧ p.flushing = none := by
      unfold HolderPc.inHand at hh
      split at hh
      case h_5 => simp at hh
      all_goals
        obtain rfl : _ = d := by simpa using hh
        exact ⟨rfl, rfl⟩
    by_contra hne
    rcases h hne with hg | hg
    · rw [(hi.held d).2 (by simp [hp, hid.1])] at hg
      simp at hg
    · simp [hp, hid.2] at hg

/-- What was yielded is the beginning of the nodes that did not remove themselves. -/
theorem DrainLog.Exact.isPrefix {g : DrainLog} {q l : List NodeId} (h : g.Exact q)
    (hl : l <+: g.rest) (hf : l ≠ [] → g.flushed = []) :
    g.yielded ++ l <+: q.filter (· ∉ g.left) := by
  rw [← h.parts]
  by_cases he : l = []
  · subst he
    simp [List.append_assoc]
  · rw [hf he, List.append_nil]
    exact (List.prefix_append_right_inj _).2 hl

/-! ## The end of a `Drain` -/

theorem holderStep_end [DecidableEq S] [QueueState S] {p : HolderPc S}
    (hs : holderStep cfg c p = some (c', e)) :
    e ≠ .next d none ∧ (e = .dropDrain d → c'.mutex = none ∧ c'.drains d = .gone) := by
  have key := drains_setDrain_apply (S := S) (T := T) d
  unfold holderStep getStep GetCont.event at hs
  repeat' split at hs
  all_goals grind [State.mutex_free, State.drains_free]

theorem holderCall_end [QueueState S] {p : HolderPc S} {k : HolderCall S T} (hp : c.mutex = some p)
    (hs : holderCall c p k = some (c', e)) :
    (e = .next d none → c'.mutex = some (.drain d)) ∧ e ≠ .dropDrain d := by
  unfold holderCall guardCall drainLockedCall at hs
  repeat' split at hs
  all_goals grind

/-- Without its lock a `Drain` is dropped on the unwinding path only. -/
theorem step_dropDrain [DecidableEq S] [QueueState S] {k : Act S T} (hk : k.isHolder = false)
    (hs : step cfg c k = some (c', .dropDrain d)) :
    (∃ l, c.drains d = .loose l) ∧ c'.drains d = .gone := by
  have key := drains_setDrain_apply (S := S) (T := T) d
  cases k <;> simp only [step] at hs
  case lock => grind
  case holder => simp [Act.isHolder] at hk
  case holderCall => simp [Act.isHolder] at hk
  case owner x weak =>
    unfold ownerStep at hs
    grind
  case ownerCall x k =>
    unfold ownerCall at hs
    grind
  case thread t weak =>
    unfold threadStep Attempt.test Attempt.err Attempt.ok at hs
    repeat' split at hs
    all_goals grind
  case threadCall t k =>
    unfold threadCall Attempt.test Attempt.err at hs
    grind
  case drain d' k =>
    unfold drainStep at hs
    grind

/-- `next` returns `None`, or the `Drain` is dropped. -/
def Event.Ends (e : Event S) (d : DrainId) : Prop := e = .next d none ∨ e = .dropDrain d

/-- A `Drain` that holds its lock and has no node left has yielded all that it had to. -/
theorem DrainRun.yielded_eq {q : List NodeId} {us : List (Transition S T)}
    (h : DrainRun a d q us c) (hi : Inv cfg c (a.run us)) (hm : c.mutex = some (.drain d))
    (hr : ((a.run us).drained d).rest = []) :
    ((a.run us).drained d).yielded = q.filter (· ∉ ((a.run us).drained d).left) := by
  have hheld : c.drains d = .held := (hi.held d).2 (by simp [hm, HolderPc.drainId])
  have hfl : ((a.run us).drained d).flushed = [] := by
    by_contra hne
    rcases h.flush hne with hg | hg
    · simp [hheld] at hg
    · simp [hm, HolderPc.flushing] at hg
  rw [← h.exact.parts, hfl, hr, List.append_nil, List.append_nil]

section End

variable [DecidableEq S] [QueueState S] {t : Transition S T}

theorem Sound.mutex_next (h : Sound cfg a t) (he : t.event = .next d none) :
    t.dst.mutex = some (.drain d) := by
  cases hk : t.act.isHolder with
  | false =>
    have hev := step_event hk h.step
    simp [he, Event.byHolder] at hev
  | true =>
    obtain ⟨p, hp, ⟨-, hs⟩ | ⟨q, -, hs⟩⟩ := step_holder hk h.step
    · exact absurd he (holderStep_end hs).1
    · exact (holderCall_end hp hs).1 he

theorem Sound.mutex_dropDrain (h : Sound cfg a t) (hl : ∀ l, t.src.drains d ≠ .loose l)
    (he : t.event = .dropDrain d) : t.dst.mutex = none := by
  have hs := h.step
  rw [he] at hs
  cases hk : t.act.isHolder with
  | false =>
    obtain ⟨⟨l, hd⟩, -⟩ := step_dropDrain hk hs
    exact absurd hd (hl l)
  | true =>
    obtain ⟨p, hp, ⟨-, hs⟩ | ⟨q, -, hs⟩⟩ := step_holder hk hs
    · exact ((holderStep_end hs).2 rfl).1
    · exact absurd rfl (holderCall_end hp hs).2

/-- A `Drain` that is at its end has no node left. -/
theorem Sound.rest_of_ends (h : Sound cfg a t) (he : t.event.Ends d) :
    (a.drained d).rest = [] ∧ ((a.apply t.event).drained d).rest = [] := by
  have ha := h.allows
  rcases he with he | he <;> rw [he] at ha ⊢
  · have hr : (a.drained d).rest = [] := by simpa [Abs.Allows] using ha
    exact ⟨hr, hr⟩
  · exact ⟨ha, ha⟩

variable {us : List (Transition S T)}

/-- The nodes of a `Drain` that is at its end are marked, but for those that were reset since. -/
theorem Exec.dequeued_of_ends (h : Exec cfg c (us ++ [t]) c') (hc : ∀ u ∈ us ++ [t], u.Clean)
    (hi : Inv cfg c a) (hd : c.drains d ≠ .none) (hl : ∀ l, t.src.drains d ≠ .loose l)
    (he : t.event.Ends d) (hx : x ∈ (a.drained d).rest)
    (hr : ∀ u ∈ us ++ [t], u.event ≠ .reset x ∧ u.event ≠ .create x) :
    c'.mem.rawState x = .dequeued := by
  obtain ⟨-, hs, h'⟩ := Exec.at_step h hc hi
  obtain rfl := h'.nil_inv
  have hlv : t.dst.leaving = none := by
    rcases he with he | he
    · simp [State.leaving, hs.mutex_next he, HolderPc.leaving]
    · simp [State.leaving, hs.mutex_dropDrain hl he]
  rcases Exec.drained_marked h hc hi hd hx hr with hx | hx | ⟨hx, -⟩
  · simp [(hs.rest_of_ends he).2] at hx
  · simp [hlv] at hx
  · simp [Mem.rawState, hx, Ptr.state]

end End

/-! ## The claim on whole executions -/

/-- What a `Drain` does in the steps `us` after its creation `t`, in a queue that represented `a`. -/
structure ExactDrain (a : Abs S) (d : DrainId) (t : Transition S T) (us : List (Transition S T))
    (c : State S T) : Prop where
  /-- The nodes of the queue at the tail swap. -/
  swap : t.src.mem.tail = a.tail
  /-- They are yielded once each. -/
  nodup : a.queue.Nodup
  /-- The nodes yielded are the first of those that do not remove themselves, -/
  isPrefix : ∃ left : List NodeId, (∀ x, x ∈ left ↔ SelfRemoved (a.apply t.event) d us x) ∧
    yields d us <+: a.queue.filter (· ∉ left) ∧
    -- and all of them when `next` has returned `None`.
    ∀ us' u, us = us' ++ [u] → u.event = .next d none → yields d us = a.queue.filter (· ∉ left)
  /-- At the end of the `Drain` they are dequeued. -/
  dequeued : ∀ us' u, us = us' ++ [u] → u.event.Ends d → ∀ x ∈ a.queue,
    (∀ w ∈ us, w.event ≠ .reset x ∧ w.event ≠ .create x) → c.mem.rawState x = .dequeued
  /-- A node that removes itself changes nothing but the list of its `Drain`. -/
  selfRemovals : SelfRemovalsLocal (a.apply t.event) d us

variable [DecidableEq S] [QueueState S] {s : S} {v : T} {ts us : List (Transition S T)}
  {t : Transition S T}

/-- **Draining is atomic and exact.** In an execution without unwinding closures, a `Drain` whose
`NodeDrained`s are all dropped yields nodes of the queue at its tail swap only, those that do not
remove themselves first, once each and in the order of the queue; it has yielded all of them when
`next` returns `None`, and all are dequeued then or when it is dropped. The nodes that remove
themselves change nothing else. -/
theorem drain_exact (h : Exec cfg (.init s v) (ts ++ t :: us) c)
    (hc : ∀ u ∈ ts ++ t :: us, u.Calm) (hd : t.event.Starts d) (hf : ∀ u ∈ us, u.forgets d = false) :
    ExactDrain ((Abs.init s).run ts) d t us c := by
  have hclean := Exec.clean h hc
  have hclean₁ : ∀ u ∈ ts, u.Clean := fun u hu => hclean u (by simp [hu])
  have hclean₂ : ∀ u ∈ us, u.Clean := fun u hu => hclean u (by simp [hu])
  obtain ⟨h₁, hs, h₂⟩ := Exec.at_step h hclean (Inv.init cfg s v)
  set a := (Abs.init s).run ts
  have hlog := Abs.drained_starts hs.allows hd
  have hrun := hs.drainRun hd
  have hmutex := (hs.starts hd).2
  have hok := hs.handleOk (Exec.handleOk h₁ hclean₁)
  have hi := Exec.inv_run h₂ hclean₂ hs.inv'
  have hrun' := hrun.run h₂ hclean₂ hs.inv'
  have hy := Exec.yields_eq h₂ hclean₂ hs.inv' hrun.created (by rw [hlog]; rfl)
    (by simp [inHand_of_mutex hmutex, HolderPc.inHand]) hf
  refine ⟨hs.inv.tail, hrun'.exact.nodup, ⟨_, Exec.mem_left_iff h₂ hclean₂ hs.inv' hok hrun.created
    (by rw [hlog]; rfl), ?_, ?_⟩, ?_, Exec.selfRemovalsLocal h₂ hclean₂ hs.inv'⟩
  · rw [hy]
    exact hrun'.exact.isPrefix hi.inHand_prefix fun hne => hrun'.flush.eq_nil hi hne
  · rintro us' u rfl he
    obtain ⟨-, hs', h'⟩ := Exec.at_step h₂ hclean₂ hs.inv'
    obtain rfl := h'.nil_inv
    have hm := hs'.mutex_next he
    have hrest : (((a.apply t.event).run (us' ++ [u])).drained d).rest = [] := by
      rw [Abs.run_append]
      exact (hs'.rest_of_ends (.inl he)).2
    rw [hy, inHand_of_mutex hm, ← hrun'.yielded_eq hi hm hrest]
    simp [HolderPc.inHand]
  · rintro us' u rfl he x hx hr
    obtain ⟨h₃, -, -⟩ := Exec.at_step h₂ hclean₂ hs.inv'
    refine Exec.dequeued_of_ends h₂ hclean₂ hs.inv' hrun.created ?_ he (by rw [hlog]; exact hx) hr
    have h₄ : Exec cfg (.init s v) (ts ++ t :: us') u.src :=
      Lts.Run.append h₁ (Lts.Run.cons ⟨rfl, rfl, hs.step⟩ h₃)
    exact Exec.not_loose h₄ (fun w hw => hc w (by
      simp only [List.mem_append, List.mem_cons] at hw ⊢
      tauto)) d

/-- Three nodes are drained; the second one removes itself while the lock is released. -/
def drainOfThree : List (Act ℕ Unit) :=
  insertActs 0 () ++ insertActs 1 () ++ insertActs 2 () ++
    [.owner 0 false, .owner 1 false, .owner 2 false, .lock, .holderCall (.drain 0 5), .holder,
      .holder, .holder, .holderCall .next, .holderCall .drop, .holder, .holder, .holder, .holder,
      .holderCall .executeUnlocked, .holder, .holder, .holder, .holder, .ownerCall 1 .state,
      .owner 1 false, .holder, .holderCall .dequeueSelf, .holder, .holder, .holder, .holder,
      .holder, .holderCall .unlock, .drain 0 .return, .drain 0 .lock, .holder, .holderCall .next,
      .holderCall .drop, .holder, .holder, .holder, .holderCall .next]

theorem drain_exact_drainOfThree :
    ∃ (ts us : List (Transition ℕ Unit)) (t : Transition ℕ Unit) (c : State ℕ Unit),
      Exec ⟨.x86, 0⟩ (.init 7 ()) (ts ++ t :: us) c ∧ t.event = .drain 0 5 ∧
      ((Abs.init 7).run ts).queue = [0, 1, 2] ∧ yields 0 us = [0, 2] ∧
      ExactDrain ((Abs.init 7).run ts) 0 t us c := by
  have h : (perform ⟨.x86, 0⟩ (.init 7 ()) drainOfThree).isSome := by decide +kernel
  have hcalm : ∀ u ∈ trace ⟨.x86, 0⟩ (.init 7 ()) drainOfThree, u.Calm := by decide +kernel
  have hne : (trace ⟨.x86, 0⟩ (.init 7 ()) drainOfThree).drop 25 ≠ [] :=
    List.ne_nil_of_length_pos (by decide +kernel)
  have hr := exec_trace h
  rw [← List.take_append_drop 25 (trace _ _ _), ← List.cons_head_tail hne] at hr hcalm
  exact ⟨_, _, _, _, hr, rfl, by decide +kernel, by decide +kernel,
    drain_exact hr hcalm (.inl ⟨5, rfl⟩) (by decide +kernel)⟩

end Aiq
