import Aiq.LifeCycle

/-!
# `try_enqueue_with_queue_state`

The CAS loop of `enqueue` stores the `prev` word of the node before each attempt and calls
`match_state` on the tail of each attempt. A call that succeeds has replaced a tail that `match_state`
accepted in the same iteration. A call that does not insert the node has written nothing but the
node's `prev` word; that word is cleared when `match_state` refuses, and has not been written when
`match_state` unwinds at its first call. When it unwinds at a later call the word of the iteration
before stays, and the node looks as if it were queued: the call is all-or-nothing exactly when this
does not happen (`tryEnqueue_allOrNothing_iff`).
-/

namespace Aiq

variable {S T : Type} {cfg : Config} {c c' : State S T} {a : Abs S} {e : Event S} {x : NodeId}
  {f : MatchState S}

/-! ## A node in the CAS loop belongs to its owner -/

/-- The operation of the owner goes on under the lock. -/
theorem Inv.locked_of_actor (h : Inv cfg c a) {p : HolderPc S} (hp : c.mutex = some p)
    (ha : p.actor = some x) : c.own x = .locked := by
  have hk := h.holder hp
  have key : ∀ {r : Removal S}, (if r.caller = .handle then none else some r.node) = some x →
      OwnerWaits c r → c.own x = .locked := fun {r} hr hw => by
    split at hr
    · simp at hr
    · obtain rfl := Option.some.inj hr
      exact hw ‹_›
  cases p <;> simp only [HolderPc.actor, reduceCtorEq] at ha
  case get l g k =>
    obtain ⟨⟨i, y, -, -, hk⟩, -⟩ := hk
    cases k <;> simp only [reduceCtorEq] at ha
    case waitEnqueued r => exact key ha hk.2.waits
    case relink r => exact key ha hk.2.1.waits
  case rmPrev y s w k =>
    split at ha
    · simp at ha
    · obtain rfl := Option.some.inj ha
      exact hk.2.2 ‹_›
  case rmNext r =>
    obtain ⟨⟨i, hr⟩, -⟩ := hk
    exact key ha hr.waits
  case rmClear r =>
    obtain ⟨⟨i, hr⟩, -⟩ := hk
    exact key ha hr.waits
  case rmCas r =>
    obtain ⟨⟨i, hr⟩, -⟩ := hk
    exact key ha hr.waits
  case rmSetPrev r b =>
    obtain ⟨⟨i, hr, -⟩, -⟩ := hk
    exact key ha hr.waits
  case rmSetNext r b => exact key ha hk.2.2.2.1
  case rmDone r b => exact key ha hk.2
  case recheck y => exact Option.some.inj ha ▸ hk
  case dropRecheck y => exact Option.some.inj ha ▸ hk
  case queued y => exact Option.some.inj ha ▸ hk.1
  case release k =>
    cases k <;> simp only [reduceCtorEq, Option.some.injEq] at ha
    case state y => exact ha ▸ hk.1
    case node y => exact ha ▸ hk.1

theorem holderStep_own_or [DecidableEq S] [QueueState S] {p : HolderPc S}
    (hs : holderStep cfg c p = some (c', e)) (x : NodeId) :
    c'.own x = c.own x ∨ p.actor = some x := by
  have key := own_setOwn_apply (S := S) (T := T) x
  unfold holderStep getStep Removal.return Release.apply at hs
  unfold HolderPc.actor
  repeat' split at hs
  all_goals grind [State.own_hold, State.own_free, State.own_withMem, State.own_setDrain,
    State.own_setUpd]

theorem holderCall_own_or [QueueState S] {p : HolderPc S} {k : HolderCall S T}
    (hs : holderCall c p k = some (c', e)) (x : NodeId) :
    c'.own x = c.own x ∨ p.actor = some x := by
  have key := own_setOwn_apply (S := S) (T := T) x
  unfold holderCall guardCall drainLockedCall at hs
  unfold HolderPc.actor
  repeat' split at hs
  all_goals grind [State.own_hold, State.own_free, State.own_withMem, State.own_setDrain]

section Loop

variable [DecidableEq S] [QueueState S] {t : Transition S T}

/-- Inside the CAS loop there is no other call of the owner. -/
theorem Sound.ne_ownerCall (h : Sound cfg a t) (hl : (t.src.own x).inLoop = true)
    (q : OwnerCall S T) : t.act ≠ .ownerCall x q := by
  intro hk
  have hs := h.step
  rw [hk] at hs
  cases ho : t.src.own x <;> rw [ho] at hl <;> simp only [OwnPc.inLoop, reduceCtorEq] at hl <;>
    simp [Aiq.step, ownerCall, ho] at hs

theorem Sound.actor_ne (h : Sound cfg a t) (hl : (t.src.own x).inLoop = true) {p : HolderPc S}
    (hp : t.src.mutex = some p) : p.actor ≠ some x := fun ha => by
  rw [h.inv.locked_of_actor hp ha] at hl
  simp [OwnPc.inLoop] at hl

theorem Sound.not_byOwner (h : Sound cfg a t) (hl : (t.src.own x).inLoop = true)
    (hk : ∀ w, t.act ≠ .owner x w) : ¬ t.act.ByOwner t.src x := fun ho => by
  cases ha : t.act <;> simp only [ha, Act.ByOwner, Option.bind_eq_some_iff] at ho
  case owner y w => exact hk w (by rw [ha, ho])
  case ownerCall y q => exact h.ne_ownerCall hl q (by rw [ha, ho])
  all_goals
    obtain ⟨p, hp, ho⟩ := ho
    exact h.actor_ne hl hp ho

/-- The steps of the others leave a node in the CAS loop alone. -/
theorem Sound.loop_foreign (h : Sound cfg a t) (hl : (t.src.own x).inLoop = true)
    (hk : ∀ w, t.act ≠ .owner x w) :
    t.dst.own x = t.src.own x ∧ SameWords t.src.mem t.dst.mem (.node x) := by
  have hcl : (t.src.own x).claims = true := by
    cases ho : t.src.own x <;> rw [ho] at hl <;> simp [OwnPc.inLoop] at hl <;> rfl
  refine ⟨?_, step_frame h.step fun hacc =>
    h.not_byOwner hl hk (h.inv.byOwner_of_out (h.inv.out_of_claims hcl) hacc)⟩
  cases hh : t.act.isHolder with
  | false =>
    rcases step_own hh h.step x with e | ⟨w, e⟩ | ⟨q, e⟩
    · exact e
    · exact absurd e (hk w)
    · exact absurd e (h.ne_ownerCall hl q)
  | true =>
    obtain ⟨p, hp, ⟨-, hs⟩ | ⟨q, -, hs⟩⟩ := step_holder hh h.step
    · exact (holderStep_own_or hs x).resolve_right (h.actor_ne hl hp)
    · exact (holderCall_own_or hs x).resolve_right (h.actor_ne hl hp)

end Loop

/-! ## The steps of the loop -/

/-- The owner is inside the CAS loop, with the closure `f`. -/
def OwnPc.LoopsWith (f : MatchState S) : OwnPc S → Prop
  | .check g _ _ | .store g _ _ | .cas g _ _ => g = f
  | .refuse => True
  | _ => False

theorem OwnPc.LoopsWith.inLoop {o : OwnPc S} (h : o.LoopsWith f) : o.inLoop = true := by
  cases o <;> first | rfl | exact h.elim

/-- The step writes nothing but the `prev` word of `x`. -/
def Transition.WritesPrev (t : Transition S T) (x : NodeId) : Prop :=
  t.dst.mem = t.src.mem ∨ ∃ p, t.dst.mem = t.src.mem.setPrev (.node x) p

/-- A call of `enqueue` on `x` exits. -/
def Event.Exits (e : Event S) (x : NodeId) : Prop := e = .enqueue x ∨ e = .refused x ∨ e = .unwound x

/-- How the CAS loop goes on or exits. -/
inductive LoopStep (t : Transition S T) (x : NodeId) (f : MatchState S) : Prop
  | goesOn (event : t.event = .tau) (own : (t.dst.own x).LoopsWith f) (mem : t.WritesPrev x)
  | inserts (i : ℕ) (event : t.event = .enqueue x) (own : t.src.own x = .cas f i t.src.mem.tail)
      (tail : t.dst.mem.tail = .ptr (.node x))
  | refuses (event : t.event = .refused x) (own : t.src.own x = .refuse)
      (mem : t.dst.mem = t.src.mem.setPrev (.node x) .null)
  | unwinds (i : ℕ) (tl : StateOrPtr S) (event : t.event = .unwound x)
      (own : t.src.own x = .check f i tl) (verdict : f i tl.state? = .unwind)
      (mem : t.dst.mem = t.src.mem)

theorem ownerStep_loop [DecidableEq S] {t : Transition S T} {w : Bool}
    (hs : ownerStep cfg t.src x w = some (t.dst, t.event)) (hl : (t.src.own x).LoopsWith f) :
    LoopStep t x f := by
  obtain ⟨c, k, e, c'⟩ := t
  simp only at hs hl
  unfold ownerStep at hs
  cases ho : c.own x <;> rw [ho] at hl <;> simp only [OwnPc.LoopsWith] at hl <;>
    simp only [ho, Option.some.injEq, Prod.mk.injEq] at hs
  case check g i tl =>
    subst hl
    cases hv : g i tl.state? <;> simp only [hv, Option.some.injEq, Prod.mk.injEq] at hs <;>
      obtain ⟨rfl, rfl⟩ := hs
    · exact .goesOn rfl (by simp [OwnPc.LoopsWith]) (.inl rfl)
    · exact .goesOn rfl (by simp [OwnPc.LoopsWith]) (.inl rfl)
    · exact .unwinds i tl rfl ho hv rfl
  case refuse =>
    obtain ⟨rfl, rfl⟩ := hs
    exact .refuses rfl ho rfl
  case store g i tl =>
    obtain ⟨rfl, rfl⟩ := hs
    exact .goesOn rfl (by simp [OwnPc.LoopsWith, hl]) (.inr ⟨_, rfl⟩)
  case cas g i tl =>
    subst hl
    split at hs <;> simp only [Option.some.injEq, Prod.mk.injEq] at hs <;> obtain ⟨rfl, rfl⟩ := hs
    · rename_i ht
      exact .inserts i rfl (by simp only [ho, ht.1]) rfl
    · exact .goesOn rfl (by simp [OwnPc.LoopsWith]) (.inl rfl)

/-- The calls of `enqueue` exit in steps of the owner. -/
theorem step_exits [DecidableEq S] [QueueState S] {k : Act S T} (hs : step cfg c k = some (c', e))
    (he : e.Exits x) : ∃ w, k = .owner x w := by
  unfold Event.Exits at he
  cases k <;> simp only [step] at hs
  case lock => grind
  case holder =>
    split at hs
    · simp at hs
    · unfold holderStep getStep GetCont.event at hs
      repeat' split at hs
      all_goals grind
  case holderCall =>
    split at hs
    · simp at hs
    · unfold holderCall guardCall drainLockedCall at hs
      grind
  case owner y weak =>
    have hy : y = x := by
      unfold ownerStep at hs
      grind
    exact ⟨weak, by rw [hy]⟩
  case ownerCall y k =>
    unfold ownerCall at hs
    grind
  case thread t weak =>
    unfold threadStep Attempt.test Attempt.err Attempt.ok at hs
    repeat' split at hs
    all_goals grind
  case threadCall t k =>
    unfold threadCall Attempt.test Attempt.err at hs
    grind
  case drain d' k =>
    unfold drainStep at hs
    grind

/-- At a call of `match_state` after the first, the `prev` word of the iteration before is stored. -/
def LateOk (c : State S T) (x : NodeId) : Prop :=
  ∀ f i tl, c.own x = .check f i tl → 0 < i → c.mem.rawState x = .queued

theorem ownerStep_check [DecidableEq S] {w : Bool} (hs : ownerStep cfg c x w = some (c', e))
    {i : ℕ} {tl : StateOrPtr S} (ho : c'.own x = .check f i tl) :
    c'.mem = c.mem ∧ ∃ g j tl', c.own x = .cas g j tl' := by
  have key := own_setOwn_apply (S := S) (T := T) x
  unfold ownerStep linkStep at hs
  grind [State.own_hold, State.own_withMem, State.mem_setOwn]

theorem ownerCall_check {q : OwnerCall S T} (hs : ownerCall c x q = some (c', e))
    {i : ℕ} {tl : StateOrPtr S} (ho : c'.own x = .check f i tl) : i = 0 ∨ c.own x = c'.own x := by
  have key := own_setOwn_apply (S := S) (T := T) x
  unfold ownerCall at hs
  grind [State.own_hold, State.own_withMem, State.mem_setOwn]

theorem Sound.lateOk [DecidableEq S] [QueueState S] {t : Transition S T} (h : Sound cfg a t)
    (hl : LateOk t.src x) : LateOk t.dst x := by
  intro f i tl ho hi
  by_cases hk : ∃ w, t.act = .owner x w
  · obtain ⟨w, hk⟩ := hk
    have hs := h.step
    rw [hk] at hs
    obtain ⟨hm, g, j, tl', hc⟩ := ownerStep_check hs ho
    have hok := h.inv.own x
    rw [hc] at hok
    rw [hm, Mem.rawState, hok.2.2.1]
    cases tl' <;> rfl
  · have hne : ∀ w, t.act ≠ .owner x w := fun w e => hk ⟨w, e⟩
    cases hin : (t.src.own x).inLoop with
    | true =>
      obtain ⟨ho', hw⟩ := h.loop_foreign hin hne
      rw [Mem.rawState, hw.1]
      exact hl f i tl (ho'.symm.trans ho) hi
    | false =>
      exfalso
      have hsame : t.dst.own x ≠ t.src.own x := fun e => by
        rw [← e, ho] at hin
        simp [OwnPc.inLoop] at hin
      cases hh : t.act.isHolder with
      | false =>
        rcases step_own hh h.step x with e | ⟨w, e⟩ | ⟨q, e⟩
        · exact hsame e
        · exact hne w e
        · have hs := h.step
          rw [e] at hs
          rcases ownerCall_check hs ho with rfl | e
          · exact absurd hi (lt_irrefl 0)
          · exact hsame e.symm
      | true =>
        obtain ⟨p, hp, ⟨-, hs⟩ | ⟨q, -, hs⟩⟩ := step_holder hh h.step
        · rcases holderStep_own hs x with e | e | e | e
          · exact hsame e
          all_goals simp [e] at ho
        · rcases holderCall_own hs x with e | e
          · exact hsame e
          · simp [e] at ho

/-! ## Calls -/

/-- The steps `us` from `c` begin with a call of `enqueue` with the closure `f` on `x`, and the call
exits in the step `t` that follows them. -/
structure EnqueueCall [DecidableEq S] [QueueState S] (cfg : Config) (c : State S T) (x : NodeId)
    (f : MatchState S) (us : List (Transition S T)) (t : Transition S T) : Prop where
  exec : Exec cfg c (us ++ [t]) t.dst
  starts : ∃ u vs, us = u :: vs ∧ u.act = .ownerCall x (.enqueue f)
  exits : t.event.Exits x
  first : ∀ u ∈ us, ¬ u.event.Exits x

/-- What a call is to do. It inserts the node and replaces a tail that `match_state` has accepted in
the same iteration, or it does not insert the node: then its steps have written nothing but the `prev`
word of the node, the node is `Unqueued` again with a null `next`, and `remove` runs on it only if it
is in a list. -/
structure AllOrNothing [DecidableEq S] [QueueState S] (cfg : Config) (a : Abs S) (x : NodeId)
    (f : MatchState S) (us : List (Transition S T)) (t : Transition S T) : Prop where
  accepted : t.event = .enqueue x → ∃ i, t.src.own x = .cas f i t.src.mem.tail ∧
    f i t.src.mem.tail.state? = .accept ∧ t.dst.mem.tail = .ptr (.node x)
  untouched : t.event ≠ .enqueue x → ¬ (a.run (us ++ [t])).Member x ∧
    ∀ u ∈ us ++ [t], u.act.ByOwner u.src x → u.WritesPrev x
  unqueued : t.event ≠ .enqueue x →
    t.dst.mem.rawState x = .unqueued ∧ t.dst.mem.link (.next (.node x)) = .null
  later : t.event ≠ .enqueue x → ∀ us' c', Exec cfg t.dst us' c' → (∀ u ∈ us', u.Clean) →
    ∀ s w k, c'.mutex = some (.rmPrev x s w k) → (a.run (us ++ t :: us')).Member x

section Calls

variable [DecidableEq S] [QueueState S] {t : Transition S T} {us : List (Transition S T)}

/-- The course of a call. -/
structure InCall (x : NodeId) (f : MatchState S) (us : List (Transition S T)) (c : State S T) :
    Prop where
  loops : (c.own x).LoopsWith f
  writes : ∀ u ∈ us, u.act.ByOwner u.src x → u.WritesPrev x

theorem InCall.starts (h : Sound cfg a t) (ht : t.act = .ownerCall x (.enqueue f)) :
    InCall x f [t] t.dst := by
  have hs := h.step
  simp only [ht, Aiq.step] at hs
  unfold ownerCall at hs
  cases ho : t.src.own x <;> simp only [ho, reduceCtorEq, Option.some.injEq, Prod.mk.injEq] at hs
  obtain ⟨hd, -⟩ := hs
  refine ⟨by simp [← hd, OwnPc.LoopsWith], fun u hu _ => ?_⟩
  obtain rfl := List.mem_singleton.1 hu
  exact .inl (by simp [← hd])

theorem InCall.step (h : Sound cfg a t) (hi : InCall x f us t.src) (he : ¬ t.event.Exits x) :
    InCall x f (us ++ [t]) t.dst := by
  by_cases hk : ∃ w, t.act = .owner x w
  · obtain ⟨w, hk⟩ := hk
    have hs := h.step
    rw [hk] at hs
    cases ownerStep_loop hs hi.loops with
    | goesOn _ ho hm => exact ⟨ho, forall_mem_snoc hi.writes fun _ => hm⟩
    | inserts i hev => exact absurd (.inl hev) he
    | refuses hev => exact absurd (.inr (.inl hev)) he
    | unwinds i tl hev => exact absurd (.inr (.inr hev)) he
  · have hne : ∀ w, t.act ≠ .owner x w := fun w e => hk ⟨w, e⟩
    have hl := hi.loops.inLoop
    refine ⟨?_, forall_mem_snoc hi.writes fun ho => absurd ho (h.not_byOwner hl hne)⟩
    rw [(h.loop_foreign hl hne).1]
    exact hi.loops

/-- The state in which a call exits. -/
theorem EnqueueCall.inCall (h : EnqueueCall cfg c x f us t) (hc : ∀ u ∈ us, u.Clean)
    (hi : Inv cfg c a) : InCall x f us t.src := by
  obtain ⟨c₁, h₁, h₂⟩ := Lts.Run.split h.exec
  obtain ⟨c₂, ⟨rfl, -⟩, -⟩ := h₂.cons_inv
  obtain ⟨u, vs, rfl, hu⟩ := h.starts
  obtain ⟨hs, h₃⟩ := Exec.at_head h₁ hc hi
  refine Exec.induct (P := fun vs c => InCall x f (u :: vs) c) h₃
    (fun w hw => hc w (List.mem_cons_of_mem _ hw)) hs.inv' (InCall.starts hs hu) ?_
  intro ws w hw hs' hin
  exact InCall.step hs' hin (h.first w (List.mem_cons_of_mem _ hw))

/-- A call that exits without an insertion, and leaves the node `Unqueued`. -/
theorem AllOrNothing.of_exit (h : Sound cfg (a.run us) t) (hin : InCall x f us t.src)
    (hne : t.event ≠ .enqueue x) (hm : t.WritesPrev x)
    (hq : t.dst.mem.rawState x = .unqueued ∧ t.dst.mem.link (.next (.node x)) = .null) :
    AllOrNothing cfg a x f us t where
  accepted := fun he => absurd he hne
  untouched := fun _ => by
    refine ⟨?_, forall_mem_snoc hin.writes fun _ => hm⟩
    have hout := h.inv'.out_of_rawState (x := x) (by simp [hq.1])
    rw [Abs.run_append]
    exact (out_iff.1 hout).1
  unqueued := fun _ => hq
  later := fun _ us' c' h' hc' s w k hp => by
    obtain ⟨⟨i, hi⟩, -⟩ := (Exec.inv_run h' hc' h.inv').holder hp
    rw [Abs.run_append, Abs.run_cons]
    exact member_iff.2 ⟨i, hi⟩

variable {s : S} {v : T} {ts : List (Transition S T)}

theorem Exec.lateOk (h : Exec cfg (.init s v) ts c) (hc : ∀ t ∈ ts, t.Clean) : LateOk c x :=
  Exec.induct (P := fun _ c => LateOk c x) h hc (Inv.init cfg s v)
    (fun f i tl ho => by simp [State.init] at ho) fun _ _ _ hs hl => hs.lateOk hl

/-- **Conditional enqueue is all-or-nothing**, if and only if `match_state` does not unwind at a call
after its first one. -/
theorem tryEnqueue_allOrNothing_iff (h : Exec cfg (.init s v) ts c) (hc : ∀ u ∈ ts ++ us, u.Clean)
    (hcall : EnqueueCall cfg c x f us t) :
    AllOrNothing cfg ((Abs.init s).run ts) x f us t ↔ (t.src.own x).unwindsLate = false := by
  have hi := Exec.inv h fun u hu => hc u (List.mem_append_left _ hu)
  have hc' : ∀ u ∈ us, u.Clean := fun u hu => hc u (List.mem_append_right _ hu)
  have hin := hcall.inCall hc' hi
  obtain ⟨c₁, h₁, h₂⟩ := Lts.Run.split hcall.exec
  obtain ⟨c₂, ⟨rfl, rfl, hs⟩, -⟩ := h₂.cons_inv
  have hlate := Exec.lateOk (x := x) (Lts.Run.append h h₁) hc
  have hi' := Exec.inv_run h₁ hc' hi
  have hex := hcall.exits
  obtain ⟨w, hk⟩ := step_exits hs hex
  have hs' := hs
  rw [hk] at hs'
  have hok := hi'.own x
  constructor
  · intro hall
    by_contra hl
    cases ownerStep_loop hs' hin.loops with
    | goesOn hev => simp [Event.Exits, hev] at hex
    | inserts i _ ho => simp [ho, OwnPc.unwindsLate] at hl
    | refuses _ ho => simp [ho, OwnPc.unwindsLate] at hl
    | unwinds i tl hev ho hv hm =>
      have hpos : 0 < i := Nat.pos_of_ne_zero (by simpa [ho, OwnPc.unwindsLate, hv] using hl)
      have hq := (hall.unqueued (by simp [hev])).1
      rw [hm, hlate f i tl ho hpos] at hq
      simp at hq
  · intro hl
    have hclean : t.Clean := by simpa [Transition.Clean, hk] using hl
    obtain ⟨ha, hi''⟩ := hi'.step hclean hs
    have hsound : Sound cfg (((Abs.init s).run ts).run us) t := ⟨hs, hi', ha, hi''⟩
    cases ownerStep_loop hs' hin.loops with
    | goesOn hev => simp [Event.Exits, hev] at hex
    | inserts i hev ho ht =>
      rw [ho] at hok
      exact ⟨fun _ => ⟨i, ho, hok.2.2.2.2, ht⟩, fun hne => absurd hev hne, fun hne => absurd hev hne,
        fun hne => absurd hev hne⟩
    | refuses hev ho hm =>
      rw [ho] at hok
      refine .of_exit hsound hin (by simp [hev]) (.inr ⟨_, hm⟩) ?_
      rw [hm]
      exact ⟨by simp [Mem.rawState, Ptr.state], by simpa using hok.2.1⟩
    | unwinds i tl hev ho hv hm =>
      rw [ho] at hok
      obtain rfl : i = 0 := by simpa [ho, OwnPc.unwindsLate, hv] using hl
      refine .of_exit hsound hin (by simp [hev]) (.inl hm) ?_
      rw [hm]
      exact ⟨by simp [Mem.rawState, hok.2.2.2.2 rfl, Ptr.state], hok.2.1⟩

end Calls

/-- A new node. -/
def newNode : List (Act ℕ Unit) := [.ownerCall 0 (.create ()), .ownerCall 0 .state]

/-- A call of `enqueue` on it whose first CAS fails. -/
def retryOnce (f : MatchState ℕ) : List (Act ℕ Unit) :=
  [.ownerCall 0 (.enqueue f), .owner 0 false, .owner 0 false, .owner 0 true]

/-- The closure that accepts the first tail and refuses the second one. -/
def acceptThenRefuse : MatchState ℕ := fun i _ => if i = 0 then .accept else .refuse

theorem tryEnqueue_allOrNothing_iff_acceptThenRefuse :
    let ts := trace ⟨.x86, 0⟩ (.init 7 ()) newNode
    let c := State.after (.init 7 ()) ts
    let us := trace ⟨.x86, 0⟩ c (retryOnce acceptThenRefuse ++ [.owner 0 false])
    let t := Transition.of ⟨.x86, 0⟩ (c.after us) (.owner 0 false) (.refused 0)
    EnqueueCall ⟨.x86, 0⟩ c 0 acceptThenRefuse us t ∧ (t.src.own 0).unwindsLate = false ∧
      AllOrNothing ⟨.x86, 0⟩ ((Abs.init 7).run ts) 0 acceptThenRefuse us t := by
  intro ts c us t
  have h₁ : (perform ⟨.x86, 0⟩ (.init 7 ()) newNode).isSome := by decide +kernel
  have h₂ : (perform ⟨.x86, 0⟩ c (retryOnce acceptThenRefuse ++ [.owner 0 false])).isSome := by
    decide +kernel
  have hl : (t.src.own 0).unwindsLate = false := by decide +kernel
  have hcall : EnqueueCall ⟨.x86, 0⟩ c 0 acceptThenRefuse us t :=
    ⟨.snoc (exec_trace h₂) ⟨rfl, rfl, rfl⟩, ⟨_, _, rfl, rfl⟩, .inr (.inl rfl), by
      unfold Event.Exits
      decide +kernel⟩
  exact ⟨hcall, hl, (tryEnqueue_allOrNothing_iff (exec_trace h₁) (by decide +kernel) hcall).2 hl⟩

/-- The closure that accepts the first tail and unwinds at the second one. -/
def acceptThenUnwind : MatchState ℕ := fun i _ => if i = 0 then .accept else .unwind

/-- The node is left as if it were queued, and the queue is empty. -/
theorem tryEnqueue_acceptThenUnwind :
    let ts := trace ⟨.x86, 0⟩ (.init 7 ()) newNode
    let c := State.after (.init 7 ()) ts
    let us := trace ⟨.x86, 0⟩ c (retryOnce acceptThenUnwind)
    let t := Transition.of ⟨.x86, 0⟩ (c.after us) (.owner 0 false) (.unwound 0)
    Exec ⟨.x86, 0⟩ (.init 7 ()) ts c ∧ EnqueueCall ⟨.x86, 0⟩ c 0 acceptThenUnwind us t ∧
      t.dst.mem.rawState 0 = .queued ∧ t.dst.mem.queueState = some 7 ∧
      ¬ AllOrNothing ⟨.x86, 0⟩ ((Abs.init 7).run ts) 0 acceptThenUnwind us t := by
  intro ts c us t
  have h₁ : (perform ⟨.x86, 0⟩ (.init 7 ()) newNode).isSome := by decide +kernel
  have h₂ : (perform ⟨.x86, 0⟩ c (retryOnce acceptThenUnwind)).isSome := by decide +kernel
  have hq : t.dst.mem.rawState 0 = .queued := by decide +kernel
  refine ⟨exec_trace h₁, ⟨.snoc (exec_trace h₂) ⟨rfl, rfl, rfl⟩, ⟨_, _, rfl, rfl⟩,
    .inr (.inr rfl), ?_⟩, hq, by decide +kernel, fun hall => ?_⟩
  · unfold Event.Exits
    decide +kernel
  · have hu := (hall.unqueued (by simp [t, Transition.of])).1
    simp [hq] at hu

end Aiq
