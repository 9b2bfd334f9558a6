import Aiq.Task.Head
import Mathlib.Data.List.TakeWhile

/-!
# Runs with the queue that they represent

`Client.Traces` follows a run together with the abstract queue: it starts at a queue that the first state
represents, and every event changes it. So the order in the queue is that of the tail CASes. While an
element is in the queue, the elements before it are those that were before it already
(`Abs.ahead_sublist`); and a node is marked as dequeued only by a removal (`Sound.marked_inv`).
-/

namespace Aiq

variable {S T P G I : Type} {cfg : Config} {c c' : State S T} {a : Abs S} {e : Event S}
  {x y : NodeId} {p : HolderPc S}

/-! ## Before an element -/

/-- The nodes that were enqueued before `x`, and are still in the queue. -/
def Abs.ahead (a : Abs S) (x : NodeId) : List NodeId := a.queue.takeWhile (· ≠ x)

theorem takeWhile_ne_append {l : List NodeId} (h : x ∈ l) (m : List NodeId) :
    (l ++ m).takeWhile (· ≠ x) = l.takeWhile (· ≠ x) := by
  induction l with
  | nil => simp at h
  | cons z l ih =>
    by_cases hz : z = x
    · simp [hz]
    · simp only [List.cons_append, List.takeWhile_cons, ne_eq, hz, not_false_eq_true, decide_true,
        if_true]
      rw [ih ((List.mem_cons.1 h).resolve_left (Ne.symm hz))]

theorem takeWhile_ne_erase (l : List NodeId) (h : y ≠ x) :
    ((l.erase y).takeWhile (· ≠ x)).Sublist (l.takeWhile (· ≠ x)) := by
  induction l with
  | nil => simp
  | cons z l ih =>
    by_cases hz : z = y
    · subst hz
      simp [h]
    · rw [List.erase_cons_tail (by simpa using hz)]
      by_cases hx : z = x
      · simp [hx]
      · simpa [List.takeWhile_cons, hx] using ih

/-- The nodes before `x` become fewer while `x` is in the queue. -/
theorem Abs.ahead_sublist (hn : a.queue.Nodup) (hx : x ∈ a.queue) (hx' : x ∈ (a.apply e).queue) :
    ((a.apply e).ahead x).Sublist (a.ahead x) := by
  cases e <;> try exact List.Sublist.refl _
  case enqueue y =>
    simp only [ahead, apply]
    rw [takeWhile_ne_append hx]
  case remove y s =>
    refine takeWhile_ne_erase _ ?_
    rintro rfl
    exact (List.Nodup.mem_erase_iff hn).1 hx' |>.1 rfl
  case drain d s => simp [apply] at hx'

theorem Abs.mem_queue_of_ahead (h : y ∈ a.ahead x) : y ∈ a.queue :=
  (List.takeWhile_sublist _).subset h

/-- The first element is before every other one. -/
theorem Abs.ahead_of_head (h : a.queue.head? = some y) (hx : x ≠ y) : y ∈ a.ahead x := by
  obtain ⟨l, hl⟩ := List.head?_eq_some_iff.1 h
  simp [ahead, hl, Ne.symm hx]

/-! ## Marks -/

section Marks

variable [DecidableEq S] [QueueState S] {t : Transition S T} {w w' : World S T P G} {i : TaskId}

omit [DecidableEq S] [QueueState S] in
theorem Inv.not_member_of_marked (h : Inv cfg c a) (hx : Marked c x) : ¬ a.Member x := by
  intro hmem
  obtain ⟨i, hi⟩ := member_iff.1 hmem
  rcases hx with hl | hp
  · exact (h.leaving_ok hl).out i hi
  · have := h.shape.state_eq_queued hi
    simp [hp.1, Ptr.state] at this

omit [DecidableEq S] in
/-- A call under the lock moves the owner of a node only when it drops the node's `NodeQueued`. -/
theorem holderCall_owner {k : HolderCall S T} (hs : holderCall c p k = some (c', e)) (x : NodeId) :
    c'.own x = c.own x ∨ p = .queued x := by
  have key := own_setOwn_apply (S := S) (T := T) x
  unfold holderCall guardCall drainLockedCall at hs
  repeat' split at hs
  all_goals grind [State.own_hold, State.own_free, State.own_withMem, State.own_setDrain]

/-- Nothing under the lock moves an owner that claims its node. -/
theorem Sound.own_of_claims (h : Sound cfg a t) (hk : t.act.isHolder = true)
    (hx : (t.src.own x).claims = true) : t.dst.own x = t.src.own x := by
  have hne : t.src.own x ≠ .locked := fun ho => by simp [ho, OwnPc.claims] at hx
  obtain ⟨p, hm, ⟨-, hs⟩ | ⟨q, -, hs⟩⟩ := step_holder hk h.step
  · have hok := h.inv.holder hm
    rcases holderStep_owner hs x with ho | ⟨ha, ⟨b, he⟩, -⟩ | ⟨hr, -⟩ | ⟨hr, -⟩
    · exact ho
    · rw [he] at hs
      obtain ⟨⟨y, s, v, k⟩, rfl⟩ := holderStep_removed hs
      simp only [HolderPc.actor] at ha
      split at ha
      · simp at ha
      · obtain rfl := Option.some.inj ha
        exact absurd (hok.2 ‹_›) hne
    · obtain ⟨k, rfl⟩ : ∃ k, p = .release k := by
        by_contra hp
        exact HolderPc.op_ne_releasing (not_exists.1 hp) _ hr
      obtain rfl := HolderOp.releasing.inj hr
      exact absurd hok.1 hne
    · obtain ⟨k, rfl⟩ : ∃ k, p = .release k := by
        by_contra hp
        exact HolderPc.op_ne_releasing (not_exists.1 hp) _ hr
      obtain rfl := HolderOp.releasing.inj hr
      exact absurd hok.1 hne
  · rcases holderCall_owner hs x with ho | rfl
    · exact ho
    · exact absurd (h.inv.holder hm).1 hne

/-- A node that is created or reset is `Unqueued`. -/
theorem prev_of_renewed {q : OwnerCall S T} (hs : step cfg c (.ownerCall x q) = some (c', e))
    (he : e = .reset x ∨ e = .create x) : c'.mem.prev (.node x) = .null := by
  simp only [step, ownerCall] at hs
  repeat' split at hs
  all_goals first | contradiction | obtain ⟨rfl, rfl⟩ := Prod.mk.inj (Option.some.inj hs)
  all_goals simp [RawNodeState.intoPtr] at he ⊢

/-- The owner gives up its claim on a node by the tail CAS, or when the node is `Unqueued`. -/
theorem TaskStep.prev_of_claims {k : Act S T} {q' : State S T} (h : TaskStep cfg a w i k e q')
    (hk : k.isHolder = false) (hx : (w.q.own x).claims = true) (hx' : (q'.own x).claims = false) :
    e = .enqueue x ∨ q'.mem.prev (.node x) = .null := by
  have hs := h.step
  have hown := h.sound.inv.own x
  have hcalm := h.ok.calm x
  dsimp only at hown
  rcases step_own hk hs x with ho | ⟨b, rfl⟩ | ⟨q, rfl⟩
  · rw [ho, hx] at hx'
    simp at hx'
  · simp only [Aiq.step] at hs
    unfold ownerStep at hs
    cases ho : w.q.own x <;> rw [ho] at hx hown hcalm <;>
      simp only [OwnPc.claims, reduceCtorEq] at hx <;> simp only [ho] at hs
    case check f m t =>
      cases hf : f m t.state? <;> simp only [hf] at hs <;>
        obtain ⟨rfl, rfl⟩ := Prod.mk.inj (Option.some.inj hs)
      · simp [OwnPc.claims] at hx'
      · simp [OwnPc.claims] at hx'
      · exact absurd hf (hcalm m _)
    case cas f m t =>
      split at hs <;> obtain ⟨rfl, rfl⟩ := Prod.mk.inj (Option.some.inj hs)
      · exact .inl rfl
      · simp [OwnPc.claims] at hx'
    all_goals
      first
      | contradiction
      | (obtain ⟨rfl, rfl⟩ := Prod.mk.inj (Option.some.inj hs)
         simp [OwnPc.claims] at hx')
  · simp only [Aiq.step] at hs
    unfold ownerCall at hs
    cases ho : w.q.own x <;> rw [ho] at hx hown <;>
      simp only [OwnPc.claims, reduceCtorEq] at hx <;> simp only [ho] at hs <;> cases q <;>
      simp only [reduceCtorEq] at hs <;> obtain ⟨rfl, rfl⟩ := Prod.mk.inj (Option.some.inj hs)
    case unqueued.release => exact .inr hown.2.1
    all_goals simp [OwnPc.claims, ho] at hx'

/-- A node is marked as dequeued by a removal. -/
theorem TaskStep.marked_inv {k : Act S T} {q' : State S T} (h : TaskStep cfg a w i k e q')
    (hx : Marked q' x) :
    Marked w.q x ∨ e.Removes x ∨ ∃ d, e.Starts d ∧ x ∈ (a.drained d).rest := by
  have hnot := h.sound.inv'.not_member_of_marked hx
  by_cases hmem : a.Member x
  · exact .inr ((Abs.member_or hmem).resolve_left hnot)
  left
  by_contra hm
  have hout := out_iff.2 ⟨hmem, fun hl => hm (.inl hl)⟩
  have he : e ≠ .enqueue x := fun he => hnot (by
    rw [he]
    exact .inl (List.mem_append_right _ (List.mem_singleton.2 rfl)))
  rcases hx with hl | ⟨hp, hcl⟩
  · exact (h.sound.out he hout).2 hl
  have hs := h.step
  cases hk : k.isHolder with
  | true =>
    have hcl₀ : (w.q.own x).claims = false := by
      by_contra hcl₀
      have := h.sound.own_of_claims hk (by simpa using hcl₀)
      rw [show q'.own x = _ from this] at hcl
      exact hcl₀ hcl
    obtain ⟨p, hmx, ⟨-, hs⟩ | ⟨q, -, hs⟩⟩ := step_holder hk hs
    · rcases holderStep_prev hs x with hq | ⟨hl, -⟩ | ⟨r, rfl⟩ | ⟨d, rfl⟩
      · exact hm (.inr ⟨hq ▸ hp, hcl₀⟩)
      · exact hm (.inl (by simp [State.leaving, hmx, hl]))
      · obtain ⟨⟨i, -, hi⟩, -⟩ := h.sound.inv.holder hmx
        exact hout.1 i (List.mem_of_predOf hi)
      · exact hout.1 _ (List.mem_of_head? (h.sound.inv.holder hmx))
    · exact hm (.inr ⟨holderCall_prev hs x ▸ hp, hcl₀⟩)
  | false =>
    have hcl₀ : (w.q.own x).claims = true := by
      by_contra hcl₀
      rcases step_prev hk hs x with hq | ⟨-, hq⟩ | ⟨⟨q, rfl⟩, hq⟩
      · exact hm (.inr ⟨hq ▸ hp, by simpa using hcl₀⟩)
      · exact hcl₀ hq
      · rw [prev_of_renewed hs hq] at hp
        simp at hp
    rcases h.prev_of_claims hk hcl₀ hcl with hq | hq
    · exact he hq
    · simp [hq] at hp

theorem Client.Moves.marked_inv {C : Client S T P G I} {n : I} (hm : C.Moves cfg a w i n w' e)
    (hx : Marked w'.q x) :
    Marked w.q x ∨ e.Removes x ∨ ∃ d, e.Starts d ∧ x ∈ (a.drained d).rest := by
  cases hm.mover with
  | op hs hd hv hp hg => exact hs.marked_inv hx
  | call hr hk hrest hs hv hp hg => exact hs.marked_inv hx
  | own hr hk hrest hq hv hp hg => exact .inl (hq ▸ hx)

end Marks

/-! ## Traces -/

section Traces

variable [DecidableEq S] [QueueState S] {C : Client S T P G I} {w w' : World S T P G} {i : TaskId}
  {ls : List (TaskId × Bool × I)} {u u' : World S T P G × Abs S}

/-- One step of a client, and what it does to the abstract queue. -/
def Client.Steps (C : Client S T P G I) (cfg : Config) (u : World S T P G × Abs S)
    (l : TaskId × Bool × I) (u' : World S T P G × Abs S) : Prop :=
  C.step cfg u.1 l.1 l.2.1 l.2.2 = some u'.1 ∧
    (C.event cfg u.1 l.1 l.2.1 l.2.2).map u.2.apply = some u'.2

/-- The runs of a client, with the abstract queue. -/
abbrev Client.Traces (C : Client S T P G I) (cfg : Config) :
    World S T P G × Abs S → List (TaskId × Bool × I) → World S T P G × Abs S → Prop :=
  Lts.Run (C.Steps cfg)

theorem Client.Steps.moves {l : TaskId × Bool × I} (h : C.Steps cfg u l u') (hw : u.1.Ok cfg u.2) :
    ∃ e, C.Moves cfg u.2 u.1 l.1 l.2.2 u'.1 e ∧ u'.2 = u.2.apply e := by
  obtain ⟨hs, he⟩ := h
  obtain ⟨e, he', ha⟩ := Option.map_eq_some_iff.1 he
  exact ⟨e, Client.moves_of_event hw hs he', ha.symm⟩

/-- Every run is that of a trace. -/
theorem Client.Runs.traces (h : C.Runs cfg w ls w') (hw : w.Ok cfg a) :
    ∃ a', C.Traces cfg (w, a) ls (w', a') ∧ w'.Ok cfg a' := by
  induction h with
  | nil => exact ⟨a, .nil, hw⟩
  | snoc hr hs ih =>
    obtain ⟨a₁, ht, hw₁⟩ := ih
    obtain ⟨e, he, hm⟩ := Client.moves_event hw₁ hs
    exact ⟨a₁.apply e, ht.snoc ⟨hs, by rw [he]; rfl⟩, hm.ok' hw₁⟩

/-- The steps `ls`, made one after the other, as long as `p` holds of the states that they reach. -/
def Client.follow (C : Client S T P G I) (cfg : Config) (p : World S T P G × Abs S → Prop)
    [DecidablePred p] (u : World S T P G × Abs S) :
    List (TaskId × Bool × I) → Option (World S T P G × Abs S)
  | [] => some u
  | l :: ls =>
    match C.step cfg u.1 l.1 l.2.1 l.2.2, C.event cfg u.1 l.1 l.2.1 l.2.2 with
    | some w', some e => if p (w', u.2.apply e) then C.follow cfg p (w', u.2.apply e) ls else none
    | _, _ => none

/-- The state after a schedule in which every task can move. -/
def Client.followed (C : Client S T P G I) (cfg : Config) (p : World S T P G × Abs S → Prop)
    [DecidablePred p] (u : World S T P G × Abs S) (ls : List (TaskId × Bool × I)) :
    World S T P G × Abs S :=
  (C.follow cfg p u ls).getD u

theorem Client.run_of_follow {p : World S T P G × Abs S → Prop} [DecidablePred p]
    (h : C.follow cfg p u ls = some u') :
    Lts.Run (fun u l u' => C.Steps cfg u l u' ∧ p u') u ls u' := by
  induction ls generalizing u with
  | nil =>
    obtain rfl : u = u' := by simpa [Client.follow] using h
    exact .nil
  | cons l ls ih =>
    unfold Client.follow at h
    split at h
    · rename_i w' e hs he
      split at h
      · exact Lts.Run.cons ⟨⟨hs, by rw [he]; rfl⟩, ‹_›⟩ (ih h)
      · simp at h
    · simp at h

theorem Client.run_followed {p : World S T P G × Abs S → Prop} [DecidablePred p]
    (h : (C.follow cfg p u ls).isSome) :
    Lts.Run (fun u l u' => C.Steps cfg u l u' ∧ p u') u ls (C.followed cfg p u ls) := by
  obtain ⟨u', hu'⟩ := Option.isSome_iff_exists.1 h
  rw [Client.followed, hu']
  exact Client.run_of_follow hu'

/-- The same, with the condition on the states in which the steps are made. -/
theorem Client.run_followed_sources {p : World S T P G × Abs S → Prop} [DecidablePred p]
    (h : (C.follow cfg p u ls).isSome) (h₀ : p u) :
    Lts.Run (fun u l u' => C.Steps cfg u l u' ∧ p u) u ls (C.followed cfg p u ls) ∧
      p (C.followed cfg p u ls) :=
  (Client.run_followed h).sources h₀

end Traces

end Aiq
