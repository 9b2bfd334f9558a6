import Aiq.NodeState

/-!
# `try_set_queue_state`

`Dequeue::try_set_queue_state`, `Pop::try_set_queue_state` and
`NodeQueued::dequeue_try_set_queue_state` remove their node and return what `remove_with_prev`
returns, which is to tell whether the call has left an empty queue with the given state. It returns
`true` whenever its tail CAS succeeds. That CAS writes the state only if the node is the first of the
queue; if it is the last and not the first, the CAS writes the predecessor and the queue is not empty.
So the result is the right one exactly when no tail CAS finds such a node
(`trySetQueueState_faithful_iff`).
-/

namespace Aiq

variable {S T : Type} {cfg : Config} {c c' : State S T} {a : Abs S} {x : NodeId} {s : S} {b : Bool}
  {us : List (Transition S T)}

/-! ## Calls -/

/-- The step starts one of the three calls, on the node `x` and with the state `s`. -/
def Transition.TriesSet (t : Transition S T) (x : NodeId) (s : S) : Prop :=
  match t.src.mutex, t.act with
  | some (.dequeue y), .holderCall (.trySetQueueState s')
  | some (.pop y), .holderCall (.trySetQueueState s')
  | some (.queued y), .holderCall (.dequeueTrySetQueueState s') => y = x ∧ s' = s
  | _, _ => False

/-- The steps `us` from `c` begin with such a call and end with its return of `b`. -/
structure TrySetCall [DecidableEq S] [QueueState S] (cfg : Config) (c : State S T)
    (us : List (Transition S T)) (x : NodeId) (s : S) (b : Bool) : Prop where
  exec : ∃ c', Exec cfg c us c'
  starts : ∃ t, us.head? = some t ∧ t.TriesSet x s
  returns : ∃ t, us.getLast? = some t ∧ t.event = .removed x b
  first : ∀ t ∈ us.dropLast, ∀ b', t.event ≠ .removed x b'

/-- The holder makes the queue empty and leaves `s` behind: `Queue::state` turns from `None` to
`Some(s)`. -/
def Transition.Empties [DecidableEq S] (t : Transition S T) (s : S) : Bool :=
  t.act.isHolder ∧ t.src.mem.queueState = none ∧ t.dst.mem.queueState = some s

/-- What a call is to do: it removes its node, once, and reports whether it has made the queue empty
by writing the state `s`. -/
structure Faithful [DecidableEq S] (us : List (Transition S T)) (x : NodeId) (s : S) (b : Bool) :
    Prop where
  removes : (us.map Transition.event).count (.remove x s) = 1
  dequeued : ∀ t, us.getLast? = some t → t.dst.mem.rawState x = .dequeued
  reports : b = true ↔ ∃ t ∈ us, t.Empties s

/-- The holder does a tail CAS on `x`, which is the last node of the queue and not the first. -/
def Transition.CutsTail (t : Transition S T) (x : NodeId) : Prop :=
  t.act.isHolder = true ∧ (∃ r, t.src.mutex = some (.rmCas r) ∧ r.node = x) ∧
    t.src.mem.tail = .ptr (.node x) ∧ t.src.mem.prev (.node x) ≠ headMarker

/-! ## The steps of a call -/

/-- The result `b` is right exactly when no tail CAS has cut the tail. -/
def ReportsIff [DecidableEq S] (us : List (Transition S T)) (x : NodeId) (s : S) (b : Bool) : Prop :=
  (b = true ↔ ∃ t ∈ us, t.Empties s) ↔ ∀ t ∈ us, ¬ t.CutsTail x

/-- How far a call has come after the steps `us`. -/
inductive Progress [DecidableEq S] (x : NodeId) (s : S) (us : List (Transition S T))
    (c : State S T) : Prop
  | removing {p : HolderPc S} (hp : c.mutex = some p) (h : p.Removing x s)
      (count : (us.map Transition.event).count (.remove x s) = 0)
      (empties : ∀ t ∈ us, t.Empties s = false) (cuts : ∀ t ∈ us, ¬ t.CutsTail x)
  | returning {p : HolderPc S} {b : Bool} (hp : c.mutex = some p) (h : p.Returning x b)
      (count : (us.map Transition.event).count (.remove x s) = 1) (reports : ReportsIff us x s b)

variable {t : Transition S T}

/-- A step that keeps the tail makes nothing empty. -/
theorem Transition.empties_of_tail [DecidableEq S] (h : t.dst.mem.tail = t.src.mem.tail) :
    t.Empties s = false := by
  unfold Empties Mem.queueState
  rw [h]
  cases t.src.mem.tail.state? <;> simp

theorem Transition.not_cutsTail {p : HolderPc S} (hp : t.src.mutex = some p)
    (h : ∀ r, p = .rmCas r → t.src.mem.tail ≠ .ptr (.node x)) : ¬ t.CutsTail x := by
  rintro ⟨-, ⟨r, hr, -⟩, ht, -⟩
  exact h r (Option.some.inj (hp.symm.trans hr)) ht

theorem HolderPc.Returning.not_cutsTail {p : HolderPc S} (h : p.Returning x b)
    (hp : t.src.mutex = some p) : ¬ t.CutsTail x := by
  refine Transition.not_cutsTail hp ?_
  rintro r rfl
  exact h.elim

theorem HolderPc.Removing.holderCall [QueueState S] {p : HolderPc S} (h : p.Removing x s)
    (k : HolderCall S T) : Aiq.holderCall c p k = none := by
  unfold HolderPc.Removing at h
  unfold Aiq.holderCall
  grind

theorem HolderPc.Returning.holderCall [QueueState S] {p : HolderPc S} (h : p.Returning x b)
    (k : HolderCall S T) : Aiq.holderCall c p k = none := by
  unfold HolderPc.Returning at h
  unfold Aiq.holderCall
  grind

theorem forall_mem_snoc {P : Transition S T → Prop} (h : ∀ u ∈ us, P u) (ht : P t) :
    ∀ u ∈ us ++ [t], P u :=
  List.forall_mem_append.2 ⟨h, List.forall_mem_singleton.2 ht⟩

theorem count_snoc_of_ne [DecidableEq S] {e : Event S} (h : t.event ≠ e) :
    ((us ++ [t]).map Transition.event).count e = (us.map Transition.event).count e := by
  simp [List.count_append, List.count_eq_zero, h.symm]

theorem count_snoc_self [DecidableEq S] :
    ((us ++ [t]).map Transition.event).count t.event = (us.map Transition.event).count t.event + 1 := by
  simp [List.count_append]

theorem ReportsIff.snoc [DecidableEq S] (h : ReportsIff us x s b) (hem : t.Empties s = false)
    (hcut : ¬ t.CutsTail x) : ReportsIff (us ++ [t]) x s b := by
  unfold ReportsIff at h ⊢
  simpa [or_and_right, exists_or, or_imp, forall_and, hem, hcut] using h

theorem reportsIff_false [DecidableEq S] (hem : ∀ u ∈ us, u.Empties s = false)
    (hcut : ∀ u ∈ us, ¬ u.CutsTail x) : ReportsIff us x s false := by
  refine iff_of_true ?_ hcut
  simpa using hem

/-- The step that ends a call on `x` with the steps `us` and the result `b`. -/
structure Ends [DecidableEq S] (us : List (Transition S T)) (t : Transition S T) (x : NodeId) (s : S)
    (b : Bool) : Prop where
  event : t.event = .removed x b
  prev : t.dst.mem.prev (.node x) = .one
  count : (us.map Transition.event).count (.remove x s) = 1
  reports : ReportsIff us x s b

/-- The tail CAS writes the state unless the node has a predecessor. -/
theorem Inv.empties_iff [DecidableEq S] (h : Inv cfg t.src a) {r : Removal S}
    (hp : t.src.mutex = some (.rmCas r)) (ht : t.src.mem.tail = .ptr (.node r.node))
    (hact : t.act = .holder) (hd : t.dst.mem.tail = r.casTail) :
    t.Empties r.newTail = true ↔ ¬ t.CutsTail r.node := by
  obtain ⟨⟨i, hr⟩, -⟩ := h.holder hp
  have hprev : t.src.mem.prev (.node r.node) = r.prev :=
    (h.prev_eq (h.not_held hp rfl) hr.mem).trans hr.prev.symm
  have hstate : r.prev.state = .queued := hr.prev ▸ state_inPrev _ _ _
  rcases he : r.prev with _ | _ | _ | y
  · simp [he, Ptr.state] at hstate
  · simp [he, Ptr.state] at hstate
  · simp [Transition.Empties, Transition.CutsTail, hact, Act.isHolder, hprev, he, headMarker,
      RawNodeState.intoPtr, hd, ht, Removal.casTail, Mem.queueState, StateOrPtr.state?]
  · simp [Transition.Empties, Transition.CutsTail, hact, Act.isHolder, hp, ht, hprev, he, headMarker,
      RawNodeState.intoPtr, hd, Removal.casTail, Mem.queueState, StateOrPtr.state?]

/-- The node is still in its list before the step. -/
theorem Progress.removingStep [DecidableEq S] [QueueState S] {p : HolderPc S}
    (h : Sound cfg a t) (hact : t.act = .holder) (hm : t.src.mutex = some p)
    (hs : holderStep cfg t.src p = some (t.dst, t.event)) (hr : p.Removing x s)
    (count : (us.map Transition.event).count (.remove x s) = 0)
    (empties : ∀ t ∈ us, t.Empties s = false) (cuts : ∀ t ∈ us, ¬ t.CutsTail x) :
    (t.event = .tau ∨ t.event = .remove x s) ∧ Progress x s (us ++ [t]) t.dst := by
  rcases holderStep_removing hr hs with ⟨he, ht, ⟨q, hm', hq⟩, hcas⟩ | ⟨he, hcas⟩
  · refine ⟨.inl he, .removing hm' (hq.resolve_right ?_) ?_ ?_ ?_⟩
    · rintro rfl
      exact h.inv'.holder hm'
    · exact (count_snoc_of_ne (by simp [he])).trans count
    · exact forall_mem_snoc empties (Transition.empties_of_tail ht)
    · exact forall_mem_snoc cuts (Transition.not_cutsTail hm hcas)
  · have hcount : ((us ++ [t]).map Transition.event).count (.remove x s) = 1 := by
      rw [← he, count_snoc_self, he, count]
    rcases hcas with ⟨r, rfl, rfl, rfl, ht, ht', hm'⟩ | ⟨r, y, rfl, rfl, hm', ht⟩
    · have hem := h.inv.empties_iff hm ht hact ht'
      refine ⟨.inr he, .returning (b := true) hm' ⟨rfl, rfl⟩ hcount ?_⟩
      simp only [ReportsIff, true_iff]
      constructor
      · rintro ⟨u, hu, hue⟩
        rcases List.mem_append.1 hu with hu | hu
        · simp [empties u hu] at hue
        · obtain rfl := List.mem_singleton.1 hu
          exact forall_mem_snoc cuts (hem.1 hue)
      · intro hcut
        exact ⟨t, by simp, hem.2 (hcut t (by simp))⟩
    · refine ⟨.inr he, .returning (b := false) hm' ⟨rfl, rfl⟩ hcount (reportsIff_false ?_ ?_)⟩
      · exact forall_mem_snoc empties (Transition.empties_of_tail ht)
      · exact forall_mem_snoc cuts (Transition.not_cutsTail hm (by simp))

/-- The node has left its list before the step. -/
theorem Progress.returningStep [DecidableEq S] [QueueState S] {p : HolderPc S}
    (hm : t.src.mutex = some p) (hs : holderStep cfg t.src p = some (t.dst, t.event))
    (hr : p.Returning x b) (count : (us.map Transition.event).count (.remove x s) = 1)
    (reports : ReportsIff us x s b) :
    t.event = .tau ∧ Progress x s (us ++ [t]) t.dst ∨ ∃ b, Ends (us ++ [t]) t x s b := by
  obtain ⟨ht, he⟩ := holderStep_returning hr hs
  have hne : t.event ≠ .remove x s := by
    rcases he with ⟨he, -⟩ | ⟨he, -⟩ <;> simp [he]
  have hcount : ((us ++ [t]).map Transition.event).count (.remove x s) = 1 :=
    (count_snoc_of_ne hne).trans count
  have hrep := reports.snoc (Transition.empties_of_tail ht) (hr.not_cutsTail hm)
  rcases he with ⟨he, r, hm', rfl⟩ | ⟨he, hprev, -⟩
  · exact .inl ⟨he, .returning hm' ⟨rfl, rfl⟩ hcount hrep⟩
  · exact .inr ⟨b, he, hprev, hcount, hrep⟩

/-- The others do not disturb the call. -/
theorem Progress.others [DecidableEq S] [QueueState S] (h : Sound cfg a t)
    (hk : t.act.isHolder = false) (hp : Progress x s us t.src) :
    Progress x s (us ++ [t]) t.dst := by
  have hev := step_event hk h.step
  have hne : t.event ≠ .remove x s := fun he => by simp [he, Event.byHolder] at hev
  have hem : t.Empties s = false := by simp [Transition.Empties, hk]
  have hcut : ¬ t.CutsTail x := by simp [Transition.CutsTail, hk]
  cases hp with
  | removing hm hr count empties cuts =>
    have hm' := h.inv.mutex_step hm (by rintro t rfl; exact hr) hk h.step
    exact .removing hm' hr ((count_snoc_of_ne hne).trans count) (forall_mem_snoc empties hem)
      (forall_mem_snoc cuts hcut)
  | returning hm hr count reports =>
    have hm' := h.inv.mutex_step hm (by rintro t rfl; exact hr) hk h.step
    exact .returning hm' hr ((count_snoc_of_ne hne).trans count) (reports.snoc hem hcut)

/-- The call goes on, or returns. -/
theorem Progress.step [DecidableEq S] [QueueState S] (h : Sound cfg a t)
    (hp : Progress x s us t.src) :
    (∀ b, t.event ≠ .removed x b) ∧ Progress x s (us ++ [t]) t.dst ∨
      ∃ b, Ends (us ++ [t]) t x s b := by
  have hs := h.step
  cases hq : t.act
  case holder =>
    cases hp with
    | removing hm hr count empties cuts =>
      simp only [hq, Aiq.step, hm] at hs
      obtain ⟨he, hp'⟩ := Progress.removingStep h hq hm hs hr count empties cuts
      exact .inl ⟨fun b hb => by simp [hb] at he, hp'⟩
    | returning hm hr count reports =>
      simp only [hq, Aiq.step, hm] at hs
      refine (Progress.returningStep hm hs hr count reports).imp_left (And.imp_left ?_)
      exact fun he b => by simp [he]
  case holderCall k =>
    cases hp with
    | removing hm hr _ _ _ => simp [hq, Aiq.step, hm, hr.holderCall] at hs
    | returning hm hr _ _ => simp [hq, Aiq.step, hm, hr.holderCall] at hs
  all_goals
    have hk : t.act.isHolder = false := by simp [hq, Act.isHolder]
    have hev := step_event hk hs
    exact .inl ⟨fun b hb => by simp [hb, Event.byHolder] at hev, hp.others h hk⟩

/-! ## Whole calls -/

variable [DecidableEq S] [QueueState S]

/-- The first step of a call. -/
theorem Transition.TriesSet.start (h : t.TriesSet x s)
    (hs : step cfg t.src t.act = some (t.dst, t.event)) :
    t.event = .tau ∧ Progress x s [t] t.dst := by
  obtain ⟨c, k, e, c'⟩ := t
  have key : e = .tau ∧ c'.mem = c.mem ∧ ∃ p, c'.mutex = some p ∧ p.Removing x s := by
    unfold TriesSet at h
    split at h
    all_goals first
      | exact h.elim
      | (rename_i hm ha
         simp only at hm ha
         subst ha
         simp only [Aiq.step, hm, Aiq.holderCall, Option.some.injEq, Prod.mk.injEq] at hs
         obtain ⟨rfl, rfl⟩ := hs
         exact ⟨rfl, rfl, _, rfl, h⟩)
  obtain ⟨rfl, hmem, p, hp, hr⟩ := key
  refine ⟨rfl, .removing hp hr (by simp) ?_ ?_⟩
  · simpa using Transition.empties_of_tail (by simp [hmem])
  · simp only [List.mem_singleton, forall_eq]
    rintro ⟨-, ⟨r, hm, -⟩, -⟩
    unfold TriesSet at h
    simp only at hm h
    simp [hm] at h

/-- The steps of a call up to its return. -/
theorem Progress.run {vs : List (Transition S T)} (h : Exec cfg c vs c') (hc : ∀ t ∈ vs, t.Clean)
    (hi : Inv cfg c a) (hp : Progress x s us c) (hret : ∀ t ∈ vs, ∀ b, t.event ≠ .removed x b) :
    Progress x s (us ++ vs) c' := by
  refine Exec.induct (P := fun vs c => Progress x s (us ++ vs) c) h hc hi (by simpa using hp) ?_
  intro vs t ht hs hp
  rw [← List.append_assoc]
  rcases hp.step hs with ⟨-, hp'⟩ | ⟨b, hb⟩
  · exact hp'
  · exact absurd hb.event (hret t ht b)

/-- What a call has done when it returns. -/
theorem TrySetCall.ends (h : TrySetCall cfg c us x s b) (hi : Inv cfg c a)
    (hc : ∀ t ∈ us, t.Clean) : ∃ t, us.getLast? = some t ∧ Ends us t x s b := by
  obtain ⟨c', hexec⟩ := h.exec
  obtain ⟨t₀, hhead, hstart⟩ := h.starts
  obtain ⟨t₁, hlast, hret⟩ := h.returns
  obtain ⟨us, rfl⟩ : ∃ vs, us = vs ++ [t₁] := ⟨_, (List.dropLast_append_getLast? _ hlast).symm⟩
  have hfirst : ∀ t ∈ us, ∀ b', t.event ≠ .removed x b' := by simpa using h.first
  refine ⟨t₁, hlast, ?_⟩
  obtain ⟨h₁, hs, -⟩ := Exec.at_step hexec hc hi
  cases us with
  | nil =>
    obtain rfl : t₁ = t₀ := by simpa using hhead
    simp [(hstart.start hs.step).1] at hret
  | cons t us =>
    obtain rfl : t = t₀ := by simpa using hhead
    have h₁' : Exec cfg c ([] ++ t :: us) t₁.src := h₁
    obtain ⟨-, hs₀, hr⟩ := Exec.at_step h₁' (fun u hu => hc u (List.mem_append_left _ hu)) hi
    have hp₁ := Progress.run hr (fun u hu => hc u (by simp [hu])) hs₀.inv' (hstart.start hs₀.step).2
      fun u hu => hfirst u (by simp [hu])
    rcases hp₁.step hs with ⟨hne, -⟩ | ⟨b', hb'⟩
    · exact absurd hret (hne b)
    · obtain rfl : b' = b := by simpa [hret] using hb'.event.symm
      simpa using hb'

variable {s₀ : S} {v : T} {ts : List (Transition S T)}

/-- **The result of `try_set_queue_state`.** In every execution, a call of one of the three operations
removes its node and tells whether it has left an empty queue with its state, if and only if none of
its tail CASes finds the node last in the queue and not first. -/
theorem trySetQueueState_faithful_iff (h : Exec cfg (.init s₀ v) ts c)
    (hc : ∀ t ∈ ts ++ us, t.Clean) (hcall : TrySetCall cfg c us x s b) :
    Faithful us x s b ↔ ∀ t ∈ us, ¬ t.CutsTail x := by
  have hi := Exec.inv h fun t ht => hc t (List.mem_append_left _ ht)
  obtain ⟨t, ht, hend⟩ := hcall.ends hi fun t ht => hc t (List.mem_append_right _ ht)
  refine ⟨fun hf => hend.reports.1 hf.reports, fun hcut => ⟨hend.count, ?_, hend.reports.2 hcut⟩⟩
  intro t' ht'
  obtain rfl : t = t' := Option.some.inj (ht.symm.trans ht')
  simp [Mem.rawState, hend.prev, Ptr.state]

/-- The only node of a queue is dequeued. -/
def dequeueOfOne : List (Act ℕ Unit) :=
  insertActs 0 () ++ [.owner 0 false, .lock, .holderCall .dequeue, .holder]

/-- `Dequeue::try_set_queue_state(9)` on it. -/
def trySetOfOne : List (Act ℕ Unit) :=
  [.holderCall (.trySetQueueState 9), .holder, .holder, .holder, .holder]

theorem trySetQueueState_faithful_iff_dequeueOfOne :
    let c := State.after (.init 7 ()) (trace ⟨.x86, 0⟩ (.init 7 ()) dequeueOfOne)
    let us := trace ⟨.x86, 0⟩ c trySetOfOne
    TrySetCall ⟨.x86, 0⟩ c us 0 9 true ∧ (Faithful us 0 9 true ↔ ∀ t ∈ us, ¬ t.CutsTail 0) := by
  intro c us
  have h₁ : (perform ⟨.x86, 0⟩ (.init 7 ()) dequeueOfOne).isSome := by decide +kernel
  have h₂ : (perform ⟨.x86, 0⟩ c trySetOfOne).isSome := by decide +kernel
  have hcall : TrySetCall ⟨.x86, 0⟩ c us 0 9 true :=
    ⟨⟨_, exec_trace h₂⟩, ⟨_, rfl, rfl, rfl⟩, ⟨_, rfl, rfl⟩, by decide +kernel⟩
  exact ⟨hcall, trySetQueueState_faithful_iff (exec_trace h₁) (by decide +kernel) hcall⟩

/-- The last of two nodes is popped. -/
def popOfTwo : List (Act ℕ Unit) :=
  insertActs 0 () ++ insertActs 1 () ++
    [.owner 0 false, .owner 1 false, .lock, .holderCall .pop]

/-- `Pop::try_set_queue_state(9)` on it: the removal waits for the link, clears it and does its CAS. -/
def trySetOfTwo : List (Act ℕ Unit) :=
  [.holderCall (.trySetQueueState 9), .holder, .holder, .holder, .holder, .holder, .holder]

/-- The call on the last of two nodes reports success, and the other node is still in the queue. -/
theorem trySetQueueState_popOfTwo :
    let c := State.after (.init 7 ()) (trace ⟨.x86, 0⟩ (.init 7 ()) popOfTwo)
    let us := trace ⟨.x86, 0⟩ c trySetOfTwo
    Exec ⟨.x86, 0⟩ (.init 7 ()) (trace ⟨.x86, 0⟩ (.init 7 ()) popOfTwo) c ∧
      TrySetCall ⟨.x86, 0⟩ c us 1 9 true ∧ (c.after us).mem.tail = .ptr (.node 0) ∧
      ¬ Faithful us 1 9 true := by
  intro c us
  have h₁ : (perform ⟨.x86, 0⟩ (.init 7 ()) popOfTwo).isSome := by decide +kernel
  have h₂ : (perform ⟨.x86, 0⟩ c trySetOfTwo).isSome := by decide +kernel
  refine ⟨exec_trace h₁, ⟨⟨_, exec_trace h₂⟩, ⟨_, rfl, rfl, rfl⟩, ⟨_, rfl, rfl⟩, by decide +kernel⟩,
    rfl, fun hf => ?_⟩
  have hno : ∀ t ∈ us, t.Empties 9 = false := by decide +kernel
  obtain ⟨t, ht, he⟩ := hf.reports.1 rfl
  simp [hno t ht] at he

end Aiq
