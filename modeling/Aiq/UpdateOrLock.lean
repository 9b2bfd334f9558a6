import Aiq.DropDrain

/-!
# Update the state or take the lock

`fetch_update_state_or_lock` and its siblings try to update the queue's state, take the lock when the
queue has nodes, and try again under the lock. A call makes exactly one update, or none and then it
returns a guard. The guard is one of a queue with nodes, and the queue keeps nodes until the holder of
the guard removes some (`GuardsQueue`); so is the guard that `is_empty_or_lock` returns
(`updateOrLock_exactlyOnce`).
-/

namespace Aiq

variable {S T : Type} {cfg : Config} {c c' : State S T} {a : Abs S} {e : Event S} {t : ThreadId}

/-! ## The steps of a thread -/

/-- The step belongs to a call of the thread `t`. -/
def Act.ByThread (c : State S T) (t : ThreadId) : Act S T → Prop
  | .thread t' _ | .threadCall t' _ => t' = t
  | .holder => c.mutex = some (.release (.thread t))
  | _ => False

theorem upd_setUpd_apply (t : ThreadId) (c : State S T) (t' : ThreadId) (u : UpdPc S) :
    (c.setUpd t' u).upd t = if t = t' then u else c.upd t := by
  simp [Function.update_apply]

/-- A thread is moved by its own steps. -/
theorem step_upd [DecidableEq S] [QueueState S] {k : Act S T} (hs : step cfg c k = some (c', e))
    (t : ThreadId) : c'.upd t = c.upd t ∨ k.ByThread c t := by
  have key := upd_setUpd_apply (S := S) (T := T) t
  cases k <;> simp only [step] at hs
  case lock => grind [State.upd_hold]
  case holder =>
    cases hm : c.mutex <;> simp only [hm, reduceCtorEq] at hs
    unfold holderStep getStep Removal.return Release.apply at hs
    unfold Act.ByThread
    repeat' split at hs
    all_goals grind [State.upd_hold, State.upd_free, State.upd_withMem, State.upd_setDrain,
      State.upd_setOwn]
  case holderCall q =>
    cases hm : c.mutex <;> simp only [hm, reduceCtorEq] at hs
    left
    unfold holderCall guardCall drainLockedCall at hs
    repeat' split at hs
    all_goals grind [State.upd_hold, State.upd_free, State.upd_withMem, State.upd_setDrain,
      State.upd_setOwn]
  case owner x weak =>
    left
    unfold ownerStep linkStep at hs
    grind [State.upd_hold, State.upd_withMem, State.upd_setOwn]
  case ownerCall x q =>
    left
    unfold ownerCall at hs
    grind [State.upd_withMem, State.upd_setOwn]
  case thread t' weak =>
    unfold threadStep Attempt.test Attempt.err Attempt.ok at hs
    unfold Act.ByThread
    repeat' split at hs
    all_goals grind [State.upd_hold, State.upd_withMem]
  case threadCall t' q =>
    unfold threadCall Attempt.test Attempt.err at hs
    unfold Act.ByThread
    grind [State.upd_withMem]
  case drain d q =>
    left
    unfold drainStep at hs
    grind [State.upd_hold, State.upd_setDrain]

/-- The events of the calls of `t`. -/
def Event.OfThread (e : Event S) (t : ThreadId) : Prop := (∃ s s', e = .update t s s') ∨ e = .guarded t

theorem step_ofThread [DecidableEq S] [QueueState S] {k : Act S T} (hs : step cfg c k = some (c', e))
    (he : e.OfThread t) : k.ByThread c t := by
  unfold Event.OfThread at he
  cases k <;> simp only [step] at hs
  case lock => grind
  case holder =>
    cases hm : c.mutex <;> simp only [hm, reduceCtorEq] at hs
    unfold holderStep getStep GetCont.event at hs
    repeat' split at hs
    all_goals grind
  case holderCall q =>
    cases hm : c.mutex <;> simp only [hm, reduceCtorEq] at hs
    unfold holderCall guardCall drainLockedCall at hs
    grind
  case owner x weak =>
    unfold ownerStep at hs
    grind
  case ownerCall x q =>
    unfold ownerCall at hs
    grind
  case thread t' weak =>
    unfold threadStep Attempt.test Attempt.err Attempt.ok at hs
    unfold Act.ByThread
    repeat' split at hs
    all_goals grind
  case threadCall t' q =>
    unfold threadCall Attempt.test Attempt.err at hs
    unfold Act.ByThread
    grind
  case drain d q =>
    unfold drainStep at hs
    grind

theorem step_guarded [DecidableEq S] [QueueState S] {k : Act S T}
    (hs : step cfg c k = some (c', .guarded t)) : c'.mutex = some .guard := by
  have hk := step_ofThread hs (.inr rfl)
  cases k <;> simp only [step] at hs
  case holder =>
    rw [show c.mutex = some (.release (.thread t)) from hk] at hs
    simp [holderStep] at hs
  case thread t' weak =>
    unfold threadStep Attempt.test Attempt.err at hs
    repeat' split at hs
    all_goals grind [State.mutex_hold]
  case threadCall t' q =>
    unfold threadCall Attempt.test Attempt.err at hs
    repeat' split at hs
    all_goals grind [State.mutex_hold]
  all_goals exact hk.elim

/-! ## The guard of a queue with nodes -/

/-- A node is removed, or the queue is drained. -/
def Event.Shrinks (e : Event S) : Prop := (∃ x s, e = .remove x s) ∨ ∃ d s, e = .drain d s

theorem Abs.queue_ne_nil_apply (h : a.queue ≠ []) (he : ¬ e.Shrinks) : (a.apply e).queue ≠ [] := by
  cases e
  case remove x s => exact absurd (.inl ⟨x, s, rfl⟩) he
  case drain d s => exact absurd (.inr ⟨d, s, rfl⟩) he
  case enqueue x => simp [apply]
  all_goals exact h

/-- The steps `us` lead from `c` to `c'`, and the holder of the lock neither removes a node nor drains
the queue in them. -/
structure Keeps [DecidableEq S] [QueueState S] (cfg : Config) (c : State S T)
    (us : List (Transition S T)) (c' : State S T) : Prop where
  exec : Exec cfg c us c'
  clean : ∀ u ∈ us, u.Clean
  keeps : ∀ u ∈ us, u.act.isHolder = true → ¬ u.event.Shrinks

/-- The state `c` has a guard of a queue with nodes: the queue has nodes until the holder of the guard
removes one or drains, and up to then `dequeue` and `pop` return `Some`. -/
structure GuardsQueue [DecidableEq S] [QueueState S] (cfg : Config) (c : State S T) : Prop where
  guard : c.mutex = some .guard
  nonempty : ∀ us c', Keeps cfg c us c' → c'.mem.queueState = none
  returnsSome : ∀ us c' k e c'', Keeps cfg c us c' → step cfg c' k = some (c'', e) →
    e ≠ .dequeue none ∧ e ≠ .pop none
  pop : ∀ us c', Keeps cfg c us c' → c'.mutex = some .guard →
    ∃ x c'', step cfg c' (.holderCall .pop) = some (c'', .pop (some x))
  dequeue : ∀ us c', Keeps cfg c us c' → c'.mutex = some .guard →
    ∃ x ks, ((perform cfg c' (.holderCall .dequeue :: ks)).bind List.getLast?).map Transition.event =
      some (.dequeue (some x))

theorem Inv.queueState_eq_none (h : Inv cfg c a) : c.mem.queueState = none ↔ a.queue ≠ [] := by
  rw [Mem.queueState, h.tail]
  cases ht : a.tail with
  | state s => simp [StateOrPtr.state?, (Abs.tail_eq_state_iff.1 ht).1]
  | ptr b => simpa [StateOrPtr.state?] using Abs.queue_ne_nil_of_tail ht

theorem Transition.clean_of_isHolder {t : Transition S T} (h : t.act.isHolder = true) : t.Clean := by
  obtain ⟨c, k, e, c'⟩ := t
  cases k <;> trivial

section Guard

variable [DecidableEq S] [QueueState S] {us : List (Transition S T)}

theorem Keeps.queue_ne_nil (h : Keeps cfg c us c') (hi : Inv cfg c a) (hq : a.queue ≠ []) :
    (a.run us).queue ≠ [] := by
  refine Exec.induct (P := fun us _ => (a.run us).queue ≠ []) h.exec h.clean hi hq ?_
  intro us t ht hs hq
  rw [Abs.run_append]
  refine Abs.queue_ne_nil_apply hq fun hsh => ?_
  cases hk : t.act.isHolder with
  | true => exact h.keeps t ht hk hsh
  | false =>
    have hev := step_event hk hs.step
    rcases hsh with ⟨x, s, he⟩ | ⟨d, s, he⟩ <;> simp [he, Event.byHolder] at hev

/-- `pop` on a queue with nodes. -/
theorem Inv.pop_some (h : Inv cfg c a) (hm : c.mutex = some .guard) (hq : a.queue ≠ []) :
    ∃ x c', Aiq.step cfg c (.holderCall .pop) = some (c', .pop (some x)) := by
  obtain ⟨x, hx⟩ := Option.ne_none_iff_exists'.1 (mt List.getLast?_eq_none_iff.1 hq)
  have ht : c.mem.tail = .ptr (.node x) := h.tail.trans (Abs.tail_eq_ptr_iff.2 ⟨x, hx, rfl⟩)
  exact ⟨x, _, by simp only [Aiq.step, hm, Aiq.holderCall, Aiq.guardCall, ht]; rfl⟩

/-- `dequeue` on a queue with nodes returns when the first node is linked. -/
theorem Inv.dequeue_some (h : Inv cfg c a) (hm : c.mutex = some .guard) (hq : a.queue ≠ []) :
    ∃ x ks, ((perform cfg c (.holderCall .dequeue :: ks)).bind List.getLast?).map
      Transition.event = some (.dequeue (some x)) := by
  obtain ⟨z, hz⟩ := Option.ne_none_iff_exists'.1 (mt List.getLast?_eq_none_iff.1 hq)
  have ht : c.mem.tail = .ptr (.node z) := h.tail.trans (Abs.tail_eq_ptr_iff.2 ⟨z, hz, rfl⟩)
  obtain ⟨x, hx⟩ : ∃ x, a.queue.head? = some x := by
    cases hl : a.queue with
    | nil => exact absurd hl hq
    | cons x l => exact ⟨x, rfl⟩
  have hhead : (c.ch a .queue).head? = some (.node x) := by simp [State.ch, chain, hx]
  have hloc : inLoc (c.ch a) .queue (.node x) = .head := inLoc_of_head (h.shape.nodup .queue) hhead
  have hlink := h.shape.link (List.mem_of_head? hhead)
  rw [hloc] at hlink
  refine ⟨x, ?_⟩
  rcases hlink with e | e | ⟨w, hw, e⟩
  · refine ⟨[.holder], ?_⟩
    simp [perform, Aiq.step, hm, Aiq.holderCall, Aiq.guardCall, ht, Aiq.holderStep, Aiq.getStep, e,
      GetCont.event]
  · simp [State.hole, hm, HolderPc.hole] at e
  -- the enqueuer of the first node writes `head`
  · obtain rfl := Addr.node.inj hw
    refine ⟨[.owner x false, .holder], ?_⟩
    have hown := own_of_pend_head e
    cases hv : cfg.variant <;>
      simp [perform, Aiq.step, hm, Aiq.holderCall, Aiq.guardCall, ht, Aiq.ownerStep, linkStep, hown,
        hv, Aiq.holderStep, Aiq.getStep, prevLoc, GetCont.event]

/-- The state after a guard was returned. -/
theorem Inv.guardsQueue (h : Inv cfg c a) (hm : c.mutex = some .guard) (hq : a.queue ≠ []) :
    GuardsQueue cfg c where
  guard := hm
  nonempty := fun us c' hk =>
    (Exec.inv_run hk.exec hk.clean h).queueState_eq_none.2 (hk.queue_ne_nil h hq)
  returnsSome := fun us c' k e c'' hk hs => by
    have hi := Exec.inv_run hk.exec hk.clean h
    have hne := hk.queue_ne_nil h hq
    have ha : e.byHolder = true → (a.run us).Allows e := fun he => by
      refine (Inv.step (t := ⟨c', k, e, c''⟩) hi (Transition.clean_of_isHolder ?_) hs).1
      by_contra hk
      have hev := step_event (by simpa using hk) hs
      rw [he] at hev
      simp at hev
    constructor
    · rintro rfl
      exact hne (List.head?_eq_none_iff.1 (ha rfl))
    · rintro rfl
      exact hne (List.getLast?_eq_none_iff.1 (ha rfl))
  pop := fun us c' hk hm => (Exec.inv_run hk.exec hk.clean h).pop_some hm (hk.queue_ne_nil h hq)
  dequeue := fun us c' hk hm =>
    (Exec.inv_run hk.exec hk.clean h).dequeue_some hm (hk.queue_ne_nil h hq)

/-- A guard that a call of a thread returns is one of a queue with nodes. -/
theorem Sound.guardsQueue {u : Transition S T} (h : Sound cfg a u) (he : u.event = .guarded t) :
    GuardsQueue cfg u.dst := by
  have hm : u.dst.mutex = some .guard := step_guarded (he ▸ h.step)
  have hi := h.inv'
  have ha := h.allows
  rw [he] at hi ha
  exact hi.guardsQueue hm ha

end Guard

/-! ## The calls -/

instance (u : UpdPc S) : Decidable (u = .idle) :=
  match u with
  | .idle => isTrue rfl
  | .attempt .. | .waitLock .. | .secondLoad .. | .waitEmpty | .emptyLoad | .releasing =>
    isFalse nofun

/-- The steps `us` from `c` to `c'` are those from the call `q` of the thread `t` to its return. -/
structure ThreadRun [DecidableEq S] [QueueState S] (cfg : Config) (c : State S T)
    (us : List (Transition S T)) (c' : State S T) (t : ThreadId) (q : ThreadCall S) : Prop where
  exec : Exec cfg c us c'
  starts : us.head?.map Transition.act = some (.threadCall t q)
  runs : ∀ u ∈ us.tail, u.src.upd t ≠ .idle
  returns : c'.upd t = .idle

/-- No step of `t` among `us` writes to the shared memory. -/
def Idles (t : ThreadId) (us : List (Transition S T)) : Prop :=
  ∀ u ∈ us, u.act.ByThread u.src t → u.dst.mem = u.src.mem

/-- The thread `t` makes one update, from a state `s` to `f s`, and is returned no guard. -/
def UpdatesOnce (t : ThreadId) (f : ℕ → S → S) (us : List (Transition S T)) : Prop :=
  (∃ us₁ u us₂ i s, us = us₁ ++ u :: us₂ ∧ u.event = .update t s (f i s) ∧
    u.src.mem.tail = .state s ∧ u.dst.mem = u.src.mem.setTail (.state (f i s)) ∧
    Idles t us₁ ∧ Idles t us₂) ∧ ∀ u ∈ us, u.event ≠ .guarded t

/-- The thread `t` changes nothing and is returned the guard of a queue with nodes. -/
def LocksOnly [DecidableEq S] [QueueState S] (cfg : Config) (t : ThreadId)
    (us : List (Transition S T)) (c' : State S T) : Prop :=
  Idles t us ∧ us.getLast?.map Transition.event = some (.guarded t) ∧ GuardsQueue cfg c'

/-- The thread is in a call of `fetch_update_state_or_lock(f)` that has not made its update. -/
def UpdPc.Tries (f : ℕ → S → S) : UpdPc S → Prop
  | .attempt g _ k _ => g = .ofTotal f ∧ k ≠ .plain
  | .waitLock g _ | .secondLoad g _ => g = .ofTotal f
  | _ => False

theorem Idles.append {us us' : List (Transition S T)} (h : Idles t us) (h' : Idles t us') :
    Idles t (us ++ us') := fun u hu => (List.mem_append.1 hu).elim (h u) (h' u)

theorem Idles.singleton {u : Transition S T} (h : u.act.ByThread u.src t → u.dst.mem = u.src.mem) :
    Idles t [u] := fun w hw => by
  obtain rfl := List.mem_singleton.1 hw
  exact h

/-- A thread for which the lock is being released has made its update. -/
theorem step_releasing [DecidableEq S] [QueueState S] {k : Act S T} (hs : step cfg c k = some (c', e))
    (h : c.mutex = some (.release (.thread t)) → c.upd t = .releasing)
    (h' : c'.mutex = some (.release (.thread t))) : c'.upd t = .releasing := by
  have key := upd_setUpd_apply (S := S) (T := T) t
  cases k <;> simp only [step] at hs
  case lock => grind [State.mutex_hold]
  case holder =>
    cases hm : c.mutex <;> simp only [hm, reduceCtorEq] at hs
    unfold holderStep getStep GetCont.resume Removal.return Release.apply at hs
    repeat' split at hs
    all_goals grind [State.mutex_hold, State.mutex_free, State.mutex_withMem, State.mutex_setDrain]
  case holderCall q =>
    cases hm : c.mutex <;> simp only [hm, reduceCtorEq] at hs
    unfold holderCall guardCall drainLockedCall at hs
    repeat' split at hs
    all_goals grind [State.mutex_hold, State.mutex_free, State.mutex_withMem, State.mutex_setDrain]
  case owner x weak =>
    unfold ownerStep at hs
    grind [State.mutex_hold, State.mutex_withMem, State.mutex_setOwn, State.upd_withMem,
      State.upd_setOwn, mutex_linkStep, upd_linkStep]
  case ownerCall x q =>
    unfold ownerCall at hs
    grind [State.mutex_withMem, State.mutex_setOwn, State.upd_withMem, State.upd_setOwn]
  case thread t' weak =>
    unfold threadStep Attempt.test Attempt.err Attempt.ok at hs
    repeat' split at hs
    all_goals grind [State.mutex_hold, State.mutex_setUpd, State.mutex_withMem, State.upd_hold,
      State.upd_withMem]
  case threadCall t' q =>
    unfold threadCall Attempt.test Attempt.err at hs
    repeat' split at hs
    all_goals grind [State.mutex_setUpd, State.mutex_withMem, State.upd_withMem]
  case drain d q =>
    unfold drainStep at hs
    grind [State.mutex_hold, State.mutex_setDrain, State.upd_setDrain]

theorem threadStep_tries [DecidableEq S] {f : ℕ → S → S} {weak : Bool}
    (hs : threadStep c t weak = some (c', e)) (h : (c.upd t).Tries f) :
    (c'.upd t).Tries f ∧ c'.mem = c.mem ∧ e = .tau ∨
      (∃ i s, e = .update t s (f i s) ∧ c.mem.tail = .state s ∧
        c'.mem = c.mem.setTail (.state (f i s)) ∧ (c'.upd t = .idle ∨ c'.upd t = .releasing)) ∨
      e = .guarded t ∧ c'.mem = c.mem ∧ c'.upd t = .idle := by
  have key := upd_setUpd_apply (S := S) (T := T) t
  unfold threadStep at hs
  cases hu : c.upd t <;> rw [hu] at h hs <;> simp only [UpdPc.Tries] at h
  case attempt g i k s =>
    obtain ⟨rfl, hk⟩ := h
    simp only [UpdateFn.ofTotal] at hs
    split at hs
    · rename_i hc
      obtain ⟨rfl, rfl⟩ := Prod.mk.inj (Option.some.inj hs)
      refine .inr (.inl ⟨i, s, rfl, hc.1, ?_, ?_⟩) <;> cases k <;> simp [Attempt.ok]
    · have hs := Option.some.inj hs
      unfold Attempt.test Attempt.err at hs
      repeat' split at hs
      all_goals grind [UpdPc.Tries, UpdateFn.ofTotal, State.mem_setUpd, State.mem_hold, State.upd_hold]
  case waitLock g i =>
    dsimp only at hs
    split at hs
    · obtain ⟨rfl, rfl⟩ := Prod.mk.inj (Option.some.inj hs)
      exact .inl ⟨by simpa [UpdPc.Tries] using h, rfl, rfl⟩
    · simp at hs
  case secondLoad g i =>
    have hs := Option.some.inj hs
    unfold Attempt.test Attempt.err at hs
    repeat' split at hs
    all_goals grind [UpdPc.Tries, State.mem_setUpd, State.mem_hold, State.upd_hold]

section Calls

variable [DecidableEq S] [QueueState S] {f : ℕ → S → S} {us : List (Transition S T)}

/-- Where a call of `fetch_update_state_or_lock(f)` is after its steps `us`. -/
inductive UpdateProgress (t : ThreadId) (f : ℕ → S → S) (us : List (Transition S T)) (c : State S T) : Prop
  | tries : (c.upd t).Tries f → Idles t us → (∀ u ∈ us, u.event ≠ .guarded t) → UpdateProgress t f us c
  | updated : UpdatesOnce t f us → c.upd t = .releasing ∨ c.upd t = .idle → UpdateProgress t f us c
  | locked : Idles t us → us.getLast?.map Transition.event = some (.guarded t) → c.upd t = .idle →
      UpdateProgress t f us c

/-- The steps that do not belong to the call do not move it. -/
theorem UpdateProgress.foreign {u : Transition S T} (h : UpdateProgress t f us u.src)
    (hu : u.src.upd t ≠ .idle)
    (hs : Aiq.step cfg u.src u.act = some (u.dst, u.event)) (hf : ¬ u.act.ByThread u.src t) :
    UpdateProgress t f (us ++ [u]) u.dst := by
  have hupd := (step_upd hs t).resolve_right hf
  have hid : Idles t [u] := .singleton fun h => absurd h hf
  have hev : u.event ≠ .guarded t := fun he => hf (step_ofThread hs (.inr he))
  have hng : (∀ w ∈ us, w.event ≠ .guarded t) → ∀ w ∈ us ++ [u], w.event ≠ .guarded t := by
    intro hg w hw
    rcases List.mem_append.1 hw with hw | hw
    · exact hg w hw
    · rwa [List.mem_singleton.1 hw]
  cases h with
  | tries ht hi hg => exact .tries (hupd ▸ ht) (hi.append hid) (hng hg)
  | updated ho hr =>
    obtain ⟨⟨us₁, w, us₂, i, s, rfl, he, ht, hm, h₁, h₂⟩, hg⟩ := ho
    exact .updated ⟨⟨us₁, w, us₂ ++ [u], i, s, by simp, he, ht, hm, h₁, h₂.append hid⟩, hng hg⟩
      (hupd ▸ hr)
  | locked _ _ hi => exact absurd hi hu

/-- One step of the call. -/
theorem UpdateProgress.step {u : Transition S T} (h : UpdateProgress t f us u.src) (hu : u.src.upd t ≠ .idle)
    (hs : Aiq.step cfg u.src u.act = some (u.dst, u.event))
    (hr : u.src.mutex = some (.release (.thread t)) → u.src.upd t = .releasing) :
    UpdateProgress t f (us ++ [u]) u.dst := by
  by_cases hf : u.act.ByThread u.src t
  swap
  · exact h.foreign hu hs hf
  have hng : u.event ≠ .guarded t → (∀ w ∈ us, w.event ≠ .guarded t) →
      ∀ w ∈ us ++ [u], w.event ≠ .guarded t := by
    intro he hg w hw
    rcases List.mem_append.1 hw with hw | hw
    · exact hg w hw
    · rwa [List.mem_singleton.1 hw]
  cases h with
  | tries ht hi hg =>
    cases hk : u.act <;> rw [hk] at hf hs <;> simp only [Act.ByThread] at hf
    case holder =>
      rw [hr hf] at ht
      exact ht.elim
    case threadCall t' q =>
      subst hf
      simp only [Aiq.step, threadCall] at hs
      cases hq : u.src.upd t' <;> simp [hq] at hs hu
    case thread t' weak =>
      subst hf
      rcases threadStep_tries hs ht with ⟨ht', hm, he⟩ | ⟨i, s, he, htl, hm, hi'⟩ | ⟨he, hm, hi'⟩
      · exact .tries ht' (hi.append (.singleton fun _ => hm)) (hng (by simp [he]) hg)
      · refine .updated ⟨⟨us, u, [], i, s, rfl, he, htl, hm, hi, by simp [Idles]⟩, ?_⟩ hi'.symm
        exact hng (by simp [he]) hg
      · exact .locked (hi.append (.singleton fun _ => hm)) (by simp [he]) hi'
  | updated ho hrel =>
    have hrel := hrel.resolve_right hu
    cases hk : u.act <;> rw [hk] at hf hs <;> simp only [Act.ByThread] at hf
    case holder =>
      -- the lock is released and the call returns
      simp only [Aiq.step, hf, holderStep, Release.apply] at hs
      obtain ⟨hd, he⟩ := Prod.mk.inj (Option.some.inj hs)
      obtain ⟨⟨us₁, w, us₂, i, s, rfl, he', ht, hm, h₁, h₂⟩, hg⟩ := ho
      have hid : Idles t [u] := .singleton fun _ => by simp [← hd]
      refine .updated ⟨⟨us₁, w, us₂ ++ [u], i, s, by simp, he', ht, hm, h₁, h₂.append hid⟩, ?_⟩ ?_
      · exact hng (by simp [← he]) hg
      · exact .inr (by simp [← hd])
    case threadCall t' q =>
      subst hf
      simp [Aiq.step, threadCall, hrel] at hs
    case thread t' weak =>
      subst hf
      simp [Aiq.step, threadStep, hrel] at hs
  | locked _ _ hi => exact absurd hi hu

/-- Only a thread that has made its update is waited for by the release of the lock. -/
theorem Exec.releasing {s : S} {v : T} (h : Exec cfg (.init s v) us c) (t : ThreadId)
    (hm : c.mutex = some (.release (.thread t))) : c.upd t = .releasing := by
  refine Lts.Run.prefixed (P := fun _ c => c.mutex = some (.release (.thread t)) →
    c.upd t = .releasing) h (by simp [State.init]) ?_ hm
  rintro us u c₁ c₂ - ⟨rfl, rfl, hs⟩ hr hm
  exact step_releasing hs hr hm

/-- A call of `fetch_update_state_or_lock(f)`, or of its locked half, up to its return. -/
theorem ThreadRun.progress {s : S} {v : T} {ts : List (Transition S T)} {q : ThreadCall S}
    (h₀ : Exec cfg (.init s v) ts c) (h : ThreadRun cfg c us c' t q)
    (hq : q = .fetchUpdateStateOrLock f ∨ q = .fetchUpdateStateLocked f) :
    UpdateProgress t f us c' := by
  obtain ⟨hrun, hst, hr, -⟩ := h
  cases us with
  | nil => simp at hst
  | cons u us =>
    obtain ⟨c₁, ⟨rfl, rfl, hs⟩, hrun⟩ := hrun.cons_inv
    have hu : u.act = .threadCall t q := by simpa using hst
    rw [hu] at hs
    have hbase : (u.dst.upd t).Tries f ∧ u.dst.mem = u.src.mem ∧ u.event = .tau := by
      have key := upd_setUpd_apply (S := S) (T := T) t
      simp only [Aiq.step, threadCall] at hs
      rcases hq with rfl | rfl
      · unfold Attempt.test Attempt.err at hs
        repeat' split at hs
        all_goals grind [UpdPc.Tries, UpdateFn.ofTotal, State.mem_setUpd]
      · grind [UpdPc.Tries, UpdateFn.ofTotal, State.mem_setUpd]
    have h₁ : Exec cfg (.init s v) (ts ++ [u]) u.dst := h₀.snoc ⟨rfl, rfl, hu ▸ hs⟩
    refine (Lts.Run.prefixed (P := fun ws c => Exec cfg (.init s v) (ts ++ [u] ++ ws) c ∧
      UpdateProgress t f (u :: ws) c) hrun ⟨by simpa using h₁, ?_⟩ ?_).2
    · exact .tries hbase.1 (.singleton fun _ => hbase.2.1) (by simp [hbase.2.2])
    · rintro ws w c₁ c₂ hw ⟨rfl, rfl, hs⟩ ⟨hx, hp⟩
      refine ⟨by simpa using hx.snoc ⟨rfl, rfl, hs⟩, ?_⟩
      exact hp.step (hr w hw) hs (Exec.releasing hx t)

/-- **Update or lock, exactly once.** In any interleaving, a call of `fetch_update_state_or_lock(f)` or
`fetch_update_state_or_locked` that returns has either made one atomic update from a state `s` to `f s`
and got no guard, or has changed nothing and got the guard of a queue that has nodes, and keeps nodes
until the holder of the guard removes one or drains. A guard from `is_empty_or_lock` is of the same
kind. -/
theorem updateOrLock_exactlyOnce {s : S} {v : T} {ts : List (Transition S T)} {q : ThreadCall S}
    (h₀ : Exec cfg (.init s v) ts c) (h : ThreadRun cfg c us c' t q)
    (hc : ∀ u ∈ ts ++ us, u.Calm) :
    (∀ f, q = .fetchUpdateStateOrLock f ∨ q = .fetchUpdateStateLocked f →
      Xor (UpdatesOnce t f us) (LocksOnly cfg t us c')) ∧
    (q = .isEmptyOrLock → us.getLast?.map Transition.event = some (.guarded t) →
      GuardsQueue cfg c') := by
  have hguard : us.getLast?.map Transition.event = some (.guarded t) → GuardsQueue cfg c' := by
    intro hg
    obtain ⟨u, hu, he⟩ := Option.map_eq_some_iff.1 hg
    obtain ⟨ws, rfl⟩ := List.getLast?_eq_some_iff.1 hu
    have hrun : Exec cfg (.init s v) ((ts ++ ws) ++ u :: []) c' := by
      simpa using h₀.append h.exec
    have hcl := Exec.clean hrun fun w hw => hc w (by simpa using hw)
    obtain ⟨-, hs, hrest⟩ := Exec.at_step hrun hcl (Inv.init cfg s v)
    obtain rfl := hrest.nil_inv
    exact hs.guardsQueue he
  refine ⟨fun f hq => ?_, fun _ => hguard⟩
  cases h.progress h₀ hq with
  | tries ht _ _ =>
    rw [h.returns] at ht
    exact ht.elim
  | updated ho _ =>
    refine .inl ⟨ho, fun hl => ?_⟩
    obtain ⟨u, hu, he⟩ := Option.map_eq_some_iff.1 hl.2.1
    exact ho.2 u (List.mem_of_getLast? hu) he
  | locked hi hg _ =>
    refine .inr ⟨⟨hi, hg, hguard hg⟩, fun ho => ?_⟩
    obtain ⟨u, hu, he⟩ := Option.map_eq_some_iff.1 hg
    exact ho.2 u (List.mem_of_getLast? hu) he

end Calls

/-- A call that finds a node at both of its attempts. -/
def lockedUpdate : List (Act ℕ Unit) :=
  [.threadCall 1 (.fetchUpdateStateOrLock fun _ s => s + 1), .thread 1 false, .thread 1 false]

theorem updateOrLock_exactlyOnce_lockedUpdate :
    let c := (State.init 5 ()).after (trace ⟨.x86, 0⟩ (.init 5 ()) (insertActs 0 ()))
    let us := trace ⟨.x86, 0⟩ c lockedUpdate
    Xor (UpdatesOnce 1 (fun _ s => s + 1) us) (LocksOnly ⟨.x86, 0⟩ 1 us (c.after us)) := by
  intro c us
  have h₀ : Exec ⟨.x86, 0⟩ (.init 5 ()) (trace ⟨.x86, 0⟩ (.init 5 ()) (insertActs 0 ())) c :=
    exec_trace (by decide +kernel)
  have h₁ : Exec ⟨.x86, 0⟩ c us (c.after us) := exec_trace (by decide +kernel)
  have hrun : ThreadRun ⟨.x86, 0⟩ c us (c.after us) 1
      (.fetchUpdateStateOrLock fun _ s => s + 1) := ⟨h₁, rfl, by decide +kernel, rfl⟩
  exact (updateOrLock_exactlyOnce h₀ hrun (by decide +kernel)).1 _ (.inl rfl)

end Aiq
