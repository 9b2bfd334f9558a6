import Aiq.Inv.Frame

/-!
# Steps of the threads that update the state

`compare_exchange_state` and `fetch_update_state` write the tail, by a CAS that succeeds only on a
state, that is, on an empty queue (`Inv.updateState`). The `*_or_lock` calls take the mutex between
their two attempts; the second attempt gives up only on a queue that has nodes, because the update
closure of these calls never declines.
-/

namespace Aiq

variable {S T : Type} {cfg : Config} {c : State S T} {a : Abs S} {t : ThreadId}

/-- A CAS of the queue's state. -/
theorem Inv.updateState (h : Inv cfg c a) {s : S} (ht : c.mem.tail = .state s) (s' : S) :
    a.Allows (.update t s s') ∧
      Inv cfg (c.withMem (c.mem.setTail (.state s'))) (a.apply (.update t s s')) := by
  obtain ⟨hq, hs⟩ := Abs.tail_eq_state_iff.1 (h.tail.symm.trans ht)
  refine ⟨⟨hq, hs⟩, ?_⟩
  have e : EnvStep c a (c.withMem (c.mem.setTail (.state s'))) (a.apply (.update t s s')) :=
    { mutex := rfl
      queue := ⟨[], by simp [Abs.apply], by simp⟩
      nodup := (h.shape.nodup .queue).of_map
      drained := rfl
      lk := fun _ => rfl
      fresh := fun hd => hd
      held := fun _ => Iff.rfl
      pend := .inl
      locked := fun hx => hx
      prev := fun _ => .inl rfl
      link := fun _ => .inl rfl
      parkedNext := rfl }
  exact h.env e (h.shape.of_mem (fun _ => rfl) (fun _ => rfl)) (by simp [Abs.apply, Abs.tail, hq])
    h.last (fun x => (h.own x).frame (fun ho => ⟨ho, rfl, rfl⟩) (fun ho ho' => absurd ho' ho))
    (fun d => e.drainOk h d) h.thread

/-- A thread's control state is moved. -/
theorem Inv.setUpd (h : Inv cfg c a) {u : UpdPc S} (hu : ThreadOk c.mutex t u) :
    Inv cfg (c.setUpd t u) a := by
  refine h.move rfl rfl rfl rfl rfl h.own (fun y hy => hy) rfl (fun hl => (h.parked hl).1) rfl (fun t' => ?_)
    (fun hp => (h.holder hp).congr rfl rfl rfl)
  by_cases e : t' = t
  · subst e
    simpa using hu
  · simpa [e] using h.thread t'

/-- The thread that holds the mutex moves on, or takes it. -/
theorem Inv.setUpd_hold (h : Inv cfg c a) {u : UpdPc S} {q : HolderPc S}
    (hm : c.mutex = none ∨ c.mutex = some (.upd t)) (hu : ThreadOk (some q) t u)
    (hq : q = .upd t ∨ q = .release (.thread t) ∨ q = .guard) :
    Inv cfg ((c.setUpd t u).hold q) a := by
  have hpk : c.parkedAt = none := by
    rcases hm with e | e <;> simp [State.parkedAt, e, HolderPc.parkedAt]
  refine h.move rfl rfl rfl rfl rfl h.own ?_ ?_ ?_ ?_ ?_ ?_
  · intro y hy
    rcases hm with e | e <;> simp [State.hole, e, HolderPc.hole] at hy
  · rcases hm with e | e <;> rcases hq with rfl | rfl | rfl <;>
      simp [State.leaving, e, HolderPc.leaving]
  · intro l hl
    exact absurd (h.parked hl).1 (by simp [hpk])
  · rcases hm with e | e <;> rcases hq with rfl | rfl | rfl <;> simp [e, HolderPc.drainId]
  · intro t'
    by_cases e : t' = t
    · subst e
      simpa using hu
    · have : ThreadOk (some q) t' (c.upd t') :=
        (h.thread t').of_ne (by rcases hm with e' | e' <;> simp [e', HolderPc.threadId, Ne.symm e])
      simpa [e] using this
  · rintro _ ⟨⟩
    rcases hq with rfl | rfl | rfl <;> trivial

/-- What the attempt `k` of `t` relies on. -/
def Attempt.Runs (k : Attempt) (c : State S T) (t : ThreadId) (f : UpdateFn S) : Prop :=
  match k with
  | .plain => True
  | .first => f.Total
  | .second => f.Total ∧ c.mutex = some (.upd t)

theorem threadOk_attempt {f : UpdateFn S} {i : ℕ} {k : Attempt} {s : S} :
    ThreadOk c.mutex t (.attempt f i k s) ↔ k.Runs c t f := by
  cases k <;> rfl

/-- The return of an attempt that made its update. -/
theorem Inv.attemptOk (h : Inv cfg c a) {k : Attempt} {f : UpdateFn S} (hk : k.Runs c t f) :
    Inv cfg (k.ok c t) a := by
  cases k with
  | plain => exact h.setUpd trivial
  | first => exact h.setUpd trivial
  | second => exact h.setUpd_hold (.inr hk.2) rfl (.inr (.inl rfl))

/-- The return of an attempt that found nodes in the queue. -/
theorem Inv.attemptErr (h : Inv cfg c a) {k : Attempt} {f : UpdateFn S} {i : ℕ} (hk : k.Runs c t f)
    (hq : k = .second → a.queue ≠ []) :
    a.Allows (k.err c t f i).2 ∧ Inv cfg (k.err c t f i).1 (a.apply (k.err c t f i).2) := by
  cases k with
  | plain => exact ⟨trivial, h.setUpd trivial⟩
  | first => exact ⟨trivial, h.setUpd hk⟩
  | second => exact ⟨hq rfl, h.setUpd_hold (.inr hk.2) trivial (.inr (.inr rfl))⟩

/-- The loop test of an attempt. -/
theorem Inv.attemptTest (h : Inv cfg c a) {k : Attempt} {f : UpdateFn S} {i : ℕ}
    (hk : k.Runs c t f) :
    a.Allows (k.test c t f i).2 ∧ Inv cfg (k.test c t f i).1 (a.apply (k.test c t f i).2) := by
  unfold Attempt.test
  cases ht : c.mem.tail with
  | state s => exact ⟨trivial, h.setUpd (threadOk_attempt.2 hk)⟩
  | ptr b => exact h.attemptErr hk fun _ => Abs.queue_ne_nil_of_tail (h.tail.symm.trans ht)

/-- An instruction of the thread `t`. -/
theorem Inv.threadStep [DecidableEq S] (h : Inv cfg c a) {weak : Bool} {c' : State S T} {e : Event S}
    (hs : threadStep c t weak = some (c', e)) : a.Allows e ∧ Inv cfg c' (a.apply e) := by
  have hok := h.thread t
  cases hu : c.upd t <;> rw [hu] at hok <;> simp only [Aiq.threadStep, hu, reduceCtorEq] at hs
  case attempt f i k s =>
    have hk : k.Runs c t f := threadOk_attempt.1 hok
    cases hf : f i s with
    | none =>
      rw [hf] at hs
      obtain rfl : k = .plain := by
        cases k with
        | plain => rfl
        | first => exact absurd hf (hk i s)
        | second => exact absurd hf (hk.1 i s)
      obtain ⟨rfl, rfl⟩ := hs
      exact ⟨trivial, h.setUpd trivial⟩
    | some s' =>
      simp only [hf] at hs
      split at hs
      · rename_i ht
        obtain ⟨rfl, rfl⟩ := hs
        obtain ⟨hl, h'⟩ := h.updateState (t := t) ht.1 s'
        exact ⟨hl, h'.attemptOk (k := k) (f := f) (by cases k <;> exact hk)⟩
      · obtain ⟨rfl, rfl⟩ := Prod.mk.inj (Option.some.inj hs)
        exact h.attemptTest hk
  case waitLock f i =>
    cases hm : c.mutex <;> simp only [hm, reduceCtorEq, Option.some.injEq, Prod.mk.injEq] at hs
    obtain ⟨rfl, rfl⟩ := hs
    exact ⟨trivial, h.setUpd_hold (.inl hm) ⟨hok, rfl⟩ (.inl rfl)⟩
  case secondLoad f i =>
    obtain ⟨rfl, rfl⟩ := Prod.mk.inj (Option.some.inj hs)
    exact h.attemptTest (k := .second) hok
  case waitEmpty =>
    cases hm : c.mutex <;> simp only [hm, reduceCtorEq, Option.some.injEq, Prod.mk.injEq] at hs
    obtain ⟨rfl, rfl⟩ := hs
    exact ⟨trivial, h.setUpd_hold (.inl hm) rfl (.inl rfl)⟩
  case emptyLoad =>
    cases ht : c.mem.tail <;> simp only [ht, Option.some.injEq, Prod.mk.injEq] at hs <;>
      obtain ⟨rfl, rfl⟩ := hs
    case state s => exact ⟨trivial, h.setUpd_hold (.inr hok) rfl (.inr (.inl rfl))⟩
    case ptr b =>
      exact ⟨Abs.queue_ne_nil_of_tail (h.tail.symm.trans ht),
        h.setUpd_hold (.inr hok) trivial (.inr (.inr rfl))⟩

/-- A call of the thread `t`. -/
theorem Inv.threadCall [DecidableEq S] (h : Inv cfg c a) {k : ThreadCall S} {c' : State S T}
    {e : Event S} (hs : threadCall c t k = some (c', e)) : a.Allows e ∧ Inv cfg c' (a.apply e) := by
  cases hu : c.upd t <;> cases k <;> simp only [Aiq.threadCall, hu, reduceCtorEq] at hs
  case compareExchangeState cur new =>
    split at hs
    · rename_i ht
      obtain ⟨rfl, rfl⟩ := hs
      exact h.updateState ht new
    · obtain ⟨rfl, rfl⟩ := hs
      exact ⟨trivial, h⟩
  case fetchUpdateState f =>
    obtain ⟨rfl, rfl⟩ := Prod.mk.inj (Option.some.inj hs)
    exact h.attemptTest (k := .plain) trivial
  case fetchUpdateStateOrLock f =>
    obtain ⟨rfl, rfl⟩ := Prod.mk.inj (Option.some.inj hs)
    exact h.attemptTest (k := .first) (f := .ofTotal f) (fun i s => Option.some_ne_none _)
  case fetchUpdateStateLocked f =>
    obtain ⟨rfl, rfl⟩ := hs
    exact ⟨trivial, h.setUpd fun i s => Option.some_ne_none _⟩
  case isEmptyOrLock =>
    cases ht : c.mem.tail <;> simp only [ht, Option.some.injEq, Prod.mk.injEq] at hs <;>
      obtain ⟨rfl, rfl⟩ := hs
    case state s => exact ⟨trivial, h⟩
    case ptr b => exact ⟨trivial, h.setUpd trivial⟩

end Aiq
