import Aiq.Inv.Holder
import Aiq.Inv.Thread
import Aiq.Machine.Frame

/-!
# The machine simulates the abstract queue

Every clean step of the machine is allowed by the abstract queue and keeps the invariant
(`Inv.step`); so in every execution of clean steps the machine represents what its events make of
the abstract queue (`Exec.inv`), and each of its events was allowed when it happened
(`Exec.at_step`). The executions without unwinding closures are among these (`Exec.clean`).
-/

namespace Aiq

variable {S T : Type} [DecidableEq S] [QueueState S] {cfg : Config} {c c' : State S T} {a : Abs S}
  {s : S} {v : T} {ts : List (Transition S T)}

/-- One step of the machine. -/
theorem Inv.step {t : Transition S T} (h : Inv cfg t.src a) (ht : t.Clean)
    (hs : step cfg t.src t.act = some (t.dst, t.event)) :
    a.Allows t.event ∧ Inv cfg t.dst (a.apply t.event) := by
  obtain ⟨c, k, e, c'⟩ := t
  cases k <;> simp only [Aiq.step] at hs
  case lock =>
    cases hm : c.mutex <;> simp only [hm, reduceCtorEq, Option.some.injEq, Prod.mk.injEq] at hs
    obtain ⟨rfl, rfl⟩ := hs
    exact ⟨trivial, h.acquire hm rfl rfl trivial⟩
  case holder =>
    cases hm : c.mutex <;> simp only [hm, reduceCtorEq] at hs
    exact h.holderStep hm hs
  case holderCall k =>
    cases hm : c.mutex <;> simp only [hm, reduceCtorEq] at hs
    exact h.holderCall hm hs
  case owner x weak => exact h.ownerStep ht hs
  case ownerCall x k => exact h.ownerCall hs
  case thread t weak => exact h.threadStep hs
  case threadCall t k => exact h.threadCall hs
  case drain d k => exact h.drainStep (by rintro rfl; exact ht) hs

/-- The control state of the holder is its own, but for the call of a thread that runs under the
lock. -/
theorem Inv.mutex_step (h : Inv cfg c a) {k : Act S T} {p : HolderPc S} {e : Event S}
    (hp : c.mutex = some p) (hu : ∀ t, p ≠ .upd t) (hk : k.isHolder = false)
    (hs : Aiq.step cfg c k = some (c', e)) : c'.mutex = some p := by
  rcases step_mutex hk hs with hm | ⟨hm | ⟨t, ht⟩, -⟩
  · rw [hm, hp]
  · simp [hm] at hp
  · have hok := h.thread t
    cases hq : c.upd t with
    | attempt f i q s =>
      cases q <;> simp [hq, UpdPc.underLock] at ht
      rw [hq] at hok
      exact absurd (Option.some.inj (hp.symm.trans hok.2)) (hu t)
    | secondLoad f i =>
      rw [hq] at hok
      exact absurd (Option.some.inj (hp.symm.trans hok.2)) (hu t)
    | emptyLoad =>
      rw [hq] at hok
      exact absurd (Option.some.inj (hp.symm.trans hok)) (hu t)
    | _ => simp [hq, UpdPc.underLock] at ht

/-- What is seen of the holder's control state, and is the same in all states in which the mutex is
locked, does not change by the steps of the others. -/
theorem Inv.view_step {β : Type} (h : Inv cfg c a) {k : Act S T} {e : Event S} (f : HolderPc S → β)
    (z : β) (hf : ∀ p, p.isEntry = true → f p = z) (hk : k.isHolder = false)
    (hs : Aiq.step cfg c k = some (c', e)) : (c'.mutex.map f).getD z = (c.mutex.map f).getD z := by
  rcases step_mutex hk hs with hm | ⟨-, q, hm, hq⟩
  · rw [hm]
  · have hc : (c.mutex.map f).getD z = z := by
      cases hp : c.mutex with
      | none => rfl
      | some p =>
        by_cases hu : ∃ u, p = .upd u
        · obtain ⟨u, rfl⟩ := hu
          exact hf _ rfl
        · have hm' := h.mutex_step hp (not_exists.1 hu) hk hs
          obtain rfl : q = p := Option.some.inj (hm.symm.trans hm')
          exact hf q hq
    rw [hc, hm]
    exact hf q hq

theorem Inv.bind_step {β : Type} (h : Inv cfg c a) {k : Act S T} {e : Event S}
    (f : HolderPc S → Option β) (hf : ∀ p, p.isEntry = true → f p = none) (hk : k.isHolder = false)
    (hs : Aiq.step cfg c k = some (c', e)) : c'.mutex.bind f = c.mutex.bind f := by
  have hb : ∀ o : Option (HolderPc S), o.bind f = (o.map f).getD none := fun o => by
    cases o <;> rfl
  rw [hb, hb]
  exact h.view_step f none hf hk hs

/-- A step that was made from a state that represents `a`, with what is known of it. -/
structure Sound (cfg : Config) (a : Abs S) (t : Transition S T) : Prop where
  step : step cfg t.src t.act = some (t.dst, t.event)
  inv : Inv cfg t.src a
  allows : a.Allows t.event
  inv' : Inv cfg t.dst (a.apply t.event)

/-- Induction over an execution of clean steps: `P us c` is to hold after the steps `us`. -/
theorem Exec.induct {P : List (Transition S T) → State S T → Prop} (h : Exec cfg c ts c')
    (hc : ∀ t ∈ ts, t.Clean) (hi : Inv cfg c a) (h₀ : P [] c)
    (hP : ∀ us t, t ∈ ts → Sound cfg (a.run us) t → P us t.src → P (us ++ [t]) t.dst) : P ts c' := by
  suffices Inv cfg c' (a.run ts) ∧ P ts c' from this.2
  refine h.prefixed (P := fun us c => Inv cfg c (a.run us) ∧ P us c) ⟨hi, h₀⟩ ?_
  rintro us t c₁ c₂ ht ⟨rfl, rfl, hs⟩ ⟨hi', hp⟩
  obtain ⟨ha, hi''⟩ := hi'.step (hc t ht) hs
  exact ⟨by simpa using hi'', hP us t ht ⟨hs, hi', ha, hi''⟩ hp⟩

/-- The machine represents the abstract queue along every execution of clean steps. -/
theorem Exec.inv_run (h : Exec cfg c ts c') (hc : ∀ t ∈ ts, t.Clean) (hi : Inv cfg c a) :
    Inv cfg c' (a.run ts) :=
  Exec.induct (P := fun us c => Inv cfg c (a.run us)) h hc hi hi
    fun us t _ hs _ => by simpa using hs.inv'

theorem Exec.inv (h : Exec cfg (.init s v) ts c) (hc : ∀ t ∈ ts, t.Clean) :
    Inv cfg c ((Abs.init s).run ts) :=
  Exec.inv_run h hc (Inv.init cfg s v)

/-- What holds at a step of an execution of clean steps. -/
theorem Exec.at_step {us : List (Transition S T)} {t : Transition S T}
    (h : Exec cfg c (ts ++ t :: us) c') (hc : ∀ u ∈ ts ++ t :: us, u.Clean) (hi : Inv cfg c a) :
    Exec cfg c ts t.src ∧ Sound cfg (a.run ts) t ∧ Exec cfg t.dst us c' := by
  obtain ⟨c₁, h₁, h₂⟩ := Lts.Run.split h
  obtain ⟨c₂, ⟨rfl, rfl, hs⟩, h₃⟩ := h₂.cons_inv
  have hi' := Exec.inv_run h₁ (fun t ht => hc t (List.mem_append_left _ ht)) hi
  obtain ⟨ha, hi''⟩ := hi'.step (hc t (by simp)) hs
  exact ⟨h₁, ⟨hs, hi', ha, hi''⟩, h₃⟩

theorem Exec.at_head {us : List (Transition S T)} {t : Transition S T}
    (h : Exec cfg c (t :: us) c') (hc : ∀ u ∈ t :: us, u.Clean) (hi : Inv cfg c a) :
    Sound cfg a t ∧ Exec cfg t.dst us c' :=
  (Exec.at_step (show Exec cfg c ([] ++ t :: us) c' from h) hc hi).2

/-- Without unwinding no `Drain` loses its lock for good. -/
theorem Exec.not_loose (h : Exec cfg (.init s v) ts c) (hc : ∀ t ∈ ts, t.Calm) (d : DrainId)
    (l : Bool) : c.drains d ≠ .loose l := by
  refine Lts.Run.prefixed (P := fun _ c => c.drains d ≠ .loose l) h (by simp [State.init]) ?_
  rintro us t c₁ c₂ ht ⟨rfl, rfl, hs⟩ hd hd'
  exact hd (step_loose (hc t ht) hs hd')

/-- Executions without unwinding are clean. -/
theorem Exec.clean (h : Exec cfg (.init s v) ts c) (hc : ∀ t ∈ ts, t.Calm) : ∀ t ∈ ts, t.Clean := by
  intro t ht
  obtain ⟨ts₁, ts₂, rfl⟩ := List.append_of_mem ht
  obtain ⟨c₁, h₁, h₂⟩ := Lts.Run.split h
  obtain ⟨c₂, ⟨rfl, rfl, -⟩, -⟩ := h₂.cons_inv
  have hcalm := hc t ht
  unfold Transition.Calm at hcalm
  unfold Transition.Clean
  split
  · rename_i x weak ha
    rw [ha] at hcalm
    cases ho : t.src.own x <;> simp_all [OwnPc.unwinds, OwnPc.unwindsLate]
  · rename_i d ha
    rintro ⟨hl, -⟩
    cases hd : t.src.drains d <;> rw [hd] at hl <;> simp [DrainPc.isLoose] at hl
    exact Exec.not_loose h₁ (fun t ht => hc t (List.mem_append_left _ ht)) _ _ hd
  · trivial

end Aiq
