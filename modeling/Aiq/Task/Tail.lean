import Aiq.Task.Head

/-!
# The state of a queue, seen from its tasks

The tail of a queue without nodes holds its state (`World.Ok.queueState_eq_some`). It is written by updates,
by the removal of the last node and by `Drain`s (`Event.writes`).
-/

namespace Aiq

variable {S T P G I : Type} {cfg : Config} {a : Abs S} {e : Event S} {i j : TaskId} {v v' : View S}

theorem World.Ok.queueState_of_nil {w : World S T P G} (h : w.Ok cfg a) (ha : a.queue = []) :
    w.q.mem.queueState = some a.state := by
  rw [Mem.queueState, h.inv.tail, Abs.tail, ha]
  rfl

theorem World.Ok.queueState_of_ne_nil {w : World S T P G} (h : w.Ok cfg a) (ha : a.queue ≠ []) :
    w.q.mem.queueState = none := h.inv.queueState_eq_none.2 ha

theorem World.Ok.queueState_eq_some {w : World S T P G} {s : S} (h : w.Ok cfg a) :
    w.q.mem.queueState = some s ↔ a.queue = [] ∧ a.state = s := by
  by_cases ha : a.queue = []
  · simp [h.queueState_of_nil ha, ha]
  · simp [h.queueState_of_ne_nil ha, ha]

/-- The event may change the state of the queue. -/
def Event.writes : Event S → Bool
  | .update _ _ _ | .remove _ _ | .drain _ _ => true
  | _ => false

theorem Abs.state_apply (h : e.writes = false) : (a.apply e).state = a.state := by
  cases e <;> first | rfl | cases h

/-- The state of an empty queue stays there until it is updated, or a node is enqueued. -/
theorem Abs.stored_apply (h : a.Allows e) (hq : a.queue = []) :
    ((a.apply e).queue = [] ∧ (a.apply e).state = a.state) ∨
      (∃ t s, e = .update t a.state s ∧ (a.apply e).queue = [] ∧ (a.apply e).state = s) ∨
      ∃ x, e = .enqueue x := by
  cases e <;> try exact .inl ⟨hq, rfl⟩
  case enqueue x => exact .inr (.inr ⟨x, rfl⟩)
  case update t s s' => exact .inr (.inl ⟨t, s', by rw [h.2], hq, rfl⟩)
  case remove x s => exact .inl ⟨by simp [Abs.apply, hq], by simp [Abs.apply, hq]⟩
  case drain d s => exact absurd hq h

/-- Where the state of an empty queue comes from. -/
theorem Abs.stored_inv (h : a.Allows e) (hq : (a.apply e).queue = []) :
    (a.queue = [] ∧ (a.apply e).state = a.state) ∨
      (∃ t, e = .update t a.state (a.apply e).state) ∨
      (∃ x, e = .remove x (a.apply e).state ∧ a.queue = [x]) ∨ ∃ d, e = .drain d (a.apply e).state := by
  cases e <;> try exact .inl ⟨hq, rfl⟩
  case enqueue x => simp [Abs.apply] at hq
  case update t s s' => exact .inr (.inl ⟨t, by rw [h.2]; rfl⟩)
  case remove x s =>
    by_cases ha : a.queue = [x]
    · exact .inr (.inr (.inl ⟨x, by simp [Abs.apply, ha], ha⟩))
    · refine .inl ⟨?_, by simp [Abs.apply, ha]⟩
      rcases List.erase_eq_nil_iff.1 hq with hq | hq
      · exact hq
      · exact absurd hq ha
  case drain d s => exact .inr (.inr (.inr ⟨d, rfl⟩))

/-- An update is made by the operation on the state that is under way. -/
theorem InstrStep.update_inv [QueueState S] {s : Option S} {t t' : S}
    (h : InstrStep i s v (.update j t t') v') : j = i ∧ s = some t ∧
      ∃ f n, (v.upd = .trying f n t ∨ v.upd = .asking (some f) ∨ v.upd = .deciding (some f)) ∧
        f n t = some t' := by
  cases h
  case update f n h' h => exact ⟨rfl, h', f, n, .inl rfl, h⟩
  case updateFirst f n h' h => exact ⟨rfl, h', f, n, .inr (.inl rfl), h⟩
  case updateSecond f n h' h => exact ⟨rfl, h', f, n, .inr (.inr rfl), h⟩
  case holder h => cases h

/-- What the operation under the lock writes. -/
theorem InstrStep.shrinks_inv [QueueState S] {s : Option S} (h : InstrStep i s v e v') :
    (∀ x t, e = .remove x t → ∃ k, v.op = some (.removing x t k)) ∧
      ∀ d t, e = .drain d t → v.op = some (.newDrain d t) := by
  cases h
  case holder h => cases h <;> simp
  all_goals simp

theorem CallStep.writes_inv [QueueState S] {s : Option S} {r : RawNodeState} {k : Call S T}
    (h : CallStep i s r k v e v') (he : e.writes = true) :
    ∃ t t', k = .thread (.compareExchangeState t t') := by
  cases h
  case compareExchange t t' h => exact ⟨t, t', rfl⟩
  case holder h => cases h <;> cases he
  all_goals cases he

theorem Client.Moves.allows [DecidableEq S] [QueueState S] {C : Client S T P G I}
    {w w' : World S T P G} {n : I} (hm : C.Moves cfg a w i n w' e) : a.Allows e := by
  cases hm with
  | op hk hs hw => exact hs.allows
  | call hi hr hk hl hs hw => exact hs.allows
  | own hi hr hk hw => trivial

/-- The state on which a `fetch_update_state` tries has been loaded. -/
theorem InstrStep.trying_inv [QueueState S] {s : Option S} {f : UpdateFn S} {m : ℕ} {t : S}
    (h : InstrStep i s v e v') (hu : v'.upd = .trying f m t) :
    (∃ f m, v.upd = .trying f m t) ∨ s = some t := by
  cases h
  case retry h =>
    obtain ⟨-, -, rfl⟩ := UpdOp.trying.inj hu
    exact .inr h
  case holder o o' h =>
    refine .inl ⟨f, m, ?_⟩
    dsimp only [HolderOp.updAfter] at hu
    split at hu
    · simp at hu
    · exact hu
  all_goals
    first
    | exact .inl ⟨f, m, hu⟩
    | simp at hu

theorem CallStep.trying_inv [QueueState S] {s : Option S} {r : RawNodeState} {k : Call S T}
    {f : UpdateFn S} {m : ℕ} {t : S} (h : CallStep i s r k v e v') (hu : v'.upd = .trying f m t) :
    (∃ f m, v.upd = .trying f m t) ∨ s = some t := by
  cases h
  case fetchUpdate h =>
    obtain ⟨-, -, rfl⟩ := UpdOp.trying.inj hu
    exact .inr h
  all_goals
    first
    | exact .inl ⟨f, m, hu⟩
    | simp at hu

/-- `fetch_update_state_or_lock` returns with the lock. -/
theorem InstrStep.guarded_inv [QueueState S] {s : Option S} {t : ThreadId}
    (h : InstrStep i s v (.guarded t) v') : v.upd.runs = true := by
  cases h with
  | guarded x f h => rfl
  | holder _ _ _ _ _ h => cases h

theorem CallStep.ne_guarded [QueueState S] {s : Option S} {r : RawNodeState} {k : Call S T} {t : ThreadId}
    (h : CallStep i s r k v e v') : e ≠ .guarded t := by
  cases h with
  | holder _ _ _ _ _ _ h => cases h <;> simp
  | _ => simp

/-- A task that is given the lock by `fetch_update_state_or_lock` has called it. -/
theorem Client.Moves.guarded_inv [DecidableEq S] [QueueState S] {C : Client S T P G I}
    {w w' : World S T P G} {n : I} {t : ThreadId} (hm : C.Moves cfg a w i n w' (.guarded t)) :
    (w.view i).upd.runs = true := by
  cases hm with
  | op hk hs hw => exact (hs.view_instr hk).guarded_inv
  | call hi hr hk hl hs hw => exact absurd rfl hs.view_call.ne_guarded

end Aiq
