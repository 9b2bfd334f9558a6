import Aiq.Task.Drains

/-!
# `fetch_update_state`

A task that has called `fetch_update_state` goes on when it returns (`World.fetched`): with the state that
it has updated, with the state that its closure refused, or without one because the queue had a node.
-/

namespace Aiq

variable {S T P G : Type} {w : World S T P G} {i : TaskId} {e : Event S} {v v' : View S}
  {st : Option S} {q : State S T} {f : UpdateFn S}

/-- What the `fetch_update_state` of the task `i` has returned, if it has, after an instruction with the
event `e` that leads to `q`: `Ok(s)` or `Err(st)`. -/
def World.fetched (w : World S T P G) (i : TaskId) (e : Event S) (q : State S T) :
    Option (Except (Option S) S) :=
  match e with
  | .update _ s _ => some (.ok s)
  | _ =>
    match q.upd i, w.q.upd i with
    | .idle, .attempt f n _ s => some (.error (if (f n s).isNone then some s else none))
    | .idle, _ => some (.error none)
    | _, _ => none

/-- The return of a `fetch_update_state` that has loaded `s`, when `st` is the state of the queue. -/
inductive Fetched (i : TaskId) (f : UpdateFn S) (m : ℕ) (s : S) (st : Option S) :
    Event S → Except (Option S) S → Prop
  /-- It has made its update. -/
  | ok {s' : S} (h : f m s = some s') (hq : st = some s) : Fetched i f m s st (.update i s s') (.ok s)
  /-- The closure has refused. -/
  | refused (h : f m s = none) : Fetched i f m s st .tau (.error (some s))
  /-- The queue has a node. -/
  | blocked (h : f m s ≠ none) (hq : st = none) : Fetched i f m s st .tau (.error none)

variable {m : ℕ} {s : S}

/-- The control state of a thread that tries. -/
theorem UpdPc.eq_of_trying {p : UpdPc S} (h : p.op = .trying f m s) : p = .attempt f m .plain s := by
  cases p <;> simp only [UpdPc.op, reduceCtorEq] at h
  case attempt f' m' k s' =>
    cases k <;> simp only [reduceCtorEq, UpdOp.trying.injEq] at h
    obtain ⟨rfl, rfl, rfl⟩ := h
    rfl

/-- An instruction of `fetch_update_state`: it goes on, or returns. -/
theorem World.fetched_cases [QueueState S] {x : OwnOp S} {o : Option (HolderOp S)}
    (hx : x.runs = false) (ho : ∀ p ∈ o, p.runs = false) (hv : w.view i = ⟨x, .trying f m s, o⟩)
    (hs : InstrStep i st (w.view i) e v') (hq : (q.upd i).op = v'.upd) :
    w.fetched i e q = none ∧ e = .tau ∧ (∃ m' s', v' = ⟨x, .trying f m' s', o⟩ ∧ st = some s') ∨
      ∃ r, w.fetched i e q = some r ∧ v' = ⟨x, .idle, o⟩ ∧ Fetched i f m s st e r := by
  have hatt : w.q.upd i = .attempt f m .plain s := UpdPc.eq_of_trying (congrArg View.upd hv)
  rw [hv] at hs
  cases hs
  case retry s' h =>
    have hne : q.upd i = .attempt f (m + 1) .plain s' := UpdPc.eq_of_trying hq
    exact .inl ⟨by simp [fetched, hne], rfl, m + 1, s', rfl, h⟩
  case stop h =>
    have hidle : q.upd i = .idle := UpdPc.op_eq_idle.1 hq
    exact .inr ⟨_, by simp [fetched, hidle, hatt, h], rfl, .refused h⟩
  case blocked h h' =>
    have hidle : q.upd i = .idle := UpdPc.op_eq_idle.1 hq
    exact .inr ⟨_, by simp [fetched, hidle, hatt, h'], rfl, .blocked h' h⟩
  case update s' h h' => exact .inr ⟨_, rfl, rfl, .ok h' h⟩
  case holder o o' h =>
    have := h.runs
    simp [ho o rfl] at this
  all_goals simp [OwnOp.runs] at hx

end Aiq
