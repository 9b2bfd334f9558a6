import Aiq.Task.Drains

/-!
# The wakers of `for_each`

`for_each` calls every waker that it has taken, or returns with it (`ForEachPc.next_wakers`), and it takes
one only when its list of wakers is not full (`ForEachPc.next_hasRoom`).
-/

namespace Aiq

variable {S T W P G : Type} [DecidableEq S] {f : OnNext T W} {emb : ForEachPc W → P} {ret : List W → P}
  {fault : P} {wake : W → G → G} {g : G} {q c : State S T} {p : ForEachPc W} {r : Instr S T P G}
  {e : Event S}

/-- The list of wakers is not full where one may be taken, and does not exceed its capacity. -/
def ForEachPc.HasRoom : ForEachPc W → Prop
  | .head _ ws | .node _ ws => ws.length < wakersCapacity
  | .drop _ ws | .dropped _ ws => ws.length ≤ wakersCapacity
  | _ => True

theorem ForEachPc.next_hasRoom (h : p.HasRoom) (hr : p.next f emb ret fault wake g q = some r) :
    (∃ p', r.pc e c = emb p' ∧ p'.HasRoom) ∨ (∃ ws, r.pc e c = ret ws) ∨ r.pc e c = fault := by
  have hadd : ∀ {ws : List W} (o : Option W), ws.length < wakersCapacity →
      (ws ++ o.toList).length ≤ wakersCapacity := by
    intro ws o h
    cases o <;> simp <;> omega
  cases p <;> simp only [ForEachPc.next] at hr
  case head d ws =>
    obtain rfl := Option.some.inj hr
    refine .inl ⟨_, rfl, ?_⟩
    split
    · trivial
    · exact h
  case node d ws =>
    split at hr
    · split at hr <;> obtain rfl := Option.some.inj hr
      · exact .inr (.inr rfl)
      · exact .inl ⟨_, rfl, hadd _ h⟩
    · simp at hr
  case drop d ws =>
    obtain rfl := Option.some.inj hr
    exact .inl ⟨_, rfl, h⟩
  case dropped d ws =>
    split at hr
    · split at hr <;> obtain rfl := Option.some.inj hr <;> exact .inl ⟨_, rfl, trivial⟩
    · rename_i hne
      obtain rfl := Option.some.inj hr
      exact .inl ⟨_, rfl, Nat.lt_of_le_of_ne h hne⟩
  case unlocked d ws =>
    cases ws <;> obtain rfl := Option.some.inj hr <;> exact .inl ⟨_, rfl, trivial⟩
  case closing d ws =>
    obtain rfl := Option.some.inj hr
    exact .inr (.inl ⟨_, rfl⟩)
  all_goals
    obtain rfl := Option.some.inj hr
    exact .inl ⟨_, rfl, by simp [HasRoom, wakersCapacity]⟩

/-- What `for_each` does with the wakers that it has taken: it takes another one, calls the first, or keeps
them. -/
theorem ForEachPc.next_wakers (hr : p.next f emb ret fault wake g q = some r) :
    r.pc e c = fault ∨
      (∃ d ws x, p = .node d ws ∧ q.op.bind HolderOp.node = some x ∧ r.shared = g ∧
        r.pc e c = emb (.drop d (ws ++ (f.waker (q.mem.data x)).toList))) ∨
      (∃ d wk ws, p = .unlocked d (wk :: ws) ∧ r.shared = wake wk g ∧ r.pc e c = emb (.unlocked d ws)) ∨
      r.shared = g ∧ ((∃ p', r.pc e c = emb p' ∧ p'.wakers = p.wakers) ∨ r.pc e c = ret p.wakers) := by
  cases p <;> simp only [ForEachPc.next] at hr
  case head d ws =>
    obtain rfl := Option.some.inj hr
    refine .inr (.inr (.inr ⟨rfl, .inl ⟨_, rfl, ?_⟩⟩))
    split <;> rfl
  case node d ws =>
    split at hr
    · rename_i b x hm
      split at hr <;> obtain rfl := Option.some.inj hr
      · exact .inl rfl
      · exact .inr (.inl ⟨d, ws, x, rfl, by simp [State.op, hm, HolderPc.op, HolderOp.node], rfl, rfl⟩)
    · simp at hr
  case dropped d ws =>
    split at hr
    · split at hr <;> obtain rfl := Option.some.inj hr <;>
        exact .inr (.inr (.inr ⟨rfl, .inl ⟨_, rfl, rfl⟩⟩))
    · obtain rfl := Option.some.inj hr
      exact .inr (.inr (.inr ⟨rfl, .inl ⟨_, rfl, rfl⟩⟩))
  case unlocked d ws =>
    cases ws with
    | nil =>
      obtain rfl := Option.some.inj hr
      exact .inr (.inr (.inr ⟨rfl, .inl ⟨_, rfl, rfl⟩⟩))
    | cons wk ws =>
      obtain rfl := Option.some.inj hr
      exact .inr (.inr (.inl ⟨d, wk, ws, rfl, rfl, rfl⟩))
  case closing d ws =>
    obtain rfl := Option.some.inj hr
    exact .inr (.inr (.inr ⟨rfl, .inr rfl⟩))
  all_goals
    obtain rfl := Option.some.inj hr
    exact .inr (.inr (.inr ⟨rfl, .inl ⟨_, rfl, rfl⟩⟩))

end Aiq
