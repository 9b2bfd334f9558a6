import Aiq.Task.View

/-!
# `Drain::for_each`

The loop that every user of a `Drain` runs (`queue/drain.rs`): it takes the nodes one by one, hands the
data of each to `on_next`, and when that says so releases the lock and runs `on_unlock`. In all uses
`on_next` collects wakers, up to 32 of them, and `on_unlock` calls them (`ForEachPc`,
`ForEachPc.next`).
-/

namespace Aiq

/-- The capacity of a list of wakers. -/
def wakersCapacity : ℕ := 32

/-- The closure `on_next`: what it leaves of the data of the node, and the waker that it takes. With
`unwrap` it does not expect the data to be without a waker. -/
structure OnNext (T W : Type) where
  data : T → T
  waker : T → Option W
  unwrap : Bool

/-- The control states of `for_each`: the operation on the `Drain` `d` that was called last, and the
wakers `ws` collected since the last `on_unlock`. -/
inductive ForEachPc (W : Type)
  /-- `drain_try_set_state` or `execute_unlocked`; `next` is called next. -/
  | head (d : DrainId) (ws : List W)
  /-- `next` has returned a node. -/
  | node (d : DrainId) (ws : List W)
  /-- `on_next` has returned; the node is dropped next. -/
  | drop (d : DrainId) (ws : List W)
  /-- The drop of the node. -/
  | dropped (d : DrainId) (ws : List W)
  /-- `execute_unlocked` and in it `on_unlock`, which has yet to call `ws`. -/
  | unlocked (d : DrainId) (ws : List W)
  /-- `execute_unlocked`: waiting for the mutex. -/
  | relock (d : DrainId)
  /-- The end of the loop; the `Drain` is dropped next. -/
  | done (d : DrainId) (ws : List W)
  /-- The drop of the `Drain`. -/
  | closing (d : DrainId) (ws : List W)

/-- What `for_each` does next. It is part of a program with control states `P`, which goes on with
`ret ws` and the wakers `ws` of the last `on_unlock`, and is at `fault` after a failed `unwrap`; `wake`
is the effect of calling a waker on the shared memory. -/
def ForEachPc.next {S T W P G : Type} [DecidableEq S] (f : OnNext T W) (emb : ForEachPc W → P)
    (ret : List W → P) (fault : P) (wake : W → G → G) (g : G) (q : State S T) :
    ForEachPc W → Option (Instr S T P G)
  | .head d ws =>
    some ⟨some (.holder .next), fun e _ => emb (if e = .next d none then .done d ws else .node d ws),
      g⟩
  | .node d ws =>
    match q.mutex with
    | some (.drained _ (.node x)) =>
      if f.unwrap ∧ f.waker (q.mem.data x) = none then some ⟨none, fun _ _ => fault, g⟩
      else
        some ⟨some (.holder (.withDataMut f.data)),
          fun _ _ => emb (.drop d (ws ++ (f.waker (q.mem.data x)).toList)), g⟩
    | _ => none
  | .drop d ws => some ⟨some (.holder .drop), fun _ _ => emb (.dropped d ws), g⟩
  | .dropped d ws =>
    if ws.length = wakersCapacity then
      if q.mem.link (.next (.sentinel d)) = .null then some ⟨none, fun _ _ => emb (.done d ws), g⟩
      else some ⟨some (.holder .executeUnlocked), fun _ _ => emb (.unlocked d ws), g⟩
    else some ⟨none, fun _ _ => emb (.head d ws), g⟩
  | .unlocked d (w :: ws) => some ⟨none, fun _ _ => emb (.unlocked d ws), wake w g⟩
  | .unlocked d [] => some ⟨some (.drainReturn d), fun _ _ => emb (.relock d), g⟩
  | .relock d => some ⟨some (.drainLock d), fun _ _ => emb (.head d []), g⟩
  | .done d ws => some ⟨some (.holder .dropDrain), fun _ _ => emb (.closing d ws), g⟩
  | .closing _ ws => some ⟨none, fun _ _ => ret ws, g⟩

/-- The writes of `for_each` to the data of nodes are those of `on_next`. -/
theorem ForEachPc.next_withDataMut {S T W P G : Type} [DecidableEq S] {f : OnNext T W}
    {emb : ForEachPc W → P} {ret : List W → P} {fault : P} {wake : W → G → G} {g : G} {q : State S T}
    {p : ForEachPc W} {r : Instr S T P G} {h : T → T}
    (hr : p.next f emb ret fault wake g q = some r)
    (hk : r.call = some (.holder (.withDataMut h))) :
    ∃ d ws x, p = .node d ws ∧ q.op.bind HolderOp.node = some x ∧ h = f.data ∧
      ¬ (f.unwrap = true ∧ f.waker (q.mem.data x) = none) ∧
      r.pc = fun _ _ => emb (.drop d (ws ++ (f.waker (q.mem.data x)).toList)) := by
  cases p <;> simp only [ForEachPc.next] at hr
  case node d ws =>
    split at hr
    · rename_i hm
      split at hr <;> obtain rfl := Option.some.inj hr
      · simp at hk
      · rename_i x hf
        obtain rfl : f.data = h := by simpa using hk
        exact ⟨d, ws, x, rfl, by simp [State.op, hm, HolderPc.op, HolderOp.node], rfl, hf, rfl⟩
    · simp at hr
  case dropped d ws =>
    repeat' split at hr
    all_goals grind
  case unlocked d ws => cases ws <;> grind
  all_goals grind

/-- Where `for_each` goes on. -/
theorem ForEachPc.next_pc {S T W P G : Type} [DecidableEq S] {f : OnNext T W}
    {emb : ForEachPc W → P} {ret : List W → P} {fault : P} {wake : W → G → G} {g : G}
    {q c : State S T} {p : ForEachPc W} {r : Instr S T P G} {e : Event S}
    (hr : p.next f emb ret fault wake g q = some r) :
    (∃ p', r.pc e c = emb p') ∨ (∃ ws, r.pc e c = ret ws) ∨ r.pc e c = fault := by
  unfold ForEachPc.next at hr
  repeat' split at hr
  all_goals
    first
    | (obtain rfl := Option.some.inj hr
       first | exact .inl ⟨_, rfl⟩ | exact .inr (.inl ⟨_, rfl⟩) | exact .inr (.inr rfl))
    | simp at hr

section Fits

variable {S T W P G : Type} {st : S} {p : ForEachPc W} {o o' : HolderOp S} {op : Option (HolderOp S)}
  {e : Event S}

/-- What `for_each` does under the lock at a control state, on a `Drain` that was to set the state
`st`. -/
def ForEachPc.Fits (st : S) : ForEachPc W → Option (HolderOp S) → Prop
  | .head d _, o => o = some (.newDrain d st) ∨ o = some (.relocking d) ∨ o = some (.drain d)
  | .node d _, o | .drop d _, o => ∃ b, o = some (.drained d b)
  | .dropped d _, o => (∃ b, o = some (.dropDrained d b)) ∨ o = some (.drain d)
  | .unlocked d _, o => o = some (.unlocking d) ∨ o = none
  | .relock _, o => o = none
  | .done d _, o => o = some (.drain d)
  | .closing d _, o => o = some (.closing d) ∨ o = none

theorem ForEachPc.Fits.instr [QueueState S] (h : p.Fits st (some o)) (hs : OpStep o e op) :
    p.Fits st op ∧ ∀ x u, o.ownAfter e x = x ∧ o.updAfter u = u := by
  cases p <;> simp only [Fits, Option.some.injEq, reduceCtorEq, or_false] at h
  case head d ws =>
    rcases h with rfl | rfl | rfl <;> cases hs <;> simp [Fits, HolderOp.ownAfter, HolderOp.updAfter]
  case dropped d ws =>
    rcases h with ⟨b, rfl⟩ | rfl <;> cases hs <;> simp [Fits, HolderOp.ownAfter, HolderOp.updAfter]
  case node d ws =>
    obtain ⟨b, rfl⟩ := h
    cases hs
    simp [Fits, HolderOp.ownAfter, HolderOp.updAfter]
  case drop d ws =>
    obtain ⟨b, rfl⟩ := h
    cases hs
    simp [Fits, HolderOp.ownAfter, HolderOp.updAfter]
  all_goals
    subst h
    cases hs <;> simp [Fits, HolderOp.ownAfter, HolderOp.updAfter]

variable [DecidableEq S] {f : OnNext T W} {emb : ForEachPc W → P} {ret : List W → P}
  {fault : P} {wake : W → G → G} {g : G} {q c : State S T} {r : Instr S T P G} {i : TaskId}
  {s : Option S} {raw : RawNodeState} {x : OwnOp S} {u : UpdOp S}

/-- A call of `for_each`. -/
theorem ForEachPc.Fits.call [QueueState S] {k : Call S T} {v : View S} (h : p.Fits st op)
    (hr : p.next f emb ret fault wake g q = some r) (hk : r.call = some k)
    (hrest : View.Rests ⟨x, u, op⟩) (hv : CallStep i s raw k ⟨x, u, op⟩ e v) :
    ∃ p', r.pc e c = emb p' ∧ p'.Fits st v.op ∧ v.own = x ∧ v.upd = u := by
  cases p
  case head d ws =>
    obtain rfl := Option.some.inj hr
    obtain rfl := Option.some.inj hk
    obtain ⟨x', u', o, o', hv', hc, rfl⟩ := hv.holder_inv
    obtain ⟨rfl, rfl, rfl⟩ := View.mk.inj hv'
    rcases h with h | h | h <;> obtain rfl := Option.some.inj h <;> cases hc
    · exact ⟨.done d ws, by simp, by simp [Fits], rfl, rfl⟩
    · exact ⟨.node d ws, by simp, by simp [Fits], rfl, rfl⟩
  case node d ws =>
    obtain ⟨b, rfl⟩ := h
    simp only [ForEachPc.next] at hr
    split at hr
    · split at hr <;> obtain rfl := Option.some.inj hr
      · simp at hk
      · obtain rfl := Option.some.inj hk
        obtain ⟨x', u', o, o', hv', hc, rfl⟩ := hv.holder_inv
        obtain ⟨rfl, rfl, ho⟩ := View.mk.inj hv'
        obtain rfl := Option.some.inj ho
        cases hc
        exact ⟨_, rfl, by simp [Fits], rfl, rfl⟩
    · simp at hr
  case drop d ws =>
    obtain ⟨b, rfl⟩ := h
    obtain rfl := Option.some.inj hr
    obtain rfl := Option.some.inj hk
    obtain ⟨x', u', o, o', hv', hc, rfl⟩ := hv.holder_inv
    obtain ⟨rfl, rfl, ho⟩ := View.mk.inj hv'
    obtain rfl := Option.some.inj ho
    cases hc
    exact ⟨.dropped d ws, rfl, by simp [Fits], rfl, rfl⟩
  case dropped d ws =>
    simp only [ForEachPc.next] at hr
    split at hr
    · split at hr <;> obtain rfl := Option.some.inj hr
      · simp at hk
      · obtain rfl := Option.some.inj hk
        obtain ⟨x', u', o, o', hv', hc, rfl⟩ := hv.holder_inv
        obtain ⟨rfl, rfl, rfl⟩ := View.mk.inj hv'
        rcases h with ⟨b, h⟩ | h <;> obtain rfl := Option.some.inj h <;> cases hc
        exact ⟨_, rfl, by simp [Fits], rfl, rfl⟩
    · obtain rfl := Option.some.inj hr
      simp at hk
  case unlocked d ws =>
    cases ws with
    | cons w ws =>
      obtain rfl := Option.some.inj hr
      simp at hk
    | nil =>
      obtain rfl := Option.some.inj hr
      obtain rfl := Option.some.inj hk
      rcases h with rfl | rfl
      · simpa [HolderOp.runs] using hrest.op rfl
      · cases hv
        exact ⟨.relock d, rfl, rfl, rfl, rfl⟩
  case relock d =>
    obtain rfl := Option.some.inj hr
    obtain rfl := Option.some.inj hk
    cases hv
    exact ⟨.head d [], rfl, by simp [Fits], rfl, rfl⟩
  case done d ws =>
    obtain rfl := Option.some.inj hr
    obtain rfl := Option.some.inj hk
    obtain ⟨x', u', o, o', hv', hc, rfl⟩ := hv.holder_inv
    obtain ⟨rfl, rfl, rfl⟩ := View.mk.inj hv'
    obtain rfl := Option.some.inj h
    cases hc
    exact ⟨.closing d ws, rfl, by simp [Fits], rfl, rfl⟩
  case closing d ws =>
    obtain rfl := Option.some.inj hr
    simp at hk

/-- A step of `for_each` without a call. -/
theorem ForEachPc.Fits.own (h : p.Fits st op) (hr : p.next f emb ret fault wake g q = some r)
    (hk : r.call = none) (hrest : View.Rests ⟨x, u, op⟩) (e : Event S) :
    (∃ p', r.pc e c = emb p' ∧ p'.Fits st op) ∨ (∃ ws, r.pc e c = ret ws ∧ op = none) ∨
      r.pc e c = fault ∧ f.unwrap = true ∧ ∃ d y, q.mutex = some (.drained d (.node y)) ∧
        f.waker (q.mem.data y) = none := by
  cases p <;> simp only [ForEachPc.next] at hr
  case node d ws =>
    split at hr
    · rename_i hm
      split at hr <;> obtain rfl := Option.some.inj hr
      · rename_i hf
        exact .inr (.inr ⟨rfl, hf.1, _, _, hm, hf.2⟩)
      · simp at hk
    · simp at hr
  case dropped d ws =>
    have ho : op = some (.drain d) := by
      rcases h with ⟨b, rfl⟩ | h
      · simpa [HolderOp.runs] using hrest.op rfl
      · exact h
    split at hr
    · split at hr <;> obtain rfl := Option.some.inj hr
      · exact .inl ⟨.done d ws, rfl, ho⟩
      · simp at hk
    · obtain rfl := Option.some.inj hr
      exact .inl ⟨.head d ws, rfl, .inr (.inr ho)⟩
  case unlocked d ws =>
    cases ws with
    | cons w ws =>
      obtain rfl := Option.some.inj hr
      exact .inl ⟨.unlocked d ws, rfl, h⟩
    | nil =>
      obtain rfl := Option.some.inj hr
      simp at hk
  case closing d ws =>
    obtain rfl := Option.some.inj hr
    refine .inr (.inl ⟨ws, rfl, ?_⟩)
    rcases h with rfl | h
    · simpa [HolderOp.runs] using hrest.op rfl
    · exact h
  all_goals
    obtain rfl := Option.some.inj hr
    simp at hk

end Fits

end Aiq
