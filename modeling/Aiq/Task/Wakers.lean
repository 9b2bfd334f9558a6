import Aiq.Task.Entered

/-!
# Wakers

How a waker gets from the node of a future to its call. A future that waits has stored the waker of its last
poll in its node, or one that wakes the same task (`WakesFor`). A task that gives the node what it waits for
takes the waker in the same step, and has it until it calls it (`Delivers`). The steps of a program that
treat the wakers so (`Passes`) keep this (`Delivers.step`).
-/

namespace Aiq

variable {S T P G W : Type} {cfg : Config} {a a' : Abs S} {w w' : World S T P G} {i x : TaskId}
  {willWake : W → W → Bool} {given given' : NodeId → Prop} {wk : W} {m : ℕ}

/-- A call of the waker `wk₀` wakes the task of a future that was polled with `wk`. -/
def WakesFor (willWake : W → W → Bool) (wk₀ wk : W) : Prop := wk₀ = wk ∨ willWake wk₀ wk = true

/-- Where a program keeps its wakers: the one in the data of a node, those that a task has taken, and those
that have been called. -/
structure Keeping (T P G W : Type) where
  waker : T → Option W
  taken : P → List W
  woken : G → List W

variable {K : Keeping T P G W}

/-- Where the waker is of a future whose last poll had the waker `wk`, when `m` wakers had been called. -/
inductive Delivers (K : Keeping T P G W) (willWake : W → W → Bool) (given : NodeId → Prop) (w : World S T P G)
    (x : TaskId) (wk : W) (m : ℕ) : Prop
  | stored {wk₀ : W} (hs : WakesFor willWake wk₀ wk) (h : K.waker (w.q.mem.data x) = some wk₀)
  | taken {wk₀ : W} (hs : WakesFor willWake wk₀ wk) (hg : given x) (j : TaskId) (h : wk₀ ∈ K.taken (w.pc j))
  | called {wk₀ : W} (hs : WakesFor willWake wk₀ wk) (hg : given x) (l : ℕ) (hl : m ≤ l)
      (h : (K.woken w.shared)[l]? = some wk₀)

/-- What a step of the task `i` does with wakers: it leaves the one of the node `x` alone, or takes it when
the node is given what it waits for; and it keeps those that it has taken, or calls the first. -/
structure Passes (K : Keeping T P G W) (given' : NodeId → Prop) (w w' : World S T P G) (i x : TaskId) :
    Prop where
  data : K.waker (w'.q.mem.data x) = K.waker (w.q.mem.data x) ∨
    given' x ∧ ∀ wk, K.waker (w.q.mem.data x) = some wk → wk ∈ K.taken (w'.pc i)
  taken : ((∀ wk ∈ K.taken (w.pc i), wk ∈ K.taken (w'.pc i)) ∧ K.woken w'.shared = K.woken w.shared) ∨
    ∃ wk, K.taken (w.pc i) = wk :: K.taken (w'.pc i) ∧ K.woken w'.shared = K.woken w.shared ++ [wk]
  others : ∀ j, j ≠ i → w'.pc j = w.pc j

/-- Such a step leaves the waker where it is, or passes it on. -/
theorem Delivers.step (h : Delivers K willWake given w x wk m) (hgiven : given x → given' x)
    (hp : Passes K given' w w' i x) (hlen : m ≤ (K.woken w.shared).length) :
    Delivers K willWake given' w' x wk m := by
  cases h with
  | stored hs h =>
    rcases hp.data with hd | ⟨hg, hwk⟩
    · exact .stored hs (hd.trans h)
    · exact .taken hs hg i (hwk _ h)
  | taken hs hg j h =>
    by_cases hj : j = i
    · subst hj
      rcases hp.taken with ⟨hkeep, -⟩ | ⟨wk₁, hwk₁, hwoken⟩
      · exact .taken hs (hgiven hg) j (hkeep _ h)
      · rw [hwk₁] at h
        rcases List.mem_cons.1 h with rfl | h
        · exact .called hs (hgiven hg) _ hlen (by simp [hwoken])
        · exact .taken hs (hgiven hg) j h
    · exact .taken hs (hgiven hg) j (by rw [hp.others j hj]; exact h)
  | called hs hg l hl h =>
    refine .called hs (hgiven hg) l hl ?_
    rcases hp.taken with ⟨-, hwoken⟩ | ⟨wk₁, -, hwoken⟩ <;> rw [hwoken]
    · exact h
    · rw [List.getElem?_append_left (List.getElem?_eq_some_iff.1 h).1, h]

/-- What the last poll of each future was made with: its waker, and the number of wakers that had been called
before. -/
abbrev LastPolls (W : Type) := TaskId → Option (W × ℕ)

/-- The node has not been enqueued, and has the waker `o`, if any. -/
def Outside (K : Keeping T P G W) (w : World S T P G) (a : Abs S) (x : TaskId) (o : Option W) : Prop :=
  ¬ Entered w.q a x ∧ K.waker (w.q.mem.data x) = o

/-- The node has been enqueued, and its waker is delivered. -/
def Waiting (K : Keeping T P G W) (willWake : W → W → Bool) (given : NodeId → Prop) (w : World S T P G)
    (a : Abs S) (x : TaskId) (g : Option (W × ℕ)) : Prop :=
  Entered w.q a x ∧ ∀ wk m, g = some (wk, m) → Delivers K willWake given w x wk m

theorem Outside.step {o : Option W} (h : Outside K w a x o) (he : ¬ Entered w'.q a' x)
    (hp : Passes K given' w w' i x) (hgiven : ¬ given' x) : Outside K w' a' x o :=
  ⟨he, (hp.data.resolve_right fun h => hgiven h.1).trans h.2⟩

theorem Waiting.step {g : Option (W × ℕ)} (h : Waiting K willWake given w a x g) (he : Entered w'.q a' x)
    (hgiven : given x → given' x) (hp : Passes K given' w w' i x)
    (hlen : ∀ wk m, g = some (wk, m) → m ≤ (K.woken w.shared).length) :
    Waiting K willWake given' w' a' x g :=
  ⟨he, fun wk m hg => (h.2 wk m hg).step hgiven hp (hlen wk m hg)⟩

end Aiq
