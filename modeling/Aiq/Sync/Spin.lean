import Aiq.Lib.Runs
import Mathlib.Logic.Function.Iterate

/-!
# `SpinMutex`

The mutex of `sync/spin.rs`, for any number of threads that lock and unlock it, interleaved at its atomic
operations. It is exclusive (`exclusive`). A thread that waits in the inner loop of `lock` waits for the
flag to be set: when the mutex is free, a thread in `lock` that runs alone gets it if and only if it is
not in the inner loop (`lock_acquires_iff`).
-/

namespace Aiq.SpinMutex

/-- Where a thread is. -/
inductive Pc
  /-- It has no use of the mutex. -/
  | out
  /-- `lock`: the swap of the outer loop. -/
  | swap
  /-- `lock`: the load of the inner loop. -/
  | load
  /-- `lock`: the body of the inner loop. -/
  | spin
  /-- `lock` has returned. -/
  | held
  deriving DecidableEq

/-- The thread is inside `lock`. -/
def Pc.locking : Pc → Bool
  | .swap | .load | .spin => true
  | _ => false

/-- A mutex, and the threads that use it. -/
structure State where
  flag : Bool
  pc : ℕ → Pc

/-- `INIT`. -/
def init : State := ⟨false, fun _ => .out⟩

/-- The thread `i` goes on at `p`. -/
def State.goto (s : State) (i : ℕ) (p : Pc) : State := { s with pc := Function.update s.pc i p }

/-- One step of the thread `i`: it calls `lock`, makes an atomic operation of it, or calls `unlock`. -/
def step (s : State) (i : ℕ) : State :=
  match s.pc i with
  | .out => s.goto i .swap
  | .swap => { s with flag := true }.goto i (if s.flag then .load else .held)
  | .load => s.goto i (if !s.flag then .spin else .swap)
  | .spin => s.goto i .load
  | .held => { s with flag := false }.goto i .out

/-- The runs, given by the threads that make the steps. -/
abbrev Runs : State → List ℕ → State → Prop := Lts.Run fun s i s' => s' = step s i

variable {s s' : State} {i j : ℕ} {ls : List ℕ}

theorem pc_goto (s : State) (i j : ℕ) (p : Pc) : (s.goto i p).pc j = if j = i then p else s.pc j :=
  Function.update_apply ..

/-! ## Exclusion -/

/-- The flag tells whether the mutex is held, by one thread. -/
structure Exclusive (s : State) : Prop where
  flag : s.flag = true ↔ ∃ i, s.pc i = .held
  unique : ∀ {i j}, s.pc i = .held → s.pc j = .held → i = j

/-- Who holds the mutex after a step. -/
theorem held_step : (step s i).pc j = .held ↔
    if j = i then s.pc i = .swap ∧ s.flag = false else s.pc j = .held := by
  unfold step
  cases hp : s.pc i <;> simp only [pc_goto] <;> by_cases hj : j = i <;> simp [hj]
  cases s.flag <;> simp

theorem flag_step : (step s i).flag = true ↔
    s.pc i = .swap ∨ s.flag = true ∧ s.pc i ≠ .held := by
  unfold step State.goto
  cases hp : s.pc i <;> simp

theorem Exclusive.step (h : Exclusive s) : Exclusive (SpinMutex.step s i) where
  flag := by
    rw [flag_step]
    constructor
    · rintro (hi | ⟨hf, hi⟩)
      · by_cases hf : s.flag = true
        · obtain ⟨j, hj⟩ := h.flag.1 hf
          have hne : j ≠ i := fun e => by simp [e, hi] at hj
          exact ⟨j, held_step.2 (by rwa [if_neg hne])⟩
        · exact ⟨i, held_step.2 (by simpa [hi] using hf)⟩
      · obtain ⟨j, hj⟩ := h.flag.1 hf
        have hne : j ≠ i := fun e => hi (e ▸ hj)
        exact ⟨j, held_step.2 (by rwa [if_neg hne])⟩
    · rintro ⟨j, hj⟩
      have hj := held_step.1 hj
      split at hj
      · exact .inl hj.1
      · exact .inr ⟨h.flag.2 ⟨j, hj⟩, fun hi => ‹j ≠ i› (h.unique hj hi)⟩
  unique := by
    intro j k hj hk
    have hj := held_step.1 hj
    have hk := held_step.1 hk
    -- a thread that gets the mutex has found the flag clear, so that no other holds it
    have hfree : s.flag = false → ∀ j, s.pc j ≠ .held := fun hf j hj => by simp [h.flag.2 ⟨j, hj⟩] at hf
    by_cases hji : j = i <;> by_cases hki : k = i <;> simp only [hji, hki, if_true, if_false] at hj hk
    · exact hji.trans hki.symm
    · exact absurd hk (hfree hj.2 k)
    · exact absurd hj (hfree hk.2 j)
    · exact h.unique hj hk

/-- The contract of `Mutex`: a mutex that is held is not acquired. -/
theorem exclusive (h : Runs init ls s) : Exclusive s := by
  refine Lts.Run.prefixed (P := fun _ s => Exclusive s) h ⟨by simp [init], by simp [init]⟩ ?_
  rintro - i s _ - rfl hs
  exact hs.step

/-! ## Getting a free mutex -/

/-- The steps of the thread `i`, alone. -/
def alone (i n : ℕ) (s : State) : State := (fun s => step s i)^[n] s

theorem alone_succ (i n : ℕ) (s : State) : alone i (n + 1) s = step (alone i n s) i :=
  Function.iterate_succ_apply' ..

/-- The inner loop does not end while the mutex is free. -/
theorem alone_inner (hf : s.flag = false) (hp : s.pc i = .load ∨ s.pc i = .spin) (n : ℕ) :
    (alone i n s).flag = false ∧ ((alone i n s).pc i = .load ∨ (alone i n s).pc i = .spin) := by
  induction n with
  | zero => exact ⟨hf, hp⟩
  | succ n ih =>
    obtain ⟨hf, hp⟩ := ih
    rw [alone_succ]
    generalize alone i n s = s' at hf hp
    rcases hp with hp | hp <;> simp [step, hp, hf, State.goto]

/-- A thread inside `lock`, alone with a free mutex. -/
theorem alone_acquires_iff (hf : s.flag = false) (hi : (s.pc i).locking = true) :
    (∃ n, (alone i n s).pc i = .held) ↔ s.pc i = .swap := by
  constructor
  · rintro ⟨n, hn⟩
    by_contra hne
    have hp : s.pc i = .load ∨ s.pc i = .spin := by
      cases hp : s.pc i <;> simp_all [Pc.locking]
    rcases (alone_inner hf hp n).2 with h' | h' <;> simp [hn] at h'
  · intro hp
    exact ⟨1, by simp [alone, step, hp, hf, pc_goto]⟩

/-- **Getting a free mutex.** In every reachable state, the flag is clear when no thread holds the mutex,
and then a thread inside `lock` that runs alone acquires it after finitely many steps if and only if it is
at the swap. -/
theorem lock_acquires_iff (h : Runs init ls s) :
    (s.flag = false ↔ ∀ j, s.pc j ≠ .held) ∧
    (s.flag = false → ∀ i, (s.pc i).locking = true →
      ((∃ n, (alone i n s).pc i = .held) ↔ s.pc i = .swap)) := by
  refine ⟨?_, fun hf i hi => alone_acquires_iff hf hi⟩
  rw [← Bool.not_eq_true, (exclusive h).flag, not_exists]

/-- The thread 0 has held the mutex, and the thread 1 has called `lock`. -/
theorem lock_acquires_iff_swap :
    let s := [0, 0, 0, 1].foldl step init
    (s.flag = false ↔ ∀ j, s.pc j ≠ .held) ∧ ((∃ n, (alone 1 n s).pc 1 = .held) ↔ s.pc 1 = .swap) := by
  intro s
  have h : Runs init [0, 0, 0, 1] s := .snoc (.snoc (.snoc (.snoc .nil rfl) rfl) rfl) rfl
  exact ⟨(lock_acquires_iff h).1, (lock_acquires_iff h).2 rfl 1 rfl⟩

/-- **A free mutex that is not acquired.** The thread 0 locks, the thread 1 finds the mutex held, and the
thread 0 unlocks: the thread 1 never gets the mutex by itself. -/
theorem lock_acquires_not :
    let s := [0, 0, 1, 1, 0].foldl step init
    Runs init [0, 0, 1, 1, 0] s ∧ s.flag = false ∧ (s.pc 1).locking = true ∧
      ∀ n, (alone 1 n s).pc 1 ≠ .held := by
  intro s
  have h : Runs init [0, 0, 1, 1, 0] s := .snoc (.snoc (.snoc (.snoc (.snoc .nil rfl) rfl) rfl) rfl) rfl
  have hp : s.pc 1 = .load := by decide
  refine ⟨h, rfl, rfl, fun n hn => ?_⟩
  rcases (alone_inner (i := 1) (s := s) rfl (.inl hp) n).2 with h' | h' <;> simp [hn] at h'

end Aiq.SpinMutex
