import Aiq.Sync.Token
import Mathlib.Data.BitVec
import Mathlib.Logic.Function.Basic

/-!
# Parkers

The parkers of `sync/std.rs`, `sync/pthread.rs` and `sync/atomic_wait.rs`, at their atomic operations, the
operations of the mutex and the condition variable, and those of the futex. One thread at a time is in
`park`; any number of calls of `unpark` are under way. Each parker hands over the token of `Aiq.Parker.Token`,
and loses no wakeup (`parkers_correct`).
-/

namespace Aiq.Parker

/-! ## Words -/

section Words

variable (w : ℕ)

/-- `EMPTY`. -/
def empty : BitVec w := 0

/-- `NOTIFIED`. -/
def notified : BitVec w := 1

/-- `PARKED`. -/
def parked : BitVec w := BitVec.allOnes w

theorem notified_sub_one : notified w - 1 = empty w := by simp [notified, empty]

theorem empty_sub_one : empty w - 1 = parked w := by
  rw [empty, parked, ← BitVec.neg_one_eq_allOnes]
  simp

variable {w}

theorem empty_ne_notified (hw : 1 < w) : empty w ≠ notified w := fun h => by
  have := congrArg BitVec.toNat h
  simp [empty, notified, Nat.mod_eq_of_lt (Nat.one_lt_two_pow (by omega : w ≠ 0))] at this

theorem parked_ne_notified (hw : 1 < w) : parked w ≠ notified w := fun h => by
  have h := congrArg BitVec.toNat h
  have h4 : 2 ^ 2 ≤ 2 ^ w := Nat.pow_le_pow_right (by decide) hw
  simp only [parked, notified, BitVec.toNat_allOnes] at h
  have : (1 : BitVec w).toNat = 1 := by
    simp [Nat.mod_eq_of_lt (Nat.one_lt_two_pow (by omega : w ≠ 0))]
  omega

theorem empty_ne_parked (hw : 1 < w) : empty w ≠ parked w := fun h => by
  have h := congrArg BitVec.toNat h
  have h4 : 2 ^ 2 ≤ 2 ^ w := Nat.pow_le_pow_right (by decide) hw
  simp [empty, parked] at h
  omega

end Words

/-! ## Parkers -/

/-- Who moves: the thread `i` calls `park`, or goes on in it, or wakes spuriously; the call `j` of `unpark`
starts, or goes on. -/
inductive Act
  | park (i : ℕ)
  | parker
  | spurious
  | unpark (j : ℕ)
  | unparker (j : ℕ)

/-- A parker with a word of `w` bits, and the threads that use it. -/
structure Machine (w : ℕ) where
  State : Type
  init : State
  step : State → Act → Option (State × Event)
  word : State → BitVec w
  /-- `fetch_sub` is next. -/
  subtracts : State → Prop
  /-- The thread in `park` is asleep. -/
  asleep : State → Prop
  /-- A call of `unpark` is between its swap and its notification. -/
  notifying : State → Prop

/-- The runs, given by their events. -/
abbrev Machine.Runs {w : ℕ} (M : Machine w) : List Event → M.State → Prop :=
  Lts.Run (fun s e s' => ∃ k, M.step s k = some (s', e)) M.init

variable {w : ℕ} {M : Machine w}

/-- What a parker is to do. -/
structure Machine.Correct (M : Machine w) : Prop where
  word : ∀ es s, M.Runs es s → M.word s = empty w ∨ M.word s = notified w ∨ M.word s = parked w
  /-- `fetch_sub` does not go past `PARKED`. -/
  noWrap : ∀ es s, M.Runs es s → M.subtracts s → M.word s ≠ parked w
  /-- A token that is taken has been left since the last one was taken. -/
  takes : ∀ es₁ i es₂ s, M.Runs (es₁ ++ .take i :: es₂) s → Token.Left es₁
  /-- A `park` that returns has taken a token. -/
  returns : ∀ es₁ i es₂ s, M.Runs (es₁ ++ .done i :: es₂) s → Token.Took es₁ i
  noLostWakeup : ∀ es s, M.Runs es s → M.asleep s → M.word s = notified w → M.notifying s

/-- An invariant of a parker, and the token that it stands for. -/
structure Machine.Refines (M : Machine w) (Ok : M.State → Prop) (token : M.State → Token) : Prop where
  init : Ok M.init
  token_init : token M.init = .init
  step : ∀ {s k s' e}, Ok s → M.step s k = some (s', e) → Ok s'
  token_step : ∀ {s k s' e}, Ok s → M.step s k = some (s', e) → (token s).next e = some (token s')
  word : ∀ {s}, Ok s → M.word s = empty w ∨ M.word s = notified w ∨ M.word s = parked w
  noWrap : ∀ {s}, Ok s → M.subtracts s → M.word s ≠ parked w
  noLostWakeup : ∀ {s}, Ok s → M.asleep s → M.word s = notified w → M.notifying s

theorem Machine.Refines.run {Ok : M.State → Prop} {token : M.State → Token} (h : M.Refines Ok token)
    {es : List Event} {s : M.State} (hr : M.Runs es s) : Ok s ∧ Token.Accepts .init es (token s) := by
  refine Lts.Run.prefixed (P := fun es s => Ok s ∧ Token.Accepts .init es (token s)) hr
    ⟨h.init, h.token_init ▸ .nil⟩ ?_
  rintro es e s s' - ⟨k, hs⟩ ⟨hok, ht⟩
  exact ⟨h.step hok hs, ht.snoc (h.token_step hok hs)⟩

theorem Machine.Refines.correct {Ok : M.State → Prop} {token : M.State → Token} (h : M.Refines Ok token) :
    M.Correct where
  word _ _ hr := h.word (h.run hr).1
  noWrap _ _ hr := h.noWrap (h.run hr).1
  takes _ _ _ _ hr := Token.unpark_of_take (h.run hr).2
  returns _ _ _ _ hr := Token.take_of_done (h.run hr).2
  noLostWakeup _ _ hr := h.noLostWakeup (h.run hr).1

/-! ## `StdParker` and `PthreadParker` -/

namespace Condvar

/-- Where the thread in `park` is. -/
inductive ParkPc
  /-- The `fetch_sub`. -/
  | sub
  | lock
  /-- The compare-exchange. -/
  | test
  /-- The wait for the condition variable, which releases the mutex. -/
  | wait
  | asleep
  /-- The wait is over, the mutex is locked next. -/
  | relock
  | unlock
  /-- The `fetch_sub` has found `NOTIFIED`. -/
  | ret
  deriving DecidableEq

/-- Where a call of `unpark` is. -/
inductive UnparkPc
  | out
  | swap
  | lock
  | unlock
  | notify
  deriving DecidableEq

/-- Who has the mutex. -/
inductive Owner
  | parker
  | unparker (j : ℕ)
  deriving DecidableEq

/-- The word, the mutex, the call of `park`, and the calls of `unpark`. -/
structure State (w : ℕ) where
  word : BitVec w
  mutex : Option Owner
  park : Option (ℕ × ParkPc)
  unpark : ℕ → UnparkPc

/-- `INIT`. -/
def init (w : ℕ) : State w := ⟨empty w, none, none, fun _ => .out⟩

/-- The next operation of `park`. -/
def parkStep (s : State w) (i : ℕ) : ParkPc → Option (State w × Event)
  | .sub =>
    if s.word = notified w then some ({ s with word := s.word - 1, park := some (i, .ret) }, .take i)
    else some ({ s with word := s.word - 1, park := some (i, .lock) }, .tau)
  | .lock | .relock =>
    if s.mutex = none then some ({ s with mutex := some .parker, park := some (i, .test) }, .tau) else none
  | .test =>
    if s.word = notified w then some ({ s with word := empty w, park := some (i, .unlock) }, .take i)
    else some ({ s with park := some (i, .wait) }, .tau)
  | .wait => some ({ s with mutex := none, park := some (i, .asleep) }, .tau)
  | .asleep => none
  | .unlock => some ({ s with mutex := none, park := none }, .done i)
  | .ret => some ({ s with park := none }, .done i)

/-- The thread in `park` is woken. -/
def wake : Option (ℕ × ParkPc) → Option (ℕ × ParkPc)
  | some (i, .asleep) => some (i, .relock)
  | p => p

/-- The next operation of the call `j` of `unpark`. -/
def unparkStep (s : State w) (j : ℕ) : UnparkPc → Option (State w × Event)
  | .out => none
  | .swap =>
    some ({ s with
      word := notified w
      unpark := Function.update s.unpark j (if s.word = parked w then .lock else .out) }, .unpark j)
  | .lock =>
    if s.mutex = none then
      some ({ s with
        mutex := some (.unparker j)
        unpark := Function.update s.unpark j .unlock }, .tau)
    else none
  | .unlock => some ({ s with mutex := none, unpark := Function.update s.unpark j .notify }, .tau)
  | .notify => some ({ s with park := wake s.park, unpark := Function.update s.unpark j .out }, .tau)

/-- One step. -/
def step (s : State w) : Act → Option (State w × Event)
  | .park i => if s.park = none then some ({ s with park := some (i, .sub) }, .park i) else none
  | .parker =>
    match s.park with
    | some (i, p) => parkStep s i p
    | none => none
  | .spurious =>
    match s.park with
    | some (i, .asleep) => some ({ s with park := some (i, .relock) }, .tau)
    | _ => none
  | .unpark j =>
    if s.unpark j = .out then some ({ s with unpark := Function.update s.unpark j .swap }, .tau) else none
  | .unparker j => unparkStep s j (s.unpark j)

/-- The `park` has found no token. -/
def ParkPc.waits : ParkPc → Bool
  | .lock | .test | .wait | .asleep | .relock => true
  | _ => false

/-- The thread in `park` has the mutex. -/
def ParkPc.locked : ParkPc → Bool
  | .test | .wait | .unlock => true
  | _ => false

/-- It has taken the token. -/
def ParkPc.took : ParkPc → Bool
  | .unlock | .ret => true
  | _ => false

/-- The word without a token. -/
def rest (p : Option (ℕ × ParkPc)) : BitVec w := if p.any fun p => p.2.waits then parked w else empty w

/-- What holds in every state. -/
structure Ok (s : State w) : Prop where
  word : s.word = notified w ∨ s.word = rest s.park
  parker : s.mutex = some .parker ↔ ∃ i p, s.park = some (i, p) ∧ p.locked = true
  unparker : ∀ {j}, s.mutex = some (.unparker j) ↔ s.unpark j = .unlock
  /-- Who sets the word while the thread goes to sleep has not locked the mutex yet. -/
  wait : ∀ {i}, s.park = some (i, .wait) → s.word = notified w → ∃ j, s.unpark j = .lock
  asleep : ∀ {i}, s.park = some (i, .asleep) → s.word = notified w →
    ∃ j, s.unpark j = .lock ∨ s.unpark j = .unlock ∨ s.unpark j = .notify

/-- The token. -/
def token (s : State w) : Token := ⟨decide (s.word = notified w), s.park.map fun p => (p.1, p.2.took)⟩

variable {s s' : State w} {e : Event} {i j : ℕ} {p : ParkPc}

theorem rest_some : (rest (some (i, p)) : BitVec w) = if p.waits then parked w else empty w := by
  simp [rest]

theorem Ok.init (w : ℕ) : Ok (init w) := by
  refine ⟨.inr rfl, ?_, ?_, ?_, ?_⟩ <;> simp [Condvar.init]

/-- The steps of `park` that leave the mutex to whom it belongs. -/
theorem Ok.of_park {word : BitVec w} {q : ParkPc} (h : Ok s) (hp : s.park = some (i, p))
    (hl : q.locked = p.locked) (hword : word = notified w ∨ word = rest (some (i, q)))
    (hw : q = .wait → word ≠ notified w) (ha : q ≠ .asleep) :
    Ok { s with word := word, park := some (i, q) } where
  word := hword
  parker := by
    rw [h.parker]
    simp [hp, hl]
  unparker := h.unparker
  wait := fun hq hn => by
    obtain ⟨-, rfl⟩ := Prod.mk.inj (Option.some.inj hq)
    exact absurd hn (hw rfl)
  asleep := fun hq => by
    obtain ⟨-, rfl⟩ := Prod.mk.inj (Option.some.inj hq)
    exact absurd rfl ha

/-- A mutex that no call of `unpark` has. -/
theorem Ok.ne_unlock (h : Ok s) (hm : ∀ j, s.mutex ≠ some (.unparker j)) (j : ℕ) : s.unpark j ≠ .unlock :=
  fun hj => hm j (h.unparker.2 hj)

theorem Ok.park_step (h : Ok s) (hp : s.park = some (i, p))
    (hs : parkStep s i p = some (s', e)) : Ok s' := by
  have hword := h.word
  rw [hp, rest_some] at hword
  have hlocked : p.locked = true → s.mutex = some .parker := fun hl => h.parker.2 ⟨i, p, hp, hl⟩
  have hget : s.mutex = none → p.waits = true →
      Ok { s with mutex := some .parker, park := some (i, .test) } := fun hm hwait => by
    rw [if_pos hwait] at hword
    refine ⟨hword, by simp [ParkPc.locked], fun {j} => ?_, by simp, by simp⟩
    simp [h.ne_unlock (by simp [hm]) j]
  cases p <;> simp only [parkStep, reduceCtorEq] at hs
  case sub =>
    have hrest : s.word ≠ notified w → s.word - 1 = parked w := fun hn => by
      rw [hword.resolve_left hn]
      exact empty_sub_one w
    split at hs <;> obtain ⟨rfl, rfl⟩ := Prod.mk.inj (Option.some.inj hs)
    · rename_i hn
      exact h.of_park hp rfl (.inr (by rw [hn, notified_sub_one, rest_some]; rfl)) (by simp) (by simp)
    · rename_i hn
      exact h.of_park hp rfl (.inr (by rw [hrest hn, rest_some]; rfl)) (by simp) (by simp)
  case lock =>
    split at hs <;> [obtain ⟨rfl, rfl⟩ := Prod.mk.inj (Option.some.inj hs); simp at hs]
    exact hget ‹_› rfl
  case relock =>
    split at hs <;> [obtain ⟨rfl, rfl⟩ := Prod.mk.inj (Option.some.inj hs); simp at hs]
    exact hget ‹_› rfl
  case test =>
    split at hs <;> obtain ⟨rfl, rfl⟩ := Prod.mk.inj (Option.some.inj hs)
    · exact h.of_park hp rfl (.inr rfl) (by simp) (by simp)
    · rename_i hn
      exact h.of_park hp rfl hword (fun _ => hn) (by simp)
  case wait =>
    obtain ⟨rfl, rfl⟩ := Prod.mk.inj (Option.some.inj hs)
    refine ⟨hword, by simp [ParkPc.locked], fun {j} => ?_, by simp, fun _ hn => ?_⟩
    · simp [h.ne_unlock (by simp [hlocked rfl]) j]
    · obtain ⟨j, hj⟩ := h.wait hp hn
      exact ⟨j, .inl hj⟩
  case unlock =>
    obtain ⟨rfl, rfl⟩ := Prod.mk.inj (Option.some.inj hs)
    refine ⟨hword, by simp, fun {j} => ?_, by simp, by simp⟩
    simp [h.ne_unlock (by simp [hlocked rfl]) j]
  case ret =>
    obtain ⟨rfl, rfl⟩ := Prod.mk.inj (Option.some.inj hs)
    refine ⟨hword, ?_, h.unparker, by simp, by simp⟩
    rw [h.parker]
    simp [hp, ParkPc.locked]

/-- What a wakeup does to the call of `park`. -/
theorem wake_cases (p : Option (ℕ × ParkPc)) :
    (∃ i, p = some (i, .asleep) ∧ wake p = some (i, .relock)) ∨
      (∀ i, p ≠ some (i, .asleep)) ∧ wake p = p := by
  unfold wake
  split
  · exact .inl ⟨_, rfl, rfl⟩
  · rename_i h
    exact .inr ⟨fun i hp => h i hp, rfl⟩

/-- A thread that is woken, or not. -/
theorem Ok.of_wake (h : Ok s) {u : ℕ → UnparkPc} (hu : ∀ k, u k = .unlock ↔ s.unpark k = .unlock)
    (hl : ∀ k, s.unpark k = .lock → u k = .lock) (ha : ∀ i, wake s.park ≠ some (i, .asleep)) :
    Ok { s with park := wake s.park, unpark := u } := by
  have hun : ∀ k, s.mutex = some (.unparker k) ↔ u k = .unlock := fun k => h.unparker.trans (hu k).symm
  rcases wake_cases s.park with ⟨i, hp, hq⟩ | ⟨-, hq⟩
  · refine ⟨?_, ?_, fun {k} => hun k, ?_, fun hi => absurd hi (ha _)⟩
    · have := h.word
      rw [hp] at this
      rw [hq]
      exact this
    · rw [hq]
      simpa [hp, ParkPc.locked] using h.parker
    · simp [hq]
  · refine ⟨?_, ?_, fun {k} => hun k, fun hi hn => ?_, fun hi => absurd hi (ha _)⟩
    · rw [hq]
      exact h.word
    · rw [hq]
      exact h.parker
    · rw [hq] at hi
      obtain ⟨k, hk⟩ := h.wait hi hn
      exact ⟨k, hl k hk⟩

theorem wake_ne_asleep (p : Option (ℕ × ParkPc)) (i : ℕ) : wake p ≠ some (i, .asleep) := by
  rcases wake_cases p with ⟨k, -, hq⟩ | ⟨hp, hq⟩
  · simp [hq]
  · rw [hq]
    exact hp i

/-- The steps of a call of `unpark`. -/
theorem Ok.unpark_step (h : Ok s) (hs : unparkStep s j (s.unpark j) = some (s', e)) : Ok s' := by
  have hparker : ∀ i p, s.park = some (i, p) → p.locked = true → s.mutex = some .parker :=
    fun i p hp hl => h.parker.2 ⟨i, p, hp, hl⟩
  cases hj : s.unpark j <;> simp only [hj, unparkStep, reduceCtorEq] at hs
  case swap =>
    obtain ⟨rfl, rfl⟩ := Prod.mk.inj (Option.some.inj hs)
    -- a thread that waits has set the word to `PARKED`, unless it is notified already
    have hnew : ∀ i p, s.park = some (i, p) → p.waits = true → s.word ≠ notified w → s.word = parked w :=
      fun i p hp hq hn => by
        have := h.word.resolve_left hn
        rwa [hp, rest_some, if_pos hq] at this
    have hne : ∀ k, s.unpark k ≠ .swap → k ≠ j := fun k hk e => hk (e ▸ hj)
    refine ⟨.inl rfl, h.parker, fun {k} => ?_, fun {i} hi _ => ?_, fun {i} hi _ => ?_⟩
    · by_cases hk : k = j
      · subst hk
        have : s.mutex ≠ some (.unparker k) := fun hm => by simp [h.unparker.1 hm] at hj
        simp only [this, Function.update_self, false_iff]
        split <;> simp
      · dsimp only
        rw [Function.update_of_ne hk]
        exact h.unparker
    · by_cases hn : s.word = notified w
      · obtain ⟨k, hk⟩ := h.wait hi hn
        exact ⟨k, (Function.update_of_ne (hne k (by simp [hk])) ..).trans hk⟩
      · exact ⟨j, by simp [hnew _ _ hi rfl hn]⟩
    · by_cases hn : s.word = notified w
      · obtain ⟨k, hk⟩ := h.asleep hi hn
        refine ⟨k, ?_⟩
        dsimp only
        rw [Function.update_of_ne (hne k (by rcases hk with hk | hk | hk <;> simp [hk]))]
        exact hk
      · exact ⟨j, .inl (by simp [hnew _ _ hi rfl hn])⟩
  case lock =>
    split at hs <;> [obtain ⟨rfl, rfl⟩ := Prod.mk.inj (Option.some.inj hs); simp at hs]
    rename_i hm
    refine ⟨h.word, ?_, fun {k} => ?_, fun hi => ?_, fun {i} hi hn => ?_⟩
    · refine ⟨by simp, ?_⟩
      rintro ⟨i, p, hp, hl⟩
      simp [hm] at hparker
      simp [hparker i p hp] at hl
    · by_cases hk : k = j
      · simp [hk]
      · simp [Function.update_of_ne hk, h.ne_unlock (by simp [hm]) k, Ne.symm hk]
    · simp [hm] at hparker
      exact absurd (hparker _ _ hi) (by simp [ParkPc.locked])
    · obtain ⟨k, hk⟩ := h.asleep hi hn
      by_cases hkj : k = j
      · exact ⟨j, by simp⟩
      · exact ⟨k, by dsimp only; rwa [Function.update_of_ne hkj]⟩
  case unlock =>
    obtain ⟨rfl, rfl⟩ := Prod.mk.inj (Option.some.inj hs)
    have hm : s.mutex = some (.unparker j) := h.unparker.2 hj
    refine ⟨h.word, ?_, fun {k} => ?_, fun hi => ?_, fun {i} hi hn => ?_⟩
    · refine ⟨by simp, ?_⟩
      rintro ⟨i, p, hp, hl⟩
      simp [hm] at hparker
      simp [hparker i p hp] at hl
    · by_cases hk : k = j
      · simp [hk]
      · have : s.unpark k ≠ .unlock := fun h' => by
          have := h.unparker.2 h'
          simp [hm, Ne.symm hk] at this
        simp [Function.update_of_ne hk, this]
    · simp [hm] at hparker
      exact absurd (hparker _ _ hi) (by simp [ParkPc.locked])
    · obtain ⟨k, hk⟩ := h.asleep hi hn
      by_cases hkj : k = j
      · exact ⟨j, by simp⟩
      · exact ⟨k, by dsimp only; rwa [Function.update_of_ne hkj]⟩
  case notify =>
    obtain ⟨rfl, rfl⟩ := Prod.mk.inj (Option.some.inj hs)
    refine h.of_wake (fun k => ?_) (fun k hk => ?_) (wake_ne_asleep _)
    · by_cases hk : k = j
      · simp [hk, hj]
      · rw [Function.update_of_ne hk]
    · have hkj : k ≠ j := fun e => by simp [e, hj] at hk
      rwa [Function.update_of_ne hkj]

theorem Ok.step {k : Act} (h : Ok s) (hs : Condvar.step s k = some (s', e)) : Ok s' := by
  cases k <;> simp only [Condvar.step] at hs
  case park i =>
    split at hs <;> [obtain ⟨rfl, rfl⟩ := Prod.mk.inj (Option.some.inj hs); simp at hs]
    rename_i hp
    have hword := h.word
    have hparker := h.parker
    rw [hp] at hword
    simp only [hp, reduceCtorEq, false_and, exists_false, iff_false] at hparker
    exact ⟨hword, by simp [hparker, ParkPc.locked], h.unparker, by simp, by simp⟩
  case parker =>
    split at hs
    · exact h.park_step ‹_› hs
    · simp at hs
  case spurious =>
    split at hs <;> [obtain ⟨rfl, rfl⟩ := Prod.mk.inj (Option.some.inj hs); simp at hs]
    rename_i i hp
    have hq : wake s.park = some (i, .relock) := by rw [hp]; rfl
    exact hq ▸ h.of_wake (fun _ => .rfl) (fun _ hk => hk) (wake_ne_asleep _)
  case unpark j =>
    split at hs <;> [obtain ⟨rfl, rfl⟩ := Prod.mk.inj (Option.some.inj hs); simp at hs]
    rename_i hj
    have hne : ∀ k, s.unpark k ≠ .out → k ≠ j := fun k hk e => hk (e ▸ hj)
    refine ⟨h.word, h.parker, fun {k} => ?_, fun {i} hi hn => ?_, fun {i} hi hn => ?_⟩
    · by_cases hk : k = j
      · simpa [hk, hj] using h.unparker (j := j)
      · dsimp only
        rw [Function.update_of_ne hk]
        exact h.unparker
    · obtain ⟨k, hk⟩ := h.wait hi hn
      exact ⟨k, (Function.update_of_ne (hne k (by simp [hk])) ..).trans hk⟩
    · obtain ⟨k, hk⟩ := h.asleep hi hn
      refine ⟨k, ?_⟩
      dsimp only
      rw [Function.update_of_ne (hne k (by rcases hk with hk | hk | hk <;> simp [hk]))]
      exact hk
  case unparker j => exact h.unpark_step hs

/-! ### The token -/

theorem token_of_park {q : ParkPc} (hp : s.park = some (i, p)) (hp' : s'.park = some (i, q))
    (hq : q.took = p.took) (hword : s'.word = notified w ↔ s.word = notified w) : token s' = token s := by
  simp [token, hp, hp', hq, hword]

theorem token_tau (h : token s' = token s) : (token s).next .tau = some (token s') := congrArg some h.symm

theorem token_park_step (hw : 1 < w) (h : Ok s) (hp : s.park = some (i, p))
    (hs : parkStep s i p = some (s', e)) : (token s).next e = some (token s') := by
  have htake : ∀ q, q.took = true → p.took = false → s.word = notified w →
      (token s).next (.take i) = some (token { s with word := empty w, park := some (i, q) }) :=
    fun q hq hp' hn => by
      simp [token, Token.next, hp, hp', hq, hn, empty_ne_notified hw]
  have hdone : ∀ m, p.took = true →
      (token s).next (.done i) = some (token { s with mutex := m, park := none }) := fun m hp' => by
    simp [token, Token.next, hp, hp']
  cases p <;> simp only [parkStep, reduceCtorEq] at hs
  case sub =>
    split at hs <;> obtain ⟨rfl, rfl⟩ := Prod.mk.inj (Option.some.inj hs)
    · rename_i hn
      rw [hn, notified_sub_one]
      exact htake _ rfl rfl hn
    · rename_i hn
      have hword := h.word.resolve_left hn
      rw [hp, rest_some] at hword
      have hsub : s.word - 1 = parked w := hword ▸ empty_sub_one w
      exact token_tau (token_of_park hp rfl rfl (iff_of_false (hsub ▸ parked_ne_notified hw) hn))
  case lock =>
    split at hs <;> [obtain ⟨rfl, rfl⟩ := Prod.mk.inj (Option.some.inj hs); simp at hs]
    exact token_tau (token_of_park hp rfl rfl .rfl)
  case relock =>
    split at hs <;> [obtain ⟨rfl, rfl⟩ := Prod.mk.inj (Option.some.inj hs); simp at hs]
    exact token_tau (token_of_park hp rfl rfl .rfl)
  case test =>
    split at hs <;> obtain ⟨rfl, rfl⟩ := Prod.mk.inj (Option.some.inj hs)
    · exact htake _ rfl rfl ‹_›
    · exact token_tau (token_of_park hp rfl rfl .rfl)
  case wait =>
    obtain ⟨rfl, rfl⟩ := Prod.mk.inj (Option.some.inj hs)
    exact token_tau (token_of_park hp rfl rfl .rfl)
  case unlock =>
    obtain ⟨rfl, rfl⟩ := Prod.mk.inj (Option.some.inj hs)
    exact hdone _ rfl
  case ret =>
    obtain ⟨rfl, rfl⟩ := Prod.mk.inj (Option.some.inj hs)
    exact hdone s.mutex rfl

theorem token_wake (u : ℕ → UnparkPc) : token { s with park := wake s.park, unpark := u } = token s := by
  rcases wake_cases s.park with ⟨i, hp, hq⟩ | ⟨-, hq⟩
  · simp only [token, hq]
    simp [hp, ParkPc.took]
  · simp only [token, hq]

theorem token_step (hw : 1 < w) {k : Act} (h : Ok s) (hs : Condvar.step s k = some (s', e)) :
    (token s).next e = some (token s') := by
  cases k <;> simp only [Condvar.step] at hs
  case park i =>
    split at hs <;> [obtain ⟨rfl, rfl⟩ := Prod.mk.inj (Option.some.inj hs); simp at hs]
    rename_i hp
    simp [token, Token.next, hp, ParkPc.took]
  case parker =>
    split at hs
    · exact token_park_step hw h ‹_› hs
    · simp at hs
  case spurious =>
    split at hs <;> [obtain ⟨rfl, rfl⟩ := Prod.mk.inj (Option.some.inj hs); simp at hs]
    rename_i i hp
    exact token_tau (token_of_park hp rfl rfl .rfl)
  case unpark j =>
    split at hs <;> [obtain ⟨rfl, rfl⟩ := Prod.mk.inj (Option.some.inj hs); simp at hs]
    rfl
  case unparker j =>
    cases hj : s.unpark j <;> simp only [hj, unparkStep, reduceCtorEq] at hs
    case swap =>
      obtain ⟨rfl, rfl⟩ := Prod.mk.inj (Option.some.inj hs)
      simp [token, Token.next]
    case lock =>
      split at hs <;> [obtain ⟨rfl, rfl⟩ := Prod.mk.inj (Option.some.inj hs); simp at hs]
      rfl
    case unlock =>
      obtain ⟨rfl, rfl⟩ := Prod.mk.inj (Option.some.inj hs)
      rfl
    case notify =>
      obtain ⟨rfl, rfl⟩ := Prod.mk.inj (Option.some.inj hs)
      exact token_tau (token_wake _)

/-- The call of `unpark` is between its swap and its notification. -/
def UnparkPc.notifying : UnparkPc → Bool
  | .lock | .unlock | .notify => true
  | _ => false

/-- A parker with a mutex and a condition variable. -/
def machine (w : ℕ) : Machine w where
  State := State w
  init := Condvar.init w
  step := Condvar.step
  word := State.word
  subtracts s := ∃ i, s.park = some (i, .sub)
  asleep s := ∃ i, s.park = some (i, .asleep)
  notifying s := ∃ j, (s.unpark j).notifying = true

theorem refines (hw : 1 < w) : (machine w).Refines Ok token where
  init := Ok.init w
  token_init := by
    simp [machine, Condvar.init, token, Token.init, empty_ne_notified hw]
  step h hs := h.step hs
  token_step h hs := token_step hw h hs
  word {s} h := by
    rcases h.word with hn | hr
    · exact .inr (.inl hn)
    · unfold rest at hr
      split at hr
      · exact .inr (.inr hr)
      · exact .inl hr
  noWrap {s} h := by
    rintro ⟨i, hp⟩
    rcases h.word with hn | hr
    · exact fun hpk => parked_ne_notified hw (hpk.symm.trans hn)
    · rw [hp, rest_some] at hr
      exact fun hpk => empty_ne_parked hw (hr.symm.trans hpk)
  noLostWakeup {s} h := by
    rintro ⟨i, hp⟩ hn
    obtain ⟨j, hj⟩ := h.asleep hp hn
    exact ⟨j, by rcases hj with hj | hj | hj <;> simp [hj, UnparkPc.notifying]⟩

end Condvar

/-! ## `AtomicParker` -/

namespace Futex

/-- Where the thread in `park` is. -/
inductive ParkPc
  /-- The `fetch_sub`. -/
  | sub
  /-- `atomic_wait::wait`, which returns at once when the word is not `PARKED`. -/
  | wait
  | asleep
  /-- The compare-exchange. -/
  | test
  | ret
  deriving DecidableEq

/-- Where a call of `unpark` is. -/
inductive UnparkPc
  | out
  | swap
  /-- `atomic_wait::wake_one`. -/
  | wake
  deriving DecidableEq

/-- The word, the call of `park`, and the calls of `unpark`. -/
structure State (w : ℕ) where
  word : BitVec w
  park : Option (ℕ × ParkPc)
  unpark : ℕ → UnparkPc

/-- `INIT`. -/
def init (w : ℕ) : State w := ⟨empty w, none, fun _ => .out⟩

/-- The next operation of `park`. -/
def parkStep (s : State w) (i : ℕ) : ParkPc → Option (State w × Event)
  | .sub =>
    if s.word = notified w then some ({ s with word := s.word - 1, park := some (i, .ret) }, .take i)
    else some ({ s with word := s.word - 1, park := some (i, .wait) }, .tau)
  | .wait => some ({ s with park := some (i, if s.word = parked w then .asleep else .test) }, .tau)
  | .asleep => none
  | .test =>
    if s.word = notified w then some ({ s with word := empty w, park := some (i, .ret) }, .take i)
    else some ({ s with park := some (i, .wait) }, .tau)
  | .ret => some ({ s with park := none }, .done i)

/-- The thread in `park` is woken. -/
def wake : Option (ℕ × ParkPc) → Option (ℕ × ParkPc)
  | some (i, .asleep) => some (i, .test)
  | p => p

/-- The next operation of the call `j` of `unpark`. -/
def unparkStep (s : State w) (j : ℕ) : UnparkPc → Option (State w × Event)
  | .out => none
  | .swap =>
    some ({ s with
      word := notified w
      unpark := Function.update s.unpark j (if s.word = parked w then .wake else .out) }, .unpark j)
  | .wake => some ({ s with park := wake s.park, unpark := Function.update s.unpark j .out }, .tau)

/-- One step. -/
def step (s : State w) : Act → Option (State w × Event)
  | .park i => if s.park = none then some ({ s with park := some (i, .sub) }, .park i) else none
  | .parker =>
    match s.park with
    | some (i, p) => parkStep s i p
    | none => none
  | .spurious =>
    match s.park with
    | some (i, .asleep) => some ({ s with park := some (i, .test) }, .tau)
    | _ => none
  | .unpark j =>
    if s.unpark j = .out then some ({ s with unpark := Function.update s.unpark j .swap }, .tau) else none
  | .unparker j => unparkStep s j (s.unpark j)

/-- The `park` has found no token. -/
def ParkPc.waits : ParkPc → Bool
  | .wait | .asleep | .test => true
  | _ => false

/-- The word without a token. -/
def rest (p : Option (ℕ × ParkPc)) : BitVec w := if p.any fun p => p.2.waits then parked w else empty w

/-- What holds in every state. -/
structure Ok (s : State w) : Prop where
  word : s.word = notified w ∨ s.word = rest s.park
  asleep : ∀ {i}, s.park = some (i, .asleep) → s.word = notified w → ∃ j, s.unpark j = .wake

/-- The token. -/
def token (s : State w) : Token :=
  ⟨decide (s.word = notified w), s.park.map fun p => (p.1, decide (p.2 = .ret))⟩

variable {s s' : State w} {e : Event} {i j : ℕ} {p : ParkPc}

theorem rest_some : (rest (some (i, p)) : BitVec w) = if p.waits then parked w else empty w := by
  simp [rest]

theorem Ok.init (w : ℕ) : Ok (init w) := ⟨.inr rfl, by simp [Futex.init]⟩

/-- What a wakeup does to the call of `park`. -/
theorem wake_cases (p : Option (ℕ × ParkPc)) :
    (∃ i, p = some (i, .asleep) ∧ wake p = some (i, .test)) ∨ (∀ i, p ≠ some (i, .asleep)) ∧ wake p = p := by
  unfold wake
  split
  · exact .inl ⟨_, rfl, rfl⟩
  · rename_i h
    exact .inr ⟨fun i hp => h i hp, rfl⟩

/-- The thread in `park` goes on, and is not asleep. -/
theorem Ok.of_park {word : BitVec w} {q : Option (ℕ × ParkPc)} {u : ℕ → UnparkPc}
    (hword : word = notified w ∨ word = rest q) (hq : ∀ i, q ≠ some (i, .asleep)) : Ok ⟨word, q, u⟩ :=
  ⟨hword, fun hp => absurd hp (hq _)⟩

theorem Ok.park_step (hw : 1 < w) (h : Ok s) (hp : s.park = some (i, p))
    (hs : parkStep s i p = some (s', e)) : Ok s' := by
  have hword := h.word
  rw [hp, rest_some] at hword
  cases p <;> simp only [parkStep, reduceCtorEq] at hs
  case sub =>
    split at hs <;> obtain ⟨rfl, rfl⟩ := Prod.mk.inj (Option.some.inj hs)
    · rename_i hn
      exact .of_park (.inr (by rw [hn, notified_sub_one]; rfl)) (by simp)
    · rename_i hn
      refine .of_park (.inr ?_) (by simp)
      rw [hword.resolve_left hn]
      exact empty_sub_one w
  case wait =>
    obtain ⟨rfl, rfl⟩ := Prod.mk.inj (Option.some.inj hs)
    -- the thread sleeps only when it has found the word `PARKED`
    by_cases hk : s.word = parked w
    · exact ⟨.inr (by simp [hk, rest_some, ParkPc.waits]),
        fun _ hn => absurd (hk.symm.trans hn) (parked_ne_notified hw)⟩
    · exact .of_park (by simpa [hk, rest_some, ParkPc.waits] using hword) (by simp [hk])
  case test =>
    split at hs <;> obtain ⟨rfl, rfl⟩ := Prod.mk.inj (Option.some.inj hs)
    · exact .of_park (.inr rfl) (by simp)
    · exact .of_park hword (by simp)
  case ret =>
    obtain ⟨rfl, rfl⟩ := Prod.mk.inj (Option.some.inj hs)
    exact .of_park hword (by simp)

theorem Ok.step (hw : 1 < w) {k : Act} (h : Ok s) (hs : Futex.step s k = some (s', e)) : Ok s' := by
  have hwake : ∀ u, Ok { s with park := wake s.park, unpark := u } := fun u => by
    rcases wake_cases s.park with ⟨i, hp, hq⟩ | ⟨hp, hq⟩
    · have := h.word
      rw [hp] at this
      rw [hq]
      exact .of_park this (by simp)
    · rw [hq]
      exact .of_park h.word hp
  cases k <;> simp only [Futex.step] at hs
  case park i =>
    split at hs <;> [obtain ⟨rfl, rfl⟩ := Prod.mk.inj (Option.some.inj hs); simp at hs]
    rename_i hp
    have hword := h.word
    rw [hp] at hword
    exact .of_park hword (by simp)
  case parker =>
    split at hs
    · exact h.park_step hw ‹_› hs
    · simp at hs
  case spurious =>
    split at hs <;> [obtain ⟨rfl, rfl⟩ := Prod.mk.inj (Option.some.inj hs); simp at hs]
    rename_i i hp
    have hq : wake s.park = some (i, .test) := by rw [hp]; rfl
    exact hq ▸ hwake s.unpark
  case unpark j =>
    split at hs <;> [obtain ⟨rfl, rfl⟩ := Prod.mk.inj (Option.some.inj hs); simp at hs]
    rename_i hj
    refine ⟨h.word, fun {i} hi hn => ?_⟩
    obtain ⟨k, hk⟩ := h.asleep hi hn
    have hkj : k ≠ j := fun e => by simp [e, hj] at hk
    exact ⟨k, (Function.update_of_ne hkj ..).trans hk⟩
  case unparker j =>
    cases hj : s.unpark j <;> simp only [hj, unparkStep, reduceCtorEq] at hs
    case swap =>
      obtain ⟨rfl, rfl⟩ := Prod.mk.inj (Option.some.inj hs)
      refine ⟨.inl rfl, fun {i} hi _ => ?_⟩
      by_cases hn : s.word = notified w
      · obtain ⟨k, hk⟩ := h.asleep hi hn
        have hkj : k ≠ j := fun e => by simp [e, hj] at hk
        exact ⟨k, (Function.update_of_ne hkj ..).trans hk⟩
      · have hparked := h.word.resolve_left hn
        rw [show s.park = some (i, .asleep) from hi, rest_some] at hparked
        exact ⟨j, by simp [show s.word = parked w from hparked]⟩
    case wake =>
      obtain ⟨rfl, rfl⟩ := Prod.mk.inj (Option.some.inj hs)
      exact hwake _

/-! ### The token -/

theorem token_tau (h : token s' = token s) : (token s).next .tau = some (token s') := congrArg some h.symm

theorem token_of_park {word : BitVec w} {u : ℕ → UnparkPc} (hp : s.park = some (i, p)) {q : ParkPc}
    (hq : q = .ret ↔ p = .ret) (hword : word = notified w ↔ s.word = notified w) :
    token ⟨word, some (i, q), u⟩ = token s := by
  simp [token, hp, hq, hword]

theorem token_park_step (hw : 1 < w) (h : Ok s) (hp : s.park = some (i, p))
    (hs : parkStep s i p = some (s', e)) : (token s).next e = some (token s') := by
  have htake : p ≠ .ret → s.word = notified w →
      (token s).next (.take i) = some (token { s with word := empty w, park := some (i, .ret) }) :=
    fun hp' hn => by
      simp [token, Token.next, hp, hp', hn, empty_ne_notified hw]
  cases p <;> simp only [parkStep, reduceCtorEq] at hs
  case sub =>
    split at hs <;> obtain ⟨rfl, rfl⟩ := Prod.mk.inj (Option.some.inj hs)
    · rename_i hn
      rw [hn, notified_sub_one]
      exact htake (by simp) hn
    · rename_i hn
      have hword := h.word.resolve_left hn
      rw [hp, rest_some] at hword
      have hsub : s.word - 1 = parked w := hword ▸ empty_sub_one w
      exact token_tau (token_of_park hp (by simp) (iff_of_false (hsub ▸ parked_ne_notified hw) hn))
  case wait =>
    obtain ⟨rfl, rfl⟩ := Prod.mk.inj (Option.some.inj hs)
    exact token_tau (token_of_park hp (by split <;> simp) .rfl)
  case test =>
    split at hs <;> obtain ⟨rfl, rfl⟩ := Prod.mk.inj (Option.some.inj hs)
    · exact htake (by simp) ‹_›
    · exact token_tau (token_of_park hp (by simp) .rfl)
  case ret =>
    obtain ⟨rfl, rfl⟩ := Prod.mk.inj (Option.some.inj hs)
    simp [token, Token.next, hp]

theorem token_step (hw : 1 < w) {k : Act} (h : Ok s) (hs : Futex.step s k = some (s', e)) :
    (token s).next e = some (token s') := by
  cases k <;> simp only [Futex.step] at hs
  case park i =>
    split at hs <;> [obtain ⟨rfl, rfl⟩ := Prod.mk.inj (Option.some.inj hs); simp at hs]
    rename_i hp
    simp [token, Token.next, hp]
  case parker =>
    split at hs
    · exact token_park_step hw h ‹_› hs
    · simp at hs
  case spurious =>
    split at hs <;> [obtain ⟨rfl, rfl⟩ := Prod.mk.inj (Option.some.inj hs); simp at hs]
    rename_i i hp
    exact token_tau (token_of_park hp (by simp) .rfl)
  case unpark j =>
    split at hs <;> [obtain ⟨rfl, rfl⟩ := Prod.mk.inj (Option.some.inj hs); simp at hs]
    rfl
  case unparker j =>
    cases hj : s.unpark j <;> simp only [hj, unparkStep, reduceCtorEq] at hs
    case swap =>
      obtain ⟨rfl, rfl⟩ := Prod.mk.inj (Option.some.inj hs)
      simp [token, Token.next]
    case wake =>
      obtain ⟨rfl, rfl⟩ := Prod.mk.inj (Option.some.inj hs)
      refine token_tau ?_
      rcases wake_cases s.park with ⟨i, hp, hq⟩ | ⟨-, hq⟩
      · rw [hq]
        exact token_of_park hp (by simp) .rfl
      · simp only [token, hq]

/-- A parker on a futex. -/
def machine (w : ℕ) : Machine w where
  State := State w
  init := Futex.init w
  step := Futex.step
  word := State.word
  subtracts s := ∃ i, s.park = some (i, .sub)
  asleep s := ∃ i, s.park = some (i, .asleep)
  notifying s := ∃ j, s.unpark j = .wake

theorem refines (hw : 1 < w) : (machine w).Refines Ok token where
  init := Ok.init w
  token_init := by
    simp [machine, Futex.init, token, Token.init, empty_ne_notified hw]
  step h hs := h.step hw hs
  token_step h hs := token_step hw h hs
  word {s} h := by
    rcases h.word with hn | hr
    · exact .inr (.inl hn)
    · unfold rest at hr
      split at hr
      · exact .inr (.inr hr)
      · exact .inl hr
  noWrap {s} h := by
    rintro ⟨i, hp⟩
    rcases h.word with hn | hr
    · exact fun hpk => parked_ne_notified hw (hpk.symm.trans hn)
    · rw [hp, rest_some] at hr
      exact fun hpk => empty_ne_parked hw (hr.symm.trans hpk)
  noLostWakeup {s} h := by
    rintro ⟨i, hp⟩ hn
    exact h.asleep hp hn

end Futex

/-! ## The parkers of the source -/

/-- `StdParker`. -/
def stdParker (w : ℕ) : Machine w := Condvar.machine w

/-- `PthreadParker`. -/
def pthreadParker (w : ℕ) : Machine w := Condvar.machine w

/-- `AtomicParker`. -/
def atomicParker : Machine 32 := Futex.machine 32

/-- **The token protocol.** For every width of `usize`, and all interleavings of `park`, by one thread at a
time, with calls of `unpark`: the word is `EMPTY`, `NOTIFIED` or `PARKED`, and the `fetch_sub` does not go
past `PARKED`; a `park` returns only when it has taken a token, which an `unpark` has left since the last
one was taken; and a thread that sleeps while there is a token is going to be notified. -/
theorem parkers_correct {w : ℕ} (hw : 1 < w) :
    (stdParker w).Correct ∧ (pthreadParker w).Correct ∧ atomicParker.Correct :=
  ⟨(Condvar.refines hw).correct, (Condvar.refines hw).correct, (Futex.refines (by decide)).correct⟩

/-- Words of 64 bits. -/
theorem parkers_correct_64 :
    (stdParker 64).Correct ∧ (pthreadParker 64).Correct ∧ atomicParker.Correct :=
  parkers_correct (by decide)

end Aiq.Parker
