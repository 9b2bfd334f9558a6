import Aiq.Semaphore.Control

/-!
# The amounts of a semaphore

The amounts in the control states of the tasks are in the ranges of their types, the lists of wakers fit
their arrays, a state that an acquisition has failed on has too few permits (`Pc.Ok`), and the state of
the queue can be encoded (`StateOk`). Both hold in every reachable state (`Reached`).
-/

namespace Aiq.Semaphore

variable {W : Type} {willWake : W → W → Bool} {cfg : Config} {a : Abs ℕ} {w w' : WorldOf W}
  {i j : TaskId} {e : Event ℕ} {n : Input W} {v v' : View ℕ} {k : Kind} {r : InstrOf W}

/-! ## Words -/

theorem closed_le_maxState : closed ≤ maxState := by decide

theorem maxState_eq : maxState = 2 ^ 63 - 1 := by decide

theorem maxPermits_eq : maxPermits = 2 ^ 61 - 1 := by decide

@[simp] theorem shiftRight_permitShift (s : ℕ) : s >>> permitShift = s / 2 := Nat.shiftRight_eq_div_pow s 1

theorem shift_eq (p : ℕ) : shift p = 2 * p % 2 ^ 64 := by
  rw [shift, permitShift, Nat.shiftLeft_eq, mul_comm]

theorem shift_of_lt {p : ℕ} (h : p < 2 ^ 63) : shift p = 2 * p := by
  rw [shift_eq, Nat.mod_eq_of_lt (by omega)]

theorem isClosedState_iff {s : ℕ} : isClosedState s = true ↔ s % 2 = 1 := by
  unfold isClosedState closed
  rw [Nat.and_one_is_mod]
  rcases Nat.mod_two_eq_zero_or_one s with h | h <;> simp [h]

theorem isClosedState_eq_false {s : ℕ} : isClosedState s = false ↔ s % 2 = 0 := by
  rw [← Bool.not_eq_true, isClosedState_iff]
  omega

theorem isClosedState_eq {s t : ℕ} (h : s % 2 = t % 2) : isClosedState s = isClosedState t := by
  rw [Bool.eq_iff_iff, isClosedState_iff, isClosedState_iff, h]

theorem checkAddPermits_inv {s p s' : ℕ} (h : checkAddPermits s p = some s') :
    s / 2 + p ≤ maxPermits ∧ s' = s + 2 * p := by
  unfold checkAddPermits at h
  simp only [shiftRight_permitShift] at h
  split at h
  · rename_i hs
    have hm := maxPermits_eq
    refine ⟨by omega, ?_⟩
    rw [← Option.some.inj h, shift_of_lt (by omega)]
  · simp at h

theorem checkAcquirePermits_inv {s n s' : ℕ} (hn : n < 2 ^ 32) (h : checkAcquirePermits s n = some s') :
    isClosedState s = false ∧ 2 * n ≤ s ∧ s' = s - 2 * n := by
  unfold checkAcquirePermits at h
  rw [shift_of_lt (by omega)] at h
  split at h
  · simp at h
  · split at h
    · exact ⟨by simpa using ‹¬ isClosedState s = true›, ‹2 * n ≤ s›, (Option.some.inj h).symm⟩
    · simp at h

theorem checkAcquirePermits_eq_none {s n : ℕ} (hn : n < 2 ^ 32) :
    checkAcquirePermits s n = none ↔ isClosedState s = true ∨ s < 2 * n := by
  unfold checkAcquirePermits
  rw [shift_of_lt (by omega)]
  split
  · simp_all
  · split <;> simp_all

theorem forgetState_inv {s n s' : ℕ} (h : forgetState s n = some s') :
    s' = wrappingSub s (shift n) ∧ s' ≤ maxState := by
  unfold forgetState at h
  dsimp only at h
  split at h
  · exact ⟨(Option.some.inj h).symm, Option.some.inj h ▸ ‹_›⟩
  · simp at h

theorem or_closed_le {s : ℕ} (h : s ≤ maxState) : s ||| closed ≤ maxState := by
  have : s ||| closed < 2 ^ 63 := Nat.or_lt_two_pow (by rw [maxState_eq] at h; omega) (by decide)
  rw [maxState_eq]
  omega

/-! ## Control states -/

/-- An acquisition of a `u32`. -/
def Kind.Ok (k : Kind) : Prop := k.permits < 2 ^ 32

theorem Kind.Ok.request (h : k.Ok) : k.request < 2 ^ 32 := by
  unfold Kind.request
  split
  · decide
  · exact h

/-- `fetch_update_state` has returned `Err(st)`, and not because the semaphore was closed. -/
structure Kind.Refused (k : Kind) (st : Option ℕ) : Prop where
  check : ∀ {s}, st = some s → checkAcquirePermits s k.request = none
  not_closed : st.any isClosedState = false

/-- See `Pc.Ok`. -/
def AddOwner.Ok : AddOwner → Prop
  | .user => True
  | .cancel k _ => k.Ok

/-- See `Pc.Ok`. -/
def FetchCont.Ok : FetchCont W → Prop
  | .acquire k _ | .retry k _ | .tryAcquire k => k.Ok
  | .forget n => n < 2 ^ 64
  | .add o _ _ p => o.Ok ∧ p < 2 ^ 64

/-- See `Pc.Ok`. -/
def FutPc.Ok (k : Kind) : FutPc W → Prop
  | .failed _ st => ∀ {s}, st = some s → checkAcquirePermits s k.request = none
  | .stored _ st | .enqueued _ st => k.Refused st
  | .removing _ acquired | .removed _ acquired | .unlock _ acquired => acquired < 2 ^ 32
  | _ => True

/-- See `Pc.Ok`. -/
def AddPc.Ok : AddPc W → Prop
  | .start _ p | .lock _ p | .second _ p | .locked p | .batch p _ => p < 2 ^ 64
  | .take p ws | .dequeued p ws => p < 2 ^ 64 ∧ ws.length < wakersCapacity
  | .served p ws | .full p ws => p < 2 ^ 64 ∧ ws.length ≤ wakersCapacity
  | .set p ws => p < 2 ^ 64 ∧ shift p ≤ maxState ∧ ws.length ≤ wakersCapacity
  | .failed .push => False
  | _ => True

/-- The amounts in a control state are in the ranges of their types, and its list of wakers fits its
array. -/
def Pc.Ok : Pc W → Prop
  | .idle _ | .close _ => True
  | .fetch c => c.Ok
  | .fut k p => k.Ok ∧ p.Ok k
  | .add o p => o.Ok ∧ p.Ok

/-- The amounts of all tasks, and of the permits that have been handed out. -/
structure Ranges (w : WorldOf W) : Prop where
  pc : ∀ i, (w.pc i).Ok
  permits : ∀ m ∈ w.shared.permits, m < 2 ^ 32

theorem Ranges.init (s : ℕ) : Ranges (init s : WorldOf W) where
  pc := fun _ => trivial
  permits := fun m hm => by simp [Semaphore.init] at hm

theorem AddOwner.Ok.ret {o : AddOwner} (h : o.Ok) (b : Bool) : (o.ret b : Pc W).Ok := by
  cases o with
  | user => trivial
  | cancel k e => exact ⟨h, trivial⟩

theorem FetchCont.Ok.ok {c : FetchCont W} (h : c.Ok) (s : ℕ) : (c.ok s).Ok := by
  cases c <;> try exact trivial
  case retry k wk => exact ⟨h, trivial⟩
  case add o again l p =>
    cases l
    · exact h.1.ret _
    · exact ⟨h.1, trivial⟩

theorem FetchCont.Ok.err {c : FetchCont W} (h : c.Ok) {st : Option ℕ}
    (hst : ∀ s, st = some s → ∃ m, c.fn m s = none) : (c.err st).Ok := by
  cases c <;> try exact trivial
  case acquire k wk => exact ⟨h, trivial⟩
  case retry k wk => exact ⟨h, fun hs => (hst _ hs).choose_spec⟩
  case add o again l p =>
    cases st with
    | none =>
      cases l
      · exact ⟨h.1, h.2⟩
      · cases again
        · exact ⟨h.1, h.2⟩
        · exact ⟨h.1, h.2, Nat.zero_lt_succ _⟩
    | some s =>
      cases l
      · exact h.1.ret _
      · exact ⟨h.1, trivial⟩

theorem FetchCont.Ok.grant {c : FetchCont W} (h : c.Ok) {g : Shared W}
    (hg : ∀ m ∈ g.permits, m < 2 ^ 32) : ∀ m ∈ (c.grant g).permits, m < 2 ^ 32 := by
  cases c <;> try exact hg
  all_goals
    intro m hm
    rcases List.mem_append.1 hm with hm | hm
    · exact hg m hm
    · rw [List.mem_singleton.1 hm]
      exact h

/-! ## Programs -/

theorem ok_fetch {g : Shared W} {c : FetchCont W} (h : c.Ok) (q : State ℕ (Waiter W)) :
    ((fetch i g c).pc e q).Ok := by
  unfold fetch
  dsimp only
  split
  · exact h.err (by simp)
  · exact h

theorem ok_futNext {p : FutPc W} (hk : k.Ok) (h : p.Ok k)
    (hr : futNext willWake w i k p n = some r) (q : State ℕ (Waiter W)) : (r.pc e q).Ok := by
  have hacq : k.acquired (w.q.mem.data i) < 2 ^ 32 :=
    lt_of_le_of_lt (Nat.sub_le ..) hk.request
  cases p <;> simp only [futNext] at hr
  case created =>
    cases n <;> simp only [reduceCtorEq] at hr <;> obtain rfl := Option.some.inj hr
    · exact ok_fetch (c := .acquire k _) hk q
    · trivial
  case suspended =>
    cases n <;> simp only [reduceCtorEq] at hr <;> obtain rfl := Option.some.inj hr
    · exact ⟨hk, trivial⟩
    · exact ⟨hk, trivial⟩
  case retry wk =>
    obtain rfl := Option.some.inj hr
    exact ok_fetch (c := .retry k wk) hk q
  case failed wk st =>
    split at hr <;> obtain rfl := Option.some.inj hr
    · exact ⟨hk, trivial⟩
    · exact ⟨hk, h, by simpa using ‹¬ st.any isClosedState = true›⟩
  case stored wk st =>
    obtain rfl := Option.some.inj hr
    exact ⟨hk, h⟩
  case cancel e' =>
    split at hr
    all_goals first | contradiction | obtain rfl := Option.some.inj hr
    · exact ⟨hk, trivial⟩
    · exact ⟨hk, hacq⟩
    · exact ⟨hk, lt_trans hacq (by decide)⟩
  case removed e' acquired =>
    split at hr
    · obtain rfl := Option.some.inj hr
      exact ⟨hk, h⟩
    · split at hr <;> obtain rfl := Option.some.inj hr
      · exact ⟨hk, lt_trans h (by decide)⟩
      · exact ⟨hk, show 0 < 2 ^ 32 by decide⟩
  case unlock e' acquired =>
    obtain rfl := Option.some.inj hr
    exact ⟨hk, lt_trans h (by decide)⟩
  case dropping e' =>
    obtain rfl := Option.some.inj hr
    trivial
  all_goals
    repeat' split at hr
    all_goals first | contradiction | obtain rfl := Option.some.inj hr
    all_goals exact ⟨hk, trivial⟩

theorem permits_futNext {p : FutPc W} (hk : k.Ok) (hg : ∀ m ∈ w.shared.permits, m < 2 ^ 32)
    (hr : futNext willWake w i k p n = some r) : ∀ m ∈ r.shared.permits, m < 2 ^ 32 := by
  by_cases hd : p = .dropping .ok
  · subst hd
    obtain rfl := Option.some.inj hr
    intro m hm
    rcases List.mem_append.1 hm with hm | hm
    · exact hg m hm
    · rw [List.mem_singleton.1 hm]
      exact hk
  · suffices r.shared = w.shared from this ▸ hg
    unfold futNext at hr
    repeat' split at hr
    all_goals first | contradiction | obtain rfl := Option.some.inj hr
    all_goals
      first
      | rfl
      | simp_all

theorem ok_addNext {o : AddOwner} {p : AddPc W} (ho : o.Ok) (h : p.Ok) (hr : addNext w i o p = some r)
    (q : State ℕ (Waiter W)) : (r.pc e q).Ok ∧ r.shared.permits = w.shared.permits := by
  cases p <;> simp only [addNext] at hr
  case start again p =>
    split at hr <;> obtain rfl := Option.some.inj hr
    · exact ⟨ho.ret _, rfl⟩
    · exact ⟨ok_fetch (c := .add o again false p) ⟨ho, h⟩ q, rfl⟩
  case second again p =>
    obtain rfl := Option.some.inj hr
    exact ⟨ok_fetch (c := .add o again true p) ⟨ho, h⟩ q, rfl⟩
  case locked p =>
    obtain rfl := Option.some.inj hr
    dsimp only
    split
    · exact ⟨⟨ho, trivial⟩, rfl⟩
    · exact ⟨⟨ho, h, Nat.zero_lt_succ _⟩, rfl⟩
  case dequeued p ws =>
    obtain ⟨hp, hws⟩ := h
    split at hr
    · obtain rfl := Option.some.inj hr
      exact ⟨⟨ho, trivial⟩, rfl⟩
    · split at hr <;> obtain rfl := Option.some.inj hr
      · exact ⟨⟨ho, trivial⟩, rfl⟩
      · refine ⟨?_, rfl⟩
        dsimp only
        split
        · exact ⟨ho, trivial⟩
        · rw [if_neg (Nat.ne_of_lt hws)]
          refine ⟨ho, lt_of_le_of_lt (Nat.sub_le ..) hp, ?_⟩
          rw [List.length_append]
          exact hws
    · simp at hr
  case served p ws =>
    split at hr <;> obtain rfl := Option.some.inj hr
    · exact ⟨⟨ho, h.1, ‹_›, h.2⟩, rfl⟩
    · exact ⟨⟨ho, trivial⟩, rfl⟩
  case set p ws => simp at hr
  case full p ws =>
    obtain rfl := Option.some.inj hr
    exact ⟨⟨ho, h.1⟩, rfl⟩
  case batch p ws =>
    cases ws <;> obtain rfl := Option.some.inj hr <;> exact ⟨⟨ho, h⟩, rfl⟩
  case final ws =>
    cases ws <;> obtain rfl := Option.some.inj hr
    · exact ⟨ho.ret _, rfl⟩
    · exact ⟨⟨ho, trivial⟩, rfl⟩
  case unlock b =>
    obtain rfl := Option.some.inj hr
    exact ⟨ho.ret _, rfl⟩
  case failed f =>
    cases f <;> obtain rfl := Option.some.inj hr <;> exact ⟨⟨ho, trivial⟩, rfl⟩
  all_goals
    obtain rfl := Option.some.inj hr
    exact ⟨⟨ho, h⟩, rfl⟩

theorem closeNext_pc {p : ClosePc W} (hr : closeNext w p n = some r) (q : State ℕ (Waiter W)) :
    ((∃ p', r.pc e q = .close p') ∨ r.pc e q = .idle .ok ∨ r.pc e q = .idle .panicked) ∧
      r.shared.permits = w.shared.permits := by
  cases p <;> simp only [closeNext] at hr
  case forEach p =>
    unfold ForEachPc.next at hr
    repeat' split at hr
    all_goals first | contradiction | obtain rfl := Option.some.inj hr
    all_goals
      refine ⟨.inl ?_, rfl⟩
      dsimp only
      repeat' split
      all_goals exact ⟨_, rfl⟩
  case drain =>
    cases n <;> simp only [reduceCtorEq] at hr
    obtain rfl := Option.some.inj hr
    exact ⟨.inl ⟨_, rfl⟩, rfl⟩
  case final ws => cases ws <;> obtain rfl := Option.some.inj hr <;> simp [Shared.wake]
  case ask => simp at hr
  all_goals
    obtain rfl := Option.some.inj hr
    simp

theorem ok_start (hg : ∀ m ∈ w.shared.permits, m < 2 ^ 32) (hr : start w i n = some r)
    (q : State ℕ (Waiter W)) : (r.pc e q).Ok ∧ ∀ m ∈ r.shared.permits, m < 2 ^ 32 := by
  have herase : ∀ p, ∀ m ∈ w.shared.permits.eraseIdx p, m < 2 ^ 32 := fun p m hm =>
    hg m (List.mem_of_mem_eraseIdx hm)
  have hget : ∀ {p m : ℕ}, w.shared.permits[p]? = some m → m < 2 ^ 32 := fun h =>
    hg _ (List.mem_of_getElem? h)
  cases n <;> simp only [start, permitNext, reduceCtorEq] at hr
  case acquireMany owned m =>
    obtain rfl := Option.some.inj hr
    exact ⟨⟨m.toNat_lt, trivial⟩, hg⟩
  case tryAcquireMany owned m =>
    obtain rfl := Option.some.inj hr
    exact ⟨ok_fetch (c := .tryAcquire ⟨owned, m.toNat⟩) (show m.toNat < 2 ^ 32 from m.toNat_lt) q, hg⟩
  case addPermits m =>
    obtain rfl := Option.some.inj hr
    exact ⟨⟨trivial, m.toNat_lt⟩, hg⟩
  case forgetPermits m =>
    split at hr <;> obtain rfl := Option.some.inj hr
    · exact ⟨trivial, hg⟩
    · exact ⟨ok_fetch (c := .forget _) m.toNat_lt q, hg⟩
  case close =>
    obtain rfl := Option.some.inj hr
    exact ⟨trivial, hg⟩
  case permitDrop p =>
    obtain ⟨m, hm, rfl⟩ := Option.map_eq_some_iff.1 hr
    exact ⟨⟨trivial, lt_trans (hget hm) (by decide)⟩, herase p⟩
  case permitForget p =>
    obtain ⟨m, hm, rfl⟩ := Option.map_eq_some_iff.1 hr
    exact ⟨trivial, herase p⟩
  case permitSplit p m =>
    obtain ⟨m', hm', rfl⟩ := Option.map_eq_some_iff.1 hr
    have := hget hm'
    split
    · refine ⟨trivial, fun x hx => ?_⟩
      rcases List.mem_append.1 hx with hx | hx
      · rcases List.mem_or_eq_of_mem_set hx with hx | rfl
        · exact hg x hx
        · omega
      · rw [List.mem_singleton.1 hx]
        omega
    · exact ⟨trivial, hg⟩
  case permitMerge p other =>
    split at hr
    · rename_i m m' hm hm'
      split at hr
      · simp at hr
      split at hr <;> obtain rfl := Option.some.inj hr
      · refine ⟨trivial, fun x hx => ?_⟩
        rcases List.mem_or_eq_of_mem_set (List.mem_of_mem_eraseIdx hx) with hx | rfl
        · exact hg x hx
        · assumption
      · exact ⟨⟨trivial, lt_trans (hget hm') (by decide)⟩, herase other⟩
    · simp at hr

theorem ok_next (h : Ranges w) (hr : next willWake w i n = some r) (q : State ℕ (Waiter W)) :
    (r.pc e q).Ok ∧ ∀ m ∈ r.shared.permits, m < 2 ^ 32 := by
  have hi := h.pc i
  unfold next at hr
  cases hp : w.pc i <;> rw [hp] at hi <;> simp only [hp, reduceCtorEq] at hr
  case idle r' => exact ok_start h.permits hr q
  case fut k p => exact ⟨ok_futNext hi.1 hi.2 hr q, permits_futNext hi.1 h.permits hr⟩
  case add o p =>
    obtain ⟨h₁, h₂⟩ := ok_addNext (e := e) hi.1 hi.2 hr q
    exact ⟨h₁, h₂ ▸ h.permits⟩
  case close p =>
    obtain ⟨h₁, h₂⟩ := closeNext_pc (e := e) hr q
    refine ⟨?_, h₂ ▸ h.permits⟩
    rcases h₁ with ⟨p', hp'⟩ | hp' | hp' <;> rw [hp'] <;> trivial

theorem ok_observe {q : State ℕ (Waiter W)} {s : Option ℕ} (h : Ranges w) (hc : Control w)
    (hs : InstrStep i s (w.view i) e v') (hq : (q.upd i).op = v'.upd) :
    (observe w i e q).1.Ok ∧ ∀ m ∈ (observe w i e q).2.permits, m < 2 ^ 32 := by
  have hi := h.pc i
  have hf := hc i
  unfold observe
  split
  · rename_i c hp
    rw [hp] at hi hf
    obtain ⟨m, s', hv⟩ := hf
    rcases World.fetched_cases c.own_runs c.op_runs hv hs hq with ⟨hfe, -⟩ | ⟨r, hfe, -, hr⟩
    · simp only [hfe]
      exact ⟨hi, h.permits⟩
    · simp only [hfe]
      cases hr with
      | ok h₁ h₂ => exact ⟨FetchCont.Ok.ok hi _, FetchCont.Ok.grant hi h.permits⟩
      | refused h₁ =>
        refine ⟨FetchCont.Ok.err hi fun s' hs' => ?_, h.permits⟩
        obtain rfl := Option.some.inj hs'
        exact ⟨m, h₁⟩
      | blocked h₁ h₂ => exact ⟨FetchCont.Ok.err hi (by simp), h.permits⟩
  · rename_i k e' acquired hp
    rw [hp] at hi
    split
    · exact ⟨⟨hi.1, show 0 < 2 ^ 32 by decide⟩, h.permits⟩
    · exact ⟨⟨hi.1, hi.2⟩, h.permits⟩
    · rw [hp]
      exact ⟨hi, h.permits⟩
  · rename_i o p ws hp
    rw [hp] at hi
    split
    · refine ⟨⟨hi.1, ?_⟩, h.permits⟩
      obtain ⟨-, h₁, h₂, h₃⟩ := hi
      split
      · trivial
      split
      · exact ⟨h₁, h₃⟩
      · exact ⟨h₁, lt_of_le_of_ne h₃ ‹_›⟩
    · rw [hp]
      exact ⟨hi, h.permits⟩
  · rename_i hp
    repeat' split
    · exact ⟨trivial, h.permits⟩
    · exact ⟨trivial, h.permits⟩
    · exact ⟨hi, h.permits⟩
  · exact ⟨hi, h.permits⟩

theorem Ranges.step (h : Ranges w) (hc : Control w)
    (hm : (semaphore willWake).Moves cfg a w i n w' e) : Ranges w' := by
  have key : (w'.pc i).Ok ∧ ∀ m ∈ w'.shared.permits, m < 2 ^ 32 := by
    cases hm.mover with
    | op hs hd hv hp hg =>
      rw [hp, hg]
      exact ok_observe h hc hv rfl
    | call hr hk hrest hs hv hp hg =>
      rw [hp, hg]
      exact ok_next h hr _
    | own hr hk hrest hq hv hp hg =>
      rw [hp, hg]
      exact ok_next h hr _
  refine ⟨fun j => ?_, key.2⟩
  by_cases hj : j = i
  · exact hj ▸ key.1
  · rw [hm.pc_ne hj]
    exact h.pc j

end Aiq.Semaphore
