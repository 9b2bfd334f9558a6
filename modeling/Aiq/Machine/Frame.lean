import Aiq.Machine.Run

/-!
# What a step can change

Facts about single steps that hold of the code whatever state it is in: which parts of the state a
party can change at all.
-/

namespace Aiq

variable {S T : Type} {cfg : Config} {c c' : State S T} {e : Event S} {d : DrainId}

section Fields

variable (cfg) (c) (r : Removal S) (k : Release) (t : ThreadId) (x : NodeId) (l : Loc)

@[simp] theorem mem_return : (r.return c).mem = c.mem := by
  unfold Removal.return; cases r.caller <;> rfl

@[simp] theorem drains_return : (r.return c).drains = c.drains := by
  unfold Removal.return; cases r.caller <;> rfl

@[simp] theorem mem_release : (k.apply c).mem = c.mem := by cases k <;> rfl

@[simp] theorem drains_release : (k.apply c).drains = c.drains := by cases k <;> rfl

@[simp] theorem mutex_release : (k.apply c).mutex = none := by cases k <;> rfl

@[simp] theorem mem_linkStep :
    (linkStep cfg c x l).mem = c.mem.setLink l (.to (.node x)) := by
  unfold linkStep; cases cfg.variant <;> rfl

@[simp] theorem drains_linkStep : (linkStep cfg c x l).drains = c.drains := by
  unfold linkStep; cases cfg.variant <;> rfl

@[simp] theorem mutex_linkStep : (linkStep cfg c x l).mutex = c.mutex := by
  unfold linkStep; cases cfg.variant <;> rfl

@[simp] theorem upd_linkStep : (linkStep cfg c x l).upd = c.upd := by
  unfold linkStep; cases cfg.variant <;> rfl

end Fields

/-! ## The `Drain`s -/

theorem ownerStep_drains [DecidableEq S] {x : NodeId} {weak : Bool}
    (hs : ownerStep cfg c x weak = some (c', e)) : c'.drains = c.drains := by
  unfold ownerStep at hs
  repeat' split at hs
  all_goals first | (obtain ⟨rfl, rfl⟩ := hs; simp) | simp at hs

theorem ownerCall_drains {x : NodeId} {k : OwnerCall S T} (hs : ownerCall c x k = some (c', e)) :
    c'.drains = c.drains := by
  unfold ownerCall at hs
  repeat' split at hs
  all_goals first | (obtain ⟨rfl, rfl⟩ := hs; simp) | simp at hs

theorem Attempt.drains_err (k : Attempt) (c : State S T) (t : ThreadId) (f : UpdateFn S) (i : ℕ) :
    (k.err c t f i).1.drains = c.drains := by
  cases k <;> rfl

theorem Attempt.drains_test (k : Attempt) (c : State S T) (t : ThreadId) (f : UpdateFn S) (i : ℕ) :
    (k.test c t f i).1.drains = c.drains := by
  unfold Attempt.test
  split
  · rfl
  · exact k.drains_err c t f i

theorem threadStep_drains [DecidableEq S] {t : ThreadId} {weak : Bool}
    (hs : threadStep c t weak = some (c', e)) : c'.drains = c.drains := by
  unfold threadStep at hs
  split at hs
  · rename_i f i k s hu
    split at hs
    · obtain ⟨rfl, rfl⟩ := Prod.mk.inj (Option.some.inj hs)
      exact k.drains_err c t f _
    · split at hs
      · obtain ⟨rfl, rfl⟩ := hs
        cases k <;> rfl
      · obtain ⟨rfl, rfl⟩ := Prod.mk.inj (Option.some.inj hs)
        exact k.drains_test c t f _
  · split at hs <;> first | (obtain ⟨rfl, rfl⟩ := hs; rfl) | simp at hs
  · obtain ⟨rfl, rfl⟩ := Prod.mk.inj (Option.some.inj hs)
    exact Attempt.drains_test ..
  · split at hs <;> first | (obtain ⟨rfl, rfl⟩ := hs; rfl) | simp at hs
  · split at hs <;> (obtain ⟨rfl, rfl⟩ := hs; rfl)
  · simp at hs
  · simp at hs

theorem threadCall_drains [DecidableEq S] {t : ThreadId} {k : ThreadCall S}
    (hs : threadCall c t k = some (c', e)) : c'.drains = c.drains := by
  unfold threadCall at hs
  repeat' split at hs
  all_goals first
    | (obtain ⟨rfl, rfl⟩ := Prod.mk.inj (Option.some.inj hs)
       first | rfl | exact Attempt.drains_test ..)
    | simp at hs

theorem drains_setDrain_apply (d : DrainId) (c : State S T) (d' : DrainId) (q : DrainPc) :
    (c.setDrain d' q).drains d = if d = d' then q else c.drains d := by
  simp [Function.update_apply]

/-- Under the lock a `Drain` is created, gives the lock away or is dropped. -/
theorem holderStep_drains [DecidableEq S] [QueueState S] {p : HolderPc S}
    (hs : holderStep cfg c p = some (c', e)) (d : DrainId) :
    c'.drains d = c.drains d ∨ c'.drains d = .held ∨ (∃ l, c'.drains d = .running l) ∨
      c'.drains d = .gone := by
  have hd := drains_setDrain_apply (S := S) (T := T) d
  unfold holderStep getStep at hs
  grind [State.drains_hold, State.drains_withMem, State.drains_free, drains_return, drains_release]

theorem holderCall_drains [QueueState S] {p : HolderPc S} {k : HolderCall S T}
    (hs : holderCall c p k = some (c', e)) (d : DrainId) :
    c'.drains d = c.drains d ∨ c'.drains d = .held := by
  have hd := drains_setDrain_apply (S := S) (T := T) d
  unfold holderCall guardCall drainLockedCall at hs
  grind [State.drains_hold, State.drains_withMem, State.drains_free, State.drains_setOwn]

/-- A `Drain` loses its lock for good only if the closure of `execute_unlocked` unwinds. -/
theorem step_loose [DecidableEq S] [QueueState S] {t : Transition S T} {l : Bool} (ht : t.Calm)
    (hs : step cfg t.src t.act = some (t.dst, t.event)) (hd : t.dst.drains d = .loose l) :
    t.src.drains d = .loose l := by
  obtain ⟨c, k, e, c'⟩ := t
  cases k <;> simp only [step] at hs
  case lock =>
    split at hs
    · obtain ⟨rfl, rfl⟩ := hs
      exact hd
    · simp at hs
  case holder =>
    split at hs
    · simp at hs
    · rcases holderStep_drains hs d with h | h | ⟨l', h⟩ | h
      · exact h.symm.trans hd
      all_goals cases h.symm.trans hd
  case holderCall k =>
    split at hs
    · simp at hs
    · rcases holderCall_drains hs d with h | h
      · exact h.symm.trans hd
      · cases h.symm.trans hd
  case owner x weak => rwa [ownerStep_drains hs] at hd
  case ownerCall x k => rwa [ownerCall_drains hs] at hd
  case thread t weak => rwa [threadStep_drains hs] at hd
  case threadCall t k => rwa [threadCall_drains hs] at hd
  case drain d' k =>
    have hk : k ≠ .unwind := by
      rintro rfl
      exact ht
    have key := drains_setDrain_apply (S := S) (T := T) d
    unfold drainStep at hs
    grind [State.drains_hold]

/-! ## The mutex -/

/-- The control states in which the mutex has just been locked, or in which an `*_or_lock` call
leaves it. -/
def HolderPc.isEntry : HolderPc S → Bool
  | .guard | .recheck _ | .dropRecheck _ | .exCheck _ | .dropLoop _ | .upd _
  | .release (.thread _) => true
  | _ => false

/-- The thread is in the second half of an `*_or_lock` call. -/
def UpdPc.underLock : UpdPc S → Bool
  | .secondLoad _ _ | .attempt _ _ .second _ | .emptyLoad => true
  | _ => false

/-- The step is one of the holder. -/
def Act.isHolder : Act S T → Bool
  | .holder | .holderCall _ => true
  | _ => false

/-- The steps of the holder. -/
theorem step_holder [DecidableEq S] [QueueState S] {k : Act S T} (hk : k.isHolder = true)
    (hs : step cfg c k = some (c', e)) :
    ∃ p, c.mutex = some p ∧ (k = .holder ∧ holderStep cfg c p = some (c', e) ∨
      ∃ q, k = .holderCall q ∧ holderCall c p q = some (c', e)) := by
  cases k <;> simp only [Act.isHolder, reduceCtorEq] at hk <;> simp only [step] at hs
  case holder =>
    cases hp : c.mutex <;> simp only [hp, reduceCtorEq] at hs
    exact ⟨_, rfl, .inl ⟨rfl, hs⟩⟩
  case holderCall q =>
    cases hp : c.mutex <;> simp only [hp, reduceCtorEq] at hs
    exact ⟨_, rfl, .inr ⟨q, rfl, hs⟩⟩

/-- The others lock the mutex, or end an `*_or_lock` call under it. -/
theorem step_mutex [DecidableEq S] [QueueState S] {k : Act S T} (hk : k.isHolder = false)
    (hs : step cfg c k = some (c', e)) :
    c'.mutex = c.mutex ∨ (c.mutex = none ∨ ∃ t, (c.upd t).underLock = true) ∧
      ∃ p, c'.mutex = some p ∧ p.isEntry = true := by
  cases k <;> simp only [step] at hs
  case lock => grind [HolderPc.isEntry, State.mutex_hold]
  case holder => simp [Act.isHolder] at hk
  case holderCall => simp [Act.isHolder] at hk
  case owner x weak =>
    unfold ownerStep at hs
    grind [HolderPc.isEntry, State.mutex_hold, State.mutex_setOwn, State.mutex_withMem,
      mutex_linkStep]
  case ownerCall x k =>
    unfold ownerCall at hs
    grind [State.mutex_setOwn, State.mutex_withMem]
  case thread t weak =>
    unfold threadStep Attempt.test Attempt.err Attempt.ok at hs
    repeat' split at hs
    all_goals grind [HolderPc.isEntry, State.mutex_hold, State.mutex_setUpd, State.mutex_withMem,
      UpdPc.underLock]
  case threadCall t k =>
    unfold threadCall Attempt.test Attempt.err at hs
    grind [State.mutex_setUpd, State.mutex_withMem]
  case drain d k =>
    unfold drainStep at hs
    grind [HolderPc.isEntry, State.mutex_hold, State.mutex_setDrain]

end Aiq
