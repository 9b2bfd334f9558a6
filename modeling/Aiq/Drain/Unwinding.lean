import Aiq.Memory
import Mathlib.Data.List.Induction

/-!
# A `Drain` after an unwinding

`Drain::locked` is an `Option`: `execute_unlocked` takes the lock out of it and puts a new one in when
its closure has returned. A closure that panics leaves it `None`, and a caller who catches the panic
still has the `Drain`. `next` and the drop of the `Drain` look at `locked` before they use it,
`execute_unlocked` and the drop of a `NodeDrained` do not. This module is about sequences of calls on
one `Drain` (`queue/drain.rs`), with the closure and the other threads free to change the memory as they
like; `drain_lock_held_iff` says for which sequences the lock is always there.
-/

namespace Aiq

variable {S T : Type}

/-- What a `Drain` needs its lock for: an unchecked unwrap of `locked`, or a write to a link of a node
that it has drained, or of its sentinel. -/
inductive DrainAccess
  | unwrapLocked
  | prev (a : Addr)
  | next (a : Addr)
  deriving DecidableEq

/-- An access, and whether `locked` was `Some` then. -/
structure DrainUse where
  access : DrainAccess
  locked : Bool
  deriving DecidableEq

/-- A `Drain` with the memory of its queue, and what it has done so far. -/
structure DrainObject (S T : Type) where
  mem : Mem S T
  locked : Bool
  uses : List DrainUse

/-- `Drain::new`, which is given the lock. -/
def DrainObject.new (m : Mem S T) : DrainObject S T := ⟨m, true, []⟩

/-- A call on a `Drain`. `wait` and `env` are what the other threads do to the memory while the call
waits for the link of a node, and while the lock is released. -/
inductive DrainObjectCall (S T : Type)
  /-- `next`, and the drop of the node. -/
  | next (wait : Mem S T → Mem S T)
  /-- `next`, and `mem::forget` of the node. -/
  | nextForget
  | isEmpty
  /-- `execute_unlocked`; the caller catches the panic of the closure. -/
  | executeUnlocked (env : Mem S T → Mem S T) (panics : Bool)
  /-- Nothing is called, the other threads go on. -/
  | others (env : Mem S T → Mem S T)

namespace DrainObject

variable (d : DrainId) (o : DrainObject S T)

/-- The sentinel node. -/
def sentinel : Addr := .sentinel d

/-- Record an access. -/
def use (a : DrainAccess) : DrainObject S T := { o with uses := o.uses ++ [⟨a, o.locked⟩] }

/-- Store the `prev` of a link. -/
def setPrev (a : Addr) (v : Ptr) : DrainObject S T :=
  { o with mem := o.mem.setPrev a v }.use (.prev a)

/-- Store the `next` of a link. -/
def setNext (a : Addr) (v : Ptr) : DrainObject S T :=
  { o with mem := o.mem.setLink (.next a) v }.use (.next a)

/-- Let the other threads change the memory. -/
def interfere (env : Mem S T → Mem S T) : DrainObject S T := { o with mem := env o.mem }

/-- `Drain::head`. -/
def head : Option Addr :=
  match o.mem.link (.next (sentinel d)) with
  | .to a => some a
  | _ => none

/-- `NodeDrained::drop`. -/
def dropNode (a : Addr) (wait : Mem S T → Mem S T) : DrainObject S T :=
  if o.mem.prev (sentinel d) = .to a then
    (o.setNext (sentinel d) .null).setPrev a RawNodeState.dequeued.intoPtr
  else
    let o := (o.use .unwrapLocked).interfere wait
    (o.setNext (sentinel d) (o.mem.link (.next a))).setPrev a RawNodeState.dequeued.intoPtr

/-- The first half of `execute_unlocked`: the list is made circular through the sentinel. -/
def close : DrainObject S T :=
  match o.head d with
  | none => o
  | some a =>
    let o := o.setPrev a (.to (sentinel d))
    match o.mem.prev (sentinel d) with
    | .to b => o.setNext b (.to (sentinel d))
    | _ => o

/-- `execute_unlocked`, after the closure has returned and the mutex is locked again. -/
def reopen : DrainObject S T :=
  if o.head d = some (sentinel d) then o.setNext (sentinel d) .null else o

/-- `execute_unlocked`. -/
def executeUnlocked (env : Mem S T → Mem S T) (panics : Bool) : DrainObject S T :=
  let o := { (o.close d).use .unwrapLocked with locked := false }.interfere env
  if panics then o else { o with locked := true }.reopen d

/-- A call. `next` unwraps `locked` first, and panics when it is `None`. -/
def call : DrainObjectCall S T → DrainObject S T
  | .next wait =>
    if o.locked then
      match o.head d with
      | none => o
      | some a => o.dropNode d a wait
    else o
  | .nextForget | .isEmpty => o
  | .executeUnlocked env panics => o.executeUnlocked d env panics
  | .others env => o.interfere env

/-- A sequence of calls. -/
def calls (l : List (DrainObjectCall S T)) : DrainObject S T := l.foldl (call d) o

/-- The loop of `Drain::drain`, with what the other threads do in its rounds. -/
def drain : List (Mem S T → Mem S T) → DrainObject S T → DrainObject S T
  | [], o => o
  | wait :: waits, o =>
    match o.head d with
    | none => o
    | some a => drain waits (o.dropNode d a wait)

/-- The drop of the `Drain`. -/
def drop (waits : List (Mem S T → Mem S T)) : DrainObject S T :=
  if o.mem.link (.next (sentinel d)) = .null then o
  else drain d waits { o with locked := true }

end DrainObject

/-- A call of `execute_unlocked` follows one whose closure has panicked. -/
def ReusesUnlocked (l : List (DrainObjectCall S T)) : Prop :=
  ∃ l₁ l₂ l₃ env env' b, l = l₁ ++ .executeUnlocked env true :: l₂ ++ .executeUnlocked env' b :: l₃

/-! ## What the calls add to the record -/

namespace DrainObject

variable {d : DrainId} {o : DrainObject S T}

/-- The lock was held whenever it was needed. -/
def Sound (o : DrainObject S T) : Prop := ∀ u ∈ o.uses, u.locked = true

@[simp] theorem locked_use (a : DrainAccess) : (o.use a).locked = o.locked := rfl
@[simp] theorem locked_setPrev (a : Addr) (v : Ptr) : (o.setPrev a v).locked = o.locked := rfl
@[simp] theorem locked_setNext (a : Addr) (v : Ptr) : (o.setNext a v).locked = o.locked := rfl
@[simp] theorem locked_interfere (env : Mem S T → Mem S T) : (o.interfere env).locked = o.locked := rfl
@[simp] theorem uses_use (a : DrainAccess) : (o.use a).uses = o.uses ++ [⟨a, o.locked⟩] := rfl
@[simp] theorem uses_interfere (env : Mem S T → Mem S T) : (o.interfere env).uses = o.uses := rfl

theorem sound_use {a : DrainAccess} : (o.use a).Sound ↔ o.Sound ∧ o.locked = true := by
  simp [Sound, or_imp, forall_and]

theorem Sound.setPrev (h : o.Sound) (hl : o.locked = true) (a : Addr) (v : Ptr) :
    (o.setPrev a v).Sound := sound_use.2 ⟨h, hl⟩

theorem Sound.setNext (h : o.Sound) (hl : o.locked = true) (a : Addr) (v : Ptr) :
    (o.setNext a v).Sound := sound_use.2 ⟨h, hl⟩

@[simp] theorem locked_dropNode (a : Addr) (wait : Mem S T → Mem S T) :
    (o.dropNode d a wait).locked = o.locked := by
  unfold dropNode
  split <;> rfl

theorem Sound.dropNode (h : o.Sound) (hl : o.locked = true) (a : Addr) (wait : Mem S T → Mem S T) :
    (o.dropNode d a wait).Sound := by
  unfold DrainObject.dropNode
  split
  · exact (h.setNext hl _ _).setPrev hl _ _
  · have h' : ((o.use .unwrapLocked).interfere wait).Sound := sound_use.2 ⟨h, hl⟩
    exact (h'.setNext hl _ _).setPrev hl _ _

@[simp] theorem locked_close : (o.close d).locked = o.locked := by
  unfold close
  split
  · rfl
  · dsimp only
    split <;> rfl

theorem Sound.close (h : o.Sound) (hl : o.locked = true) : (o.close d).Sound := by
  unfold DrainObject.close
  split
  · exact h
  · dsimp only
    split
    · exact (h.setPrev hl _ _).setNext hl _ _
    · exact h.setPrev hl _ _

@[simp] theorem locked_reopen : (o.reopen d).locked = o.locked := by
  unfold reopen
  split <;> rfl

theorem Sound.reopen (h : o.Sound) (hl : o.locked = true) : (o.reopen d).Sound := by
  unfold DrainObject.reopen
  split
  · exact h.setNext hl _ _
  · exact h

theorem locked_executeUnlocked (env : Mem S T → Mem S T) (panics : Bool) :
    (o.executeUnlocked d env panics).locked = !panics := by
  cases panics <;> simp [executeUnlocked]

theorem Sound.executeUnlocked (h : o.Sound) (hl : o.locked = true) (env : Mem S T → Mem S T)
    (panics : Bool) : (o.executeUnlocked d env panics).Sound := by
  have hc : ((o.close d).use .unwrapLocked).Sound := sound_use.2 ⟨h.close hl, by simpa using hl⟩
  cases panics
  · exact Sound.reopen (o := { (o.close d).use .unwrapLocked with
      mem := env (o.close d).mem, locked := true }) hc rfl
  · exact hc

theorem Sound.drain (h : o.Sound) (hl : o.locked = true) (waits : List (Mem S T → Mem S T)) :
    (DrainObject.drain d waits o).Sound := by
  induction waits generalizing o with
  | nil => exact h
  | cons wait waits ih =>
    unfold DrainObject.drain
    split
    · exact h
    · exact ih (h.dropNode hl _ _) (by simpa using hl)

/-! ## The record only grows -/

theorem Sound.of_dropNode {a : Addr} {wait : Mem S T → Mem S T} (h : (o.dropNode d a wait).Sound) :
    o.Sound := by
  unfold DrainObject.dropNode at h
  split at h
  · exact (sound_use.1 (sound_use.1 h).1).1
  · exact (sound_use.1 (sound_use.1 (sound_use.1 h).1).1).1

theorem Sound.of_close (h : (o.close d).Sound) : o.Sound := by
  unfold DrainObject.close at h
  split at h
  · exact h
  · dsimp only at h
    split at h
    · exact (sound_use.1 (sound_use.1 h).1).1
    · exact (sound_use.1 h).1

theorem Sound.of_reopen (h : (o.reopen d).Sound) : o.Sound := by
  unfold DrainObject.reopen at h
  split at h
  · exact (sound_use.1 h).1
  · exact h

/-- `execute_unlocked` needs the lock. -/
theorem Sound.of_executeUnlocked {env : Mem S T → Mem S T} {panics : Bool}
    (h : (o.executeUnlocked d env panics).Sound) : o.Sound ∧ o.locked = true := by
  have hc : ((o.close d).use .unwrapLocked).Sound := by
    cases panics
    · exact h.of_reopen
    · exact h
  obtain ⟨hs, hl⟩ := sound_use.1 hc
  exact ⟨hs.of_close, by simpa using hl⟩

theorem Sound.of_call {c : DrainObjectCall S T} (h : (o.call d c).Sound) : o.Sound := by
  cases c with
  | next wait =>
    simp only [call] at h
    split at h
    · split at h
      · exact h
      · exact h.of_dropNode
    · exact h
  | nextForget => exact h
  | isEmpty => exact h
  | executeUnlocked env panics => exact h.of_executeUnlocked.1
  | others env => exact h

theorem Sound.of_drain {waits : List (Mem S T → Mem S T)} (h : (DrainObject.drain d waits o).Sound) :
    o.Sound := by
  induction waits generalizing o with
  | nil => exact h
  | cons wait waits ih =>
    unfold DrainObject.drain at h
    split at h
    · exact h
    · exact (ih h).of_dropNode

/-- The drop of the `Drain` has the lock when it needs it. -/
theorem sound_drop {waits : List (Mem S T → Mem S T)} : (o.drop d waits).Sound ↔ o.Sound := by
  unfold drop
  split
  · rfl
  · exact ⟨fun h => h.of_drain (o := { o with locked := true }),
      fun h => Sound.drain (o := { o with locked := true }) h rfl waits⟩

/-! ## Sequences of calls -/

/-- The closure of a call of `execute_unlocked` has panicked. -/
def Unwound (l : List (DrainObjectCall S T)) : Prop := ∃ env, .executeUnlocked env true ∈ l

theorem reusesUnlocked_snoc {l : List (DrainObjectCall S T)} {c : DrainObjectCall S T} :
    ReusesUnlocked (l ++ [c]) ↔
      ReusesUnlocked l ∨ Unwound l ∧ ∃ env b, c = .executeUnlocked env b := by
  constructor
  · rintro ⟨l₁, l₂, l₃, env, env', b, h⟩
    rcases List.eq_nil_or_concat l₃ with rfl | ⟨l₃, z, rfl⟩
    · obtain ⟨rfl, hc⟩ := List.append_inj' h rfl
      obtain rfl := List.singleton_inj.1 hc
      exact .inr ⟨⟨env, by simp⟩, env', b, rfl⟩
    · rw [List.concat_eq_append, ← List.cons_append, ← List.append_assoc] at h
      obtain ⟨rfl, -⟩ := List.append_inj' h rfl
      exact .inl ⟨l₁, l₂, l₃, env, env', b, rfl⟩
  · rintro (⟨l₁, l₂, l₃, env, env', b, rfl⟩ | ⟨⟨env, hm⟩, env', b, rfl⟩)
    · exact ⟨l₁, l₂, l₃ ++ [c], env, env', b, by simp⟩
    · obtain ⟨l₁, l₂, rfl⟩ := List.append_of_mem hm
      exact ⟨l₁, l₂, [], env, env', b, by simp⟩

/-- One more call, while `locked` is `None` just after an unwinding. -/
theorem call_ok {l : List (DrainObjectCall S T)} {c : DrainObjectCall S T} (h : o.Sound)
    (hl : o.locked = true ↔ ¬ Unwound l) (hc : ¬ (Unwound l ∧ ∃ env b, c = .executeUnlocked env b)) :
    (o.call d c).Sound ∧ ((o.call d c).locked = true ↔ ¬ Unwound (l ++ [c])) := by
  have hsnoc : (∀ env, c ≠ .executeUnlocked env true) → (Unwound (l ++ [c]) ↔ Unwound l) := fun hne => by
    have hne' : ∀ env, ¬ .executeUnlocked env true = c := fun env he => hne env he.symm
    simp [Unwound, hne']
  cases c with
  | next wait =>
    rw [hsnoc (by simp), ← hl]
    simp only [call]
    split
    · rename_i hlocked
      split
      · exact ⟨h, Iff.rfl⟩
      · exact ⟨h.dropNode hlocked _ _, by simp⟩
    · exact ⟨h, Iff.rfl⟩
  | nextForget => exact ⟨h, by rw [hsnoc (by simp)]; exact hl⟩
  | isEmpty => exact ⟨h, by rw [hsnoc (by simp)]; exact hl⟩
  | others env => exact ⟨h, by rw [hsnoc (by simp)]; exact hl⟩
  | executeUnlocked env panics =>
    have hu : ¬ Unwound l := fun hu => hc ⟨hu, env, panics, rfl⟩
    refine ⟨h.executeUnlocked (hl.2 hu) env panics, ?_⟩
    rw [call, locked_executeUnlocked]
    cases panics
    · rw [hsnoc (by simp)]
      simpa using hu
    · simp only [Bool.not_true, Bool.false_eq_true, false_iff, not_not]
      exact ⟨env, by simp⟩

theorem calls_snoc {l : List (DrainObjectCall S T)} {c : DrainObjectCall S T} :
    o.calls d (l ++ [c]) = (o.calls d l).call d c := by
  simp [calls]

theorem calls_ok (m : Mem S T) (l : List (DrainObjectCall S T)) (h : ¬ ReusesUnlocked l) :
    ((new m).calls d l).Sound ∧ (((new m).calls d l).locked = true ↔ ¬ Unwound l) := by
  induction l using List.reverseRecOn with
  | nil => exact ⟨by simp [calls, new, Sound], by simp [calls, new, Unwound]⟩
  | append_singleton l c ih =>
    rw [reusesUnlocked_snoc, not_or] at h
    obtain ⟨hs, hl⟩ := ih h.1
    rw [calls_snoc]
    exact call_ok hs hl h.2

theorem not_sound_of_reuses (m : Mem S T) (l : List (DrainObjectCall S T)) (h : ReusesUnlocked l) :
    ¬ ((new m).calls d l).Sound := by
  induction l using List.reverseRecOn with
  | nil =>
    obtain ⟨l₁, l₂, l₃, env, env', b, h⟩ := h
    simp at h
  | append_singleton l c ih =>
    rw [calls_snoc]
    intro hs
    by_cases hr : ReusesUnlocked l
    · exact ih hr hs.of_call
    · obtain ⟨hu, env, b, rfl⟩ := (reusesUnlocked_snoc.1 h).resolve_left hr
      exact (calls_ok m l hr).2.1 hs.of_executeUnlocked.2 hu

end DrainObject

/-- **The lock of a `Drain`.** Whatever is called on a `Drain` before it is dropped, and whatever the
other threads do, `locked` is `Some` at every unchecked unwrap and the drained links are written under
the lock, if and only if `execute_unlocked` is not called again after its closure has panicked. -/
theorem drain_lock_held_iff (d : DrainId) (m : Mem S T) (l : List (DrainObjectCall S T)) :
    (∀ waits, (((DrainObject.new m).calls d l).drop d waits).Sound) ↔ ¬ ReusesUnlocked l := by
  simp only [DrainObject.sound_drop, forall_const]
  exact ⟨fun h hr => DrainObject.not_sound_of_reuses m l hr h, fun h => (DrainObject.calls_ok m l h).1⟩

/-- The closure of `execute_unlocked` panics, and `execute_unlocked` is called again. -/
def reuseCalls : List (DrainObjectCall Unit Unit) :=
  [.executeUnlocked id true, .executeUnlocked id false]

/-- `execute_unlocked` unwraps `locked` when it is `None`. -/
theorem drain_lock_not_held :
    ¬ ∀ (m : Mem Unit Unit) (l : List (DrainObjectCall Unit Unit)) waits,
      (((DrainObject.new m).calls 0 l).drop 0 waits).Sound := by
  intro h
  have h₀ := h ⟨.state (), fun _ => .null, fun _ => .null, none, false, fun _ => ()⟩ reuseCalls []
  exact absurd (h₀ ⟨.unwrapLocked, false⟩ (by decide)) (by decide)

end Aiq
