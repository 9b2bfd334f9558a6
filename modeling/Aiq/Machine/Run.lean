import Aiq.Lib.Runs
import Aiq.Machine.Step
import Aiq.Spec

/-!
# Executions

An execution of the machine is a run of its steps, in which every step is recorded with the states
before and after it (`Transition`). The claims about it are of two kinds: about executions in which
no closure of the user unwinds (`Transition.Calm`), and about executions with unwinding closures that
do not run into one of the two paths on which unwinding leaves something behind
(`Transition.Clean`).
-/

namespace Aiq

variable {S T : Type}

/-- A step that was made. -/
structure Transition (S T : Type) where
  src : State S T
  act : Act S T
  event : Event S
  dst : State S T

/-- The steps of the machine. -/
def Moves [DecidableEq S] [QueueState S] (cfg : Config) (c : State S T) (t : Transition S T)
    (c' : State S T) : Prop :=
  t.src = c ∧ t.dst = c' ∧ step cfg c t.act = some (c', t.event)

/-- The steps `ts` lead from `c` to `c'`. -/
abbrev Exec [DecidableEq S] [QueueState S] (cfg : Config) (c : State S T)
    (ts : List (Transition S T)) (c' : State S T) : Prop :=
  Lts.Run (Moves cfg) c ts c'

/-- The abstract queue after the steps `ts`. -/
def Abs.run (a : Abs S) (ts : List (Transition S T)) : Abs S :=
  ts.foldl (fun a t => a.apply t.event) a

@[simp] theorem Abs.run_nil (a : Abs S) : a.run ([] : List (Transition S T)) = a := rfl

@[simp] theorem Abs.run_append (a : Abs S) (ts ts' : List (Transition S T)) :
    a.run (ts ++ ts') = (a.run ts).run ts' := by
  simp [Abs.run]

@[simp] theorem Abs.run_cons (a : Abs S) (t : Transition S T) (ts : List (Transition S T)) :
    a.run (t :: ts) = (a.apply t.event).run ts := rfl

/-! ## Unwinding -/

/-- The `match_state` closure is about to unwind. -/
def OwnPc.unwinds : OwnPc S → Bool
  | .check f i t => f i t.state? = .unwind
  | _ => false

/-- The `match_state` closure is about to unwind, at a call after the first: the `prev` word of an
earlier iteration is still stored. -/
def OwnPc.unwindsLate : OwnPc S → Bool
  | .check f i t => 0 < i ∧ f i t.state? = .unwind
  | _ => false

/-- The `prev` of the removal in which the holder has cleared `prev_next` and has not written it
again. -/
def HolderPc.relinking : HolderPc S → Option Ptr
  | .rmCas r | .get _ _ (.relink r) | .rmSetPrev r _ | .rmSetNext r _ => some r.prev
  | _ => none

/-- The `Drain` is about to be dropped on the unwinding path. -/
def DrainPc.isLoose : DrainPc → Bool
  | .loose _ => true
  | _ => false

/-- The `Drain` `d` is about to be dropped on the unwinding path, and its unlocked load sees the null
that a removal of the first drained node has stored and is going to overwrite. -/
def TornDrop (c : State S T) (d : DrainId) : Prop :=
  (c.drains d).isLoose = true ∧ c.mem.link (.next (.sentinel d)) = .null ∧
    c.mutex.bind HolderPc.relinking = some (.to (.sentinel d))

instance (c : State S T) (d : DrainId) : Decidable (TornDrop c d) :=
  inferInstanceAs (Decidable (_ ∧ _ ∧ _))

/-- The step does not run into one of the two paths above. -/
def Transition.Clean (t : Transition S T) : Prop :=
  match t.act with
  | .owner x _ => (t.src.own x).unwindsLate = false
  | .drain d .drop => ¬ TornDrop t.src d
  | _ => True

/-- No closure of the user unwinds in the step. -/
def Transition.Calm (t : Transition S T) : Prop :=
  match t.act with
  | .owner x _ => (t.src.own x).unwinds = false
  | .drain _ .unwind => False
  | _ => True

instance : DecidablePred (Transition.Clean (S := S) (T := T))
  | ⟨c, .owner x _, _, _⟩ => inferInstanceAs (Decidable ((c.own x).unwindsLate = false))
  | ⟨c, .drain d .drop, _, _⟩ => inferInstanceAs (Decidable (¬ TornDrop c d))
  | ⟨_, .drain _ .return, _, _⟩ | ⟨_, .drain _ .unwind, _, _⟩ | ⟨_, .drain _ .lock, _, _⟩
  | ⟨_, .lock, _, _⟩ | ⟨_, .holder, _, _⟩ | ⟨_, .holderCall _, _, _⟩ | ⟨_, .ownerCall _ _, _, _⟩
  | ⟨_, .thread _ _, _, _⟩ | ⟨_, .threadCall _ _, _, _⟩ => isTrue trivial

instance : DecidablePred (Transition.Calm (S := S) (T := T))
  | ⟨c, .owner x _, _, _⟩ => inferInstanceAs (Decidable ((c.own x).unwinds = false))
  | ⟨_, .drain _ .unwind, _, _⟩ => isFalse id
  | ⟨_, .drain _ .return, _, _⟩ | ⟨_, .drain _ .drop, _, _⟩ | ⟨_, .drain _ .lock, _, _⟩
  | ⟨_, .lock, _, _⟩ | ⟨_, .holder, _, _⟩ | ⟨_, .holderCall _, _, _⟩ | ⟨_, .ownerCall _ _, _, _⟩
  | ⟨_, .thread _ _, _, _⟩ | ⟨_, .threadCall _ _, _, _⟩ => isTrue trivial

/-! ## Given schedules -/

section Perform

variable [DecidableEq S] [QueueState S] {cfg : Config}

/-- The steps that the parties `as` make from `c`, one after the other. -/
def perform (cfg : Config) (c : State S T) : List (Act S T) → Option (List (Transition S T))
  | [] => some []
  | a :: as =>
    match step cfg c a with
    | none => none
    | some (c', e) => (perform cfg c' as).map (⟨c, a, e, c'⟩ :: ·)

/-- The state that the steps `ts` from `c` lead to. -/
def State.after (c : State S T) (ts : List (Transition S T)) : State S T :=
  (ts.getLast?.map Transition.dst).getD c

theorem exec_of_perform {c : State S T} {as : List (Act S T)} {ts : List (Transition S T)}
    (h : perform cfg c as = some ts) : Exec cfg c ts (c.after ts) := by
  induction as generalizing c ts with
  | nil =>
    obtain rfl : [] = ts := by simpa [perform] using h
    exact .nil
  | cons a as ih =>
    unfold perform at h
    split at h
    · simp at h
    · rename_i c' e hs
      obtain ⟨ts', hts, rfl⟩ := Option.map_eq_some_iff.1 h
      have hlast : c.after (⟨c, a, e, c'⟩ :: ts') = c'.after ts' := by
        cases ts' <;> simp [State.after, List.getLast?_cons]
      rw [hlast]
      exact Lts.Run.cons ⟨rfl, rfl, hs⟩ (ih hts)

/-- The steps of a schedule in which every party can move. -/
def trace (cfg : Config) (c : State S T) (as : List (Act S T)) : List (Transition S T) :=
  (perform cfg c as).getD []

theorem exec_trace {c : State S T} {as : List (Act S T)} (h : (perform cfg c as).isSome) :
    Exec cfg c (trace cfg c as) (c.after (trace cfg c as)) := by
  obtain ⟨ts, hts⟩ := Option.isSome_iff_exists.1 h
  rw [trace, hts]
  exact exec_of_perform hts

/-- The step of `k` from `c`, which makes the event `e`. -/
def Transition.of (cfg : Config) (c : State S T) (k : Act S T) (e : Event S) : Transition S T :=
  ⟨c, k, e, c.after (trace cfg c [k])⟩

end Perform

/-- The owner of a new node `x` runs `enqueue` up to its tail CAS. -/
def insertActs (x : NodeId) (v : T) : List (Act S T) :=
  [.ownerCall x (.create v), .ownerCall x .state, .ownerCall x (.enqueue .always), .owner x false,
    .owner x false, .owner x false]

end Aiq
