import Aiq.Task.Hand
import Aiq.Task.Tail

/-!
# Nodes that have been enqueued

A node is `Entered` from the step that enqueues it until its owner makes it new: it is in a list, or it has
been removed from one.
-/

namespace Aiq

variable {S T P G I : Type} {cfg : Config} {a : Abs S} {e : Event S} {w w' : World S T P G} {i : TaskId}
  {x : NodeId} {n : I}

/-- The node is in a list, or has been removed from one. -/
def Entered (c : State S T) (a : Abs S) (x : NodeId) : Prop := a.Member x ∨ Marked c x

theorem World.Ok.not_entered (h : w.Ok cfg a) (hx : (w.view x).own = .unqueued) :
    ¬ Entered w.q a x := fun he =>
  he.elim (h.not_member (by rw [hx]; rfl)) (h.not_marked hx)

/-- A node in hand has been enqueued. -/
theorem World.Ok.entered_of_target (h : w.Ok cfg a)
    (hx : (w.view i).op.bind HolderOp.target = some x) : Entered w.q a x := by
  obtain ⟨o, hop, hx⟩ := Option.bind_eq_some_iff.1 hx
  exact (h.inv.member_of_target (x := x) (by rw [(World.op_of_view hop).2]; exact hx)).imp_right .inl

/-- Where the node in hand comes from. -/
theorem InstrStep.target_inv [QueueState S] {s : Option S} {v v' : View S} (h : InstrStep i s v e v')
    (hx : v'.op.bind HolderOp.target = some x) :
    v.op.bind HolderOp.target = some x ∨ v.op = some .dequeuing := by
  cases h
  case holder h =>
    cases h <;> first | exact .inl hx | exact .inr rfl | simp [HolderOp.target] at hx
  all_goals exact .inl hx

theorem CallStep.target_inv [QueueState S] {s : Option S} {r : RawNodeState} {k : Call S T}
    {v v' : View S} (h : CallStep i s r k v e v') (hk : k ≠ .holder .pop ∧ k ≠ .holder .next)
    (hx : v'.op.bind HolderOp.target = some x) : v.op.bind HolderOp.target = some x := by
  cases h
  case holder h =>
    cases h
    case dropDrained d b => cases b <;> exact hx
    all_goals
      first
      | exact hx
      | exact absurd rfl hk.1
      | exact absurd rfl hk.2
      | simp [HolderOp.target] at hx
  all_goals exact hx

theorem InstrStep.ne_create [QueueState S] {s : Option S} {v v' : View S} (h : InstrStep i s v e v') :
    e ≠ .create x := by
  rintro rfl
  cases h with
  | holder _ _ _ _ _ h => cases h

section Moves

variable [DecidableEq S] [QueueState S] {C : Client S T P G I}

theorem Client.Moves.not_entered_of_create (hm : C.Moves cfg a w i n w' (.create x)) (hw : w.Ok cfg a) :
    ¬ Entered w'.q (a.apply (.create x)) x := by
  obtain ⟨rfl, hdead⟩ := hm.create_inv
  exact fun he => he.elim (hw.not_member (by rw [hdead]; rfl)) (hm.not_marked_of_create hw)

/-- A node that has been enqueued stays so until its owner makes it new. -/
theorem Client.Moves.entered (hm : C.Moves cfg a w i n w' e) (he : e ≠ .create x ∧ e ≠ .reset x)
    (hx : Entered w.q a x) : Entered w'.q (a.apply e) x := by
  rcases hx with hx | hx
  · by_cases hx' : (a.apply e).Member x
    · exact .inl hx'
    · exact .inr (hm.marked_of_removes (.inl (hm.removes hx hx').1))
  · exact .inr (hm.marked he hx)

/-- Only its own task enqueues a node, or makes it. -/
theorem Client.Moves.ne_own (hm : C.Moves cfg a w i n w' e) (hx : x ≠ i) :
    e ≠ .enqueue x ∧ e ≠ .create x := by
  constructor
  · rintro rfl
    exact hx hm.enqueue_inv.1
  · rintro rfl
    exact hx hm.create_inv.1

theorem Client.Moves.entered_inv (hm : C.Moves cfg a w i n w' e) (hw : w.Ok cfg a) (he : e ≠ .enqueue x)
    (hx : Entered w'.q (a.apply e) x) : Entered w.q a x := by
  rcases hx with hx | hx
  · refine .inl ((hm.member hx).resolve_right ?_)
    rintro ⟨rfl, h, -⟩
    exact he h
  · rcases hm.marked_cases hw hx with h | h
    · exact .inr h
    · exact .inl (Abs.member_of_removes h hm.allows)

theorem Client.Moves.entered_iff (hm : C.Moves cfg a w i n w' e) (hw : w.Ok cfg a) (he : e ≠ .enqueue x)
    (he' : e ≠ .create x ∧ e ≠ .reset x) : Entered w'.q (a.apply e) x ↔ Entered w.q a x :=
  ⟨hm.entered_inv hw he, hm.entered he'⟩

end Moves

end Aiq
