import Aiq.Simulation

/-!
# The queue as an atomic object

Seen from outside, a queue is either empty, with a state, or a non-empty list of distinct nodes
(`Content`). The operations change it in one atomic step each (`Content.Step`), at the tail CAS of
`enqueue`, at the tail CAS or the relinking of a removal, and at the tail swap of `Drain::new`. The
machine is simulated by this object along every execution without unwinding
(`queue_simulated_by_content`), so that no enqueued node is lost, duplicated or reordered.
-/

namespace Aiq

variable {S T : Type}

/-- What a queue holds. -/
inductive Content (S : Type)
  | empty (s : S)
  | nodes (l : List NodeId) (ne : l ≠ []) (nodup : l.Nodup)

namespace Content

/-- The nodes, in the order of their insertion. -/
def toList : Content S → List NodeId
  | .empty _ => []
  | .nodes l _ _ => l

/-- The tail word of the queue. -/
def tail : Content S → StateOrPtr S
  | .empty s => .state s
  | .nodes l ne _ => .ptr (.node (l.getLast ne))

/-- The atomic effect of an event. -/
def Step (q : Content S) (e : Event S) (q' : Content S) : Prop :=
  match e with
  | .enqueue x => x ∉ q.toList ∧ q'.toList = q.toList ++ [x]
  | .dequeue o => q.toList.head? = o ∧ q' = q
  | .pop o => q.toList.getLast? = o ∧ q' = q
  | .requeue x => x ∈ q.toList ∧ q' = q
  | .remove x s =>
    (x ∈ q.toList → q'.toList = q.toList.erase x ∧ (q.toList = [x] → q' = .empty s)) ∧
      (x ∉ q.toList → q' = q)
  | .update _ s s' => q = .empty s ∧ q' = .empty s'
  | .drain _ s => q.toList ≠ [] ∧ q' = .empty s
  | .drainEmpty _ => q.toList = [] ∧ q' = q
  | .guarded _ => q.toList ≠ [] ∧ q' = q
  | _ => q' = q

end Content

/-- The content of the abstract queue. -/
def Abs.content (a : Abs S) (h : a.queue.Nodup) : Content S :=
  if hq : a.queue = [] then .empty a.state else .nodes a.queue hq h

section Content

variable {a : Abs S} (h : a.queue.Nodup)

theorem Abs.content_of_nil (hq : a.queue = []) : a.content h = .empty a.state := by
  simp [content, hq]

@[simp] theorem Abs.toList_content : (a.content h).toList = a.queue := by
  unfold content
  split
  · rename_i hq
    rw [hq]
    rfl
  · rfl

/-- A content with nodes is determined by them. -/
theorem Abs.content_congr {a' : Abs S} (h' : a'.queue.Nodup) (hq : a'.queue = a.queue)
    (hs : a.queue = [] → a'.state = a.state) : a'.content h' = a.content h := by
  unfold content
  split
  · rename_i e
    rw [dif_pos (hq.symm.trans e), hs (hq.symm.trans e)]
  · rename_i e
    rw [dif_neg (fun e' => e (hq.trans e'))]
    simp [hq]

/-- The steps of the abstract queue are steps of its content. -/
theorem Abs.content_step {e : Event S} (h' : (a.apply e).queue.Nodup) (ha : a.Allows e) :
    (a.content h).Step e ((a.apply e).content h') := by
  cases e
  case enqueue x => exact ⟨fun hx => ha (.inl (by simpa using hx)), by simp [apply]⟩
  case update t s s' =>
    obtain ⟨hq, rfl⟩ := ha
    exact ⟨content_of_nil h hq, content_of_nil h' hq⟩
  case remove x s =>
    refine ⟨fun hx => ⟨by simp [apply], fun hq => ?_⟩, fun hx => ?_⟩
    · have hq : a.queue = [x] := by simpa using hq
      rw [content_of_nil h' (by simp [apply, hq])]
      simp [apply, hq]
    · have hx : x ∉ a.queue := by simpa using hx
      refine content_congr h h' (List.erase_of_not_mem hx) fun hq => ?_
      simp [apply, hq]
  case drain d s => exact ⟨by rw [toList_content]; exact ha, content_of_nil h' rfl⟩
  case drainEmpty d => exact ⟨by rw [toList_content]; exact ha, content_congr h h' rfl fun _ => rfl⟩
  case drainRemove d x flush => exact content_congr h h' rfl fun _ => rfl
  case dequeue o => exact ⟨by rw [toList_content]; exact ha, rfl⟩
  case pop o => exact ⟨by rw [toList_content]; exact ha, rfl⟩
  case requeue x => exact ⟨by rw [toList_content]; exact ha, rfl⟩
  case guarded t => exact ⟨by rw [toList_content]; exact ha, rfl⟩
  all_goals rfl

end Content

/-! ## The order of the insertions -/

/-- The order of insertions `l` after the event. -/
def Event.insert (e : Event S) (l : List NodeId) : List NodeId :=
  match e with
  | .enqueue x => l.erase x ++ [x]
  | _ => l

/-- The nodes in the order of their latest insertions. -/
def insertionOrder (ts : List (Transition S T)) : List NodeId :=
  ts.foldl (fun l t => t.event.insert l) []

/-- The events that take `x` out of the queue, if it is there. -/
def Event.Takes (e : Event S) (x : NodeId) : Prop :=
  match e with
  | .remove y _ => y = x
  | .drain _ _ => True
  | _ => False

/-- A step of the abstract queue keeps the order of the insertions. -/
theorem Abs.apply_sublist {a : Abs S} {l : List NodeId} {e : Event S} (ha : a.Allows e)
    (hl : a.queue.Sublist l) : (a.apply e).queue.Sublist (e.insert l) := by
  cases e
  case enqueue x =>
    have hx : x ∉ a.queue := fun hx => ha (.inl hx)
    have := hl.erase x
    rw [List.erase_of_not_mem hx] at this
    exact this.append (List.Sublist.refl _)
  case remove x s => exact List.erase_sublist.trans hl
  case drain d s => exact List.nil_sublist _
  all_goals exact hl

/-- An enqueued node stays in the queue until it is taken out. -/
theorem Abs.mem_apply {a : Abs S} {x : NodeId} {e : Event S} (hx : x ∈ a.queue)
    (he : ¬ e.Takes x) : x ∈ (a.apply e).queue := by
  cases e
  case enqueue y => exact List.mem_append_left _ hx
  case remove y s => exact (List.mem_erase_of_ne (Ne.symm he)).2 hx
  case drain d s => exact absurd trivial he
  all_goals exact hx

variable [DecidableEq S] [QueueState S] {cfg : Config} {c : State S T} {s : S} {v : T}
  {ts : List (Transition S T)}

theorem Exec.sublist_insertionOrder (h : Exec cfg (.init s v) ts c) (hc : ∀ t ∈ ts, t.Clean) :
    ((Abs.init s).run ts).queue.Sublist (insertionOrder ts) := by
  refine Exec.induct (P := fun us _ => ((Abs.init s).run us).queue.Sublist (insertionOrder us)) h hc
    (Inv.init cfg s v) (List.nil_sublist _) ?_
  intro us t _ hs hl
  have he : insertionOrder (us ++ [t]) = t.event.insert (insertionOrder us) := by
    simp [insertionOrder]
  rw [he, Abs.run_append]
  exact Abs.apply_sublist hs.allows hl

/-! ## The simulation -/

theorem Exec.content (h : Exec cfg (.init s v) ts c) (hc : ∀ t ∈ ts, t.Clean) :
    ∃ hn : ((Abs.init s).run ts).queue.Nodup,
      Lts.Run (fun q (t : Transition S T) q' => Content.Step q t.event q') (.empty s) ts
        (((Abs.init s).run ts).content hn) := by
  refine Exec.induct (P := fun us _ => ∃ hn : ((Abs.init s).run us).queue.Nodup,
    Lts.Run (fun q (t : Transition S T) q' => Content.Step q t.event q') (.empty s) us
      (((Abs.init s).run us).content hn)) h hc (Inv.init cfg s v) ⟨List.nodup_nil, .nil⟩ ?_
  rintro us t - hs ⟨hn, hrun⟩
  have hn' : (((Abs.init s).run us).apply t.event).queue.Nodup :=
    (hs.inv'.shape.nodup .queue).of_map
  have he : (Abs.init s).run (us ++ [t]) = ((Abs.init s).run us).apply t.event := by simp
  refine ⟨he ▸ hn', ?_⟩
  simp only [he]
  exact hrun.snoc (Abs.content_step hn hn' hs.allows)

end Aiq
