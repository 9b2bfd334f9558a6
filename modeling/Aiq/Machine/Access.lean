import Aiq.Machine.Frame

/-!
# Which nodes a step accesses

`Act.accesses` lists the `NodeLink`s that a step dereferences: those whose `prev` or `next` field, or
whose node's data, it reads or writes. The words of a `NodeLink` that is not in the list stay as they
are (`step_frame`). `Act.ByOwner` tells whether a step belongs to an operation of the node's owner,
who may act under the lock.
-/

namespace Aiq

variable {S T : Type}

/-- The `NodeLink` that the field belongs to. -/
def Loc.addrs : Loc → List Addr
  | .head => []
  | .next a => [a]

/-- The accesses of an instruction of the owner of `x`. -/
def OwnPc.accesses (x : NodeId) : OwnPc S → List Addr
  | .refuse | .store _ _ _ | .resetNext => [.node x]
  | .link p => (prevLoc p).addrs
  | _ => []

/-- The accesses of a call of the owner of `x`. -/
def OwnerCall.accesses (x : NodeId) : OwnerCall S T → List Addr
  | .create _ | .state | .drop | .reset | .withDataMut _ => [.node x]
  | .enqueue _ | .release => []

/-- The accesses of an instruction of `get_next`. -/
def GetPc.accesses (l : Loc) : GetPc → List Addr
  | .load | .spin _ | .cas | .reload => l.addrs
  | .setParked | .park | .clear _ => []

/-- The accesses of an instruction of the holder. -/
def HolderPc.accesses : HolderPc S → List Addr
  | .get l g _ => g.accesses l
  | .rmPrev x _ _ _ | .recheck x | .dropRecheck x => [.node x]
  | .rmNext r | .rmDone r _ => [.node r.node]
  | .rmClear r | .rmSetNext r _ => r.prevNext.addrs
  | .rmSetPrev _ b | .ddDone _ b _ | .exPrev _ b | .exTailStore _ b => [b]
  | .drainSwap d _ _ | .ddPrev d _ _ | .ddSetHead d _ _ _ | .exTail d | .exCheck d | .exSetNull d
  | .dropLoop d => [.sentinel d]
  | _ => []

/-- The accesses of a call of the holder. -/
def HolderPc.callAccesses : HolderPc S → HolderCall S T → List Addr
  | .guard, .drain d _ => [.sentinel d]
  | .dequeue x, .withDataMut _ | .pop x, .withDataMut _ | .queued x, .withDataMut _ => [.node x]
  | .drained _ b, .withDataMut _ => [b]
  | .drain d, _ => [.sentinel d]
  | _, _ => []

/-- The accesses of a step. -/
def Act.accesses (c : State S T) : Act S T → List Addr
  | .holder => (c.mutex.map HolderPc.accesses).getD []
  | .holderCall k => (c.mutex.map fun p => p.callAccesses k).getD []
  | .owner x _ => (c.own x).accesses x
  | .ownerCall x k => k.accesses x
  | .drain d .drop => [.sentinel d]
  | .drain _ _ | .lock | .thread _ _ | .threadCall _ _ => []

/-- The node whose owner the holder is working for. -/
def HolderPc.actor : HolderPc S → Option NodeId
  | .recheck x | .dropRecheck x | .queued x | .release (.state x) | .release (.node x) => some x
  | .rmPrev x _ _ k => if k = .handle then none else some x
  | .get _ _ (.waitEnqueued r) | .get _ _ (.relink r) | .rmNext r | .rmClear r | .rmCas r
  | .rmSetPrev r _ | .rmSetNext r _ | .rmDone r _ => if r.caller = .handle then none else some r.node
  | _ => none

/-- The step belongs to an operation of the owner of `x`. -/
def Act.ByOwner (c : State S T) (x : NodeId) : Act S T → Prop
  | .owner y _ | .ownerCall y _ => y = x
  | .holder | .holderCall _ => c.mutex.bind HolderPc.actor = some x
  | .lock | .thread _ _ | .threadCall _ _ | .drain _ _ => False

/-! ## The words that are not accessed -/

/-- The words of the `NodeLink` `y` are the same in `m` and `m'`. -/
def SameWords (m m' : Mem S T) (y : Addr) : Prop :=
  m'.prev y = m.prev y ∧ m'.link (.next y) = m.link (.next y) ∧
    ∀ x, y = .node x → m'.data x = m.data x

namespace SameWords

variable {m m' : Mem S T} {y : Addr}

theorem refl (m : Mem S T) (y : Addr) : SameWords m m y := ⟨rfl, rfl, fun _ _ => rfl⟩

theorem setTail (t : StateOrPtr S) : SameWords m (m.setTail t) y := ⟨rfl, rfl, fun _ _ => rfl⟩

theorem setParkedNext (o : Option Loc) : SameWords m (m.setParkedNext o) y :=
  ⟨rfl, rfl, fun _ _ => rfl⟩

theorem setToken (b : Bool) : SameWords m (m.setToken b) y := ⟨rfl, rfl, fun _ _ => rfl⟩

theorem setPrev {z : Addr} (p : Ptr) (hy : y ∉ [z]) : SameWords m (m.setPrev z p) y :=
  ⟨by simp [Mem.prev_setPrev, List.mem_singleton.not.1 hy], rfl, fun _ _ => rfl⟩

theorem setLink {l : Loc} (p : Ptr) (hy : y ∉ l.addrs) : SameWords m (m.setLink l p) y := by
  refine ⟨rfl, ?_, fun _ _ => rfl⟩
  have hl : Loc.next y ≠ l := by
    rintro rfl
    simp [Loc.addrs] at hy
  simp [Mem.link_setLink, hl]

theorem setData {x : NodeId} (v : T) (hy : y ∉ [.node x]) : SameWords m (m.setData x v) y := by
  refine ⟨rfl, rfl, ?_⟩
  rintro z rfl
  have hz : z ≠ x := by simpa using hy
  simp [Mem.setData, hz]

theorem newSentinel {d : DrainId} (t h : Ptr) (hy : y ∉ [.sentinel d]) :
    SameWords m (m.newSentinel d t h) y := by
  obtain ⟨h₁, -, h₃⟩ := setPrev (m := m) t hy
  obtain ⟨-, h₂, h₃'⟩ := setLink (m := m.setPrev (.sentinel d) t) (l := .next (.sentinel d)) h hy
  exact ⟨h₁, h₂, fun x hx => (h₃' x hx).trans (h₃ x hx)⟩

theorem trans {m'' : Mem S T} (h : SameWords m m' y) (h' : SameWords m' m'' y) :
    SameWords m m'' y :=
  ⟨h'.1.trans h.1, h'.2.1.trans h.2.1, fun x hx => (h'.2.2 x hx).trans (h.2.2 x hx)⟩

end SameWords

section Frame

variable {cfg : Config} {c c' : State S T} {e : Event S} {x : NodeId} {y : Addr} {t : ThreadId}

theorem ownerStep_frame [DecidableEq S] {weak : Bool} (hs : ownerStep cfg c x weak = some (c', e))
    (hy : y ∉ (c.own x).accesses x) : SameWords c.mem c'.mem y := by
  cases ho : c.own x <;> rw [ho] at hy <;> simp only [ownerStep, ho, reduceCtorEq] at hs
  case check f i s => split at hs <;> obtain ⟨rfl, rfl⟩ := hs <;> exact .refl ..
  case refuse => obtain ⟨rfl, rfl⟩ := hs; exact .setPrev _ hy
  case store f i s => obtain ⟨rfl, rfl⟩ := hs; exact .setPrev _ hy
  case cas f i s =>
    split at hs <;> obtain ⟨rfl, rfl⟩ := hs
    · exact .setTail _
    · exact .refl ..
  case link p =>
    obtain ⟨rfl, rfl⟩ := hs
    rw [mem_linkStep]
    exact .setLink _ hy
  case parkedLoad l => obtain ⟨rfl, rfl⟩ := hs; exact .refl ..
  case unpark => obtain ⟨rfl, rfl⟩ := hs; exact .setToken _
  case resetNext => obtain ⟨rfl, rfl⟩ := hs; exact .setLink _ hy
  case waitState =>
    cases hm : c.mutex <;> simp only [hm, reduceCtorEq] at hs
    obtain ⟨rfl, rfl⟩ := hs
    exact .refl ..
  case waitDrop =>
    cases hm : c.mutex <;> simp only [hm, reduceCtorEq] at hs
    obtain ⟨rfl, rfl⟩ := hs
    exact .refl ..

theorem ownerCall_frame {k : OwnerCall S T} (hs : ownerCall c x k = some (c', e))
    (hy : y ∉ k.accesses x) : SameWords c.mem c'.mem y := by
  cases ho : c.own x <;> cases k <;> simp only [ownerCall, ho, reduceCtorEq] at hs
  case dead.create v =>
    obtain ⟨rfl, rfl⟩ := hs
    exact ((SameWords.setPrev _ hy).trans (.setLink (l := .next (.node x)) _ hy)).trans (.setData _ hy)
  case idle.state => split at hs <;> obtain ⟨rfl, rfl⟩ := hs <;> exact .refl ..
  case idle.drop => split at hs <;> obtain ⟨rfl, rfl⟩ := hs <;> exact .refl ..
  case unqueued.withDataMut g => obtain ⟨rfl, rfl⟩ := hs; exact .setData _ hy
  case dequeued.withDataMut g => obtain ⟨rfl, rfl⟩ := hs; exact .setData _ hy
  case dequeued.reset => obtain ⟨rfl, rfl⟩ := hs; exact .setPrev _ hy
  all_goals obtain ⟨rfl, rfl⟩ := hs; exact .refl ..

theorem getStep_frame {l : Loc} {g : GetPc} {k : GetCont S}
    (hs : getStep cfg c l g k = some (c', e)) (hy : y ∉ g.accesses l) : SameWords c.mem c'.mem y := by
  cases g <;> simp only [getStep] at hs
  case cas =>
    split at hs <;> obtain ⟨rfl, rfl⟩ := hs
    · exact .setLink _ hy
    · exact .refl ..
  case park =>
    split at hs
    · obtain ⟨rfl, rfl⟩ := hs
      exact .refl ..
    · split at hs
      · obtain ⟨rfl, rfl⟩ := hs
        exact .setToken _
      · simp at hs
  case setParked => obtain ⟨rfl, rfl⟩ := hs; exact .setParkedNext _
  case clear v => obtain ⟨rfl, rfl⟩ := hs; exact .setParkedNext _
  case reload =>
    cases hv : cfg.variant <;> simp only [hv] at hs <;> split at hs <;> obtain ⟨rfl, rfl⟩ := hs <;>
      exact .refl ..
  all_goals split at hs <;> obtain ⟨rfl, rfl⟩ := hs <;> exact .refl ..

theorem holderStep_frame [DecidableEq S] [QueueState S] {p : HolderPc S}
    (hs : holderStep cfg c p = some (c', e)) (hy : y ∉ p.accesses) : SameWords c.mem c'.mem y := by
  cases p <;> simp only [holderStep, reduceCtorEq] at hs
  case get l g k => exact getStep_frame hs hy
  case rmPrev x s w k => split at hs <;> obtain ⟨rfl, rfl⟩ := hs <;> exact .refl ..
  case rmNext r => split at hs <;> obtain ⟨rfl, rfl⟩ := hs <;> exact .refl ..
  case rmClear r => obtain ⟨rfl, rfl⟩ := hs; exact .setLink _ hy
  case rmCas r =>
    split at hs <;> obtain ⟨rfl, rfl⟩ := hs
    · exact .setTail _
    · exact .refl ..
  case rmSetPrev r b => obtain ⟨rfl, rfl⟩ := hs; exact .setPrev _ hy
  case rmSetNext r b => obtain ⟨rfl, rfl⟩ := hs; exact .setLink _ hy
  case rmDone r b =>
    obtain ⟨rfl, rfl⟩ := hs
    rw [mem_return]
    exact .setPrev _ hy
  case recheck x => split at hs <;> obtain ⟨rfl, rfl⟩ := hs <;> exact .refl ..
  case dropRecheck x => split at hs <;> obtain ⟨rfl, rfl⟩ := hs <;> exact .refl ..
  case release k =>
    obtain ⟨rfl, rfl⟩ := hs
    rw [mem_release]
    exact .refl ..
  case drainClear d b s =>
    obtain ⟨rfl, rfl⟩ := hs
    exact .setLink (l := .head) _ (by simp [Loc.addrs])
  case drainSwap d b s =>
    split at hs <;> obtain ⟨rfl, rfl⟩ := hs
    · exact (SameWords.setTail _).trans (.newSentinel _ _ hy)
    · exact .refl ..
  case ddPrev d b flush => split at hs <;> obtain ⟨rfl, rfl⟩ := hs <;> exact .refl ..
  case ddSetHead d b v flush => obtain ⟨rfl, rfl⟩ := hs; exact .setLink (l := .next (.sentinel d)) _ hy
  case ddDone d b flush => obtain ⟨rfl, rfl⟩ := hs; exact .setPrev _ hy
  case exPrev d b => obtain ⟨rfl, rfl⟩ := hs; exact .setPrev _ hy
  case exTail d => split at hs <;> obtain ⟨rfl, rfl⟩ := hs <;> exact .refl ..
  case exTailStore d b => obtain ⟨rfl, rfl⟩ := hs; exact .setLink (l := .next b) _ hy
  case exUnlock d linked => obtain ⟨rfl, rfl⟩ := hs; exact .refl ..
  case exCheck d => obtain ⟨rfl, rfl⟩ := hs; exact .refl ..
  case exSetNull d => obtain ⟨rfl, rfl⟩ := hs; exact .setLink (l := .next (.sentinel d)) _ hy
  case dropLoop d => split at hs <;> obtain ⟨rfl, rfl⟩ := hs <;> exact .refl ..
  case drainFree d => obtain ⟨rfl, rfl⟩ := hs; exact .refl ..

theorem holderCall_frame [QueueState S] {p : HolderPc S} {k : HolderCall S T}
    (hs : holderCall c p k = some (c', e)) (hy : y ∉ p.callAccesses k) : SameWords c.mem c'.mem y := by
  cases p <;> cases k <;>
    simp only [holderCall, guardCall, drainLockedCall, reduceCtorEq] at hs
  case guard.dequeue => split at hs <;> obtain ⟨rfl, rfl⟩ := hs <;> exact .refl ..
  case guard.pop => split at hs <;> obtain ⟨rfl, rfl⟩ := hs <;> exact .refl ..
  case guard.drain d s =>
    split at hs
    · split at hs <;> obtain ⟨rfl, rfl⟩ := hs
      · exact .newSentinel _ _ hy
      · exact .refl ..
    · simp at hs
  case dequeue.withDataMut x g => obtain ⟨rfl, rfl⟩ := hs; exact .setData _ hy
  case pop.withDataMut x g => obtain ⟨rfl, rfl⟩ := hs; exact .setData _ hy
  case queued.withDataMut x g => obtain ⟨rfl, rfl⟩ := hs; exact .setData _ hy
  case drain.next d => split at hs <;> obtain ⟨rfl, rfl⟩ := hs <;> exact .refl ..
  case drain.executeUnlocked d => split at hs <;> obtain ⟨rfl, rfl⟩ := hs <;> exact .refl ..
  case drain.dropDrain d => split at hs <;> obtain ⟨rfl, rfl⟩ := hs <;> exact .refl ..
  case drained.withDataMut d b g =>
    cases b with
    | node x => obtain ⟨rfl, rfl⟩ := hs; exact .setData _ hy
    | sentinel e => simp at hs
  all_goals obtain ⟨rfl, rfl⟩ := hs; exact .refl ..

theorem drainStep_mem {d : DrainId} {k : DrainCall} (hs : drainStep c d k = some (c', e)) :
    c'.mem = c.mem := by
  unfold drainStep at hs
  repeat' split at hs
  all_goals first | (obtain ⟨rfl, rfl⟩ := hs; rfl) | simp at hs

theorem Attempt.mem_err (k : Attempt) (c : State S T) (t : ThreadId) (f : UpdateFn S) (i : ℕ) :
    (k.err c t f i).1.mem = c.mem := by
  cases k <;> rfl

theorem Attempt.mem_test (k : Attempt) (c : State S T) (t : ThreadId) (f : UpdateFn S) (i : ℕ) :
    (k.test c t f i).1.mem = c.mem := by
  unfold Attempt.test
  split
  · rfl
  · exact k.mem_err c t f i

/-- A thread writes the tail only. -/
theorem threadStep_mem [DecidableEq S] {weak : Bool} (hs : threadStep c t weak = some (c', e)) :
    c'.mem = c.mem ∨ ∃ s, c'.mem = c.mem.setTail s := by
  unfold threadStep at hs
  split at hs
  · rename_i f i k s hu
    split at hs
    · obtain ⟨rfl, rfl⟩ := Prod.mk.inj (Option.some.inj hs)
      exact .inl (k.mem_err c t f _)
    · rename_i s' hf
      split at hs
      · obtain ⟨rfl, rfl⟩ := hs
        exact .inr ⟨.state s', by cases k <;> rfl⟩
      · obtain ⟨rfl, rfl⟩ := Prod.mk.inj (Option.some.inj hs)
        exact .inl (k.mem_test c t f _)
  · split at hs <;> first | (obtain ⟨rfl, rfl⟩ := hs; exact .inl rfl) | simp at hs
  · obtain ⟨rfl, rfl⟩ := Prod.mk.inj (Option.some.inj hs)
    exact .inl (Attempt.mem_test ..)
  · split at hs <;> first | (obtain ⟨rfl, rfl⟩ := hs; exact .inl rfl) | simp at hs
  · split at hs <;> (obtain ⟨rfl, rfl⟩ := hs; exact .inl rfl)
  · simp at hs
  · simp at hs

theorem threadCall_mem [DecidableEq S] {k : ThreadCall S} (hs : threadCall c t k = some (c', e)) :
    c'.mem = c.mem ∨ ∃ s, c'.mem = c.mem.setTail s := by
  cases hu : c.upd t <;> cases k <;> simp only [threadCall, hu, reduceCtorEq] at hs
  case compareExchangeState cur new =>
    split at hs <;> obtain ⟨rfl, rfl⟩ := hs
    · exact .inr ⟨_, rfl⟩
    · exact .inl rfl
  case isEmptyOrLock => split at hs <;> obtain ⟨rfl, rfl⟩ := hs <;> exact .inl rfl
  case fetchUpdateStateLocked f => obtain ⟨rfl, rfl⟩ := hs; exact .inl rfl
  all_goals
    obtain ⟨rfl, rfl⟩ := Prod.mk.inj (Option.some.inj hs)
    exact .inl (Attempt.mem_test ..)

/-- A step does not write a `NodeLink` that it does not access. -/
theorem step_frame [DecidableEq S] [QueueState S] {k : Act S T} (hs : step cfg c k = some (c', e))
    (hy : y ∉ k.accesses c) : SameWords c.mem c'.mem y := by
  cases k <;> simp only [step] at hs
  case lock =>
    split at hs
    · obtain ⟨rfl, rfl⟩ := hs
      exact .refl ..
    · simp at hs
  case holder =>
    cases hm : c.mutex <;> simp only [hm, reduceCtorEq] at hs
    exact holderStep_frame hs (by simpa [Act.accesses, hm] using hy)
  case holderCall k =>
    cases hm : c.mutex <;> simp only [hm, reduceCtorEq] at hs
    exact holderCall_frame hs (by simpa [Act.accesses, hm] using hy)
  case owner x weak => exact ownerStep_frame hs hy
  case ownerCall x k => exact ownerCall_frame hs hy
  case thread t weak =>
    rcases threadStep_mem hs with h | ⟨s, h⟩ <;> rw [h]
    · exact .refl ..
    · exact .setTail _
  case threadCall t k =>
    rcases threadCall_mem hs with h | ⟨s, h⟩ <;> rw [h]
    · exact .refl ..
    · exact .setTail _
  case drain d k =>
    rw [drainStep_mem hs]
    exact .refl ..

/-! ## What happens without the lock -/

/-- Without the lock a link is written by an enqueuer, or cleared by the owner of a node that is
being reset or created. -/
theorem step_link [DecidableEq S] [QueueState S] {k : Act S T} (hk : k.isHolder = false)
    (hs : step cfg c k = some (c', e)) (l : Loc) :
    c'.mem.link l = c.mem.link l ∨
      (∃ x w p, k = .owner x w ∧ c.own x = .link p ∧ prevLoc p = l ∧
        c'.mem.link l = .to (.node x)) ∨
      ∃ x, l = .next (.node x) ∧ (c.own x = .resetNext ∨ c.own x = .dead) ∧
        c'.mem.link l = .null := by
  have key := fun (m : Mem S T) l' v => Mem.link_setLink m l' l v
  cases k <;> simp only [step] at hs
  case lock => grind [State.mem_hold]
  case holder => simp [Act.isHolder] at hk
  case holderCall => simp [Act.isHolder] at hk
  case owner x weak =>
    unfold ownerStep at hs
    grind [State.mem_hold, State.mem_setOwn, State.mem_withMem, mem_linkStep, Mem.link_setPrev,
      Mem.link_setTail, Mem.link_setToken]
  case ownerCall x k =>
    unfold ownerCall at hs
    grind [State.mem_setOwn, State.mem_withMem, Mem.link_setPrev, Mem.link_setData]
  case thread t weak =>
    rcases threadStep_mem hs with h | ⟨s, h⟩ <;> rw [h] <;> exact .inl rfl
  case threadCall t k =>
    rcases threadCall_mem hs with h | ⟨s, h⟩ <;> rw [h] <;> exact .inl rfl
  case drain d k => rw [drainStep_mem hs]; exact .inl rfl

theorem own_setOwn_apply (x : NodeId) (c : State S T) (y : NodeId) (o : OwnPc S) :
    (c.setOwn y o).own x = if x = y then o else c.own x := by
  simp [Function.update_apply]

theorem own_setOwn_of_ne (c : State S T) (o : OwnPc S) {y : NodeId} (h : y ≠ x) :
    (c.setOwn x o).own y = c.own y :=
  Function.update_of_ne h _ _

/-- The owner of a node is moved by its own steps, or under the lock. -/
theorem step_own [DecidableEq S] [QueueState S] {k : Act S T} (hk : k.isHolder = false)
    (hs : step cfg c k = some (c', e)) (y : NodeId) :
    c'.own y = c.own y ∨ (∃ w, k = .owner y w) ∨ ∃ q, k = .ownerCall y q := by
  cases k <;> simp only [step] at hs
  case lock => grind [State.own_hold]
  case holder => simp [Act.isHolder] at hk
  case holderCall => simp [Act.isHolder] at hk
  case owner x weak =>
    by_cases hxy : y = x
    · exact .inr (.inl ⟨weak, by rw [hxy]⟩)
    · have key := fun (c : State S T) o => own_setOwn_of_ne c o hxy
      left
      unfold ownerStep linkStep at hs
      grind [State.own_hold, State.own_withMem]
  case ownerCall x k =>
    by_cases hxy : y = x
    · exact .inr (.inr ⟨k, by rw [hxy]⟩)
    · have key := fun (c : State S T) o => own_setOwn_of_ne c o hxy
      left
      unfold ownerCall at hs
      grind [State.own_withMem]
  case thread t weak =>
    unfold threadStep Attempt.test Attempt.err Attempt.ok at hs
    repeat' split at hs
    all_goals grind [State.own_hold, State.own_setUpd, State.own_withMem]
  case threadCall t k =>
    unfold threadCall Attempt.test Attempt.err at hs
    grind [State.own_setUpd, State.own_withMem]
  case drain d k =>
    unfold drainStep at hs
    grind [State.own_hold, State.own_setDrain]

/-- The others do not take the token or change `parked_next`. -/
theorem step_token [DecidableEq S] [QueueState S] {k : Act S T} (hk : k.isHolder = false)
    (hs : step cfg c k = some (c', e)) :
    (c.mem.token = true → c'.mem.token = true) ∧ c'.mem.parkedNext = c.mem.parkedNext := by
  cases k <;> simp only [step] at hs
  case lock => grind [State.mem_hold]
  case holder => simp [Act.isHolder] at hk
  case holderCall => simp [Act.isHolder] at hk
  case owner x weak =>
    unfold ownerStep at hs
    grind [State.mem_hold, State.mem_setOwn, State.mem_withMem, mem_linkStep, Mem.token_setPrev,
      Mem.token_setTail, Mem.token_setToken, Mem.token_setLink, Mem.parkedNext_setPrev,
      Mem.parkedNext_setTail, Mem.parkedNext_setToken, Mem.parkedNext_setLink]
  case ownerCall x k =>
    unfold ownerCall at hs
    grind [State.mem_setOwn, State.mem_withMem, Mem.token_setPrev, Mem.token_setData,
      Mem.token_setLink, Mem.parkedNext_setPrev, Mem.parkedNext_setData, Mem.parkedNext_setLink]
  case thread t weak =>
    rcases threadStep_mem hs with h | ⟨s, h⟩ <;> rw [h] <;> exact ⟨id, rfl⟩
  case threadCall t k =>
    rcases threadCall_mem hs with h | ⟨s, h⟩ <;> rw [h] <;> exact ⟨id, rfl⟩
  case drain d k => rw [drainStep_mem hs]; exact ⟨id, rfl⟩

/-- The events of the holder's operations. -/
def Event.byHolder : Event S → Bool
  | .unlock | .dequeue _ | .pop _ | .requeue _ | .remove _ _ | .removed _ _ | .drain _ _
  | .drainEmpty _ | .next _ _ | .drainRemove _ _ _ | .drained _ _ => true
  | _ => false

/-- The events of the other steps. -/
theorem step_event [DecidableEq S] [QueueState S] {k : Act S T} (hk : k.isHolder = false)
    (hs : step cfg c k = some (c', e)) : e.byHolder = false := by
  cases k <;> simp only [step] at hs
  case lock => grind [Event.byHolder]
  case holder => simp [Act.isHolder] at hk
  case holderCall => simp [Act.isHolder] at hk
  case owner x weak =>
    unfold ownerStep at hs
    grind [Event.byHolder]
  case ownerCall x k =>
    unfold ownerCall at hs
    grind [Event.byHolder]
  case thread t weak =>
    unfold threadStep Attempt.test Attempt.err Attempt.ok at hs
    repeat' split at hs
    all_goals grind [Event.byHolder]
  case threadCall t k =>
    unfold threadCall Attempt.test Attempt.err at hs
    grind [Event.byHolder]
  case drain d k =>
    unfold drainStep at hs
    grind [Event.byHolder]

end Frame

end Aiq
