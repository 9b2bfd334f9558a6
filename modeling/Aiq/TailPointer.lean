import Aiq.TailWord

/-!
# States that are raw pointers

`QueueStatePrivate` for `*mut T`. A raw pointer is not aligned by its type, and the encoder clears the
lowest bit of its address without checking it: the word of a pointer decodes to it just when that bit is
zero (`pointer_encoding_iff`). The pointers that are aligned have an exact encoding (`AlignedPtr`).
-/

namespace Aiq

variable {w : ℕ}

/-! ## Pointers -/

/-- A `*mut T`, with `align_of::<T>() > 1`; it need not be aligned. -/
structure RawPtr (w : ℕ) where
  addr : BitVec w
  deriving DecidableEq

/-- `check_alignment`. -/
def checkAlignment (p : RawPtr w) : BitVec w := p.addr &&& ~~~tailFlag w

/-- The implementation for `*mut T`. -/
instance : TailCode (RawPtr w) w where
  null := ⟨0⟩
  fits _ := True
  tailToEnum t := if t &&& tailFlag w ≠ 0 then .ptr (t &&& ~~~tailFlag w) else .state ⟨t⟩
  enumToTail
    | .state p => some (checkAlignment p)
    | .ptr a => some (a ||| tailFlag w)

/-- Clearing the flag does not change an even word. -/
theorem clear_tailFlag_of_even {a : BitVec w} (ha : a.toNat % 2 = 0) : a &&& ~~~tailFlag w = a := by
  have h₀ : a.getLsbD 0 = false := by
    rw [BitVec.getLsbD, Nat.testBit_zero]
    simp [ha]
  ext i hi
  rcases Nat.eq_zero_or_pos i with rfl | hp
  · simpa [tailFlag, BitVec.getLsbD_eq_getElem hi] using h₀.symm
  · have h₁ : (1#w)[i] = false := by simp [BitVec.getElem_one, hp.ne']
    simp [tailFlag, h₁]

/-- A word whose flag is cleared is even. -/
theorem even_clear_tailFlag (a : BitVec w) : (a &&& ~~~tailFlag w).toNat % 2 = 0 := by
  rw [← and_tailFlag_eq_zero, BitVec.and_assoc, BitVec.and_comm (~~~tailFlag w)]
  simp

theorem checkAlignment_eq_iff {p : RawPtr w} : checkAlignment p = p.addr ↔ p.addr.toNat % 2 = 0 :=
  ⟨fun h => h ▸ even_clear_tailFlag p.addr, clear_tailFlag_of_even⟩

/-- The word of a pointer decodes to the pointer that `check_alignment` makes of it. -/
theorem decode_checkAlignment (p : RawPtr w) :
    TailCode.tailToEnum (checkAlignment p) = .state (⟨checkAlignment p⟩ : RawPtr w) :=
  if_neg (not_not.2 (and_tailFlag_eq_zero.2 (even_clear_tailFlag p.addr)))

/-! ## The calls of a queue -/

section Calls

variable {S : Type} [TailCode S w]

open TailCode

/-- The word that `Queue::with_state` puts in the tail. -/
def withState (s : S) : Option (BitVec w) := enumToTail (.state s : StateOrAddr S w)

/-- `Queue::state`, on the word in the tail. -/
def loadState (S : Type) [TailCode S w] (t : BitVec w) : Option S := (tailToEnum t : StateOrAddr S w).state?

/-- The state that an access stores when it is successful. -/
def TailOp.stores : TailOp S w → Option S
  | .compareExchangeState _ new | .fetchUpdate _ new => some new
  | .removeOnly _ s | .drain s => s
  | _ => none

theorem TailOp.run_stores {op : TailOp S w} {s : S} {t t' : BitVec w} (hs : op.stores = some s)
    (h : op.run t = some (t', true)) : withState s = some t' := by
  have key : ∀ {c n : BitVec w}, compareExchange t c n = (t', true) → n = t' := fun h => by
    unfold compareExchange at h
    split at h
    · exact (Prod.mk.inj h).1
    · simp at h
  cases op <;> simp only [stores, Option.some.injEq, reduceCtorEq] at hs <;> subst hs <;>
    simp only [run, newTailWord, Option.bind_eq_bind, Option.bind_eq_some_iff, Option.pure_def,
      Option.some.injEq] at h
  case compareExchangeState current =>
    obtain ⟨c, -, n, hn, hc⟩ := h
    exact key hc ▸ hn
  case fetchUpdate tail =>
    split at h
    · obtain ⟨n, hn, hc⟩ := Option.bind_eq_some_iff.1 h
      exact key (Option.some.inj hc) ▸ hn
    · simp at h
  case removeOnly node =>
    obtain ⟨n, hn, c, -, hc⟩ := h
    exact key hc ▸ hn
  case drain =>
    obtain ⟨n, hn, hc⟩ := h
    exact (Prod.mk.inj hc).1 ▸ hn

end Calls

/-- What is said of a pointer that is a state. -/
structure PointerExact (p : RawPtr w) : Prop where
  /-- Decoding gives it back. -/
  decode_encode : ∀ t, TailCode.enumToTail (.state p : StateOrAddr (RawPtr w) w) = some t →
    TailCode.tailToEnum t = .state p
  /-- `state` returns it after `with_state`. -/
  withState : ∀ t : BitVec w, withState p = some t → loadState (RawPtr w) t = some p
  /-- `state` returns it after an access that stores it. -/
  update : ∀ (op : TailOp (RawPtr w) w) (t t' : BitVec w), Held (RawPtr w) t → op.stores = some p →
    op.run t = some (t', true) → loadState (RawPtr w) t' = some p
  /-- `compare_exchange_state(p, q)` is successful only if it is the state. -/
  compareExchange : ∀ (q : RawPtr w) (t t' : BitVec w), Held (RawPtr w) t →
    (TailOp.compareExchangeState p q).run t = some (t', true) → loadState (RawPtr w) t = some p

/-- **Pointers as states.** Every node decodes to itself; a pointer is encoded faithfully, in all that the
calls of a queue show of it, if and only if its address is even. -/
theorem pointer_encoding_iff :
    (∀ a : LinkPtr w, ∃ t, TailCode.enumToTail (.ptr a.addr : StateOrAddr (RawPtr w) w) = some t ∧
      TailCode.tailToEnum t = (.ptr a.addr : StateOrAddr (RawPtr w) w)) ∧
    ∀ p : RawPtr w, PointerExact p ↔ p.addr.toNat % 2 = 0 := by
  refine ⟨fun a => ⟨_, rfl, ?_⟩, fun p => ⟨fun h => ?_, fun h => ?_⟩⟩
  · exact (if_pos a.and_tailFlag).trans (congrArg _ (clear_or_tailFlag a.aligned))
  · have := h.decode_encode _ rfl
    rw [decode_checkAlignment] at this
    exact checkAlignment_eq_iff.1 (congrArg RawPtr.addr (StateOrAddr.state.inj this))
  · have hp : checkAlignment p = p.addr := checkAlignment_eq_iff.2 h
    have hdec : TailCode.tailToEnum (checkAlignment p) = .state p := by
      rw [decode_checkAlignment, hp]
    have hload : ∀ t : BitVec w, withState p = some t → loadState (RawPtr w) t = some p := by
      rintro t ⟨⟩
      rw [loadState, hdec]
      rfl
    refine ⟨?_, hload, fun op t t' ht hs hr => hload t' (TailOp.run_stores hs hr), ?_⟩
    · rintro t ⟨⟩
      exact hdec
    · intro q t t' ht hr
      simp only [TailOp.run, TailCode.enumToTail, Option.bind_eq_bind, Option.bind_some,
        Option.pure_def, Option.some.injEq, compareExchange] at hr
      split at hr
      · rename_i he
        exact hload t (congrArg some he.symm)
      · simp at hr

/-- **A pointer that is not aligned.** A queue is made with the state `3`: its state is `2`, and an update
that expects `3` is made. -/
theorem pointer_encoding_not :
    let p : RawPtr 64 := ⟨3⟩
    withState p = some (2 : BitVec 64) ∧ Held (RawPtr 64) (2 : BitVec 64) ∧
      loadState (RawPtr 64) (2 : BitVec 64) = some ⟨2⟩ ∧ loadState (RawPtr 64) (2 : BitVec 64) ≠ some p ∧
      (TailOp.compareExchangeState p ⟨8⟩).run (2 : BitVec 64) = some (8, true) ∧ ¬ PointerExact p := by
  intro p
  have hp : withState p = some (2 : BitVec 64) := by decide
  exact ⟨hp, .withState p 2 hp, by decide, by decide, by decide,
    fun h => absurd (h.withState 2 hp) (by decide)⟩

/-! ## Aligned pointers -/

/-- A `*mut T` with an even address. -/
structure AlignedPtr (w : ℕ) extends RawPtr w where
  even : addr.toNat % 2 = 0
  deriving DecidableEq

/-- The same tail, with another form of the states. -/
def StateOrAddr.map {S S' : Type} (f : S → S') : StateOrAddr S w → StateOrAddr S' w
  | .state s => .state (f s)
  | .ptr a => .ptr a

/-- The implementation for `*mut T`, where all pointers are aligned. -/
instance : TailCode (AlignedPtr w) w where
  null := ⟨⟨0⟩, by simp⟩
  fits _ := True
  tailToEnum t := if h : t.toNat % 2 = 0 then .state ⟨⟨t⟩, h⟩ else .ptr (t &&& ~~~tailFlag w)
  enumToTail
    | .state p => some p.addr
    | .ptr a => some (a ||| tailFlag w)

/-- It is that for `*mut T`. -/
theorem enumToTail_aligned (x : StateOrAddr (AlignedPtr w) w) :
    (TailCode.enumToTail (x.map AlignedPtr.toRawPtr) : Option (BitVec w)) = TailCode.enumToTail x := by
  cases x with
  | state p => exact congrArg some (checkAlignment_eq_iff.2 p.even)
  | ptr a => rfl

theorem tailToEnum_aligned (t : BitVec w) :
    (TailCode.tailToEnum t : StateOrAddr (AlignedPtr w) w).map AlignedPtr.toRawPtr =
      TailCode.tailToEnum t := by
  have hiff : t &&& tailFlag w = 0 ↔ t.toNat % 2 = 0 := and_tailFlag_eq_zero
  by_cases h : t.toNat % 2 = 0
  · simp only [TailCode.tailToEnum, dif_pos h, hiff.2 h, StateOrAddr.map, ne_eq, not_true_eq_false,
      if_false]
  · simp only [TailCode.tailToEnum, dif_neg h, mt hiff.1 h, StateOrAddr.map, ne_eq, not_false_eq_true,
      if_true]

instance : LawfulTailCode (AlignedPtr w) w where
  decode_encode := by
    rintro x (⟨p, -⟩ | a)
    · exact ⟨p.addr, rfl, dif_pos p.even⟩
    · have hodd : ¬ (a.addr ||| tailFlag w).toNat % 2 = 0 := fun h =>
        a.and_tailFlag (and_tailFlag_eq_zero.2 h)
      exact ⟨_, rfl, (dif_neg hodd).trans (congrArg _ (clear_or_tailFlag a.aligned))⟩
  encode_unfit h := absurd trivial h
  decode_zero := by simp [TailCode.tailToEnum, TailCode.null]
  encode_null := rfl

/-- For aligned pointers the accesses of a queue to its tail word do to the decoded tail what they are
meant to. -/
theorem aligned_encoding_exact : TailEncodingExact (AlignedPtr w) w := LawfulTailCode.exact

end Aiq
