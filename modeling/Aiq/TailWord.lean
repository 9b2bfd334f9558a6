import Aiq.Memory
import Mathlib.Data.Nat.Bitwise
import Mathlib.Tactic.Common

/-!
# The tail word

The tail of a queue is one word, which holds a state or the address of the last node
(`queue/state.rs`). `TailCode S w` is `QueueStatePrivate` for words of `w` bits: `tailToEnum` and
`enumToTail`, which panics on a state that does not fit. The rest of the development keeps the tail
decoded; this module is about the words. A word that the operations of a queue can store in the tail
(`Held`) decodes to what it was made of and encodes to itself, so that comparing words is comparing
decoded tails (`tail_encoding_exact`).
-/

namespace Aiq

/-! ## Words -/

/-- A `NonNull<NodeLink>`. The type is aligned to four bytes. -/
structure LinkPtr (w : ℕ) where
  addr : BitVec w
  ne_zero : addr ≠ 0
  aligned : addr.toNat % 4 = 0

/-- `StateOrPtr`, with the pointer that `tail_to_enum` makes of a word, whatever the word is. -/
inductive StateOrAddr (S : Type) (w : ℕ)
  | state (s : S)
  | ptr (addr : BitVec w)
  deriving DecidableEq

/-- `QueueStatePrivate`. `enumToTail` is `none` when it panics; `fits` are the states that it
encodes. -/
class TailCode (S : Type) (w : ℕ) where
  null : S
  fits : S → Prop
  tailToEnum : BitVec w → StateOrAddr S w
  enumToTail : StateOrAddr S w → Option (BitVec w)

/-- The implementation for `()`. -/
instance {w : ℕ} : TailCode Unit w where
  null := ()
  fits _ := True
  tailToEnum t := if t = 0 then .state () else .ptr t
  enumToTail
    | .state _ => some 0
    | .ptr a => some a

/-- `TAIL_FLAG`. -/
def tailFlag (w : ℕ) : BitVec w := 1

/-- `STATE_SHIFT`. -/
def stateShift : ℕ := 1

/-- `INTRUSIVE_QUEUE_MAX_STATE`. -/
def intrusiveQueueMaxState (w : ℕ) : BitVec w := BitVec.allOnes w >>> stateShift

/-- `state_to_ptr`. -/
def stateToPtr {w : ℕ} (s : BitVec w) : Option (BitVec w) :=
  if s > intrusiveQueueMaxState w then none else some (s <<< stateShift)

/-- The implementation for `usize`. -/
instance {w : ℕ} : TailCode (BitVec w) w where
  null := 0
  fits s := s ≤ intrusiveQueueMaxState w
  tailToEnum t :=
    if t &&& tailFlag w ≠ 0 then .ptr (t &&& ~~~tailFlag w) else .state (t >>> stateShift)
  enumToTail
    | .state s => stateToPtr s
    | .ptr a => some (a ||| tailFlag w)

section Bits

variable {w : ℕ} {a b s t : BitVec w}

theorem toNat_tailFlag (hw : 0 < w) : (tailFlag w).toNat = 1 := by
  rw [tailFlag, show (1 : BitVec w) = BitVec.ofNat w 1 from rfl, BitVec.toNat_ofNat]
  exact Nat.mod_eq_of_lt (Nat.one_lt_two_pow hw.ne')

/-- The flag is the parity of the word. -/
theorem and_tailFlag_eq_zero : t &&& tailFlag w = 0 ↔ t.toNat % 2 = 0 := by
  rcases Nat.eq_zero_or_pos w with rfl | hw
  · simp [BitVec.of_length_zero]
  · rw [← BitVec.toNat_inj, BitVec.toNat_and, toNat_tailFlag hw, Nat.and_one_is_mod]
    simp

/-- Setting the flag of an aligned address makes it odd. -/
theorem toNat_or_tailFlag (hw : 0 < w) (ha : a.toNat % 4 = 0) :
    (a ||| tailFlag w).toNat = a.toNat + 1 := by
  obtain ⟨k, hk⟩ : ∃ k, a.toNat = 2 * k := ⟨a.toNat / 2, by omega⟩
  have h := Nat.two_pow_add_eq_or_of_lt (i := 1) (b := 1) (by decide) k
  rw [BitVec.toNat_or, toNat_tailFlag hw, hk]
  simpa using h.symm

/-- Clearing the flag gives the address back. -/
theorem clear_or_tailFlag (ha : a.toNat % 4 = 0) : (a ||| tailFlag w) &&& ~~~tailFlag w = a := by
  have h₀ : a.getLsbD 0 = false := by
    rw [BitVec.getLsbD, Nat.testBit_zero]
    simp [show a.toNat % 2 = 0 by omega]
  ext i hi
  rcases Nat.eq_zero_or_pos i with rfl | hp
  · simpa [tailFlag, BitVec.getLsbD_eq_getElem hi] using h₀
  · have h₁ : (1#w)[i] = false := by simp [BitVec.getElem_one, hp.ne']
    simp [tailFlag, h₁]

theorem LinkPtr.width_pos (p : LinkPtr w) : 0 < w := by
  rcases Nat.eq_zero_or_pos w with rfl | hw
  · exact absurd (BitVec.eq_nil p.addr ▸ rfl) p.ne_zero
  · exact hw

/-- A word with a node in it has the flag. -/
theorem LinkPtr.and_tailFlag (p : LinkPtr w) : (p.addr ||| tailFlag w) &&& tailFlag w ≠ 0 := by
  rw [Ne, and_tailFlag_eq_zero, toNat_or_tailFlag p.width_pos p.aligned]
  have := p.aligned
  omega

theorem toNat_maxState : (intrusiveQueueMaxState w).toNat = (2 ^ w - 1) / 2 := by
  simp [intrusiveQueueMaxState, stateShift, Nat.shiftRight_eq_div_pow]

/-- The shift of a state that fits loses no bit. -/
theorem toNat_state_shift (hs : s ≤ intrusiveQueueMaxState w) :
    (s <<< stateShift).toNat = 2 * s.toNat := by
  have h : s.toNat ≤ (2 ^ w - 1) / 2 := by
    rw [← toNat_maxState]
    exact hs
  have hw : 0 < 2 ^ w := Nat.two_pow_pos w
  rw [BitVec.toNat_shiftLeft, stateShift, Nat.shiftLeft_eq, Nat.mod_eq_of_lt] <;> omega

theorem unshift_state (hs : s ≤ intrusiveQueueMaxState w) :
    (s <<< stateShift) >>> stateShift = s := by
  rw [← BitVec.toNat_inj, BitVec.toNat_ushiftRight, toNat_state_shift hs, stateShift,
    Nat.shiftRight_eq_div_pow]
  omega

end Bits

/-! ## The encoding -/

section Code

variable {S : Type} {w : ℕ}

/-- The tails that a queue can have: a state that fits, or a node. -/
inductive StateOrAddr.Valid [TailCode S w] : StateOrAddr S w → Prop
  | state (s : S) (h : TailCode.fits w s) : Valid (.state s)
  | ptr (p : LinkPtr w) : Valid (.ptr p.addr)

/-- `StateOrPtr::state`. -/
def StateOrAddr.state? : StateOrAddr S w → Option S
  | .state s => some s
  | .ptr _ => none

/-- `StateOrPtr::tail`. -/
def StateOrAddr.tail? : StateOrAddr S w → Option (BitVec w)
  | .state _ => none
  | .ptr a => some a

open TailCode in
/-- The laws of an encoding. -/
class LawfulTailCode (S : Type) (w : ℕ) [TailCode S w] : Prop where
  decode_encode : ∀ {x : StateOrAddr S w}, x.Valid → ∃ t, enumToTail x = some t ∧ tailToEnum t = x
  encode_unfit : ∀ {s : S}, ¬ fits w s → enumToTail (.state s : StateOrAddr S w) = none
  decode_zero : tailToEnum (0 : BitVec w) = .state (null w : S)
  encode_null : enumToTail (.state (null w : S) : StateOrAddr S w) = some 0

instance : LawfulTailCode Unit w where
  decode_encode := by
    rintro x (⟨s, h⟩ | p)
    · exact ⟨0, rfl, by simp [TailCode.tailToEnum]⟩
    · exact ⟨p.addr, rfl, if_neg p.ne_zero⟩
  encode_unfit h := absurd trivial h
  decode_zero := by simp [TailCode.tailToEnum, TailCode.null]
  encode_null := rfl

theorem stateToPtr_of_le {s : BitVec w} (h : s ≤ intrusiveQueueMaxState w) :
    stateToPtr s = some (s <<< stateShift) :=
  if_neg (BitVec.not_lt.2 h)

instance : LawfulTailCode (BitVec w) w where
  decode_encode := by
    rintro x (⟨s, h⟩ | p)
    · refine ⟨s <<< stateShift, stateToPtr_of_le h, ?_⟩
      have hf : s <<< stateShift &&& tailFlag w = 0 := by
        rw [and_tailFlag_eq_zero, toNat_state_shift h]
        omega
      simp [TailCode.tailToEnum, hf, unshift_state h]
    · refine ⟨p.addr ||| tailFlag w, rfl, (if_pos p.and_tailFlag).trans ?_⟩
      rw [clear_or_tailFlag p.aligned]
  encode_unfit h := if_pos (BitVec.not_le.1 h)
  decode_zero := by simp [TailCode.tailToEnum, TailCode.null]
  encode_null := by
    have h : (0 : BitVec w) ≤ intrusiveQueueMaxState w := by simp [BitVec.le_def]
    rw [show (0 : BitVec w) = 0 <<< stateShift by simp]
    exact stateToPtr_of_le h

variable [TailCode S w] [LawfulTailCode S w] {x y : StateOrAddr S w} {t : BitVec w}

open TailCode LawfulTailCode

/-- What an encoding decodes to. -/
theorem decode_of_encode (hx : x.Valid) (ht : enumToTail x = some t) : tailToEnum t = x := by
  obtain ⟨t', ht', hd⟩ := decode_encode hx
  obtain rfl := Option.some.inj (ht.symm.trans ht')
  exact hd

/-- Different tails have different words, whether they are states or nodes. -/
theorem encode_inj (hx : x.Valid) (hy : y.Valid) (h : enumToTail x = some t)
    (h' : enumToTail y = some t) : x = y :=
  (decode_of_encode hx h).symm.trans (decode_of_encode hy h')

/-- A state is encoded just when it fits. -/
theorem encode_state {s : S} (h : enumToTail (.state s : StateOrAddr S w) = some t) :
    (StateOrAddr.state s : StateOrAddr S w).Valid := by
  by_cases hf : fits w s
  · exact .state s hf
  · simp [encode_unfit hf] at h

end Code

/-! ## The accesses to the tail -/

/-- What the operations of a queue do to its tail, in one access each. A `tail` is a word that was
loaded before. -/
inductive TailOp (S : Type) (w : ℕ)
  /-- `compare_exchange_state`. -/
  | compareExchangeState (current new : S)
  /-- The CAS in the loop of `fetch_update_state`. -/
  | fetchUpdate (tail : BitVec w) (new : S)
  /-- The CAS in the loop of `enqueue`. -/
  | enqueue (tail : BitVec w) (node : LinkPtr w)
  /-- The CAS of `remove_with_prev`, with the predecessor as the new tail. -/
  | removeLast (node prev : LinkPtr w)
  /-- The same with the `new_tail` of the caller: `State(s)`, or null. -/
  | removeOnly (node : LinkPtr w) (newTail : Option S)
  /-- The swap of `Drain::new`. -/
  | drain (newTail : Option S)

section Ops

variable {S : Type} {w : ℕ} [TailCode S w]

open TailCode LawfulTailCode

/-- `AtomicPtr::compare_exchange`, with the new word and whether it was stored. -/
def compareExchange (t current new : BitVec w) : BitVec w × Bool :=
  if t = current then (new, true) else (t, false)

/-- `StateOrPtr::State(s).into()`, or `ptr::null_mut()`. -/
def newTailWord (s : Option S) : Option (BitVec w) :=
  match s with
  | some s => enumToTail (.state s : StateOrAddr S w)
  | none => some 0

/-- The access on the word `t`: the word after it, and whether it was successful; `none` when the
operation panics before the access. -/
def TailOp.run (t : BitVec w) : TailOp S w → Option (BitVec w × Bool)
  | .compareExchangeState current new => do
    let cur ← enumToTail (.state current : StateOrAddr S w)
    let new ← enumToTail (.state new : StateOrAddr S w)
    return compareExchange t cur new
  | .fetchUpdate tail new =>
    match (tailToEnum tail : StateOrAddr S w) with
    | .state _ => do
      let new ← enumToTail (.state new : StateOrAddr S w)
      return compareExchange t tail new
    | .ptr _ => some (t, false)
  | .enqueue tail node => do
    let new ← enumToTail (.ptr node.addr : StateOrAddr S w)
    return compareExchange t tail new
  | .removeLast node prev => do
    let new ← enumToTail (.ptr prev.addr : StateOrAddr S w)
    let cur ← enumToTail (.ptr node.addr : StateOrAddr S w)
    return compareExchange t cur new
  | .removeOnly node newTail => do
    let new ← newTailWord newTail
    let cur ← enumToTail (.ptr node.addr : StateOrAddr S w)
    return compareExchange t cur new
  | .drain newTail => do
    let new ← newTailWord newTail
    return (new, true)

/-- The words that the tail can hold: those of `Queue::new` and `Queue::with_state`, and what the
accesses leave. -/
inductive Held (S : Type) {w : ℕ} [TailCode S w] : BitVec w → Prop
  | new : Held S 0
  | withState (s : S) (t : BitVec w) (h : enumToTail (.state s : StateOrAddr S w) = some t) : Held S t
  | access (op : TailOp S w) (t t' : BitVec w) (b : Bool) (ht : Held S t)
      (h : op.run t = some (t', b)) : Held S t'

/-- The access on a decoded tail. -/
def TailOp.apply [DecidableEq S] (x : StateOrAddr S w) : TailOp S w → StateOrAddr S w × Bool
  | .compareExchangeState current new =>
    if x = .state current then (.state new, true) else (x, false)
  | .fetchUpdate tail new =>
    if x = tailToEnum tail ∧ x.state?.isSome then (.state new, true) else (x, false)
  | .enqueue tail node => if x = tailToEnum tail then (.ptr node.addr, true) else (x, false)
  | .removeLast node prev => if x = .ptr node.addr then (.ptr prev.addr, true) else (x, false)
  | .removeOnly node newTail =>
    if x = .ptr node.addr then (.state (newTail.getD (null w)), true) else (x, false)
  | .drain newTail => (.state (newTail.getD (null w)), true)

/-- The words that the operation has loaded were in the tail. -/
def TailOp.Loaded : TailOp S w → Prop
  | .fetchUpdate tail _ | .enqueue tail _ => Held S tail
  | _ => True

/-- The states that the operation encodes fit. -/
def TailOp.Fits : TailOp S w → Prop
  | .compareExchangeState current new => fits w current ∧ fits w new
  | .fetchUpdate tail new => (tailToEnum tail : StateOrAddr S w).state?.isSome → fits w new
  | .removeOnly _ newTail | .drain newTail => ∀ s ∈ newTail, fits w s
  | _ => True

variable [LawfulTailCode S w] {t t' : BitVec w}

/-- A new tail is the word of a state that fits. -/
theorem newTailWord_eq {s : Option S} (h : newTailWord s = some t) :
    ∃ x : StateOrAddr S w, x = .state (s.getD (null w)) ∧ x.Valid ∧ enumToTail x = some t := by
  cases s with
  | some s => exact ⟨_, rfl, encode_state h, h⟩
  | none =>
    obtain rfl : 0 = t := by simpa [newTailWord] using h
    have h₀ : enumToTail (.state (null w) : StateOrAddr S w) = some (0 : BitVec w) := encode_null
    exact ⟨_, rfl, encode_state h₀, h₀⟩

/-- What an access leaves: the word that was there, or the word of a valid tail. -/
theorem TailOp.run_eq {op : TailOp S w} {b : Bool} (h : op.run t = some (t', b)) :
    b = false ∧ t' = t ∨ b = true ∧ ∃ x : StateOrAddr S w, x.Valid ∧ enumToTail x = some t' := by
  have key : ∀ {cur new : BitVec w}, (∃ x : StateOrAddr S w, x.Valid ∧ enumToTail x = some new) →
      compareExchange t cur new = (t', b) → b = false ∧ t' = t ∨
        b = true ∧ ∃ x : StateOrAddr S w, x.Valid ∧ enumToTail x = some t' := by
    intro cur new hnew hc
    unfold compareExchange at hc
    split at hc <;> obtain ⟨rfl, rfl⟩ := Prod.mk.inj hc
    · exact .inr ⟨rfl, hnew⟩
    · exact .inl ⟨rfl, rfl⟩
  cases op <;> simp only [run, Option.bind_eq_bind, Option.bind_eq_some_iff, Option.pure_def,
    Option.some.injEq] at h
  case compareExchangeState current new =>
    obtain ⟨cur, -, n, hn, hc⟩ := h
    exact key ⟨_, encode_state hn, hn⟩ hc
  case fetchUpdate tail new =>
    split at h
    · obtain ⟨n, hn, hc⟩ := Option.bind_eq_some_iff.1 h
      exact key ⟨_, encode_state hn, hn⟩ (Option.some.inj hc)
    · obtain ⟨rfl, rfl⟩ := Prod.mk.inj (Option.some.inj h)
      exact .inl ⟨rfl, rfl⟩
  case enqueue tail node =>
    obtain ⟨n, hn, hc⟩ := h
    exact key ⟨_, .ptr node, hn⟩ hc
  case removeLast node prev =>
    obtain ⟨n, hn, cur, -, hc⟩ := h
    exact key ⟨_, .ptr prev, hn⟩ hc
  case removeOnly node newTail =>
    obtain ⟨n, hn, cur, -, hc⟩ := h
    obtain ⟨x, -, hx, he⟩ := newTailWord_eq hn
    exact key ⟨x, hx, he⟩ hc
  case drain newTail =>
    obtain ⟨n, hn, hc⟩ := h
    obtain ⟨rfl, rfl⟩ := Prod.mk.inj hc
    obtain ⟨x, -, hx, he⟩ := newTailWord_eq hn
    exact .inr ⟨rfl, x, hx, he⟩

/-- A word in the tail is the word of a valid tail. -/
theorem Held.valid (h : Held S t) : ∃ x : StateOrAddr S w, x.Valid ∧ enumToTail x = some t := by
  induction h with
  | new => exact ⟨_, encode_state encode_null, encode_null⟩
  | withState s t h => exact ⟨_, encode_state h, h⟩
  | access op t t' b ht h ih =>
    rcases TailOp.run_eq h with ⟨-, rfl⟩ | ⟨-, hx⟩
    · exact ih
    · exact hx

/-- It encodes to itself. -/
theorem Held.encode_decode (h : Held S t) : enumToTail (tailToEnum t : StateOrAddr S w) = some t := by
  obtain ⟨x, hx, he⟩ := h.valid
  rwa [decode_of_encode hx he]

/-- Comparing words in the tail with words of tails is comparing tails. -/
theorem Held.eq_iff {x : StateOrAddr S w} (h : Held S t) (hx : x.Valid) (he : enumToTail x = some t') :
    t = t' ↔ (tailToEnum t : StateOrAddr S w) = x := by
  constructor
  · rintro rfl
    exact decode_of_encode hx he
  · rintro rfl
    exact Option.some.inj (h.encode_decode.symm.trans he)

theorem Held.eq_iff_of_held (h : Held S t) (h' : Held S t') :
    t = t' ↔ (tailToEnum t : StateOrAddr S w) = tailToEnum t' := by
  obtain ⟨x, hx, he⟩ := h'.valid
  rw [decode_of_encode hx he]
  exact h.eq_iff hx he

variable [DecidableEq S]

/-- A compare-exchange on words is one on tails. -/
theorem decode_compareExchange {x y : StateOrAddr S w} {c n : BitVec w} {b : Bool}
    (hc : t = c ↔ (tailToEnum t : StateOrAddr S w) = x) (hy : y.Valid) (hn : enumToTail y = some n)
    (h : compareExchange t c n = (t', b)) :
    ((tailToEnum t' : StateOrAddr S w), b) =
      if (tailToEnum t : StateOrAddr S w) = x then (y, true) else (tailToEnum t, false) := by
  unfold compareExchange at h
  split at h <;> obtain ⟨rfl, rfl⟩ := Prod.mk.inj h
  · rw [if_pos (hc.1 ‹_›), decode_of_encode hy hn]
  · rw [if_neg (mt hc.2 ‹_›)]

/-- An access to the word does to the tail what it is meant to. -/
theorem Held.run_apply {op : TailOp S w} {b : Bool} (h : Held S t) (hl : op.Loaded)
    (hr : op.run t = some (t', b)) : ((tailToEnum t' : StateOrAddr S w), b) = op.apply (tailToEnum t) := by
  cases op <;> simp only [TailOp.run, Option.bind_eq_bind, Option.bind_eq_some_iff, Option.pure_def,
    Option.some.injEq] at hr
  case compareExchangeState current new =>
    obtain ⟨c, hc, n, hn, hr⟩ := hr
    exact decode_compareExchange (h.eq_iff (encode_state hc) hc) (encode_state hn) hn hr
  case fetchUpdate tail new =>
    split at hr
    · rename_i s hs
      obtain ⟨n, hn, hr⟩ := Option.bind_eq_some_iff.1 hr
      rw [decode_compareExchange (h.eq_iff_of_held hl) (encode_state hn) hn (Option.some.inj hr)]
      by_cases ht : (tailToEnum t : StateOrAddr S w) = tailToEnum tail
      · simp [TailOp.apply, ht, hs, StateOrAddr.state?]
      · simp [TailOp.apply, ht]
    · rename_i a ha
      obtain ⟨rfl, rfl⟩ := Prod.mk.inj (Option.some.inj hr)
      by_cases ht : (tailToEnum t : StateOrAddr S w) = tailToEnum tail
      · simp [TailOp.apply, ht, ha, StateOrAddr.state?]
      · simp [TailOp.apply, ht]
  case enqueue tail node =>
    obtain ⟨n, hn, hr⟩ := hr
    exact decode_compareExchange (h.eq_iff_of_held hl) (.ptr node) hn hr
  case removeLast node prev =>
    obtain ⟨n, hn, c, hc, hr⟩ := hr
    exact decode_compareExchange (h.eq_iff (.ptr node) hc) (.ptr prev) hn hr
  case removeOnly node newTail =>
    obtain ⟨n, hn, c, hc, hr⟩ := hr
    obtain ⟨x, rfl, hx, he⟩ := newTailWord_eq hn
    exact decode_compareExchange (h.eq_iff (.ptr node) hc) hx he hr
  case drain newTail =>
    obtain ⟨n, hn, hr⟩ := hr
    obtain ⟨rfl, rfl⟩ := Prod.mk.inj hr
    obtain ⟨x, rfl, hx, he⟩ := newTailWord_eq hn
    rw [decode_of_encode hx he]
    rfl

omit [DecidableEq S] in
theorem encode_state_eq_none {s : S} :
    enumToTail (.state s : StateOrAddr S w) = none ↔ ¬ fits w s := by
  refine ⟨fun h hf => ?_, encode_unfit⟩
  obtain ⟨t, ht, -⟩ := decode_encode (StateOrAddr.Valid.state s hf)
  simp [h] at ht

omit [DecidableEq S] in
theorem newTailWord_eq_none {s : Option S} :
    (newTailWord s : Option (BitVec w)) = none ↔ ¬ ∀ v ∈ s, fits w v := by
  cases s with
  | some s => simpa [newTailWord] using encode_state_eq_none
  | none => simp [newTailWord]

omit [DecidableEq S] in
/-- An operation panics, before its access, just when it has a state that does not fit. -/
theorem TailOp.run_eq_none {op : TailOp S w} : op.run t = none ↔ ¬ op.Fits := by
  have hptr : ∀ p : LinkPtr w, ∃ u, enumToTail (.ptr p.addr : StateOrAddr S w) = some u := fun p => by
    obtain ⟨u, hu, -⟩ := decode_encode (StateOrAddr.Valid.ptr (S := S) p)
    exact ⟨u, hu⟩
  cases op <;> simp only [run, Fits, Option.bind_eq_bind, Option.bind_eq_none_iff, Option.pure_def,
    reduceCtorEq, not_true_eq_false, imp_false]
  case compareExchangeState current new =>
    by_cases hc : fits w current
    · obtain ⟨c, hc', -⟩ := decode_encode (StateOrAddr.Valid.state current hc)
      simp [hc, hc', ← Option.eq_none_iff_forall_ne_some, encode_state_eq_none]
    · simp [hc, encode_unfit hc]
  case fetchUpdate tail new =>
    cases (tailToEnum tail : StateOrAddr S w) with
    | state s => simp [StateOrAddr.state?, ← Option.eq_none_iff_forall_ne_some, encode_state_eq_none]
    | ptr a => simp [StateOrAddr.state?]
  case enqueue tail node =>
    obtain ⟨u, hu⟩ := hptr node
    simp [hu]
  case removeLast node prev =>
    obtain ⟨u, hu⟩ := hptr node
    obtain ⟨v, hv⟩ := hptr prev
    simp [hu, hv]
  case removeOnly node newTail =>
    obtain ⟨u, hu⟩ := hptr node
    simp only [hu, Option.some.injEq, forall_eq']
    rw [← newTailWord_eq_none, Option.eq_none_iff_forall_ne_some]
  case drain newTail =>
    rw [← newTailWord_eq_none, Option.eq_none_iff_forall_ne_some]

end Ops

/-! ## The two encodings -/

open TailCode in
/-- What is said of an encoding. -/
structure TailEncodingExact (S : Type) (w : ℕ) [DecidableEq S] [TailCode S w] : Prop where
  /-- Decoding gives back what was encoded. -/
  decode_encode : ∀ x : StateOrAddr S w, x.Valid → ∃ t, enumToTail x = some t ∧ tailToEnum t = x
  /-- States and nodes have different words. -/
  encode_inj : ∀ x y : StateOrAddr S w, x.Valid → y.Valid → enumToTail x = enumToTail y → x = y
  /-- The null tail is a state. -/
  decode_zero : tailToEnum (0 : BitVec w) = .state (null w : S)
  /-- A word in the tail encodes to itself. -/
  encode_decode : ∀ t, Held S t → enumToTail (tailToEnum t : StateOrAddr S w) = some t
  /-- An operation with a state that does not fit panics before its access. -/
  panics : ∀ (op : TailOp S w) t, op.run t = none ↔ ¬ op.Fits
  /-- `compare_exchange_state` is successful just when the queue is empty in the state `current`. -/
  compareExchangeState : ∀ t (current new : S), Held S t → fits w current → fits w new →
    ∃ t', (TailOp.compareExchangeState current new).run t =
      some (t', decide ((tailToEnum t : StateOrAddr S w).state? = some current))
  /-- Every access does to the decoded tail what it is meant to. -/
  access : ∀ (op : TailOp S w) t t' b, Held S t → op.Loaded → op.run t = some (t', b) →
    ((tailToEnum t' : StateOrAddr S w), b) = op.apply (tailToEnum t)

open LawfulTailCode in
theorem LawfulTailCode.exact {S : Type} {w : ℕ} [DecidableEq S] [TailCode S w] [LawfulTailCode S w] :
    TailEncodingExact S w where
  decode_encode _ hx := decode_encode hx
  encode_inj x y hx hy h := by
    obtain ⟨t, ht, -⟩ := decode_encode hx
    exact Aiq.encode_inj hx hy ht (h ▸ ht)
  decode_zero := decode_zero
  encode_decode _ h := h.encode_decode
  panics _ _ := TailOp.run_eq_none
  compareExchangeState t current new h hc hn := by
    have hr : (TailOp.compareExchangeState current new).run t ≠ none := fun hr =>
      TailOp.run_eq_none.1 hr ⟨hc, hn⟩
    obtain ⟨⟨t', b⟩, hr⟩ := Option.ne_none_iff_exists'.1 hr
    have hl : (TailOp.compareExchangeState current new : TailOp S w).Loaded := trivial
    refine ⟨t', hr.trans ?_⟩
    have hb := congrArg Prod.snd (h.run_apply hl hr)
    have hx : ∀ x : StateOrAddr S w, (TailOp.apply x (.compareExchangeState current new)).2 =
        decide (x.state? = some current) := fun x => by
      cases x with
      | state s =>
        by_cases hs : s = current
        · simp [TailOp.apply, StateOrAddr.state?, hs]
        · simp [TailOp.apply, StateOrAddr.state?, hs]
      | ptr a => simp [TailOp.apply, StateOrAddr.state?]
    rw [← hx, ← hb]
  access _ _ _ _ h hl hr := h.run_apply hl hr

/-- **Encoding of the tail.** For the states `()` and `usize` the words of states and of nodes are
distinct and decode to what they were made of, null is a state, and the accesses of a queue to its tail
word do to the decoded tail exactly what they are meant to; a state above `INTRUSIVE_QUEUE_MAX_STATE`
makes the operation panic before it writes. -/
theorem tail_encoding_exact (w : ℕ) : TailEncodingExact Unit w ∧ TailEncodingExact (BitVec w) w :=
  ⟨LawfulTailCode.exact, LawfulTailCode.exact⟩

end Aiq
