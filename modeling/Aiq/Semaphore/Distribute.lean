import Aiq.Semaphore.Amounts

/-!
# `add_permits` without interference

`distribute` is the walk over the waiters that `add_permits` is to make: it serves them in order, reduces
the first one that needs more than there is, and adds the rest. `add_permits` makes it in batches of wakers,
and releases the lock in between. A step of it that nothing interferes with does not change what the walk
leads to (`Pc.outcome`, `Alone.step`).
-/

namespace Aiq.Semaphore

variable {W : Type} {willWake : W → W → Bool} {cfg : Config} {a : Abs ℕ} {w w' : WorldOf W}
  {i j x : TaskId} {e : Event ℕ} {n : Input W} {u u' : WorldOf W × Abs ℕ}

/-! ## The walk -/

/-- What `add_permits` changes: the queue, its waiters, the calls of wakers, and the state. -/
structure Outcome (W : Type) where
  queue : List NodeId
  data : NodeId → Waiter W
  woken : List W
  available : ℕ
  isClosed : Bool

/-- The amount `n` is distributed among the waiters of the nodes, in order. -/
def distribute : ℕ → List NodeId → Outcome W → Outcome W
  | n, [], o => { o with available := o.available + n }
  | n, x :: l, o =>
    let v := o.data x
    if n < v.permitsRemaining then
      { o with data := Function.update o.data x { v with permitsRemaining := v.permitsRemaining - n } }
    else
      let served : Outcome W :=
        { o with
          queue := l
          data := Function.update o.data x ⟨none, 0⟩
          woken := o.woken ++ v.waker.toList }
      if n = v.permitsRemaining then served else distribute (n - v.permitsRemaining) l served

/-- The outcome, as it is now. -/
def outcome (u : WorldOf W × Abs ℕ) : Outcome W where
  queue := u.2.queue
  data := u.1.q.mem.data
  woken := u.1.shared.woken
  available := availablePermits u.1.q
  isClosed := isClosed u.1.q

/-! ## The outcome that a call is going to have -/

/-- The wakers are called. -/
def Outcome.wake (ws : List W) (o : Outcome W) : Outcome W := { o with woken := o.woken ++ ws }

/-- The first node is removed. -/
def Outcome.pop (o : Outcome W) : Outcome W := { o with queue := o.queue.tail }

/-- What is left is distributed. -/
def Outcome.rest (p : ℕ) (o : Outcome W) : Outcome W := if p = 0 then o else distribute p o.queue o

@[simp] theorem Outcome.wake_nil (o : Outcome W) : o.wake [] = o := by simp [wake]

@[simp] theorem Outcome.wake_wake (ws ws' : List W) (o : Outcome W) :
    (o.wake ws).wake ws' = o.wake (ws ++ ws') := by simp [wake]

@[simp] theorem Outcome.queue_wake (ws : List W) (o : Outcome W) : (o.wake ws).queue = o.queue := rfl

/-- The outcome that a call is going to have, if it is `o` at the control state. -/
def Pc.outcome (q : State ℕ (Waiter W)) (o : Outcome W) : Pc W → Outcome W
  | .fetch (.add _ _ _ p) | .add _ (.start _ p) | .add _ (.lock _ p) | .add _ (.second _ p)
  | .add _ (.locked p) => distribute p o.queue o
  | .add _ (.take p ws) | .add _ (.dequeued p ws) | .add _ (.full p ws) | .add _ (.batch p ws) =>
    distribute p o.queue (o.wake ws)
  | .add _ (.served p ws) => (o.wake ws).pop.rest p
  | .add _ (.set p ws) =>
    match q.result with
    | none => (o.wake ws).pop.rest p
    | some true => o.wake ws
    | some false => (o.wake ws).rest p
  | .add _ (.requeue ws) | .add _ (.done ws) | .add _ (.final ws) => o.wake ws
  | _ => o

/-- What is left in the distribution of `p` does not overflow. -/
structure Room (w : WorldOf W) (a : Abs ℕ) (p : ℕ) : Prop where
  pos : p ≠ 0
  check : a.queue = [] → (checkAddPermits a.state p).isSome
  shift : ∀ {x l}, a.queue = x :: l → (w.q.mem.data x).permitsRemaining ≤ p →
    2 * (p - (w.q.mem.data x).permitsRemaining) ≤ maxState

/-- See `Room`. -/
def Pc.Room (w : WorldOf W) (a : Abs ℕ) (i : TaskId) : Pc W → Prop
  | .fetch (.add _ _ _ p) => Semaphore.Room w a p ∧ a.queue = [] ∧ loaded w i = some a.state
  | .add _ (.start _ p) | .add _ (.lock _ p) | .add _ (.second _ p) | .add _ (.locked p)
  | .add _ (.take p _) | .add _ (.dequeued p _) | .add _ (.full p _) | .add _ (.batch p _) =>
    Semaphore.Room w a p
  | .add _ (.served p _) | .add _ (.set p _) => 2 * p ≤ maxState
  | _ => True

theorem Pc.Room.noOverflow (h : (w.pc i).Room w a i) : NoOverflow w i where
  shift := fun hp => by rcases hp with hp | hp <;> rw [hp] at h <;> exact h
  check := fun hp hl => by
    rw [hp] at h
    obtain ⟨hr, hq, hs⟩ := h
    obtain rfl := Option.some.inj (hs.symm.trans hl)
    exact hr.check hq

theorem Room.of_ne_nil {p : ℕ} (hp : p ≠ 0) (ha : a.queue ≠ []) (hs : 2 * p ≤ maxState) : Room w a p where
  pos := hp
  check := fun h => absurd h ha
  shift := fun _ _ => by omega

theorem Room.congr {p : ℕ} (h : Room w a p) (hd : w'.q.mem.data = w.q.mem.data) : Room w' a p where
  pos := h.pos
  check := h.check
  shift := by rw [hd]; exact h.shift

/-- Nothing overflows in what is left after a step of the call. -/
theorem Reached.room (hw : Reached cfg w a) (hs : Serving w a)
    (hm : (semaphore willWake).Moves cfg a w i n w' e) (ha : (w.pc i).Adds .user)
    (h : (w.pc i).Room w a i) : (w'.pc i).Room w' (a.apply e) i := by
  have hwait := hs.waiter i
  have hadd := hw.addStep hm ha
  generalize hi : w.pc i = p at hadd h hwait
  generalize hi' : w'.pc i = p' at hadd
  cases hadd with
  | goes hg he hd =>
    rw [he]
    cases hg with
    | fetch again p hq hl => exact ⟨Room.congr h hd, hq, hl⟩
    | fetchLocked again p hq hl => exact ⟨Room.congr h hd, hq, hl⟩
    | retry again l p hq hl => exact ⟨h.1.congr hd, hq, hl⟩
    | overflow again l p => cases l <;> trivial
    | blocked again p hq => exact h.1.congr hd
    | queued again p hq => cases again <;> exact h.1.congr hd
    | queuedAtOnce again p hq => cases again <;> exact Room.congr h hd
    | served p ws hle => exact h
    | set p ws hr => exact h
    | removed p ws b hr =>
      split
      · trivial
      · rename_i hb
        have hb' : b = false ∧ p ≠ 0 := by simpa [not_or] using hb
        have hne : a.queue ≠ [] := hwait (by rw [hr, hb'.1])
        split <;> exact .of_ne_nil hb'.2 hne h
    | nothing => trivial
    | empty => trivial
    | requeue => trivial
    | _ => first | exact Room.congr h hd | trivial
  | serve p ws x wk hmx hle =>
    obtain ⟨l, hq⟩ := List.head?_eq_some_iff.1 (hw.ok.inv.holder hmx).1
    exact h.shift hq hle
  | wake p wk ws hq => exact Room.congr h (by rw [hq])
  | update again l p s s' => cases l <;> trivial
  | _ => first | exact h | trivial

theorem outcome_of_quiet (hw : w.Ok cfg a) (hw' : w'.Ok cfg a) (hd : w'.q.mem.data = w.q.mem.data)
    (hg : w'.shared = w.shared) : outcome (w', a) = outcome (w, a) := by
  simp only [outcome, hd, hg, World.Ok.availablePermits_eq hw hw', World.Ok.isClosed_eq hw hw']

theorem distribute_cons {p : ℕ} {l : List NodeId} {o : Outcome W}
    (h : (o.data x).permitsRemaining ≤ p) :
    distribute p (x :: l) o =
      Outcome.rest (p - (o.data x).permitsRemaining)
        { o with
          queue := l
          data := Function.update o.data x ⟨none, 0⟩
          woken := o.woken ++ (o.data x).waker.toList } := by
  rw [distribute, if_neg (by omega), Outcome.rest]
  by_cases hp : p = (o.data x).permitsRemaining
  · rw [if_pos hp, if_pos (by omega)]
  · rw [if_neg hp, if_neg (by omega)]

/-- A step of the call does not change the outcome that it is going to have. -/
theorem Reached.outcome_step (hw : Reached cfg w a) (hs : Serving w a)
    (hm : (semaphore willWake).Moves cfg a w i n w' e) (ha : (w.pc i).Adds .user)
    (h : (w.pc i).Room w a i) :
    (w'.pc i).outcome w'.q (outcome (w', a.apply e)) = (w.pc i).outcome w.q (outcome (w, a)) := by
  have hok := hm.ok' hw.ok
  have hn : NoOverflow w i := h.noOverflow
  have hfail : ∀ f, w'.pc i ≠ .add .user (.failed f) := hs.failed_step hw hn.accepted hm i
  have hadd := hw.addStep hm ha
  generalize hi : w.pc i = p at hadd h
  generalize hi' : w'.pc i = p' at hadd
  cases hadd with
  | goes hg he hd hsh =>
    rw [he] at hok ⊢
    rw [outcome_of_quiet hw.ok hok hd hsh]
    cases hg with
    | nothing => exact absurd rfl h.pos
    | overflow again l p s hload hc => simpa [hc] using hn.check hi hload
    | queued again p hq => cases again <;> simp [Pc.outcome, AddPc.atQueue]
    | queuedAtOnce again p hq => cases again <;> simp [Pc.outcome, AddPc.atQueue]
    | assertion p hc => exact absurd hi' (hfail _)
    | empty p ws hmx => exact absurd hi' (hfail _)
    | exceeded p ws hlt => exact absurd hi' (hfail _)
    | served p ws hle hr => simp [Pc.outcome, hr]
    | set p ws hr => simp [Pc.outcome, hr]
    | removed p ws b hr =>
      cases b
      · by_cases hp : p = 0
        · simp [Pc.outcome, Outcome.rest, hr, hp]
        · by_cases hl : ws.length = wakersCapacity <;> simp [Pc.outcome, Outcome.rest, hr, hp, hl]
      · simp [Pc.outcome, hr]
    | _ => simp [Pc.outcome, AddOwner.ret]
  | wake p wk ws hq hsh =>
    have ho : outcome (w', a) = (outcome (w, a)).wake [wk] := by
      simp [outcome, Outcome.wake, Shared.wake, hq, hsh]
    rw [show a.apply .tau = a from rfl, ho]
    simp [Pc.outcome]
  | wakeLast wk ws hq hsh =>
    have ho : outcome (w', a) = (outcome (w, a)).wake [wk] := by
      simp [outcome, Outcome.wake, Shared.wake, hq, hsh]
    rw [show a.apply .tau = a from rfl, ho]
    simp [Pc.outcome]
  | update again l p s s' hc hmx hd hsh =>
    obtain ⟨hq, rfl⟩ := hm.allows
    obtain ⟨-, rfl⟩ := checkAddPermits_inv hc
    have ho : outcome (w', a.apply (.update i a.state (a.state + 2 * p))) =
        { outcome (w, a) with available := (outcome (w, a)).available + p } := by
      have hcl : isClosedState (a.state + 2 * p) = isClosedState a.state := isClosedState_eq (by omega)
      simp only [outcome, World.Ok.availablePermits_of_nil hok hq, World.Ok.isClosed_of_nil hok hq,
        World.Ok.availablePermits_of_nil hw.ok hq, World.Ok.isClosed_of_nil hw.ok hq, hd, hsh, Abs.apply,
        hcl]
      congr 1
      omega
    rw [ho]
    have hq' : (outcome (w, a)).queue = [] := hq
    cases l <;> simp [Pc.outcome, AddOwner.ret, distribute, hq']
  | reduce p ws x hmx hlt hd hsh =>
    obtain ⟨l, hq⟩ := List.head?_eq_some_iff.1 (hw.ok.inv.holder hmx).1
    rw [show a.apply .tau = a from rfl] at hok ⊢
    have hlt' : p < (((outcome (w, a)).wake ws).data x).permitsRemaining := hlt
    simp only [Pc.outcome, show (outcome (w, a)).queue = x :: l from hq, distribute]
    rw [if_pos hlt']
    simp only [outcome, Outcome.wake, hd, hsh, World.Ok.availablePermits_eq hw.ok hok,
      World.Ok.isClosed_eq hw.ok hok]
  | serve p ws x wk hmx hle hwk hlen hd hm' hsh =>
    obtain ⟨l, hq⟩ := List.head?_eq_some_iff.1 (hw.ok.inv.holder hmx).1
    rw [show a.apply .tau = a from rfl] at hok ⊢
    have hle' : (((outcome (w, a)).wake ws).data x).permitsRemaining ≤ p := hle
    have hwk' : (((outcome (w, a)).wake ws).data x).waker = some wk := hwk
    simp only [Pc.outcome, show (outcome (w, a)).queue = x :: l from hq]
    rw [distribute_cons hle', hwk']
    simp only [outcome, Outcome.wake, Outcome.pop, hd, hsh, World.Ok.availablePermits_eq hw.ok hok,
      World.Ok.isClosed_eq hw.ok hok, hq, List.tail_cons, Option.toList_some, List.append_assoc]
  | unwrap p ws x hmx hle hnone => exact absurd hnone (hs.waker_of_dequeued hw hi hmx)
  | remove p ws x l hq hr hr' hd hsh =>
    have hM := maxState_eq
    have hp : 2 * p ≤ maxState := h
    have hsp : shift p = 2 * p := shift_of_lt (by omega)
    have hne : a.queue ≠ [] := by simp [hq]
    have ho : outcome (w', a.apply (.remove x (shift p))) =
        { (outcome (w, a)).pop with available := if l = [] then p else 0 } := by
      have hq' : (a.apply (.remove x (shift p))).queue = l := by simp [Abs.apply, hq]
      cases l with
      | nil =>
        have hst : (a.apply (.remove x (shift p))).state = 2 * p := by simp [Abs.apply, hq, hsp]
        have hopen : isClosedState (2 * p) = false := isClosedState_eq_false.2 (by omega)
        simp only [outcome, Outcome.pop, hq', hq, hd, hsh, List.tail_cons, if_true,
          World.Ok.isClosed_of_ne_nil hw.ok hne, World.Ok.isClosed_of_nil hok hq',
          World.Ok.availablePermits_of_nil hok hq', hst, hopen]
        congr 1
        omega
      | cons y l =>
        have hne' : (a.apply (.remove x (shift p))).queue ≠ [] := by simp [hq']
        simp [outcome, Outcome.pop, hq', hq, hd, hsh, World.Ok.isClosed_of_ne_nil hw.ok hne,
          World.Ok.isClosed_of_ne_nil hok hne', World.Ok.availablePermits_of_ne_nil hok hne']
    have hav : (outcome (w, a)).available = 0 := World.Ok.availablePermits_of_ne_nil hw.ok hne
    have hq₀ : (outcome (w, a)).queue = x :: l := hq
    simp only [Pc.outcome, hr, hr', ho]
    cases l with
    | nil =>
      by_cases hp0 : p = 0 <;>
        simp [Outcome.rest, Outcome.wake, Outcome.pop, distribute, hq₀, hav, hp0]
    | cons y l => simp [Outcome.rest, Outcome.wake, Outcome.pop, hq₀, hav]
  | drop b x l hq hmx => exact absurd (hs.unlock hi) hmx

end Aiq.Semaphore
