import Aiq.Lib.Runs

/-!
# The token of a parker

What a `Parker` is for, without its words and locks: `unpark` leaves a token, of which there is at most
one, and `park` returns when it has taken it. `Token.next` is the automaton of the calls; in a sequence of
events that it accepts, every token that is taken has been left since the last one was taken
(`Token.unpark_of_take`), and every `park` that returns has taken one (`Token.take_of_done`).
-/

namespace Aiq.Parker

/-- What a step of a parker shows. -/
inductive Event
  | tau
  /-- The thread `i` calls `park`. -/
  | park (i : ℕ)
  /-- It takes the token. -/
  | take (i : ℕ)
  /-- Its `park` returns. -/
  | done (i : ℕ)
  /-- The call `j` of `unpark` leaves a token. -/
  | unpark (j : ℕ)
  deriving DecidableEq

/-- The token is taken. -/
def Event.isTake : Event → Bool
  | .take _ => true
  | _ => false

/-- The event is one of a call of `park`. -/
def Event.isPark : Event → Bool
  | .park _ | .take _ | .done _ => true
  | _ => false

/-- Whether there is a token, and the thread that is in `park`, with whether it has taken one. -/
structure Token where
  available : Bool
  call : Option (ℕ × Bool)

/-- No token, and no call. -/
def Token.init : Token := ⟨false, none⟩

/-- The events that are allowed, and what they do. -/
def Token.next (t : Token) : Event → Option Token
  | .tau => some t
  | .unpark _ => some { t with available := true }
  | .park i => if t.call = none then some { t with call := some (i, false) } else none
  | .take i => if t.available ∧ t.call = some (i, false) then some ⟨false, some (i, true)⟩ else none
  | .done i => if t.call = some (i, true) then some { t with call := none } else none

/-- The sequences of events that are accepted. -/
abbrev Token.Accepts : Token → List Event → Token → Prop := Lts.Run fun t e t' => t.next e = some t'

variable {t t' : Token} {es es₁ es₂ : List Event} {e : Event} {i : ℕ}

/-- The token that is there has been left since the last one was taken. -/
def Token.Left (es : List Event) : Prop :=
  ∃ l j m, es = l ++ .unpark j :: m ∧ ∀ e ∈ m, e.isTake = false

/-- The thread `i` has called `park`. -/
def Token.Called (es : List Event) (i : ℕ) : Prop :=
  ∃ l m, es = l ++ .park i :: m ∧ ∀ e ∈ m, e.isPark = false

/-- The thread `i` has called `park`, and taken a token. -/
def Token.Took (es : List Event) (i : ℕ) : Prop :=
  ∃ l m m', es = l ++ .park i :: (m ++ .take i :: m') ∧ (∀ e ∈ m, e.isPark = false) ∧
    ∀ e ∈ m', e.isPark = false

theorem Token.Left.snoc (h : Left es) (he : e.isTake = false) : Left (es ++ [e]) := by
  obtain ⟨l, j, m, rfl, hm⟩ := h
  refine ⟨l, j, m ++ [e], by simp, fun e' he' => ?_⟩
  rcases List.mem_append.1 he' with h | h
  · exact hm e' h
  · exact List.mem_singleton.1 h ▸ he

theorem Token.Called.snoc (h : Called es i) (he : e.isPark = false) : Called (es ++ [e]) i := by
  obtain ⟨l, m, rfl, hm⟩ := h
  refine ⟨l, m ++ [e], by simp, fun e' he' => ?_⟩
  rcases List.mem_append.1 he' with h | h
  · exact hm e' h
  · exact List.mem_singleton.1 h ▸ he

theorem Token.Took.snoc (h : Took es i) (he : e.isPark = false) : Took (es ++ [e]) i := by
  obtain ⟨l, m, m', rfl, hm, hm'⟩ := h
  refine ⟨l, m, m' ++ [e], by simp, hm, fun e' he' => ?_⟩
  rcases List.mem_append.1 he' with h | h
  · exact hm' e' h
  · exact List.mem_singleton.1 h ▸ he

/-- What the events so far have been. -/
structure Token.Explained (es : List Event) (t : Token) : Prop where
  left : t.available = true → Left es
  called : ∀ {i}, t.call = some (i, false) → Called es i
  took : ∀ {i}, t.call = some (i, true) → Took es i

theorem Token.Explained.step (h : Explained es t) (hs : t.next e = some t') :
    Explained (es ++ [e]) t' := by
  cases e with
  | tau =>
    obtain rfl := Option.some.inj hs
    exact ⟨fun h' => (h.left h').snoc rfl, fun h' => (h.called h').snoc rfl, fun h' => (h.took h').snoc rfl⟩
  | unpark j =>
    obtain rfl := Option.some.inj hs
    exact ⟨fun _ => ⟨es, j, [], rfl, by simp⟩, fun h' => (h.called h').snoc rfl,
      fun h' => (h.took h').snoc rfl⟩
  | park i =>
    simp only [next] at hs
    split at hs
    · obtain rfl := Option.some.inj hs
      refine ⟨fun h' => (h.left h').snoc rfl, fun h' => ?_, fun h' => by simp at h'⟩
      obtain ⟨rfl, -⟩ := Prod.mk.inj (Option.some.inj h')
      exact ⟨es, [], rfl, by simp⟩
    · simp at hs
  | take i =>
    simp only [next] at hs
    split at hs
    · rename_i hc
      obtain rfl := Option.some.inj hs
      refine ⟨fun h' => by simp at h', fun h' => by simp at h', fun h' => ?_⟩
      obtain ⟨rfl, -⟩ := Prod.mk.inj (Option.some.inj h')
      obtain ⟨l, m, rfl, hm⟩ := h.called hc.2
      exact ⟨l, m, [], by simp, hm, by simp⟩
    · simp at hs
  | done i =>
    simp only [next] at hs
    split at hs
    · obtain rfl := Option.some.inj hs
      exact ⟨fun h' => (h.left h').snoc rfl, fun h' => by simp at h', fun h' => by simp at h'⟩
    · simp at hs

theorem Token.explained (h : Accepts .init es t) : Explained es t :=
  Lts.Run.prefixed (P := Explained) h ⟨by simp [init], by simp [init], by simp [init]⟩
    fun _ _ _ _ _ hs h => h.step hs

/-- A token that is taken has been left since the last one was taken. -/
theorem Token.unpark_of_take (h : Accepts .init (es₁ ++ .take i :: es₂) t) : Left es₁ := by
  obtain ⟨t₁, h₁, h₂⟩ := Lts.Run.split h
  obtain ⟨t₂, hs, -⟩ := Lts.Run.cons_inv h₂
  simp only [next] at hs
  split at hs
  · exact (explained h₁).left (by simp_all)
  · simp at hs

/-- A `park` that returns has taken a token, and no other. -/
theorem Token.take_of_done (h : Accepts .init (es₁ ++ .done i :: es₂) t) : Took es₁ i := by
  obtain ⟨t₁, h₁, h₂⟩ := Lts.Run.split h
  obtain ⟨t₂, hs, -⟩ := Lts.Run.cons_inv h₂
  simp only [next] at hs
  split at hs
  · exact (explained h₁).took ‹_›
  · simp at hs

end Aiq.Parker
