import Mathlib.Data.List.Basic
import Mathlib.Data.List.Count

/-!
# Ledgers

A ledger is a list of tokens, each with the place where it is. `move p q` moves the tokens at the place `p`
to `q`; no token is lost (`length_move`), none of them is at `p` afterwards (`count_move_source`), and all of
them are at `q` (`count_move_target`). A ledger accounts for what is at the places (`Accounts`) as long as
it follows every change (`Accounts.mono`, `Accounts.move`, `Accounts.append`).
-/

namespace Ledger

variable {P : Type*} [DecidableEq P]

/-- The tokens at `p` move to `q`. -/
def move (p q : P) (L : List P) : List P := L.map fun r => if r = p then q else r

variable {p q r : P} {L : List P}

@[simp] theorem move_nil : move p q [] = [] := rfl

@[simp] theorem move_cons : move p q (r :: L) = (if r = p then q else r) :: move p q L := rfl

theorem mem_move : r ∈ move p q L ↔ r ∈ L ∧ r ≠ p ∨ r = q ∧ p ∈ L := by
  induction L with
  | nil => simp
  | cons s L ih =>
    rw [move_cons, List.mem_cons, ih, List.mem_cons, List.mem_cons]
    split <;> grind

theorem not_mem_move_source (h : p ≠ q) : p ∉ move p q L := by
  rw [mem_move]
  tauto

theorem mem_move_of_ne (hp : r ≠ p) (hq : r ≠ q) : r ∈ move p q L ↔ r ∈ L := by
  rw [mem_move]
  tauto

theorem mem_move_target (h : p ≠ q) : q ∈ move p q L ↔ q ∈ L ∨ p ∈ L := by
  rw [mem_move]
  grind

theorem count_move_source (h : p ≠ q) : (move p q L).count p = 0 :=
  List.count_eq_zero.2 (not_mem_move_source h)

theorem count_move_of_ne (hp : r ≠ p) (hq : r ≠ q) : (move p q L).count r = L.count r := by
  induction L with
  | nil => rfl
  | cons s L ih =>
    rw [move_cons, List.count_cons, List.count_cons, ih]
    by_cases hs : s = p
    · subst hs
      simp [Ne.symm hp, Ne.symm hq]
    · simp [hs]

theorem count_move_target (h : p ≠ q) : (move p q L).count q = L.count q + L.count p := by
  induction L with
  | nil => rfl
  | cons s L ih =>
    rw [move_cons, List.count_cons, List.count_cons, List.count_cons, ih]
    by_cases hs : s = p
    · subst hs
      simp [h]
      omega
    · simp [hs]
      omega

/-! ## Accounts -/

/-- The ledger says what there is: something is at each place with a token, there is a token at each place
of the kind `Own` where something is, and at most one at a place of the kind `One`. -/
structure Accounts (At Own One : P → Prop) (L : List P) : Prop where
  sound : ∀ {p}, p ∈ L → At p
  complete : ∀ {p}, Own p → At p → p ∈ L
  single : ∀ {p}, One p → L.count p ≤ 1

variable {At At' Own One : P → Prop}

theorem Accounts.nil (h : ∀ p, Own p → ¬ At p) : Accounts At Own One [] where
  sound := fun h => by simp at h
  complete := fun ho ha => absurd ha (h _ ho)
  single := fun _ => by simp

/-- Nothing goes away, and nothing comes that there is a token for. -/
theorem Accounts.mono (h : Accounts At Own One L) (hs : ∀ r, At r → At' r)
    (hc : ∀ r, Own r → At' r → At r) : Accounts At' Own One L where
  sound := fun hr => hs _ (h.sound hr)
  complete := fun ho ha => h.complete ho (hc _ ho ha)
  single := h.single

/-- What is at `p` goes to `q`. -/
theorem Accounts.move (h : Accounts At Own One L) (hpq : p ≠ q) (hs : ∀ r, r ≠ p → At r → At' r)
    (hc : ∀ r, Own r → r ≠ q → At' r → At r ∧ r ≠ p) (hq : At p → At' q)
    (hown : Own q → At p ∧ Own p) (hone : One q → One p ∧ ¬ At q) :
    Accounts At' Own One (move p q L) where
  sound := fun {r} hr => by
    rcases mem_move.1 hr with ⟨hr, hrp⟩ | ⟨rfl, hp⟩
    · exact hs r hrp (h.sound hr)
    · exact hq (h.sound hp)
  complete := fun {r} ho ha => by
    by_cases hrq : r = q
    · subst hrq
      obtain ⟨hp, hop⟩ := hown ho
      exact (mem_move_target hpq).2 (.inr (h.complete hop hp))
    · obtain ⟨hr, hrp⟩ := hc r ho hrq ha
      exact (mem_move_of_ne hrp hrq).2 (h.complete ho hr)
  single := fun {r} ho => by
    by_cases hrp : r = p
    · subst hrp
      simp [count_move_source hpq]
    · by_cases hrq : r = q
      · subst hrq
        obtain ⟨hop, hr⟩ := hone ho
        have hzero : L.count r = 0 := List.count_eq_zero.2 fun hm => hr (h.sound hm)
        have hle := h.single hop
        rw [count_move_target hpq]
        omega
      · rw [count_move_of_ne hrp hrq]
        exact h.single ho

/-- Something new comes to `q`. -/
theorem Accounts.append (h : Accounts At Own One L) (hs : ∀ r, At r → At' r)
    (hc : ∀ r, Own r → r ≠ q → At' r → At r) (hq : At' q) (hone : ¬ At q) :
    Accounts At' Own One (L ++ [q]) where
  sound := fun {r} hr => by
    rcases List.mem_append.1 hr with hr | hr
    · exact hs r (h.sound hr)
    · obtain rfl := List.mem_singleton.1 hr
      exact hq
  complete := fun {r} ho ha => by
    by_cases hrq : r = q
    · exact List.mem_append_right _ (List.mem_singleton.2 hrq)
    · exact List.mem_append_left _ (h.complete ho (hc r ho hrq ha))
  single := fun {r} ho => by
    rw [List.count_append]
    by_cases hrq : r = q
    · subst hrq
      have hzero : L.count r = 0 := List.count_eq_zero.2 fun hm => hone (h.sound hm)
      simp [hzero]
    · simpa [List.count_singleton, Ne.symm hrq] using h.single ho

end Ledger
