import Mathlib.Data.List.Basic
import Mathlib.Data.List.Nodup
import Mathlib.Data.List.Infix

/-!
# Predecessors in a duplicate-free list

`l.predOf x` is the element right before `x` in `l`, if there is one. In a duplicate-free list it
determines the list up to its first element, and the three ways a linked list changes are three
rewriting rules for it: appending at the end (`predOf_append_left`, `predOf_append_self`) and
deleting an element (`predOf_erase`), which changes the predecessor of one element only, the
deleted element's successor. The successor itself is not a second function: `y` follows `x` when
`l.predOf y = some x`, such a `y` exists unless `x` is last (`exists_predOf_eq`), and it is unique
(`predOf_inj`).
-/

namespace List

variable {α : Type*} [DecidableEq α]

/-- The element right before the first occurrence of `x` that has one. -/
def predOf : List α → α → Option α
  | [], _ => none
  | [_], _ => none
  | a :: b :: l, x => if b = x then some a else predOf (b :: l) x

@[simp] theorem predOf_nil (x : α) : predOf [] x = none := rfl

@[simp] theorem predOf_singleton (a x : α) : predOf [a] x = none := rfl

theorem predOf_cons_cons (a b : α) (l : List α) (x : α) :
    predOf (a :: b :: l) x = if b = x then some a else predOf (b :: l) x := rfl

/-- A predecessor stands right before the element. -/
theorem exists_of_predOf {l : List α} {p x : α} (h : l.predOf x = some p) :
    ∃ l₁ l₂, l = l₁ ++ p :: x :: l₂ := by
  induction l with
  | nil => simp at h
  | cons a l ih =>
    cases l with
    | nil => simp at h
    | cons b l =>
      rw [predOf_cons_cons] at h
      split at h
      · rename_i hb
        obtain rfl : a = p := by simpa using h
        exact ⟨[], l, by rw [hb]; rfl⟩
      · obtain ⟨l₁, l₂, hl⟩ := ih h
        exact ⟨a :: l₁, l₂, by rw [hl]; rfl⟩

theorem predOf_mem {l : List α} {p x : α} (h : l.predOf x = some p) : p ∈ l := by
  obtain ⟨l₁, l₂, rfl⟩ := exists_of_predOf h
  simp

theorem mem_of_predOf {l : List α} {p x : α} (h : l.predOf x = some p) : x ∈ l := by
  obtain ⟨l₁, l₂, rfl⟩ := exists_of_predOf h
  simp

/-- The predecessor at a split of the list is the last element of the left part. -/
theorem predOf_append_cons {l₁ l₂ : List α} {x : α} (h : x ∉ l₁) :
    (l₁ ++ x :: l₂).predOf x = l₁.getLast?.or (predOf (x :: l₂) x) := by
  induction l₁ with
  | nil => simp
  | cons a l ih =>
    simp only [mem_cons, not_or] at h
    cases l with
    | nil => simp [predOf_cons_cons]
    | cons b l =>
      have hb : b ≠ x := fun e => h.2 (by simp [e])
      have := ih h.2
      simp only [cons_append] at this ⊢
      rw [predOf_cons_cons, if_neg hb, this]
      simp

theorem predOf_split {l₁ l₂ : List α} {x : α} (h : (l₁ ++ x :: l₂).Nodup) :
    (l₁ ++ x :: l₂).predOf x = l₁.getLast? := by
  have hx : x ∉ l₁ := fun hm => (nodup_append.1 h).2.2 x hm x (by simp) rfl
  have hx' : (x :: l₂).predOf x = none := by
    cases hp : (x :: l₂).predOf x with
    | none => rfl
    | some p =>
      obtain ⟨l₃, l₄, e⟩ := exists_of_predOf hp
      have hn : (x :: l₂).Nodup := (nodup_append.1 h).2.1
      cases l₃ with
      | nil =>
        obtain ⟨rfl, rfl⟩ : x = p ∧ l₂ = x :: l₄ := by simpa using e
        simp at hn
      | cons b l₃ =>
        obtain ⟨rfl, rfl⟩ : x = b ∧ l₂ = l₃ ++ p :: x :: l₄ := by simpa using e
        simp at hn
  rw [predOf_append_cons hx, hx']
  simp

theorem predOf_eq_some_iff {l : List α} (hl : l.Nodup) {p x : α} :
    l.predOf x = some p ↔ ∃ l₁ l₂, l = l₁ ++ p :: x :: l₂ := by
  refine ⟨exists_of_predOf, ?_⟩
  rintro ⟨l₁, l₂, rfl⟩
  have e : l₁ ++ p :: x :: l₂ = (l₁ ++ [p]) ++ x :: l₂ := by simp
  rw [e] at hl ⊢
  rw [predOf_split hl]
  simp

theorem predOf_eq_none_iff {l : List α} (hl : l.Nodup) {x : α} (hx : x ∈ l) :
    l.predOf x = none ↔ l.head? = some x := by
  obtain ⟨l₁, l₂, rfl⟩ := append_of_mem hx
  rw [predOf_split hl, getLast?_eq_none_iff]
  constructor
  · rintro rfl
    simp
  · intro h
    cases l₁ with
    | nil => rfl
    | cons a l₁ =>
      obtain rfl : a = x := by simpa using h
      simp at hl

theorem predOf_ne_self {l : List α} (hl : l.Nodup) (x : α) : l.predOf x ≠ some x := by
  intro h
  obtain ⟨l₁, l₂, rfl⟩ := exists_of_predOf h
  simp [nodup_append] at hl

/-- Distinct elements have distinct predecessors. -/
theorem predOf_inj {l : List α} (hl : l.Nodup) {x y : α} (hx : x ∈ l) (hy : y ∈ l)
    (h : l.predOf x = l.predOf y) : x = y := by
  cases hp : l.predOf x with
  | none =>
    have h₁ := (predOf_eq_none_iff hl hx).1 hp
    have h₂ := (predOf_eq_none_iff hl hy).1 (h ▸ hp)
    simpa using h₁.symm.trans h₂
  | some p =>
    obtain ⟨l₁, l₂, e₁⟩ := (predOf_eq_some_iff hl).1 hp
    obtain ⟨l₃, l₄, e₂⟩ := (predOf_eq_some_iff hl).1 (h ▸ hp)
    have hn₁ : p ∉ l₁ := fun hm => (nodup_append.1 (e₁ ▸ hl)).2.2 p hm p (by simp) rfl
    have hn₂ : p ∉ x :: l₂ := (nodup_cons.1 (nodup_append.1 (e₁ ▸ hl)).2.1).1
    have key := (append_cons_inj_of_notMem hn₁ hn₂).1 (e₁.symm.trans e₂)
    simpa using (cons.inj key.2.2).1

/-! ## Appending -/

theorem predOf_append_left {l r : List α} (hl : (l ++ r).Nodup) {x : α} (hx : x ∈ l) :
    (l ++ r).predOf x = l.predOf x := by
  obtain ⟨l₁, l₂, rfl⟩ := append_of_mem hx
  have h₁ : (l₁ ++ x :: l₂).Nodup := (nodup_append.1 hl).1
  rw [predOf_split h₁]
  rw [append_assoc, cons_append] at hl ⊢
  exact predOf_split hl

theorem predOf_append_self {l r : List α} {x : α} (hl : (l ++ x :: r).Nodup) :
    (l ++ x :: r).predOf x = l.getLast? :=
  predOf_split hl

/-! ## The last element -/

theorem predOf_ne_getLast {l : List α} (hl : l.Nodup) {x z : α} (hz : l.getLast? = some z) :
    l.predOf x ≠ some z := by
  intro h
  obtain ⟨l₁, l₂, rfl⟩ := exists_of_predOf h
  have hz' : z ∈ x :: l₂ := by
    have : (x :: l₂).getLast? = some z := by
      rw [← hz, show l₁ ++ z :: x :: l₂ = (l₁ ++ [z]) ++ x :: l₂ by simp, getLast?_append_cons]
    exact mem_of_getLast? this
  have hn : (z :: x :: l₂).Nodup := (nodup_append.1 hl).2.1
  exact (nodup_cons.1 hn).1 hz'

/-- Every element but the last is a predecessor. -/
theorem exists_predOf_eq {l : List α} (hl : l.Nodup) {x : α} (hx : x ∈ l)
    (hlast : l.getLast? ≠ some x) : ∃ y ∈ l, l.predOf y = some x := by
  obtain ⟨l₁, l₂, rfl⟩ := append_of_mem hx
  cases l₂ with
  | nil => exact absurd (by simp) hlast
  | cons y l₂ => exact ⟨y, by simp, (predOf_eq_some_iff hl).2 ⟨l₁, l₂, rfl⟩⟩

/-! ## Deleting -/

theorem erase_append_cons {l₁ l₂ : List α} {x : α} (h : (l₁ ++ x :: l₂).Nodup) :
    (l₁ ++ x :: l₂).erase x = l₁ ++ l₂ := by
  have hx : x ∉ l₁ := fun hm => (nodup_append.1 h).2.2 x hm x (by simp) rfl
  rw [erase_append_right _ hx, erase_cons_head]

/-- Deleting `n` hands its predecessor to its successor and changes nothing else. -/
theorem predOf_erase {l : List α} (hl : l.Nodup) {n x : α} (hx : x ∈ l) (hne : x ≠ n) :
    (l.erase n).predOf x = if l.predOf x = some n then l.predOf n else l.predOf x := by
  have hxe : x ∈ l.erase n := (mem_erase_of_ne hne).2 hx
  have hle : (l.erase n).Nodup := hl.erase n
  by_cases hn : n ∈ l
  · split
    · rename_i hp
      obtain ⟨l₁, l₂, rfl⟩ := exists_of_predOf hp
      have e : (l₁ ++ n :: x :: l₂).erase n = l₁ ++ x :: l₂ := erase_append_cons hl
      rw [e] at hle ⊢
      rw [predOf_split hle, predOf_split hl]
    · rename_i hp
      obtain ⟨l₁, l₂, rfl⟩ := append_of_mem hn
      rw [erase_append_cons hl] at hxe hle ⊢
      rcases mem_append.1 hxe with h₁ | h₂
      · rw [predOf_append_left hle h₁, predOf_append_left hl h₁]
      · obtain ⟨l₃, l₄, rfl⟩ := append_of_mem h₂
        cases hl₃ : l₃.getLast? with
        | none =>
          obtain rfl : l₃ = [] := getLast?_eq_none_iff.1 hl₃
          exact absurd ((predOf_eq_some_iff hl).2 ⟨l₁, l₄, rfl⟩) hp
        | some p =>
          have e₁ : l₁ ++ (l₃ ++ x :: l₄) = (l₁ ++ l₃) ++ x :: l₄ := by simp
          have e₂ : l₁ ++ n :: (l₃ ++ x :: l₄) = (l₁ ++ n :: l₃) ++ x :: l₄ := by simp
          rw [e₁] at hle ⊢
          rw [e₂] at hl ⊢
          rw [predOf_split hle, predOf_split hl]
          simp [getLast?_append, getLast?_cons, hl₃]
  · rw [erase_of_not_mem hn]
    split
    · rename_i hp
      exact absurd (predOf_mem hp) hn
    · rfl

/-- Deleting the last element leaves its predecessor last. -/
theorem getLast?_erase_getLast {l : List α} (hl : l.Nodup) {z : α} (hz : l.getLast? = some z) :
    (l.erase z).getLast? = l.predOf z := by
  obtain ⟨l₁, rfl⟩ := getLast?_eq_some_iff.1 hz
  rw [erase_append_cons hl, predOf_split hl, append_nil]

/-- Deleting another element leaves the last element last. -/
theorem getLast?_erase_of_ne {l : List α} {z n : α} (hz : l.getLast? = some z) (hne : z ≠ n) :
    (l.erase n).getLast? = some z := by
  obtain ⟨l₁, rfl⟩ := getLast?_eq_some_iff.1 hz
  by_cases hn : n ∈ l₁
  · rw [erase_append_left _ hn]
    simp
  · rw [erase_append_right _ hn, erase_of_not_mem (by simpa using fun e => hne e.symm)]
    simp

end List
