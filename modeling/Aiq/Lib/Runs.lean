import Mathlib.Data.List.Induction

/-!
# Runs of a labelled transition system

`Run R c ls c'`: the labels `ls`, in order, lead from `c` to `c'` by steps of the relation `R`. Runs
are composed and cut (`Run.append`, `Run.split`), what holds at the start and is kept by every step
holds at the end (`Run.prefixed`), and steps that lower a measure come to an end (`Run.exists_of_measure`).
-/

namespace Lts

variable {σ α : Type*}

/-- Finite runs, extended at the end. -/
inductive Run (R : σ → α → σ → Prop) (c : σ) : List α → σ → Prop
  | nil : Run R c [] c
  | snoc {ls : List α} {c₁ c₂ : σ} {l : α} : Run R c ls c₁ → R c₁ l c₂ → Run R c (ls ++ [l]) c₂

variable {R : σ → α → σ → Prop} {c c₁ c₂ : σ} {l : α} {ls ls₁ ls₂ : List α}

namespace Run

theorem single (h : R c l c₁) : Run R c [l] c₁ := .snoc .nil h

theorem append (h₁ : Run R c ls₁ c₁) (h₂ : Run R c₁ ls₂ c₂) : Run R c (ls₁ ++ ls₂) c₂ := by
  induction h₂ with
  | nil => simpa using h₁
  | snoc _ hl ih =>
    rw [← List.append_assoc]
    exact ih.snoc hl

theorem cons (h : R c l c₁) (hr : Run R c₁ ls c₂) : Run R c (l :: ls) c₂ :=
  (single h).append hr

theorem mono {R' : σ → α → σ → Prop} (hR : ∀ c l c', R c l c' → R' c l c') (h : Run R c ls c₁) :
    Run R' c ls c₁ := by
  induction h with
  | nil => exact .nil
  | snoc _ hl ih => exact ih.snoc (hR _ _ _ hl)

theorem map {τ : Type*} {R' : τ → α → τ → Prop} (f : σ → τ)
    (hR : ∀ c l c', R c l c' → R' (f c) l (f c')) (h : Run R c ls c₁) : Run R' (f c) ls (f c₁) := by
  induction h with
  | nil => exact .nil
  | snoc _ hl ih => exact ih.snoc (hR _ _ _ hl)

theorem snoc_inv (h : Run R c (ls ++ [l]) c₂) : ∃ c₁, Run R c ls c₁ ∧ R c₁ l c₂ := by
  generalize hm : ls ++ [l] = ms at h
  cases h with
  | nil => simp at hm
  | snoc hr hs =>
    obtain ⟨rfl, e⟩ := List.append_inj' hm rfl
    obtain rfl : l = _ := by simpa using e
    exact ⟨_, hr, hs⟩

theorem nil_inv (h : Run R c [] c₁) : c₁ = c := by
  generalize hm : ([] : List α) = ms at h
  cases h with
  | nil => rfl
  | snoc _ _ => simp at hm

theorem split (h : Run R c (ls₁ ++ ls₂) c₂) : ∃ c₁, Run R c ls₁ c₁ ∧ Run R c₁ ls₂ c₂ := by
  induction ls₂ using List.reverseRecOn generalizing c₂ with
  | nil => exact ⟨c₂, by simpa using h, .nil⟩
  | append_singleton ls₂ l ih =>
    rw [← List.append_assoc] at h
    obtain ⟨c₃, hr, hl⟩ := h.snoc_inv
    obtain ⟨c₁, h₁, h₂⟩ := ih hr
    exact ⟨c₁, h₁, h₂.snoc hl⟩

theorem cons_inv (h : Run R c (l :: ls) c₂) : ∃ c₁, R c l c₁ ∧ Run R c₁ ls c₂ := by
  obtain ⟨c₁, h₁, h₂⟩ : ∃ c₁, Run R c [l] c₁ ∧ Run R c₁ ls c₂ := split h
  obtain ⟨c₃, hr, hl⟩ : ∃ c₃, Run R c [] c₃ ∧ R c₃ l c₁ := snoc_inv h₁
  exact ⟨c₁, hr.nil_inv ▸ hl, h₂⟩

theorem single_inv (h : Run R c [l] c₁) : R c l c₁ := by
  obtain ⟨c₂, hl, hr⟩ := h.cons_inv
  exact hr.nil_inv ▸ hl

/-- The induction rule for runs: what holds at the start and is kept by every step, together with the
labels so far, holds at the end. -/
theorem prefixed {P : List α → σ → Prop} (h : Run R c ls c₁) (h₀ : P [] c)
    (hP : ∀ ks l c₁ c₂, l ∈ ls → R c₁ l c₂ → P ks c₁ → P (ks ++ [l]) c₂) : P ls c₁ := by
  induction h with
  | nil => exact h₀
  | snoc _ hl ih =>
    refine hP _ _ _ _ (by simp) hl (ih fun ks l c₁ c₂ hmem => ?_)
    exact hP ks l c₁ c₂ (List.mem_append_left _ hmem)

/-- What holds at the start and in the states that the steps lead to holds where they begin. -/
theorem sources {P : σ → Prop} (h : Run (fun c l c' => R c l c' ∧ P c') c ls c₁) (h₀ : P c) :
    Run (fun c l c' => R c l c' ∧ P c) c ls c₁ ∧ P c₁ := by
  induction h with
  | nil => exact ⟨.nil, h₀⟩
  | snoc _ hl ih => exact ⟨ih.1.snoc ⟨hl.1, ih.2⟩, hl.2⟩

/-- What holds where the steps begin and at the end holds in the states that they lead to. -/
theorem targets {P : σ → Prop} (h : Run (fun c l c' => R c l c' ∧ P c) c ls c₁) (h₁ : P c₁) :
    Run (fun c l c' => R c l c' ∧ P c') c ls c₁ := by
  induction h with
  | nil => exact .nil
  | snoc _ hl ih => exact (ih hl.2).snoc ⟨hl.1, h₁⟩

/-- What makes steps that lower a measure, until it is done, is done after some run. -/
theorem exists_of_measure {I D : σ → Prop} (μ : σ → ℕ) (hc : I c)
    (h : ∀ c, I c → ∃ l c', R c l c' ∧ (D c' ∨ I c' ∧ μ c' < μ c)) : ∃ ls c', Run R c ls c' ∧ D c' := by
  induction hm : μ c using Nat.strongRecOn generalizing c with
  | ind m ih =>
    obtain ⟨l, c₁, hl, hd | ⟨hi, hlt⟩⟩ := h c hc
    · exact ⟨[l], c₁, .single hl, hd⟩
    · obtain ⟨ls, c₂, hr, hd⟩ := ih (μ c₁) (hm ▸ hlt) hi rfl
      exact ⟨l :: ls, c₂, .cons hl hr, hd⟩

end Run

end Lts
