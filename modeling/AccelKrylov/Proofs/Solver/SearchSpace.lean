import Mathlib.LinearAlgebra.FiniteDimensional.Lemmas
import Mathlib.Tactic.FieldSimp
import Mathlib.Tactic.LinearCombination
import AccelKrylov.Proofs.Matrix.Definite

/-! The spaces that conjugate directions span. A step of the method leaves a residual that is orthogonal to all
directions so far, and takes a direction that is conjugate to them; a direction like that is new, so the space
grows with every step, and there are no more steps than dimensions. -/

namespace AccelKrylov

open Submodule (span mem_sup_left mem_sup_right mem_span_singleton_self)

variable {α : Type} [Field α] {n : Nat} {A : (Fin n → α) →ₗ[α] Fin n → α}
  {V : Submodule α (Fin n → α)} {r p r' : Fin n → α}

/-- The space of the directions so far, with a residual `r` that is left and the direction `p` to search
next. -/
structure SearchSpace (A : (Fin n → α) →ₗ[α] Fin n → α) (V : Submodule α (Fin n → α))
    (r p : Fin n → α) : Prop where
  unsolved : r ≠ 0
  orthogonal : ∀ v ∈ V, r ⬝ᵥ v = 0
  conjugate : ∀ v ∈ V, p ⬝ᵥ A v = 0
  direction : p - r ∈ V
  /-- The next direction makes up for all that the map leads out of the space. -/
  products : ∀ v ∈ V, A v ∈ V ⊔ span α {p}

theorem mem_sup_span {v : Fin n → α} (hv : v ∈ V ⊔ span α {p}) : ∃ u ∈ V, ∃ c : α, v = u + c • p := by
  obtain ⟨u, hu, w, hw, rfl⟩ := Submodule.mem_sup.mp hv
  obtain ⟨c, rfl⟩ := Submodule.mem_span_singleton.mp hw
  exact ⟨u, hu, c, rfl⟩

theorem self_mem_sup_span (V : Submodule α (Fin n → α)) (p : Fin n → α) :
    p ∈ V ⊔ span α {p} := mem_sup_right (mem_span_singleton_self p)

namespace SearchSpace

theorem first (h : r ≠ 0) : SearchSpace A ⊥ r r where
  unsolved := h
  orthogonal := by simp
  conjugate := by simp
  direction := by simp
  products := by simp

/-- The direction differs from the residual only where the residual has nothing. -/
theorem dot_direction (h : SearchSpace A V r p) : r ⬝ᵥ p = r ⬝ᵥ r := by
  have hnone := h.orthogonal _ h.direction
  rw [dotProduct_sub] at hnone
  exact sub_eq_zero.mp hnone

theorem residual_mem (h : SearchSpace A V r p) : r ∈ V ⊔ span α {p} := by
  have hsub := Submodule.sub_mem _ (self_mem_sup_span V p) (mem_sup_left h.direction)
  rwa [sub_sub_cancel] at hsub

/-! ### Steps -/

/-- How far a step goes. -/
def stepLength (A : (Fin n → α) →ₗ[α] Fin n → α) (r p : Fin n → α) : α := r ⬝ᵥ r / p ⬝ᵥ A p

/-- What a step leaves. -/
def residual (A : (Fin n → α) →ₗ[α] Fin n → α) (r p : Fin n → α) : Fin n → α :=
  r - stepLength A r p • A p

/-- The next direction, once a residual `r'` is left. -/
def turned (r p r' : Fin n → α) : Fin n → α := r' + (r' ⬝ᵥ r' / r ⬝ᵥ r) • p

/-- What the map makes of the direction is what the step takes from the residual. -/
theorem smul_product (hr' : r' = residual A r p) : stepLength A r p • A p = r - r' := by
  rw [hr', residual, sub_sub_cancel]

/-! ### Definite maps -/

section
variable [LinearOrder α] [IsStrictOrderedRing α]

theorem direction_ne_zero (h : SearchSpace A V r p) : p ≠ 0 := by
  rintro rfl
  have hpos := dotProduct_self_pos h.unsolved
  rw [← h.dot_direction, dotProduct_zero] at hpos
  exact lt_irrefl _ hpos

theorem curvature_pos (hA : IsDefinite A) (h : SearchSpace A V r p) : 0 < p ⬝ᵥ A p :=
  hA.positive p h.direction_ne_zero

/-- A direction that is conjugate to the space is not in it. -/
theorem direction_notMem (hA : IsDefinite A) (h : SearchSpace A V r p) : p ∉ V := by
  intro hp
  have hpos := h.curvature_pos hA
  rw [h.conjugate p hp] at hpos
  exact lt_irrefl _ hpos

/-- The space grows with its next direction. -/
theorem finrank_lt (hA : IsDefinite A) (h : SearchSpace A V r p) :
    Module.finrank α V < Module.finrank α ↥(V ⊔ span α {p}) := by
  apply Submodule.finrank_lt_finrank_of_lt
  refine lt_of_le_of_ne le_sup_left fun heq => h.direction_notMem hA ?_
  rw [heq]
  exact self_mem_sup_span V p

theorem orthogonal_step (hA : IsDefinite A) (h : SearchSpace A V r p) (hr' : r' = residual A r p) :
    ∀ v ∈ V ⊔ span α {p}, r' ⬝ᵥ v = 0 := by
  have hproduct (v : Fin n → α) : r' ⬝ᵥ v = r ⬝ᵥ v - stepLength A r p * (p ⬝ᵥ A v) := by
    rw [hr', residual, sub_dotProduct, smul_dotProduct, ← hA.symmetric, smul_eq_mul]
  have hdirection : r' ⬝ᵥ p = 0 := by
    rw [hproduct, h.dot_direction, stepLength, div_mul_cancel₀ _ (h.curvature_pos hA).ne', sub_self]
  intro v hv
  obtain ⟨u, hu, c, rfl⟩ := mem_sup_span hv
  have hbefore : r' ⬝ᵥ u = 0 := by
    rw [hproduct, h.orthogonal u hu, h.conjugate u hu, mul_zero, sub_zero]
  rw [dotProduct_add, dotProduct_smul, hbefore, hdirection, smul_zero, add_zero]

theorem conjugate_step (hA : IsDefinite A) (h : SearchSpace A V r p) (hr' : r' = residual A r p) :
    ∀ v ∈ V ⊔ span α {p}, turned r p r' ⬝ᵥ A v = 0 := by
  have horthogonal := h.orthogonal_step hA hr'
  have hdirection : turned r p r' ⬝ᵥ A p = 0 := by
    have hcurvature := (h.curvature_pos hA).ne'
    have hlength := (dotProduct_self_pos h.unsolved).ne'
    -- the residuals before and after are orthogonal, so the new one has all of itself in their difference
    have hproduct : stepLength A r p * (r' ⬝ᵥ A p) = -(r' ⬝ᵥ r') := by
      rw [← smul_eq_mul, ← dotProduct_smul, smul_product hr', dotProduct_sub,
        horthogonal r h.residual_mem, zero_sub]
    rw [stepLength] at hproduct
    rw [turned, add_dotProduct, smul_dotProduct, smul_eq_mul]
    field_simp at hproduct ⊢
    linear_combination hproduct
  intro v hv
  obtain ⟨u, hu, c, rfl⟩ := mem_sup_span hv
  have hbefore : turned r p r' ⬝ᵥ A u = 0 := by
    rw [turned, add_dotProduct, smul_dotProduct, horthogonal _ (h.products u hu), h.conjugate u hu,
      smul_zero, add_zero]
  rw [map_add, map_smul, dotProduct_add, dotProduct_smul, hbefore, hdirection, smul_zero, add_zero]

theorem products_step (hA : IsDefinite A) (h : SearchSpace A V r p) (hr' : r' = residual A r p) :
    ∀ v ∈ V ⊔ span α {p}, A v ∈ V ⊔ span α {p} ⊔ span α {turned r p r'} := by
  have hleft : r' ∈ V ⊔ span α {p} ⊔ span α {turned r p r'} := by
    have hsub := Submodule.sub_mem _ (self_mem_sup_span (V ⊔ span α {p}) (turned r p r'))
      (mem_sup_left (Submodule.smul_mem _ (r' ⬝ᵥ r' / r ⬝ᵥ r) (self_mem_sup_span V p)))
    rwa [turned, add_sub_cancel_right] at hsub
  have hdirection : A p ∈ V ⊔ span α {p} ⊔ span α {turned r p r'} := by
    have hne : stepLength A r p ≠ 0 :=
      div_ne_zero (dotProduct_self_pos h.unsolved).ne' (h.curvature_pos hA).ne'
    apply (Submodule.smul_mem_iff _ hne).mp
    rw [smul_product hr']
    exact Submodule.sub_mem _ (mem_sup_left h.residual_mem) hleft
  intro v hv
  obtain ⟨u, hu, c, rfl⟩ := mem_sup_span hv
  rw [map_add, map_smul]
  exact Submodule.add_mem _ (mem_sup_left (h.products u hu)) (Submodule.smul_mem _ c hdirection)

/-- A step that does not solve the system leads to a larger space of the same kind. -/
theorem step (hA : IsDefinite A) (h : SearchSpace A V r p) (hr' : r' = residual A r p)
    (hunsolved : r' ≠ 0) : SearchSpace A (V ⊔ span α {p}) r' (turned r p r') where
  unsolved := hunsolved
  orthogonal := h.orthogonal_step hA hr'
  conjugate := h.conjugate_step hA hr'
  direction := by
    rw [turned, add_sub_cancel_left]
    exact Submodule.smul_mem _ _ (self_mem_sup_span V p)
  products := h.products_step hA hr'

/-- While a system is unsolved there is a direction left that is not in the space. -/
theorem finrank_lt_dimension (hA : IsDefinite A) (h : SearchSpace A V r p) : Module.finrank α V < n := by
  have hle := Submodule.finrank_le (V ⊔ span α {p})
  rw [Module.finrank_fin_fun] at hle
  exact Nat.lt_of_lt_of_le (h.finrank_lt hA) hle

end

end SearchSpace

end AccelKrylov
