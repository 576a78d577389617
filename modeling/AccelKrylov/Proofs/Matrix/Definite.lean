import Mathlib.LinearAlgebra.Matrix.DotProduct
import Mathlib.LinearAlgebra.Matrix.ToLin
import AccelKrylov.Proofs.Matrix.Linear

/-! Products as linear maps on vectors of a fixed length. A matrix is definite if its products are; then so is
the linear map, with every vector of the length at once. -/

namespace AccelKrylov

/-! ### Vectors of a fixed length -/

namespace Vec

variable {α : Type} {n : Nat} {x y : Array α}

/-- The entries of a vector of length `n`. -/
def entries [Zero α] (n : Nat) (x : Array α) : Fin n → α := fun i => x.getD i 0

@[simp] theorem entries_ofFn [Zero α] (v : Fin n → α) : entries n (Array.ofFn v) = v := by
  funext i
  simp [entries]

theorem entries_eq_zero_iff [Zero α] (hx : x.size = n) : entries n x = 0 ↔ x = zeros x.size := by
  constructor
  · intro h
    refine ext (size_zeros _).symm fun i hi => ?_
    rw [getD_zeros]
    exact congrFun h ⟨i, hx ▸ hi⟩
  · intro h
    funext i
    rw [entries, h, getD_zeros, Pi.zero_apply]

section
variable [Semiring α]

theorem dot_eq_dotProduct (hx : x.size = n) (hy : y.size = n) : dot x y = entries n x ⬝ᵥ entries n y := by
  rw [dot_eq_sum (hx.trans hy.symm), hx, Finset.sum_range]
  rfl

theorem entries_addScaled (h : x.size = y.size) (s : α) :
    entries n (addScaled s x y) = entries n y + s • entries n x := by
  funext i
  exact getD_addScaled h s i

theorem entries_scaleAdd (h : x.size = y.size) (s : α) :
    entries n (scaleAdd x s y) = entries n x + s • entries n y := by
  funext i
  exact getD_scaleAdd h s i

end

end Vec

/-! ### Definite maps -/

section
variable {α : Type} [Field α] [LinearOrder α] {n : Nat}

/-- A map like the product with a symmetric positive definite matrix. -/
structure IsDefinite (A : (Fin n → α) →ₗ[α] Fin n → α) : Prop where
  symmetric : ∀ u v, u ⬝ᵥ A v = A u ⬝ᵥ v
  positive : ∀ u, u ≠ 0 → 0 < u ⬝ᵥ A u

theorem dotProduct_self_pos [IsStrictOrderedRing α] {v : Fin n → α} (h : v ≠ 0) : 0 < v ⬝ᵥ v := by
  have hnonneg : 0 ≤ v ⬝ᵥ v := Finset.sum_nonneg fun i _ => mul_self_nonneg (v i)
  exact lt_of_le_of_ne hnonneg fun hzero => h (dotProduct_self_eq_zero.mp hzero.symm)

end

/-! ### Definite matrices -/

namespace Matrix

variable {α : Type} {m : Matrix α} {n : Nat}

/-- The product with a square matrix as a linear map. -/
def linear [CommSemiring α] (m : Matrix α) (n : Nat) : (Fin n → α) →ₗ[α] Fin n → α :=
  (Matrix.of fun i j : Fin n => m.coefficient i j).mulVecLin

theorem entries_product [CommSemiring α] (hrows : m.rows.toNat = n) (hcols : m.cols.toNat = n)
    {x ax : Array α} (h : m.product x = .ok ax) :
    Vec.entries n ax = m.linear n (Vec.entries n x) := by
  obtain ⟨-, -, -, hentries⟩ := product_eq_ok_iff.mp h
  funext i
  refine (hentries i (hrows.symm ▸ i.isLt)).trans ?_
  rw [hcols, Finset.sum_range]
  rfl

/-- The products of a matrix are those of a symmetric positive definite linear map. -/
structure IsPositiveDefinite [Zero α] [Add α] [Mul α] [LT α] (m : Matrix α) : Prop where
  symmetric : ∀ {x y ax ay : Array α}, m.product x = .ok ax → m.product y = .ok ay →
    Vec.dot y ax = Vec.dot ay x
  positive : ∀ {x ax : Array α}, m.product x = .ok ax → x ≠ Vec.zeros x.size → 0 < Vec.dot x ax

theorem IsPositiveDefinite.linear [Field α] [LinearOrder α] (h : m.IsPositiveDefinite)
    (hreal : m.kind = .real) (hrows : m.rows.toNat = n) (hcols : m.cols.toNat = n) :
    IsDefinite (m.linear n) := by
  have hproduct (v : Fin n → α) : ∃ av, m.product (Array.ofFn v) = .ok av ∧ av.size = n ∧
      Vec.entries n av = m.linear n v := by
    have hsize : (Array.ofFn v).size = m.cols.toNat := Array.size_ofFn.trans hcols.symm
    obtain ⟨av, hav⟩ := exists_product hreal hsize
    refine ⟨av, hav, (product_eq_ok_iff.mp hav).2.2.1.trans hrows, ?_⟩
    rw [entries_product hrows hcols hav, Vec.entries_ofFn]
  constructor
  · intro u v
    obtain ⟨au, hau, hausize, hauentries⟩ := hproduct u
    obtain ⟨av, hav, havsize, haventries⟩ := hproduct v
    have hsymmetric := h.symmetric hav hau
    rwa [Vec.dot_eq_dotProduct Array.size_ofFn havsize, Vec.dot_eq_dotProduct hausize Array.size_ofFn,
      hauentries, haventries, Vec.entries_ofFn, Vec.entries_ofFn] at hsymmetric
  · intro u hu
    obtain ⟨au, hau, hausize, hauentries⟩ := hproduct u
    have hne : Array.ofFn u ≠ Vec.zeros (Array.ofFn u).size := by
      intro hzero
      rw [← Vec.entries_eq_zero_iff Array.size_ofFn, Vec.entries_ofFn] at hzero
      exact hu hzero
    have hpositive := h.positive hau hne
    rwa [Vec.dot_eq_dotProduct Array.size_ofFn hausize, hauentries, Vec.entries_ofFn] at hpositive

theorem IsPositiveDefinite.linear_of_isSystem [Field α] [LinearOrder α] {b : Array α}
    (h : m.IsPositiveDefinite) (hsystem : m.IsSystem b) (hb : b.size = n) : IsDefinite (m.linear n) := by
  have hrows : m.rows.toNat = n := hsystem.size.symm.trans hb
  exact h.linear hsystem.real hrows (hsystem.square ▸ hrows)

end Matrix

end AccelKrylov
