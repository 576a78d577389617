import AccelKrylov.Proofs.Matrix.Product
import AccelKrylov.Proofs.Vector

/-! Products as linear maps, in exact arithmetic: entry by entry they are sums of coefficients times entries,
so a product moves along with its vector, and the residual of a system with it. -/

namespace AccelKrylov.Matrix

variable {α : Type} {m : Matrix α}

/-! ### Entries of products -/

section
variable [Semiring α] {x y : Array α}

theorem product_eq_ok_iff : m.product x = .ok y ↔ m.kind = .real ∧ x.size = m.cols.toNat ∧
    y.size = m.rows.toNat ∧ ∀ i < m.rows.toNat,
      y.getD i 0 = ∑ j ∈ Finset.range m.cols.toNat, m.coefficient i j * x.getD j 0 := by
  have hentries {y : Array α} (h : m.product x = .ok y) (i : Nat) : y[i]? = if i < m.rows.toNat then
      some (∑ j ∈ Finset.range m.cols.toNat, m.coefficient i j * x.getD j 0) else none := by
    have hstart : m.allRows.start.toNat + i = i := Nat.zero_add i
    rw [getElem?_productRows h, hstart]
    rfl
  constructor
  · intro h
    obtain ⟨hreal, hx, -, -⟩ := productRows_eq_ok.mp h
    exact ⟨hreal, hx, Vec.getElem?_eq_iff.mp (hentries h)⟩
  · rintro ⟨hreal, hx, hy⟩
    obtain ⟨y', hproduct⟩ := exists_product hreal hx
    refine hproduct.trans (congrArg Except.ok (Array.ext_getElem? fun i => ?_))
    rw [hentries hproduct, Vec.getElem?_eq_iff.mpr hy]

/-- What some rows contribute to the transposed product. -/
theorem transposeProductRows_eq_ok_iff {range : RowRange} : m.transposeProductRows range x = .ok y ↔
    m.kind = .real ∧ x.size = m.rows.toNat ∧ range.stop ≤ m.rows ∧ y.size = m.cols.toNat ∧
      ∀ j < m.cols.toNat, y.getD j 0 =
        ∑ i ∈ Finset.Ico range.start.toNat range.stop.toNat, m.coefficient i j * x.getD i 0 := by
  constructor
  · intro h
    obtain ⟨hreal, hx, hstop, -⟩ := transposeProductRows_eq_ok.mp h
    exact ⟨hreal, hx, hstop, Vec.getElem?_eq_iff.mp (transposeProductRows_eq_sum h)⟩
  · rintro ⟨hreal, hx, hstop, hy⟩
    have hproduct := transposeProductRows_eq_ok.mpr ⟨hreal, hx, hstop, rfl⟩
    refine hproduct.trans (congrArg Except.ok (Array.ext_getElem? fun j => ?_))
    rw [transposeProductRows_eq_sum hproduct, Vec.getElem?_eq_iff.mpr hy]

theorem transposeProduct_eq_ok_iff : m.transposeProduct x = .ok y ↔ m.kind = .real ∧
    x.size = m.rows.toNat ∧ y.size = m.cols.toNat ∧ ∀ j < m.cols.toNat,
      y.getD j 0 = ∑ i ∈ Finset.range m.rows.toNat, m.coefficient i j * x.getD i 0 := by
  have hall : m.allRows.stop ≤ m.rows := UInt64.le_refl m.rows
  rw [transposeProduct, transposeProductRows_eq_ok_iff, and_iff_right hall, Finset.range_eq_Ico]
  rfl

theorem product_zeros (hreal : m.kind = .real) :
    m.product (Vec.zeros m.cols.toNat) = .ok (Vec.zeros m.rows.toNat) := by
  refine product_eq_ok_iff.mpr ⟨hreal, Vec.size_zeros _, Vec.size_zeros _, fun i _ => ?_⟩
  simp only [Vec.getD_zeros, mul_zero, Finset.sum_const_zero]

end

/-! ### Residuals -/

section
variable [CommRing α] {b x p r ax ap : Array α}

/-- The product follows a move of the vector. -/
theorem product_addScaled (hx : m.product x = .ok ax) (hp : m.product p = .ok ap) (s : α) :
    m.product (Vec.addScaled s p x) = .ok (Vec.addScaled s ap ax) := by
  obtain ⟨hreal, hxsize, haxsize, hax⟩ := product_eq_ok_iff.mp hx
  obtain ⟨-, hpsize, hapsize, hap⟩ := product_eq_ok_iff.mp hp
  refine product_eq_ok_iff.mpr ⟨hreal, by rw [Vec.size_addScaled, hxsize],
    by rw [Vec.size_addScaled, haxsize], fun i hi => ?_⟩
  rw [Vec.getD_addScaled (hapsize.trans haxsize.symm), hax i hi, hap i hi, Finset.mul_sum,
    ← Finset.sum_add_distrib]
  refine Finset.sum_congr rfl fun j _ => ?_
  rw [Vec.getD_addScaled (hpsize.trans hxsize.symm)]
  ring

/-- The residual `b - A x` of a vector. -/
def residual (m : Matrix α) (b x : Array α) : Except ProductError (Array α) :=
  (m.product x).map (Array.zipWith (· - ·) b)

theorem residual_eq_ok_iff : m.residual b x = .ok r ↔
    ∃ ax, m.product x = .ok ax ∧ r = Array.zipWith (· - ·) b ax := by
  rw [residual]
  cases m.product x with
  | error e => simp [Except.map]
  | ok ax => simp [Except.map, eq_comm]

/-- The equations `A x = b` are real, and as many as the unknowns. -/
structure IsSystem (m : Matrix α) (b : Array α) : Prop where
  real : m.kind = .real
  square : m.rows = m.cols
  size : b.size = m.rows.toNat

theorem IsSystem.residual_zeros (h : m.IsSystem b) : m.residual b (Vec.zeros b.size) = .ok b := by
  have hzeros := product_zeros h.real
  rw [← h.square, ← h.size] at hzeros
  refine residual_eq_ok_iff.mpr ⟨_, hzeros, Vec.ext ?_ fun i _ => ?_⟩
  · rw [Array.size_zipWith, Vec.size_zeros, Nat.min_self]
  · rw [Vec.getD_sub (Vec.size_zeros _).symm, Vec.getD_zeros, sub_zero]

/-- The residual follows a move of the vector, in the opposite direction of its product. -/
theorem residual_addScaled (hb : b.size = m.rows.toNat) (hx : m.residual b x = .ok r)
    (hp : m.product p = .ok ap) (s : α) :
    m.residual b (Vec.addScaled s p x) = .ok (Vec.addScaled (-s) ap r) := by
  obtain ⟨ax, hax, rfl⟩ := residual_eq_ok_iff.mp hx
  have haxsize := (product_eq_ok_iff.mp hax).2.2.1
  have hapsize := (product_eq_ok_iff.mp hp).2.2.1
  have hsize : (Array.zipWith (· - ·) b ax).size = m.rows.toNat := by
    rw [Array.size_zipWith, hb, haxsize, Nat.min_self]
  refine residual_eq_ok_iff.mpr ⟨_, product_addScaled hax hp s, Vec.ext ?_ fun i _ => ?_⟩
  · rw [Vec.size_addScaled, hsize, Array.size_zipWith, Vec.size_addScaled, hb, haxsize, Nat.min_self]
  · rw [Vec.getD_addScaled (hapsize.trans hsize.symm), Vec.getD_sub (hb.trans haxsize.symm),
      Vec.getD_sub (by rw [Vec.size_addScaled, hb, haxsize]),
      Vec.getD_addScaled (hapsize.trans haxsize.symm)]
    ring

end

end AccelKrylov.Matrix
