import AccelKrylov.Proofs.Matrix.Linear

/-! The transposed product is the adjoint of the product, in exact arithmetic. Both add up the same
coefficients, one of them along rows and the other down columns, so what a matrix stores and how has no part
in it: columns of blocks past the last one, slots between rows and several elements at one place count on both
sides alike or not at all. A cut through the rows cuts the transposed product into two summands. -/

namespace AccelKrylov.Matrix

variable {α : Type} {m : Matrix α} {x y ax aty : Array α}

/-! ### Parts of the rows -/

section
variable [Semiring α]

/-- What rows contribute up to a cut and what they contribute from there on add up to what all of them
contribute. -/
theorem transposeProductRows_add {start cut stop : Word} {upper lower : Array α} (hstart : start ≤ cut)
    (hstop : cut ≤ stop) (hupper : m.transposeProductRows ⟨start, cut⟩ y = .ok upper)
    (hlower : m.transposeProductRows ⟨cut, stop⟩ y = .ok lower) :
    m.transposeProductRows ⟨start, stop⟩ y = .ok (Array.zipWith (· + ·) upper lower) := by
  obtain ⟨hreal, hy, -, huppersize, hupper⟩ := transposeProductRows_eq_ok_iff.mp hupper
  obtain ⟨-, -, hlast, hlowersize, hlower⟩ := transposeProductRows_eq_ok_iff.mp hlower
  refine transposeProductRows_eq_ok_iff.mpr ⟨hreal, hy, hlast, ?_, fun j hj => ?_⟩
  · rw [Array.size_zipWith, huppersize, hlowersize, Nat.min_self]
  · rw [Vec.getD_add (huppersize.trans hlowersize.symm), hupper j hj, hlower j hj]
    exact Finset.sum_Ico_consecutive _ (UInt64.le_iff_toNat_le.mp hstart) (UInt64.le_iff_toNat_le.mp hstop)

end

/-! ### The two products -/

section
variable [CommRing α]

/-- The dot product with `A x` is the sum over all places, row by row. -/
theorem dot_product (h : m.product x = .ok ax) (hy : y.size = m.rows.toNat) : Vec.dot y ax =
    ∑ i ∈ Finset.range m.rows.toNat, ∑ j ∈ Finset.range m.cols.toNat,
      y.getD i 0 * (m.coefficient i j * x.getD j 0) := by
  obtain ⟨-, -, hsize, hentries⟩ := product_eq_ok_iff.mp h
  rw [Vec.dot_eq_sum (hy.trans hsize.symm), hy]
  refine Finset.sum_congr rfl fun i hi => ?_
  rw [hentries i (Finset.mem_range.mp hi), Finset.mul_sum]

/-- The dot product with the transposed product is the same sum, column by column. -/
theorem dot_transposeProduct (h : m.transposeProduct y = .ok aty) (hx : x.size = m.cols.toNat) :
    Vec.dot aty x = ∑ j ∈ Finset.range m.cols.toNat, ∑ i ∈ Finset.range m.rows.toNat,
      y.getD i 0 * (m.coefficient i j * x.getD j 0) := by
  obtain ⟨-, -, hsize, hentries⟩ := transposeProduct_eq_ok_iff.mp h
  rw [Vec.dot_eq_sum (hsize.trans hx.symm), hsize]
  refine Finset.sum_congr rfl fun j hj => ?_
  rw [hentries j (Finset.mem_range.mp hj), Finset.sum_mul]
  exact Finset.sum_congr rfl fun i _ => by ring

/-- Every real matrix, however it is stored, has both products with vectors of the right lengths, and the
transposed one is the adjoint: `y · A x = Aᵀ y · x`. What the rows before a cut contribute to it and what the
others contribute add up to it, wherever the cut is. -/
theorem product_adjoint (m : Matrix α) (x y : Array α) (hreal : m.kind = .real)
    (hx : x.size = m.cols.toNat) (hy : y.size = m.rows.toNat) :
    ∃ ax aty, m.product x = .ok ax ∧ m.transposeProduct y = .ok aty ∧
      ax.size = m.rows.toNat ∧ aty.size = m.cols.toNat ∧ Vec.dot y ax = Vec.dot aty x ∧
      ∀ cut ≤ m.rows, ∃ upper lower, m.transposeProductRows ⟨0, cut⟩ y = .ok upper ∧
        m.transposeProductRows ⟨cut, m.rows⟩ y = .ok lower ∧
        upper.size = m.cols.toNat ∧ lower.size = m.cols.toNat ∧
        Array.zipWith (· + ·) upper lower = aty := by
  obtain ⟨ax, hax⟩ := exists_product hreal hx
  have part (range : RowRange) (hstop : range.stop ≤ m.rows) :
      ∃ part, m.transposeProductRows range y = .ok part ∧ part.size = m.cols.toNat := by
    have hpart := transposeProductRows_eq_ok.mpr ⟨hreal, hy, hstop, rfl⟩
    exact ⟨_, hpart, (transposeProductRows_eq_ok_iff.mp hpart).2.2.2.1⟩
  obtain ⟨aty, haty, hsize⟩ := part m.allRows (UInt64.le_refl _)
  refine ⟨ax, aty, hax, haty, (product_eq_ok_iff.mp hax).2.2.1, hsize, ?_, fun cut hcut => ?_⟩
  · rw [dot_product hax hy, dot_transposeProduct haty hx, Finset.sum_comm]
  · obtain ⟨upper, hupper, huppersize⟩ := part ⟨0, cut⟩ hcut
    obtain ⟨lower, hlower, hlowersize⟩ := part ⟨cut, m.rows⟩ (UInt64.le_refl _)
    refine ⟨upper, lower, hupper, hlower, huppersize, hlowersize, ?_⟩
    exact Except.ok.inj ((transposeProductRows_add UInt64.zero_le hcut hupper hlower).symm.trans haty)

end

/-- Three rows and three columns, counted from one: a block row of two rows whose second block reaches past the
last column, and a last row that stores two elements at one place. -/
def overlappingBlocks : Matrix Int where
  rows := 3
  cols := 3
  base := 1
  kind := .real
  representation := .general
  storage := .bcsr
    [⟨⟨#[1, 3], #[1, 2], #[1, 2, 3, 4, 5, 90, 6, 91]⟩, 2, 1⟩,
      ⟨⟨#[1, 3], #[3, 3], #[7, 8]⟩, 1, 1⟩] false
  fits := by cbv

theorem product_adjoint_overlappingBlocks : overlappingBlocks.kind = .real ∧
    (∃ ax aty, overlappingBlocks.product #[1, 10, 100] = .ok ax ∧
      overlappingBlocks.transposeProduct #[1, 2, 3] = .ok aty ∧
      ax = #[521, 643, 1500] ∧ aty = #[7, 10, 62] ∧ Vec.dot #[1, 2, 3] ax = Vec.dot aty #[1, 10, 100]) ∧
    ∃ upper lower, overlappingBlocks.transposeProductRows ⟨0, 1⟩ #[1, 2, 3] = .ok upper ∧
      overlappingBlocks.transposeProductRows ⟨1, 3⟩ #[1, 2, 3] = .ok lower ∧
      Array.zipWith (· + ·) upper lower = #[7, 10, 62] := by
  obtain ⟨ax, aty, hax, haty, -, -, hdot, hcut⟩ :=
    product_adjoint overlappingBlocks #[1, 10, 100] #[1, 2, 3] rfl rfl rfl
  obtain ⟨upper, lower, hupper, hlower, -, -, hsum⟩ := hcut 1 (by decide)
  have hproduct : overlappingBlocks.product #[1, 10, 100] = .ok #[521, 643, 1500] := by decide
  have htransposed : overlappingBlocks.transposeProduct #[1, 2, 3] = .ok #[7, 10, 62] := by decide
  obtain rfl := Except.ok.inj (hproduct.symm.trans hax)
  obtain rfl := Except.ok.inj (htransposed.symm.trans haty)
  exact ⟨rfl, ⟨_, _, hax, haty, rfl, rfl, hdot⟩, upper, lower, hupper, hlower, hsum⟩

end AccelKrylov.Matrix
