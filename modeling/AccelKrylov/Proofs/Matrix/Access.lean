import Mathlib.Algebra.Ring.Int.Defs
import AccelKrylov.Proofs.Matrix.Product

/-! Element access against the products. Access reads the first element that is stored at a row and a
column; the products count all of them. In exact arithmetic the products are therefore those of the elements
that access reads exactly when whatever is stored behind them comes to nothing. -/

namespace AccelKrylov

variable {α : Type}

/-- The vector with a one in place `i` and zeros everywhere else. -/
def Vec.unit [Zero α] [One α] (n i : Nat) : Array α := Array.ofFn fun j : Fin n => if j.val = i then 1 else 0

theorem Vec.getD_unit [Zero α] [One α] {n i : Nat} (hi : i < n) (j : Nat) :
    (Vec.unit n i : Array α).getD j 0 = if j = i then 1 else 0 := by
  rw [unit, Array.getD_eq_getD_getElem?, Array.getElem?_ofFn]
  by_cases hj : j < n
  · rw [dif_pos hj, Option.getD_some]
  · rw [dif_neg hj, Option.getD_none, if_neg (by omega)]

namespace Matrix

/-! ### The first element and the others -/

section
variable [Semiring α]

/-- The number that element access reads at a row and a column. -/
def element (m : Matrix α) (row col : Nat) : α :=
  ((m.get? (UInt64.ofNat row) (UInt64.ofNat col)).map Element.re).getD 0

/-- The sum of what is stored at a row and a column behind the first element there. -/
def surplus (m : Matrix α) (row col : Nat) : α :=
  ((m.storedAt (UInt64.ofNat row) col).tail.map Element.re).sum

/-- The numbers `c` are those that both products multiply by. -/
def ProductsAre (m : Matrix α) (c : Nat → Nat → α) : Prop :=
  (∀ (range : RowRange) (x : Array α), range.stop ≤ m.rows → x.size = m.cols.toNat →
    ∃ y, m.productRows range x = .ok y ∧ ∀ i, y[i]? = if range.start.toNat + i < range.stop.toNat then
      some (∑ j ∈ Finset.range m.cols.toNat, c (range.start.toNat + i) j * x.getD j 0) else none) ∧
  ∀ x : Array α, x.size = m.rows.toNat → ∃ y, m.transposeProduct x = .ok y ∧ ∀ j, y[j]? =
    if j < m.cols.toNat then some (∑ i ∈ Finset.range m.rows.toNat, c i j * x.getD i 0) else none

omit [Semiring α] in
theorem lookup_eq_head? (entries : List (Word × Element α)) (col : Word) : entries.lookup col =
    ((entries.filter fun entry => entry.1.toNat = col.toNat).map Prod.snd).head? := by
  induction entries with
  | nil => rfl
  | cons entry entries ih =>
    rw [List.lookup_cons, List.filter_cons]
    by_cases h : col = entry.1
    · simp [h]
    · have hne : ¬ entry.1.toNat = col.toNat := fun hcol => h (UInt64.toNat_inj.mp hcol.symm)
      rw [beq_eq_false_iff_ne.mpr h, ih, decide_eq_false hne]
      rfl

variable {m : Matrix α}

theorem coefficient_eq {row col : Nat} (hrow : row < m.rows.toNat) (hcol : col < m.cols.toNat) :
    m.coefficient row col = m.element row col + m.surplus row col := by
  have hrows := m.rows.toNat_lt
  have hcols := m.cols.toNat_lt
  have hrow' : (UInt64.ofNat row).toNat = row := UInt64.toNat_ofNat_of_lt' (show row < 2 ^ 64 by omega)
  have hcol' : (UInt64.ofNat col).toNat = col := UInt64.toNat_ofNat_of_lt' (show col < 2 ^ 64 by omega)
  have hin : UInt64.ofNat row < m.rows ∧ UInt64.ofNat col < m.cols := by
    rw [UInt64.lt_iff_toNat_lt, UInt64.lt_iff_toNat_lt, hrow', hcol']
    exact ⟨hrow, hcol⟩
  have hzero : (Element.zero m.kind : Element α).re = 0 := by cases m.kind <;> rfl
  rw [element, get?, if_pos hin, Option.map_some, Option.getD_some, lookup_eq_head?, hcol', surplus,
    coefficient]
  change _ = (((m.storedAt (UInt64.ofNat row) col).head?.getD (Element.zero m.kind)).re) + _
  cases m.storedAt (UInt64.ofNat row) col with
  | nil => rw [List.head?_nil, Option.getD_none, hzero]; simp
  | cons e elements => simp

/-- A real matrix has the products of the sums of its elements. -/
theorem productsAre_coefficient (hreal : m.kind = .real) : m.ProductsAre m.coefficient := by
  constructor
  · intro range x hstop hsize
    have hproduct := productRows_eq_ok.mpr ⟨hreal, hsize, hstop, rfl⟩
    exact ⟨_, hproduct, getElem?_productRows hproduct⟩
  · intro x hsize
    have hproduct := transposeProductRows_eq_ok.mpr ⟨hreal, hsize, UInt64.le_refl m.allRows.stop, rfl⟩
    refine ⟨_, hproduct, fun j => ?_⟩
    rw [transposeProductRows_eq_sum hproduct, Finset.range_eq_Ico]
    rfl

/-- Only the coefficients within the matrix matter. -/
theorem ProductsAre.congr {c d : Nat → Nat → α} (h : m.ProductsAre c)
    (hcd : ∀ row < m.rows.toNat, ∀ col < m.cols.toNat, c row col = d row col) : m.ProductsAre d := by
  constructor
  · intro range x hstop hsize
    obtain ⟨y, hy, hentries⟩ := h.1 range x hstop hsize
    refine ⟨y, hy, fun i => ?_⟩
    rw [hentries]
    have hstop := UInt64.le_iff_toNat_le.mp hstop
    split
    next hi =>
      refine congrArg some (Finset.sum_congr rfl fun j hj => ?_)
      rw [hcd _ (by omega) j (Finset.mem_range.mp hj)]
    next hi => rfl
  · intro x hsize
    obtain ⟨y, hy, hentries⟩ := h.2 x hsize
    refine ⟨y, hy, fun j => ?_⟩
    rw [hentries]
    split
    next hj =>
      refine congrArg some (Finset.sum_congr rfl fun i hi => ?_)
      rw [hcd i (Finset.mem_range.mp hi) j hj]
    next hj => rfl

/-- The coefficients of the products are determined: the product with a unit vector is a column. -/
theorem ProductsAre.unique {c d : Nat → Nat → α} (hc : m.ProductsAre c) (hd : m.ProductsAre d)
    {row col : Nat} (hrow : row < m.rows.toNat) (hcol : col < m.cols.toNat) : c row col = d row col := by
  have hcolumn (c : Nat → Nat → α) : ∑ j ∈ Finset.range m.cols.toNat,
      c row j * (Vec.unit m.cols.toNat col).getD j 0 = c row col := by
    simp only [Vec.getD_unit hcol, mul_ite, mul_one, mul_zero]
    rw [Finset.sum_ite_eq', if_pos (Finset.mem_range.mpr hcol)]
  obtain ⟨y, hy, hentries⟩ := hc.1 m.allRows (Vec.unit _ col) (UInt64.le_refl _) Array.size_ofFn
  obtain ⟨y', hy', hentries'⟩ := hd.1 m.allRows (Vec.unit _ col) (UInt64.le_refl _) Array.size_ofFn
  obtain rfl := Except.ok.inj (hy.symm.trans hy')
  have hsome := (hentries row).symm.trans (hentries' row)
  have hstart : m.allRows.start.toNat + row = row := Nat.zero_add row
  have hrow : row < m.allRows.stop.toNat := hrow
  rw [hstart, if_pos hrow, if_pos hrow, hcolumn, hcolumn] at hsome
  exact Option.some.inj hsome

/-! ### Rows that store no column twice -/

omit [Semiring α] in
theorem length_filter_le_one {entries : List (Word × Element α)}
    (hcols : (entries.map Prod.fst).Nodup) (col : Nat) :
    (entries.filter fun entry => entry.1.toNat = col).length ≤ 1 := by
  induction entries with
  | nil => exact Nat.zero_le 1
  | cons entry entries ih =>
    obtain ⟨hnew, hcols⟩ := List.nodup_cons.mp hcols
    rw [List.filter_cons]
    split
    next h =>
      have hnone : entries.filter (fun entry => entry.1.toNat = col) = [] := by
        refine List.filter_eq_nil_iff.mpr fun other hother hsame => hnew ?_
        have hfst : other.1 = entry.1 :=
          UInt64.toNat_inj.mp ((of_decide_eq_true hsame).trans (of_decide_eq_true h).symm)
        exact hfst ▸ List.mem_map_of_mem hother
      rw [hnone]
      exact Nat.le_refl 1
    next h => exact ih hcols

theorem surplus_eq_zero {row : Nat}
    (hcols : ((m.rowEntries (UInt64.ofNat row)).map Prod.fst).Nodup) (col : Nat) :
    m.surplus row col = 0 := by
  have hle := length_filter_le_one hcols col
  have hnil : (m.storedAt (UInt64.ofNat row) col).tail = [] := by
    rw [List.eq_nil_iff_length_eq_zero, List.length_tail, storedAt, List.length_map]
    omega
  rw [surplus, hnil]
  rfl

theorem nodup_columns_of_dense (h : m.format = .dense) (row : Word) :
    ((m.rowEntries row).map Prod.fst).Nodup := by
  cases hstorage : m.storage with
  | dense lda values =>
    have hcols : ((m.rowEntries row).map Prod.fst) = Word.range 0 m.cols := by
      rw [rowEntries, hstorage, List.map_map]
      exact List.map_id _
    have hlt := m.cols.toNat_lt
    rw [hcols, Word.range_zero]
    refine List.Nodup.map_on (fun i hi j hj hij => ?_) List.nodup_range
    rw [← UInt64.toNat_inj, UInt64.toNat_ofNat_of_lt' (show i < 2 ^ 64 by rw [List.mem_range] at hi; omega),
      UInt64.toNat_ofNat_of_lt' (show j < 2 ^ 64 by rw [List.mem_range] at hj; omega)] at hij
    exact hij
  | _ =>
    rw [format, hstorage] at h
    cases h

end

/-! ### Products of the elements that are read -/

/-- The products of a real matrix are those of the elements that access reads, each with whatever is stored
behind it. Without those others they are the products of the matrix exactly when the others come to zero, as
they do if no row stores two elements in one column, and in dense storage in any case. -/
theorem products_of_elements [Ring α] (m : Matrix α) (hreal : m.kind = .real) :
    m.ProductsAre (fun row col => m.element row col + m.surplus row col) ∧
      (m.ProductsAre m.element ↔
        ∀ row < m.rows.toNat, ∀ col < m.cols.toNat, m.surplus row col = 0) ∧
      ((∀ row < m.rows, ((m.rowEntries row).map Prod.fst).Nodup) → m.ProductsAre m.element) ∧
      (m.format = .dense → m.ProductsAre m.element) := by
  have hsum : m.ProductsAre fun row col => m.element row col + m.surplus row col :=
    (productsAre_coefficient hreal).congr fun row hrow col hcol => coefficient_eq hrow hcol
  have hiff : m.ProductsAre m.element ↔
      ∀ row < m.rows.toNat, ∀ col < m.cols.toNat, m.surplus row col = 0 := by
    constructor
    · intro h row hrow col hcol
      have := hsum.unique h hrow hcol
      rwa [add_eq_left] at this
    · intro hzero
      refine hsum.congr fun row hrow col hcol => ?_
      rw [hzero row hrow col hcol, add_zero]
  have hnodup (h : ∀ row < m.rows, ((m.rowEntries row).map Prod.fst).Nodup) :
      m.ProductsAre m.element := by
    refine hiff.mpr fun row hrow col hcol => surplus_eq_zero (h _ ?_) col
    have hrows := m.rows.toNat_lt
    rw [UInt64.lt_iff_toNat_lt, UInt64.toNat_ofNat_of_lt' (show row < 2 ^ 64 by omega)]
    exact hrow
  exact ⟨hsum, hiff, hnodup, fun h => hnodup fun row _ => nodup_columns_of_dense h row⟩

/-- A matrix of one row and one column, with two elements stored there. -/
def twoParts : Matrix Int where
  rows := 1
  cols := 1
  base := 0
  kind := .real
  representation := .general
  storage := .csr ⟨#[0, 2], #[0, 0], #[1, 2]⟩ {}
  fits := by cbv

theorem products_of_elements_twoParts : twoParts.kind = .real ∧
    twoParts.ProductsAre (fun row col => twoParts.element row col + twoParts.surplus row col) ∧
    twoParts.element 0 0 = 1 ∧ twoParts.surplus 0 0 = 2 :=
  ⟨rfl, (products_of_elements twoParts rfl).1, by decide, by decide⟩

/-- The elements that access reads do not determine the products: here access reads a one, but the product
with the vector of a one is three. -/
theorem products_not_of_elements :
    ¬ ∀ m : Matrix Int, m.kind = .real → m.ProductsAre m.element := by
  intro h
  obtain ⟨y, hy, hentries⟩ := (h twoParts rfl).1 twoParts.allRows #[1] (UInt64.le_refl _) rfl
  have hproduct : twoParts.productRows twoParts.allRows #[1] = .ok #[3] := by cbv
  obtain rfl := Except.ok.inj (hproduct.symm.trans hy)
  exact absurd (hentries 0) (by decide)

end Matrix

end AccelKrylov
