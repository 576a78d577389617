import AccelKrylov.Matrix.GuardedProduct
import AccelKrylov.Proofs.Matrix.Product

/-! Products that are not stopped. A machine that stops at traps multiplies what the rows hold, as long as the
columns of blocks can be counted in words; with fewer than `2 ^ 63` columns they always can. -/

namespace AccelKrylov

variable {α ε : Type}

open Guarded

namespace Matrix

variable {m : Matrix α} {range : RowRange} {row : Word}

/-! ### Columns of blocks -/

/-- Blocks reach past the last column by less than `2 ^ 32` columns. -/
theorem widthsFit_of_cols_le (h : m.cols.toNat ≤ 2 ^ 64 - 2 ^ 32) : m.WidthsFit := by
  have hfits := m.storage_fits
  unfold WidthsFit
  split
  · trivial
  · trivial
  next runs shared hstorage =>
    rw [hstorage] at hfits
    obtain ⟨-, -, hruns, -⟩ := hfits
    intro b hb
    have hpos := (hruns b hb).blockSize_pos
    have hvalues := (hruns b hb).blockValues_lt
    have hsquare : b.blockSize.toNat * b.blockSize.toNat ≤ b.blockValues m.kind :=
      Nat.le_mul_of_pos_right _ (width_pos m.kind)
    -- a block of `2 ^ 32` columns would have too many numbers
    have hsize : b.blockSize.toNat < 2 ^ 32 := by
      refine Nat.lt_of_not_le fun hle => ?_
      have := Nat.mul_le_mul hle hle
      omega
    have hcovered : blockColumns m.cols.toNat b.blockSize.toNat * b.blockSize.toNat ≤
        m.cols.toNat + b.blockSize.toNat - 1 := Nat.div_mul_le_self _ _
    change blockColumns _ _ * _ < 2 ^ 64
    omega

theorem widthsFit_of_cols_lt (h : m.cols.toNat < 2 ^ 63) : m.WidthsFit := widthsFit_of_cols_le (by omega)

/-! ### Products -/

theorem lt_of_mem_range (hstop : range.stop ≤ m.rows) (h : row ∈ Word.range range.start range.stop) :
    row < m.rows :=
  UInt64.lt_of_lt_of_le (Word.mem_range.mp h).2 hstop

theorem toNat_lt_of_mem_rowEntries [Zero α] (hrow : row < m.rows) {entry : Word × Element α}
    (h : entry ∈ m.rowEntries row) : entry.1.toNat < m.cols.toNat :=
  UInt64.lt_iff_toNat_lt.mp (col_lt_of_mem_rowEntries hrow h)

theorem get_eq_getD [Zero α] {x : Array α} {index : Word} (h : index.toNat < x.size) :
    (get x index : Guarded ε α) = pure (x.getD index.toNat 0) :=
  get_eq (by rw [Array.getD_eq_getD_getElem?, Array.getElem?_eq_getElem h, Option.getD_some])

section
variable [Zero α] [Add α] [Mul α]

theorem guardedRowProduct_eq (hrow : row < m.rows) (hwidths : m.WidthsFit) {x : Array α}
    (hx : x.size = m.cols.toNat) : m.guardedRowProduct x row = pure (m.rowProduct x row) := by
  rw [guardedRowProduct, guardedRowEntries_eq_rowEntries hrow (hwidths.columnsFit row.toNat), pure_bind]
  refine foldlM_eq_pure_foldl (fun _ => True) (fun entry hentry sum _ => ⟨?_, trivial⟩) trivial
  have hcol := toNat_lt_of_mem_rowEntries hrow hentry
  simp only [get_eq_getD (hx ▸ hcol), pure_bind]

theorem guardedAddRow_eq (hrow : row < m.rows) (hwidths : m.WidthsFit) (s : α) {y : Array α}
    (hy : y.size = m.cols.toNat) : m.guardedAddRow row s y = pure (m.addRow row s y) := by
  rw [guardedAddRow, guardedRowEntries_eq_rowEntries hrow (hwidths.columnsFit row.toNat), pure_bind]
  refine foldlM_eq_pure_foldl (fun y => y.size = m.cols.toNat) (fun entry hentry y hy => ⟨?_, ?_⟩) hy
  · have hcol := hy ▸ toNat_lt_of_mem_rowEntries hrow hentry
    have hread : (get y entry.1 : Guarded ProductError α) = pure y[entry.1.toNat] :=
      get_eq (Array.getElem?_eq_getElem hcol)
    simp only [hread, pure_bind, setIfInBounds_getElem hcol (· + entry.2.re * s)]
  · exact (Array.size_modify ..).trans hy

theorem size_addRow (m : Matrix α) (row : Word) (s : α) (y : Array α) : (m.addRow row s y).size = y.size := by
  rw [addRow]
  induction m.rowEntries row generalizing y with
  | nil => rfl
  | cons entry entries ih => rw [List.foldl_cons, ih, Array.size_modify]

theorem guardedProductRows_eq (hwidths : m.WidthsFit) (range : RowRange) (x : Array α) :
    m.guardedProductRows range x = lift (m.productRows range x) := by
  refine lift_bind fun _ _ => lift_bind fun _ hshape => ?_
  obtain ⟨hx, hstop⟩ := ensure_eq_ok.mp hshape
  rw [mapM_eq_pure fun row hrow => guardedRowProduct_eq (lt_of_mem_range hstop hrow) hwidths hx]
  rfl

theorem guardedTransposeProductRows_eq (hwidths : m.WidthsFit) (range : RowRange) (x : Array α) :
    m.guardedTransposeProductRows range x = lift (m.transposeProductRows range x) := by
  refine lift_bind fun _ _ => lift_bind fun _ hshape => ?_
  obtain ⟨hx, hstop⟩ := ensure_eq_ok.mp hshape
  refine foldlM_eq_pure_foldl (fun y => y.size = m.cols.toNat) (fun row hrow y hy => ⟨?_, ?_⟩)
    Array.size_replicate
  · have hrow := lt_of_mem_range hstop hrow
    have hread := hx ▸ UInt64.lt_iff_toNat_lt.mp hrow
    rw [get_eq_getD hread, pure_bind, guardedAddRow_eq hrow hwidths _ hy]
  · rw [size_addRow, hy]

/-- A machine that stops at traps is stopped while it multiplies some rows with some vector. -/
def Crashes (m : Matrix α) (range : RowRange) : Prop :=
  ∃ x t, m.guardedProductRows range x = trap t ∨ m.guardedTransposeProductRows range x = trap t

/-- No product of a matrix with fewer than `2 ^ 63` columns crashes, whatever it is multiplied with. -/
theorem not_crashes (h : m.cols.toNat < 2 ^ 63) (range : RowRange) : ¬ m.Crashes range := by
  have hwidths := widthsFit_of_cols_lt h
  rintro ⟨x, t, hx | hx⟩
  · rw [guardedProductRows_eq hwidths] at hx
    cases hx
  · rw [guardedTransposeProductRows_eq hwidths] at hx
    cases hx

end

end Matrix

end AccelKrylov
