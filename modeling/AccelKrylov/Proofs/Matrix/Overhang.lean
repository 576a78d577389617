import Mathlib.Algebra.Order.BigOperators.Group.List
import AccelKrylov.Double
import AccelKrylov.Proofs.Matrix.Traversal

/-! Matrices whose blocks reach past the last column. A row is read exactly when the columns of its blocks, those
past the last one included, are words; then an element is read where it is stored, and zero everywhere else. Where
they are not, the machine is stopped on its way to any element of the row. -/

namespace AccelKrylov

open Guarded

variable {ε α : Type}

/-! ### Counting -/

/-- How many elements a run stores. -/
def BlockRows.stored (b : BlockRows α) : Nat := b.columns.size * b.blockSize.toNat * b.blockSize.toNat

namespace Matrix

/-- How many elements are stored, the zeros inside blocks included. -/
def stored (m : Matrix α) : Nat :=
  match m.storage with
  | .dense .. => m.rows.toNat * m.cols.toNat
  | .csr entries _ => entries.columns.size
  | .bcsr runs _ => (runs.map BlockRows.stored).sum

/-- How many numbers the arrays have. -/
def numbers (m : Matrix α) : Nat :=
  match m.storage with
  | .dense _ values => values.size
  | .csr entries _ => entries.values.size
  | .bcsr runs _ => (runs.map fun b => b.values.size).sum

end Matrix

namespace BlockRows.Fits

variable {b : BlockRows α} {cols base : Word} {kind : ValueKind}

theorem stored_le (h : b.Fits cols base kind) : b.stored ≤ b.values.size := by
  rw [h.size_values]
  exact Nat.le_mul_of_pos_right _ (width_pos kind)

/-- The elements of one run can be counted in words. -/
theorem guardedStored_eq (h : b.Fits cols base kind) :
    (do mul (← mul (UInt64.ofNat b.columns.size) b.blockSize) b.blockSize : Guarded ε Word) =
      pure (UInt64.ofNat b.stored) := by
  have hstored := h.stored_le
  have hvalues := h.entries.values_lt
  have hcolumns := h.size_columns_lt
  have hline : b.columns.size * b.blockSize.toNat ≤ b.stored := Nat.le_mul_of_pos_right _ h.blockSize_pos
  rw [mul_ofNat hcolumns (by omega), pure_bind, mul_ofNat (by omega) (by rw [stored] at hstored; omega)]
  rfl

end BlockRows.Fits

/-- The elements of all runs can be counted in words if their number is one. -/
theorem BlockRows.foldlM_stored {cols base : Word} {kind : ValueKind} {runs : List (BlockRows α)}
    (hfits : ∀ b ∈ runs, b.Fits cols base kind) (sum : Word) :
    (runs.foldlM (fun sum b => do
      add sum (← mul (← mul (UInt64.ofNat b.columns.size) b.blockSize) b.blockSize)) sum : Guarded ε Word) =
      if sum.toNat + (runs.map stored).sum < 2 ^ 64 then
        pure (UInt64.ofNat (sum.toNat + (runs.map stored).sum))
      else trap .overflow := by
  induction runs generalizing sum with
  | nil =>
    have hsum := sum.toNat_lt
    rw [List.map_nil, List.sum_nil, Nat.add_zero, if_pos hsum, UInt64.ofNat_toNat]
    rfl
  | cons b runs ih =>
    obtain ⟨hb, hfits⟩ := List.forall_mem_cons.mp hfits
    have hword : (UInt64.ofNat b.stored).toNat = b.stored :=
      UInt64.toNat_ofNat_of_lt' (Nat.lt_of_le_of_lt hb.stored_le hb.entries.values_lt)
    rw [List.foldlM_cons, ← bind_assoc (x := mul _ _), hb.guardedStored_eq, pure_bind, List.map_cons,
      List.sum_cons, ← Nat.add_assoc]
    by_cases hnext : sum.toNat + b.stored < 2 ^ 64
    · have hadd : (sum + UInt64.ofNat b.stored).toNat = sum.toNat + b.stored := by
        rw [UInt64.toNat_add, hword, Nat.mod_eq_of_lt hnext]
      rw [add_eq (by rw [hword]; exact hnext), pure_bind, ih hfits, hadd]
    · rw [add_eq_trap (by rw [hword]; omega), if_neg (by omega)]
      rfl

namespace Matrix

variable {m : Matrix α} {row col : Word}

theorem stored_le_numbers (m : Matrix α) : m.stored ≤ m.numbers := by
  cases hstorage : m.storage with
  | dense lda values =>
    have hfits := m.storage_fits
    rw [hstorage] at hfits
    obtain ⟨-, hlda, -, hsize⟩ := hfits
    simp only [stored, numbers, hstorage, hsize]
    exact Nat.le_trans (Nat.mul_le_mul_left _ (UInt64.le_iff_toNat_le.mp hlda))
      (Nat.le_mul_of_pos_right _ (width_pos m.kind))
  | csr c flags =>
    simp only [stored, numbers, hstorage, (compressed_fits hstorage).size_values]
    exact Nat.le_mul_of_pos_right _ (width_pos m.kind)
  | bcsr runs shared =>
    have hfits := m.storage_fits
    rw [hstorage] at hfits
    simp only [stored, numbers, hstorage]
    exact List.sum_le_sum fun b hb => (hfits.2.2.1 b hb).stored_le

theorem numbers_lt (hformat : m.format ≠ .bcsr) : m.numbers < 2 ^ 64 := by
  cases hstorage : m.storage with
  | dense lda values =>
    have hfits := m.storage_fits
    rw [hstorage] at hfits
    simpa only [numbers, hstorage] using hfits.2.2.1
  | csr c flags => simpa only [numbers, hstorage] using (compressed_fits hstorage).values_lt
  | bcsr runs shared => exact absurd (by rw [format, hstorage]; rfl) hformat

/-- Numbers of elements are words, except that many runs may have more together. -/
theorem nnz_eq (m : Matrix α) : (m.nnz : Guarded ε Word) =
    if m.stored < 2 ^ 64 then pure (UInt64.ofNat m.stored) else trap .overflow := by
  cases hstorage : m.storage with
  | dense lda values =>
    simp only [nnz, stored, hstorage, mul, UInt64.ofNat_mul, UInt64.ofNat_toNat]
    rfl
  | csr c flags =>
    have hfits := compressed_fits hstorage
    simp only [nnz, stored, hstorage]
    rw [if_pos (hfits.size_columns_lt (width_pos m.kind))]
  | bcsr runs shared =>
    have hfits := m.storage_fits
    rw [hstorage] at hfits
    simp only [nnz, stored, hstorage]
    rw [BlockRows.foldlM_stored hfits.2.2.1, UInt64.toNat_zero, Nat.zero_add]

/-! ### Access -/

variable [Zero α]

theorem guardedGet?_eq_trap (hrow : row < m.rows) (hcol : col < m.cols) (hcolumns : ¬ m.ColumnsFit row.toNat) :
    (m.guardedGet? row col : Guarded ε (Option (Element α))) = trap .overflow := by
  rw [guardedGet?, if_pos ⟨hrow, hcol⟩, guardedRowEntries_eq_trap hrow hcolumns]
  rfl

/-- What words can do for the reader of a matrix. -/
structure ReadInWords (m : Matrix α) : Prop where
  counted : m.stored < 2 ^ 64 → ∃ count : Word, (m.nnz : Guarded Unit Word) = pure count ∧
    count.toNat = m.stored
  /-- Only the elements of many runs are too many to be counted, and only where all numbers are. -/
  uncounted : 2 ^ 64 ≤ m.stored → 2 ^ 64 ≤ m.numbers ∧ m.format = .bcsr ∧
    (m.nnz : Guarded Unit Word) = trap .overflow
  entries : ∀ row < m.rows, m.ColumnsFit row.toNat →
    (m.guardedRowEntries row : Guarded Unit _) = pure (m.rowEntries row)
  noEntries : ∀ row < m.rows, ¬ m.ColumnsFit row.toNat →
    (m.guardedRowEntries row : Guarded Unit _) = trap .overflow
  access : ∀ row col, (row < m.rows → col < m.cols → m.ColumnsFit row.toNat) →
    (m.guardedGet? row col : Guarded Unit _) = pure (m.get? row col)
  noAccess : ∀ row < m.rows, ∀ col < m.cols, ¬ m.ColumnsFit row.toNat →
    (m.guardedGet? row col : Guarded Unit _) = trap .overflow
  /-- An element is read where it is stored, and zero where none is. -/
  exact : ∀ row col e, m.ColumnsFit row.toNat → ((m.guardedGet? row col : Guarded Unit _) = pure (some e) ↔
    row < m.rows ∧ col < m.cols ∧ m.ReadsAs row.toNat col.toNat e)
  fits : m.format ≠ .bcsr ∨ m.cols.toNat ≤ 2 ^ 64 - 2 ^ 32 → ∀ row, m.ColumnsFit row

/-- No sum, difference or product that is taken to read or to count elements leaves the words, and no array is
left, except where blocks reach past the last word; such a matrix has more than `2 ^ 64 - 2 ^ 32` columns. -/
theorem read_in_words (m : Matrix α) : m.ReadInWords where
  counted h := ⟨UInt64.ofNat m.stored, by rw [nnz_eq, if_pos h], UInt64.toNat_ofNat_of_lt' h⟩
  uncounted h := by
    have hnumbers := Nat.le_trans h m.stored_le_numbers
    refine ⟨hnumbers, ?_, ?_⟩
    · exact Decidable.not_not.mp fun hformat => Nat.not_lt.mpr hnumbers (numbers_lt hformat)
    · rw [nnz_eq, if_neg (Nat.not_lt.mpr h)]
  entries row hrow hcolumns := guardedRowEntries_eq_rowEntries hrow hcolumns
  noEntries row hrow hcolumns := guardedRowEntries_eq_trap hrow hcolumns
  access row col h := guardedGet?_eq h
  noAccess row hrow col hcol hcolumns := guardedGet?_eq_trap hrow hcol hcolumns
  exact row col e hcolumns := by
    rw [guardedGet?_eq fun _ _ => hcolumns, pure_inj, get?_of_columnsFit hcolumns]
  fits h row := by
    obtain hformat | hcols := h
    · exact columnsFit_of_format hformat row
    · exact (widthsFit_of_cols_le hcols).columnsFit row

end Matrix

/-- A block of six rows and columns. -/
def lastBlock : BlockRows Double :=
  ⟨⟨#[0, 1], #[3074457345618258602],
    #[0, 0, 0, 0, 1, 0, 0, 0, 0, 0, 0, 0, 0, 0, 0, 0, 0, 0,
      0, 0, 0, 0, 0, 0, 0, 0, 0, 0, 0, 0, 0, 0, 0, 0, 0, 0]⟩, 6, 1⟩

/-- A matrix with as many columns as there are words but one. Three columns of its block are columns of the
matrix; of the others, the second one would be column `2 ^ 64`. -/
def lastColumns : Matrix Double where
  rows := 6
  cols := 18446744073709551615
  base := 0
  kind := .real
  representation := .general
  storage := .bcsr [lastBlock] false
  fits := by cbv

/-- Nothing is stored in the first column of its first row, but no zero is read there: the machine is stopped. -/
theorem lastColumns_unread : (∀ v, lastColumns.Holds v → v.row = 0 → v.col ≠ 0) ∧
    (lastColumns.guardedGet? 0 0 : Guarded Unit _) = trap .overflow := by
  have hstorage : lastColumns.storage = .bcsr [lastBlock] false := rfl
  have hrun : [lastBlock][0]? = some lastBlock := rfl
  have hline : 0 < lastBlock.height := by decide
  refine ⟨fun v hv hrow => ?_, Matrix.guardedGet?_eq_trap (by decide) (by decide) ?_⟩
  · obtain ⟨k, j, blockCol, hgroup, hcol, -, hv⟩ := hv.block_of_row hstorage hrun hline hrow
    have hk : k < 1 := ((Matrix.run_fits hstorage hrun).entries.lt_of_inGroup hgroup).2
    obtain rfl : k = 0 := by omega
    obtain rfl : 3074457345618258602 = blockCol := Option.some.inj hcol
    have hsize : lastBlock.blockSize.toNat = 6 := rfl
    omega
  · intro h
    have hblocks := (Matrix.columnsFit_iff hstorage hrun hline).mp h
    exact absurd (hblocks 0 3074457345618258602 ⟨0, 1, rfl, rfl, by decide, by decide⟩ rfl) (by decide)

end AccelKrylov
