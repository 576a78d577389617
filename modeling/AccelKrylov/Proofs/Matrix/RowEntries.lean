import AccelKrylov.Proofs.Matrix.Unstopped
import AccelKrylov.Proofs.Matrix.Visits

/-! Reading a row against the places of storage. A machine that stops at traps reads a row of a matrix without
one exactly when the columns of the row's blocks, those past the last one included, are words; what is read is
what the row's places hold, in their order. -/

namespace AccelKrylov

variable {ε α : Type}

open Guarded

/-! ### Elements -/

theorem Element.guardedRead_ofNat {values : Array α} {kind : ValueKind} {slot : Nat} {e : Element α}
    (hsize : values.size < 2 ^ 64) (h : at? values kind slot = some e) :
    (guardedRead values kind (UInt64.ofNat slot) : Guarded ε (Element α)) = pure e := by
  cases kind with
  | real =>
    obtain ⟨v, hv, rfl⟩ := Option.map_eq_some_iff.mp h
    have hslot := (Array.getElem?_eq_some_iff.mp hv).1
    rw [guardedRead, get_ofNat hv (by omega), pure_bind]
  | complex =>
    obtain ⟨re, hre, h⟩ := Option.bind_eq_some_iff.mp h
    obtain ⟨im, him, rfl⟩ := Option.map_eq_some_iff.mp h
    have hslot := (Array.getElem?_eq_some_iff.mp him).1
    have htwice : (mul 2 (UInt64.ofNat slot) : Guarded ε Word) = pure (UInt64.ofNat (2 * slot)) := by
      have hs : (UInt64.ofNat slot).toNat = slot :=
        UInt64.toNat_ofNat_of_lt' (show slot < 2 ^ 64 by omega)
      have := mul_ofNat (ε := ε) (a := 2) (w := UInt64.ofNat slot) (by decide) (by rw [hs]; omega)
      rwa [hs] at this
    have hnext : (add (UInt64.ofNat (2 * slot)) 1 : Guarded ε Word) =
        pure (UInt64.ofNat (2 * slot + 1)) := add_ofNat (b := 1) (by omega)
    simp only [guardedRead, htwice, hnext, get_ofNat hre (show 2 * slot < 2 ^ 64 by omega),
      get_ofNat him (show 2 * slot + 1 < 2 ^ 64 by omega), pure_bind]

/-! ### Groups and columns -/

namespace Compressed.Fits

variable {c : Compressed α} {outer base : Word} {limit stride : Nat}

theorem guardedSlots_eq (h : c.Fits outer base limit stride) {i : Word} (hi : i < outer) :
    (c.guardedSlots base i : Guarded ε (List Word)) =
      pure ((c.group base i.toNat).map UInt64.ofNat) := by
  have hi := UInt64.lt_iff_toNat_lt.mp hi
  have hlt : i.toNat + 1 < 2 ^ 64 := by have := h.outer_lt; omega
  have hnext : (i + 1).toNat = i.toNat + 1 := Word.toNat_succ hlt
  obtain ⟨start, hstart⟩ := h.exists_offset (Nat.le_of_lt hi)
  obtain ⟨stop, hstop⟩ := h.exists_offset (show i.toNat + 1 ≤ outer.toNat from hi)
  have hfrom : base ≤ start := UInt64.le_iff_toNat_le.mpr (h.base_le hstart)
  have hto : base ≤ stop := UInt64.le_iff_toNat_le.mpr (h.base_le hstop)
  have hslots : c.group base i.toNat = List.range' (start.toNat - base.toNat)
      (stop.toNat - base.toNat - (start.toNat - base.toNat)) := by
    unfold group
    rw [hstart, hstop]
  rw [hslots, ← UInt64.toNat_sub_of_le _ _ hfrom, ← UInt64.toNat_sub_of_le _ _ hto, ← Word.range_eq]
  rw [← hnext] at hstop
  simp only [guardedSlots, get_eq hstart, get_eq hstop, add_one_eq hlt, sub_eq hfrom, sub_eq hto, pure_bind]

theorem guardedColumn_eq (h : c.Fits outer base limit stride) {k col : Nat} (hk : k < 2 ^ 64)
    (hcol : c.column? base k = some col) :
    (c.guardedColumn base (UInt64.ofNat k) : Guarded ε Word) = pure (UInt64.ofNat col) := by
  obtain ⟨j, hj, rfl⟩ := Option.map_eq_some_iff.mp hcol
  have hle := (h.column_lt j (Array.mem_of_getElem? hj)).1
  rw [guardedColumn, get_ofNat hj hk, pure_bind, sub_eq hle, ← UInt64.toNat_sub_of_le _ _ hle,
    UInt64.ofNat_toNat]

/-- Entries take up at least one number each, so they can be counted in words. -/
theorem size_columns_lt (h : c.Fits outer base limit stride) (hstride : 0 < stride) :
    c.columns.size < 2 ^ 64 := by
  have hle := Nat.le_mul_of_pos_right c.columns.size hstride
  have hlt := h.values_lt
  rw [h.size_values] at hlt
  omega

end Compressed.Fits

/-! ### Rows of blocks -/

namespace BlockRows

/-- The columns of the blocks, those past the last column of the matrix included, can be counted in
words. -/
def WidthFits (b : BlockRows α) (cols : Word) : Prop :=
  blockColumns cols.toNat b.blockSize.toNat * b.blockSize.toNat < 2 ^ 64

instance (b : BlockRows α) (cols : Word) : Decidable (b.WidthFits cols) := Nat.decLt _ _

/-- The columns of the blocks in a block row, those past the last column of the matrix included, are words. -/
def ColumnsFit (b : BlockRows α) (base : Word) (blockRow : Nat) : Prop :=
  ∀ k blockCol, b.InGroup base blockRow k → b.column? base k = some blockCol →
    (blockCol + 1) * b.blockSize.toNat ≤ 2 ^ 64

end BlockRows

/-- An element with its column, as it is read. -/
def Visit.entry (v : Visit α) : Word × Element α := (UInt64.ofNat v.col, v.element)

namespace BlockRows.Fits

variable {b : BlockRows α} {cols base : Word} {kind : ValueKind}

theorem size_columns_lt (h : b.Fits cols base kind) : b.columns.size < 2 ^ 64 :=
  h.entries.size_columns_lt (Nat.mul_pos (Nat.mul_pos h.blockSize_pos h.blockSize_pos) (width_pos kind))

/-- A block begins at a column of the matrix. -/
theorem blockCol_mul_lt (h : b.Fits cols base kind) {k blockCol : Nat} (hk : k < b.columns.size)
    (hcol : b.column? base k = some blockCol) : blockCol * b.blockSize.toNat < cols.toNat := by
  obtain ⟨col, hcol', hlimit⟩ := h.entries.exists_column hk
  obtain rfl := Option.some.inj (hcol.symm.trans hcol')
  have hle : (blockCol + 1) * b.blockSize.toNat ≤ cols.toNat + b.blockSize.toNat - 1 :=
    (Nat.le_div_iff_mul_le h.blockSize_pos).mp hlimit
  rw [Nat.add_mul] at hle
  have hpos := h.blockSize_pos
  omega

/-- Whether a column of a block is one of the matrix is decided before its element is looked up. -/
theorem guardedEntry_eq (h : b.Fits cols base kind) (run first line : Nat) {k j blockCol : Nat}
    (hk : k < b.columns.size) (hcol : b.column? base k = some blockCol) (hj : j < b.blockSize.toNat)
    (hin : blockCol * b.blockSize.toNat + j < 2 ^ 64) :
    (b.guardedEntry cols kind (UInt64.ofNat (line % b.blockSize.toNat)) (UInt64.ofNat k)
      (UInt64.ofNat (blockCol * b.blockSize.toNat)) (UInt64.ofNat j) :
        Guarded ε (Option (Word × Element α))) =
      pure ((b.visit? base cols kind run first line k j).map Visit.entry) := by
  have hline := Nat.mod_lt line h.blockSize_pos
  obtain ⟨e, he⟩ := h.exists_element hk hline hj
  have hcount : b.values.size < 2 ^ 64 := h.entries.values_lt
  have hcolumns := h.size_columns_lt
  have hsize : b.blockSize.toNat < 2 ^ 64 := b.blockSize.toNat_lt
  have hslots : b.columns.size * b.blockSize.toNat * b.blockSize.toNat ≤ b.values.size := by
    rw [h.size_values]
    exact Nat.le_mul_of_pos_right _ (width_pos kind)
  have hslot := blockSlot_lt hk hline hj
  have hblock : k * b.blockSize.toNat ≤ k * b.blockSize.toNat * b.blockSize.toNat :=
    Nat.le_mul_of_pos_right _ h.blockSize_pos
  have hcolumn : UInt64.ofNat (blockCol * b.blockSize.toNat + j) < cols ↔
      blockCol * b.blockSize.toNat + j < cols.toNat := by
    rw [UInt64.lt_iff_toNat_lt, UInt64.toNat_ofNat_of_lt' hin]
  simp only [guardedEntry, visit?, add_ofNat hin, pure_bind, hcol, he, Option.bind_some, hcolumn]
  split
  next hlt =>
    rw [mul_ofNat (by omega) (by omega), pure_bind, mul_ofNat (by omega) (by omega), pure_bind,
      mul_ofNat (by omega) (by omega), pure_bind, add_ofNat (by omega), pure_bind,
      add_ofNat (by omega), pure_bind, Element.guardedRead_ofNat hcount he]
    rfl
  next hge => rfl

theorem guardedEntry_eq_trap (h : b.Fits cols base kind) (line : Word) {k j blockCol : Nat}
    (hk : k < b.columns.size) (hcol : b.column? base k = some blockCol) (hj : j < b.blockSize.toNat)
    (hpast : 2 ^ 64 ≤ blockCol * b.blockSize.toNat + j) :
    (b.guardedEntry cols kind line (UInt64.ofNat k) (UInt64.ofNat (blockCol * b.blockSize.toNat))
      (UInt64.ofNat j) : Guarded ε (Option (Word × Element α))) = trap .overflow := by
  have hcols := cols.toNat_lt
  have hsize := b.blockSize.toNat_lt
  have hbegin := h.blockCol_mul_lt hk hcol
  rw [guardedEntry, add_ofNat_eq_trap (by omega) (by omega) hpast]
  rfl

/-- All columns of a block are counted, those past the last one of the matrix too. -/
theorem guardedBlock_eq (h : b.Fits cols base kind) (run first line : Nat) {k blockCol : Nat}
    (hk : k < b.columns.size) (hcol : b.column? base k = some blockCol) :
    (do
      let first ← mul (← b.guardedColumn base (UInt64.ofNat k)) b.blockSize
      let entries ← (Word.range 0 b.blockSize).mapM
        (b.guardedEntry cols kind (UInt64.ofNat (line % b.blockSize.toNat)) (UInt64.ofNat k) first)
      return entries.filterMap id : Guarded ε (List (Word × Element α))) =
      if (blockCol + 1) * b.blockSize.toNat ≤ 2 ^ 64 then
        pure (((List.range b.blockSize.toNat).filterMap
          (b.visit? base cols kind run first line k)).map Visit.entry)
      else trap .overflow := by
  have hcount := h.size_columns_lt
  have hcols := cols.toNat_lt
  have hbegin := h.blockCol_mul_lt hk hcol
  have hsize := b.blockSize.toNat_lt
  have hpos := h.blockSize_pos
  have hblockCol := Nat.le_mul_of_pos_right blockCol hpos
  rw [h.entries.guardedColumn_eq (by omega) hcol, pure_bind, mul_ofNat (by omega) (by omega), pure_bind,
    Word.range_zero, Nat.add_mul]
  split
  next hfits =>
    rw [mapM_eq_map (g := fun j => (b.visit? base cols kind run first line k j).map Visit.entry)
      fun j hj => h.guardedEntry_eq run first line hk hcol (List.mem_range.mp hj)
        (by have := List.mem_range.mp hj; omega), pure_bind, List.filterMap_map, List.map_filterMap]
    rfl
  next hpast =>
    have hlast := h.guardedEntry_eq_trap (ε := ε) (j := b.blockSize.toNat - 1)
      (UInt64.ofNat (line % b.blockSize.toNat)) hk hcol (by omega) (by omega)
    rw [mapM_eq_trap (fun j hj => ?_) ⟨_, List.mem_range.mpr (by omega), hlast⟩]
    · rfl
    · have hj := List.mem_range.mp hj
      by_cases hin : blockCol * b.blockSize.toNat + j < 2 ^ 64
      · exact .inl ⟨_, h.guardedEntry_eq run first line hk hcol hj hin⟩
      · exact .inr (h.guardedEntry_eq_trap _ hk hcol hj (Nat.le_of_not_lt hin))

section
variable {run first line : Nat}

/-- The blocks of a block row are read one after the other. -/
theorem guardedRowEntries_eq_mapM (h : b.Fits cols base kind) (hline : line < b.height)
    (hword : line < 2 ^ 64) :
    (b.guardedRowEntries base cols kind (UInt64.ofNat line) : Guarded ε (List (Word × Element α))) = do
      let blocks ← ((b.group base (line / b.blockSize.toNat)).map UInt64.ofNat).mapM fun k => do
        let first ← mul (← b.guardedColumn base k) b.blockSize
        let entries ← (Word.range 0 b.blockSize).mapM
          (b.guardedEntry cols kind (UInt64.ofNat (line % b.blockSize.toNat)) k first)
        return entries.filterMap id
      return blocks.flatten := by
  have hsize : b.blockSize ≠ 0 := Word.toNat_pos_iff.mp h.blockSize_pos
  have hline' : (UInt64.ofNat line).toNat = line := UInt64.toNat_ofNat_of_lt' hword
  have hrow : UInt64.ofNat line / b.blockSize < b.blockRows := by
    rw [UInt64.lt_iff_toNat_lt, UInt64.toNat_div, hline']
    exact Nat.div_lt_of_lt_mul (by rwa [Nat.mul_comm])
  have hmod : UInt64.ofNat line % b.blockSize = UInt64.ofNat (line % b.blockSize.toNat) := by
    rw [← UInt64.toNat_inj, UInt64.toNat_mod, hline',
      UInt64.toNat_ofNat_of_lt' (Nat.lt_of_le_of_lt (Nat.mod_le ..) hword)]
  rw [guardedRowEntries, div_eq _ hsize, pure_bind, mod_eq _ hsize, pure_bind,
    h.entries.guardedSlots_eq hrow, pure_bind, UInt64.toNat_div, hline', hmod]

theorem guardedRowEntries_eq (h : b.Fits cols base kind) (hline : line < b.height) (hword : line < 2 ^ 64)
    (hcolumns : b.ColumnsFit base (line / b.blockSize.toNat)) :
    (b.guardedRowEntries base cols kind (UInt64.ofNat line) : Guarded ε (List (Word × Element α))) =
      pure ((b.visits base cols kind run first line).map Visit.entry) := by
  rw [h.guardedRowEntries_eq_mapM hline hword, mapM_eq_map (g := fun k =>
    ((List.range b.blockSize.toNat).filterMap (b.visit? base cols kind run first line k)).map Visit.entry),
    pure_bind, visits, List.map_flatMap, List.flatMap_def]
  intro k hk
  have hgroup := Compressed.mem_group.mp hk
  have hk := (h.entries.lt_of_inGroup hgroup).2
  obtain ⟨blockCol, hcol, -⟩ := h.entries.exists_column hk
  rw [h.guardedBlock_eq run first line hk hcol, if_pos (hcolumns k blockCol hgroup hcol)]

theorem guardedRowEntries_eq_trap (h : b.Fits cols base kind) (hline : line < b.height)
    (hword : line < 2 ^ 64) (hcolumns : ¬ b.ColumnsFit base (line / b.blockSize.toNat)) :
    (b.guardedRowEntries base cols kind (UInt64.ofNat line) : Guarded ε (List (Word × Element α))) =
      trap .overflow := by
  simp only [ColumnsFit, not_forall] at hcolumns
  obtain ⟨k, blockCol, hgroup, hcol, hpast⟩ := hcolumns
  have hblock {k blockCol : Nat} (hgroup : b.InGroup base (line / b.blockSize.toNat) k)
      (hcol : b.column? base k = some blockCol) :=
    h.guardedBlock_eq (ε := ε) 0 0 line (h.entries.lt_of_inGroup hgroup).2 hcol
  have htrap := (hblock hgroup hcol).trans (if_neg hpast)
  rw [h.guardedRowEntries_eq_mapM hline hword,
    mapM_eq_trap (fun k hk => ?_) ⟨k, Compressed.mem_group.mpr hgroup, htrap⟩]
  · rfl
  · have hgroup := Compressed.mem_group.mp hk
    obtain ⟨blockCol, hcol, -⟩ := h.entries.exists_column (h.entries.lt_of_inGroup hgroup).2
    by_cases hfits : (blockCol + 1) * b.blockSize.toNat ≤ 2 ^ 64
    · exact .inl ⟨_, (hblock hgroup hcol).trans (if_pos hfits)⟩
    · exact .inr ((hblock hgroup hcol).trans (if_neg hfits))

end

end BlockRows.Fits

/-- Runs are skipped up to the one that the row belongs to; the rows of all of them can be counted in words. -/
theorem BlockRows.guardedEntriesOfRuns_eq {base cols row first : Word} {kind : ValueKind}
    {runs : List (BlockRows α)} {n line : Nat} {b : BlockRows α} (hrun : runs[n]? = some b)
    (hline : line < b.height) (hrow : row.toNat = first.toNat + coverage (runs.take n) + line)
    (hcoverage : first.toNat + coverage runs < 2 ^ 64) :
    (guardedEntriesOfRuns base cols kind row first runs : Guarded ε (List (Word × Element α))) =
      b.guardedRowEntries base cols kind (UInt64.ofNat line) := by
  induction runs generalizing n first with
  | nil => cases hrun
  | cons b' runs ih =>
    rw [coverage_cons] at hcoverage
    have hmul : b'.blockRows.toNat * b'.blockSize.toNat < 2 ^ 64 := by omega
    have hheight : (b'.blockRows * b'.blockSize).toNat = b'.height := by
      rw [UInt64.toNat_mul, Nat.mod_eq_of_lt hmul, height]
    have hadd : first.toNat + (b'.blockRows * b'.blockSize).toNat < 2 ^ 64 := by
      rw [hheight, height]
      omega
    have hnext : (first + b'.blockRows * b'.blockSize).toNat = first.toNat + b'.height := by
      rw [UInt64.toNat_add, Nat.mod_eq_of_lt hadd, hheight]
    have hpast : first + b'.blockRows * b'.blockSize ≤ row ↔ first.toNat + b'.height ≤ row.toNat := by
      rw [UInt64.le_iff_toNat_le, hnext]
    rw [guardedEntriesOfRuns, mul_eq hmul, pure_bind, add_eq hadd, pure_bind]
    cases n with
    | zero =>
      obtain rfl := Option.some.inj hrun
      have hzero : coverage ((b' :: runs).take 0) = 0 := rfl
      rw [hzero, Nat.add_zero] at hrow
      have hfirst : first ≤ row := UInt64.le_iff_toNat_le.mpr (by omega)
      have hlocal : row - first = UInt64.ofNat line := by
        rw [← UInt64.toNat_inj, UInt64.toNat_sub_of_le _ _ hfirst, hrow, Nat.add_sub_cancel_left,
          UInt64.toNat_ofNat_of_lt' (show line < 2 ^ 64 by have := row.toNat_lt; omega)]
      rw [if_neg (mt hpast.mp (by omega)), sub_eq hfirst, pure_bind, hlocal]
    | succ n =>
      rw [List.take_succ_cons, coverage_cons] at hrow
      rw [if_pos (hpast.mpr (by rw [height]; omega))]
      exact ih hrun (by rw [hnext, height]; omega) (by rw [hnext, height]; omega)

/-! ### Rows -/

namespace Matrix

variable {m : Matrix α} {row : Word}

/-- The columns of all blocks can be counted in words. Whatever else is stored can be. -/
def WidthsFit (m : Matrix α) : Prop :=
  match m.storage with
  | .dense .. | .csr .. => True
  | .bcsr runs _ => ∀ b ∈ runs, b.WidthFits m.cols

/-- The columns of what a row stores, those past the last column of the matrix included, are words. -/
def ColumnsFit (m : Matrix α) (row : Nat) : Prop := ∀ v, m.Holds v → v.row = row → v.col < 2 ^ 64

theorem columnsFit_of_format (h : m.format ≠ .bcsr) (row : Nat) : m.ColumnsFit row :=
  fun _ hv _ => Nat.lt_trans (hv.col_lt_of_format h) m.cols.toNat_lt

theorem WidthsFit.columnsFit (h : m.WidthsFit) (row : Nat) : m.ColumnsFit row := by
  intro v hv hrow
  by_cases hformat : m.format = .bcsr
  · cases hv with
    | @block runs shared run blockRow k i j blockCol b e storage hrun group column hi hj element =>
      simp only [WidthsFit, storage] at h
      have hwidth : blockColumns m.cols.toNat b.blockSize.toNat * b.blockSize.toNat < 2 ^ 64 :=
        h b (List.mem_of_getElem? hrun)
      have hfits := (run_fits storage hrun).entries
      obtain ⟨col, hcol, hlimit⟩ := hfits.exists_column (hfits.lt_of_inGroup group).2
      obtain rfl := Option.some.inj (column.symm.trans hcol)
      -- the block's last column is counted in the width
      have hle : (blockCol + 1) * b.blockSize.toNat ≤ _ := Nat.mul_le_mul_right b.blockSize.toNat hlimit
      rw [Nat.add_mul] at hle
      dsimp only
      omega
    | _ storage => simp [format, storage, Storage.format] at hformat
  · exact columnsFit_of_format hformat row v hv hrow

/-- For a line of a run, these are the columns of the blocks that it goes through. -/
theorem columnsFit_iff {runs : List (BlockRows α)} {shared : Bool} (storage : m.storage = .bcsr runs shared)
    {n line : Nat} {b : BlockRows α} (hrun : runs[n]? = some b) (hline : line < b.height) :
    m.ColumnsFit (BlockRows.coverage (runs.take n) + line) ↔
      b.ColumnsFit m.base (line / b.blockSize.toNat) := by
  have hfits := run_fits storage hrun
  have hpos := hfits.blockSize_pos
  constructor
  · intro h k blockCol group column
    have hlast : b.blockSize.toNat - 1 < b.blockSize.toNat := by omega
    obtain ⟨e, he⟩ := hfits.exists_element (hfits.entries.lt_of_inGroup group).2 (Nat.mod_lt line hpos) hlast
    have hcol := h _ (.block storage hrun group column (Nat.mod_lt line hpos) hlast he) (by
      rw [Nat.add_assoc, Nat.mul_comm, Nat.div_add_mod])
    dsimp only at hcol
    rw [Nat.add_mul]
    omega
  · intro h v hv hrow
    obtain ⟨k, j, blockCol, hgroup, hcolumn, hj, hcol⟩ := hv.block_of_row storage hrun hline hrow
    have hle := h k blockCol hgroup hcolumn
    rw [Nat.add_mul] at hle
    omega

/-- A row of a matrix in blocks is read as a line of some run. -/
theorem guardedRowEntries_eq_line {runs : List (BlockRows α)} {shared : Bool}
    (storage : m.storage = .bcsr runs shared) (hrow : row < m.rows) :
    ∃ n b line, runs[n]? = some b ∧ line < b.height ∧ line < 2 ^ 64 ∧
      row.toNat = BlockRows.coverage (runs.take n) + line ∧
      (m.guardedRowEntries row : Guarded ε (List (Word × Element α))) =
        b.guardedRowEntries m.base m.cols m.kind (UInt64.ofNat line) := by
  have hlt := UInt64.lt_iff_toNat_lt.mp hrow
  have hrows := m.rows.toNat_lt
  have hcoverage := coverage_runs storage
  obtain ⟨n, b, line, hrun, hline, hrow⟩ := BlockRows.exists_run (hcoverage.symm ▸ hlt)
  refine ⟨n, b, line, hrun, hline, by omega, hrow, ?_⟩
  simp only [guardedRowEntries, storage]
  refine BlockRows.guardedEntriesOfRuns_eq hrun hline ?_ ?_
  · rw [UInt64.toNat_zero, Nat.zero_add, hrow]
  · rw [UInt64.toNat_zero, Nat.zero_add, hcoverage]
    exact hrows

/-- A row of the matrix is read without a trap: what is read is what its places hold. -/
theorem guardedRowEntries_of_columnsFit (hrow : row < m.rows) (hcolumns : m.ColumnsFit row.toNat) :
    (m.guardedRowEntries row : Guarded ε (List (Word × Element α))) =
      pure ((m.visits row.toNat).map Visit.entry) := by
  have hlt := UInt64.lt_iff_toNat_lt.mp hrow
  cases hstorage : m.storage with
  | dense lda values =>
    have hfits := m.storage_fits
    rw [hstorage] at hfits
    obtain ⟨-, hlda, hcount, hsize⟩ := hfits
    have hlda := UInt64.le_iff_toNat_le.mp hlda
    have hslots : m.rows.toNat * lda.toNat ≤ values.size := by
      rw [hsize]
      exact Nat.le_mul_of_pos_right _ (width_pos m.kind)
    have hle : (row.toNat + 1) * lda.toNat ≤ m.rows.toNat * lda.toNat := Nat.mul_le_mul_right _ hlt
    rw [Nat.add_mul] at hle
    simp only [guardedRowEntries, visits, hstorage]
    rw [Word.range_zero]
    refine mapM_eq_filterMap fun col hcol => ?_
    have hcol := List.mem_range.mp hcol
    obtain ⟨e, he⟩ := Element.exists_at? hsize (show row.toNat * lda.toNat + col < _ by omega)
    refine ⟨_, Option.map_eq_some_iff.mpr ⟨e, he, rfl⟩, ?_⟩
    have hstart : (mul row lda : Guarded ε Word) = pure (UInt64.ofNat (row.toNat * lda.toNat)) := by
      have := mul_ofNat (ε := ε) (a := row.toNat) (w := lda) row.toNat_lt (by omega)
      rwa [UInt64.ofNat_toNat] at this
    rw [hstart, pure_bind, add_ofNat (by omega), pure_bind,
      Element.guardedRead_ofNat hcount he]
    rfl
  | csr c flags =>
    have hfits := compressed_fits hstorage
    have hsize := hfits.size_columns_lt (width_pos m.kind)
    simp only [guardedRowEntries, visits, hstorage]
    rw [hfits.guardedSlots_eq hrow, pure_bind]
    refine mapM_eq_filterMap fun k hk => ?_
    have hk := (hfits.lt_of_inGroup (Compressed.mem_group.mp hk)).2
    obtain ⟨col, hcol, -⟩ := hfits.exists_column hk
    obtain ⟨e, he⟩ := Element.exists_at? hfits.size_values hk
    refine ⟨_, Option.bind_eq_some_iff.mpr ⟨col, hcol, Option.map_eq_some_iff.mpr ⟨e, he, rfl⟩⟩, ?_⟩
    rw [hfits.guardedColumn_eq (by omega) hcol, pure_bind,
      Element.guardedRead_ofNat hfits.values_lt he]
    rfl
  | bcsr runs shared =>
    obtain ⟨n, b, line, hrun, hline, hword, hrow', hread⟩ := guardedRowEntries_eq_line (ε := ε) hstorage hrow
    have hvisits : m.visits row.toNat =
        b.visits m.base m.cols m.kind n (BlockRows.coverage (runs.take n)) line := by
      have hrun' := BlockRows.visitsOfRuns_eq m.base m.cols m.kind 0 0 hrun hline
      rw [Nat.zero_add, Nat.zero_add, ← hrow'] at hrun'
      simp only [visits, hstorage, hrun']
    rw [hrow'] at hcolumns
    rw [hread, (run_fits hstorage hrun).guardedRowEntries_eq hline hword
      ((columnsFit_iff hstorage hrun hline).mp hcolumns), hvisits]

/-- The only trap is a column that is no word. -/
theorem guardedRowEntries_eq_trap (hrow : row < m.rows) (hcolumns : ¬ m.ColumnsFit row.toNat) :
    (m.guardedRowEntries row : Guarded ε (List (Word × Element α))) = trap .overflow := by
  cases hstorage : m.storage with
  | bcsr runs shared =>
    obtain ⟨n, b, line, hrun, hline, hword, hrow', hread⟩ := guardedRowEntries_eq_line (ε := ε) hstorage hrow
    rw [hrow', columnsFit_iff hstorage hrun hline] at hcolumns
    rw [hread, (run_fits hstorage hrun).guardedRowEntries_eq_trap hline hword hcolumns]
  | _ =>
    refine absurd (columnsFit_of_format ?_ row.toNat) hcolumns
    simp [format, hstorage, Storage.format]

theorem guardedRowEntries_eq (hrow : row < m.rows) (hwidths : m.WidthsFit) :
    (m.guardedRowEntries row : Guarded ε (List (Word × Element α))) =
      pure ((m.visits row.toNat).map Visit.entry) :=
  guardedRowEntries_of_columnsFit hrow (hwidths.columnsFit row.toNat)

/-- The row holds what is read. -/
theorem rowEntries_of_columnsFit [Zero α] (hrow : row < m.rows) (hcolumns : m.ColumnsFit row.toNat) :
    m.rowEntries row = (m.visits row.toNat).map Visit.entry :=
  of_guardedRowEntries (guardedRowEntries_of_columnsFit (ε := Unit) hrow hcolumns)

theorem guardedRowEntries_eq_rowEntries [Zero α] (hrow : row < m.rows) (hcolumns : m.ColumnsFit row.toNat) :
    (m.guardedRowEntries row : Guarded ε (List (Word × Element α))) = pure (m.rowEntries row) := by
  rw [guardedRowEntries_of_columnsFit hrow hcolumns, rowEntries_of_columnsFit hrow hcolumns]

theorem rowEntries_eq [Zero α] (hrow : row < m.rows) (hwidths : m.WidthsFit) :
    m.rowEntries row = (m.visits row.toNat).map Visit.entry :=
  rowEntries_of_columnsFit hrow (hwidths.columnsFit row.toNat)

end Matrix

end AccelKrylov
