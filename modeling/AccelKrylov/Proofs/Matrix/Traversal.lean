import AccelKrylov.Proofs.Matrix.CrashFree

/-! Reading a matrix row by row comes to what it stores: once to every place of storage whose column is one
of the matrix, and nowhere else. Element access and the products are read off the same walk. -/

namespace AccelKrylov

open Guarded

variable {α : Type}

/-! ### What a row and a column read as -/

/-- The element at a row and a column: the first of those that are stored there, or zero if there is none. -/
inductive Matrix.ReadsAs [Zero α] (m : Matrix α) (row col : Nat) : Element α → Prop
  | stored {v : Visit α} (holds : m.Holds v) (hrow : v.row = row) (hcol : v.col = col)
      (first : ∀ w, m.Holds w → w.row = row → w.col = col → v.slot ≤ w.slot) :
    ReadsAs m row col v.element
  | absent (none : ∀ v, m.Holds v → v.row = row → v.col ≠ col) :
    ReadsAs m row col (Element.zero m.kind)

namespace Matrix

variable {m : Matrix α} {row col : Nat}

/-- Within a row a slot belongs to one place. -/
theorem Holds.eq_of_slot {v w : Visit α} (hv : m.Holds v) (hw : m.Holds w) (hrow : v.row = w.row)
    (hcol : v.col = w.col) (hlt : v.col < m.cols.toNat) (hslot : v.slot = w.slot) : v = w := by
  have hslots : ((m.visits v.row).map Visit.slot).Nodup :=
    (List.pairwise_map.mpr (m.sorted_visits v.row)).imp Nat.ne_of_lt
  exact List.inj_on_of_nodup_map hslots ((mem_visits hv.row_lt).mpr ⟨hv, rfl, hlt⟩)
    ((mem_visits hv.row_lt).mpr ⟨hw, hrow.symm, hcol ▸ hlt⟩) hslot

theorem ReadsAs.unique [Zero α] {e e' : Element α} (hcol : col < m.cols.toNat)
    (h : m.ReadsAs row col e) (h' : m.ReadsAs row col e') : e = e' := by
  cases h with
  | @stored v hv hrow hcolumn hfirst =>
    cases h' with
    | @stored w hw hrow' hcolumn' hfirst' =>
      have hslot := Nat.le_antisymm (hfirst w hw hrow' hcolumn') (hfirst' v hv hrow hcolumn)
      rw [hv.eq_of_slot hw (hrow.trans hrow'.symm) (hcolumn.trans hcolumn'.symm)
        (hcolumn ▸ hcol) hslot]
    | absent hnone => exact absurd hcolumn (hnone v hv hrow)
  | absent hnone =>
    cases h' with
    | @stored w hw hrow' hcolumn' hfirst' => exact absurd hcolumn' (hnone w hw hrow')
    | absent => rfl

theorem Visit.toNat_entry {v : Visit α} (hcol : v.col < m.cols.toNat) : v.entry.1.toNat = v.col := by
  have hlt := m.cols.toNat_lt
  exact UInt64.toNat_ofNat_of_lt' (show v.col < 2 ^ 64 by omega)

/-- The look-up in a row finds the first of the elements in the column. -/
theorem readsAs_lookup [Zero α] {row col : Word} (hrow : row < m.rows) (hcol : col < m.cols)
    (hcolumns : m.ColumnsFit row.toNat) : m.ReadsAs row.toNat col.toNat
      (((m.rowEntries row).lookup col).getD (Element.zero m.kind)) := by
  have hvisits {v : Visit α} : v ∈ m.visits row.toNat ↔ _ :=
    mem_visits (UInt64.lt_iff_toNat_lt.mp hrow)
  have hcol := UInt64.lt_iff_toNat_lt.mp hcol
  have hentry {v : Visit α} (hv : v ∈ m.visits row.toNat) : v.entry.1 = col ↔ v.col = col.toNat := by
    rw [← UInt64.toNat_inj, Visit.toNat_entry (hvisits.mp hv).2.2]
  rw [rowEntries_of_columnsFit hrow hcolumns]
  cases hlookup : ((m.visits row.toNat).map Visit.entry).lookup col with
  | none =>
    refine .absent fun v hv hrow' hcol' => ?_
    have hmem := hvisits.mpr ⟨hv, hrow', hcol' ▸ hcol⟩
    have hne := List.lookup_eq_none_iff.mp hlookup _ (List.mem_map_of_mem hmem)
    exact bne_iff_ne.mp hne ((hentry hmem).mpr hcol').symm
  | some e =>
    obtain ⟨before, behind, hsplit, hbefore⟩ := List.lookup_eq_some_iff.mp hlookup
    obtain ⟨vs, rest, hvs, rfl, hrest⟩ := List.map_eq_append_iff.mp hsplit
    obtain ⟨v, ws, rfl, hv, rfl⟩ := List.map_eq_cons_iff.mp hrest
    have hmem : v ∈ m.visits row.toNat := by rw [hvs]; simp
    obtain ⟨hholds, hrow', -⟩ := hvisits.mp hmem
    have hcol' := (hentry hmem).mp (congrArg Prod.fst hv)
    have helement : v.element = e := congrArg Prod.snd hv
    rw [Option.getD_some, ← helement]
    refine .stored hholds hrow' hcol' fun w hw hwrow hwcol => ?_
    have hwmem := hvisits.mpr ⟨hw, hwrow, hwcol ▸ hcol⟩
    have hwentry := (hentry hwmem).mpr hwcol
    have hsorted := m.sorted_visits row.toNat
    rw [hvs] at hwmem hsorted
    obtain hmem | hmem := List.mem_append.mp hwmem
    · exact absurd hwentry.symm (by simpa using hbefore _ (List.mem_map_of_mem hmem))
    · obtain rfl | hmem := List.mem_cons.mp hmem
      · exact Nat.le_refl _
      · have hbehind := (List.pairwise_append.mp hsorted).2.1
        exact Nat.le_of_lt ((List.pairwise_cons.mp hbehind).1 w hmem)

theorem guardedGet?_eq [Zero α] {ε : Type} {row col : Word}
    (h : row < m.rows → col < m.cols → m.ColumnsFit row.toNat) :
    (m.guardedGet? row col : Guarded ε (Option (Element α))) = pure (m.get? row col) := by
  rw [guardedGet?, get?]
  split
  next hin => rw [guardedRowEntries_eq_rowEntries hin.1 (h hin.1 hin.2), pure_bind]
  next => rfl

/-- What element access reads, where there is something to read. -/
theorem get?_of_columnsFit [Zero α] {row col : Word} {e : Element α} (hcolumns : m.ColumnsFit row.toNat) :
    m.get? row col = some e ↔ row < m.rows ∧ col < m.cols ∧ m.ReadsAs row.toNat col.toNat e := by
  rw [get?, Option.ite_none_right_eq_some, Option.some.injEq, and_assoc]
  refine and_congr_right fun hrow => and_congr_right fun hcol => ?_
  have hreads := readsAs_lookup hrow hcol hcolumns
  exact ⟨fun h => h ▸ hreads, fun h => hreads.unique (UInt64.lt_iff_toNat_lt.mp hcol) h⟩

theorem get?_eq_some_iff [Zero α] {row col : Word} {e : Element α} (hwidths : m.WidthsFit) :
    m.get? row col = some e ↔ row < m.rows ∧ col < m.cols ∧ m.ReadsAs row.toNat col.toNat e :=
  get?_of_columnsFit (hwidths.columnsFit row.toNat)

/-! ### Products along the walk -/

theorem storedAt_eq_visits [Zero α] {row : Word} (hrow : row < m.rows) (hwidths : m.WidthsFit) (col : Nat) :
    m.storedAt row col = ((m.visits row.toNat).filter fun v => v.col = col).map Visit.element := by
  have hfilter : (m.visits row.toNat).filter (fun v => v.entry.1.toNat = col) =
      (m.visits row.toNat).filter fun v => v.col = col := by
    refine List.filter_congr fun v hv => ?_
    rw [Visit.toNat_entry ((mem_visits (UInt64.lt_iff_toNat_lt.mp hrow)).mp hv).2.2]
  rw [storedAt, rowEntries_eq hrow hwidths, List.filter_map, List.map_map, ← hfilter]
  rfl

section
variable [Zero α] [Add α] [Mul α]

theorem rowProduct_eq_visits {row : Word} (hrow : row < m.rows) (hwidths : m.WidthsFit) (x : Array α) :
    m.rowProduct x row =
      (m.visits row.toNat).foldl (fun sum v => sum + v.element.re * x.getD v.col 0) 0 := by
  rw [rowProduct, rowEntries_eq hrow hwidths, List.foldl_map]
  refine List.foldl_ext _ _ _ fun sum v hv => ?_
  have hcol := ((mem_visits (UInt64.lt_iff_toNat_lt.mp hrow)).mp hv).2.2
  dsimp only
  rw [Visit.toNat_entry hcol]
  rfl

end

/-! ### The walk and storage -/

/-- Reading by rows and storage agree. -/
structure RowsMatchStorage [Zero α] [Add α] [Mul α] (m : Matrix α) : Prop where
  /-- No offset, column or number is looked up that its array does not have, and no word overflows. -/
  unstopped : ∀ row < m.rows, (m.guardedRowEntries row : Guarded Unit _) = pure (m.rowEntries row)
  col_lt : ∀ row < m.rows, ∀ entry ∈ m.rowEntries row, entry.1 < m.cols
  read : ∀ row < m.rows, m.rowEntries row = (m.visits row.toNat).map Visit.entry
  ordered : ∀ row, (m.visits row).Pairwise fun v w => v.slot < w.slot
  /-- A walk over all rows comes to no place twice. -/
  once : (m.traversal.map Visit.place).Nodup
  visited : ∀ v, v ∈ m.traversal ↔ m.Holds v ∧ v.col < m.cols.toNat
  /-- Every place of storage has its element, its row and its column. -/
  located : ∀ p, m.HasPlace p ↔ ∃ v, m.Holds v ∧ v.place = p
  determined : ∀ v w, m.Holds v → m.Holds w → v.place = w.place → v = w
  row_lt : ∀ v, m.Holds v → v.row < m.rows.toNat
  unstoppedAccess : ∀ row col, (m.guardedGet? row col : Guarded Unit _) = pure (m.get? row col)
  access : ∀ row col e, m.get? row col = some e ↔
    row < m.rows ∧ col < m.cols ∧ m.ReadsAs row.toNat col.toNat e
  outside : ∀ row col, m.get? row col = none ↔ ¬ (row < m.rows ∧ col < m.cols)
  unstoppedProducts : ∀ (range : RowRange) (x : Array α),
    m.guardedProductRows range x = lift (m.productRows range x) ∧
      m.guardedTransposeProductRows range x = lift (m.transposeProductRows range x)
  product : m.kind = .real → ∀ range : RowRange, range.stop ≤ m.rows → ∀ x : Array α,
    x.size = m.cols.toNat → m.productRows range x =
      .ok ((Word.range range.start range.stop).map fun row =>
        (m.visits row.toNat).foldl (fun sum v => sum + v.element.re * x.getD v.col 0) 0).toArray
  transposeProduct : m.kind = .real → ∀ range : RowRange, range.stop ≤ m.rows → ∀ x : Array α,
    x.size = m.rows.toNat → ∃ y, m.transposeProductRows range x = .ok y ∧ ∀ col,
      y[col]? = if col < m.cols.toNat then
        some ((((Word.range range.start range.stop).flatMap fun row => m.visits row.toNat).filter
          fun v => v.col = col).foldl (fun sum v => sum + v.element.re * x.getD v.row 0) 0)
      else none

/-- Reading a matrix by rows, whatever its storage, visits exactly what it stores. -/
theorem rows_match_storage [Zero α] [Add α] [Mul α] (m : Matrix α) (hwidths : m.WidthsFit) :
    m.RowsMatchStorage where
  unstopped row hrow := by rw [rowEntries_eq hrow hwidths, guardedRowEntries_eq hrow hwidths]
  col_lt row hrow entry hentry := col_lt_of_mem_rowEntries hrow hentry
  read row hrow := rowEntries_eq hrow hwidths
  ordered := m.sorted_visits
  once := m.nodup_traversal
  visited _ := mem_traversal
  located p := ⟨exists_holds, by rintro ⟨v, hv, rfl⟩; exact hv.hasPlace⟩
  determined _ _ hv hw hplace := hv.unique hw hplace
  row_lt _ hv := hv.row_lt
  unstoppedAccess row _ := guardedGet?_eq fun _ _ => hwidths.columnsFit row.toNat
  access _ _ _ := get?_eq_some_iff hwidths
  outside row col := by rw [get?]; simp
  unstoppedProducts range x :=
    ⟨guardedProductRows_eq hwidths range x, guardedTransposeProductRows_eq hwidths range x⟩
  product hreal range hstop x hsize := by
    refine productRows_eq_ok.mpr ⟨hreal, hsize, hstop, congrArg List.toArray ?_⟩
    refine List.map_congr_left fun row hrow => rowProduct_eq_visits ?_ hwidths x
    exact UInt64.lt_of_lt_of_le (Word.mem_range.mp hrow).2 hstop
  transposeProduct hreal range hstop x hsize := by
    have hproduct := transposeProductRows_eq_ok.mpr ⟨hreal, hsize, hstop, rfl⟩
    refine ⟨_, hproduct, fun col => ?_⟩
    rw [getElem?_transposeProductRows hproduct, List.filter_flatMap, List.foldl_flatMap]
    congr 2
    refine List.foldl_ext _ _ _ fun sum row hrow => ?_
    have hrow := UInt64.lt_of_lt_of_le (Word.mem_range.mp hrow).2 hstop
    rw [storedAt_eq_visits hrow hwidths, List.foldl_map]
    refine List.foldl_ext _ _ _ fun sum v hv => ?_
    have hv := ((mem_visits (UInt64.lt_iff_toNat_lt.mp hrow)).mp (List.mem_of_mem_filter hv)).2.1
    rw [hv]

end Matrix

/-- A matrix of five rows and three columns, in blocks of four numbers, then in none, then in blocks of one.
The second column of the blocks in block column two lies past the last column of the matrix. -/
def mixedBlocks : Matrix Int where
  rows := 5
  cols := 3
  base := 1
  kind := .real
  representation := .general
  storage := .bcsr
    [⟨⟨#[1, 3, 4], #[1, 2, 2], #[1, 2, 3, 4, 5, 0, 6, 0, 7, 0, 8, 0]⟩, 2, 2⟩,
      ⟨⟨#[1], #[], #[]⟩, 2, 0⟩,
      ⟨⟨#[1, 3], #[1, 3], #[9, 10]⟩, 1, 1⟩] false
  fits := by cbv

theorem rows_match_storage_mixedBlocks : mixedBlocks.WidthsFit ∧ mixedBlocks.RowsMatchStorage :=
  have hwidths : mixedBlocks.WidthsFit := by
    change ∀ b ∈ _, BlockRows.WidthFits b 3
    decide
  ⟨hwidths, mixedBlocks.rows_match_storage hwidths⟩

end AccelKrylov
