import Mathlib.Algebra.BigOperators.Intervals
import Mathlib.Algebra.BigOperators.Ring.Finset
import AccelKrylov.Matrix.Product
import AccelKrylov.Proofs.Matrix.RowEntries

/-! Products entry by entry. Both add up what is stored at a row and a column wherever that is, the plain
product along rows and the transposed one down columns; in exact arithmetic they are the products of the
matrix of these sums, elements that are stored at the same place of the matrix counted together. -/

namespace AccelKrylov

/-- A sum over a range of words is one over the numbers in it. -/
theorem Word.sum_range {β : Type} [AddCommMonoid β] (start stop : Word) (f : Nat → β) :
    ((range start stop).map fun w => f w.toNat).sum = ∑ i ∈ Finset.Ico start.toNat stop.toNat, f i := by
  have hlt := stop.toNat_lt
  have hmap : (range start stop).map (fun w => f w.toNat) =
      (List.range' start.toNat (stop.toNat - start.toNat)).map f := by
    rw [range_eq, List.map_map]
    refine List.map_congr_left fun i hi => ?_
    have hi := List.mem_range'_1.mp hi
    rw [Function.comp_apply, UInt64.toNat_ofNat_of_lt' (show i < 2 ^ 64 by omega)]
  rw [hmap]
  rfl

namespace Matrix

variable {α : Type} {m : Matrix α}

/-- The columns that a row is read with are columns of the matrix, also where the columns of blocks cannot be
counted in words. -/
theorem col_lt_of_mem_rowEntries [Zero α] {row : Word} (hrow : row < m.rows) {entry : Word × Element α}
    (h : entry ∈ m.rowEntries row) : entry.1 < m.cols := by
  cases hstorage : m.storage with
  | bcsr runs shared =>
    have hruns (runs : List (BlockRows α)) (i : Word)
        (h : entry ∈ BlockRows.entriesOfRuns m.base m.cols m.kind runs i) : entry.1 < m.cols := by
      induction runs generalizing i with
      | nil => cases h
      | cons b runs ih =>
        rw [BlockRows.entriesOfRuns] at h
        split at h
        · exact ih _ h
        · obtain ⟨k, -, h⟩ := List.mem_flatMap.mp h
          obtain ⟨c, -, h⟩ := List.mem_filterMap.mp h
          obtain ⟨hlt, h⟩ := Option.ite_none_right_eq_some.mp h
          obtain rfl := Option.some.inj h
          have hcols := m.cols.toNat_lt
          rwa [UInt64.lt_iff_toNat_lt, UInt64.toNat_add, Nat.mod_eq_of_lt (by omega)]
    rw [rowEntries, hstorage] at h
    exact hruns runs row h
  | _ =>
    rw [rowEntries_eq hrow (by rw [WidthsFit, hstorage]; trivial)] at h
    obtain ⟨v, hv, rfl⟩ := List.mem_map.mp h
    have hcol := ((mem_visits (UInt64.lt_iff_toNat_lt.mp hrow)).mp hv).2.2
    have hcols := m.cols.toNat_lt
    rw [UInt64.lt_iff_toNat_lt, Visit.entry, UInt64.toNat_ofNat_of_lt' (show v.col < 2 ^ 64 by omega)]
    exact hcol

/-! ### Any arithmetic -/

/-- The elements that are stored at a row and a column, in storage order. -/
def storedAt [Zero α] (m : Matrix α) (row : Word) (col : Nat) : List (Element α) :=
  ((m.rowEntries row).filter fun entry => entry.1.toNat = col).map Prod.snd

section
variable [Zero α] [Add α] [Mul α]

omit [Zero α] in
theorem getElem?_foldl_modify (entries : List (Word × Element α)) (s : α) (y : Array α) (j : Nat) :
    (entries.foldl (fun y (col, e) => y.modify col.toNat (· + e.re * s)) y)[j]? =
      y[j]?.map fun yj => ((entries.filter fun entry => entry.1.toNat = j).map Prod.snd).foldl
        (fun sum e => sum + e.re * s) yj := by
  induction entries generalizing y with
  | nil => simp
  | cons entry entries ih =>
    rw [List.foldl_cons, ih, Array.getElem?_modify, List.filter_cons]
    by_cases h : entry.1.toNat = j
    · simp [h, Function.comp_def]
    · simp [h]

/-- What a row adds to a column. -/
theorem getElem?_addRow (row : Word) (s : α) (y : Array α) (j : Nat) : (m.addRow row s y)[j]? =
    y[j]?.map fun yj => (m.storedAt row j).foldl (fun sum e => sum + e.re * s) yj :=
  getElem?_foldl_modify ..

theorem getElem?_foldl_addRow (rows : List Word) (x y : Array α) (j : Nat) :
    (rows.foldl (fun y row => m.addRow row (x.getD row.toNat 0) y) y)[j]? = y[j]?.map fun yj =>
      rows.foldl (fun sum row =>
        (m.storedAt row j).foldl (fun sum e => sum + e.re * x.getD row.toNat 0) sum) yj := by
  induction rows generalizing y with
  | nil => simp
  | cons row rows ih => rw [List.foldl_cons, ih, getElem?_addRow, Option.map_map]; rfl

theorem productRows_eq_ok {range : RowRange} {x y : Array α} : m.productRows range x = .ok y ↔
    m.kind = .real ∧ x.size = m.cols.toNat ∧ range.stop ≤ m.rows ∧
      ((Word.range range.start range.stop).map (m.rowProduct x)).toArray = y := by
  simp only [productRows, bind_eq_ok, ensure_eq_ok, exists_const, Except.ok.injEq, and_assoc]

theorem exists_product (hreal : m.kind = .real) {x : Array α} (hx : x.size = m.cols.toNat) :
    ∃ y, m.product x = .ok y :=
  ⟨_, productRows_eq_ok.mpr ⟨hreal, hx, UInt64.le_refl m.allRows.stop, rfl⟩⟩

theorem transposeProductRows_eq_ok {range : RowRange} {x y : Array α} :
    m.transposeProductRows range x = .ok y ↔
      m.kind = .real ∧ x.size = m.rows.toNat ∧ range.stop ≤ m.rows ∧
        (Word.range range.start range.stop).foldl
          (fun y row => m.addRow row (x.getD row.toNat 0) y) (Vec.zeros m.cols.toNat) = y := by
  simp only [transposeProductRows, bind_eq_ok, ensure_eq_ok, exists_const, Except.ok.injEq, and_assoc]

/-- A column of the transposed product: what the rows add to it, one after the other. -/
theorem getElem?_transposeProductRows {range : RowRange} {x y : Array α}
    (h : m.transposeProductRows range x = .ok y) (j : Nat) :
    y[j]? = if j < m.cols.toNat then
      some ((Word.range range.start range.stop).foldl (fun sum row =>
        (m.storedAt row j).foldl (fun sum e => sum + e.re * x.getD row.toNat 0) sum) 0)
    else none := by
  obtain ⟨-, -, -, rfl⟩ := transposeProductRows_eq_ok.mp h
  rw [getElem?_foldl_addRow, Vec.zeros, Array.getElem?_replicate]
  split <;> rfl

end

/-! ### Exact arithmetic -/

section
variable [Semiring α]

/-- The sum of the elements that are stored at a row and a column. -/
def coefficient (m : Matrix α) (row col : Nat) : α :=
  ((m.storedAt (UInt64.ofNat row) col).map Element.re).sum

theorem foldl_add_mul (elements : List (Element α)) (s init : α) :
    elements.foldl (fun sum e => sum + e.re * s) init = init + (elements.map Element.re).sum * s := by
  induction elements generalizing init with
  | nil => simp
  | cons e elements ih => rw [List.foldl_cons, ih, List.map_cons, List.sum_cons, add_mul, add_assoc]

/-- Adding up entry by entry is adding up column by column. -/
theorem sum_entries (entries : List (Word × Element α)) (x : Nat → α) {cols : Nat}
    (hcols : ∀ entry ∈ entries, entry.1.toNat < cols) (init : α) :
    entries.foldl (fun sum (col, e) => sum + e.re * x col.toNat) init =
      init + ∑ j ∈ Finset.range cols,
        (((entries.filter fun entry => entry.1.toNat = j).map Prod.snd).map Element.re).sum * x j := by
  induction entries generalizing init with
  | nil => simp
  | cons entry entries ih =>
    obtain ⟨hentry, hcols⟩ := List.forall_mem_cons.mp hcols
    have hsplit (j : Nat) : ((((entry :: entries).filter fun entry => entry.1.toNat = j).map
        Prod.snd).map Element.re).sum * x j = (if entry.1.toNat = j then entry.2.re * x j else 0) +
          (((entries.filter fun entry => entry.1.toNat = j).map Prod.snd).map Element.re).sum * x j := by
      by_cases h : entry.1.toNat = j
      · simp [h, add_mul]
      · simp [h]
    simp only [List.foldl_cons, ih hcols, hsplit]
    rw [Finset.sum_add_distrib, Finset.sum_ite_eq, if_pos (Finset.mem_range.mpr hentry), add_assoc]

/-- An entry of the product of the matrix with a vector. -/
theorem rowProduct_eq_sum {row : Word} (hrow : row < m.rows) (x : Array α) : m.rowProduct x row =
    ∑ j ∈ Finset.range m.cols.toNat, m.coefficient row.toNat j * x.getD j 0 := by
  have hcols : ∀ entry ∈ m.rowEntries row, entry.1.toNat < m.cols.toNat := fun entry hentry =>
    UInt64.lt_iff_toNat_lt.mp (col_lt_of_mem_rowEntries hrow hentry)
  have hsum := sum_entries (m.rowEntries row) (fun j => x.getD j 0) hcols 0
  rw [zero_add] at hsum
  simp only [coefficient, UInt64.ofNat_toNat]
  exact hsum

theorem getElem?_productRows {range : RowRange} {x y : Array α} (h : m.productRows range x = .ok y)
    (i : Nat) : y[i]? = if range.start.toNat + i < range.stop.toNat then
      some (∑ j ∈ Finset.range m.cols.toNat, m.coefficient (range.start.toNat + i) j * x.getD j 0)
    else none := by
  obtain ⟨-, -, hstop, rfl⟩ := productRows_eq_ok.mp h
  have hlt := range.stop.toNat_lt
  have hle := UInt64.le_iff_toNat_le.mp hstop
  rw [List.getElem?_toArray, List.getElem?_map, Word.getElem?_range]
  split
  next hi =>
    have hrow : (UInt64.ofNat (range.start.toNat + i)).toNat = range.start.toNat + i :=
      UInt64.toNat_ofNat_of_lt' (show _ < 2 ^ 64 by omega)
    rw [Option.map_some, rowProduct_eq_sum (by rw [UInt64.lt_iff_toNat_lt]; omega), hrow]
  next hi => rfl

/-- An entry of the product of the transposed matrix with a vector. -/
theorem transposeProductRows_eq_sum {range : RowRange} {x y : Array α}
    (h : m.transposeProductRows range x = .ok y) (j : Nat) : y[j]? = if j < m.cols.toNat then
      some (∑ i ∈ Finset.Ico range.start.toNat range.stop.toNat, m.coefficient i j * x.getD i 0)
    else none := by
  have hsum (rows : List Word) (init : α) : rows.foldl (fun sum row =>
      (m.storedAt row j).foldl (fun sum e => sum + e.re * x.getD row.toNat 0) sum) init =
        init + (rows.map fun row => m.coefficient row.toNat j * x.getD row.toNat 0).sum := by
    induction rows generalizing init with
    | nil => simp
    | cons row rows ih =>
      rw [List.foldl_cons, ih, foldl_add_mul, List.map_cons, List.sum_cons, add_assoc, coefficient,
        UInt64.ofNat_toNat]
  rw [getElem?_transposeProductRows h, hsum, zero_add,
    Word.sum_range _ _ fun i => m.coefficient i j * x.getD i 0]

end

end Matrix

end AccelKrylov
