import Mathlib.Data.List.Range
import Mathlib.Data.Nat.Find
import AccelKrylov.Proofs.Matrix.Fits

/-! Where the elements of a matrix are stored, and at which coordinates, in plain numbers. Every place in
storage belongs to one row and one column; `Matrix.visits` lists the places of a row in storage order,
without those of columns past the last one, so that a walk over all rows comes to every other place once. -/

namespace AccelKrylov

variable {α : Type}

/-! ### Places -/

/-- Where an element is stored: in a row and a column of a dense array, as an entry of compressed rows, or
in line `i` and column `j` of block `k` of a run. -/
inductive Place where
  | dense (row col : Nat)
  | entry (k : Nat)
  | block (run k i j : Nat)

/-- An element with its place, its coordinates, and its number among the elements of its array. -/
structure Visit (α : Type) where
  place : Place
  row : Nat
  col : Nat
  slot : Nat
  element : Element α

/-- The element in slot `slot` of a run of numbers, if the numbers go that far. -/
def Element.at? (values : Array α) (kind : ValueKind) (slot : Nat) : Option (Element α) :=
  match kind with
  | .real => values[slot]?.map real
  | .complex => values[2 * slot]?.bind fun re => values[2 * slot + 1]?.map fun im => complex re im

theorem Element.exists_at? {values : Array α} {kind : ValueKind} {n slot : Nat}
    (hsize : values.size = n * kind.width.toNat) (hslot : slot < n) :
    ∃ e, at? values kind slot = some e := by
  cases kind with
  | real =>
    have hwidth : ValueKind.real.width.toNat = 1 := rfl
    rw [hwidth] at hsize
    rw [at?, Array.getElem?_eq_getElem (by omega)]
    exact ⟨_, rfl⟩
  | complex =>
    have hwidth : ValueKind.complex.width.toNat = 2 := rfl
    rw [hwidth] at hsize
    rw [at?, Array.getElem?_eq_getElem (show 2 * slot < values.size by omega), Option.bind_some,
      Array.getElem?_eq_getElem (by omega)]
    exact ⟨_, rfl⟩

/-! ### Groups of compressed entries -/

namespace Compressed

/-- Entry `k` belongs to group `i`. -/
def InGroup (c : Compressed α) (base : Word) (i k : Nat) : Prop :=
  ∃ start stop, c.offsets[i]? = some start ∧ c.offsets[i + 1]? = some stop ∧
    start.toNat - base.toNat ≤ k ∧ k < stop.toNat - base.toNat

/-- The entries of group `i`, in order. -/
def group (c : Compressed α) (base : Word) (i : Nat) : List Nat :=
  match c.offsets[i]?, c.offsets[i + 1]? with
  | some start, some stop =>
    List.range' (start.toNat - base.toNat) (stop.toNat - base.toNat - (start.toNat - base.toNat))
  | _, _ => []

/-- The column of entry `k`, counted from zero. -/
def column? (c : Compressed α) (base : Word) (k : Nat) : Option Nat :=
  c.columns[k]?.map fun j => j.toNat - base.toNat

theorem mem_group {c : Compressed α} {base : Word} {i k : Nat} :
    k ∈ c.group base i ↔ c.InGroup base i k := by
  unfold group InGroup
  split
  next start stop hstart hstop =>
    rw [List.mem_range'_1]
    constructor
    · rintro ⟨hfrom, hto⟩
      exact ⟨start, stop, hstart, hstop, hfrom, by omega⟩
    · rintro ⟨start', stop', hstart', hstop', hfrom, hto⟩
      obtain rfl := Option.some.inj (hstart.symm.trans hstart')
      obtain rfl := Option.some.inj (hstop.symm.trans hstop')
      omega
  next hnone =>
    refine iff_of_false List.not_mem_nil ?_
    rintro ⟨start, stop, hstart, hstop, -⟩
    exact hnone start stop hstart hstop

theorem sorted_group (c : Compressed α) (base : Word) (i : Nat) :
    (c.group base i).Pairwise (· < ·) := by
  unfold group
  split
  · exact List.pairwise_lt_range'
  · exact .nil

namespace Fits

variable {c : Compressed α} {outer base : Word} {limit stride : Nat}

theorem offset_le (h : c.Fits outer base limit stride) {i j : Nat} {a b : Word} (hij : i ≤ j)
    (hi : c.offsets[i]? = some a) (hj : c.offsets[j]? = some b) : a.toNat ≤ b.toNat := by
  rw [← Array.getElem?_toList] at hi hj
  obtain ⟨hilt, rfl⟩ := List.getElem?_eq_some_iff.mp hi
  obtain ⟨hjlt, rfl⟩ := List.getElem?_eq_some_iff.mp hj
  obtain rfl | hlt := Nat.eq_or_lt_of_le hij
  · exact Nat.le_refl _
  · exact UInt64.le_iff_toNat_le.mp (List.pairwise_iff_getElem.mp h.sorted i j hilt hjlt hlt)

theorem base_le (h : c.Fits outer base limit stride) {i : Nat} {a : Word}
    (hi : c.offsets[i]? = some a) : base.toNat ≤ a.toNat :=
  h.offset_le (Nat.zero_le i) h.first hi

theorem exists_offset (h : c.Fits outer base limit stride) {i : Nat} (hi : i ≤ outer.toNat) :
    ∃ a, c.offsets[i]? = some a :=
  ⟨_, Array.getElem?_eq_getElem (by rw [h.size_offsets]; omega)⟩

theorem size_of_last (h : c.Fits outer base limit stride) {a : Word} (ha : c.offsets[outer.toNat]? = some a) :
    c.columns.size = a.toNat - base.toNat := by
  rw [h.size_columns, Array.getD_eq_getD_getElem?, ha, Option.getD_some]

theorem lt_of_inGroup (h : c.Fits outer base limit stride) {i k : Nat} (hk : c.InGroup base i k) :
    i < outer.toNat ∧ k < c.columns.size := by
  obtain ⟨start, stop, hstart, hstop, hfrom, hto⟩ := hk
  have hi := (Array.getElem?_eq_some_iff.mp hstop).1
  rw [h.size_offsets] at hi
  obtain ⟨end', hend⟩ := h.exists_offset (Nat.le_refl _)
  have hle := h.offset_le (show i + 1 ≤ outer.toNat by omega) hstop hend
  have hlast := h.size_of_last hend
  omega

/-- Every entry belongs to a group: the first one that ends behind it. -/
theorem exists_inGroup (h : c.Fits outer base limit stride) {k : Nat} (hk : k < c.columns.size) :
    ∃ i, c.InGroup base i k := by
  obtain ⟨end', hend⟩ := h.exists_offset (Nat.le_refl _)
  have hlast := h.size_of_last hend
  have hexists : ∃ i, ∃ a : Word, c.offsets[i]? = some a ∧ k < a.toNat - base.toNat :=
    ⟨outer.toNat, end', hend, by omega⟩
  classical
  obtain ⟨stop, hstop, hto⟩ := Nat.find_spec hexists
  have hbefore := fun j hj => Nat.find_min (m := j) hexists hj
  cases hi : Nat.find hexists with
  | zero =>
    rw [hi] at hstop
    obtain rfl := Option.some.inj (hstop.symm.trans h.first)
    omega
  | succ i =>
    rw [hi] at hstop hbefore
    have hsize := (Array.getElem?_eq_some_iff.mp hstop).1
    have hstart : c.offsets[i]? = some c.offsets[i] := Array.getElem?_eq_getElem (by omega)
    refine ⟨i, _, stop, hstart, hstop, ?_, hto⟩
    exact Nat.le_of_not_lt fun hlt => hbefore i (Nat.lt_succ_self i) ⟨_, hstart, hlt⟩

theorem inGroup_unique (h : c.Fits outer base limit stride) {i j k : Nat}
    (hi : c.InGroup base i k) (hj : c.InGroup base j k) : i = j := by
  obtain ⟨start, stop, hstart, hstop, hfrom, hto⟩ := hi
  obtain ⟨start', stop', hstart', hstop', hfrom', hto'⟩ := hj
  obtain hlt | rfl | hlt := Nat.lt_trichotomy i j
  · have := h.offset_le (show i + 1 ≤ j by omega) hstop hstart'
    omega
  · rfl
  · have := h.offset_le (show j + 1 ≤ i by omega) hstop' hstart
    omega

theorem exists_column (h : c.Fits outer base limit stride) {k : Nat} (hk : k < c.columns.size) :
    ∃ col, c.column? base k = some col ∧ col < limit := by
  refine ⟨c.columns[k].toNat - base.toNat, ?_, (h.column_lt _ (Array.getElem_mem hk)).2⟩
  rw [column?, Array.getElem?_eq_getElem hk]
  rfl

end Fits

end Compressed

/-! ### What a matrix stores -/

/-- How many rows a run covers. -/
def BlockRows.height (b : BlockRows α) : Nat := b.blockRows.toNat * b.blockSize.toNat

/-- The matrix stores an element at a place, for a row and a column. Blocks reach past the last column if
their size does not divide the number of columns. -/
inductive Matrix.Holds (m : Matrix α) : Visit α → Prop
  | dense {lda : Word} {values : Array α} {row col : Nat} {e : Element α}
    (storage : m.storage = .dense lda values) (hrow : row < m.rows.toNat) (hcol : col < m.cols.toNat)
    (element : Element.at? values m.kind (row * lda.toNat + col) = some e) :
    Holds m ⟨.dense row col, row, col, row * lda.toNat + col, e⟩
  | entry {c : Compressed α} {flags : Flags} {row k col : Nat} {e : Element α}
    (storage : m.storage = .csr c flags) (group : c.InGroup m.base row k)
    (column : c.column? m.base k = some col) (element : Element.at? c.values m.kind k = some e) :
    Holds m ⟨.entry k, row, col, k, e⟩
  | block {runs : List (BlockRows α)} {shared : Bool} {run blockRow k i j blockCol : Nat}
    {b : BlockRows α} {e : Element α}
    (storage : m.storage = .bcsr runs shared) (hrun : runs[run]? = some b)
    (group : b.InGroup m.base blockRow k) (column : b.column? m.base k = some blockCol)
    (hi : i < b.blockSize.toNat) (hj : j < b.blockSize.toNat)
    (element : Element.at? b.values m.kind
      (k * b.blockSize.toNat * b.blockSize.toNat + i * b.blockSize.toNat + j) = some e) :
    Holds m ⟨.block run k i j,
      BlockRows.coverage (runs.take run) + blockRow * b.blockSize.toNat + i,
      blockCol * b.blockSize.toNat + j,
      k * b.blockSize.toNat * b.blockSize.toNat + i * b.blockSize.toNat + j, e⟩

/-- Storage has the place. The slots of a dense array between the last column and the next row are none. -/
def Matrix.HasPlace (m : Matrix α) : Place → Prop
  | .dense row col =>
    ∃ lda values, m.storage = .dense lda values ∧ row < m.rows.toNat ∧ col < m.cols.toNat
  | .entry k => ∃ c flags, m.storage = .csr c flags ∧ k < c.columns.size
  | .block run k i j => ∃ runs shared b, m.storage = .bcsr runs shared ∧ runs[run]? = some b ∧
      k < b.columns.size ∧ i < b.blockSize.toNat ∧ j < b.blockSize.toNat

theorem BlockRows.coverage_take {runs : List (BlockRows α)} {n : Nat} {b : BlockRows α}
    (h : runs[n]? = some b) : coverage (runs.take n) + b.height ≤ coverage runs := by
  induction runs generalizing n with
  | nil => cases h
  | cons b' runs ih =>
    cases n with
    | zero =>
      obtain rfl := Option.some.inj h
      rw [coverage_cons, List.take_zero]
      simp [coverage, height]
    | succ n =>
      have := ih h
      rw [coverage_cons, List.take_succ_cons, coverage_cons]
      omega

/-- A run that comes later begins behind. -/
theorem BlockRows.coverage_take_le {runs : List (BlockRows α)} {n n' : Nat} {b : BlockRows α}
    (h : runs[n]? = some b) (hlt : n < n') :
    coverage (runs.take n) + b.height ≤ coverage (runs.take n') := by
  have hrun : (runs.take n')[n]? = some b := by rw [List.getElem?_take, if_pos hlt, h]
  have hle := coverage_take hrun
  rwa [List.take_take, Nat.min_eq_left (Nat.le_of_lt hlt)] at hle

/-- Every row that is covered is a line of some run. -/
theorem BlockRows.exists_run {runs : List (BlockRows α)} {row : Nat} (h : row < coverage runs) :
    ∃ n b line, runs[n]? = some b ∧ line < b.height ∧ row = coverage (runs.take n) + line := by
  induction runs generalizing row with
  | nil => cases h
  | cons b runs ih =>
    rw [coverage_cons] at h
    by_cases hline : row < b.height
    · exact ⟨0, b, row, rfl, hline, (Nat.zero_add row).symm⟩
    · have hrest : row - b.height < coverage runs := by
        rw [height] at *
        omega
      obtain ⟨n, b', line, hrun, hlt, hrow⟩ := ih hrest
      refine ⟨n + 1, b', line, hrun, hlt, ?_⟩
      rw [List.take_succ_cons, coverage_cons]
      rw [height] at *
      omega

/-- Line `i` of block row `r` is among the rows of the run. -/
theorem BlockRows.line_lt_height {b : BlockRows α} {r i : Nat} (hr : r < b.blockRows.toNat)
    (hi : i < b.blockSize.toNat) : r * b.blockSize.toNat + i < b.height := by
  have hle : (r + 1) * b.blockSize.toNat ≤ b.height := Nat.mul_le_mul_right _ hr
  rw [Nat.add_mul] at hle
  omega

/-- The slots of the first `n` blocks are used up by their elements. -/
theorem blockSlot_lt {size n k i j : Nat} (hk : k < n) (hi : i < size) (hj : j < size) :
    k * size * size + i * size + j < n * size * size := by
  have hline : (i + 1) * size ≤ size * size := Nat.mul_le_mul_right _ hi
  have hblock : (k + 1) * (size * size) ≤ n * (size * size) := Nat.mul_le_mul_right _ hk
  rw [Nat.add_mul] at hline hblock
  rw [Nat.mul_assoc, Nat.mul_assoc]
  omega

theorem BlockRows.Fits.size_values {b : BlockRows α} {cols base : Word} {kind : ValueKind}
    (h : b.Fits cols base kind) : b.values.size =
      b.columns.size * b.blockSize.toNat * b.blockSize.toNat * kind.width.toNat := by
  rw [h.entries.size_values, BlockRows.blockValues, Nat.mul_assoc, Nat.mul_assoc, Nat.mul_assoc]

theorem BlockRows.Fits.exists_element {b : BlockRows α} {cols base : Word} {kind : ValueKind}
    {k i j : Nat} (h : b.Fits cols base kind) (hk : k < b.columns.size) (hi : i < b.blockSize.toNat)
    (hj : j < b.blockSize.toNat) : ∃ e, Element.at? b.values kind
      (k * b.blockSize.toNat * b.blockSize.toNat + i * b.blockSize.toNat + j) = some e :=
  Element.exists_at? h.size_values (blockSlot_lt hk hi hj)

namespace Matrix

variable {m : Matrix α}

theorem compressed_fits {c : Compressed α} {flags : Flags} (h : m.storage = .csr c flags) :
    c.Fits m.rows m.base m.cols.toNat m.kind.width.toNat := by
  have hfits := m.storage_fits
  rw [h] at hfits
  exact hfits.2

theorem run_fits {runs : List (BlockRows α)} {shared : Bool} (h : m.storage = .bcsr runs shared)
    {run : Nat} {b : BlockRows α} (hb : runs[run]? = some b) : b.Fits m.cols m.base m.kind := by
  have hfits := m.storage_fits
  rw [h] at hfits
  exact hfits.2.2.1 b (List.mem_of_getElem? hb)

theorem coverage_runs {runs : List (BlockRows α)} {shared : Bool} (h : m.storage = .bcsr runs shared) :
    BlockRows.coverage runs = m.rows.toNat := by
  have hfits := m.storage_fits
  rw [h] at hfits
  exact hfits.2.2.2

namespace Holds

variable {v w : Visit α}

theorem row_lt (h : m.Holds v) : v.row < m.rows.toNat := by
  cases h with
  | dense storage hrow hcol element => exact hrow
  | entry storage group column element => exact ((compressed_fits storage).lt_of_inGroup group).1
  | block storage hrun group column hi hj element =>
    have hfits := (run_fits storage hrun).entries
    have hline := BlockRows.line_lt_height (hfits.lt_of_inGroup group).1 hi
    have hcoverage := BlockRows.coverage_take hrun
    rw [coverage_runs storage] at hcoverage
    dsimp only
    omega

theorem col_lt_of_entry (h : m.Holds v) {c : Compressed α} {flags : Flags}
    (hc : m.storage = .csr c flags) : v.col < m.cols.toNat := by
  cases h with
  | dense storage hrow hcol element => exact hcol
  | entry storage group column element =>
    have hfits := compressed_fits storage
    obtain ⟨col, hcol, hlt⟩ := hfits.exists_column (hfits.lt_of_inGroup group).2
    obtain rfl := Option.some.inj (column.symm.trans hcol)
    exact hlt
  | block storage hrun group column hi hj element => cases hc.symm.trans storage

theorem col_lt_of_format (h : m.Holds v) (hformat : m.format ≠ .bcsr) : v.col < m.cols.toNat := by
  cases h with
  | dense storage hrow hcol element => exact hcol
  | entry storage group column element =>
    exact (Holds.entry storage group column element).col_lt_of_entry storage
  | block storage => exact absurd (by rw [format, storage]; rfl) hformat

/-- What is stored for a line of a run is in a block that the line goes through. -/
theorem block_of_row (h : m.Holds v) {runs : List (BlockRows α)} {shared : Bool}
    (storage : m.storage = .bcsr runs shared) {n line : Nat} {b : BlockRows α} (hrun : runs[n]? = some b)
    (hline : line < b.height) (hrow : v.row = BlockRows.coverage (runs.take n) + line) :
    ∃ k j blockCol, b.InGroup m.base (line / b.blockSize.toNat) k ∧ b.column? m.base k = some blockCol ∧
      j < b.blockSize.toNat ∧ v.col = blockCol * b.blockSize.toNat + j := by
  cases h with
  | @block runs' shared' n' blockRow k i j blockCol b' e storage' hrun' group column hi hj element =>
    cases storage.symm.trans storage'
    have hline' := BlockRows.line_lt_height ((run_fits storage hrun').entries.lt_of_inGroup group).1 hi
    dsimp only at hrow
    -- of two runs, one begins behind the other one
    obtain hlt | rfl | hlt := Nat.lt_trichotomy n n'
    · have := BlockRows.coverage_take_le hrun hlt
      omega
    · obtain rfl := Option.some.inj (hrun.symm.trans hrun')
      have hdiv : line / b.blockSize.toNat = blockRow := by
        rw [show line = b.blockSize.toNat * blockRow + i by rw [Nat.mul_comm]; omega,
          Nat.mul_add_div (Nat.zero_lt_of_lt hi), Nat.div_eq_of_lt hi, Nat.add_zero]
      rw [hdiv]
      exact ⟨k, j, blockCol, group, column, hj, rfl⟩
    · have := BlockRows.coverage_take_le hrun' hlt
      omega
  | _ storage' => cases storage.symm.trans storage'

theorem hasPlace (h : m.Holds v) : m.HasPlace v.place := by
  cases h with
  | dense storage hrow hcol element => exact ⟨_, _, storage, hrow, hcol⟩
  | entry storage group column element =>
    exact ⟨_, _, storage, ((compressed_fits storage).lt_of_inGroup group).2⟩
  | block storage hrun group column hi hj element =>
    exact ⟨_, _, _, storage, hrun, ((run_fits storage hrun).entries.lt_of_inGroup group).2, hi, hj⟩

/-- A place has one row, one column and one element. -/
theorem unique (hv : m.Holds v) (hw : m.Holds w) (hplace : v.place = w.place) : v = w := by
  cases hv with
  | dense storage hrow hcol element =>
    cases hw with
    | dense storage' hrow' hcol' element' =>
      cases storage.symm.trans storage'
      cases hplace
      obtain rfl := Option.some.inj (element.symm.trans element')
      rfl
    | _ => cases hplace
  | entry storage group column element =>
    cases hw with
    | entry storage' group' column' element' =>
      cases storage.symm.trans storage'
      cases hplace
      obtain rfl := (compressed_fits storage).inGroup_unique group group'
      obtain rfl := Option.some.inj (column.symm.trans column')
      obtain rfl := Option.some.inj (element.symm.trans element')
      rfl
    | _ => cases hplace
  | block storage hrun group column hi hj element =>
    cases hw with
    | block storage' hrun' group' column' hi' hj' element' =>
      cases storage.symm.trans storage'
      cases hplace
      obtain rfl := Option.some.inj (hrun.symm.trans hrun')
      obtain rfl := (run_fits storage hrun).entries.inGroup_unique group group'
      obtain rfl := Option.some.inj (column.symm.trans column')
      obtain rfl := Option.some.inj (element.symm.trans element')
      rfl
    | _ => cases hplace

end Holds

/-- Every place that storage has holds an element. -/
theorem exists_holds {p : Place} (h : m.HasPlace p) : ∃ v, m.Holds v ∧ v.place = p := by
  cases p with
  | dense row col =>
    obtain ⟨lda, values, storage, hrow, hcol⟩ := h
    have hfits := m.storage_fits
    rw [storage] at hfits
    obtain ⟨-, hlda, -, hsize⟩ := hfits
    have hslot : row * lda.toNat + col < m.rows.toNat * lda.toNat := by
      have hle : (row + 1) * lda.toNat ≤ m.rows.toNat * lda.toNat := Nat.mul_le_mul_right _ hrow
      have hlda := UInt64.le_iff_toNat_le.mp hlda
      rw [Nat.add_mul] at hle
      omega
    obtain ⟨e, he⟩ := Element.exists_at? hsize hslot
    exact ⟨_, .dense storage hrow hcol he, rfl⟩
  | entry k =>
    obtain ⟨c, flags, storage, hk⟩ := h
    have hfits := compressed_fits storage
    obtain ⟨row, hgroup⟩ := hfits.exists_inGroup hk
    obtain ⟨col, hcol, -⟩ := hfits.exists_column hk
    obtain ⟨e, he⟩ := Element.exists_at? hfits.size_values hk
    exact ⟨_, .entry storage hgroup hcol he, rfl⟩
  | block run k i j =>
    obtain ⟨runs, shared, b, storage, hrun, hk, hi, hj⟩ := h
    have hfits := (run_fits storage hrun).entries
    obtain ⟨blockRow, hgroup⟩ := hfits.exists_inGroup hk
    obtain ⟨col, hcol, -⟩ := hfits.exists_column hk
    obtain ⟨e, he⟩ := (run_fits storage hrun).exists_element hk hi hj
    exact ⟨_, .block storage hrun hgroup hcol hi hj he, rfl⟩

end Matrix

end AccelKrylov
