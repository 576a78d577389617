import Mathlib.Data.List.Nodup
import AccelKrylov.Proofs.Matrix.Places

/-! A walk over the rows of a matrix, in plain numbers. `Matrix.visits` lists what is stored in a row in the
order of storage; over all rows the walk comes once to every place of storage whose column is one of the
matrix. -/

namespace AccelKrylov

variable {α : Type}

/-! ### The places of a row -/

namespace BlockRows

/-- The element in line `local % size` and column `j` of block `k`, unless it lies past the last column. -/
def visit? (b : BlockRows α) (base cols : Word) (kind : ValueKind) (run first line k j : Nat) :
    Option (Visit α) :=
  let size := b.blockSize.toNat
  let slot := k * size * size + line % size * size + j
  (b.column? base k).bind fun blockCol => (Element.at? b.values kind slot).bind fun element =>
    if blockCol * size + j < cols.toNat then
      some ⟨.block run k (line % size) j, first + line, blockCol * size + j, slot, element⟩
    else none

/-- What a run stores in its row `line`, whose row in the matrix is `first + line`. -/
def visits (b : BlockRows α) (base cols : Word) (kind : ValueKind) (run first line : Nat) :
    List (Visit α) :=
  (b.group base (line / b.blockSize.toNat)).flatMap fun k =>
    (List.range b.blockSize.toNat).filterMap (b.visit? base cols kind run first line k)

/-- What the run that a row belongs to stores in it, the runs counted from `run` and their rows from
`first`. -/
def visitsOfRuns (base cols : Word) (kind : ValueKind) :
    (run first : Nat) → List (BlockRows α) → (row : Nat) → List (Visit α)
  | _, _, [], _ => []
  | run, first, b :: runs, row =>
    if first + b.height ≤ row then visitsOfRuns base cols kind (run + 1) (first + b.height) runs row
    else b.visits base cols kind run first (row - first)

theorem visitsOfRuns_eq (base cols : Word) (kind : ValueKind) (run first : Nat) {runs : List (BlockRows α)}
    {n line : Nat} {b : BlockRows α} (hrun : runs[n]? = some b) (hline : line < b.height) :
    visitsOfRuns base cols kind run first runs (first + coverage (runs.take n) + line) =
      b.visits base cols kind (run + n) (first + coverage (runs.take n)) line := by
  induction runs generalizing run first n with
  | nil => cases hrun
  | cons b' runs ih =>
    rw [visitsOfRuns]
    cases n with
    | zero =>
      obtain rfl := Option.some.inj hrun
      have hzero : coverage ((b' :: runs).take 0) = 0 := rfl
      rw [hzero, Nat.add_zero, if_neg (by omega), Nat.add_sub_cancel_left, Nat.add_zero]
    | succ n =>
      have hfirst : first + coverage ((b' :: runs).take (n + 1)) =
          first + b'.height + coverage (runs.take n) := by
        rw [List.take_succ_cons, coverage_cons, height, Nat.add_assoc]
      rw [hfirst, if_pos (by omega), ih _ _ hrun, Nat.add_assoc run, Nat.add_comm 1]

end BlockRows

/-- What is stored in a row, in the order of storage. -/
def Matrix.visits (m : Matrix α) (row : Nat) : List (Visit α) :=
  match m.storage with
  | .dense lda values => (List.range m.cols.toNat).filterMap fun col =>
    (Element.at? values m.kind (row * lda.toNat + col)).map fun element =>
      ⟨.dense row col, row, col, row * lda.toNat + col, element⟩
  | .csr c _ => (c.group m.base row).filterMap fun k => (c.column? m.base k).bind fun col =>
    (Element.at? c.values m.kind k).map fun element => ⟨.entry k, row, col, k, element⟩
  | .bcsr runs _ => BlockRows.visitsOfRuns m.base m.cols m.kind 0 0 runs row

/-- What is stored in all rows, row by row. -/
def Matrix.traversal (m : Matrix α) : List (Visit α) := (List.range m.rows.toNat).flatMap m.visits

/-! ### Order -/

theorem BlockRows.sorted_visits (b : BlockRows α) (base cols : Word) (kind : ValueKind)
    (run first line : Nat) :
    (b.visits base cols kind run first line).Pairwise fun v w => v.slot < w.slot := by
  have hslot {k j : Nat} {v : Visit α} (hv : b.visit? base cols kind run first line k j = some v) :
      v.slot = k * b.blockSize.toNat * b.blockSize.toNat +
        line % b.blockSize.toNat * b.blockSize.toNat + j := by
    obtain ⟨blockCol, -, hv⟩ := Option.bind_eq_some_iff.mp hv
    obtain ⟨element, -, hv⟩ := Option.bind_eq_some_iff.mp hv
    split at hv
    · obtain rfl := Option.some.inj hv
      rfl
    · cases hv
  refine List.pairwise_flatMap.mpr ⟨fun k _ => ?_, ?_⟩
  · refine List.Pairwise.filterMap _ ?_ List.pairwise_lt_range
    intro j j' hlt v hv v' hv'
    rw [hslot hv, hslot hv']
    omega
  · refine (b.sorted_group base _).imp ?_
    intro k k' hlt v hv v' hv'
    obtain ⟨j, hj, hv⟩ := List.mem_filterMap.mp hv
    obtain ⟨j', -, hv'⟩ := List.mem_filterMap.mp hv'
    have hj := List.mem_range.mp hj
    have hblock := blockSlot_lt hlt (Nat.mod_lt line (Nat.zero_lt_of_lt hj)) hj
    rw [hslot hv, hslot hv']
    omega

theorem BlockRows.sorted_visitsOfRuns (base cols : Word) (kind : ValueKind) (run first : Nat)
    (runs : List (BlockRows α)) (row : Nat) :
    (visitsOfRuns base cols kind run first runs row).Pairwise fun v w => v.slot < w.slot := by
  induction runs generalizing run first with
  | nil => exact .nil
  | cons b runs ih =>
    rw [visitsOfRuns]
    split
    · exact ih ..
    · exact b.sorted_visits ..

theorem Matrix.sorted_visits (m : Matrix α) (row : Nat) :
    (m.visits row).Pairwise fun v w => v.slot < w.slot := by
  unfold visits
  split
  next lda values storage =>
    refine List.Pairwise.filterMap _ ?_ List.pairwise_lt_range
    intro col col' hlt v hv v' hv'
    obtain ⟨_, -, rfl⟩ := Option.map_eq_some_iff.mp hv
    obtain ⟨_, -, rfl⟩ := Option.map_eq_some_iff.mp hv'
    exact Nat.add_lt_add_left hlt _
  next c flags storage =>
    refine List.Pairwise.filterMap _ ?_ (c.sorted_group m.base row)
    intro k k' hlt v hv v' hv'
    obtain ⟨_, -, hv⟩ := Option.bind_eq_some_iff.mp hv
    obtain ⟨_, -, rfl⟩ := Option.map_eq_some_iff.mp hv
    obtain ⟨_, -, hv'⟩ := Option.bind_eq_some_iff.mp hv'
    obtain ⟨_, -, rfl⟩ := Option.map_eq_some_iff.mp hv'
    exact hlt
  next runs shared storage => exact BlockRows.sorted_visitsOfRuns ..

/-! ### What is visited -/

theorem BlockRows.mem_visits {b : BlockRows α} {base cols : Word} {kind : ValueKind}
    {run first line : Nat} {v : Visit α} : v ∈ b.visits base cols kind run first line ↔
      ∃ k j blockCol e, b.InGroup base (line / b.blockSize.toNat) k ∧ j < b.blockSize.toNat ∧
        b.column? base k = some blockCol ∧
        Element.at? b.values kind (k * b.blockSize.toNat * b.blockSize.toNat +
          line % b.blockSize.toNat * b.blockSize.toNat + j) = some e ∧
        blockCol * b.blockSize.toNat + j < cols.toNat ∧
        v = ⟨.block run k (line % b.blockSize.toNat) j, first + line,
          blockCol * b.blockSize.toNat + j, k * b.blockSize.toNat * b.blockSize.toNat +
            line % b.blockSize.toNat * b.blockSize.toNat + j, e⟩ := by
  simp only [visits, visit?, List.mem_flatMap, List.mem_filterMap, List.mem_range,
    Compressed.mem_group, Option.bind_eq_some_iff, Option.ite_none_right_eq_some, Option.some.injEq]
  constructor
  · rintro ⟨k, hk, j, hj, blockCol, hcolumn, e, he, hcol, rfl⟩
    exact ⟨k, j, blockCol, e, hk, hj, hcolumn, he, hcol, rfl⟩
  · rintro ⟨k, j, blockCol, e, hk, hj, hcolumn, he, hcol, rfl⟩
    exact ⟨k, hk, j, hj, blockCol, hcolumn, e, he, hcol, rfl⟩

theorem BlockRows.mem_visitsOfRuns {base cols : Word} {kind : ValueKind} {run first row : Nat}
    {runs : List (BlockRows α)} {v : Visit α} (hfirst : first ≤ row) :
    v ∈ visitsOfRuns base cols kind run first runs row ↔
      ∃ n b, runs[n]? = some b ∧ first + coverage (runs.take n) ≤ row ∧
        row < first + coverage (runs.take n) + b.height ∧
        v ∈ b.visits base cols kind (run + n) (first + coverage (runs.take n))
          (row - (first + coverage (runs.take n))) := by
  induction runs generalizing run first with
  | nil => simp [visitsOfRuns]
  | cons b runs ih =>
    have hzero : coverage ((b :: runs).take 0) = 0 := rfl
    have hsucc (n : Nat) :
        first + coverage ((b :: runs).take (n + 1)) = first + b.height + coverage (runs.take n) := by
      rw [List.take_succ_cons, coverage_cons, ← Nat.add_assoc]
      rfl
    rw [visitsOfRuns]
    split
    next hpast =>
      rw [ih hpast]
      constructor
      · rintro ⟨n, b', hb', hfrom, hto, hv⟩
        refine ⟨n + 1, b', hb', ?_⟩
        rw [hsucc, Nat.add_comm n, ← Nat.add_assoc]
        exact ⟨hfrom, hto, hv⟩
      · rintro ⟨n, b', hb', hfrom, hto, hv⟩
        cases n with
        | zero =>
          obtain rfl := Option.some.inj hb'
          rw [hzero] at hto
          omega
        | succ n =>
          rw [hsucc] at hfrom hto hv
          rw [Nat.add_comm n, ← Nat.add_assoc] at hv
          exact ⟨n, b', hb', hfrom, hto, hv⟩
    next hwithin =>
      constructor
      · exact fun hv => ⟨0, b, rfl, hfirst, Nat.lt_of_not_le hwithin, hv⟩
      · rintro ⟨n, b', hb', hfrom, hto, hv⟩
        cases n with
        | zero =>
          obtain rfl := Option.some.inj hb'
          exact hv
        | succ n =>
          rw [hsucc] at hfrom
          omega

/-- A row is visited where the matrix stores something for it, and nowhere else. -/
theorem Matrix.mem_visits {m : Matrix α} {row : Nat} (hrow : row < m.rows.toNat) {v : Visit α} :
    v ∈ m.visits row ↔ m.Holds v ∧ v.row = row ∧ v.col < m.cols.toNat := by
  unfold visits
  split
  next lda values storage =>
    rw [List.mem_filterMap]
    constructor
    · rintro ⟨col, hcol, hv⟩
      obtain ⟨e, he, rfl⟩ := Option.map_eq_some_iff.mp hv
      have hcol := List.mem_range.mp hcol
      exact ⟨.dense storage hrow hcol he, rfl, hcol⟩
    · rintro ⟨hv, rfl, hcol⟩
      cases hv with
      | dense storage' hrow' hcol' element =>
        cases storage.symm.trans storage'
        exact ⟨_, List.mem_range.mpr hcol', Option.map_eq_some_iff.mpr ⟨_, element, rfl⟩⟩
      | _ storage' => cases storage.symm.trans storage'
  next c flags storage =>
    rw [List.mem_filterMap]
    constructor
    · rintro ⟨k, hk, hv⟩
      obtain ⟨col, hcolumn, hv⟩ := Option.bind_eq_some_iff.mp hv
      obtain ⟨e, he, rfl⟩ := Option.map_eq_some_iff.mp hv
      have hholds := Matrix.Holds.entry storage (Compressed.mem_group.mp hk) hcolumn he
      exact ⟨hholds, rfl, hholds.col_lt_of_entry storage⟩
    · rintro ⟨hv, rfl, hcol⟩
      cases hv with
      | entry storage' group column element =>
        cases storage.symm.trans storage'
        exact ⟨_, Compressed.mem_group.mpr group,
          Option.bind_eq_some_iff.mpr ⟨_, column, Option.map_eq_some_iff.mpr ⟨_, element, rfl⟩⟩⟩
      | _ storage' => cases storage.symm.trans storage'
  next runs shared storage =>
    simp only [BlockRows.mem_visitsOfRuns (Nat.zero_le row), Nat.zero_add, BlockRows.mem_visits]
    constructor
    · rintro ⟨n, b, hb, hfrom, hto, k, j, blockCol, e, hk, hj, hcolumn, he, hcol, rfl⟩
      have hline := Nat.div_add_mod (row - BlockRows.coverage (runs.take n)) b.blockSize.toNat
      have hpos := (run_fits storage hb).blockSize_pos
      have hholds := Matrix.Holds.block storage hb hk hcolumn (Nat.mod_lt _ hpos) hj he
      rw [Nat.add_assoc, Nat.mul_comm _ b.blockSize.toNat, hline] at hholds
      exact ⟨hholds, Nat.add_sub_cancel' hfrom, hcol⟩
    · rintro ⟨hv, rfl, hcol⟩
      cases hv with
      | @block runs' shared' run blockRow k i j blockCol b e storage' hrun group column hi hj element =>
        cases storage.symm.trans storage'
        have hline := BlockRows.line_lt_height ((run_fits storage hrun).entries.lt_of_inGroup group).1 hi
        have hdiv : (blockRow * b.blockSize.toNat + i) / b.blockSize.toNat = blockRow := by
          rw [Nat.mul_comm, Nat.mul_add_div (Nat.zero_lt_of_lt hi), Nat.div_eq_of_lt hi, Nat.add_zero]
        have hmod : (blockRow * b.blockSize.toNat + i) % b.blockSize.toNat = i := by
          rw [Nat.mul_comm, Nat.mul_add_mod, Nat.mod_eq_of_lt hi]
        dsimp only
        refine ⟨run, b, hrun, by omega, by omega, k, j, blockCol, e, ?_⟩
        rw [Nat.add_assoc, Nat.add_sub_cancel_left, hdiv, hmod]
        exact ⟨group, hj, column, element, hcol, rfl⟩
      | _ storage' => cases storage.symm.trans storage'

/-! ### The whole walk -/

namespace Matrix

variable {m : Matrix α}

theorem mem_traversal {v : Visit α} : v ∈ m.traversal ↔ m.Holds v ∧ v.col < m.cols.toNat := by
  simp only [traversal, List.mem_flatMap, List.mem_range]
  constructor
  · rintro ⟨row, hrow, hv⟩
    obtain ⟨hholds, -, hcol⟩ := (mem_visits hrow).mp hv
    exact ⟨hholds, hcol⟩
  · rintro ⟨hholds, hcol⟩
    exact ⟨v.row, hholds.row_lt, (mem_visits hholds.row_lt).mpr ⟨hholds, rfl, hcol⟩⟩

/-- No place is visited twice: not in one row, whose places are in order, nor in two, since a place has
one row. -/
theorem nodup_traversal (m : Matrix α) : (m.traversal.map Visit.place).Nodup := by
  have hplaces {v w : Visit α} (hv : v ∈ m.traversal) (hw : w ∈ m.traversal)
      (h : v.place = w.place) : v = w := (mem_traversal.mp hv).1.unique (mem_traversal.mp hw).1 h
  refine List.Nodup.map_on (fun v hv w hw h => hplaces hv hw h) ?_
  refine List.nodup_flatMap.mpr ⟨fun row _ => ?_, ?_⟩
  · exact (m.sorted_visits row).imp fun hlt => fun h => Nat.lt_irrefl _ (h ▸ hlt)
  · refine List.pairwise_lt_range.imp_of_mem ?_
    intro row row' hrow hrow' hlt v hv hv'
    obtain ⟨-, rfl, -⟩ := (mem_visits (List.mem_range.mp hrow)).mp hv
    obtain ⟨-, rfl, -⟩ := (mem_visits (List.mem_range.mp hrow')).mp hv'
    exact Nat.lt_irrefl _ hlt

end Matrix

end AccelKrylov
