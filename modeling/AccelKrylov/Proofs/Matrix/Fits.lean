import Mathlib.Algebra.GroupWithZero.Nat
import AccelKrylov.Matrix.Build
import AccelKrylov.Proofs.Word

/-! What it means that stored arrays fit a matrix, said of plain numbers and of all conditions at once,
and that the check of storage, which goes through them in an order and in words, accepts exactly the
arrays that fit. -/

namespace AccelKrylov

variable {α : Type}

/-! ### Conditions -/

/-- The arrays make `outer` groups of entries whose columns lie below `limit` and that have `stride`
numbers each, with offsets and columns counted from `base`. -/
structure Compressed.Fits (c : Compressed α) (outer base : Word) (limit stride : Nat) : Prop where
  size_offsets : c.offsets.size = outer.toNat + 1
  outer_lt : outer.toNat + 1 < 2 ^ 64
  first : c.offsets[0]? = some base
  sorted : c.offsets.toList.Pairwise (· ≤ ·)
  size_columns : c.columns.size = (c.offsets.getD outer.toNat base).toNat - base.toNat
  size_values : c.values.size = c.columns.size * stride
  values_lt : c.values.size < 2 ^ 64
  column_lt : ∀ j ∈ c.columns, base ≤ j ∧ j.toNat - base.toNat < limit

/-- How many numbers a block has. -/
def BlockRows.blockValues (b : BlockRows α) (kind : ValueKind) : Nat :=
  b.blockSize.toNat * b.blockSize.toNat * kind.width.toNat

/-- How many block columns of a size it takes to cover some columns. -/
def blockColumns (cols size : Nat) : Nat := (cols + size - 1) / size

structure BlockRows.Fits (b : BlockRows α) (cols base : Word) (kind : ValueKind) : Prop where
  blockSize_pos : 0 < b.blockSize.toNat
  blockValues_lt : b.blockValues kind < 2 ^ 64
  entries : b.toCompressed.Fits b.blockRows base (blockColumns cols.toNat b.blockSize.toNat)
    (b.blockValues kind)

/-- How many rows some runs cover. -/
def BlockRows.coverage (runs : List (BlockRows α)) : Nat :=
  (runs.map fun b => b.blockRows.toNat * b.blockSize.toNat).sum

/-- The arrays are those of a `rows` by `cols` matrix whose indices count from `base`. -/
def Storage.Fits (rows cols base : Word) (kind : ValueKind) : Storage α → Prop
  | .dense lda values => base = 0 ∧ cols ≤ lda ∧ values.size < 2 ^ 64 ∧
      values.size = rows.toNat * lda.toNat * kind.width.toNat
  | .csr entries _ => base ≤ 1 ∧ entries.Fits rows base cols.toNat kind.width.toNat
  | .bcsr runs _ => base ≤ 1 ∧ runs ≠ [] ∧ (∀ b ∈ runs, b.Fits cols base kind) ∧
      BlockRows.coverage runs = rows.toNat

/-! ### Checks -/

theorem decreases_eq_false_iff (ws : List Word) : decreases ws = false ↔ ws.Pairwise (· ≤ ·) := by
  induction ws with
  | nil => simp [decreases]
  | cons a ws ih =>
    cases ws with
    | nil => simp [decreases]
    | cons b rest =>
      rw [decreases, Bool.or_eq_false_iff, ih, decide_eq_false_iff_not, UInt64.not_lt,
        List.pairwise_cons (a := a)]
      refine and_congr_left fun hrest => ⟨fun hab c hc => ?_, fun h => h b List.mem_cons_self⟩
      rcases List.mem_cons.mp hc with rfl | hc
      · exact hab
      · exact UInt64.le_trans hab ((List.pairwise_cons.mp hrest).1 c hc)

theorem extent_eq_ok {factors : List Word} {what : Extent} {n : Word} :
    extent factors what = .ok n ↔ Word.checkedProduct factors = some n := by
  unfold extent
  cases Word.checkedProduct factors <;> simp

theorem width_pos (kind : ValueKind) : 0 < kind.width.toNat := by cases kind <;> decide

/-- Offsets that grow from the base stay at or above it. -/
theorem base_le_offset {offsets : Array Word} {base : Word} (hfirst : offsets[0]? = some base)
    (hsorted : offsets.toList.Pairwise (· ≤ ·)) (i : Nat) : base ≤ offsets.getD i base := by
  rw [Array.getD_eq_getD_getElem?, ← Array.getElem?_toList]
  rw [← Array.getElem?_toList] at hfirst
  cases hl : offsets.toList with
  | nil => exact UInt64.le_refl base
  | cons first rest =>
    rw [hl] at hfirst hsorted
    obtain rfl : first = base := Option.some.inj hfirst
    cases i with
    | zero => exact UInt64.le_refl first
    | succ i =>
      rw [List.getElem?_cons_succ]
      cases hi : rest[i]? with
      | none => exact UInt64.le_refl first
      | some w => exact (List.pairwise_cons.mp hsorted).1 w (List.mem_of_getElem? hi)

theorem Compressed.check_eq_ok_iff {c : Compressed α} {outer limit base stride : Word} {u : Unit} :
    c.check outer limit base stride = .ok u ↔ c.Fits outer base limit.toNat stride.toNat := by
  unfold check
  split
  next h =>
    unfold Word.checkedAdd at h
    split at h
    · cases h
    next hlt => exact ⟨nofun, fun hf => absurd hf.outer_lt hlt⟩
  next expected h =>
    obtain ⟨hlt, hexpected⟩ := Word.checkedAdd_eq_some.mp h
    rw [UInt64.toNat_one] at hlt hexpected
    simp only [bind_eq_ok, ensure_eq_ok, extent_eq_ok, Word.checkedProduct_pair, exists_const,
      Array.all_eq_true_iff_forall_mem, decide_eq_true_eq, decreases_eq_false_iff, hexpected]
    constructor
    · rintro ⟨hsize, hfirst, hsorted, hcolumns, count, ⟨hvalues, hcount⟩, hsizes, hrange⟩
      have hbase := base_le_offset hfirst hsorted outer.toNat
      rw [UInt64.toNat_sub_of_le _ _ hbase] at hcolumns hvalues hcount
      rw [← hcolumns] at hvalues hcount
      refine ⟨hsize, hlt, hfirst, hsorted, hcolumns, by omega, by omega, fun j hj => ?_⟩
      obtain ⟨hj, hlimit⟩ := hrange j hj
      rw [UInt64.lt_iff_toNat_lt, UInt64.toNat_sub_of_le _ _ hj] at hlimit
      exact ⟨hj, hlimit⟩
    · intro hf
      have hbase := base_le_offset hf.first hf.sorted outer.toNat
      have hvalues := hf.size_values
      have hvalues_lt := hf.values_lt
      rw [UInt64.toNat_sub_of_le _ _ hbase, ← hf.size_columns, ← hvalues]
      refine ⟨hf.size_offsets, hf.first, hf.sorted, rfl, UInt64.ofNat c.values.size,
        ⟨hvalues_lt, UInt64.toNat_ofNat_of_lt' hvalues_lt⟩,
        (UInt64.toNat_ofNat_of_lt' hvalues_lt).symm, fun j hj => ?_⟩
      obtain ⟨hj, hlimit⟩ := hf.column_lt j hj
      rw [UInt64.lt_iff_toNat_lt, UInt64.toNat_sub_of_le _ _ hj]
      exact ⟨hj, hlimit⟩

theorem checkBase_eq_ok {base : Word} {u : Unit} : checkBase base = .ok u ↔ base ≤ 1 := ensure_eq_ok

theorem BlockRows.coverage_cons (b : BlockRows α) (runs : List (BlockRows α)) :
    coverage (b :: runs) = b.blockRows.toNat * b.blockSize.toNat + coverage runs := by
  simp [coverage]

/-- Runs pass one by one, as long as the rows they cover can be counted. -/
theorem BlockRows.checkRuns_eq_ok_iff {cols base : Word} {kind : ValueKind} {covered total : Word}
    {runs : List (BlockRows α)} : checkRuns cols base kind covered runs = .ok total ↔
      (∀ b ∈ runs, b.Fits cols base kind) ∧ total.toNat = covered.toNat + coverage runs := by
  induction runs generalizing covered with
  | nil =>
    rw [checkRuns, Except.ok.injEq, ← UInt64.toNat_inj]
    simp [coverage, eq_comm]
  | cons b runs ih =>
    rw [List.forall_mem_cons, coverage_cons]
    simp only [checkRuns, bind_eq_ok, ensure_eq_ok, extent_eq_ok, exists_const,
      Word.checkedProduct_pair, Word.checkedProduct_triple (width_pos kind),
      Compressed.check_eq_ok_iff]
    constructor
    · rintro ⟨hsize, stride, ⟨hlt, hstride⟩, hentries, rows, ⟨-, hrows⟩, hrest⟩
      split at hrest
      · cases hrest
      next hadd =>
        obtain ⟨-, hcovered⟩ := Word.checkedAdd_eq_some.mp hadd
        obtain ⟨hruns, htotal⟩ := ih.mp hrest
        rw [Word.toNat_ceilDiv _ hsize, hstride] at hentries
        exact ⟨⟨⟨Word.toNat_pos_iff.mpr hsize, hlt, hentries⟩, hruns⟩, by omega⟩
    · rintro ⟨⟨hfits, hruns⟩, htotal⟩
      have hsize := Word.toNat_pos_iff.mp hfits.blockSize_pos
      have hlt := hfits.blockValues_lt
      have htop := total.toNat_lt
      have hrows : (UInt64.ofNat (b.blockRows.toNat * b.blockSize.toNat)).toNat =
          b.blockRows.toNat * b.blockSize.toNat :=
        UInt64.toNat_ofNat_of_lt' (show _ < 2 ^ 64 by omega)
      have hcovered : (UInt64.ofNat (b.blockRows.toNat * b.blockSize.toNat + covered.toNat)).toNat =
          b.blockRows.toNat * b.blockSize.toNat + covered.toNat :=
        UInt64.toNat_ofNat_of_lt' (show _ < 2 ^ 64 by omega)
      refine ⟨hsize, UInt64.ofNat (b.blockValues kind), ⟨hlt, UInt64.toNat_ofNat_of_lt' hlt⟩, ?_,
        UInt64.ofNat (b.blockRows.toNat * b.blockSize.toNat), ⟨by omega, hrows⟩, ?_⟩
      · rw [Word.toNat_ceilDiv _ hsize, UInt64.toNat_ofNat_of_lt' hlt]
        exact hfits.entries
      · rw [Word.checkedAdd_eq_some.mpr ⟨by omega, by rw [hcovered, hrows]⟩]
        exact ih.mpr ⟨hruns, by omega⟩

/-- The check accepts exactly the arrays that fit. -/
theorem Storage.check_eq_ok_iff {rows cols base : Word} {kind : ValueKind} {s : Storage α} :
    s.check rows cols base kind = .ok () ↔ s.Fits rows cols base kind := by
  cases s with
  | dense lda values =>
    simp only [check, Fits, bind_eq_ok, ensure_eq_ok, extent_eq_ok, exists_const,
      Word.checkedProduct_triple (width_pos kind)]
    constructor
    · rintro ⟨hlda, count, ⟨hlt, hcount⟩, hsize, hbase⟩
      exact ⟨hbase, hlda, by omega, by omega⟩
    · rintro ⟨hbase, hlda, hlt, hsize⟩
      exact ⟨hlda, UInt64.ofNat values.size, ⟨by omega, by
        rw [UInt64.toNat_ofNat_of_lt' hlt, hsize]⟩, (UInt64.toNat_ofNat_of_lt' hlt).symm, hbase⟩
  | csr entries flags =>
    simp only [check, Fits, bind_eq_ok, checkBase_eq_ok, exists_const, Compressed.check_eq_ok_iff]
  | bcsr runs shared =>
    simp only [check, Fits, bind_eq_ok, checkBase_eq_ok, ensure_eq_ok, exists_const,
      BlockRows.checkRuns_eq_ok_iff]
    constructor
    · rintro ⟨hbase, hne, covered, ⟨hruns, hcovered⟩, rfl⟩
      exact ⟨hbase, hne, hruns, by simpa using hcovered.symm⟩
    · rintro ⟨hbase, hne, hruns, hcovered⟩
      exact ⟨hbase, hne, rows, ⟨hruns, by simp [hcovered]⟩, rfl⟩

theorem Matrix.storage_fits (m : Matrix α) : m.storage.Fits m.rows m.cols m.base m.kind :=
  Storage.check_eq_ok_iff.mp m.fits

end AccelKrylov
