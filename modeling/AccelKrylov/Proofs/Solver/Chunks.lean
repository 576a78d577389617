import AccelKrylov.Solver.RowSplit
import AccelKrylov.Proofs.Matrix.Linear
import AccelKrylov.Proofs.Pool.Accepting

/-! Products that are split into chunks of rows. The chunks are the rows, cut into pieces; whatever the order
in which the parts arrive, every one is the part of its chunk. Put in place they are the plain product in any
arithmetic; added up they are the transposed one if addition may be reordered. -/

namespace AccelKrylov

/-! ### Chunks -/

section
variable {rows chunkRows : Word}

/-- A chunk that is not the first one is no longer than the rows before it, so its end can be counted. -/
theorem toNat_chunk (hrows : rows.toNat < 2 ^ 63) {k : Nat} (hk : k * chunkRows.toNat < rows.toNat) :
    (UInt64.ofNat k * chunkRows).toNat = k * chunkRows.toNat ∧
      (min (UInt64.ofNat k * chunkRows + chunkRows) rows).toNat =
        min (k * chunkRows.toNat + chunkRows.toNat) rows.toNat := by
  have hchunk := chunkRows.toNat_lt
  have hstart : (UInt64.ofNat k * chunkRows).toNat = k * chunkRows.toNat := by
    have hmul : UInt64.ofNat k * chunkRows = UInt64.ofNat (k * chunkRows.toNat) := by
      rw [UInt64.ofNat_mul, UInt64.ofNat_toNat]
    rw [hmul, UInt64.toNat_ofNat_of_lt' (show _ < 2 ^ 64 by omega)]
  have hsum : k * chunkRows.toNat + chunkRows.toNat < 2 ^ 64 := by
    cases k with
    | zero => omega
    | succ k =>
      rw [Nat.add_mul] at hk ⊢
      omega
  have hstop : (UInt64.ofNat k * chunkRows + chunkRows).toNat = k * chunkRows.toNat + chunkRows.toNat := by
    rw [UInt64.toNat_add, hstart, Nat.mod_eq_of_lt hsum]
  refine ⟨hstart, ?_⟩
  change (if UInt64.ofNat k * chunkRows + chunkRows ≤ rows then _ else _ : Word).toNat = _
  split
  next h =>
    rw [UInt64.le_iff_toNat_le, hstop] at h
    rw [hstop, Nat.min_eq_left h]
  next h =>
    rw [UInt64.le_iff_toNat_le, hstop] at h
    rw [Nat.min_eq_right (by omega)]

/-- The rows of the chunks, one chunk after the other, are all rows. -/
theorem flatMap_chunks (hrows : rows.toNat < 2 ^ 63) (hchunk : chunkRows ≠ 0) :
    (chunks rows chunkRows).flatMap (fun range => Word.range range.start range.stop) =
      Word.range 0 rows := by
  have hpos := Word.toNat_pos_iff.mpr hchunk
  have hcount := Word.toNat_ceilDiv rows hchunk
  rw [chunks, List.flatMap_map]
  -- the first `k` chunks are the first `k * chunkRows` rows, as far as there are rows
  have hfirst (k : Nat) (hk : k ≤ (Word.ceilDiv rows chunkRows).toNat) :
      (List.range k).flatMap (fun i => Word.range (UInt64.ofNat i * chunkRows)
        (min (UInt64.ofNat i * chunkRows + chunkRows) rows)) =
      (List.range' 0 (min (k * chunkRows.toNat) rows.toNat)).map UInt64.ofNat := by
    induction k with
    | zero => simp
    | succ k ih =>
      have hlt : k * chunkRows.toNat < rows.toNat := by
        rw [hcount, Nat.le_div_iff_mul_le hpos, Nat.add_mul] at hk
        omega
      obtain ⟨hstart, hstop⟩ := toNat_chunk hrows hlt
      have hsplit : min ((k + 1) * chunkRows.toNat) rows.toNat = k * chunkRows.toNat +
          (min (k * chunkRows.toNat + chunkRows.toNat) rows.toNat - k * chunkRows.toNat) := by
        rw [Nat.add_mul, Nat.one_mul]
        omega
      rw [List.range_succ, List.flatMap_append, ih (by omega), List.flatMap_singleton, Word.range_eq,
        hstart, hstop, Nat.min_eq_left (Nat.le_of_lt hlt), hsplit, ← List.range'_append_1, Nat.zero_add,
        List.map_append]
  have hall : rows.toNat ≤ (Word.ceilDiv rows chunkRows).toNat * chunkRows.toNat := by
    have hnot : ¬ (Word.ceilDiv rows chunkRows).toNat + 1 ≤
        (rows.toNat + chunkRows.toNat - 1) / chunkRows.toNat := by omega
    rw [Nat.le_div_iff_mul_le hpos, Nat.add_mul] at hnot
    omega
  rw [hfirst _ (Nat.le_refl _), Nat.min_eq_right hall, Word.range_eq]
  rfl

theorem stop_le_of_mem_chunks {range : RowRange} (h : range ∈ chunks rows chunkRows) :
    range.stop ≤ rows := by
  obtain ⟨i, -, rfl⟩ := List.mem_map.mp h
  change (if UInt64.ofNat i * chunkRows + chunkRows ≤ rows then _ else rows) ≤ rows
  split
  · assumption
  · exact UInt64.le_refl rows

theorem exists_chunk (hrows : rows.toNat < 2 ^ 63) (hchunk : chunkRows ≠ 0) {row : Word}
    (hrow : row < rows) :
    ∃ range ∈ chunks rows chunkRows, range.start ≤ row ∧ row < range.stop := by
  have hmem : row ∈ Word.range 0 rows := Word.mem_range.mpr ⟨UInt64.zero_le, hrow⟩
  rw [← flatMap_chunks hrows hchunk] at hmem
  obtain ⟨range, hrange, hmem⟩ := List.mem_flatMap.mp hmem
  exact ⟨range, hrange, Word.mem_range.mp hmem⟩

/-- A sum over the chunks of sums over their rows is a sum over all rows. -/
theorem sum_chunks {β : Type} [AddCommMonoid β] (hrows : rows.toNat < 2 ^ 63) (hchunk : chunkRows ≠ 0)
    (f : Nat → β) : ((chunks rows chunkRows).map fun range =>
      ∑ i ∈ Finset.Ico range.start.toNat range.stop.toNat, f i).sum =
        ∑ i ∈ Finset.range rows.toNat, f i := by
  have hsum : (((chunks rows chunkRows).flatMap fun range =>
      Word.range range.start range.stop).map fun row => f row.toNat).sum =
        ∑ i ∈ Finset.range rows.toNat, f i := by
    rw [flatMap_chunks hrows hchunk, Word.sum_range, Finset.range_eq_Ico]
    rfl
  rw [← hsum, List.map_flatMap, List.flatMap_def, List.sum_flatten, List.map_map]
  refine congrArg List.sum (List.map_congr_left fun range _ => ?_)
  exact (Word.sum_range _ _ f).symm

end

namespace RowSplit

variable {α : Type} {s : RowSplit}

theorem chunks_eq_nil_iff {rows chunkRows : Word} (h : chunkRows ≠ 0) :
    chunks rows chunkRows = [] ↔ rows = 0 := by
  have hpos := Word.toNat_pos_iff.mpr h
  rw [chunks, List.map_eq_nil_iff, List.range_eq_nil, Word.toNat_ceilDiv rows h, Nat.div_eq_zero_iff,
    ← UInt64.toNat_inj, UInt64.toNat_zero]
  omega

/-! ### Parts -/

/-- What arrives is what was asked for, in some order. -/
theorem arrived_perm (s : RowSplit) (batch : Word) (ranges : List RowRange) :
    ((s.arrival.order batch ranges.length).filterMap fun i => ranges[i]?).Perm ranges := by
  have hinTurn (ranges : List RowRange) :
      (List.range ranges.length).filterMap (fun i => ranges[i]?) = ranges := by
    induction ranges with
    | nil => rfl
    | cons range ranges ih =>
      rw [List.length_cons, List.range_succ_eq_map, List.filterMap_cons_some List.getElem?_cons_zero,
        List.filterMap_map]
      exact congrArg (range :: ·) ih
  have hperm := (s.arrival.perm batch ranges.length).filterMap fun i => ranges[i]?
  rwa [hinTurn] at hperm

theorem mapM_part_eq_ok {part : RowRange → Except ProductError (Array α)} {arrived : List RowRange}
    {parts : List (RowRange × Array α)}
    (h : (arrived.mapM fun range => (part range).map fun y => (range, y)) = .ok parts) :
    parts.map Prod.fst = arrived ∧ ∀ p ∈ parts, part p.1 = .ok p.2 := by
  induction arrived generalizing parts with
  | nil =>
    obtain rfl := Except.ok.inj h
    exact ⟨rfl, nofun⟩
  | cons range arrived ih =>
    rw [List.mapM_cons] at h
    obtain ⟨p, hp, h⟩ := bind_eq_ok.mp h
    obtain ⟨rest, hrest, h⟩ := bind_eq_ok.mp h
    obtain rfl := Except.ok.inj h
    obtain ⟨hranges, hok⟩ := ih hrest
    cases hpart : part range with
    | error e =>
      rw [hpart] at hp
      cases hp
    | ok y =>
      rw [hpart] at hp
      obtain rfl := Except.ok.inj hp
      exact ⟨congrArg (range :: ·) hranges, List.forall_mem_cons.mpr ⟨hpart, hok⟩⟩

/-- Every part that is put together is the part of its chunk, and no chunk is missing. -/
theorem collect_eq_ok {batch : Word} {ranges : List RowRange}
    {part : RowRange → Except ProductError (Array α)} {parts : List (RowRange × Array α)}
    (h : s.collect batch ranges part = .ok parts) :
    (parts.map Prod.fst).Perm ranges ∧ ∀ p ∈ parts, part p.1 = .ok p.2 := by
  obtain ⟨hranges, hok⟩ := mapM_part_eq_ok h
  exact ⟨hranges ▸ s.arrived_perm batch ranges, hok⟩

theorem of_run_eq_ok {rows : Word} {part : RowRange → Except ProductError (Array α)}
    {assemble : List (RowRange × Array α) → Array α} {pool : Pool RowRange} {y : Array α}
    (h : (s.run rows part assemble pool).1 = .ok y) : ∃ parts, y = assemble parts ∧
      (parts.map Prod.fst).Perm (chunks rows s.chunkRows) ∧ ∀ p ∈ parts, part p.1 = .ok p.2 := by
  dsimp only [run] at h
  split at h
  · cases h
  · split at h
    next parts hparts =>
      obtain rfl := Except.ok.inj h
      exact ⟨parts, rfl, collect_eq_ok hparts⟩
    · cases h

theorem of_run_eq_error {rows : Word} {part : RowRange → Except ProductError (Array α)}
    {assemble : List (RowRange × Array α) → Array α} {pool : Pool RowRange} {e : SolveError α}
    (h : (s.run rows part assemble pool).1 = .error e) : ∃ fault, e = .offload fault := by
  dsimp only [run] at h
  split at h
  · exact ⟨_, (Except.error.inj h).symm⟩
  · split at h
    · cases h
    · exact ⟨_, (Except.error.inj h).symm⟩

theorem exists_run_pool (s : RowSplit) (rows : Word) (part : RowRange → Except ProductError (Array α))
    (assemble : List (RowRange × Array α) → Array α) (pool : Pool RowRange) : ∃ results,
      (s.run rows part assemble pool).2 =
        s.afterResults pool.nextId results (spawnAll (chunks rows s.chunkRows) pool).2 := by
  dsimp only [run]
  split
  next => exact ⟨0, rfl⟩
  next =>
    split
    next => exact ⟨_, rfl⟩
    next => exact ⟨1, rfl⟩

/-- Without rows there is nothing to compute. -/
theorem run_of_no_rows {rows : Word} {part : RowRange → Except ProductError (Array α)}
    {assemble : List (RowRange × Array α) → Array α} {pool : Pool RowRange} (hrows : rows = 0) :
    s.run rows part assemble pool = (.ok (assemble []), s.afterResults pool.nextId 0 pool) := by
  have hperm := s.arrived_perm pool.nextId []
  rw [run, (chunks_eq_nil_iff s.chunkRows_ne_zero).mpr hrows, spawnAll]
  dsimp only
  rw [collect, List.perm_nil.mp hperm]
  rfl

/-! ### Pools that take the work -/

theorem accepting_afterResults_iff (s : RowSplit) (batch : Word) (results : Nat) {pool : Pool RowRange} :
    (s.afterResults batch results pool).Accepting ↔ pool.Accepting := by
  rw [afterResults, Pool.accepting_settleWithin_iff]
  obtain ⟨k, hk⟩ := Pool.exists_settleUntil_eq .calm
    (fun p => decide (p.unrun + results ≤ pool.unrun)) pool.remaining pool
  rw [hk, Pool.accepting_settleWithin_iff]

theorem spawnAll_of_accepting (ranges : List RowRange) {pool : Pool RowRange} (hp : pool.Accepting) :
    spawnAll ranges pool = (.ok (), pool.enqueue ranges) := by
  induction ranges generalizing pool with
  | nil => rw [spawnAll, Pool.enqueue_nil]
  | cons range ranges ih =>
    rw [spawnAll, hp.spawn]
    dsimp only
    rw [ih (hp.enqueue [range]), Pool.enqueue_enqueue, List.singleton_append]

theorem exists_mapM_part {part : RowRange → Except ProductError (Array α)} {arrived : List RowRange}
    (h : ∀ range ∈ arrived, ∃ y, part range = .ok y) :
    ∃ parts, (arrived.mapM fun range => (part range).map fun y => (range, y)) = .ok parts := by
  induction arrived with
  | nil => exact ⟨[], rfl⟩
  | cons range arrived ih =>
    obtain ⟨⟨y, hy⟩, h⟩ := List.forall_mem_cons.mp h
    obtain ⟨parts, hparts⟩ := ih h
    refine ⟨(range, y) :: parts, ?_⟩
    rw [List.mapM_cons, hy, hparts]
    rfl

theorem collect_of_ok (batch : Word) {ranges : List RowRange}
    {part : RowRange → Except ProductError (Array α)} (h : ∀ range ∈ ranges, ∃ y, part range = .ok y) :
    ∃ parts, s.collect batch ranges part = .ok parts :=
  exists_mapM_part fun range hrange => h range ((s.arrived_perm batch ranges).mem_iff.mp hrange)

/-- In a pool that takes work every chunk becomes a job, and every part is computed. -/
theorem run_of_accepting {rows : Word} {part : RowRange → Except ProductError (Array α)}
    (hpart : ∀ range : RowRange, range.stop ≤ rows → ∃ y, part range = .ok y)
    (assemble : List (RowRange × Array α) → Array α) {pool : Pool RowRange} (hp : pool.Accepting) :
    ∃ y, s.run rows part assemble pool = (.ok y, s.afterResults pool.nextId (chunks rows s.chunkRows).length
      (pool.enqueue (chunks rows s.chunkRows))) := by
  obtain ⟨parts, hparts⟩ := s.collect_of_ok pool.nextId fun range hrange =>
    hpart range (stop_le_of_mem_chunks hrange)
  refine ⟨assemble parts, ?_⟩
  rw [run, spawnAll_of_accepting _ hp]
  dsimp only
  rw [hparts]

theorem product_of_accepting [Zero α] [Add α] [Mul α] (s : RowSplit) {a : Matrix α}
    (hreal : a.kind = .real) {x : Array α} (hx : x.size = a.cols.toNat) {pool : Pool RowRange}
    (hp : pool.Accepting) : ∃ y, s.product a x pool = (.ok y, s.afterResults pool.nextId
      (chunks a.rows s.chunkRows).length (pool.enqueue (chunks a.rows s.chunkRows))) :=
  run_of_accepting (fun _ hstop => ⟨_, Matrix.productRows_eq_ok.mpr ⟨hreal, hx, hstop, rfl⟩⟩) _ hp

theorem transposeProduct_of_accepting [Zero α] [One α] [Add α] [Mul α] (s : RowSplit) {a : Matrix α}
    (hreal : a.kind = .real) {x : Array α} (hx : x.size = a.rows.toNat) {pool : Pool RowRange}
    (hp : pool.Accepting) : ∃ y, s.transposeProduct a x pool = (.ok y, s.afterResults pool.nextId
      (chunks a.rows s.chunkRows).length (pool.enqueue (chunks a.rows s.chunkRows))) :=
  run_of_accepting
    (fun _ hstop => ⟨_, Matrix.transposeProductRows_eq_ok.mpr ⟨hreal, hx, hstop, rfl⟩⟩) _ hp

/-! ### Parts in their places -/

theorem size_foldSet (start n : Nat) (f : (i : Nat) → i < n → α) (y : Array α) :
    (n.fold (fun i h y => y.setIfInBounds (start + i) (f i h)) y).size = y.size := by
  induction n with
  | zero => rfl
  | succ n ih => rw [Nat.fold_succ, Array.size_setIfInBounds, ih]

theorem getElem?_foldSet (start n : Nat) (f : (i : Nat) → i < n → α) (y : Array α) (j : Nat) :
    (n.fold (fun i h y => y.setIfInBounds (start + i) (f i h)) y)[j]? =
      if h : start ≤ j ∧ j - start < n ∧ j < y.size then some (f (j - start) h.2.1) else y[j]? := by
  induction n with
  | zero => rw [Nat.fold_zero, dif_neg (by omega)]
  | succ n ih =>
    rw [Nat.fold_succ, Array.getElem?_setIfInBounds, size_foldSet, ih]
    by_cases hj : start + n = j
    · subst hj
      rw [if_pos rfl]
      by_cases hlt : start + n < y.size
      · rw [if_pos hlt, dif_pos (by omega)]
        simp only [Nat.add_sub_cancel_left]
      · rw [if_neg hlt, dif_neg (by omega), Array.getElem?_eq_none (by omega)]
    · rw [if_neg hj]
      by_cases h : start ≤ j ∧ j - start < n ∧ j < y.size
      · rw [dif_pos h, dif_pos (by omega)]
      · rw [dif_neg h, dif_neg (by omega)]

@[simp] theorem size_place (y : Array α) (start : Word) (part : Array α) :
    (place y start part).size = y.size := size_foldSet ..

theorem getElem?_place (y : Array α) (start : Word) (part : Array α) (j : Nat) :
    (place y start part)[j]? = if start.toNat ≤ j ∧ j - start.toNat < part.size ∧ j < y.size then
      part[j - start.toNat]? else y[j]? := by
  rw [place, getElem?_foldSet]
  split
  next h => exact (Array.getElem?_eq_getElem h.2.1).symm
  next h => rfl

/-- The numbers of a chunk. -/
def partOf (f : Word → α) (range : RowRange) : Array α :=
  ((Word.range range.start range.stop).map f).toArray

/-- Parts of one vector do not contradict each other: an entry is set to its own value by every part that
has it, and stays if no part does. -/
theorem getElem?_foldl_place (f : Word → α) {parts : List (RowRange × Array α)}
    (hparts : ∀ p ∈ parts, p.2 = partOf f p.1) (y : Array α) (j : Nat) :
    (parts.foldl (fun y (range, part) => place y range.start part) y)[j]? =
      if j < y.size ∧ ∃ p ∈ parts, p.1.start.toNat ≤ j ∧ j < p.1.stop.toNat then
        some (f (UInt64.ofNat j)) else y[j]? := by
  induction parts generalizing y with
  | nil => rw [List.foldl_nil, if_neg (by simp)]
  | cons p parts ih =>
    obtain ⟨hp, hparts⟩ := List.forall_mem_cons.mp hparts
    have hpart (k : Nat) : p.2[k]? = if p.1.start.toNat + k < p.1.stop.toNat then
        some (f (UInt64.ofNat (p.1.start.toNat + k))) else none := by
      rw [hp, partOf, List.getElem?_toArray, List.getElem?_map, Word.getElem?_range]
      split <;> rfl
    have hsize : p.2.size = p.1.stop.toNat - p.1.start.toNat := by
      rw [hp, partOf, List.size_toArray, List.length_map, Word.range, List.length_map, List.length_range]
    rw [List.foldl_cons, ih hparts, size_place, getElem?_place, hpart, hsize]
    simp only [List.exists_mem_cons_iff]
    by_cases hy : j < y.size
    · by_cases hrest : ∃ p ∈ parts, p.1.start.toNat ≤ j ∧ j < p.1.stop.toNat
      · rw [if_pos ⟨hy, hrest⟩, if_pos ⟨hy, .inr hrest⟩]
      · rw [if_neg fun h => hrest h.2]
        by_cases hhere : p.1.start.toNat ≤ j ∧ j < p.1.stop.toNat
        · obtain ⟨hfrom, hto⟩ := hhere
          rw [if_pos (by omega), if_pos (by omega), if_pos ⟨hy, .inl ⟨hfrom, hto⟩⟩,
            Nat.add_sub_cancel' hfrom]
        · rw [if_neg (by omega), if_neg]
          rintro ⟨-, h | h⟩
          · exact hhere h
          · exact hrest h
    · rw [if_neg fun h => hy h.1, if_neg fun h => hy h.2.2, if_neg fun h => hy h.1]

/-- A product in chunks that comes to a result comes to the plain one. -/
theorem of_product_eq_ok [Zero α] [Add α] [Mul α] {a : Matrix α} (hreal : a.kind = .real)
    (hrows : a.rows.toNat < 2 ^ 63) {x y : Array α} (hx : x.size = a.cols.toNat)
    {pool : Pool RowRange} (h : (s.product a x pool).1 = .ok y) :
    a.product x = .ok y := by
  obtain ⟨parts, rfl, hperm, hok⟩ := of_run_eq_ok h
  refine Matrix.productRows_eq_ok.mpr ⟨hreal, hx, UInt64.le_refl a.allRows.stop, ?_⟩
  have hparts : ∀ p ∈ parts, p.2 = partOf (a.rowProduct x) p.1 := fun p hp =>
    (Matrix.productRows_eq_ok.mp (hok p hp)).2.2.2.symm
  refine Array.ext_getElem? fun j => ?_
  rw [getElem?_foldl_place _ hparts, Vec.zeros, Array.size_replicate, Array.getElem?_replicate,
    List.getElem?_toArray, List.getElem?_map, Word.getElem?_range]
  change Option.map _ (if 0 + j < a.rows.toNat then some (UInt64.ofNat (0 + j)) else none) = _
  rw [Nat.zero_add]
  by_cases hj : j < a.rows.toNat
  · have hword : (UInt64.ofNat j).toNat = j := UInt64.toNat_ofNat_of_lt' (show j < 2 ^ 64 by omega)
    have hrow : UInt64.ofNat j < a.rows := UInt64.lt_iff_toNat_lt.mpr (hword.symm ▸ hj)
    obtain ⟨range, hrange, hfrom, hto⟩ := exists_chunk hrows s.chunkRows_ne_zero hrow
    obtain ⟨p, hp, rfl⟩ := List.mem_map.mp (hperm.mem_iff.mpr hrange)
    rw [UInt64.le_iff_toNat_le, hword] at hfrom
    rw [UInt64.lt_iff_toNat_lt, hword] at hto
    rw [if_pos hj, if_pos ⟨hj, p, hp, hfrom, hto⟩, Option.map_some]
  · rw [if_neg hj, if_neg (fun h => hj h.1), if_neg hj, Option.map_none]

/-! ### Parts that are added up -/

theorem foldl_addScaled [Semiring α] {n : Nat} {parts : List (RowRange × Array α)}
    (hparts : ∀ p ∈ parts, p.2.size = n) {y : Array α} (hy : y.size = n) :
    (parts.foldl (fun y (_, part) => Vec.addScaled 1 part y) y).size = n ∧
      ∀ j, (parts.foldl (fun y (_, part) => Vec.addScaled 1 part y) y).getD j 0 =
        y.getD j 0 + (parts.map fun p => p.2.getD j 0).sum := by
  induction parts generalizing y with
  | nil => exact ⟨hy, fun j => by rw [List.foldl_nil, List.map_nil, List.sum_nil, add_zero]⟩
  | cons p parts ih =>
    obtain ⟨hp, hparts⟩ := List.forall_mem_cons.mp hparts
    have hfirst : (Vec.addScaled 1 p.2 y).size = n := by rw [Vec.size_addScaled, hy]
    obtain ⟨hsize, hentries⟩ := ih hparts hfirst
    refine ⟨hsize, fun j => (hentries j).trans ?_⟩
    rw [Vec.getD_addScaled (hp.trans hy.symm), one_mul, List.map_cons, List.sum_cons, add_assoc]

/-- The parts of the transposed product add up to it, if the order in which they are added does not matter. -/
theorem of_transposeProduct_eq_ok [Semiring α] {a : Matrix α} (hreal : a.kind = .real)
    (hrows : a.rows.toNat < 2 ^ 63) {x y : Array α} (hx : x.size = a.rows.toNat)
    {pool : Pool RowRange} (h : (s.transposeProduct a x pool).1 = .ok y) :
    a.transposeProduct x = .ok y := by
  obtain ⟨parts, rfl, hperm, hok⟩ := of_run_eq_ok h
  have hparts (p : RowRange × Array α) (hp : p ∈ parts) :=
    Vec.getElem?_eq_iff.mp (Matrix.transposeProductRows_eq_sum (hok p hp))
  obtain ⟨hsize, hentries⟩ := foldl_addScaled (fun p hp => (hparts p hp).1) (Vec.size_zeros a.cols.toNat)
  refine Matrix.transposeProduct_eq_ok_iff.mpr ⟨hreal, hx, hsize, fun j hj => ?_⟩
  have hsums : (parts.map fun p => p.2.getD j 0) = (parts.map Prod.fst).map fun range =>
      ∑ i ∈ Finset.Ico range.start.toNat range.stop.toNat, a.coefficient i j * x.getD i 0 := by
    rw [List.map_map]
    exact List.map_congr_left fun p hp => (hparts p hp).2 j hj
  rw [hentries, hsums, (hperm.map _).sum_eq, sum_chunks hrows s.chunkRows_ne_zero, Vec.getD_zeros, zero_add]

end RowSplit

end AccelKrylov
