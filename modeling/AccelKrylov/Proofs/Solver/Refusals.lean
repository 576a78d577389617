import AccelKrylov.Proofs.Solver.SerialProduct

/-! What products in chunks refuse. Every job checks the shapes on its own, so a product in chunks is refused
where the plain one is, and for a fault of the same kind whichever job reports first. Where there are no rows
there is no job, and nothing is checked at all. -/

namespace AccelKrylov

variable {α : Type}

/-- The kind of fault for which a product is refused, if it is. -/
def refusal : Except ProductError (Array α) → Option String
  | .ok _ => none
  | .error e => some (Error.ofProduct e).name

/-- A product in chunks and a plain one have results both, or are refused both, for faults of one kind. -/
inductive RefusedAlike : Except (SolveError α) (Array α) → Except ProductError (Array α) → Prop
  | done (y z : Array α) : RefusedAlike (.ok y) (.ok z)
  | refused {fault : Error} {e : ProductError} (h : fault.name = (Error.ofProduct e).name) :
    RefusedAlike (.error (.offload fault)) (.error e)

theorem refusal_eq_none {y : Except ProductError (Array α)} : refusal y = none ↔ ∃ z, y = .ok z := by
  cases y with
  | ok z => exact ⟨fun _ => ⟨z, rfl⟩, fun _ => rfl⟩
  | error e => exact ⟨nofun, nofun⟩

theorem RefusedAlike.eq_ok {split : Except (SolveError α) (Array α)} {plain : Except ProductError (Array α)}
    (h : RefusedAlike split plain) {y : Array α} (hy : split = .ok y) : ∃ z, plain = .ok z := by
  cases h with
  | done _ z => exact ⟨z, rfl⟩
  | refused => cases hy

/-! ### Ranges of rows -/

/-- Behind two checks, it is the checks and not the result that tell whether a product is refused. -/
theorem refusal_checks {p q q' : Prop} [Decidable p] [Decidable q] [Decidable q'] {e f f' : ProductError}
    {y y' : Array α} (hq : q ↔ q') (hkind : (Error.ofProduct f).name = (Error.ofProduct f').name) :
    refusal (do ensure p e; ensure q f; .ok y) = refusal (do ensure p e; ensure q' f'; .ok y') := by
  by_cases hp : p
  · rw [ensure, if_pos hp, ensure, ensure]
    by_cases hq' : q'
    · rw [if_pos (hq.mpr hq'), if_pos hq']
      rfl
    · rw [if_neg (mt hq.mp hq'), if_neg hq']
      exact congrArg some hkind
  · rw [ensure, if_neg hp]
    rfl

namespace Matrix

variable [Zero α] [Add α] [Mul α] {a : Matrix α} {range : RowRange} {x : Array α}

/-- Which rows are asked for makes no difference, as long as the matrix has them. -/
theorem refusal_productRows (hstop : range.stop ≤ a.rows) :
    refusal (a.productRows range x) = refusal (a.product x) := by
  rw [product, productRows, productRows]
  exact refusal_checks (and_congr_right' (iff_of_true hstop UInt64.le_rfl))
    (by simp only [Error.ofProduct, Error.name])

theorem refusal_transposeProductRows (hstop : range.stop ≤ a.rows) :
    refusal (a.transposeProductRows range x) = refusal (a.transposeProduct x) := by
  rw [transposeProduct, transposeProductRows, transposeProductRows]
  exact refusal_checks (and_congr_right' (iff_of_true hstop UInt64.le_rfl))
    (by simp only [Error.ofProduct, Error.name])

end Matrix

/-! ### Jobs -/

namespace RowSplit

variable {s : RowSplit} {part : RowRange → Except ProductError (Array α)}

/-- The fault that ends it all is the one of some part. -/
theorem mapM_part_eq_error {arrived : List RowRange} {e : ProductError}
    (h : (arrived.mapM fun range => (part range).map fun y => (range, y)) = .error e) :
    ∃ range ∈ arrived, part range = .error e := by
  induction arrived with
  | nil => cases h
  | cons range arrived ih =>
    rw [List.mapM_cons] at h
    rcases bind_eq_error.mp h with hfirst | ⟨p, -, hrest⟩
    · exact ⟨range, List.mem_cons_self, map_eq_error.mp hfirst⟩
    · rcases bind_eq_error.mp hrest with hrest | ⟨parts, -, hlast⟩
      · obtain ⟨later, hmem, hlater⟩ := ih hrest
        exact ⟨later, List.mem_cons_of_mem _ hmem, hlater⟩
      · cases hlast

theorem collect_eq_error {batch : Word} {ranges : List RowRange} {e : ProductError}
    (h : s.collect batch ranges part = .error e) : ∃ range ∈ ranges, part range = .error e := by
  obtain ⟨range, hmem, hrange⟩ := mapM_part_eq_error h
  exact ⟨range, (s.arrived_perm batch ranges).mem_iff.mp hmem, hrange⟩

/-- If every part is refused for the same kind of fault as the whole, then so is what the jobs come to, as long
as there is a job. -/
theorem run_refusedAlike {rows : Word} (hrows : rows ≠ 0) {plain : Except ProductError (Array α)}
    (hpart : ∀ range : RowRange, range.stop ≤ rows → refusal (part range) = refusal plain)
    (assemble : List (RowRange × Array α) → Array α) {pool : Pool RowRange} (hpool : pool.Accepting) :
    RefusedAlike (s.run rows part assemble pool).1 plain := by
  cases plain with
  | ok z =>
    obtain ⟨y, hy⟩ := s.run_of_accepting
      (fun range hstop => refusal_eq_none.mp (hpart range hstop)) assemble hpool
    rw [hy]
    exact .done y z
  | error e =>
    rw [run, spawnAll_of_accepting _ hpool]
    cases hcollect : s.collect pool.nextId (chunks rows s.chunkRows) part with
    | error first =>
      obtain ⟨range, hmem, hfirst⟩ := collect_eq_error hcollect
      have hkind := hpart range (stop_le_of_mem_chunks hmem)
      rw [hfirst] at hkind
      exact .refused (Option.some.inj hkind)
    | ok parts =>
      -- there is a chunk, and its part cannot have been computed
      obtain ⟨range, hmem⟩ := List.exists_mem_of_ne_nil _
        (mt (chunks_eq_nil_iff s.chunkRows_ne_zero).mp hrows)
      obtain ⟨hperm, hok⟩ := collect_eq_ok hcollect
      obtain ⟨p, hp, rfl⟩ := List.mem_map.mp (hperm.mem_iff.mpr hmem)
      have hkind := hpart p.1 (stop_le_of_mem_chunks hmem)
      rw [hok p hp] at hkind
      cases hkind

/-- Without rows every product has a result, so it is refused like the plain one only if that one is not. -/
theorem run_refusedAlike_iff {rows : Word} {plain : Except ProductError (Array α)}
    (hpart : ∀ range : RowRange, range.stop ≤ rows → refusal (part range) = refusal plain)
    (assemble : List (RowRange × Array α) → Array α) {pool : Pool RowRange} (hpool : pool.Accepting) :
    RefusedAlike (s.run rows part assemble pool).1 plain ↔ (rows = 0 → ∃ z, plain = .ok z) := by
  by_cases hrows : rows = 0
  · have hrun : (s.run rows part assemble pool).1 = .ok (assemble []) :=
      congrArg Prod.fst (run_of_no_rows hrows)
    refine ⟨fun h _ => h.eq_ok hrun, fun h => ?_⟩
    obtain ⟨z, rfl⟩ := h hrows
    rw [hrun]
    exact .done _ z
  · exact ⟨fun _ h => absurd h hrows, fun _ => run_refusedAlike hrows hpart assemble hpool⟩

end RowSplit

/-- A matrix of one column without rows. -/
def rowless : Matrix Double where
  rows := 0
  cols := 1
  base := 0
  kind := .real
  representation := .general
  storage := .dense 1 #[]
  fits := by cbv

end AccelKrylov
