import AccelKrylov.Solver
import AccelKrylov.Proofs.Matrix.CrashFree
import AccelKrylov.Proofs.Pool.Submissions
import AccelKrylov.Proofs.Solver.Chunks
import AccelKrylov.Proofs.Solver.ProductCount
import AccelKrylov.Proofs.Solver.Status

/-! What a local solve leaves behind in its pool. The workers go on whenever they like, during the solve and
after it; a product does not wait for them longer than for its last result, or for the first one that is an
error. The solve does wait: when nothing is pending any more, the pool has completed as many jobs as the result
of the solve tells. -/

namespace AccelKrylov

variable {σ τ : Type}

/-! ### Products while workers go on -/

/-- An operator whose products are computed by a pool in its state, in chunks of a number of rows. Each of
them asks for all chunks and comes to what it comes to when the parts arrive in some order; the workers get to
run before, while and after it does. -/
structure Operator.Interleaves (op : Operator τ Double) (pool : τ → Pool RowRange) (a : Matrix Double)
    (chunkRows : Word) : Prop where
  apply (x : Array Double) (w : τ) : ∃ split : RowSplit, split.chunkRows = chunkRows ∧
    (op.apply x w).1 = (split.product a x (pool w)).1 ∧
    Pool.Interleaved a.Crashes (pool w) ((pool w).asks (chunks a.rows chunkRows)) (pool (op.apply x w).2)
  applyTransposed (x : Array Double) (w : τ) : ∃ split : RowSplit, split.chunkRows = chunkRows ∧
    (op.applyTransposed x w).1 = (split.transposeProduct a x (pool w)).1 ∧
    Pool.Interleaved a.Crashes (pool w) ((pool w).asks (chunks a.rows chunkRows))
      (pool (op.applyTransposed x w).2)

namespace RowSplit

/-- Queueing a job for every range is what a caller does whom no worker interrupts. -/
theorem replay_asks (ranges : List RowRange) (p : Pool RowRange) :
    p.replay (p.asks ranges) = some (spawnAll ranges p).2 := by
  by_cases hrefuses : (p.workers.isEmpty || p.closing) = true
  · rw [Pool.asks, if_pos hrefuses]
    cases ranges with
    | nil => rfl
    | cons range ranges =>
      rw [spawnAll, Pool.spawn_of_refusing hrefuses]
      rfl
  · have hp := Pool.accepting_iff.mpr hrefuses
    rw [Pool.asks, if_neg hrefuses, Pool.replay_submissions hp, spawnAll_of_accepting ranges hp]

theorem interleaved_spawnAll (crashes : RowRange → Prop) (ranges : List RowRange) (p : Pool RowRange) :
    Pool.Interleaved crashes p (p.asks ranges) (spawnAll ranges p).2 :=
  .of_replay (fun step hstep => Pool.worker_of_submits ((Pool.submitted_asks p ranges).submits step hstep))
    (replay_asks ranges p)

theorem interleaved_afterResults (crashes : RowRange → Prop) (s : RowSplit) (batch : Word) (results : Nat)
    (p : Pool RowRange) : Pool.Interleaved crashes p [] (s.afterResults batch results p) := by
  obtain ⟨k, hk⟩ := Pool.exists_settleUntil_eq .calm (fun q => decide (q.unrun + results ≤ p.unrun)) p.remaining p
  rw [afterResults, hk]
  exact (Pool.Interleaved.settleWithin k p).trans (.settleWithin _ _)

/-- Workers that go on once everything is asked for are one way. -/
theorem operator_interleaves (split : RowSplit) (a : Matrix Double) :
    (split.operator a).Interleaves id a split.chunkRows := by
  have hasks (p : Pool RowRange) (part : RowRange → Except ProductError (Array Double))
      (assemble : List (RowRange × Array Double) → Array Double) :
      Pool.Interleaved a.Crashes p (p.asks (chunks a.rows split.chunkRows))
        (split.run a.rows part assemble p).2 := by
    obtain ⟨results, hpool⟩ := split.exists_run_pool a.rows part assemble p
    have hall := (interleaved_spawnAll a.Crashes (chunks a.rows split.chunkRows) p).trans
      (split.interleaved_afterResults a.Crashes p.nextId results _)
    rwa [List.append_nil, ← hpool] at hall
  exact ⟨fun x p => ⟨split, rfl, rfl, hasks p _ _⟩, fun x p => ⟨split, rfl, rfl, hasks p _ _⟩⟩

end RowSplit

namespace Operator.Interleaves

variable {op : Operator τ Double} {pool : τ → Pool RowRange} {a : Matrix Double} {chunkRows : Word}
  {n k : Nat} {y : Except (SolveError Double) (Array Double)} {w w' : τ}

/-- A product asks the pool for all chunks. -/
theorem asks (hop : op.Interleaves pool a chunkRows) (h : op.Multiplies n w y w') :
    Pool.Interleaved a.Crashes (pool w) ((pool w).asks (chunks a.rows chunkRows)) (pool w') := by
  obtain ⟨x, -, h | h⟩ := h
  · obtain ⟨split, -, -, hasks⟩ := hop.apply x w
    rwa [h] at hasks
  · obtain ⟨split, -, -, hasks⟩ := hop.applyTransposed x w
    rwa [h] at hasks

/-- Products in a row give the pool as many times the chunks. -/
theorem submits (hop : op.Interleaves pool a chunkRows) (h : op.Multiplied n k w w') :
    ∃ steps, Pool.Interleaved a.Crashes (pool w) steps (pool w') ∧
      Pool.Submitted steps (k * (pool w).taken (chunks a.rows chunkRows).length) := by
  induction h with
  | none w => exact ⟨[], .done _, by rw [Nat.zero_mul]; exact .nil⟩
  | @next k y w w₁ w' product _ ih =>
    have hfirst := hop.asks product
    have hsubmitted := Pool.submitted_asks (pool w) (chunks a.rows chunkRows)
    obtain ⟨steps, hsteps, hcount⟩ := ih
    rw [hfirst.taken hsubmitted.submits] at hcount
    refine ⟨_, hfirst.trans hsteps, ?_⟩
    rw [Nat.succ_mul, Nat.add_comm]
    exact hsubmitted.append hcount

/-- A product of a complex matrix comes to a result only where there is nothing to multiply. -/
theorem chunks_eq_nil (hop : op.Interleaves pool a chunkRows) (hcomplex : a.kind = .complex)
    {x : Array Double} (h : op.Multiplies n w (.ok x) w') : chunks a.rows chunkRows = [] := by
  have hnone {part : RowRange → Except ProductError (Array Double)}
      {assemble : List (RowRange × Array Double) → Array Double} {split : RowSplit}
      (hsplit : split.chunkRows = chunkRows) (hrun : .ok x = (split.run a.rows part assemble (pool w)).1)
      (hpart : ∀ range y, part range = .ok y → a.kind = .real) : chunks a.rows chunkRows = [] := by
    obtain ⟨parts, -, hperm, hok⟩ := RowSplit.of_run_eq_ok hrun.symm
    rw [hsplit] at hperm
    cases parts with
    | nil => exact hperm.nil_eq.symm
    | cons part parts =>
      have hreal := hpart _ _ (hok part List.mem_cons_self)
      rw [hcomplex] at hreal
      cases hreal
  obtain ⟨v, -, h | h⟩ := h
  · obtain ⟨split, hsplit, hresult, -⟩ := hop.apply v w
    rw [h] at hresult
    exact hnone hsplit hresult fun range y hy => (Matrix.productRows_eq_ok.mp hy).1
  · obtain ⟨split, hsplit, hresult, -⟩ := hop.applyTransposed v w
    rw [h] at hresult
    exact hnone hsplit hresult fun range y hy => (Matrix.transposeProductRows_eq_ok.mp hy).1

/-- In a pool that takes work no product of a real matrix fails. -/
theorem not_multiplies_error (hop : op.Interleaves pool a chunkRows) (hreal : a.kind = .real)
    (hrows : n = a.rows.toNat) (hcols : n = a.cols.toNat) (hp : (pool w).Accepting) {e : SolveError Double} :
    ¬ op.Multiplies n w (.error e) w' := by
  rintro ⟨x, hx, h | h⟩
  · obtain ⟨split, -, hresult, -⟩ := hop.apply x w
    obtain ⟨y, hy⟩ := split.product_of_accepting hreal (hx.trans hcols) hp
    rw [h, hy] at hresult
    cases hresult
  · obtain ⟨split, -, hresult, -⟩ := hop.applyTransposed x w
    obtain ⟨y, hy⟩ := split.transposeProduct_of_accepting hreal (hx.trans hrows) hp
    rw [h, hy] at hresult
    cases hresult

end Operator.Interleaves

/-! ### Local solves -/

/-- How many products an iteration takes. -/
def Method.products : Method → Nat
  | .biconjugateGradient => 2
  | .conjugateGradient => 1
  | .quasiMinimalResidual => 0

namespace Algorithm

/-- There is nothing to multiply: the system is rejected, its right-hand side has norm zero, or the method
has firmware only. -/
def NeedsNoProduct (algorithm : Algorithm) (a : Matrix Double) (b : Array Double) : Prop :=
  ¬ (a.isSquare = true ∧ a.rows.toNat = b.size) ∨ Numeric.same (Vec.norm b) 0 = true ∨
    algorithm.method = .quasiMinimalResidual

instance (algorithm : Algorithm) (a : Matrix Double) (b : Array Double) :
    Decidable (algorithm.NeedsNoProduct a b) :=
  inferInstanceAs (Decidable (_ ∨ _))

theorem cases_of_solve {algorithm : Algorithm} {op : Operator τ Double} {a : Matrix Double}
    {b : Array Double} {w : τ} {solution : Solution Double} {ran r : SolveResult Double × τ}
    (hmethod : algorithm.method ≠ .quasiMinimalResidual)
    (hran : op.Ran b.size algorithm.method.products algorithm.maxIterations 0
      algorithm.maxIterations.toNat w ran)
    (hr : r = match validateSystem a b with
      | .error e => (.error e, w)
      | .ok () => if Numeric.same (Vec.norm b) 0 then (.ok solution, w) else ran) :
    algorithm.NeedsNoProduct a b ∧ r.2 = w ∨ ¬ algorithm.NeedsNoProduct a b ∧
      op.Ran b.size algorithm.method.products algorithm.maxIterations 0
        algorithm.maxIterations.toNat w r := by
  subst hr
  cases hsystem : (validateSystem a b : Except (SolveError Double) Unit) with
  | error e =>
    refine .inl ⟨.inl fun hvalid => ?_, rfl⟩
    cases hsystem.symm.trans (validateSystem_eq_ok_iff.mpr hvalid)
  | ok u =>
    have hvalid := validateSystem_eq_ok_iff.mp hsystem
    by_cases hzero : Numeric.same (Vec.norm b) 0 = true
    · exact .inl ⟨.inr (.inl hzero), by simp [hzero]⟩
    · refine .inr ⟨?_, by simpa [hzero] using hran⟩
      rintro (hrejected | hnorm | hfirmware)
      · exact hrejected hvalid
      · exact hzero hnorm
      · exact hmethod hfirmware

theorem sizes_of_needed {algorithm : Algorithm} {a : Matrix Double} {b : Array Double}
    (h : ¬ algorithm.NeedsNoProduct a b) : b.size = a.rows.toNat ∧ b.size = a.cols.toNat := by
  obtain ⟨hvalid, -⟩ := not_or.mp h
  obtain ⟨hsquare, hrows⟩ := not_not.mp hvalid
  exact ⟨hrows.symm, hrows.symm.trans (congrArg UInt64.toNat (eq_of_beq hsquare))⟩

theorem products_pos {algorithm : Algorithm} {a : Matrix Double} {b : Array Double}
    (h : ¬ algorithm.NeedsNoProduct a b) : 0 < algorithm.method.products := by
  cases hmethod : algorithm.method with
  | quasiMinimalResidual => exact absurd (.inr (.inr hmethod)) h
  | conjugateGradient | biconjugateGradient => decide

/-- A solve that needs products is a run of a method on a valid system. -/
theorem solveWith_cases (algorithm : Algorithm) (op : Operator τ Double) (a : Matrix Double)
    (b : Array Double) (w : τ) :
    algorithm.NeedsNoProduct a b ∧ (algorithm.solveWith op a b w).2 = w ∨
      ¬ algorithm.NeedsNoProduct a b ∧ op.Ran b.size algorithm.method.products algorithm.maxIterations 0
        algorithm.maxIterations.toNat w (algorithm.solveWith op a b w) := by
  cases hmethod : algorithm.method with
  | quasiMinimalResidual => exact .inl ⟨.inr (.inr hmethod), by simp only [solveWith, hmethod]⟩
  | conjugateGradient =>
    rw [← hmethod]
    refine cases_of_solve (by rw [hmethod]; decide) ?_ (by rw [solveWith, hmethod]; rfl)
    rw [hmethod]
    exact ConjugateGradient.ran op _ _ b w
  | biconjugateGradient =>
    rw [← hmethod]
    refine cases_of_solve (by rw [hmethod]; decide) ?_ (by rw [solveWith, hmethod]; rfl)
    rw [hmethod]
    exact BiconjugateGradient.ran op _ _ b w

end Algorithm

namespace Solver

/-- The rows of a chunk, of which there is at least one. -/
def chunkRows (s : Solver σ) : Word := if s.settings.pool.chunkRows = 0 then 1 else s.settings.pool.chunkRows

theorem chunkRows_ofRows (s : Solver σ) (arrival : Arrival) :
    (RowSplit.ofRows s.settings.pool.chunkRows arrival).chunkRows = s.chunkRows := by
  unfold RowSplit.ofRows chunkRows
  split <;> rfl

/-- How many chunks the rows of a matrix make. -/
def chunkCount (s : Solver σ) (a : Matrix Double) : Nat :=
  (a.rows.toNat + s.chunkRows.toNat - 1) / s.chunkRows.toNat

theorem length_chunks (s : Solver σ) (a : Matrix Double) :
    (chunks a.rows s.chunkRows).length = s.chunkCount a := by
  have hpos : s.chunkRows ≠ 0 := by
    unfold chunkRows
    split
    · decide
    · assumption
  rw [chunks, List.length_map, List.length_range, Word.toNat_ceilDiv _ hpos, chunkCount]

/-- How many jobs a local solve gives to the pool, told by its result: none without products or without
workers; one for each chunk if the first product fails because the matrix is complex; otherwise those of all
products up to the last iteration. -/
def jobs (s : Solver σ) (algorithm : Algorithm) (a : Matrix Double) (b : Array Double)
    (result : SolveResult Double) : Option Nat :=
  if algorithm.NeedsNoProduct a b ∨ s.pool.workers = [] then some 0
  else if a.kind = .complex ∧ 1 ≤ algorithm.maxIterations then some (s.chunkCount a)
  else (result.lastIteration algorithm.maxIterations).map fun k =>
    algorithm.method.products * k * s.chunkCount a

/-- A solver whose pool nobody else uses solves locally: what comes of it, and the pool at some time after
that, while the solver waits for it. -/
def SolvesLocally (s : Solver σ) (algorithm : Algorithm) (a : Matrix Double) (b : Array Double)
    (result : SolveResult Double) (p : Pool RowRange) : Prop :=
  ∃ (τ : Type) (op : Operator τ Double) (pool : τ → Pool RowRange) (w : τ),
    op.Interleaves pool a s.chunkRows ∧ pool w = s.pool ∧ (algorithm.solveWith op a b w).1 = result ∧
      Pool.Interleaved a.Crashes (pool (algorithm.solveWith op a b w).2) [] p

variable {s : Solver σ} {algorithm : Algorithm} {a : Matrix Double} {b : Array Double}
  {result : SolveResult Double} {p : Pool RowRange}

section
variable {τ : Type} {op : Operator τ Double} {pool : τ → Pool RowRange} {w w₁ w' : τ} {k : Nat}

/-- A run that ends between two iterations has given the pool the jobs of all its products. -/
theorem jobs_of_finished (hop : op.Interleaves pool a s.chunkRows) (hneeded : ¬ algorithm.NeedsNoProduct a b)
    (hrest : s.pool.AtRest) (products : op.Multiplied b.size (algorithm.method.products * k) w w')
    (last : result.lastIteration algorithm.maxIterations = some k)
    (none_left : k = 0 → algorithm.maxIterations.toNat = 0) : s.jobs algorithm a b result =
      some (algorithm.method.products * k * s.pool.taken (s.chunkCount a)) := by
  by_cases hworkers : s.pool.workers = []
  · simp [jobs, hworkers, Pool.taken]
  · rw [jobs, if_neg (not_or.mpr ⟨hneeded, hworkers⟩), (hrest.accepting hworkers).taken]
    split
    next hcomplex =>
      have hmax : 1 ≤ algorithm.maxIterations.toNat := UInt64.le_iff_toNat_le.mp hcomplex.2
      have hsome : 0 < algorithm.method.products * k :=
        Nat.mul_pos (Algorithm.products_pos hneeded) (Nat.pos_of_ne_zero fun hk => by
          rw [none_left hk] at hmax
          cases hmax)
      -- a product of a complex matrix that comes to a result has no rows
      have hnone : s.chunkCount a = 0 := by
        cases hcount : algorithm.method.products * k with
        | zero => omega
        | succ j =>
          rw [hcount] at products
          cases products with
          | next product =>
            rw [← length_chunks, hop.chunks_eq_nil hcomplex.1 product, List.length_nil]
      rw [hnone, Nat.mul_zero]
    next => rw [last, Option.map_some]

/-- A run that ends at a product that fails has given the pool the jobs of that product. -/
theorem jobs_of_failed (hop : op.Interleaves pool a s.chunkRows) (hneeded : ¬ algorithm.NeedsNoProduct a b)
    (hrest : s.pool.AtRest) (products : op.Multiplied b.size k w w₁) {e : SolveError Double}
    (product : op.Multiplies b.size w₁ (.error e) w') (some_left : 0 < algorithm.maxIterations.toNat)
    (hkept : s.pool.Accepting → (pool w₁).Accepting) : s.jobs algorithm a b (.error e) =
      some (k * s.pool.taken (s.chunkCount a) + s.pool.taken (s.chunkCount a)) := by
  by_cases hworkers : s.pool.workers = []
  · simp [jobs, hworkers, Pool.taken]
  · have hp := hrest.accepting hworkers
    have hmax : 1 ≤ algorithm.maxIterations := UInt64.le_iff_toNat_le.mpr some_left
    rw [jobs, if_neg (not_or.mpr ⟨hneeded, hworkers⟩), hp.taken]
    cases hkind : a.kind with
    | real =>
      obtain ⟨hrows, hcols⟩ := Algorithm.sizes_of_needed hneeded
      exact absurd product (hop.not_multiplies_error hkind hrows hcols (hkept hp))
    | complex =>
      rw [if_pos ⟨rfl, hmax⟩]
      cases products with
      | none => rw [Nat.zero_mul, Nat.zero_add]
      | next earlier =>
        have hnone : s.chunkCount a = 0 := by
          rw [← length_chunks, hop.chunks_eq_nil hkind earlier, List.length_nil]
        rw [hnone, Nat.mul_zero]

end

/-- The pool has been given as many jobs as the result tells, by steps of the caller alone. -/
theorem SolvesLocally.submitted (h : s.SolvesLocally algorithm a b result p) (hrest : s.pool.AtRest) :
    ∃ steps jobs, Pool.Interleaved a.Crashes s.pool steps p ∧ Pool.Submitted steps jobs ∧
      s.jobs algorithm a b result = some jobs ∧ (algorithm.NeedsNoProduct a b → steps = []) := by
  obtain ⟨τ, op, pool, w, hop, hpool, hresult, hafter⟩ := h
  rcases algorithm.solveWith_cases op a b w with ⟨hnothing, hsame⟩ | ⟨hneeded, hran⟩
  · rw [hsame, hpool] at hafter
    exact ⟨[], 0, hafter, .nil, if_pos (.inl hnothing), fun _ => rfl⟩
  · generalize algorithm.solveWith op a b w = r at hran hresult hafter
    cases hran with
    | @finished k result w' products last within none_left =>
      subst hresult
      obtain ⟨steps, hsteps, hcount⟩ := hop.submits products
      have hall := hsteps.trans hafter
      rw [List.append_nil] at hall
      rw [hpool, length_chunks] at hcount
      rw [hpool] at hall
      rw [Nat.zero_add] at last
      exact ⟨steps, _, hall, hcount, jobs_of_finished hop hneeded hrest products last none_left,
        fun hnothing => absurd hnothing hneeded⟩
    | @failed k e w₁ w' products product some_left =>
      subst hresult
      obtain ⟨steps, hsteps, hcount⟩ := hop.submits products
      have hasks := Pool.submitted_asks (pool w₁) (chunks a.rows s.chunkRows)
      rw [hsteps.taken hcount.submits] at hasks
      have hall := (hsteps.trans (hop.asks product)).trans hafter
      have hsubmitted := hcount.append hasks
      rw [List.append_nil, hpool] at hall
      rw [hpool, length_chunks] at hsubmitted
      have hkept : s.pool.Accepting → (pool w₁).Accepting := by
        rw [← hpool]
        exact hsteps.accepting hcount.submits
      exact ⟨_, _, hall, hsubmitted,
        jobs_of_failed hop hneeded hrest products product some_left hkept,
        fun hnothing => absurd hnothing hneeded⟩

/-- What is known of a pool that a local solve waits for. -/
structure WaitsFor (s : Solver σ) (algorithm : Algorithm) (a : Matrix Double) (b : Array Double)
    (result : SolveResult Double) (p : Pool RowRange) : Prop where
  /-- While something is pending, some worker can go on. -/
  goes : p.pending ≠ 0 → ∃ (w : Nat) (action : PoolAction RowRange) (q : Pool RowRange),
    action.worker? = some w ∧ p.step action = some q
  /-- Whichever worker does, less remains to be done. -/
  ends (w : Nat) (action : PoolAction RowRange) (q : Pool RowRange) : action.worker? = some w →
    p.step action = some q → q.remaining < p.remaining
  /-- When nothing is pending any more, nothing is left of the solve but the jobs that are completed. -/
  returns : p.pending = 0 → p.AtRest ∧ p.crashed = s.pool.crashed ∧
    ∃ jobs, s.jobs algorithm a b result = some jobs ∧ p.completed = s.pool.completed + jobs

theorem SolvesLocally.waitsFor (h : s.SolvesLocally algorithm a b result p) (hrest : s.pool.AtRest)
    (hb : b.size < 2 ^ 63) : s.WaitsFor algorithm a b result p := by
  obtain ⟨steps, jobs, hsteps, hsubmitted, hjobs, hnone⟩ := h.submitted hrest
  refine ⟨hrest.can_go_on hsteps hsubmitted, fun w action q hworker hstep => Pool.remaining_lt hstep hworker,
    fun hpending => ?_⟩
  by_cases hneeded : algorithm.NeedsNoProduct a b
  · obtain rfl := hnone hneeded
    obtain rfl := hrest.eq_of_interleaved hsteps
    have hzero : jobs = 0 := hsubmitted.announces.symm
    exact ⟨hrest, rfl, jobs, hjobs, by rw [hzero, Nat.add_zero]⟩
  · have hcols : a.cols.toNat < 2 ^ 63 := (Algorithm.sizes_of_needed hneeded).2 ▸ hb
    obtain ⟨hafter, hcompleted, hcrashed⟩ :=
      hrest.completed (Matrix.not_crashes hcols) hsteps hsubmitted hpending
    exact ⟨hafter, hcrashed, jobs, hjobs, hcompleted⟩

end Solver

/-- A solver that has just been made has a pool at rest, which shutting it down leaves at rest. -/
theorem Solver.atRest_withTransport {settings : Settings} {transport : Transport σ} {s : Solver σ}
    (h : withTransport settings transport = .ok s) : s.pool.AtRest ∧ s.shutdown.pool.AtRest := by
  obtain ⟨_, -, h⟩ := bind_eq_ok.mp h
  obtain ⟨pool, hstart, h⟩ := bind_eq_ok.mp h
  obtain rfl := Except.ok.inj h
  have hrest : pool.AtRest := by
    cases hpool : (Pool.start settings.pool.workers : Except PoolError (Pool RowRange)) with
    | error e =>
      rw [hpool] at hstart
      cases hstart
    | ok p =>
      rw [hpool] at hstart
      obtain rfl := Except.ok.inj hstart
      obtain ⟨_, hsome, hworkers⟩ := bind_eq_ok.mp hpool
      obtain rfl := Except.ok.inj hworkers
      exact Pool.atRest_ofWorkers (Word.toNat_pos_iff.mpr (ensure_eq_ok.mp hsome))
  exact ⟨hrest, hrest.shutdown.1⟩

/-- A local solve leaves no work behind in a pool that nobody else uses, whatever the algorithm, the matrix
and the right-hand side are and whatever comes of it. It returns, with nothing pending; and whenever the
workers get to run during the solve and after it, they go on until nothing is pending, have then crashed at
no job, and have completed as many jobs as the result of the solve tells. No memory holds a right-hand side
of `2 ^ 63` numbers. -/
theorem Solver.solve_leaves_no_work (s : Solver σ) (h : Host) (arrival : Arrival) (algorithm : Algorithm)
    (a : Matrix Double) (b : Array Double) (machine : Machine σ) (hlocal : s.settings.offload = false)
    (hrest : s.pool.AtRest) (hb : b.size < 2 ^ 63) :
    (∃ result p, s.solve h arrival algorithm a b machine = (some result, { s with pool := p }, machine) ∧
      s.SolvesLocally algorithm a b result p ∧ p.pending = 0) ∧
    ∀ result p, s.SolvesLocally algorithm a b result p → s.WaitsFor algorithm a b result p := by
  constructor
  · have hop := (RowSplit.ofRows s.settings.pool.chunkRows arrival).operator_interleaves a
    rw [s.chunkRows_ofRows] at hop
    let split := RowSplit.ofRows s.settings.pool.chunkRows arrival
    let solved := algorithm.solveLocally split a b s.pool
    have hreturned : s.SolvesLocally algorithm a b solved.1 solved.2 :=
      ⟨Pool RowRange, _, id, s.pool, hop, rfl, rfl, .done _⟩
    obtain ⟨steps, jobs, hsteps, hsubmitted, -, -⟩ := hreturned.submitted hrest
    refine ⟨solved.1, solved.2.settle .calm, ?_, ⟨Pool RowRange, _, id, s.pool, hop, rfl, rfl, .settle _⟩,
      hrest.pending_settle hsteps hsubmitted⟩
    unfold solve
    simp only [hlocal]
    rfl
  · exact fun result p hsolves => hsolves.waitsFor hrest hb

/-! ### A solve of three unknowns -/

namespace ThreeUnknowns

/-- Twice every unknown is two. -/
def matrix : Matrix Double where
  rows := 3
  cols := 3
  base := 0
  kind := .real
  representation := .general
  storage := .dense 3
    #[⟨0x4000000000000000⟩, 0, 0, 0, ⟨0x4000000000000000⟩, 0, 0, 0, ⟨0x4000000000000000⟩]
  fits := by cbv

def rightHandSide : Array Double := #[⟨0x4000000000000000⟩, ⟨0x4000000000000000⟩, ⟨0x4000000000000000⟩]

/-- Every unknown is one, after one iteration. -/
def solution : Solution Double := ⟨#[1, 1, 1], 1, 0⟩

def algorithm : Algorithm := .standard .biconjugateGradient

/-- Two workers, and chunks of two rows. -/
def solver : Solver Unit :=
  ⟨{ Settings.standard 2 with pool := ⟨2, 2⟩ }, .ofWorkers 2,
    .deviceFile ⟨fun _ => .ok (.file 64)⟩ "/dev/solver_accel"⟩

def host : Host :=
  ⟨⟨fun _ => .ok (.file 64)⟩, 7, 3, 4096, fun position => UInt64.ofNat (8192 + 64 * position)⟩

def machine : Machine Unit := ⟨(), {}, [], none⟩

def solved : Option (SolveResult Double) × Solver Unit × Machine Unit :=
  solver.solve host .inTurn algorithm matrix rightHandSide machine

theorem solved_eq : solved.1 = some (.ok solution) := by decide +kernel

theorem jobs_eq : solver.jobs algorithm matrix rightHandSide (.ok solution) = some 4 := by decide +kernel

end ThreeUnknowns

/-- One iteration with two products of two chunks each. -/
theorem Solver.solve_leaves_no_work_threeUnknowns :
    ThreeUnknowns.solver.settings.offload = false ∧ ThreeUnknowns.solver.pool.AtRest ∧
      ThreeUnknowns.rightHandSide.size < 2 ^ 63 ∧ ThreeUnknowns.solved.1 = some (.ok ThreeUnknowns.solution) ∧
      ThreeUnknowns.solved.2.1.pool.pending = 0 ∧ ThreeUnknowns.solved.2.1.pool.completed = 4 ∧
      ThreeUnknowns.solved.2.1.pool.crashed = 0 := by
  have hrest : ThreeUnknowns.solver.pool.AtRest := Pool.atRest_ofWorkers (by decide)
  have hsize : ThreeUnknowns.rightHandSide.size < 2 ^ 63 := by decide
  obtain ⟨⟨result, p, hsolve, hsolves, hpending⟩, hwaits⟩ := Solver.solve_leaves_no_work ThreeUnknowns.solver
    ThreeUnknowns.host .inTurn ThreeUnknowns.algorithm ThreeUnknowns.matrix ThreeUnknowns.rightHandSide
    ThreeUnknowns.machine rfl hrest hsize
  have hsolved : ThreeUnknowns.solved = (some result, { ThreeUnknowns.solver with pool := p },
    ThreeUnknowns.machine) := hsolve
  have hresult : result = .ok ThreeUnknowns.solution := by
    have := ThreeUnknowns.solved_eq
    rw [hsolved] at this
    exact Option.some.inj this
  subst hresult
  obtain ⟨-, hcrashed, jobs, hjobs, hcompleted⟩ := (hwaits _ p hsolves).returns hpending
  obtain rfl := Option.some.inj (ThreeUnknowns.jobs_eq.symm.trans hjobs)
  rw [hsolved]
  exact ⟨rfl, hrest, hsize, rfl, hpending, hcompleted, hcrashed⟩

end AccelKrylov
