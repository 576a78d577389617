import AccelKrylov.Solver
import AccelKrylov.Proofs.Session.Status
import AccelKrylov.Proofs.Solver.ProductCount

/-! The sign of the number that a caller gets for a solve. Failures have negative statuses, and a solution has
its iterations, which are no more than a signed number can hold: so the sign tells the one from the other. -/

namespace AccelKrylov

variable {σ α : Type}

/-! ### Results -/

theorem SolveError.status_firmware {status : Int64} (h : status < 0) :
    (firmware status : SolveError α).status < 0 := by
  rw [Int64.lt_iff_toInt_lt] at h
  change (if Int32.minValue.toInt ≤ status.toInt ∧ status.toInt ≤ Int32.maxValue.toInt then
    Int32.ofInt status.toInt else numericalStatus) < 0
  split
  next hfits =>
    rw [Int32.lt_iff_toInt_lt, Int32.toInt_ofInt_of_le hfits.1 (Int.lt_add_one_of_le hfits.2)]
    exact h
  next => decide

/-- A result whose number has the right sign: a solution has no more iterations than a signed number can
hold, and an error has a negative status. -/
def SolveResult.Signed : SolveResult α → Prop
  | .ok solution => solution.iterations.toNat < 2 ^ 63
  | .error e => e.status < 0

namespace SolveResult.Signed

variable {result : SolveResult α}

theorem statusOf_nonneg_iff (h : result.Signed) :
    0 ≤ result.statusOf ↔ ∃ solution, result = .ok solution := by
  cases result with
  | ok solution =>
    refine ⟨fun _ => ⟨solution, rfl⟩, fun _ => ?_⟩
    rw [Int64.le_iff_toInt_le]
    change 0 ≤ solution.iterations.toInt64.toInt
    rw [Word.toInt_toInt64 h]
    exact Int.natCast_nonneg _
  | error e =>
    refine ⟨fun hnonneg => absurd hnonneg ?_, nofun⟩
    have hstatus : e.status.toInt < 0 := Int32.lt_iff_toInt_lt.mp h
    have hleast := e.status.le_toInt
    rw [Int64.le_iff_toInt_le]
    change ¬0 ≤ (Int64.ofInt e.status.toInt).toInt
    rw [Int64.toInt_ofInt_of_le (by omega) (by omega)]
    omega

theorem toInt_statusOf {solution : Solution α} (h : Signed (.ok solution)) :
    (statusOf (.ok solution)).toInt = solution.iterations.toNat :=
  Word.toInt_toInt64 h

end SolveResult.Signed

/-! ### Solves with a pool -/

/-- An operator fails only with a negative status. -/
structure Operator.FailsNegatively (op : Operator σ α) : Prop where
  apply : ∀ x w e, (op.apply x w).1 = .error e → e.status < 0
  applyTransposed : ∀ x w e, (op.applyTransposed x w).1 = .error e → e.status < 0

theorem RowSplit.status_of_run (s : RowSplit) {rows : Word} {part : RowRange → Except ProductError (Array α)}
    {assemble : List (RowRange × Array α) → Array α} {pool : Pool RowRange} {e : SolveError α}
    (h : (s.run rows part assemble pool).1 = .error e) : e.status < 0 := by
  unfold run at h
  dsimp only at h
  split at h
  next fault _ =>
    obtain rfl := Except.error.inj h
    exact Error.status_ofPool fault
  next =>
    split at h
    next => cases h
    next fault _ =>
      obtain rfl := Except.error.inj h
      exact Error.status_ofProduct fault

theorem RowSplit.operator_failsNegatively [Zero α] [One α] [Add α] [Mul α] (s : RowSplit) (a : Matrix α) :
    (s.operator a).FailsNegatively where
  apply _ _ _ h := s.status_of_run h
  applyTransposed _ _ _ h := s.status_of_run h

/-- Only numerical methods speak of iterations. -/
theorem SolveResult.signed_of_lastIteration {result : SolveResult α} {limit : Word} {k : Nat}
    (h : result.lastIteration limit = some k) (hk : k < 2 ^ 63) : result.Signed := by
  cases result with
  | ok solution =>
    obtain rfl := Option.some.inj h
    exact hk
  | error e =>
    have hnumerical : SolveError.numericalStatus < 0 := by decide
    cases e with
    | nonConvergence | breakdown => exact hnumerical
    | offload | dimension | firmware | unsupported => cases h

section
variable {op : Operator σ α} {n each : Nat} {limit : Word} {w : σ}

theorem Operator.FailsNegatively.signed_of_ran (hop : op.FailsNegatively) (hlimit : limit.toNat < 2 ^ 63)
    {r : SolveResult α × σ} (h : op.Ran n each limit 0 limit.toNat w r) : r.1.Signed := by
  cases h with
  | finished products last within =>
    rw [Nat.zero_add] at last
    exact SolveResult.signed_of_lastIteration last (Nat.lt_of_le_of_lt within hlimit)
  | failed products product =>
    obtain ⟨x, -, happly | htransposed⟩ := product
    · exact hop.apply x _ _ (congrArg Prod.fst happly)
    · exact hop.applyTransposed x _ _ (congrArg Prod.fst htransposed)

theorem Turn.solve_signed [Zero α] [Add α] [Mul α] [Numeric α] {S : Type} {turn : Turn σ S α}
    {exhausted : S → SolveResult α} {first : S} (b : Array α) (hop : op.FailsNegatively)
    (hlimit : limit.toNat < 2 ^ 63)
    (hran : op.Ran n each limit 0 limit.toNat w (turn.iterate exhausted limit limit.toNat first w)) :
    (turn.solve exhausted limit first b w).1.Signed := by
  rw [solve]
  split
  · exact (by decide : (0 : Word).toNat < 2 ^ 63)
  · exact hop.signed_of_ran hlimit hran

end

theorem status_of_validateSystem {β : Type} {a : Matrix α} {b : Array β} {e : SolveError α}
    (h : validateSystem a b = .error e) : ∃ text, e = .dimension text := by
  rcases bind_eq_error.mp h with hsquare | ⟨_, -, hrows⟩
  · exact ⟨_, (ensure_eq_error hsquare).symm⟩
  · exact ⟨_, (ensure_eq_error hrows).symm⟩

theorem validateSystem_eq_ok_iff {β : Type} {a : Matrix α} {b : Array β} :
    validateSystem a b = .ok () ↔ a.isSquare = true ∧ a.rows.toNat = b.size := by
  refine ⟨fun hvalid => ?_, fun ⟨hsquare, hsize⟩ => ?_⟩
  · obtain ⟨_, hsquare, hsize⟩ := bind_eq_ok.mp hvalid
    exact ⟨ensure_eq_ok.mp hsquare, ensure_eq_ok.mp hsize⟩
  · exact bind_eq_ok.mpr ⟨(), ensure_eq_ok.mpr hsquare, ensure_eq_ok.mpr hsize⟩

/-- A local solve comes to a result with the right sign. -/
theorem Algorithm.solveLocally_signed (algorithm : Algorithm)
    (hlimit : algorithm.maxIterations.toNat < 2 ^ 63) (split : RowSplit) (a : Matrix Double)
    (b : Array Double) (pool : Pool RowRange) : (algorithm.solveLocally split a b pool).1.Signed := by
  have hop := split.operator_failsNegatively a
  have hdimension {e : SolveError Double} (h : validateSystem a b = .error e) : e.status < 0 := by
    obtain ⟨text, rfl⟩ := status_of_validateSystem h
    exact (by decide : Error.invalidInputStatus < 0)
  rw [solveLocally, solveWith]
  split
  next => exact (by decide : SolveError.numericalStatus < 0)
  next =>
    split
    next e h => exact hdimension h
    next => exact Turn.solve_signed b hop hlimit (ConjugateGradient.ran _ _ _ b pool)
  next =>
    split
    next e h => exact hdimension h
    next => exact Turn.solve_signed b hop hlimit (BiconjugateGradient.ran _ _ _ b pool)

end AccelKrylov
