import AccelKrylov.Solver.Guarded
import AccelKrylov.Proofs.Solver.Residuals

/-! No division by zero. The length of a step is a quotient whose divisor has just been tested. The turn of the
search direction divides by a number from the iteration before, which is not tested again: in the biconjugate
gradient method it was then, and in the conjugate gradient method it can only be zero if the direction is, and
then the iteration has ended before it comes to divide. -/

namespace AccelKrylov

variable {σ α : Type} [Field α] [LinearOrder α] [Numeric α] [ExactArithmetic α]

theorem guardedDiv_eq (a : α) {b : α} (h : b ≠ 0) : guardedDiv a b = .ok (a / b) :=
  if_neg (mt (ExactArithmetic.same_iff b 0).mp h)

omit [LinearOrder α] [Numeric α] [ExactArithmetic α] in
theorem Vec.dot_zeros (n : Nat) (y : Array α) : dot (zeros n) y = 0 := by
  have hproducts : ∀ z ∈ (Array.zipWith (· * ·) (zeros n) y).toList, z = 0 := by
    intro z hz
    obtain ⟨i, hi, rfl⟩ := List.getElem_of_mem hz
    simp [zeros]
  rw [dot, ← Array.foldl_toList]
  generalize (Array.zipWith (· * ·) (zeros n) y).toList = products at hproducts
  induction products with
  | nil => rfl
  | cons z products ih =>
    obtain ⟨rfl, hrest⟩ := List.forall_mem_cons.mp hproducts
    rw [List.foldl_cons, add_zero]
    exact ih hrest

/-! ### Turns -/

section
omit [Field α] [LinearOrder α] [Numeric α] [ExactArithmetic α]

variable {S : Type} {guarded : GuardedTurn σ S α} {turn : Turn σ S α} {safe : S → Prop}

/-- In safe states turns are not stopped, and they go on to safe states. -/
structure GuardedTurn.Unstopped (guarded : GuardedTurn σ S α) (turn : Turn σ S α) (safe : S → Prop) : Prop where
  eq : ∀ iteration s w, safe s → guarded iteration s w = .ok (turn iteration s w)
  next : ∀ iteration s w s' w', safe s → turn iteration s w = (.next s', w') → safe s'

theorem GuardedTurn.Unstopped.iterate_eq (h : guarded.Unstopped turn safe) (exhausted : S → SolveResult α)
    (limit : Word) (left : Nat) {s : S} (hs : safe s) (w : σ) :
    guarded.iterate exhausted limit left s w = .ok (turn.iterate exhausted limit left s w) := by
  induction left generalizing s w with
  | zero => rfl
  | succ left ih =>
    rw [iterate, Turn.iterate, h.eq _ s w hs]
    obtain ⟨⟨outcome, w'⟩, hturn⟩ : ∃ r, turn (limit - UInt64.ofNat left) s w = r := ⟨_, rfl⟩
    rw [hturn]
    cases outcome with
    | done result => rfl
    | next s' => exact ih (h.next _ s w s' w' hs hturn) w'

theorem GuardedTurn.Unstopped.solve_eq [Zero α] [Add α] [Mul α] [Numeric α] (h : guarded.Unstopped turn safe)
    (exhausted : S → SolveResult α) (limit : Word) {first : S} {b : Array α}
    (hfirst : Numeric.same (Vec.norm b) 0 ≠ true → safe first) (w : σ) :
    guarded.solve exhausted limit first b w = .ok (turn.solve exhausted limit first b w) := by
  rw [solve, Turn.solve]
  split
  next => rfl
  next hb => exact h.iterate_eq exhausted limit _ (hfirst hb) w

end

/-! ### The conjugate gradient method -/

namespace ConjugateGradient

namespace State

/-- A state in which the square of the residual's norm is zero only where there is no direction left. -/
structure Divisible (s : State α) : Prop where
  size : s.r.size = s.p.size
  still : s.rr = 0 → s.p = Vec.zeros s.p.size

variable {s s' : State α} {threshold : α} {iteration : Word} {ap : Array α}

theorem guardedAdvance_eq (h : s.Divisible) :
    s.guardedAdvance threshold iteration ap = .ok (s.advance threshold iteration ap) := by
  by_cases hcurvature : Vec.dot s.p ap ≤ 0
  · simp only [guardedAdvance, advance, (ExactArithmetic.le_iff _ _).mpr hcurvature]
    rfl
  · have hrr : s.rr ≠ 0 := by
      intro hzero
      rw [h.still hzero, Vec.dot_zeros] at hcurvature
      exact hcurvature le_rfl
    have hstep := guardedDiv_eq s.rr (not_le.mp hcurvature).ne'
    simp only [guardedAdvance, advance, hstep, guardedDiv_eq _ hrr, bind, Except.bind]
    split
    · rfl
    · split <;> rfl

variable [IsStrictOrderedRing α]

theorem divisible_initial {b : Array α} (hb : Vec.norm b ≠ 0) : (initial b).Divisible where
  size := rfl
  still hzero := absurd ((Vec.norm_eq_zero_iff b).mpr ((Vec.dot_self_eq_zero_iff b).mp hzero)) hb

omit [ExactArithmetic α] in
/-- If nothing of the residual is left, the turn is by nothing, and nothing of the direction is left. -/
theorem Divisible.next (h : s.Divisible) (hadvanced : s.Advanced threshold iteration ap (.next s')) :
    s'.Divisible := by
  cases hadvanced with
  | next hcurvature hlarge =>
    have hsize : (s.movedResidual ap).size = s.p.size := by rw [movedResidual, Vec.size_addScaled, h.size]
    refine ⟨by rw [Vec.size_scaleAdd, hsize], fun hzero => ?_⟩
    replace hzero : Vec.dot (s.movedResidual ap) (s.movedResidual ap) = 0 := hzero
    have hresidual := (Vec.dot_self_eq_zero_iff _).mp hzero
    refine Vec.ext (Vec.size_zeros _).symm fun i _ => ?_
    rw [Vec.getD_scaleAdd hsize, Vec.getD_zeros, hzero, zero_div, zero_mul, add_zero, hresidual,
      Vec.getD_zeros]

end State

variable [IsStrictOrderedRing α]

theorem unstopped (op : Operator σ α) (threshold : α) :
    (guardedTurn op threshold).Unstopped (turn op threshold) State.Divisible where
  eq iteration s w hs := by
    rw [guardedTurn, turn]
    obtain ⟨product, w⟩ := op.apply s.p w
    cases product with
    | error e => rfl
    | ok ap => exact congrArg (Except.map fun outcome => (outcome, w)) (State.guardedAdvance_eq hs)
  next iteration s w s' w' hs hturn := by
    obtain ⟨e, -, he⟩ | ⟨ap, -, hadvance⟩ := cases_of_turn hturn
    · cases he
    · exact hs.next (hadvance ▸ s.advanced threshold iteration ap)

theorem guardedSolve_eq (op : Operator σ α) (b : Array α) (tolerance : α) (limit : Word) (w : σ) :
    guardedSolve op b tolerance limit w = .ok (solve op b tolerance limit w) := by
  refine (unstopped op _).solve_eq _ limit (fun hb => ?_) w
  exact State.divisible_initial (mt (ExactArithmetic.same_iff (Vec.norm b) 0).mpr hb)

end ConjugateGradient

/-! ### The biconjugate gradient method -/

namespace BiconjugateGradient

variable {s s' : State α} {threshold : α} {iteration : Word} {q qShadow : Array α}

theorem State.guardedAdvance_eq (h : s.rho ≠ 0) :
    s.guardedAdvance threshold iteration q qShadow = .ok (s.advance threshold iteration q qShadow) := by
  by_cases hcurvature : Vec.dot s.pShadow q = 0
  · simp only [guardedAdvance, advance, (ExactArithmetic.same_iff _ _).mpr hcurvature]
    rfl
  · simp only [guardedAdvance, advance, guardedDiv_eq _ hcurvature, guardedDiv_eq _ h, bind, Except.bind]
    split
    · rfl
    · split
      · rfl
      · split <;> rfl

omit [ExactArithmetic α] in
/-- An iteration that is not the last one has tested the number that the next one divides by. -/
theorem State.Advanced.rho_ne_zero (h : s.Advanced threshold iteration q qShadow (.next s')) : s'.rho ≠ 0 := by
  cases h with
  | next hcurvature hlarge hrho => exact hrho

theorem unstopped (op : Operator σ α) (threshold : α) :
    (guardedTurn op threshold).Unstopped (turn op threshold) fun s => s.rho ≠ 0 where
  eq iteration s w hs := by
    rw [guardedTurn, turn]
    obtain ⟨product, w⟩ := op.apply s.p w
    cases product with
    | error e => rfl
    | ok q =>
      dsimp only
      obtain ⟨productShadow, w⟩ := op.applyTransposed s.pShadow w
      cases productShadow with
      | error e => rfl
      | ok qShadow => exact congrArg (Except.map fun outcome => (outcome, w)) (State.guardedAdvance_eq hs)
  next iteration s w s' w' _ hturn := by
    obtain ⟨e, -, he⟩ | ⟨q, w₁, -, ⟨e, -, he⟩ | ⟨qShadow, -, hadvance⟩⟩ := cases_of_turn hturn
    · cases he
    · cases he
    · exact (hadvance ▸ s.advanced threshold iteration q qShadow).rho_ne_zero

theorem guardedSolve_eq [IsStrictOrderedRing α] (op : Operator σ α) (b : Array α) (tolerance : α)
    (limit : Word) (w : σ) : guardedSolve op b tolerance limit w = .ok (solve op b tolerance limit w) := by
  refine (unstopped op _).solve_eq _ limit (fun hb hzero => hb ((ExactArithmetic.same_iff _ _).mpr ?_)) w
  exact (Vec.norm_eq_zero_iff b).mpr ((Vec.dot_self_eq_zero_iff b).mp hzero)

end BiconjugateGradient

/-! ### Both methods -/

/-- With exact arithmetic no iteration of either method divides by zero: on a machine that stops where it would,
a solve runs as it does on one that does not stop. That holds whatever the products come to, so for every
matrix, storage and split of the rows, and for every right-hand side, tolerance and limit. -/
theorem solves_without_zero_divisor [IsStrictOrderedRing α] (op : Operator σ α) (b : Array α) (tolerance : α)
    (limit : Word) (w : σ) :
    ConjugateGradient.guardedSolve op b tolerance limit w =
        .ok (ConjugateGradient.solve op b tolerance limit w) ∧
      BiconjugateGradient.guardedSolve op b tolerance limit w =
        .ok (BiconjugateGradient.solve op b tolerance limit w) :=
  ⟨ConjugateGradient.guardedSolve_eq op b tolerance limit w,
    BiconjugateGradient.guardedSolve_eq op b tolerance limit w⟩

/-! ### A tolerance that cannot be met -/

theorem doubling_product {x ax : Array ℝ} (h : doubling.product x = .ok ax) : ax = #[2 * x.getD 0 0] := by
  obtain ⟨-, -, hax, hentries⟩ := Matrix.product_eq_ok_iff.mp h
  have hcols : doubling.cols.toNat = 1 := rfl
  have hstored : doubling.storedAt 0 0 = [.real 2] := rfl
  have hentry := hentries 0 (by decide)
  rw [hcols, Finset.sum_range_one] at hentry
  refine Vec.ext hax fun i hi => ?_
  obtain rfl : i = 0 := by
    rw [hax] at hi
    exact Nat.lt_one_iff.mp hi
  simpa [Matrix.coefficient, hstored, Element.re] using hentry

theorem doubling_apply (split : RowSplit) {pool : Pool RowRange} (hpool : pool.Accepting) (v : ℝ) :
    ∃ pool', (split.operator doubling).apply #[v] pool = (.ok #[2 * v], pool') ∧ pool'.Accepting := by
  have hop := split.operator_computes (a := doubling) rfl (by decide)
  obtain ⟨ap, pool', hproduct, haccepting⟩ :=
    (split.operator_answers (a := doubling) rfl).apply (x := #[v]) hpool rfl
  obtain rfl := doubling_product (hop.apply rfl hproduct)
  exact ⟨pool', hproduct, haccepting⟩

theorem norm_four : Vec.norm (#[4] : Array ℝ) = 4 := by
  have hdot : Vec.dot (#[4] : Array ℝ) #[4] = 4 ^ 2 := by norm_num [Vec.dot]
  rw [Vec.norm, hdot]
  exact Real.sqrt_sq (by norm_num)

namespace ConjugateGradient

/-- The first iteration leaves nothing, and goes on nevertheless. -/
theorem advance_four (iteration : Word) :
    (State.initial (#[4] : Array ℝ)).advance (-1 * Vec.norm #[4]) iteration #[8] =
      .next ⟨#[2], #[0], #[0], 0⟩ := by
  have hcurvature : Vec.dot (#[4] : Array ℝ) #[8] = 32 := by norm_num [Vec.dot]
  have hlength : Vec.dot (#[4] : Array ℝ) #[4] = 16 := by norm_num [Vec.dot]
  have hmoved : Vec.addScaled (16 / 32) (#[4] : Array ℝ) (Vec.zeros 1) = #[2] := by
    norm_num [Vec.addScaled, Vec.zeros]
  have hresidual : Vec.addScaled (-(16 / 32)) (#[8] : Array ℝ) #[4] = #[0] := by norm_num [Vec.addScaled]
  have hzero : Vec.dot (#[0] : Array ℝ) #[0] = 0 := by norm_num [Vec.dot]
  have hdirection : Vec.scaleAdd (#[0] : Array ℝ) 0 #[4] = #[0] := by norm_num [Vec.scaleAdd]
  have hpositive : ¬(32 : ℝ) ≤ 0 := by norm_num
  have hthreshold : ¬(4 : ℝ) ≤ 0 := by norm_num
  simp [State.advance, State.initial, norm_four, hcurvature, hlength, hmoved, hresidual, hzero, hdirection,
    hpositive, hthreshold, Numeric.le, Numeric.isFinite, Numeric.sqrt]

/-- The second iteration breaks down before it divides by the length of what the first one has left. -/
theorem solve_four {split : RowSplit} {pool : Pool RowRange} (hpool : pool.Accepting) :
    (solve (split.operator doubling) #[4] (-1) 7 pool).1 = .error (.breakdown 2 "p.Ap") := by
  obtain ⟨pool₁, hfirst, hpool₁⟩ := doubling_apply split hpool 4
  obtain ⟨pool₂, hsecond, -⟩ := doubling_apply split hpool₁ 0
  norm_num at hfirst hsecond
  have hturn : turn (split.operator doubling) (-1 * Vec.norm #[4]) 1 (.initial #[4]) pool =
      (.next ⟨#[2], #[0], #[0], 0⟩, pool₁) := by
    have hproduct : (split.operator doubling).apply (State.initial #[4]).p pool = (.ok #[8], pool₁) := hfirst
    simp only [turn, hproduct, advance_four]
  have hlast : turn (split.operator doubling) (-1 * Vec.norm #[4]) 2 ⟨#[2], #[0], #[0], 0⟩ pool₁ =
      (.done (.error (.breakdown 2 "p.Ap")), pool₂) := by
    have hflat : Vec.dot (#[0] : Array ℝ) #[0] = 0 := by norm_num [Vec.dot]
    simp [turn, hsecond, State.advance, hflat, Numeric.le]
  have hnorm : Vec.norm (#[4] : Array ℝ) ≠ 0 := by
    rw [norm_four]
    norm_num
  rw [solve, (Turn.Reached.start.next hturn).solve_of_done hnorm (show 1 < (7 : Word).toNat by decide) hlast]

end ConjugateGradient

/-- The residual is zero after one iteration, which a negative tolerance does not accept. -/
theorem solves_without_zero_divisor_negativeTolerance :
    (Pool.ofWorkers 3 : Pool RowRange).Accepting ∧
      ∃ pool, ConjugateGradient.guardedSolve ((RowSplit.ofRows 1 .inTurn).operator doubling) #[4] (-1) 7
        (.ofWorkers 3) = .ok (.error (.breakdown 2 "p.Ap"), pool) := by
  have hpool : (Pool.ofWorkers 3 : Pool RowRange).Accepting := Pool.accepting_ofWorkers (by decide)
  obtain ⟨hguarded, -⟩ := solves_without_zero_divisor ((RowSplit.ofRows 1 .inTurn).operator doubling)
    (#[4] : Array ℝ) (-1) 7 (.ofWorkers 3)
  exact ⟨hpool, _, hguarded.trans (congrArg Except.ok (Prod.ext (ConjugateGradient.solve_four hpool) rfl))⟩

end AccelKrylov
