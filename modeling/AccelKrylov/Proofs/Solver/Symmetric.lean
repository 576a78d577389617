import AccelKrylov.Proofs.Solver.BiconjugateGradient
import AccelKrylov.Proofs.Solver.Termination

/-! Both methods on one symmetric system, in exact arithmetic. Every shadow of the biconjugate gradient
method is then the vector that it shadows, and what is left are the states of the conjugate gradient method:
the two go through them in step and come to the same end, except where the curvature is negative and only one
of them breaks down. -/

namespace AccelKrylov

variable {σ σ' α : Type}

/-! ### Products of a symmetric matrix -/

/-- Whenever one operator comes to a product with a vector of `n` entries, the other one comes to the same
vector, both by its matrix and by the transposed one; related states lead to related states. -/
def Operator.Mirrors (op : Operator σ α) (op' : Operator σ' α) (n : Nat) (related : σ → σ' → Prop) : Prop :=
  ∀ {x y : Array α} {w w₁ : σ} {w' : σ'}, x.size = n → related w w' → op.apply x w = (.ok y, w₁) →
    ∃ v v', op'.apply x w' = (.ok y, v) ∧ op'.applyTransposed x v = (.ok y, v') ∧ related w₁ v'

/-- The products of the matrix with a vector are those of the transposed matrix. -/
def Matrix.IsSymmetric [Zero α] [Add α] [Mul α] (a : Matrix α) : Prop :=
  ∀ x y, a.product x = .ok y ↔ a.transposeProduct x = .ok y

/-- Coefficients that are equal across the diagonal make a matrix symmetric. -/
theorem Matrix.isSymmetric_of_coefficient [Semiring α] {a : Matrix α} (hsquare : a.rows = a.cols)
    (h : ∀ i < a.cols.toNat, ∀ j < a.cols.toNat, a.coefficient i j = a.coefficient j i) :
    a.IsSymmetric := by
  intro x y
  have hsum (i : Nat) (hi : i < a.cols.toNat) :
      ∑ j ∈ Finset.range a.cols.toNat, a.coefficient i j * x.getD j 0 =
        ∑ j ∈ Finset.range a.cols.toNat, a.coefficient j i * x.getD j 0 :=
    Finset.sum_congr rfl fun j hj => by rw [h i hi j (Finset.mem_range.mp hj)]
  rw [Matrix.product_eq_ok_iff, Matrix.transposeProduct_eq_ok_iff, hsquare]
  refine and_congr_right fun _ => and_congr_right fun _ => and_congr_right fun _ => ?_
  exact forall₂_congr fun i hi => by rw [hsum i hi]

namespace RowSplit

theorem accepting_of_spawnAll {ranges : List RowRange} (hne : ranges ≠ []) {pool : Pool RowRange}
    (h : (spawnAll ranges pool).1 = .ok ()) : pool.Accepting := by
  cases ranges with
  | nil => exact absurd rfl hne
  | cons range ranges =>
    rw [spawnAll] at h
    split at h
    next pool' id hspawn => exact Pool.accepting_of_spawn hspawn
    next => cases h

section
variable {s : RowSplit} {rows : Word} {part : RowRange → Except ProductError (Array α)}
  {assemble : List (RowRange × Array α) → Array α} {pool : Pool RowRange}

/-- A product that has rows to compute comes to a result only in a pool that takes work. -/
theorem accepting_of_run_eq_ok {y : Array α} (hrows : rows ≠ 0)
    (h : (s.run rows part assemble pool).1 = .ok y) : pool.Accepting := by
  have hne : chunks rows s.chunkRows ≠ [] := mt (chunks_eq_nil_iff s.chunkRows_ne_zero).mp hrows
  dsimp only [run] at h
  split at h
  · cases h
  next hqueued => exact accepting_of_spawnAll hne hqueued

theorem size_of_product_eq_ok [Zero α] [Add α] [Mul α] {a : Matrix α} {x y : Array α} (hrows : a.rows ≠ 0)
    (h : (s.product a x pool).1 = .ok y) : x.size = a.cols.toNat := by
  obtain ⟨parts, -, hperm, hok⟩ := of_run_eq_ok h
  have hne : parts ≠ [] := by
    rintro rfl
    exact hrows ((chunks_eq_nil_iff s.chunkRows_ne_zero).mp (List.nil_perm.mp hperm))
  obtain ⟨p, hp⟩ := List.exists_mem_of_ne_nil parts hne
  exact (Matrix.productRows_eq_ok.mp (hok p hp)).2.1

end

/-- Two pools for the products of one symmetric matrix, of which the second takes work if the first does. -/
theorem operator_mirrors [Semiring α] (split split' : RowSplit) {a : Matrix α} (hreal : a.kind = .real)
    (hsquare : a.rows = a.cols) (hsymmetric : a.IsSymmetric) {n : Nat} (hn : n < 2 ^ 63) :
    (split.operator a).Mirrors (split'.operator a) n fun pool pool' =>
      pool.Accepting → pool'.Accepting := by
  intro x y pool pool₁ pool' hx hrelated hproduct
  have hvalue : (split.product a x pool).1 = .ok y := congrArg Prod.fst hproduct
  by_cases hrows : a.rows = 0
  · have hzeros : (Vec.zeros a.cols.toNat : Array α) = Vec.zeros a.rows.toNat := by rw [hsquare]
    have hempty (s : RowSplit) (p : Pool RowRange) : ∃ p', (p'.Accepting ↔ p.Accepting) ∧
        s.product a x p = (.ok (Vec.zeros a.rows.toNat), p') ∧
        s.transposeProduct a x p = (.ok (Vec.zeros a.rows.toNat), p') :=
      ⟨_, s.accepting_afterResults_iff _ _, run_of_no_rows hrows, hzeros ▸ run_of_no_rows hrows⟩
    obtain ⟨q, hq, hfirst, -⟩ := hempty split pool
    obtain ⟨q', hq', hsecond, -⟩ := hempty split' pool'
    obtain ⟨q'', hq'', -, hshadow⟩ := hempty split' q'
    obtain ⟨hy, rfl⟩ := Prod.mk.inj (hfirst.symm.trans hproduct)
    obtain rfl := Except.ok.inj hy
    exact ⟨_, _, hsecond, hshadow, fun hp => hq''.mpr (hq'.mpr (hrelated (hq.mp hp)))⟩
  · have hpool := accepting_of_run_eq_ok hrows hvalue
    have hcols := size_of_product_eq_ok hrows hvalue
    have hsize : x.size = a.rows.toNat := by rw [hsquare, hcols]
    have hmemory : a.rows.toNat < 2 ^ 63 := by omega
    have hop := split'.operator_computes hreal hmemory
    have hanswers := split'.operator_answers hreal
    have hy := of_product_eq_ok hreal hmemory hcols hvalue
    have hyShadow := (hsymmetric x y).mp hy
    obtain ⟨q, v, hq, hv⟩ := hanswers.apply (hrelated hpool) hcols
    obtain ⟨q', v', hq', hv'⟩ := hanswers.applyTransposed hv hsize
    obtain rfl := Except.ok.inj ((hop.apply hcols hq).symm.trans hy)
    obtain rfl := Except.ok.inj ((hop.applyTransposed hsize hq').symm.trans hyShadow)
    exact ⟨v, v', hq, hq', fun _ => hv'⟩

end RowSplit

/-! ### States in step -/

namespace ConjugateGradient

section
variable [Zero α] [Add α] [Mul α] [Numeric α]

/-- The state of the biconjugate gradient method in which every vector is its own shadow. -/
def State.doubled (s : State α) : BiconjugateGradient.State α :=
  ⟨s.x, s.r, s.r, s.p, s.p, s.rr, Numeric.sqrt s.rr⟩

end

variable [Field α] [LinearOrder α] [Numeric α] [ExactArithmetic α]

namespace State

variable {s s' : State α} {threshold : α} {iteration : Word} {ap : Array α}

/-- Where there is no curvature, both methods break down. -/
theorem advance_flat (threshold : α) (iteration : Word) (hflat : Vec.dot s.p ap = 0) :
    s.advance threshold iteration ap = .done (.error (.breakdown iteration "p.Ap")) ∧
      s.doubled.advance threshold iteration ap ap = .done (.error (.breakdown iteration "p~.Ap")) := by
  constructor
  · have hle : Numeric.le (Vec.dot s.p ap) 0 = true := (ExactArithmetic.le_iff _ _).mpr hflat.le
    simp [advance, hle]
  · have hsame : Numeric.same (Vec.dot s.p ap) 0 = true := (ExactArithmetic.same_iff _ _).mpr hflat
    simp [BiconjugateGradient.State.advance, doubled, hsame]

/-- Both methods take an iteration to the same solution. -/
theorem Advanced.doubled_ok {solution : Solution α}
    (h : s.Advanced threshold iteration ap (.done (.ok solution))) :
    s.doubled.advance threshold iteration ap ap = .done (.ok solution) := by
  cases h with
  | converged hcurvature hsmall =>
    have hadvanced := s.doubled.advanced threshold iteration ap ap
    generalize s.doubled.advance threshold iteration ap ap = outcome at hadvanced ⊢
    cases hadvanced with
    | converged => rfl
    | flat hflat => exact absurd hflat hcurvature.ne'
    | orthogonal _ hlarge => exact absurd hsmall (not_le.mpr hlarge)
    | next _ hlarge => exact absurd hsmall (not_le.mpr hlarge)

/-- Both methods take an iteration to the same next state: a residual longer than the threshold is not
orthogonal to itself. -/
theorem Advanced.doubled_next [IsStrictOrderedRing α] (hthreshold : 0 ≤ threshold)
    (h : s.Advanced threshold iteration ap (.next s')) :
    s.doubled.advance threshold iteration ap ap = .next s'.doubled := by
  cases h with
  | next hcurvature hlarge =>
    have hlong : s.doubled.movedRho ap ap ≠ 0 := by
      intro hzero
      have hsquare : Vec.norm (s.movedResidual ap) * Vec.norm (s.movedResidual ap) = 0 :=
        (Vec.norm_mul_norm _).trans hzero
      rw [mul_self_eq_zero] at hsquare
      exact absurd (hsquare ▸ hlarge) (not_lt.mpr hthreshold)
    have hadvanced := s.doubled.advanced threshold iteration ap ap
    generalize s.doubled.advance threshold iteration ap ap = outcome at hadvanced ⊢
    cases hadvanced with
    | next => rfl
    | flat hflat => exact absurd hflat hcurvature.ne'
    | converged _ hsmall => exact absurd hsmall (not_le.mpr hlarge)
    | orthogonal _ _ hzero => exact absurd hzero hlong

end State

/-! ### Runs in step -/

section
variable {op : Operator σ α} {op' : Operator σ' α} {related : σ → σ' → Prop} {b : Array α} {tolerance : α}
  {s s' : State α} {w w₁ : σ} {w' : σ'}

omit [LinearOrder α] [ExactArithmetic α] in
/-- Where one method advances from its products, the other one advances from the same ones. -/
theorem turn_mirrored {n : Nat} (hop : op.Mirrors op' n related) (hp : s.p.size = n)
    (hrelated : related w w') {ap : Array α} (hproduct : op.apply s.p w = (.ok ap, w₁)) (threshold : α)
    (iteration : Word) : ∃ w'', related w₁ w'' ∧
      BiconjugateGradient.turn op' threshold iteration s.doubled w' =
        (s.doubled.advance threshold iteration ap ap, w'') := by
  obtain ⟨v, v', hq, hq', hlast⟩ := hop hp hrelated hproduct
  have hq : op'.apply s.doubled.p w' = (.ok ap, v) := hq
  have hq' : op'.applyTransposed s.doubled.pShadow v = (.ok ap, v') := hq'
  refine ⟨v', hlast, ?_⟩
  simp only [BiconjugateGradient.turn, hq, hq']

/-- Every state of a run of the conjugate gradient method has its double in a run of the other one. -/
theorem reached_doubled [IsStrictOrderedRing α] (hop : op.Mirrors op' b.size related)
    (htolerance : 0 ≤ tolerance) {w₀ : σ} {w₀' : σ'} (hstart : related w₀ w₀') {k : Nat}
    (h : Reached op b tolerance w₀ k s w) : s.p.size = b.size ∧ ∃ w', related w w' ∧
      BiconjugateGradient.Reached op' b tolerance w₀' k s.doubled w' := by
  have hthreshold : 0 ≤ tolerance * Vec.norm b := mul_nonneg htolerance (ExactArithmetic.sqrt_nonneg _)
  induction h with
  | start => exact ⟨rfl, w₀', hstart, .start⟩
  | @next k s s' w w₁ before turned ih =>
    obtain ⟨hp, w', hrelated, hreached⟩ := ih
    obtain ⟨e, -, he⟩ | ⟨ap, hproduct, hadvance⟩ := cases_of_turn turned
    · cases he
    · obtain ⟨w'', hlast, hturn⟩ :=
        turn_mirrored hop hp hrelated hproduct (tolerance * Vec.norm b) (UInt64.ofNat (k + 1))
      have hadvanced := s.advanced (tolerance * Vec.norm b) (UInt64.ofNat (k + 1)) ap
      rw [hadvance] at hadvanced
      rw [hadvanced.doubled_next hthreshold] at hturn
      refine ⟨?_, w'', hlast, hreached.next hturn⟩
      cases hadvanced with
      | next => rw [Vec.size_scaleAdd, hp]

end

/-! ### Results in step -/

section
variable [IsStrictOrderedRing α] {op : Operator σ α} {op' : Operator σ' α} {related : σ → σ' → Prop}
  {b : Array α} {tolerance : α} {w₀ : σ} {w₀' : σ'} {limit : Word}

theorem solve_doubled_ok (hop : op.Mirrors op' b.size related) (htolerance : 0 ≤ tolerance)
    (hstart : related w₀ w₀') {solution : Solution α}
    (h : (solve op b tolerance limit w₀).1 = .ok solution) :
    (BiconjugateGradient.solve op' b tolerance limit w₀').1 = .ok solution := by
  obtain ⟨result, w, hresult⟩ : ∃ result w, solve op b tolerance limit w₀ = (result, w) := ⟨_, _, rfl⟩
  rw [hresult] at h
  obtain rfl : result = .ok solution := h
  by_cases hb : Vec.norm b = 0
  · have hsame : Numeric.same (Vec.norm b) 0 = true := (ExactArithmetic.same_iff _ _).mpr hb
    rw [solve, Turn.solve, if_pos hsame] at hresult
    rw [BiconjugateGradient.solve, Turn.solve, if_pos hsame, congrArg Prod.fst hresult]
  obtain ⟨hzero, -⟩ | ⟨k, s, w, hreached, ⟨hk, hturn⟩ | ⟨-, -, hexhausted⟩⟩ := Turn.solve_end hresult
  · exact absurd ((Vec.norm_eq_zero_iff b).mpr hzero) hb
  · obtain ⟨e, -, he⟩ | ⟨ap, hproduct, hadvance⟩ := cases_of_turn hturn
    · cases he
    · have hadvanced := hadvance ▸ s.advanced (tolerance * Vec.norm b) (UInt64.ofNat (k + 1)) ap
      obtain ⟨hp, w', hrelated, hreached'⟩ := reached_doubled hop htolerance hstart hreached
      obtain ⟨w'', -, hturn'⟩ :=
        turn_mirrored hop hp hrelated hproduct (tolerance * Vec.norm b) (UInt64.ofNat (k + 1))
      rw [hadvanced.doubled_ok] at hturn'
      rw [BiconjugateGradient.solve, hreached'.solve_of_done hb hk hturn']
  · cases hexhausted

theorem solve_doubled_nonConvergence (hop : op.Mirrors op' b.size related) (htolerance : 0 ≤ tolerance)
    (hstart : related w₀ w₀')
    (hfault : ∀ x w e w₁, op.apply x w = (.error e, w₁) → ∃ fault, e = .offload fault)
    {iterations : Word} {residual : α}
    (h : (solve op b tolerance limit w₀).1 = .error (.nonConvergence iterations residual)) :
    (BiconjugateGradient.solve op' b tolerance limit w₀').1 =
      .error (.nonConvergence iterations residual) := by
  obtain ⟨result, w, hresult⟩ : ∃ result w, solve op b tolerance limit w₀ = (result, w) := ⟨_, _, rfl⟩
  rw [hresult] at h
  obtain rfl : result = .error (.nonConvergence iterations residual) := h
  obtain ⟨-, hzero⟩ | ⟨k, s, w, hreached, ⟨-, hturn⟩ | ⟨rfl, -, hexhausted⟩⟩ := Turn.solve_end hresult
  · cases hzero
  · obtain ⟨e, hproduct, he⟩ | ⟨ap, -, hadvance⟩ := cases_of_turn hturn
    · obtain ⟨fault, rfl⟩ := hfault _ _ _ _ hproduct
      cases he
    · obtain ⟨quantity, hdone⟩ | ⟨x, -, ⟨r, -, hdone⟩ | ⟨s', -, -, hdone⟩⟩ :=
        State.cases_of_advance hadvance
      all_goals cases hdone
  · have hb : Vec.norm b ≠ 0 := by
      intro hb
      have hsame : Numeric.same (Vec.norm b) 0 = true := (ExactArithmetic.same_iff _ _).mpr hb
      rw [solve, Turn.solve, if_pos hsame] at hresult
      cases hresult
    obtain ⟨-, w', -, hreached'⟩ := reached_doubled hop htolerance hstart hreached
    rw [BiconjugateGradient.solve, hreached'.solve_of_exhausted hb, hexhausted]
    rfl

/-- A run that comes to a state without curvature ends there, and so does its double. -/
theorem solve_doubled_flat (hop : op.Mirrors op' b.size related) (htolerance : 0 ≤ tolerance)
    (hstart : related w₀ w₀') {k : Nat} {s : State α} {w w₁ : σ} {ap : Array α} (hb : Vec.norm b ≠ 0)
    (hk : k < limit.toNat) (hreached : Reached op b tolerance w₀ k s w)
    (hproduct : op.apply s.p w = (.ok ap, w₁)) (hflat : Vec.dot s.p ap = 0) :
    (solve op b tolerance limit w₀).1 = .error (.breakdown (UInt64.ofNat (k + 1)) "p.Ap") ∧
      (BiconjugateGradient.solve op' b tolerance limit w₀').1 =
        .error (.breakdown (UInt64.ofNat (k + 1)) "p~.Ap") := by
  obtain ⟨hadvance, hadvance'⟩ :=
    State.advance_flat (tolerance * Vec.norm b) (UInt64.ofNat (k + 1)) hflat
  obtain ⟨hp, w', hrelated, hreached'⟩ := reached_doubled hop htolerance hstart hreached
  obtain ⟨w'', -, hturn'⟩ :=
    turn_mirrored hop hp hrelated hproduct (tolerance * Vec.norm b) (UInt64.ofNat (k + 1))
  have hturn : turn op (tolerance * Vec.norm b) (UInt64.ofNat (k + 1)) s w =
      (.done (.error (.breakdown (UInt64.ofNat (k + 1)) "p.Ap")), w₁) := by
    simp only [turn, hproduct, hadvance]
  rw [hadvance'] at hturn'
  constructor
  · rw [solve, hreached.solve_of_done hb hk hturn]
  · rw [BiconjugateGradient.solve, hreached'.solve_of_done hb hk hturn']

end

end ConjugateGradient

/-- On a symmetric system, with exact arithmetic, both methods find the same solution after the same number of
iterations with the same residual, or give up with the same residual; and where the conjugate gradient method
breaks down because there is no curvature at all, so does the other one, in the same iteration. That holds
whatever the storage of the matrix, the split of its rows and the order in which parts of products arrive, in
one pool or in two of which the second takes work if the first does. No vector in memory is as long as the
bound on the right-hand side. -/
theorem methods_agree [Field α] [LinearOrder α] [IsStrictOrderedRing α] [Numeric α] [ExactArithmetic α]
    (split split' : RowSplit) (a : Matrix α) (b : Array α) (tolerance : α) (limit : Word)
    (pool pool' : Pool RowRange) (hreal : a.kind = .real) (hsquare : a.isSquare = true)
    (hsymmetric : a.IsSymmetric) (hmemory : b.size < 2 ^ 63) (htolerance : 0 ≤ tolerance)
    (hpool : pool.Accepting → pool'.Accepting) :
    (∀ solution, (ConjugateGradient.solve (split.operator a) b tolerance limit pool).1 = .ok solution →
      (BiconjugateGradient.solve (split'.operator a) b tolerance limit pool').1 = .ok solution) ∧
    (∀ iterations residual, (ConjugateGradient.solve (split.operator a) b tolerance limit pool).1 =
        .error (.nonConvergence iterations residual) →
      (BiconjugateGradient.solve (split'.operator a) b tolerance limit pool').1 =
        .error (.nonConvergence iterations residual)) ∧
    ∀ k s w ap w₁, Vec.norm b ≠ 0 → k < limit.toNat →
      ConjugateGradient.Reached (split.operator a) b tolerance pool k s w →
      (split.operator a).apply s.p w = (.ok ap, w₁) → Vec.dot s.p ap = 0 →
      (ConjugateGradient.solve (split.operator a) b tolerance limit pool).1 =
          .error (.breakdown (UInt64.ofNat (k + 1)) "p.Ap") ∧
        (BiconjugateGradient.solve (split'.operator a) b tolerance limit pool').1 =
          .error (.breakdown (UInt64.ofNat (k + 1)) "p~.Ap") := by
  have hop : (split.operator a).Mirrors (split'.operator a) b.size
      fun pool pool' => pool.Accepting → pool'.Accepting :=
    RowSplit.operator_mirrors split split' hreal (eq_of_beq hsquare) hsymmetric hmemory
  refine ⟨fun solution h => ?_, fun iterations residual h => ?_,
    fun k s w ap w₁ hb hk hreached hproduct hflat => ?_⟩
  · exact ConjugateGradient.solve_doubled_ok hop htolerance hpool h
  · refine ConjugateGradient.solve_doubled_nonConvergence hop htolerance hpool ?_ h
    exact fun x w e w₁ hproduct => RowSplit.of_run_eq_error (congrArg Prod.fst hproduct)
  · exact ConjugateGradient.solve_doubled_flat hop htolerance hpool hb hk hreached hproduct hflat

/-! ### A symmetric system -/

namespace ConjugateGradient

theorem isSymmetric_coupled : coupled.IsSymmetric := by
  refine Matrix.isSymmetric_of_coefficient rfl fun i hi j hj => ?_
  have hi : i < 2 := hi
  have hj : j < 2 := hj
  have hacross : coupled.storedAt 0 1 = coupled.storedAt 1 0 := rfl
  obtain rfl | rfl : i = 0 ∨ i = 1 := by omega
  all_goals obtain rfl | rfl : j = 0 ∨ j = 1 := by omega
  all_goals simp [Matrix.coefficient, hacross]

theorem norm_threes : Vec.norm (#[3, 3] : Array ℝ) ≠ 0 := by
  have hdot : Vec.dot (#[3, 3] : Array ℝ) #[3, 3] = 18 := by norm_num [Vec.dot]
  rw [Vec.norm, hdot]
  exact (Real.sqrt_pos.mpr (by norm_num)).ne'

theorem advance_threes (iteration : Word) :
    (State.initial (#[3, 3] : Array ℝ)).advance (0 * Vec.norm #[3, 3]) iteration #[18, 18] =
      .done (.ok ⟨#[1 / 2, 1 / 2], iteration, 0⟩) := by
  have hcurvature : Vec.dot (#[3, 3] : Array ℝ) #[18, 18] = 108 := by norm_num [Vec.dot]
  have hlength : Vec.dot (#[3, 3] : Array ℝ) #[3, 3] = 18 := by norm_num [Vec.dot]
  have hresidual : Vec.addScaled (-(18 / 108)) (#[18, 18] : Array ℝ) #[3, 3] = #[0, 0] := by
    norm_num [Vec.addScaled]
  have hzeros : (Vec.zeros 2 : Array ℝ) = #[0, 0] := rfl
  have hmoved : Vec.addScaled (18 / 108) (#[3, 3] : Array ℝ) (Vec.zeros 2) = #[1 / 2, 1 / 2] := by
    rw [hzeros]
    norm_num [Vec.addScaled]
  have hzero : Vec.dot (#[0, 0] : Array ℝ) #[0, 0] = 0 := by norm_num [Vec.dot]
  simp [State.advance, State.initial, hcurvature, hlength, hresidual, hmoved, hzero, Numeric.le,
    Numeric.isFinite, Numeric.sqrt]

/-- A right-hand side along an axis of the matrix takes one iteration. -/
theorem solve_threes {split : RowSplit} {pool : Pool RowRange} (hpool : pool.Accepting) :
    (solve (split.operator coupled) #[3, 3] 0 1 pool).1 = .ok ⟨#[1 / 2, 1 / 2], 1, 0⟩ := by
  have hop := split.operator_computes (a := coupled) rfl (by decide)
  obtain ⟨ap, pool', hproduct, -⟩ :=
    (split.operator_answers (a := coupled) rfl).apply (x := #[3, 3]) hpool rfl
  obtain ⟨-, hsize, hfirst, hsecond⟩ := coupled_product (hop.apply rfl hproduct)
  have hap : ap = #[18, 18] := by
    refine Vec.ext hsize fun i hi => ?_
    obtain rfl | rfl : i = 0 ∨ i = 1 := by omega
    · exact hfirst.trans (by norm_num)
    · exact hsecond.trans (by norm_num)
  have hturn : turn (split.operator coupled) (0 * Vec.norm #[3, 3]) 1 (.initial #[3, 3]) pool =
      (.done (.ok ⟨#[1 / 2, 1 / 2], 1, 0⟩), pool') := by
    have hproduct : (split.operator coupled).apply (State.initial #[3, 3]).p pool = (.ok ap, pool') :=
      hproduct
    simp only [turn, hproduct, hap, advance_threes]
  have hlimit : 0 < (1 : Word).toNat := by decide
  rw [solve, Turn.Reached.start.solve_of_done norm_threes hlimit hturn]

end ConjugateGradient

open ConjugateGradient in
theorem methods_agree_coupled :
    coupled.kind = .real ∧ coupled.isSquare = true ∧ coupled.IsSymmetric ∧
      (#[3, 3] : Array ℝ).size < 2 ^ 63 ∧ (0 : ℝ) ≤ 0 ∧
      ((Pool.ofWorkers 3 : Pool RowRange).Accepting → (Pool.ofWorkers 2 : Pool RowRange).Accepting) ∧
      (BiconjugateGradient.solve ((RowSplit.ofRows 2 .inTurn).operator coupled) #[3, 3] 0 1
        (.ofWorkers 2)).1 = .ok ⟨#[1 / 2, 1 / 2], 1, 0⟩ := by
  have hpool : (Pool.ofWorkers 3 : Pool RowRange).Accepting := Pool.accepting_ofWorkers (by decide)
  have hpool' : (Pool.ofWorkers 2 : Pool RowRange).Accepting := Pool.accepting_ofWorkers (by decide)
  obtain ⟨hok, -, -⟩ := methods_agree (.ofRows 1 .inTurn) (.ofRows 2 .inTurn) coupled #[3, 3] 0 1
    (.ofWorkers 3) (.ofWorkers 2) rfl rfl isSymmetric_coupled (by decide) le_rfl fun _ => hpool'
  exact ⟨rfl, rfl, isSymmetric_coupled, by decide, le_rfl, fun _ => hpool', hok _ (solve_threes hpool)⟩

end AccelKrylov
