import AccelKrylov.Proofs.Solver.ConjugateGradient
import AccelKrylov.Proofs.Solver.SearchSpace

/-! The conjugate gradient method on symmetric positive definite systems, in exact arithmetic. Every iteration
that does not come to a solution is a step of the search, so there are no more of them than unknowns. -/

namespace AccelKrylov.ConjugateGradient

variable {σ α : Type} [Field α] {a : Matrix α} {b : Array α} {n k : Nat}

/-! ### States as steps of the search -/

namespace State

/-- The search for a system of `n` unknowns has taken at least `k` directions when it comes to the state. -/
def Searched (a : Matrix α) (n k : Nat) (s : State α) : Prop :=
  ∃ V, SearchSpace (a.linear n) V (Vec.entries n s.r) (Vec.entries n s.p) ∧ k ≤ Module.finrank α V

variable {s s' : State α} {ap : Array α}

theorem searched_initial (hb : b.size = n) (hne : b ≠ Vec.zeros b.size) :
    (initial b).Searched a n 0 := by
  refine ⟨⊥, SearchSpace.first fun hzero => hne ?_, Nat.zero_le _⟩
  exact (Vec.entries_eq_zero_iff hb).mp hzero

theorem Sound.sizes (hsystem : a.IsSystem b) (hb : b.size = n) (h : s.Sound a b)
    (hap : a.product s.p = .ok ap) : s.p.size = n ∧ s.r.size = n ∧ ap.size = n := by
  have hcols : a.cols.toNat = n := by rw [← hsystem.square, ← hsystem.size, hb]
  have hrows : a.rows.toNat = n := hsystem.size.symm.trans hb
  obtain ⟨ax, hax, hr⟩ := Matrix.residual_eq_ok_iff.mp h.residual
  refine ⟨h.size_p.trans hcols, ?_, (Matrix.product_eq_ok_iff.mp hap).2.2.1.trans hrows⟩
  rw [hr, Array.size_zipWith, hb, (Matrix.product_eq_ok_iff.mp hax).2.2.1, hrows, Nat.min_self]

/-- What an iteration leaves is what the step leaves. -/
theorem Sound.entries_movedResidual (hsystem : a.IsSystem b) (hb : b.size = n) (h : s.Sound a b)
    (hap : a.product s.p = .ok ap) :
    Vec.entries n (s.movedResidual ap) =
      SearchSpace.residual (a.linear n) (Vec.entries n s.r) (Vec.entries n s.p) := by
  obtain ⟨hp, hr, hapsize⟩ := h.sizes hsystem hb hap
  have hcols : a.cols.toNat = n := h.size_p.symm.trans hp
  have hrows : a.rows.toNat = n := hsystem.size.symm.trans hb
  rw [movedResidual, stepLength, Vec.entries_addScaled (hapsize.trans hr.symm), h.rr,
    Vec.dot_eq_dotProduct hr hr, Vec.dot_eq_dotProduct hp hapsize, Matrix.entries_product hrows hcols hap,
    SearchSpace.residual, SearchSpace.stepLength, neg_smul, sub_eq_add_neg]

variable [LinearOrder α] [IsStrictOrderedRing α]

/-- There are directions left. -/
theorem Searched.lt (hsystem : a.IsSystem b) (hb : b.size = n) (hdefinite : a.IsPositiveDefinite)
    (h : s.Searched a n k) : k < n := by
  obtain ⟨V, hspace, hk⟩ := h
  have hA := hdefinite.linear_of_isSystem hsystem hb
  exact Nat.lt_of_le_of_lt hk (hspace.finrank_lt_dimension hA)

/-- The curvature along the direction is positive. -/
theorem Searched.curvature_pos (hsystem : a.IsSystem b) (hb : b.size = n) (hdefinite : a.IsPositiveDefinite)
    (hsound : s.Sound a b) (h : s.Searched a n k) (hap : a.product s.p = .ok ap) :
    0 < Vec.dot s.p ap := by
  obtain ⟨V, hspace, -⟩ := h
  obtain ⟨hp, -, -⟩ := hsound.sizes hsystem hb hap
  apply hdefinite.positive hap
  exact mt (Vec.entries_eq_zero_iff hp).mpr hspace.direction_ne_zero

variable [Numeric α] [ExactArithmetic α]

/-- An iteration that does not come to a result takes one direction more. -/
theorem Searched.next {threshold : α} {iteration : Word} (hsystem : a.IsSystem b) (hb : b.size = n)
    (hdefinite : a.IsPositiveDefinite) (hsound : s.Sound a b) (h : s.Searched a n k)
    (hthreshold : 0 ≤ threshold) (hap : a.product s.p = .ok ap)
    (hadvanced : s.Advanced threshold iteration ap (.next s')) : s'.Searched a n (k + 1) := by
  obtain ⟨V, hspace, hk⟩ := h
  have hA := hdefinite.linear_of_isSystem hsystem hb
  obtain ⟨hp, hr, hapsize⟩ := hsound.sizes hsystem hb hap
  have hresidual := hsound.entries_movedResidual hsystem hb hap
  have hsize : (s.movedResidual ap).size = n := by rw [movedResidual, Vec.size_addScaled, hr]
  cases hadvanced with
  | next hcurvature hlarge =>
    refine ⟨V ⊔ Submodule.span α {Vec.entries n s.p}, ?_, ?_⟩
    · have hunsolved : Vec.entries n (s.movedResidual ap) ≠ 0 := by
        intro hzero
        have hnorm := (Vec.norm_eq_zero_iff _).mpr ((Vec.entries_eq_zero_iff hsize).mp hzero)
        exact absurd hlarge (not_lt.mpr (hnorm.symm ▸ hthreshold))
      have hstep := hspace.step hA hresidual hunsolved
      dsimp only
      rwa [Vec.entries_scaleAdd (hsize.trans hp.symm), hsound.rr, Vec.dot_eq_dotProduct hsize hsize,
        Vec.dot_eq_dotProduct hr hr]
    · exact Nat.lt_of_le_of_lt hk (hspace.finrank_lt hA)

end State

/-! ### Runs -/

section
variable [LinearOrder α] [IsStrictOrderedRing α] [Numeric α] [ExactArithmetic α] {op : Operator σ α}
  {tolerance : α} {s : State α} {w₀ w : σ}

theorem searched_of_reached (hop : op.Computes a) (hsystem : a.IsSystem b) (hb : b.size = n)
    (hdefinite : a.IsPositiveDefinite) (htolerance : 0 ≤ tolerance) (hne : b ≠ Vec.zeros b.size)
    (h : Reached op b tolerance w₀ k s w) : s.Searched a n k := by
  have hthreshold : 0 ≤ tolerance * Vec.norm b := mul_nonneg htolerance (ExactArithmetic.sqrt_nonneg _)
  induction h with
  | start => exact State.searched_initial hb hne
  | next before turned ih =>
    have hsound := sound_of_reached hop hsystem before
    obtain ⟨fault, hfault⟩ | ⟨ap, hap, hadvanced⟩ := turn_cases hop hsound.size_p turned
    · cases hfault
    · exact ih.next hsystem hb hdefinite hsound hthreshold hap hadvanced

/-- A solve ends with a solution after at most as many iterations as there are unknowns, unless the products
fail. -/
theorem ended_definite (hop : op.Computes a) (hsystem : a.IsSystem b) (hdefinite : a.IsPositiveDefinite)
    (htolerance : 0 ≤ tolerance) {limit : Word} (hlimit : b.size ≤ limit.toNat) (w₀ : σ) :
    (∃ fault, (solve op b tolerance limit w₀).1 = .error (.offload fault)) ∨
      ∃ solution, (solve op b tolerance limit w₀).1 = .ok solution ∧
        solution.iterations.toNat ≤ b.size := by
  by_cases hne : b = Vec.zeros b.size
  · have hnorm : Numeric.same (Vec.norm b) 0 = true :=
      (ExactArithmetic.same_iff _ _).mpr ((Vec.norm_eq_zero_iff b).mpr hne)
    refine .inr ⟨.zero b.size, ?_, Nat.zero_le _⟩
    rw [solve, Turn.solve, if_pos hnorm]
  obtain ⟨result, hresult⟩ : ∃ result, (solve op b tolerance limit w₀).1 = result := ⟨_, rfl⟩
  have hended := ended hop hsystem tolerance limit w₀
  rw [hresult] at hended ⊢
  cases hended with
  | zero hzero => exact absurd hzero hne
  | @failed k s w w' fault hreached hturn => exact .inl ⟨fault, rfl⟩
  | @done k s w ap result hk hreached hap hadvanced =>
    have hsearched := searched_of_reached hop hsystem rfl hdefinite htolerance hne hreached
    have hsound := sound_of_reached hop hsystem hreached
    cases hadvanced with
    | breakdown hcurvature =>
      have hpositive := hsearched.curvature_pos hsystem rfl hdefinite hsound hap
      exact absurd hcurvature (not_le.mpr hpositive)
    | converged hcurvature hsmall =>
      have hlt := hsearched.lt hsystem rfl hdefinite
      refine .inr ⟨_, rfl, ?_⟩
      change (UInt64.ofNat (k + 1)).toNat ≤ b.size
      rw [UInt64.toNat_ofNat_of_lt' (show k + 1 < 2 ^ 64 by have := limit.toNat_lt; omega)]
      exact hlt
  | exhausted hreached =>
    have hsearched := searched_of_reached hop hsystem rfl hdefinite htolerance hne hreached
    have hlt := hsearched.lt hsystem rfl hdefinite
    omega

end

/-- In exact arithmetic the method neither breaks down nor gives up on a symmetric positive definite system,
if it may take as many iterations as there are unknowns: whatever the storage of the matrix and the split of
its rows, a pool that takes work leads it to a solution within that many. No vector in memory is as long as
the bound on the right-hand side. -/
theorem terminates [LinearOrder α] [IsStrictOrderedRing α] [Numeric α] [ExactArithmetic α]
    (split : RowSplit) (a : Matrix α) (b : Array α) (tolerance : α) (limit : Word) (pool : Pool RowRange)
    (hreal : a.kind = .real) (hsquare : a.isSquare = true) (hdefinite : a.IsPositiveDefinite)
    (hb : b.size = a.rows.toNat) (hmemory : b.size < 2 ^ 63) (htolerance : 0 ≤ tolerance)
    (hlimit : b.size ≤ limit.toNat) :
    (∀ iteration quantity, (solve (split.operator a) b tolerance limit pool).1 ≠
        .error (.breakdown iteration quantity)) ∧
      (∀ iterations residual, (solve (split.operator a) b tolerance limit pool).1 ≠
        .error (.nonConvergence iterations residual)) ∧
      (pool.Accepting → ∃ solution, (solve (split.operator a) b tolerance limit pool).1 = .ok solution ∧
        solution.iterations.toNat ≤ b.size) := by
  have hop := split.operator_computes hreal (hb ▸ hmemory)
  have hsystem : a.IsSystem b := ⟨hreal, eq_of_beq hsquare, hb⟩
  have hended := ended_definite hop hsystem hdefinite htolerance hlimit pool
  refine ⟨fun iteration quantity h => ?_, fun iterations residual h => ?_, fun hpool => ?_⟩
  · rw [h] at hended
    simp at hended
  · rw [h] at hended
    simp at hended
  · refine hended.resolve_left fun ⟨fault, hfault⟩ => ?_
    exact solve_ne_offload hop (split.operator_answers hreal) hsystem tolerance limit hpool fault hfault

/-- Two unknowns, each of which counts in the other's equation. -/
noncomputable def coupled : Matrix ℝ where
  rows := 2
  cols := 2
  base := 0
  kind := .real
  representation := .symmetric
  storage := .dense 2 #[5, 1, 1, 5]
  fits := by rfl

theorem coupled_product {x ax : Array ℝ} (h : coupled.product x = .ok ax) :
    x.size = 2 ∧ ax.size = 2 ∧ ax.getD 0 0 = 5 * x.getD 0 0 + x.getD 1 0 ∧
      ax.getD 1 0 = x.getD 0 0 + 5 * x.getD 1 0 := by
  obtain ⟨-, hx, hax, hentries⟩ := Matrix.product_eq_ok_iff.mp h
  have hsum (i : Nat) : ∑ j ∈ Finset.range coupled.cols.toNat, coupled.coefficient i j * x.getD j 0 =
      coupled.coefficient i 0 * x.getD 0 0 + coupled.coefficient i 1 * x.getD 1 0 := by
    rw [show coupled.cols.toNat = 2 from rfl, Finset.sum_range_succ, Finset.sum_range_one]
  have hstored : coupled.storedAt 0 0 = [.real 5] ∧ coupled.storedAt 0 1 = [.real 1] ∧
      coupled.storedAt 1 0 = [.real 1] ∧ coupled.storedAt 1 1 = [.real 5] := ⟨rfl, rfl, rfl, rfl⟩
  have hfirst := (hentries 0 (by decide)).trans (hsum 0)
  have hsecond := (hentries 1 (by decide)).trans (hsum 1)
  refine ⟨hx, hax, hfirst.trans ?_, hsecond.trans ?_⟩
  · simp [Matrix.coefficient, hstored, Element.re]
  · simp [Matrix.coefficient, hstored, Element.re]

theorem isPositiveDefinite_coupled : coupled.IsPositiveDefinite where
  symmetric := by
    intro x y ax ay hax hay
    obtain ⟨hx, haxsize, hax0, hax1⟩ := coupled_product hax
    obtain ⟨hy, haysize, hay0, hay1⟩ := coupled_product hay
    rw [Vec.dot_eq_sum (hy.trans haxsize.symm), Vec.dot_eq_sum (haysize.trans hx.symm), hy, haysize]
    simp only [Finset.sum_range_succ, Finset.sum_range_zero, hax0, hax1, hay0, hay1]
    ring
  positive := by
    intro x ax hax hne
    obtain ⟨hx, haxsize, hax0, hax1⟩ := coupled_product hax
    have hnonzero : x.getD 0 0 ≠ 0 ∨ x.getD 1 0 ≠ 0 := by
      by_contra hzero
      rw [not_or, not_not, not_not] at hzero
      refine hne (Vec.ext (Vec.size_zeros _).symm fun i hi => ?_)
      rw [Vec.getD_zeros]
      obtain rfl | rfl : i = 0 ∨ i = 1 := by omega
      · exact hzero.1
      · exact hzero.2
    rw [Vec.dot_eq_sum (hx.trans haxsize.symm), hx]
    simp only [Finset.sum_range_succ, Finset.sum_range_zero, hax0, hax1]
    rcases hnonzero with h | h
    · nlinarith [sq_nonneg (x.getD 1 0), sq_nonneg (x.getD 0 0 + x.getD 1 0), mul_self_pos.mpr h]
    · nlinarith [sq_nonneg (x.getD 0 0), sq_nonneg (x.getD 0 0 + x.getD 1 0), mul_self_pos.mpr h]

theorem terminates_coupled :
    coupled.kind = .real ∧ coupled.isSquare = true ∧ coupled.IsPositiveDefinite ∧
      (#[3, 0] : Array ℝ).size = coupled.rows.toNat ∧ (#[3, 0] : Array ℝ).size < 2 ^ 63 ∧
      (0 : ℝ) ≤ 0 ∧ (#[3, 0] : Array ℝ).size ≤ (2 : Word).toNat ∧
      (Pool.ofWorkers 3 : Pool RowRange).Accepting ∧
      ∃ solution, (solve ((RowSplit.ofRows 1 .inTurn).operator coupled) #[3, 0] 0 2 (.ofWorkers 3)).1 =
        .ok solution ∧ solution.iterations.toNat ≤ 2 := by
  have hpool : (Pool.ofWorkers 3 : Pool RowRange).Accepting := Pool.accepting_ofWorkers (by decide)
  obtain ⟨-, -, hends⟩ := terminates (.ofRows 1 .inTurn) coupled #[3, 0] 0 2 (.ofWorkers 3) rfl rfl
    isPositiveDefinite_coupled rfl (by decide) le_rfl (by decide)
  exact ⟨rfl, rfl, isPositiveDefinite_coupled, rfl, by decide, le_rfl, by decide, hpool, hends hpool⟩

end AccelKrylov.ConjugateGradient
