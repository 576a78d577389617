import AccelKrylov.Solver.BiconjugateGradient
import AccelKrylov.Proofs.Solver.Run

/-! The biconjugate gradient method in exact arithmetic. As in the conjugate gradient method the residual
moves along with the iterate; its shadow moves with the transposed matrix, by the same length. -/

namespace AccelKrylov.BiconjugateGradient

variable {σ α : Type} [Field α]

/-! ### States -/

namespace State

/-- How far the iterate moves along the search direction. -/
def stepLength (s : State α) (q : Array α) : α := s.rho / Vec.dot s.pShadow q

def moved (s : State α) (q : Array α) : Array α := Vec.addScaled (s.stepLength q) s.p s.x

def movedResidual (s : State α) (q : Array α) : Array α := Vec.addScaled (-s.stepLength q) q s.r

/-- The shadow of the residual moves with the product of the transposed matrix. -/
def movedShadow (s : State α) (q qShadow : Array α) : Array α :=
  Vec.addScaled (-s.stepLength q) qShadow s.rShadow

/-- The product of the residual and its shadow after the move. -/
def movedRho (s : State α) (q qShadow : Array α) : α :=
  Vec.dot (s.movedShadow q qShadow) (s.movedResidual q)

/-- The state of a method that knows its own residual. -/
structure Sound [Numeric α] (a : Matrix α) (b : Array α) (s : State α) : Prop where
  size_p : s.p.size = a.cols.toNat
  size_pShadow : s.pShadow.size = a.rows.toNat
  residual : a.residual b s.x = .ok s.r
  norm : s.residual = Vec.norm s.r
  rho : s.rho = Vec.dot s.rShadow s.r

theorem sound_initial [Numeric α] {a : Matrix α} {b : Array α} (hsystem : a.IsSystem b) :
    (initial b).Sound a b where
  size_p := hsystem.size.trans (congrArg UInt64.toNat hsystem.square)
  size_pShadow := hsystem.size
  residual := hsystem.residual_zeros
  norm := rfl
  rho := rfl

theorem Sound.residual_moved [Numeric α] {a : Matrix α} {b : Array α} {s : State α} {q : Array α}
    (h : s.Sound a b) (hsystem : a.IsSystem b) (hq : a.product s.p = .ok q) :
    a.residual b (s.moved q) = .ok (s.movedResidual q) :=
  Matrix.residual_addScaled hsystem.size h.residual hq _

end State

/-! ### Turns -/

variable [Numeric α]

/-- The states of a run. -/
abbrev Reached (op : Operator σ α) (b : Array α) (tolerance : α) (w₀ : σ) :
    (k : Nat) → State α → σ → Prop :=
  (turn op (tolerance * Vec.norm b)).Reached (.initial b) w₀

/-! ### What a turn can come to -/

variable [LinearOrder α]

namespace State

/-- What an iteration can come to. -/
inductive Advanced (s : State α) (threshold : α) (iteration : Word) (q qShadow : Array α) :
    Iteration (State α) α → Prop
  | flat (hcurvature : Vec.dot s.pShadow q = 0) :
    Advanced s threshold iteration q qShadow (.done (.error (.breakdown iteration "p~.Ap")))
  | converged (hcurvature : Vec.dot s.pShadow q ≠ 0) (hsmall : Vec.norm (s.movedResidual q) ≤ threshold) :
    Advanced s threshold iteration q qShadow
      (.done (.ok ⟨s.moved q, iteration, Vec.norm (s.movedResidual q)⟩))
  | orthogonal (hcurvature : Vec.dot s.pShadow q ≠ 0)
      (hlarge : threshold < Vec.norm (s.movedResidual q)) (hrho : s.movedRho q qShadow = 0) :
    Advanced s threshold iteration q qShadow (.done (.error (.breakdown iteration "r~.r")))
  | next (hcurvature : Vec.dot s.pShadow q ≠ 0)
      (hlarge : threshold < Vec.norm (s.movedResidual q)) (hrho : s.movedRho q qShadow ≠ 0) :
    Advanced s threshold iteration q qShadow
      (.next ⟨s.moved q, s.movedResidual q, s.movedShadow q qShadow,
        Vec.scaleAdd (s.movedResidual q) (s.movedRho q qShadow / s.rho) s.p,
        Vec.scaleAdd (s.movedShadow q qShadow) (s.movedRho q qShadow / s.rho) s.pShadow,
        s.movedRho q qShadow, Vec.norm (s.movedResidual q)⟩)

theorem advanced [ExactArithmetic α] (s : State α) (threshold : α) (iteration : Word)
    (q qShadow : Array α) :
    s.Advanced threshold iteration q qShadow (s.advance threshold iteration q qShadow) := by
  unfold advance
  simp only [ExactArithmetic.isFinite, Bool.not_true, Bool.or_false, ExactArithmetic.same_iff,
    ExactArithmetic.le_iff]
  split
  next h => exact .flat h
  next h =>
    split
    next hsmall => exact .converged h hsmall
    next hlarge =>
      split
      next hrho => exact .orthogonal h (not_le.mp hlarge) hrho
      next hrho => exact .next h (not_le.mp hlarge) hrho

/-- The residual stays the residual of the iterate. -/
theorem Sound.next {a : Matrix α} {b : Array α} {s s' : State α} {q qShadow : Array α} {threshold : α}
    {iteration : Word} (h : s.Sound a b) (hsystem : a.IsSystem b) (hq : a.product s.p = .ok q)
    (hadvanced : s.Advanced threshold iteration q qShadow (.next s')) : s'.Sound a b := by
  cases hadvanced with
  | next hcurvature hlarge hrho =>
    exact ⟨by rw [Vec.size_scaleAdd, h.size_p], by rw [Vec.size_scaleAdd, h.size_pShadow],
      h.residual_moved hsystem hq, rfl, rfl⟩

end State

section
variable [ExactArithmetic α] {op : Operator σ α} {a : Matrix α} {b : Array α}

/-- A turn fails only where a product cannot be computed, and advances from the true products otherwise. -/
theorem turn_cases (hop : op.Computes a) {threshold : α} {iteration : Word} {s : State α} {w w' : σ}
    {outcome : Iteration (State α) α} (hp : s.p.size = a.cols.toNat)
    (hpShadow : s.pShadow.size = a.rows.toNat) (h : turn op threshold iteration s w = (outcome, w')) :
    (∃ fault, outcome = .done (.error (.offload fault))) ∨
      ∃ q qShadow, a.product s.p = .ok q ∧ a.transposeProduct s.pShadow = .ok qShadow ∧
        s.Advanced threshold iteration q qShadow outcome := by
  obtain ⟨e, hproduct, rfl⟩ | ⟨q, w₁, hproduct, ⟨e, hshadow, rfl⟩ | ⟨qShadow, hshadow, rfl⟩⟩ :=
    cases_of_turn h
  · obtain ⟨fault, rfl⟩ := hop.apply_error hproduct
    exact .inl ⟨fault, rfl⟩
  · obtain ⟨fault, rfl⟩ := hop.applyTransposed_error hshadow
    exact .inl ⟨fault, rfl⟩
  · exact .inr ⟨q, qShadow, hop.apply hp hproduct, hop.applyTransposed hpShadow hshadow,
      s.advanced threshold iteration q qShadow⟩

theorem sound_of_reached (hop : op.Computes a) (hsystem : a.IsSystem b) {tolerance : α} {k : Nat}
    {s : State α} {w₀ w : σ} (h : Reached op b tolerance w₀ k s w) : s.Sound a b := by
  induction h with
  | start => exact State.sound_initial hsystem
  | next before turned ih =>
    obtain ⟨fault, hfault⟩ | ⟨q, qShadow, hq, -, hadvanced⟩ :=
      turn_cases hop ih.size_p ih.size_pShadow turned
    · cases hfault
    · exact ih.next hsystem hq hadvanced

/-- Where products are answered, a turn advances. -/
theorem turn_of_ready {ready : σ → Prop} (hop : op.Answers a ready) {threshold : α} {iteration : Word}
    {s : State α} {w w' : σ} {outcome : Iteration (State α) α} (hp : s.p.size = a.cols.toNat)
    (hpShadow : s.pShadow.size = a.rows.toNat) (hw : ready w)
    (h : turn op threshold iteration s w = (outcome, w')) :
    ready w' ∧ ∃ q qShadow, s.Advanced threshold iteration q qShadow outcome := by
  obtain ⟨q, w₁, hproduct, hw₁⟩ := hop.apply hw hp
  obtain ⟨qShadow, w₂, hshadow, hw₂⟩ := hop.applyTransposed hw₁ hpShadow
  rw [turn, hproduct] at h
  dsimp only at h
  rw [hshadow] at h
  obtain ⟨rfl, rfl⟩ := Prod.mk.inj h
  exact ⟨hw₂, q, qShadow, s.advanced threshold iteration q qShadow⟩

theorem ready_of_reached {ready : σ → Prop} (hop : op.Computes a) (hanswers : op.Answers a ready)
    (hsystem : a.IsSystem b) {tolerance : α} {w₀ : σ} (hw₀ : ready w₀) {k : Nat} {s : State α} {w : σ}
    (h : Reached op b tolerance w₀ k s w) : ready w := by
  induction h with
  | start => exact hw₀
  | next before turned ih =>
    have hsound := sound_of_reached hop hsystem before
    exact (turn_of_ready hanswers hsound.size_p hsound.size_pShadow ih turned).1

end

/-! ### Results -/

/-- How a solve can end. -/
inductive Ended (op : Operator σ α) (a : Matrix α) (b : Array α) (tolerance : α) (limit : Word) (w₀ : σ) :
    SolveResult α → Prop
  | zero (hzero : b = Vec.zeros b.size) : Ended op a b tolerance limit w₀ (.ok (.zero b.size))
  | failed {k : Nat} {s : State α} {w w' : σ} {fault : Error}
      (reached : Reached op b tolerance w₀ k s w)
      (turned : turn op (tolerance * Vec.norm b) (UInt64.ofNat (k + 1)) s w =
        (.done (.error (.offload fault)), w')) :
    Ended op a b tolerance limit w₀ (.error (.offload fault))
  | done {k : Nat} {s : State α} {w : σ} {q qShadow : Array α} {result : SolveResult α}
      (hk : k < limit.toNat) (reached : Reached op b tolerance w₀ k s w)
      (product : a.product s.p = .ok q) (productShadow : a.transposeProduct s.pShadow = .ok qShadow)
      (advanced : s.Advanced (tolerance * Vec.norm b) (UInt64.ofNat (k + 1)) q qShadow (.done result)) :
    Ended op a b tolerance limit w₀ result
  | exhausted {s : State α} {w : σ} (reached : Reached op b tolerance w₀ limit.toNat s w) :
    Ended op a b tolerance limit w₀ (.error (.nonConvergence limit s.residual))

/-- What a solve reports is true of the system that it was to solve. -/
structure Truthful (op : Operator σ α) (a : Matrix α) (b : Array α) (tolerance : α) (limit : Word)
    (w₀ : σ) : Prop where
  /-- The states that are reached are those that the solve goes through. -/
  run : Vec.norm b ≠ 0 → ∀ k left s w, k + left = limit.toNat → Reached op b tolerance w₀ k s w →
    solve op b tolerance limit w₀ = iterate op (tolerance * Vec.norm b) limit left s w
  residual : ∀ k s w, Reached op b tolerance w₀ k s w → a.residual b s.x = .ok s.r
  /-- The shadow moves with the transposed matrix, by as much as the residual moves with the matrix. -/
  shadow : ∀ k s s' w w', Reached op b tolerance w₀ k s w →
    turn op (tolerance * Vec.norm b) (UInt64.ofNat (k + 1)) s w = (.next s', w') →
      ∃ q qShadow step, a.product s.p = .ok q ∧ a.transposeProduct s.pShadow = .ok qShadow ∧
        s'.x = Vec.addScaled step s.p s.x ∧ s'.r = Vec.addScaled (-step) q s.r ∧
        s'.rShadow = Vec.addScaled (-step) qShadow s.rShadow
  solution : ∀ solution, (solve op b tolerance limit w₀).1 = .ok solution →
    solution.Truthful a b tolerance limit
  nonConvergence : ∀ iterations residual,
    (solve op b tolerance limit w₀).1 = .error (.nonConvergence iterations residual) →
      iterations = limit ∧ ∃ s w r, Reached op b tolerance w₀ limit.toNat s w ∧
        a.residual b s.x = .ok r ∧ residual = Vec.norm r
  breakdown : ∀ iteration quantity,
    (solve op b tolerance limit w₀).1 = .error (.breakdown iteration quantity) →
      ∃ k s w q qShadow, k < limit.toNat ∧ iteration = UInt64.ofNat (k + 1) ∧
        Reached op b tolerance w₀ k s w ∧ a.product s.p = .ok q ∧
        a.transposeProduct s.pShadow = .ok qShadow ∧
        (quantity = "p~.Ap" ∧ Vec.dot s.pShadow q = 0 ∨
          quantity = "r~.r" ∧ Vec.dot (s.movedShadow q qShadow) (s.movedResidual q) = 0)

section
variable [IsStrictOrderedRing α] [ExactArithmetic α] {op : Operator σ α} {a : Matrix α} {b : Array α}

theorem ended (hop : op.Computes a) (hsystem : a.IsSystem b) (tolerance : α) (limit : Word) (w₀ : σ) :
    Ended op a b tolerance limit w₀ (solve op b tolerance limit w₀).1 := by
  obtain ⟨result, w', hresult⟩ : ∃ result w', solve op b tolerance limit w₀ = (result, w') := ⟨_, _, rfl⟩
  rw [hresult]
  obtain ⟨hzero, rfl⟩ | ⟨k, s, w, hreached, ⟨hk, hturn⟩ | ⟨rfl, -, rfl⟩⟩ := Turn.solve_end hresult
  · exact .zero hzero
  · have hsound := sound_of_reached hop hsystem hreached
    obtain ⟨fault, hfault⟩ | ⟨q, qShadow, hq, hqShadow, hadvanced⟩ :=
      turn_cases hop hsound.size_p hsound.size_pShadow hturn
    · obtain rfl := Iteration.done.inj hfault
      exact .failed hreached hturn
    · exact .done hk hreached hq hqShadow hadvanced
  · exact .exhausted hreached

/-- Where products are answered, a solve ends with a solution or with a reason in the numbers. -/
theorem solve_ne_offload {ready : σ → Prop} (hop : op.Computes a) (hanswers : op.Answers a ready)
    (hsystem : a.IsSystem b) (tolerance : α) (limit : Word) {w₀ : σ} (hw₀ : ready w₀) (fault : Error) :
    (solve op b tolerance limit w₀).1 ≠ .error (.offload fault) := by
  intro hfault
  have hended := ended hop hsystem tolerance limit w₀
  rw [hfault] at hended
  cases hended with
  | failed hreached hturn =>
    have hsound := sound_of_reached hop hsystem hreached
    have hready := ready_of_reached hop hanswers hsystem hw₀ hreached
    obtain ⟨-, q, qShadow, hadvanced⟩ :=
      turn_of_ready hanswers hsound.size_p hsound.size_pShadow hready hturn
    cases hadvanced
  | done hk hreached hq hqShadow hadvanced => cases hadvanced

/-- The biconjugate gradient method reports the true residual of what it has found. -/
theorem truthful (hop : op.Computes a) (hsystem : a.IsSystem b) (tolerance : α) (limit : Word) (w₀ : σ) :
    Truthful op a b tolerance limit w₀ where
  run hzero k left s w hk hreached := hreached.solve_eq hzero hk
  residual k s w hreached := (sound_of_reached hop hsystem hreached).residual
  shadow k s s' w w' hreached hturn := by
    have hsound := sound_of_reached hop hsystem hreached
    obtain ⟨fault, hfault⟩ | ⟨q, qShadow, hq, hqShadow, hadvanced⟩ :=
      turn_cases hop hsound.size_p hsound.size_pShadow hturn
    · cases hfault
    · cases hadvanced with
      | next hcurvature hlarge hrho => exact ⟨q, qShadow, s.stepLength q, hq, hqShadow, rfl, rfl, rfl⟩
  solution solution h := by
    have hended := ended hop hsystem tolerance limit w₀
    rw [h] at hended
    cases hended with
    | zero hzero => exact Solution.truthful_zero hsystem hzero
    | done hk hreached hq hqShadow hadvanced =>
      cases hadvanced with
      | converged hcurvature hsmall =>
        have hsound := sound_of_reached hop hsystem hreached
        exact Solution.truthful_of_small hk (hsound.residual_moved hsystem hq) hsmall
  nonConvergence iterations residual h := by
    have hended := ended hop hsystem tolerance limit w₀
    rw [h] at hended
    cases hended with
    | done hk hreached hq hqShadow hadvanced => cases hadvanced
    | @exhausted s w hreached =>
      have hsound := sound_of_reached hop hsystem hreached
      exact ⟨rfl, s, w, s.r, hreached, hsound.residual, hsound.norm⟩
  breakdown iteration quantity h := by
    have hended := ended hop hsystem tolerance limit w₀
    rw [h] at hended
    cases hended with
    | @done k s w q qShadow result hk hreached hq hqShadow hadvanced =>
      cases hadvanced with
      | flat hcurvature =>
        exact ⟨k, s, w, q, qShadow, hk, rfl, hreached, hq, hqShadow, .inl ⟨rfl, hcurvature⟩⟩
      | orthogonal hcurvature hlarge hrho =>
        exact ⟨k, s, w, q, qShadow, hk, rfl, hreached, hq, hqShadow, .inr ⟨rfl, hrho⟩⟩

end

end AccelKrylov.BiconjugateGradient
