import AccelKrylov.Solver.ConjugateGradient
import AccelKrylov.Proofs.Solver.Run

/-! The conjugate gradient method in exact arithmetic: what an iteration can come to, and what every
iteration keeps. The residual is never computed from the system, only moved along with the iterate; it is the
residual of the iterate nevertheless. -/

namespace AccelKrylov.ConjugateGradient

variable {σ α : Type} [Field α]

/-! ### States -/

namespace State

/-- How far the iterate moves along the search direction. -/
def stepLength (s : State α) (ap : Array α) : α := s.rr / Vec.dot s.p ap

def moved (s : State α) (ap : Array α) : Array α := Vec.addScaled (s.stepLength ap) s.p s.x

def movedResidual (s : State α) (ap : Array α) : Array α := Vec.addScaled (-s.stepLength ap) ap s.r

/-- The state of a method that knows its own residual. -/
structure Sound (a : Matrix α) (b : Array α) (s : State α) : Prop where
  size_p : s.p.size = a.cols.toNat
  residual : a.residual b s.x = .ok s.r
  rr : s.rr = Vec.dot s.r s.r

theorem sound_initial {a : Matrix α} {b : Array α} (hsystem : a.IsSystem b) :
    (initial b).Sound a b where
  size_p := hsystem.size.trans (congrArg UInt64.toNat hsystem.square)
  residual := hsystem.residual_zeros
  rr := rfl

theorem Sound.residual_moved {a : Matrix α} {b : Array α} {s : State α} {ap : Array α} (h : s.Sound a b)
    (hsystem : a.IsSystem b) (hap : a.product s.p = .ok ap) :
    a.residual b (s.moved ap) = .ok (s.movedResidual ap) :=
  Matrix.residual_addScaled hsystem.size h.residual hap _

end State

/-! ### Turns -/

variable [Numeric α]

/-- The states of a run. -/
abbrev Reached (op : Operator σ α) (b : Array α) (tolerance : α) (w₀ : σ) :
    (k : Nat) → State α → σ → Prop :=
  (turn op (tolerance * Vec.norm b)).Reached (.initial b) w₀

/-! ### What a turn can come to -/

variable [LinearOrder α]

namespace State

/-- What an iteration can come to. -/
inductive Advanced (s : State α) (threshold : α) (iteration : Word) (ap : Array α) :
    Iteration (State α) α → Prop
  | breakdown (hcurvature : Vec.dot s.p ap ≤ 0) :
    Advanced s threshold iteration ap (.done (.error (.breakdown iteration "p.Ap")))
  | converged (hcurvature : 0 < Vec.dot s.p ap) (hsmall : Vec.norm (s.movedResidual ap) ≤ threshold) :
    Advanced s threshold iteration ap
      (.done (.ok ⟨s.moved ap, iteration, Vec.norm (s.movedResidual ap)⟩))
  | next (hcurvature : 0 < Vec.dot s.p ap) (hlarge : threshold < Vec.norm (s.movedResidual ap)) :
    Advanced s threshold iteration ap
      (.next ⟨s.moved ap, s.movedResidual ap,
        Vec.scaleAdd (s.movedResidual ap)
          (Vec.dot (s.movedResidual ap) (s.movedResidual ap) / s.rr) s.p,
        Vec.dot (s.movedResidual ap) (s.movedResidual ap)⟩)

theorem advanced [ExactArithmetic α] (s : State α) (threshold : α) (iteration : Word) (ap : Array α) :
    s.Advanced threshold iteration ap (s.advance threshold iteration ap) := by
  unfold advance
  simp only [ExactArithmetic.isFinite, Bool.not_true, Bool.or_false, ExactArithmetic.le_iff]
  split
  next h => exact .breakdown h
  next h =>
    split
    next hsmall => exact .converged (not_le.mp h) hsmall
    next hlarge => exact .next (not_le.mp h) (not_le.mp hlarge)

/-- The residual stays the residual of the iterate. -/
theorem Sound.next {a : Matrix α} {b : Array α} {s s' : State α} {ap : Array α} {threshold : α}
    {iteration : Word} (h : s.Sound a b) (hsystem : a.IsSystem b) (hap : a.product s.p = .ok ap)
    (hadvanced : s.Advanced threshold iteration ap (.next s')) : s'.Sound a b := by
  cases hadvanced with
  | next hcurvature hlarge =>
    exact ⟨by rw [Vec.size_scaleAdd, h.size_p], h.residual_moved hsystem hap, rfl⟩

end State

section
variable [ExactArithmetic α] {op : Operator σ α} {a : Matrix α} {b : Array α}

/-- A turn fails only where the product cannot be computed, and advances from the true product otherwise. -/
theorem turn_cases (hop : op.Computes a) {threshold : α} {iteration : Word} {s : State α} {w w' : σ}
    {outcome : Iteration (State α) α} (hp : s.p.size = a.cols.toNat)
    (h : turn op threshold iteration s w = (outcome, w')) :
    (∃ fault, outcome = .done (.error (.offload fault))) ∨
      ∃ ap, a.product s.p = .ok ap ∧ s.Advanced threshold iteration ap outcome := by
  obtain ⟨e, hproduct, rfl⟩ | ⟨ap, hproduct, rfl⟩ := cases_of_turn h
  · obtain ⟨fault, rfl⟩ := hop.apply_error hproduct
    exact .inl ⟨fault, rfl⟩
  · exact .inr ⟨ap, hop.apply hp hproduct, s.advanced threshold iteration ap⟩

theorem sound_of_reached (hop : op.Computes a) (hsystem : a.IsSystem b) {tolerance : α} {k : Nat}
    {s : State α} {w₀ w : σ} (h : Reached op b tolerance w₀ k s w) : s.Sound a b := by
  induction h with
  | start => exact State.sound_initial hsystem
  | next before turned ih =>
    obtain ⟨fault, hfault⟩ | ⟨ap, hap, hadvanced⟩ := turn_cases hop ih.size_p turned
    · cases hfault
    · exact ih.next hsystem hap hadvanced

/-- Where products are answered, a turn advances. -/
theorem turn_of_ready {ready : σ → Prop} (hop : op.Answers a ready) {threshold : α} {iteration : Word}
    {s : State α} {w w' : σ} {outcome : Iteration (State α) α} (hp : s.p.size = a.cols.toNat)
    (hw : ready w) (h : turn op threshold iteration s w = (outcome, w')) :
    ready w' ∧ ∃ ap, s.Advanced threshold iteration ap outcome := by
  obtain ⟨ap, w₁, hproduct, hw₁⟩ := hop.apply hw hp
  rw [turn, hproduct] at h
  obtain ⟨rfl, rfl⟩ := Prod.mk.inj h
  exact ⟨hw₁, ap, s.advanced threshold iteration ap⟩

theorem ready_of_reached {ready : σ → Prop} (hop : op.Computes a) (hanswers : op.Answers a ready)
    (hsystem : a.IsSystem b) {tolerance : α} {w₀ : σ} (hw₀ : ready w₀) {k : Nat} {s : State α} {w : σ}
    (h : Reached op b tolerance w₀ k s w) : ready w := by
  induction h with
  | start => exact hw₀
  | next before turned ih =>
    have hsound := sound_of_reached hop hsystem before
    exact (turn_of_ready hanswers hsound.size_p ih turned).1

end

/-! ### Results -/

/-- How a solve can end. -/
inductive Ended (op : Operator σ α) (a : Matrix α) (b : Array α) (tolerance : α) (limit : Word) (w₀ : σ) :
    SolveResult α → Prop
  | zero (hzero : b = Vec.zeros b.size) : Ended op a b tolerance limit w₀ (.ok (.zero b.size))
  | failed {k : Nat} {s : State α} {w w' : σ} {fault : Error}
      (reached : Reached op b tolerance w₀ k s w)
      (turned : turn op (tolerance * Vec.norm b) (UInt64.ofNat (k + 1)) s w =
        (.done (.error (.offload fault)), w')) :
    Ended op a b tolerance limit w₀ (.error (.offload fault))
  | done {k : Nat} {s : State α} {w : σ} {ap : Array α} {result : SolveResult α} (hk : k < limit.toNat)
      (reached : Reached op b tolerance w₀ k s w) (product : a.product s.p = .ok ap)
      (advanced : s.Advanced (tolerance * Vec.norm b) (UInt64.ofNat (k + 1)) ap (.done result)) :
    Ended op a b tolerance limit w₀ result
  | exhausted {s : State α} {w : σ} (reached : Reached op b tolerance w₀ limit.toNat s w) :
    Ended op a b tolerance limit w₀ (.error (.nonConvergence limit (Numeric.sqrt s.rr)))

/-- What a solve reports is true of the system that it was to solve. -/
structure Truthful (op : Operator σ α) (a : Matrix α) (b : Array α) (tolerance : α) (limit : Word)
    (w₀ : σ) : Prop where
  /-- The states that are reached are those that the solve goes through. -/
  run : Vec.norm b ≠ 0 → ∀ k left s w, k + left = limit.toNat → Reached op b tolerance w₀ k s w →
    solve op b tolerance limit w₀ = iterate op (tolerance * Vec.norm b) limit left s w
  residual : ∀ k s w, Reached op b tolerance w₀ k s w → a.residual b s.x = .ok s.r
  solution : ∀ solution, (solve op b tolerance limit w₀).1 = .ok solution →
    solution.Truthful a b tolerance limit
  nonConvergence : ∀ iterations residual,
    (solve op b tolerance limit w₀).1 = .error (.nonConvergence iterations residual) →
      iterations = limit ∧ ∃ s w r, Reached op b tolerance w₀ limit.toNat s w ∧
        a.residual b s.x = .ok r ∧ residual = Vec.norm r
  breakdown : ∀ iteration quantity,
    (solve op b tolerance limit w₀).1 = .error (.breakdown iteration quantity) →
      ∃ k s w ap, k < limit.toNat ∧ iteration = UInt64.ofNat (k + 1) ∧
        Reached op b tolerance w₀ k s w ∧ a.product s.p = .ok ap ∧
        quantity = "p.Ap" ∧ Vec.dot s.p ap ≤ 0

section
variable [IsStrictOrderedRing α] [ExactArithmetic α] {op : Operator σ α} {a : Matrix α} {b : Array α}

theorem ended (hop : op.Computes a) (hsystem : a.IsSystem b) (tolerance : α) (limit : Word) (w₀ : σ) :
    Ended op a b tolerance limit w₀ (solve op b tolerance limit w₀).1 := by
  obtain ⟨result, w', hresult⟩ : ∃ result w', solve op b tolerance limit w₀ = (result, w') := ⟨_, _, rfl⟩
  rw [hresult]
  obtain ⟨hzero, rfl⟩ | ⟨k, s, w, hreached, ⟨hk, hturn⟩ | ⟨rfl, -, rfl⟩⟩ := Turn.solve_end hresult
  · exact .zero hzero
  · have hsound := sound_of_reached hop hsystem hreached
    obtain ⟨fault, hfault⟩ | ⟨ap, hap, hadvanced⟩ := turn_cases hop hsound.size_p hturn
    · obtain rfl := Iteration.done.inj hfault
      exact .failed hreached hturn
    · exact .done hk hreached hap hadvanced
  · exact .exhausted hreached

/-- Where products are answered, a solve ends with a solution or with a reason in the numbers. -/
theorem solve_ne_offload {ready : σ → Prop} (hop : op.Computes a) (hanswers : op.Answers a ready)
    (hsystem : a.IsSystem b) (tolerance : α) (limit : Word) {w₀ : σ} (hw₀ : ready w₀) (fault : Error) :
    (solve op b tolerance limit w₀).1 ≠ .error (.offload fault) := by
  intro hfault
  have hended := ended hop hsystem tolerance limit w₀
  rw [hfault] at hended
  cases hended with
  | failed hreached hturn =>
    have hsound := sound_of_reached hop hsystem hreached
    have hready := ready_of_reached hop hanswers hsystem hw₀ hreached
    obtain ⟨-, ap, hadvanced⟩ := turn_of_ready hanswers hsound.size_p hready hturn
    cases hadvanced
  | done hk hreached hap hadvanced => cases hadvanced

/-- The conjugate gradient method reports the true residual of what it has found. -/
theorem truthful (hop : op.Computes a) (hsystem : a.IsSystem b) (tolerance : α) (limit : Word) (w₀ : σ) :
    Truthful op a b tolerance limit w₀ where
  run hzero k left s w hk hreached := hreached.solve_eq hzero hk
  residual k s w hreached := (sound_of_reached hop hsystem hreached).residual
  solution solution h := by
    have hended := ended hop hsystem tolerance limit w₀
    rw [h] at hended
    cases hended with
    | zero hzero => exact Solution.truthful_zero hsystem hzero
    | done hk hreached hap hadvanced =>
      cases hadvanced with
      | converged hcurvature hsmall =>
        have hsound := sound_of_reached hop hsystem hreached
        exact Solution.truthful_of_small hk (hsound.residual_moved hsystem hap) hsmall
  nonConvergence iterations residual h := by
    have hended := ended hop hsystem tolerance limit w₀
    rw [h] at hended
    cases hended with
    | done hk hreached hap hadvanced => cases hadvanced
    | @exhausted s w hreached =>
      have hsound := sound_of_reached hop hsystem hreached
      refine ⟨rfl, s, w, s.r, hreached, hsound.residual, ?_⟩
      rw [hsound.rr, Vec.norm]
  breakdown iteration quantity h := by
    have hended := ended hop hsystem tolerance limit w₀
    rw [h] at hended
    cases hended with
    | @done k s w ap result hk hreached hap hadvanced =>
      cases hadvanced with
      | breakdown hcurvature => exact ⟨k, s, w, ap, hk, rfl, hreached, hap, rfl, hcurvature⟩

end

end AccelKrylov.ConjugateGradient
