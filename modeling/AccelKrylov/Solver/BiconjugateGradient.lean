import AccelKrylov.Solver.Operator

/-! The biconjugate gradient method, for systems that need not be symmetric. Beside each vector of the
conjugate gradient method it carries a shadow, which the transposed matrix moves. -/

namespace AccelKrylov.BiconjugateGradient

variable {σ α : Type} [Zero α] [Add α] [Mul α] [Div α] [Neg α] [Numeric α]

/-- The iterate, its residual with its shadow, the search direction with its shadow, the product of the
residual and its shadow, and the norm of the residual. -/
structure State (α : Type) where
  x : Array α
  r : Array α
  rShadow : Array α
  p : Array α
  pShadow : Array α
  rho : α
  residual : α

/-- The state before the first iteration, at the zero vector. -/
def State.initial (b : Array α) : State α :=
  ⟨Vec.zeros b.size, b, b, b, b, Vec.dot b b, Vec.norm b⟩

/-- An iteration, once the products of the matrix and the search direction and of the transposed matrix
and its shadow are known. -/
def State.advance (s : State α) (threshold : α) (iteration : Word) (q qShadow : Array α) :
    Iteration (State α) α :=
  let denominator := Vec.dot s.pShadow q
  if Numeric.same denominator 0 || !Numeric.isFinite denominator then
    .done (.error (.breakdown iteration "p~.Ap"))
  else
    let step := s.rho / denominator
    let x := Vec.addScaled step s.p s.x
    let r := Vec.addScaled (-step) q s.r
    let rShadow := Vec.addScaled (-step) qShadow s.rShadow
    let residual := Vec.norm r
    if Numeric.le residual threshold then .done (.ok ⟨x, iteration, residual⟩)
    else
      let rho := Vec.dot rShadow r
      if Numeric.same rho 0 then .done (.error (.breakdown iteration "r~.r"))
      else
        let turn := rho / s.rho
        .next ⟨x, r, rShadow, Vec.scaleAdd r turn s.p, Vec.scaleAdd rShadow turn s.pShadow, rho,
          residual⟩

/-- An iteration together with the products that it needs. -/
def turn (op : Operator σ α) (threshold : α) : Turn σ (State α) α := fun iteration s w =>
  match op.apply s.p w with
  | (.error e, w) => (.done (.error e), w)
  | (.ok q, w) => match op.applyTransposed s.pShadow w with
    | (.error e, w) => (.done (.error e), w)
    | (.ok qShadow, w) => (s.advance threshold iteration q qShadow, w)

/-- The result once all iterations are used up. -/
def exhausted (limit : Word) (s : State α) : SolveResult α := .error (.nonConvergence limit s.residual)

/-- At most `left` more iterations of the `limit` there are. -/
def iterate (op : Operator σ α) (threshold : α) (limit : Word) :
    (left : Nat) → State α → σ → SolveResult α × σ :=
  (turn op threshold).iterate (exhausted limit) limit

/-- Solves for a right-hand side. -/
def solve (op : Operator σ α) (b : Array α) (tolerance : α) (limit : Word) (w : σ) :
    SolveResult α × σ :=
  (turn op (tolerance * Vec.norm b)).solve (exhausted limit) limit (.initial b) b w

end AccelKrylov.BiconjugateGradient
