import AccelKrylov.Solver.Operator

/-! The conjugate gradient method, for symmetric positive definite systems. -/

namespace AccelKrylov.ConjugateGradient

variable {σ α : Type} [Zero α] [Add α] [Mul α] [Div α] [Neg α] [Numeric α]

/-- The iterate, its residual, the search direction, and the square of the residual's norm. -/
structure State (α : Type) where
  x : Array α
  r : Array α
  p : Array α
  rr : α

/-- The state before the first iteration, at the zero vector. -/
def State.initial (b : Array α) : State α := ⟨Vec.zeros b.size, b, b, Vec.dot b b⟩

/-- An iteration, once the product `ap` of the matrix and the search direction is known. -/
def State.advance (s : State α) (threshold : α) (iteration : Word) (ap : Array α) :
    Iteration (State α) α :=
  let pap := Vec.dot s.p ap
  if Numeric.le pap 0 || !Numeric.isFinite pap then .done (.error (.breakdown iteration "p.Ap"))
  else
    let step := s.rr / pap
    let x := Vec.addScaled step s.p s.x
    let r := Vec.addScaled (-step) ap s.r
    let rr := Vec.dot r r
    let residual := Numeric.sqrt rr
    if Numeric.le residual threshold then .done (.ok ⟨x, iteration, residual⟩)
    else .next ⟨x, r, Vec.scaleAdd r (rr / s.rr) s.p, rr⟩

/-- An iteration together with the product that it needs. -/
def turn (op : Operator σ α) (threshold : α) : Turn σ (State α) α := fun iteration s w =>
  match op.apply s.p w with
  | (.error e, w) => (.done (.error e), w)
  | (.ok ap, w) => (s.advance threshold iteration ap, w)

/-- The result once all iterations are used up. -/
def exhausted (limit : Word) (s : State α) : SolveResult α :=
  .error (.nonConvergence limit (Numeric.sqrt s.rr))

/-- At most `left` more iterations of the `limit` there are. -/
def iterate (op : Operator σ α) (threshold : α) (limit : Word) :
    (left : Nat) → State α → σ → SolveResult α × σ :=
  (turn op threshold).iterate (exhausted limit) limit

/-- Solves for a right-hand side. -/
def solve (op : Operator σ α) (b : Array α) (tolerance : α) (limit : Word) (w : σ) :
    SolveResult α × σ :=
  (turn op (tolerance * Vec.norm b)).solve (exhausted limit) limit (.initial b) b w

end AccelKrylov.ConjugateGradient
