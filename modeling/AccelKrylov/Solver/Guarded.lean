import AccelKrylov.Trap
import AccelKrylov.Solver.BiconjugateGradient
import AccelKrylov.Solver.ConjugateGradient

/-! The iterative methods on a machine that stops where it is to divide by zero. Each of them divides twice in
an iteration: for the length of the step, and for the turn of the search direction. Neither looks at the second
divisor before it divides. -/

namespace AccelKrylov

variable {σ α : Type} [Zero α] [Add α] [Mul α] [Div α] [Neg α] [Numeric α]

/-- The quotient of two numbers, unless the divisor is zero. -/
def guardedDiv (a b : α) : Except Trap α := if Numeric.same b 0 then .error .zeroDivisor else .ok (a / b)

/-- One iteration of a method, unless it is stopped. -/
abbrev GuardedTurn (σ S α : Type) := (iteration : Word) → S → σ → Except Trap (Iteration S α × σ)

namespace GuardedTurn

variable {S : Type}

def iterate (turn : GuardedTurn σ S α) (exhausted : S → SolveResult α) (limit : Word) :
    (left : Nat) → S → σ → Except Trap (SolveResult α × σ)
  | 0, s, w => .ok (exhausted s, w)
  | left + 1, s, w => match turn (limit - UInt64.ofNat left) s w with
    | .error t => .error t
    | .ok (.done result, w) => .ok (result, w)
    | .ok (.next s, w) => iterate turn exhausted limit left s w

def solve (turn : GuardedTurn σ S α) (exhausted : S → SolveResult α) (limit : Word) (first : S)
    (b : Array α) (w : σ) : Except Trap (SolveResult α × σ) :=
  if Numeric.same (Vec.norm b) 0 then .ok (.ok (.zero b.size), w)
  else turn.iterate exhausted limit limit.toNat first w

end GuardedTurn

namespace ConjugateGradient

def State.guardedAdvance (s : State α) (threshold : α) (iteration : Word) (ap : Array α) :
    Except Trap (Iteration (State α) α) := do
  let pap := Vec.dot s.p ap
  if Numeric.le pap 0 || !Numeric.isFinite pap then return .done (.error (.breakdown iteration "p.Ap"))
  else
    let step ← guardedDiv s.rr pap
    let x := Vec.addScaled step s.p s.x
    let r := Vec.addScaled (-step) ap s.r
    let rr := Vec.dot r r
    let residual := Numeric.sqrt rr
    if Numeric.le residual threshold then return .done (.ok ⟨x, iteration, residual⟩)
    else
      let turn ← guardedDiv rr s.rr
      return .next ⟨x, r, Vec.scaleAdd r turn s.p, rr⟩

def guardedTurn (op : Operator σ α) (threshold : α) : GuardedTurn σ (State α) α := fun iteration s w =>
  match op.apply s.p w with
  | (.error e, w) => .ok (.done (.error e), w)
  | (.ok ap, w) => (s.guardedAdvance threshold iteration ap).map fun outcome => (outcome, w)

def guardedSolve (op : Operator σ α) (b : Array α) (tolerance : α) (limit : Word) (w : σ) :
    Except Trap (SolveResult α × σ) :=
  (guardedTurn op (tolerance * Vec.norm b)).solve (exhausted limit) limit (.initial b) b w

end ConjugateGradient

namespace BiconjugateGradient

def State.guardedAdvance (s : State α) (threshold : α) (iteration : Word) (q qShadow : Array α) :
    Except Trap (Iteration (State α) α) := do
  let denominator := Vec.dot s.pShadow q
  if Numeric.same denominator 0 || !Numeric.isFinite denominator then
    return .done (.error (.breakdown iteration "p~.Ap"))
  else
    let step ← guardedDiv s.rho denominator
    let x := Vec.addScaled step s.p s.x
    let r := Vec.addScaled (-step) q s.r
    let rShadow := Vec.addScaled (-step) qShadow s.rShadow
    let residual := Vec.norm r
    if Numeric.le residual threshold then return .done (.ok ⟨x, iteration, residual⟩)
    else
      let rho := Vec.dot rShadow r
      if Numeric.same rho 0 then return .done (.error (.breakdown iteration "r~.r"))
      else
        let turn ← guardedDiv rho s.rho
        return .next ⟨x, r, rShadow, Vec.scaleAdd r turn s.p, Vec.scaleAdd rShadow turn s.pShadow, rho,
          residual⟩

def guardedTurn (op : Operator σ α) (threshold : α) : GuardedTurn σ (State α) α := fun iteration s w =>
  match op.apply s.p w with
  | (.error e, w) => .ok (.done (.error e), w)
  | (.ok q, w) => match op.applyTransposed s.pShadow w with
    | (.error e, w) => .ok (.done (.error e), w)
    | (.ok qShadow, w) =>
      (s.guardedAdvance threshold iteration q qShadow).map fun outcome => (outcome, w)

def guardedSolve (op : Operator σ α) (b : Array α) (tolerance : α) (limit : Word) (w : σ) :
    Except Trap (SolveResult α × σ) :=
  (guardedTurn op (tolerance * Vec.norm b)).solve (exhausted limit) limit (.initial b) b w

end BiconjugateGradient

end AccelKrylov
