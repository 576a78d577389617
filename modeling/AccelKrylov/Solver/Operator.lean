import AccelKrylov.Solver.Outcome
import AccelKrylov.Numeric

/-! What iterative methods know of a matrix, and the loop that they have in common: turns, up to the first one that
comes to a result. -/

namespace AccelKrylov

/-- A matrix by its products with vectors. Computing one may fail, and changes a state `σ`. -/
structure Operator (σ α : Type) where
  apply : Array α → σ → Except (SolveError α) (Array α) × σ
  applyTransposed : Array α → σ → Except (SolveError α) (Array α) × σ

/-- What an iteration comes to. -/
inductive Iteration (β α : Type) where
  | next (state : β)
  | done (result : SolveResult α)

/-- One iteration of a method: what it comes to, and what it leaves of the state that products change. -/
abbrev Turn (σ S α : Type) := (iteration : Word) → S → σ → Iteration S α × σ

/-- The solution for a right-hand side of zero. -/
def Solution.zero {α : Type} [Zero α] (n : Nat) : Solution α := ⟨Vec.zeros n, 0, 0⟩

namespace Turn

variable {σ S α : Type}

/-- At most `left` more turns of the `limit` there are. -/
def iterate (turn : Turn σ S α) (exhausted : S → SolveResult α) (limit : Word) :
    (left : Nat) → S → σ → SolveResult α × σ
  | 0, s, w => (exhausted s, w)
  | left + 1, s, w => match turn (limit - UInt64.ofNat left) s w with
    | (.done result, w) => (result, w)
    | (.next s, w) => iterate turn exhausted limit left s w

/-- Turns from a first state on, unless the right-hand side has no length and there is nothing to do. -/
def solve [Zero α] [Add α] [Mul α] [Numeric α] (turn : Turn σ S α) (exhausted : S → SolveResult α)
    (limit : Word) (first : S) (b : Array α) (w : σ) : SolveResult α × σ :=
  if Numeric.same (Vec.norm b) 0 then (.ok (.zero b.size), w)
  else turn.iterate exhausted limit limit.toNat first w

end Turn

end AccelKrylov
