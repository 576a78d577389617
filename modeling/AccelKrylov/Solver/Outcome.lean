import AccelKrylov.Error
import AccelKrylov.Decimal.Shortest

/-! What a solve of `A x = b` comes to: a solution with the norm of its residual, or one of the ways in which
no solution was found. -/

namespace AccelKrylov

structure Solution (α : Type) where
  x : Array α
  iterations : Word
  residual : α
deriving DecidableEq

inductive SolveError (α : Type) where
  | offload (fault : Error)
  | dimension (text : String)
  | nonConvergence (iterations : Word) (residual : α)
  /-- An iteration would have to divide by a quantity that is not what the method needs. -/
  | breakdown (iteration : Word) (quantity : String)
  /-- A negative status that firmware wrote. -/
  | firmware (status : Int64)
  | unsupported (text : String)
deriving DecidableEq

namespace SolveError

variable {α : Type}

def name : SolveError α → String
  | offload _ => "Offload"
  | dimension _ => "DimensionError"
  | nonConvergence .. => "NonConvergence"
  | breakdown .. => "Breakdown"
  | firmware _ => "Firmware"
  | unsupported _ => "Unsupported"

/-- The error with its parts named. -/
def message : SolveError Double → String
  | e@(offload fault) => e.name ++ "(" ++ fault.describe ++ ")"
  | e@(dimension text) | e@(unsupported text) => e.name ++ "(" ++ Text.quote text ++ ")"
  | e@(nonConvergence iterations residual) =>
    e.name ++ s!" \x7b iterations: {iterations}, residual_norm: " ++ Decimal.write residual ++ " \x7d"
  | e@(breakdown iteration quantity) =>
    e.name ++ s!" \x7b iteration: {iteration}, quantity: " ++ Text.quote quantity ++ " \x7d"
  | e@(firmware status) => e.name ++ s!"({status.toInt})"

/-- The status of solves that fail as numerical methods. -/
def numericalStatus : Int32 := -5000

def status : SolveError α → Int32
  | offload fault => fault.status
  | dimension _ => Error.invalidInputStatus
  | firmware status =>
    if Int32.minValue.toInt ≤ status.toInt ∧ status.toInt ≤ Int32.maxValue.toInt then
      Int32.ofInt status.toInt
    else numericalStatus
  | nonConvergence .. | breakdown .. | unsupported _ => numericalStatus

end SolveError

/-- What a solve comes to. -/
abbrev SolveResult (α : Type) := Except (SolveError α) (Solution α)

/-- The iterations of a solve that succeeded, or the status of one that did not, as a signed number. -/
def SolveResult.statusOf {α : Type} : SolveResult α → Int64
  | .ok s => s.iterations.toInt64
  | .error e => Int64.ofInt e.status.toInt

end AccelKrylov
