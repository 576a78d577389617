import AccelKrylov.Solver.Outcome
import AccelKrylov.Device.Command
import AccelKrylov.Matrix.Build

/-! The iterative methods that firmware knows, and the parameters of a solve. -/

namespace AccelKrylov

inductive Method where
  | biconjugateGradient | conjugateGradient | quasiMinimalResidual
deriving DecidableEq

namespace Method

def name : Method → String
  | biconjugateGradient => "Bicg"
  | conjugateGradient => "Cg"
  | quasiMinimalResidual => "Qmr"

/-- The file of the firmware that runs the method. -/
def firmware : Method → String
  | biconjugateGradient => "bicg_wrapper.bin"
  | conjugateGradient => "cg_wrapper.bin"
  | quasiMinimalResidual => "qmr_wrapper.bin"

def tag : Method → Word
  | biconjugateGradient => 0
  | conjugateGradient => 1
  | quasiMinimalResidual => 2

end Method

/-- A method and when it stops: at a residual of `tolerance` times the norm of the right-hand side, or
after `maxIterations`. -/
structure Algorithm where
  method : Method
  tolerance : Double
  maxIterations : Word
deriving DecidableEq

namespace Algorithm

/-- A millionth, and a thousand iterations. -/
def standard (method : Method) : Algorithm := ⟨method, ⟨0x3eb0c6f7a0b5ed8d⟩, 1000⟩

/-- What firmware is told about a solve for a number of unknowns. -/
def control (a : Algorithm) (rows : Word) : SolverControl :=
  ⟨a.tolerance, a.maxIterations, rows, a.method.tag⟩

end Algorithm

/-- A system has as many unknowns as equations. -/
def validateSystem {α β : Type} (a : Matrix α) (b : Array β) : Except (SolveError α) Unit := do
  ensure (a.isSquare = true)
    (.dimension s!"Matrix A must be square (dims: {a.rows}x{a.cols})")
  ensure (a.rows.toNat = b.size)
    (.dimension s!"Matrix A rows ({a.rows}) must match RHS vector b length ({b.size})")

end AccelKrylov
