import AccelKrylov.Solver.Method
import AccelKrylov.Session.Run

/-! A solve on the device. Firmware gets six arguments: what it is to do, the matrix, the right-hand side,
the solution it is to write, its status, and the norm of the residual. -/

namespace AccelKrylov

/-! ### Numbers in memory -/

/-- The bytes of numbers in memory. -/
def Double.listBytes (values : List Double) : List UInt8 := values.flatMap Double.bytes

/-- The numbers that bytes spell. -/
def Double.listOfBytes (bytes : List UInt8) : List Double := (Word.listOfBytes bytes).map Double.mk

/-! ### Arguments -/

namespace Offloaded

def controlPosition : Nat := 0

def matrixPosition : Nat := 1

def rightHandSidePosition : Nat := 2

def solutionPosition : Nat := 3

def statusPosition : Nat := 4

def residualPosition : Nat := 5

/-- The memory behind a position, with some bytes in it. -/
def cell (h : Host) (position : Nat) (bytes : List UInt8) : Cell :=
  ⟨h.argumentAddress position, bytes⟩

/-- The arguments of a solve. Solution, status and residual are zero before firmware writes them. -/
def arguments (h : Host) (algorithm : Algorithm) (a : Matrix Double) (b : Array Double) :
    Except AllocationError ArgumentList := do
  let control := algorithm.control (UInt64.ofNat b.size)
  let word : Footprint := .word 8
  let l : ArgumentList := {}
  let (l, _) := l.addScalar ⟨32, 8, by decide⟩ (cell h controlPosition control.bytes)
  let (l, _) ← l.addMatrix (h.argumentAddress matrixPosition) a .input
  let (l, _) := l.addBuffer word (cell h rightHandSidePosition (Double.listBytes b.toList))
  let (l, _) := l.addBuffer word
    (cell h solutionPosition (Double.listBytes (Vec.zeros b.size).toList)) .both
  let (l, _) := l.addScalar word (cell h statusPosition (Word.bytes 0)) .output
  let (l, _) := l.addScalar word (cell h residualPosition (Double.bytes 0)) .output
  return l

/-- What firmware has left in the memory of the arguments. -/
def readSolution (l : ArgumentList) : SolveResult Double :=
  let memory (position : Nat) : List UInt8 := (l.borrowedAt position).getD []
  let status := Word.ofBytes (memory statusPosition)
  if status.toInt64 < 0 then .error (.firmware status.toInt64)
  else .ok ⟨(Double.listOfBytes (memory solutionPosition)).toArray, status,
    Double.ofBytes (memory residualPosition)⟩

/-! ### Solving -/

/-- Solves on the device, in a session of its own. There is no result if the device never signals
completion. -/
def solve {σ : Type} (algorithm : Algorithm) (t : Transport σ) (h : Host) (settings : Settings)
    (a : Matrix Double) (b : Array Double) (machine : Machine σ) :
    Option (SolveResult Double) × Machine σ :=
  match validateSystem a b with
  | .error e => (some (.error e), machine)
  | .ok () => match arguments h algorithm a b with
    | .error fault => (some (.error (.offload (.ofAllocation fault))), machine)
    | .ok l =>
      let (r, outcome) :=
        Session.run { settings } t h algorithm.method.firmware l machine
      let result := match outcome with
        | .returned _ => some (readSolution r.arguments)
        | .failed fault => some (.error (.offload fault))
        | .waiting => none
      (result, r.toMachine)

end Offloaded

end AccelKrylov
