import AccelKrylov.Solver.Offloaded
import AccelKrylov.Solver.RowSplit
import AccelKrylov.Solver.ConjugateGradient
import AccelKrylov.Solver.BiconjugateGradient
import AccelKrylov.Config.Environment

/-! The solver: it sends a solve to the device or does it with a pool of its own, as its settings say. -/

namespace AccelKrylov

/-- Solves with the products of an operator. One method has firmware only. -/
def Algorithm.solveWith {τ : Type} (algorithm : Algorithm) (op : Operator τ Double) (a : Matrix Double)
    (b : Array Double) (w : τ) : SolveResult Double × τ :=
  match algorithm.method with
  | .quasiMinimalResidual =>
    (.error (.unsupported "QMR has no local implementation; enable offloading"), w)
  | .conjugateGradient => match validateSystem a b with
    | .error e => (.error e, w)
    | .ok () => ConjugateGradient.solve op b algorithm.tolerance algorithm.maxIterations w
  | .biconjugateGradient => match validateSystem a b with
    | .error e => (.error e, w)
    | .ok () => BiconjugateGradient.solve op b algorithm.tolerance algorithm.maxIterations w

/-- Solves with a pool. -/
def Algorithm.solveLocally (algorithm : Algorithm) (split : RowSplit) (a : Matrix Double)
    (b : Array Double) (pool : Pool RowRange) : SolveResult Double × Pool RowRange :=
  algorithm.solveWith (split.operator a) a b pool

/-- A solver with its pool and its way to the device. -/
structure Solver (σ : Type) where
  settings : Settings
  pool : Pool RowRange
  transport : Transport σ

namespace Solver

variable {σ : Type}

/-! ### Making solvers -/

/-- A solver that reaches its device through a transport. -/
def withTransport (settings : Settings) (transport : Transport σ) :
    Except (SolveError Double) (Solver σ) := do
  settings.validate.mapError .offload
  let pool ← (Pool.start settings.pool.workers).mapError fun fault => .offload (.ofPool fault)
  return ⟨settings, pool, transport⟩

/-- A solver that reaches the device file of its settings. -/
def ofSettings (files : FileSystem) (settings : Settings) :
    Except (SolveError Double) (Solver Unit) :=
  withTransport settings (.deviceFile files settings.devicePath)

/-- A solver with the settings that a look-up of names gives. -/
def ofLookup (files : FileSystem) (processors : Word) (lookUp : String → Option String) :
    Except (SolveError Double) (Solver Unit) := do
  ofSettings files (← (Settings.ofLookup processors lookUp).mapError .offload)

/-! ### Using solvers -/

/-- Solves a system. There is no result if the device never signals completion. -/
def solve (s : Solver σ) (h : Host) (arrival : Arrival) (algorithm : Algorithm) (a : Matrix Double)
    (b : Array Double) (machine : Machine σ) :
    Option (SolveResult Double) × Solver σ × Machine σ :=
  if s.settings.offload then
    let (result, machine) := Offloaded.solve algorithm s.transport h s.settings a b machine
    (result, s, machine)
  else
    let split := RowSplit.ofRows s.settings.pool.chunkRows arrival
    let (result, pool) := algorithm.solveLocally split a b s.pool
    -- the results of jobs come before the jobs are counted
    (some result, { s with pool := pool.settle .calm }, machine)

/-- Tells the device to give up whatever firmware is running. -/
def stop (s : Solver σ) (machine : Machine σ) : Except (SolveError Double) Unit × Machine σ :=
  let reply := s.transport.stop machine.device
  (reply.outcome.mapError .offload, { machine with device := reply.device })

/-- Copies bytes at an address to device memory in a number of chunks. -/
def initMemory (s : Solver σ) (destination address : Word) (data : List UInt8) (chunks : Word)
    (machine : Machine σ) : Except (SolveError Double) Unit × Machine σ :=
  let reply := s.transport.initMemory machine.device destination address data chunks
  (reply.outcome.mapError .offload, { machine with device := reply.device })

/-- Ends the workers; local solves fail from then on. -/
def shutdown (s : Solver σ) : Solver σ := { s with pool := s.pool.shutdown .calm }

end Solver

end AccelKrylov
