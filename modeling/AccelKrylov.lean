import AccelKrylov.Config.Document
import AccelKrylov.Session.Interleaving
import AccelKrylov.Signal.Reclaim
import AccelKrylov.Solver
import AccelKrylov.Proofs.Wire.Header
import AccelKrylov.Proofs.Wire.Framed
import AccelKrylov.Proofs.Argument.ReadBack
import AccelKrylov.Proofs.Argument.Bijection
import AccelKrylov.Proofs.Argument.InPlace
import AccelKrylov.Proofs.Session.Returned
import AccelKrylov.Proofs.Matrix.Traversal
import AccelKrylov.Proofs.Matrix.Access
import AccelKrylov.Proofs.Solver.Residuals
import AccelKrylov.Proofs.Solver.SerialProduct
import AccelKrylov.Proofs.Solver.Termination
import AccelKrylov.Proofs.Solver.Offloaded
import AccelKrylov.Proofs.Solver.Symmetric
import AccelKrylov.Proofs.Solver.JobCount
import AccelKrylov.Proofs.Matrix.Adjoint
import AccelKrylov.Proofs.Solver.ArrivalOrder
import AccelKrylov.Proofs.Matrix.Assembly
import AccelKrylov.Proofs.Wire.Pieces
import AccelKrylov.Proofs.Solver.Refusals
import AccelKrylov.Proofs.Argument.Overwrite
import AccelKrylov.Proofs.Matrix.Overhang
import AccelKrylov.Proofs.Matrix.Extents
import AccelKrylov.Proofs.Signal.Restore
import AccelKrylov.Proofs.Signal.Reclaim
import AccelKrylov.Proofs.Text.Numeral
import AccelKrylov.Proofs.Config.Environment
import AccelKrylov.Proofs.Session.Turns
import AccelKrylov.Proofs.Session.Undisturbed
import AccelKrylov.Proofs.Solver.Range
import AccelKrylov.Proofs.Solver.Divisors
