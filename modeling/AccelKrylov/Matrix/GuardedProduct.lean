import AccelKrylov.Matrix.GuardedEntries
import AccelKrylov.Matrix.Product

/-! Products over a range of rows on a machine that stops at a trap. Beside what reading a row needs, every
entry of a vector is looked up where a row's element is multiplied with it or added to it. -/

namespace AccelKrylov.Matrix

open Guarded

variable {α : Type} [Zero α] [Add α] [Mul α]

def guardedRowProduct (m : Matrix α) (x : Array α) (row : Word) : Guarded ProductError α := do
  (← m.guardedRowEntries row).foldlM (fun sum (col, e) => do return sum + e.re * (← get x col)) 0

def guardedProductRows (m : Matrix α) (range : RowRange) (x : Array α) :
    Guarded ProductError (Array α) := do
  lift (ensure (m.kind = .real) (.notReal false))
  lift (ensure (x.size = m.cols.toNat ∧ range.stop ≤ m.rows)
    (.shape false range m.rows m.cols x.size))
  return (← (Word.range range.start range.stop).mapM (m.guardedRowProduct x)).toArray

def guardedAddRow (m : Matrix α) (row : Word) (s : α) (y : Array α) :
    Guarded ProductError (Array α) := do
  (← m.guardedRowEntries row).foldlM
    (fun y (col, e) => do return y.setIfInBounds col.toNat ((← get y col) + e.re * s)) y

def guardedTransposeProductRows (m : Matrix α) (range : RowRange) (x : Array α) :
    Guarded ProductError (Array α) := do
  lift (ensure (m.kind = .real) (.notReal true))
  lift (ensure (x.size = m.rows.toNat ∧ range.stop ≤ m.rows)
    (.shape true range m.rows m.cols x.size))
  (Word.range range.start range.stop).foldlM
    (fun y row => do m.guardedAddRow row (← get x row) y) (Vec.zeros m.cols.toNat)

end AccelKrylov.Matrix
