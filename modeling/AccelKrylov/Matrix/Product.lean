import AccelKrylov.Matrix.Entries

/-! Products of a real matrix with a vector, over a range of its rows. Both visit the rows in order and
a row's elements in storage order, and add every term to a sum that starts at zero. -/

namespace AccelKrylov

/-- The rows from `start` up to, not including, `stop`. -/
structure RowRange where
  start : Word
  stop : Word
deriving DecidableEq

/-- Why a product is refused. -/
inductive ProductError where
  | notReal (transposed : Bool)
  | shape (transposed : Bool) (range : RowRange) (rows cols : Word) (length : Nat)
deriving DecidableEq

namespace ProductError

def operation (transposed : Bool) : String := if transposed then "transpose matvec" else "matvec"

def message : ProductError → String
  | notReal t => operation t ++ " is only implemented for real matrices"
  | shape t ⟨start, stop⟩ rows cols length =>
    operation t ++ s!" over rows {start}..{stop} of a {rows}x{cols} matrix with x of length {length}"

end ProductError

namespace Matrix

variable {α : Type} [Zero α] [Add α] [Mul α]

/-- The sum of a row's elements times the entries of `x` in their columns. -/
def rowProduct (m : Matrix α) (x : Array α) (row : Word) : α :=
  (m.rowEntries row).foldl (fun sum (col, e) => sum + e.re * x.getD col.toNat 0) 0

/-- The entries of `A x` for a range of rows. -/
def productRows (m : Matrix α) (range : RowRange) (x : Array α) :
    Except ProductError (Array α) := do
  ensure (m.kind = .real) (.notReal false)
  ensure (x.size = m.cols.toNat ∧ range.stop ≤ m.rows)
    (.shape false range m.rows m.cols x.size)
  .ok ((Word.range range.start range.stop).map (m.rowProduct x)).toArray

/-- Adds a row's elements times `s` to the entries of `y` in their columns. -/
def addRow (m : Matrix α) (row : Word) (s : α) (y : Array α) : Array α :=
  (m.rowEntries row).foldl (fun y (col, e) => y.modify col.toNat (· + e.re * s)) y

/-- What a range of rows contributes to the product of the transposed matrix with `x`. -/
def transposeProductRows (m : Matrix α) (range : RowRange) (x : Array α) :
    Except ProductError (Array α) := do
  ensure (m.kind = .real) (.notReal true)
  ensure (x.size = m.rows.toNat ∧ range.stop ≤ m.rows)
    (.shape true range m.rows m.cols x.size)
  .ok ((Word.range range.start range.stop).foldl
    (fun y row => m.addRow row (x.getD row.toNat 0) y) (Vec.zeros m.cols.toNat))

/-- All rows. -/
def allRows (m : Matrix α) : RowRange := ⟨0, m.rows⟩

/-- The product `A x`. -/
def product (m : Matrix α) (x : Array α) : Except ProductError (Array α) :=
  m.productRows m.allRows x

/-- The product of the transposed matrix with `x`. -/
def transposeProduct (m : Matrix α) (x : Array α) : Except ProductError (Array α) :=
  m.transposeProductRows m.allRows x

end Matrix

end AccelKrylov
