import AccelKrylov.Matrix.Guarded

/-! Assembling compressed rows from elements given in any order: sort by row and column, count the
elements of each row, and turn the counts into offsets. The table of offsets is made before anything is known of
the number of rows, and every entry that is counted in or added up is looked up. -/

namespace AccelKrylov

open Guarded

/-- One element with its coordinates, counted from zero. -/
structure Triplet (α : Type) where
  row : Word
  col : Word
  value : α
deriving DecidableEq

namespace Triplet

variable {α : Type}

/-- Row by row, and within a row from left to right. -/
def before (a b : Triplet α) : Bool :=
  decide (a.row < b.row) || (a.row == b.row && decide (a.col ≤ b.col))

/-- Adds one to the table entry behind the row of each element, as long as all coordinates are in
range. -/
def countRows (rows cols : Word) : List (Triplet α) → Array Word → Guarded ShapeError (Array Word)
  | [], table => return table
  | t :: rest, table => do
    lift (ensure (t.row < rows) .row)
    lift (ensure (t.col < cols) .column)
    let slot ← add t.row 1
    let count ← add (← get table slot) 1
    countRows rows cols rest (table.setIfInBounds slot.toNat count)

/-- Adds to an entry of a table the one before it. -/
def addPrevious (table : Array Word) (i : Word) : Guarded ShapeError (Array Word) := do
  let previous ← get table (← sub i 1)
  let sum ← add (← get table i) previous
  return table.setIfInBounds i.toNat sum

/-- The sums of all initial stretches of a table that has one entry more than there are rows, each from the one
before it. -/
def runningSums (rows : Word) (table : Array Word) : Guarded ShapeError (Array Word) :=
  ((List.range rows.toNat).map fun i => UInt64.ofNat (i + 1)).foldlM addPrevious table

end Triplet

variable {α : Type}

/-- A real matrix of sorted compressed rows from elements in the order in which it stores them. -/
def Matrix.ofSorted (rows cols : Word) (sorted : List (Triplet α)) : Guarded ShapeError (Matrix α) := do
  let counts ← Triplet.countRows rows cols sorted (← zeros (← add rows 1))
  let offsets ← Triplet.runningSums rows counts
  let entries : Compressed α :=
    ⟨offsets, (sorted.map Triplet.col).toArray, (sorted.map Triplet.value).toArray⟩
  guardedOfStorage rows cols 0 .real (.csr entries { sorted := true })

/-- A real matrix of sorted compressed rows from elements in any order. -/
def Matrix.ofTriplets (rows cols : Word) (triplets : List (Triplet α)) : Guarded ShapeError (Matrix α) :=
  ofSorted rows cols (triplets.mergeSort Triplet.before)

end AccelKrylov
