import AccelKrylov.Trap
import AccelKrylov.Matrix.Build

/-! Making matrices on a machine that stops at a trap: each slot of the stored arrays is looked up, each
difference and each quotient is taken where their check comes to need it, and nothing earlier. -/

namespace AccelKrylov

open Guarded

variable {α : Type}

/-- The column lies below `base` or `limit` and more above it. -/
def outside (base limit column : Word) : Guarded ShapeError Bool := do
  if column < base then return true
  else
    let index ← sub column base
    return decide (limit ≤ index)

def Compressed.guardedCheck (c : Compressed α) (outer limit base stride : Word) :
    Guarded ShapeError Unit :=
  match Word.checkedAdd outer 1 with
  | none => lift (.error (.rowCount outer))
  | some expected => do
    lift (ensure (c.offsets.size = expected.toNat) (.offsetCount expected c.offsets.size))
    let first ← get c.offsets 0
    lift (ensure (first = base) (.firstOffset base))
    lift (ensure (decreases c.offsets.toList = false) .decreasingOffsets)
    let last ← get c.offsets outer
    let entries ← sub last base
    lift (ensure (c.columns.size = entries.toNat) (.entryCount entries c.columns.size))
    let count ← lift (extent [entries, stride] .values)
    lift (ensure (c.values.size = count.toNat) (.valueCount count c.values.size))
    let stray ← c.columns.toList.anyM (outside base limit)
    lift (ensure (stray = false) .column)

def BlockRows.guardedCheckRuns (cols base : Word) (kind : ValueKind) :
    (covered : Word) → List (BlockRows α) → Guarded ShapeError Word
  | covered, [] => lift (.ok covered)
  | covered, run :: runs => do
    lift (ensure (run.blockSize ≠ 0) .blockSize)
    let blockCols ← ceilDiv cols run.blockSize
    let stride ← lift (extent [run.blockSize, run.blockSize, kind.width] .blockValues)
    run.toCompressed.guardedCheck run.blockRows blockCols base stride
    let rows ← lift (extent [run.blockRows, run.blockSize] .runRows)
    match Word.checkedAdd rows covered with
    | none => lift (.error .coverageOverflow)
    | some covered => guardedCheckRuns cols base kind covered runs

def Storage.guardedCheck (rows cols base : Word) (kind : ValueKind) :
    Storage α → Guarded ShapeError Unit
  | .dense lda values => lift (Storage.check rows cols base kind (.dense lda values))
  | .csr entries _ => do
    lift (checkBase base)
    entries.guardedCheck rows cols base kind.width
  | .bcsr runs _ => do
    lift (checkBase base)
    lift (ensure (runs ≠ []) .noRuns)
    let covered ← BlockRows.guardedCheckRuns cols base kind 0 runs
    lift (ensure (covered = rows) (.coverage covered rows))

/-- The matrix with given dimensions and storage, once that is checked. -/
def Matrix.guardedOfStorage (rows cols base : Word) (kind : ValueKind) (storage : Storage α) :
    Guarded ShapeError (Matrix α) := do
  storage.guardedCheck rows cols base kind
  lift (ofStorage rows cols base kind storage)

end AccelKrylov
