import AccelKrylov.Trap
import AccelKrylov.Matrix.Entries

/-! Reading a matrix on a machine that stops at a trap. Every offset, column and number is looked up in its
array, and every sum, difference, product and quotient of words has to be a word. Where the columns of all blocks
are words, those past the last column of the matrix included, this comes to what the rows hold. -/

namespace AccelKrylov

open Guarded

variable {ε α : Type}

def Element.guardedRead (values : Array α) (kind : ValueKind) (index : Word) :
    Guarded ε (Element α) :=
  match kind with
  | .real => return .real (← get values index)
  | .complex => do
    let re ← get values (← mul 2 index)
    let im ← get values (← add (← mul 2 index) 1)
    return .complex re im

namespace Compressed

def guardedSlots (c : Compressed α) (base i : Word) : Guarded ε (List Word) := do
  let start ← sub (← get c.offsets i) base
  let stop ← sub (← get c.offsets (← add i 1)) base
  return Word.range start stop

def guardedColumn (c : Compressed α) (base k : Word) : Guarded ε Word := do
  sub (← get c.columns k) base

end Compressed

namespace BlockRows

/-- The element in column `c` of line `line` of block `k`, if its column is one of the matrix. -/
def guardedEntry (b : BlockRows α) (cols : Word) (kind : ValueKind) (line k first c : Word) :
    Guarded ε (Option (Word × Element α)) := do
  let col ← add first c
  if col < cols then
    let block ← mul (← mul k b.blockSize) b.blockSize
    let index ← add (← add block (← mul line b.blockSize)) c
    return some (col, ← Element.guardedRead b.values kind index)
  else return none

def guardedRowEntries (b : BlockRows α) (base cols : Word) (kind : ValueKind) (i : Word) :
    Guarded ε (List (Word × Element α)) := do
  let blockRow ← div i b.blockSize
  let line ← mod i b.blockSize
  let blocks ← (← b.guardedSlots base blockRow).mapM fun k => do
    let first ← mul (← b.guardedColumn base k) b.blockSize
    let entries ← (Word.range 0 b.blockSize).mapM (b.guardedEntry cols kind line k first)
    return entries.filterMap id
  return blocks.flatten

/-- The rows before the runs that are left are those up to `first`. -/
def guardedEntriesOfRuns (base cols : Word) (kind : ValueKind) (row : Word) :
    (first : Word) → List (BlockRows α) → Guarded ε (List (Word × Element α))
  | _, [] => return []
  | first, run :: runs => do
    let next ← add first (← mul run.blockRows run.blockSize)
    if next ≤ row then guardedEntriesOfRuns base cols kind row next runs
    else run.guardedRowEntries base cols kind (← sub row first)

end BlockRows

def Matrix.guardedRowEntries (m : Matrix α) (row : Word) : Guarded ε (List (Word × Element α)) :=
  match m.storage with
  | .dense lda values => (Word.range 0 m.cols).mapM fun col => do
    let index ← add (← mul row lda) col
    return (col, ← Element.guardedRead values m.kind index)
  | .csr c _ => do
    (← c.guardedSlots m.base row).mapM fun k => do
      return (← c.guardedColumn m.base k, ← Element.guardedRead c.values m.kind k)
  | .bcsr runs _ => BlockRows.guardedEntriesOfRuns m.base m.cols m.kind row 0 runs

def Matrix.guardedGet? [Zero α] (m : Matrix α) (row col : Word) : Guarded ε (Option (Element α)) :=
  if row < m.rows ∧ col < m.cols then do
    return some (((← m.guardedRowEntries row).lookup col).getD (Element.zero m.kind))
  else return none

/-- How many elements are stored, the zeros inside blocks included. -/
def Matrix.nnz (m : Matrix α) : Guarded ε Word :=
  match m.storage with
  | .dense .. => mul m.rows m.cols
  | .csr entries _ => return UInt64.ofNat entries.columns.size
  | .bcsr runs _ => runs.foldlM (fun sum b => do
      add sum (← mul (← mul (UInt64.ofNat b.columns.size) b.blockSize) b.blockSize)) 0

end AccelKrylov
