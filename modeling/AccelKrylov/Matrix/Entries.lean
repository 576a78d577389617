import AccelKrylov.Matrix.Build

/-! What a matrix holds, row by row. `rowEntries` lists what is stored in a row, in storage order; elements and
products are both read off that list. `Matrix.guardedRowEntries` works it out word by word. -/

namespace AccelKrylov

variable {α : Type} [Zero α]

namespace Compressed

/-- The slots of group `i`. -/
def slots (c : Compressed α) (base i : Word) : List Word :=
  Word.range (c.offsets.getD i.toNat base - base) (c.offsets.getD (i + 1).toNat base - base)

/-- The column or block column of slot `k`, counted from zero. -/
def column (c : Compressed α) (base k : Word) : Word := c.columns.getD k.toNat base - base

end Compressed

namespace BlockRows

/-- What a run stores in its row `i`: for each block of the block row, the block's row, without the
columns past the last one of the matrix. -/
def rowEntries (b : BlockRows α) (base cols : Word) (kind : ValueKind) (i : Word) :
    List (Word × Element α) :=
  (b.slots base (i / b.blockSize)).flatMap fun k =>
    let first := b.column base k * b.blockSize
    (Word.range 0 b.blockSize).filterMap fun c =>
      if first.toNat + c.toNat < cols.toNat then
        some (first + c, Element.read b.values kind
          (k * b.blockSize * b.blockSize + i % b.blockSize * b.blockSize + c))
      else none

/-- What the run that holds row `i` stores in it, the rows counted from the first run on. -/
def entriesOfRuns (base cols : Word) (kind : ValueKind) :
    List (BlockRows α) → Word → List (Word × Element α)
  | [], _ => []
  | run :: runs, i =>
    if run.rows ≤ i then entriesOfRuns base cols kind runs (i - run.rows)
    else run.rowEntries base cols kind i

end BlockRows

namespace Matrix

/-- The stored elements of a row with their columns, counted from zero, in storage order. -/
def rowEntries (m : Matrix α) (row : Word) : List (Word × Element α) :=
  match m.storage with
  | .dense lda values =>
    (Word.range 0 m.cols).map fun col => (col, Element.read values m.kind (row * lda + col))
  | .csr c _ =>
    (c.slots m.base row).map fun k => (c.column m.base k, Element.read c.values m.kind k)
  | .bcsr runs _ => BlockRows.entriesOfRuns m.base m.cols m.kind runs row

/-- The element at a row and a column, counted from zero: the first one stored there, or zero. -/
def get? (m : Matrix α) (row col : Word) : Option (Element α) :=
  if row < m.rows ∧ col < m.cols then
    some (((m.rowEntries row).lookup col).getD (Element.zero m.kind))
  else none

end Matrix

end AccelKrylov
