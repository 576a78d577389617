import AccelKrylov.Matrix.Basic

/-! When stored arrays fit the dimensions of a matrix. `Storage.check` runs through the conditions in
a fixed order and reports the first one that fails. All sizes are words, and a size that does not fit
a word is itself a fault. -/

namespace AccelKrylov

/-- A size that is the product of several dimensions. -/
inductive Extent where
  | denseValues | values | blockValues | runRows
deriving DecidableEq

def Extent.name : Extent → String
  | denseValues => "dense value count"
  | values => "value count"
  | blockValues => "BCSR block value count"
  | runRows => "BCSR chunk rows"

/-- Why stored arrays do not make a matrix. -/
inductive ShapeError where
  | leadingDimension (lda cols : Word)
  | overflow (what : Extent)
  | dataLength (length : Nat) (rows cols lda : Word)
  | ragged
  | base (base : Word)
  | rowCount (rows : Word)
  | offsetCount (expected : Word) (count : Nat)
  | firstOffset (base : Word)
  | decreasingOffsets
  | entryCount (implied : Word) (count : Nat)
  | valueCount (expected : Word) (count : Nat)
  | column
  | row
  | noRuns
  | blockSize
  | coverageOverflow
  | coverage (covered rows : Word)
  | denseBase (base : Word)
deriving DecidableEq

def ShapeError.message : ShapeError → String
  | leadingDimension lda cols =>
    s!"Leading dimension ({lda}) must be at least the column count ({cols})"
  | overflow what => what.name ++ " overflows usize"
  | dataLength length rows cols lda =>
    s!"Data length ({length}) does not match dimensions ({rows}x{cols}, lda {lda})"
  | ragged => "Input dense matrix must be rectangular"
  | base b => s!"base index must be 0 or 1, got {b}"
  | rowCount rows => s!"row count {rows} overflows usize"
  | offsetCount expected count => s!"row_ptr length must be rows + 1 ({expected}), got {count}"
  | firstOffset b => s!"First element of row_ptr must equal the base index {b}"
  | decreasingOffsets => "row_ptr must be non-decreasing"
  | entryCount implied count =>
    s!"Last element of row_ptr implies {implied} entries, col_indices has {count}"
  | valueCount expected count =>
    s!"values and col_indices disagree: expected {expected} values, got {count}"
  | column => "Column index out of bounds"
  | row => "Row index out of bounds"
  | noRuns => "BCSR matrix needs at least one block-row chunk"
  | blockSize => "BCSR block size must be positive"
  | coverageOverflow => "BCSR row coverage overflows usize"
  | coverage covered rows => s!"BCSR chunks cover {covered} rows, matrix has {rows}"
  | denseBase b => s!"dense matrix carries base index {b}"

/-- A product of dimensions, or the fault that it needs more than a word. -/
def extent (factors : List Word) (what : Extent) : Except ShapeError Word :=
  match Word.checkedProduct factors with
  | some n => .ok n
  | none => .error (.overflow what)

/-- Some offset is smaller than the one before it. -/
def decreases : List Word → Bool
  | a :: b :: rest => decide (b < a) || decreases (b :: rest)
  | _ => false

namespace Compressed

variable {α : Type}

/-- The groups number `outer`, columns lie below `limit`, and every entry has `stride` numbers. -/
def check (c : Compressed α) (outer limit base stride : Word) : Except ShapeError Unit :=
  match Word.checkedAdd outer 1 with
  | none => .error (.rowCount outer)
  | some expected => do
    ensure (c.offsets.size = expected.toNat) (.offsetCount expected c.offsets.size)
    ensure (c.offsets[0]? = some base) (.firstOffset base)
    ensure (decreases c.offsets.toList = false) .decreasingOffsets
    let entries := c.offsets.getD outer.toNat base - base
    ensure (c.columns.size = entries.toNat) (.entryCount entries c.columns.size)
    let count ← extent [entries, stride] .values
    ensure (c.values.size = count.toNat) (.valueCount count c.values.size)
    ensure (c.columns.all (fun j => decide (base ≤ j ∧ j - base < limit)) = true) .column

end Compressed

def checkBase (base : Word) : Except ShapeError Unit := ensure (base ≤ 1) (.base base)

/-- Checks runs of block rows in order and returns how many rows they and `covered` earlier ones
come to. -/
def BlockRows.checkRuns {α : Type} (cols base : Word) (kind : ValueKind) :
    (covered : Word) → List (BlockRows α) → Except ShapeError Word
  | covered, [] => .ok covered
  | covered, run :: runs => do
    ensure (run.blockSize ≠ 0) .blockSize
    let stride ← extent [run.blockSize, run.blockSize, kind.width] .blockValues
    run.toCompressed.check run.blockRows (cols.ceilDiv run.blockSize) base stride
    let rows ← extent [run.blockRows, run.blockSize] .runRows
    match Word.checkedAdd rows covered with
    | none => .error .coverageOverflow
    | some covered => checkRuns cols base kind covered runs

/-- The arrays are those of a `rows` by `cols` matrix whose indices count from `base`. -/
def Storage.check {α : Type} (rows cols base : Word) (kind : ValueKind) :
    Storage α → Except ShapeError Unit
  | .dense lda values => do
    ensure (cols ≤ lda) (.leadingDimension lda cols)
    let count ← extent [rows, lda, kind.width] .denseValues
    ensure (values.size = count.toNat) (.dataLength values.size rows cols lda)
    ensure (base = 0) (.denseBase base)
  | .csr entries _ => do
    checkBase base
    entries.check rows cols base kind.width
  | .bcsr runs _ => do
    checkBase base
    ensure (runs ≠ []) .noRuns
    let covered ← BlockRows.checkRuns cols base kind 0 runs
    ensure (covered = rows) (.coverage covered rows)

end AccelKrylov
