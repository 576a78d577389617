import AccelKrylov.Wire.Reader
import AccelKrylov.Matrix.Build
import AccelKrylov.Double

/-! Matrices as flat blocks. A block opens with seven words: rows, columns, base index, leading
dimension, and the tags of format, value kind and representation. What follows depends on the format:
dense storage is its leading dimension and its values; compressed rows are their base index, four
flags, three arrays and the shared flag; block rows are the number of runs, two words and three arrays
for each run, and the shared flag. -/

namespace AccelKrylov

namespace Wire

/-! ### Writing -/

def numbers (values : Array Double) : Field := .array (values.toList.map Double.bits)

/-- The three arrays of compressed groups. -/
def compressedFields (c : Compressed Double) : List Field :=
  [.array c.offsets.toList, .array c.columns.toList, numbers c.values]

def runFields (b : BlockRows Double) : List Field :=
  .scalar b.blockSize :: .scalar b.blockRows :: compressedFields b.toCompressed

def storageFields (base : Word) : Storage Double → List Field
  | .dense lda values => [.scalar lda, numbers values]
  | .csr entries flags =>
    [.scalar base, .flag flags.unitDiagonal, .flag flags.sorted, .flag flags.upper,
      .flag flags.lower] ++ compressedFields entries ++ [.flag flags.shared]
  | .bcsr runs shared =>
    .scalar (UInt64.ofNat runs.length) :: runs.flatMap runFields ++ [.flag shared]

end Wire

namespace Matrix

open Wire

/-- The fields of a matrix's block. -/
def fields (m : Matrix Double) : List Field :=
  [.scalar m.rows, .scalar m.cols, .scalar m.base, .scalar m.leadingDimension,
    .scalar m.format.tag, .scalar m.kind.tag, .scalar m.representation.tag] ++
    storageFields m.base m.storage

/-- How many bytes the block of a matrix takes. -/
def encodedSize (m : Matrix Double) : Nat := Wire.size m.fields

/-- The block of a matrix. -/
def encode (m : Matrix Double) : List UInt8 := Wire.bytes m.fields

/-- Puts the block of a matrix over the front of `out`, as far as it fits in segments; says whether all
did. -/
def encodeInto (m : Matrix Double) (out : List UInt8) : Bool × List UInt8 := Wire.write m.fields out

end Matrix

namespace Wire

/-! ### Reading -/

open ByteReader

section
variable {μ : Type → Type} [ByteReader μ]

def readNumbers (what : String) : μ (Array Double) :=
  return ((← array what).map Double.mk).toArray

/-- Reads the three arrays of compressed groups. -/
def readCompressed (what : String) : μ (Compressed Double) := do
  let offsets ← array (what ++ " row pointer")
  let columns ← array (what ++ " column indices")
  let values ← readNumbers (what ++ " values")
  return ⟨offsets.toArray, columns.toArray, values⟩

def readRun : μ (BlockRows Double) := do
  let blockSize ← scalar "BCSR block size"
  let blockRows ← scalar "BCSR block rows"
  let entries ← readCompressed "BCSR"
  return { toCompressed := entries, blockSize, blockRows }

def readRuns : Nat → μ (List (BlockRows Double))
  | 0 => return []
  | n + 1 => return (← readRun) :: (← readRuns n)

/-- Reads what follows the seven words of a block. -/
def readStorage (rows base leadingDimension : Word) : StorageFormat → μ (Storage Double)
  | .dense => do
    let lda ← scalar "dense lda"
    if lda ≠ leadingDimension then fail (.malformed (.leadingDimension lda leadingDimension))
    else return .dense lda (← readNumbers "dense values")
  | .csr => do
    let own ← scalar "CSR base index"
    if own ≠ base then fail (.malformed (.base own base))
    else
      let unitDiagonal ← flag "unit diagonal flag"
      let sorted ← flag "sorted flag"
      let upper ← flag "upper flag"
      let lower ← flag "lower flag"
      let entries ← readCompressed "CSR"
      let shared ← flag "shared flag"
      return .csr entries { unitDiagonal, sorted, upper, lower, shared }
  | .bcsr => do
    let count ← scalar "BCSR chunk count"
    if count = 0 ∨ max rows 1 < count then fail (.malformed (.runCount count rows))
    else
      let runs ← readRuns count.toNat
      return .bcsr runs (← flag "shared flag")

/-- What a block says of a matrix, whether the arrays fit the dimensions or not. -/
structure Parts where
  rows : Word
  cols : Word
  base : Word
  kind : ValueKind
  representation : Representation
  storage : Storage Double
deriving DecidableEq

def readParts : μ Parts := do
  let rows ← scalar "row count"
  let cols ← scalar "column count"
  let base ← scalar "base index"
  let leadingDimension ← scalar "leading dimension"
  let format ← tagged (StorageFormat.ofTag (← scalar "storage format"))
  let kind ← tagged (ValueKind.ofTag (← scalar "value kind"))
  let representation ← tagged (Representation.ofTag (← scalar "representation"))
  let storage ← readStorage rows base leadingDimension format
  return { rows, cols, base, kind, representation, storage }

end

namespace Parts

def ofMatrix (m : Matrix Double) : Parts :=
  ⟨m.rows, m.cols, m.base, m.kind, m.representation, m.storage⟩

/-- The matrix, if the arrays fit the dimensions as they do in every matrix. -/
def toMatrix (p : Parts) : Except ShapeError (Matrix Double) :=
  (Matrix.ofStorage p.rows p.cols p.base p.kind p.storage).map
    (·.withRepresentation p.representation)

end Parts

def readMatrix : Reader (Matrix Double) := do
  let p ← readParts
  match p.toMatrix with
  | .ok m => return m
  | .error fault => throw (.malformed (.shape fault))

/-- The matrix at the front of some bytes, and how many bytes it takes. -/
def decodeWithSize (bytes : List UInt8) : Except DecodeError (Matrix Double × Nat) :=
  readMatrix bytes 0

/-- The matrix at the front of some bytes. -/
def decode (bytes : List UInt8) : Except DecodeError (Matrix Double) :=
  (decodeWithSize bytes).map Prod.fst

/-- How many bytes the matrix at the front of some bytes takes. -/
def decodedSize (bytes : List UInt8) : Except DecodeError Nat :=
  (decodeWithSize bytes).map Prod.snd

/-! ### Blocks in memory -/

/-- The block of a matrix in memory, with the positions of its arrays. -/
structure Flat where
  block : Buffer
  arrayOffsets : List Nat
deriving DecidableEq

namespace Flat

/-- Writes the block of a matrix into fresh memory. -/
def ofMatrix (m : Matrix Double) : Except AllocationError Flat := do
  let block ← Buffer.zeroed m.encodedSize (UInt64.ofNat arrayAlignment)
  return ⟨{ block with bytes := (m.encodeInto block.bytes).2 }, Wire.arrayOffsets m.fields⟩

def toMatrix (f : Flat) : Except DecodeError (Matrix Double) := decode f.block.bytes

end Flat

end Wire

end AccelKrylov
