import AccelKrylov.Matrix.Guarded
import AccelKrylov.Wire.Matrix
import AccelKrylov.Error

/-! Reading a matrix on a machine that stops at a trap. The reader takes the same steps as the one on
plain numbers, but counts bytes in a word and finds multiples of an alignment by bit operations. -/

namespace AccelKrylov.Wire

/-- A computation that has bytes at hand and a position in them, kept in a word. -/
abbrev WordReader := ReaderT (List UInt8) (StateT Word (Guarded DecodeError))

namespace WordReader

open Guarded

/-- The next `n` bytes. -/
def take (n : Word) (what : String) : WordReader (List UInt8) := fun bytes offset =>
  match (Word.checkedAdd offset n).filter (fun stop => decide (stop.toNat ≤ bytes.length)) with
  | none => lift (.error (.malformed (.truncated what n.toNat offset.toNat bytes.length)))
  | some stop => do
    let taken ← slice bytes offset stop
    return (taken, stop)

/-- Passes over the bytes before the next multiple of `align`. -/
def skipTo (align : Word) (what : String) : WordReader Unit := fun bytes offset => do
  let target ← alignUp offset align
  let gap ← sub target offset
  let (_, offset) ← take gap what bytes offset
  return ((), offset)

instance : ByteReader WordReader where
  take := take
  skipTo := skipTo
  fail e := fun _ _ => lift (.error e)

end WordReader

/-- What an error in the arrays of a block is reported as. -/
def reportShape : Error → Error
  | .invalidDimensions text => .malformedBuffer text
  | e => e

/-- The parts of the matrix at the front of some bytes, checked, and how many bytes they take. -/
def guardedDecode (bytes : List UInt8) : Guarded Error (Parts × Word) := do
  let (p, stop) ← (readParts (μ := WordReader) bytes 0).adapt .ofDecode
  (p.storage.guardedCheck p.rows p.cols p.base p.kind).adapt fun fault => reportShape (.ofShape fault)
  return (p, stop)

end AccelKrylov.Wire
