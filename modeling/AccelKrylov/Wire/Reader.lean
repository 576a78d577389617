import AccelKrylov.Wire.Layout
import AccelKrylov.Matrix.Shape

/-! Reading the fields of a block back, in order and without leaving the bytes at hand. A reader
remembers how far it has come. -/

namespace AccelKrylov.Wire

/-- What is wrong with bytes that do not hold a matrix. -/
inductive Malformation where
  | truncated (what : String) (needed offset held : Nat)
  | arrayLength (what : String) (length : Word)
  | leadingDimension (lda header : Word)
  | base (base header : Word)
  | runCount (count rows : Word)
  | shape (fault : ShapeError)
deriving DecidableEq

def Malformation.message : Malformation → String
  | truncated what needed offset held =>
    what ++ s!" needs {needed} bytes at offset {offset}, buffer holds {held}"
  | arrayLength what length => what ++ s!" byte length {length} is not a multiple of 8"
  | leadingDimension lda header =>
    s!"dense lda {lda} disagrees with header leading dimension {header}"
  | base b header => s!"CSR base index {b} disagrees with header base index {header}"
  | runCount count rows => s!"BCSR chunk count {count} is impossible for {rows} rows"
  | shape fault => fault.message

/-- Why bytes do not hold a matrix. -/
inductive DecodeError where
  | unsupported (tag : UnknownTag)
  | malformed (fault : Malformation)
deriving DecidableEq

/-- What reads bytes in order. It takes the next ones, passes over those before a multiple of an
alignment, and gives up with an error; how it counts them is its own affair. -/
class ByteReader (μ : Type → Type) extends Monad μ where
  take (n : Word) (what : String) : μ (List UInt8)
  skipTo (align : Word) (what : String) : μ Unit
  fail {β : Type} (e : DecodeError) : μ β

/-! ### Fields -/

namespace ByteReader

variable {μ : Type → Type} [ByteReader μ]

def scalar (what : String) : μ Word := do
  skipTo (UInt64.ofNat scalarAlignment) what
  return Word.ofBytes (← take 8 what)

/-- A truth value: any word but zero is true. -/
def flag (what : String) : μ Bool := return (← scalar what) != 0

def array (what : String) : μ (List Word) := do
  let length ← scalar what
  if length % 8 ≠ 0 then fail (.malformed (.arrayLength what length))
  else
    skipTo (UInt64.ofNat arrayAlignment) what
    return Word.listOfBytes (← take length what)

/-- Lifts a look-up of a tag. -/
def tagged {β : Type} (result : Except UnknownTag β) : μ β :=
  match result with
  | .ok b => pure b
  | .error tag => fail (.unsupported tag)

end ByteReader

/-! ### Bytes at hand -/

/-- A computation that has bytes at hand and a position in them. -/
abbrev Reader := ReaderT (List UInt8) (StateT Nat (Except DecodeError))

namespace Reader

/-- The next `n` bytes. -/
def take (n : Nat) (what : String) : Reader (List UInt8) := fun bytes offset =>
  if offset + n ≤ bytes.length then .ok ((bytes.drop offset).take n, offset + n)
  else .error (.malformed (.truncated what n offset bytes.length))

/-- Passes over the bytes before the next multiple of `align`. -/
def skipTo (align : Nat) (what : String) : Reader Unit := fun bytes offset => do
  let (_, offset) ← take (padding offset align) what bytes offset
  .ok ((), offset)

instance : ByteReader Reader where
  take n what := take n.toNat what
  skipTo align what := skipTo align.toNat what
  fail e := throw e

end Reader

end AccelKrylov.Wire
