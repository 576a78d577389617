import AccelKrylov.Argument.Descriptor
import AccelKrylov.Wire.Matrix

/-! The arguments of a device call, in order: position in the list is what the device goes by. Numbers
and arrays stay in the caller's memory, which the list borrows; matrices are written into blocks that
the list owns. -/

namespace AccelKrylov

/-- The size and alignment of the values of one kind. -/
structure Footprint where
  size : Word
  align : Word
  aligned : align.isPowerOfTwo = true := by decide

/-- A value whose alignment is its size. -/
def Footprint.word (size : Word) (h : size.isPowerOfTwo = true := by decide) : Footprint :=
  ⟨size, size, h⟩

/-- Bytes of the caller's, and where they are. -/
structure Cell where
  address : Word
  bytes : List UInt8
deriving DecidableEq

/-- A matrix's block, and where it is. -/
structure Blob where
  address : Word
  flat : Wire.Flat
deriving DecidableEq

structure ArgumentList where
  descriptors : List Descriptor := []
  /-- The blocks of matrix arguments, by position. -/
  blobs : List (Nat × Blob) := []
  /-- The caller's memory behind the other arguments, by position. -/
  borrowed : List (Nat × List UInt8) := []
deriving DecidableEq

/-- Why an argument is no matrix. -/
inductive MatrixArgumentError where
  | notMatrix (position : Nat)
  | decode (fault : Wire.DecodeError)
deriving DecidableEq

namespace ArgumentList

/-- Single values are at least this aligned. -/
def scalarAlignment : Word := 64

def size (l : ArgumentList) : Nat := l.descriptors.length

def isEmpty (l : ArgumentList) : Bool := l.descriptors.isEmpty

/-! ### Adding arguments -/

/-- Adds a descriptor at the end; returns its position too. -/
def push (l : ArgumentList) (d : Descriptor) : ArgumentList × Nat :=
  ({ l with descriptors := l.descriptors ++ [d] }, l.size)

/-- Adds a descriptor of memory of the caller's. -/
def pushBorrowed (l : ArgumentList) (d : Descriptor) (bytes : List UInt8) : ArgumentList × Nat :=
  ({ l with descriptors := l.descriptors ++ [d], borrowed := l.borrowed ++ [(l.size, bytes)] },
    l.size)

/-- A single value; only one that is not just an input may be overwritten by the device. -/
def addScalar (l : ArgumentList) (footprint : Footprint) (cell : Cell)
    (direction : Direction := .input) : ArgumentList × Nat :=
  l.pushBorrowed
    ⟨cell.address, footprint.size, max footprint.align scalarAlignment, direction⟩ cell.bytes

/-- An array of values. -/
def addBuffer (l : ArgumentList) (footprint : Footprint) (cell : Cell)
    (direction : Direction := .input) : ArgumentList × Nat :=
  l.pushBorrowed
    ⟨cell.address, UInt64.ofNat cell.bytes.length, footprint.align, direction⟩ cell.bytes

/-- A matrix, written into a block of the list's own at the given address. -/
def addMatrix (l : ArgumentList) (address : Word) (m : Matrix Double) (direction : Direction) :
    Except AllocationError (ArgumentList × Nat) := do
  let flat ← Wire.Flat.ofMatrix m
  let (l', position) :=
    l.push ⟨address, UInt64.ofNat flat.block.size, flat.block.align, direction⟩
  return ({ l' with blobs := l'.blobs ++ [(position, ⟨address, flat⟩)] }, position)

/-- A descriptor that the caller has made. -/
def addDescriptor (l : ArgumentList) (d : Descriptor) :
    Except AlignmentError (ArgumentList × Nat) := do
  return l.push (← d.check)

/-- A list of bare descriptors. -/
def ofDescriptors (descriptors : List Descriptor) : ArgumentList := { descriptors }

/-! ### Looking at arguments -/

def get? (l : ArgumentList) (position : Nat) : Option Descriptor := l.descriptors[position]?

/-- The matrix in the block at a position, with whatever the device has written there. -/
def matrixAt (l : ArgumentList) (position : Nat) :
    Except MatrixArgumentError (Matrix Double) :=
  match l.blobs.lookup position with
  | none => .error (.notMatrix position)
  | some blob => match blob.flat.toMatrix with
    | .ok m => .ok m
    | .error fault => .error (.decode fault)

/-- The caller's memory behind the argument at a position. -/
def borrowedAt (l : ArgumentList) (position : Nat) : Option (List UInt8) :=
  l.borrowed.lookup position

/-! ### Writes by the device -/

/-- Applies a write to the memory behind the argument at `position`; a write that would leave that
memory has no effect. -/
def poke (l : ArgumentList) (position offset : Nat) (patch : List UInt8) : ArgumentList :=
  { l with
    blobs := l.blobs.map fun (p, blob) =>
      if p = position then
        (p, { blob with flat.block := (blob.flat.block.write offset patch).getD blob.flat.block })
      else (p, blob)
    borrowed := l.borrowed.map fun (p, bytes) =>
      if p = position then (p, (overwrite bytes offset patch).getD bytes) else (p, bytes) }

end ArgumentList

end AccelKrylov
