import AccelKrylov.Argument.List
import AccelKrylov.Trap

/-! Arguments as a device sees them: a count, and one record of four words for each argument. The device
may write to the records, so what comes back is read with care and compared with what was sent. -/

namespace AccelKrylov

open Guarded

/-- Four words that need not describe an argument. -/
structure Record where
  address : Word
  size : Word
  alignment : Word
  direction : Word
deriving DecidableEq

/-- What is wrong with an array of records. -/
inductive RecordError where
  | noCount (length : Nat)
  | count (count : Word) (length : Nat)
  | direction (tag : Word)
  | alignment (fault : AlignmentError)
deriving DecidableEq

def RecordError.message : RecordError → String
  | noCount length => s!"record array of {length} bytes has no count field"
  | count n length => s!"record count {n} exceeds a {length}-byte array"
  | direction tag => s!"unknown argument direction {tag}"
  | alignment fault => fault.message

namespace Record

def bytes (r : Record) : List UInt8 :=
  r.address.bytes ++ r.size.bytes ++ r.alignment.bytes ++ r.direction.bytes

def ofBytes (bs : List UInt8) : Record :=
  ⟨Word.ofBytes (bs.take 8), Word.ofBytes ((bs.drop 8).take 8),
    Word.ofBytes ((bs.drop 16).take 8), Word.ofBytes ((bs.drop 24).take 8)⟩

theorem length_bytes (r : Record) : r.bytes.length = 32 := by simp [bytes]

def ofDescriptor (d : Descriptor) : Record := ⟨d.address, d.size, d.alignment, d.direction.tag⟩

/-- The argument that a record describes; its direction is looked at first. -/
def toDescriptor (r : Record) : Except RecordError Descriptor :=
  match Direction.ofTag? r.direction with
  | none => .error (.direction r.direction)
  | some direction => match Descriptor.check ⟨r.address, r.size, r.alignment, direction⟩ with
    | .ok d => .ok d
    | .error fault => .error (.alignment fault)

end Record

/-- A position without a record. -/
structure RecordRangeError where
  position : Word
deriving DecidableEq

def RecordRangeError.message (e : RecordRangeError) : String :=
  s!"record {e.position} is out of range"

/-- An array of records in memory. -/
structure Records where
  bytes : List UInt8
deriving DecidableEq

namespace Records

/-- The bytes of `count` records and the count before them. -/
def sizeFor {ε : Type} (count : Word) : Guarded ε Word := do add 8 (← mul count 32)

/-! ### Writing -/

/-- The records of some arguments, in order. -/
def ofList (descriptors : List Descriptor) : Records :=
  ⟨Word.bytes (UInt64.ofNat descriptors.length) ++
    descriptors.flatMap fun d => (Record.ofDescriptor d).bytes⟩

/-- Records start at a multiple of this many bytes. -/
def alignment : Word := 8

/-- The records of some arguments, if there is memory for them. -/
def allocate (descriptors : List Descriptor) : Except AllocationError Records := do
  let _ ← Buffer.zeroed (8 + 32 * descriptors.length) alignment
  return ofList descriptors

/-- The count that the array opens with. -/
def count (r : Records) : Word := Word.ofBytes (r.bytes.take 8)

/-- Overwrites the record at a position. The place of a record is worked out before anything is known of the
position, which is any word. -/
def writeRecord (r : Records) (position : Word) (record : Record) : Guarded RecordRangeError Records := do
  let start ← add 8 (← mul position 32)
  let _ ← add start 32
  match overwrite r.bytes start.toNat record.bytes with
  | some bytes => return ⟨bytes⟩
  | none => lift (.error ⟨position⟩)

/-- Overwrites bytes, if they are within the array. -/
def poke (r : Records) (offset : Nat) (patch : List UInt8) : Records :=
  ⟨(overwrite r.bytes offset patch).getD r.bytes⟩

/-! ### Reading -/

/-- The arguments that the first `n` records of some bytes describe. -/
def readRecords : (n : Nat) → List UInt8 → Except RecordError (List Descriptor)
  | 0, _ => .ok []
  | n + 1, bytes => do
    let d ← (Record.ofBytes (bytes.take 32)).toDescriptor
    return d :: (← readRecords n (bytes.drop 32))

/-- The arguments that an array of records describes. -/
def read (bytes : List UInt8) : Except RecordError (List Descriptor) := do
  ensure (8 ≤ bytes.length) (.noCount bytes.length)
  let count := Word.ofBytes (bytes.take 8)
  ensure (count.toNat * 32 + 8 ≤ bytes.length) (.count count bytes.length)
  readRecords count.toNat (bytes.drop 8)

end Records

/-! ### Comparing what came back with what was sent -/

/-- The first difference between two argument lists. -/
inductive Mismatch where
  | count (sent returned : Nat)
  | shape (position : Nat) (sent returned : Descriptor)
deriving DecidableEq

namespace Mismatch

def position : Mismatch → Nat
  | count sent returned => min sent returned
  | shape position .. => position

def detail : Mismatch → String
  | count sent returned => s!"{sent} arguments sent, {returned} returned"
  | shape _ sent returned => "sent " ++ sent.describe ++ ", returned " ++ returned.describe

/-- The first position, counted from `i`, where two lists of one length differ in shape. -/
def firstFrom : (i : Nat) → List Descriptor → List Descriptor → Option Mismatch
  | i, a :: as, b :: bs => if a.sameShape b then firstFrom (i + 1) as bs else some (.shape i a b)
  | _, _, _ => none

/-- What differs between the arguments sent and those returned, addresses aside. -/
def first? (sent returned : List Descriptor) : Option Mismatch :=
  if sent.length ≠ returned.length then some (.count sent.length returned.length)
  else firstFrom 0 sent returned

end Mismatch

end AccelKrylov
