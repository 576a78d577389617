import AccelKrylov.Buffer

/-! Flat blocks that a device reads in place. A block is a sequence of fields: words, and arrays of
words that start at a multiple of 64 behind a word that holds their length in bytes. The segments of a
block are its fields with the gaps between them spelled out; its size, its bytes and its bounded
writing are all read off the segments, so they cannot disagree. -/

namespace AccelKrylov.Wire

/-- Every array starts at a multiple of this many bytes. -/
def arrayAlignment : Nat := 64

/-- Every word starts at a multiple of this many bytes. -/
def scalarAlignment : Nat := 8

inductive Field where
  | scalar (value : Word)
  | array (values : List Word)
deriving DecidableEq

/-- A truth value, as a word. -/
def Field.flag (b : Bool) : Field := .scalar (if b then 1 else 0)

/-! ### Segments -/

/-- A stretch of a block that is written as a whole. -/
inductive Segment where
  | gap (size : Nat)
  | scalar (value : Word)
  | array (values : List Word)
deriving DecidableEq

namespace Segment

def size : Segment → Nat
  | gap n => n
  | scalar _ => 8
  | array ws => 8 * ws.length

def bytes : Segment → List UInt8
  | gap n => List.replicate n 0
  | scalar w => w.bytes
  | array ws => ws.flatMap Word.bytes

theorem length_bytes (s : Segment) : s.bytes.length = s.size := by
  cases s with
  | gap n => simp [bytes, size]
  | scalar w => simp [bytes, size]
  | array ws =>
    induction ws with
    | nil => rfl
    | cons w ws ih =>
      simp only [bytes, size, List.flatMap_cons, List.length_append, Word.length_bytes,
        List.length_cons] at ih ⊢
      omega

end Segment

/-- The segments of a field that starts `offset` bytes into a block. -/
def Field.segments (offset : Nat) : Field → List Segment
  | .scalar w => [.gap (padding offset scalarAlignment), .scalar w]
  | .array ws =>
    let start := offset + padding offset scalarAlignment
    [.gap (padding offset scalarAlignment), .scalar (UInt64.ofNat (8 * ws.length)),
      .gap (padding (start + 8) arrayAlignment), .array ws]

def totalSize : List Segment → Nat
  | [] => 0
  | s :: rest => s.size + totalSize rest

/-- The segments of a block from `offset` on. -/
def layoutFrom : (offset : Nat) → List Field → List Segment
  | _, [] => []
  | offset, f :: fs =>
    let segments := f.segments offset
    segments ++ layoutFrom (offset + totalSize segments) fs

/-- The segments of a block. -/
def layout (fields : List Field) : List Segment := layoutFrom 0 fields

/-! ### Size, bytes and array positions -/

def size (fields : List Field) : Nat := totalSize (layout fields)

def bytes (fields : List Field) : List UInt8 := (layout fields).flatMap Segment.bytes

/-- Where the arrays among segments start, the first segment being at `offset`. -/
def arrayOffsetsFrom : (offset : Nat) → List Segment → List Nat
  | _, [] => []
  | offset, .array ws :: rest => offset :: arrayOffsetsFrom (offset + (Segment.array ws).size) rest
  | offset, s :: rest => arrayOffsetsFrom (offset + s.size) rest

/-- Where the arrays of a block start, in order. -/
def arrayOffsets (fields : List Field) : List Nat := arrayOffsetsFrom 0 (layout fields)

/-! ### Bounded writing -/

/-- Puts segments over the front of `out`, up to the first that no longer fits; says whether all did. -/
def writeSegments : List Segment → (out : List UInt8) → Bool × List UInt8
  | [], out => (true, out)
  | s :: rest, out =>
    if s.size ≤ out.length then
      let (complete, tail) := writeSegments rest (out.drop s.size)
      (complete, s.bytes ++ tail)
    else (false, out)

/-- Puts a block over the front of `out`, up to the first segment that no longer fits; says whether all
did. -/
def write (fields : List Field) (out : List UInt8) : Bool × List UInt8 :=
  writeSegments (layout fields) out

end AccelKrylov.Wire
