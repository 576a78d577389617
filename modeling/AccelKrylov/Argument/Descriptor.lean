import AccelKrylov.Word

/-! What a device is told about one argument of a call: where its memory is, how large and how aligned
it is, and in which direction data flows. -/

namespace AccelKrylov

/-! ### Directions -/

/-- How data flows through an argument across a call. -/
inductive Direction where
  | input | output | both
deriving DecidableEq

namespace Direction

def tag : Direction → Word
  | input => 0
  | output => 1
  | both => 2

def ofTag? (t : Word) : Option Direction :=
  if t = 0 then some input
  else if t = 1 then some output
  else if t = 2 then some both
  else none

def name : Direction → String
  | input => "In"
  | output => "Out"
  | both => "InOut"

/-- The device may write to the argument. -/
def isWritten : Direction → Bool
  | input => false
  | output | both => true

@[simp] theorem ofTag?_tag (d : Direction) : ofTag? d.tag = some d := by cases d <;> rfl

theorem ofTag?_eq_some_iff {t : Word} {d : Direction} : ofTag? t = some d ↔ t = d.tag := by
  unfold ofTag?
  constructor
  · intro h
    split at h
    · cases h; assumption
    split at h
    · cases h; assumption
    split at h
    · cases h; assumption
    · cases h
  · rintro rfl
    cases d <;> rfl

end Direction

/-! ### Descriptors -/

structure Descriptor where
  address : Word
  size : Word
  alignment : Word
  direction : Direction
deriving DecidableEq

/-- An alignment that no memory can have. -/
structure AlignmentError where
  alignment : Word
deriving DecidableEq

def AlignmentError.message (e : AlignmentError) : String :=
  s!"alignment {e.alignment} is not a power of two"

namespace Descriptor

/-- The descriptor itself, if its alignment is a power of two. -/
def check (d : Descriptor) : Except AlignmentError Descriptor := do
  ensure (d.alignment.isPowerOfTwo = true) ⟨d.alignment⟩
  return d

/-- Everything but the address is the same. -/
def sameShape (a b : Descriptor) : Bool :=
  a.size == b.size && a.alignment == b.alignment && a.direction == b.direction

/-- The descriptor in words. -/
def describe (d : Descriptor) : String :=
  s!"ArgumentDescriptor \x7b address: {d.address}, size: {d.size}, alignment: {d.alignment}, direction: " ++
    d.direction.name ++ " \x7d"

end Descriptor

end AccelKrylov
