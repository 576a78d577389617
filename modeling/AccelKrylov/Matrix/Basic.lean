import AccelKrylov.Word

/-! The parts of a matrix: what its elements are, what structure they are promised to have, and the
three ways to store them. Each choice has a number that stands for it in a device's memory. -/

namespace AccelKrylov

/-- A number in a device's memory that stands for no choice. -/
inductive UnknownTag where
  | storage (tag : Word)
  | value (tag : Word)
  | representation (tag : Word)
deriving DecidableEq

def UnknownTag.message : UnknownTag → String
  | .storage t => s!"storage format tag {t}"
  | .value t => s!"value kind tag {t}"
  | .representation t => s!"representation tag {t}"

/-! ### Storage formats -/

inductive StorageFormat where
  | dense | csr | bcsr
deriving DecidableEq

namespace StorageFormat

def tag : StorageFormat → Word
  | dense => 0
  | csr => 1
  | bcsr => 2

def ofTag (t : Word) : Except UnknownTag StorageFormat :=
  if t = 0 then .ok dense
  else if t = 1 then .ok csr
  else if t = 2 then .ok bcsr
  else .error (.storage t)

theorem ofTag_eq_ok_iff {t : Word} {f : StorageFormat} : ofTag t = .ok f ↔ t = f.tag := by
  unfold ofTag
  constructor
  · intro h
    split at h
    · cases h; assumption
    split at h
    · cases h; assumption
    split at h
    · cases h; assumption
    · cases h
  · rintro rfl
    cases f <;> rfl

def name : StorageFormat → String
  | dense => "Dense"
  | csr => "Csr"
  | bcsr => "Bcsr"

end StorageFormat

/-! ### Value kinds -/

inductive ValueKind where
  | real | complex
deriving DecidableEq

namespace ValueKind

def tag : ValueKind → Word
  | real => 0
  | complex => 1

def ofTag (t : Word) : Except UnknownTag ValueKind :=
  if t = 0 then .ok real
  else if t = 1 then .ok complex
  else .error (.value t)

theorem ofTag_eq_ok_iff {t : Word} {k : ValueKind} : ofTag t = .ok k ↔ t = k.tag := by
  unfold ofTag
  constructor
  · intro h
    split at h
    · cases h; assumption
    split at h
    · cases h; assumption
    · cases h
  · rintro rfl
    cases k <;> rfl

def name : ValueKind → String
  | real => "Real"
  | complex => "Complex"

/-- How many numbers make one element. -/
def width : ValueKind → Word
  | real => 1
  | complex => 2

end ValueKind

/-! ### Representations -/

/-- The structure that firmware may rely on. -/
inductive Representation where
  | general | symmetric | hermitian | triangular
deriving DecidableEq

namespace Representation

def tag : Representation → Word
  | general => 0
  | symmetric => 1
  | hermitian => 2
  | triangular => 3

def ofTag (t : Word) : Except UnknownTag Representation :=
  if t = 0 then .ok general
  else if t = 1 then .ok symmetric
  else if t = 2 then .ok hermitian
  else if t = 3 then .ok triangular
  else .error (.representation t)

theorem ofTag_eq_ok_iff {t : Word} {r : Representation} : ofTag t = .ok r ↔ t = r.tag := by
  unfold ofTag
  constructor
  · intro h
    split at h
    · cases h; assumption
    split at h
    · cases h; assumption
    split at h
    · cases h; assumption
    split at h
    · cases h; assumption
    · cases h
  · rintro rfl
    cases r <;> rfl

def name : Representation → String
  | general => "General"
  | symmetric => "Symmetric"
  | hermitian => "Hermitian"
  | triangular => "Triangular"

end Representation

/-! ### Elements -/

/-- One matrix element. -/
inductive Element (α : Type) where
  | real (value : α)
  | complex (re im : α)
deriving DecidableEq

namespace Element

variable {α : Type}

/-- The real part. -/
def re : Element α → α
  | real v => v
  | complex r _ => r

def zero [Zero α] : ValueKind → Element α
  | .real => real 0
  | .complex => complex 0 0

/-- The element in slot `index` of a run of numbers; the two parts of a complex one are neighbours. -/
def read [Zero α] (values : Array α) (kind : ValueKind) (index : Word) : Element α :=
  match kind with
  | .real => real (values.getD index.toNat 0)
  | .complex => complex (values.getD (2 * index).toNat 0) (values.getD (2 * index + 1).toNat 0)

end Element

/-! ### Storage -/

/-- Entries grouped by outer index: those of group `i` are the slots from `offsets[i]` up to
`offsets[i + 1]`. Offsets and columns count from the base index of the matrix. -/
structure Compressed (α : Type) where
  offsets : Array Word
  columns : Array Word
  values : Array α
deriving DecidableEq

/-- What the owner of compressed rows declares about them. -/
structure Flags where
  unitDiagonal : Bool := false
  sorted : Bool := false
  upper : Bool := false
  lower : Bool := false
  shared : Bool := false
deriving DecidableEq

/-- A run of block rows that share one block size. An entry is a square block, stored row by row. -/
structure BlockRows (α : Type) extends Compressed α where
  blockSize : Word
  blockRows : Word
deriving DecidableEq

namespace BlockRows

variable {α : Type}

/-- How many matrix rows the run covers. -/
def rows (b : BlockRows α) : Word := b.blockRows * b.blockSize

end BlockRows

/-- The elements of a matrix: row by row with `lda` slots a row, as compressed rows, or as runs of
compressed block rows from the top of the matrix down. -/
inductive Storage (α : Type) where
  | dense (lda : Word) (values : Array α)
  | csr (entries : Compressed α) (flags : Flags)
  | bcsr (runs : List (BlockRows α)) (shared : Bool)
deriving DecidableEq

def Storage.format {α : Type} : Storage α → StorageFormat
  | dense .. => .dense
  | csr .. => .csr
  | bcsr .. => .bcsr

end AccelKrylov
