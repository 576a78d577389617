import AccelKrylov.Matrix.Shape
import AccelKrylov.Numeric

/-! Matrices: dimensions together with stored arrays that fit them. Every way to make a matrix goes
through the one check of its storage, so no matrix has arrays of another shape. -/

namespace AccelKrylov

/-- A matrix over numbers of type `α`. -/
structure Matrix (α : Type) where
  rows : Word
  cols : Word
  /-- Stored offsets and columns count from here. -/
  base : Word
  kind : ValueKind
  representation : Representation
  storage : Storage α
  fits : storage.check rows cols base kind = .ok ()

namespace Matrix

variable {α : Type}

instance [DecidableEq α] : DecidableEq (Matrix α) := fun a b =>
  decidable_of_iff
    (a.rows = b.rows ∧ a.cols = b.cols ∧ a.base = b.base ∧ a.kind = b.kind ∧
      a.representation = b.representation ∧ a.storage = b.storage)
    (by cases a; cases b; simp)

/-! ### Making matrices -/

/-- The matrix with given dimensions and storage, if they fit. -/
def ofStorage (rows cols base : Word) (kind : ValueKind) (storage : Storage α) :
    Except ShapeError (Matrix α) :=
  match h : storage.check rows cols base kind with
  | .ok () => .ok ⟨rows, cols, base, kind, .general, storage, h⟩
  | .error e => .error e

theorem ofStorage_storage (m : Matrix α) :
    ofStorage m.rows m.cols m.base m.kind m.storage = .ok { m with representation := .general } := by
  unfold ofStorage
  split
  · rfl
  next h => rw [m.fits] at h; cases h

theorem ofStorage_eq_ok {rows cols base : Word} {kind : ValueKind} {storage : Storage α}
    {m : Matrix α} (h : ofStorage rows cols base kind storage = .ok m) :
    m.rows = rows ∧ m.cols = cols ∧ m.base = base ∧ m.kind = kind ∧
      m.representation = .general ∧ m.storage = storage := by
  unfold ofStorage at h
  split at h
  · cases h
    exact ⟨rfl, rfl, rfl, rfl, rfl, rfl⟩
  · cases h

theorem ofStorage_eq_error {rows cols base : Word} {kind : ValueKind} {storage : Storage α}
    {fault : ShapeError} (h : storage.check rows cols base kind = .error fault) :
    ofStorage rows cols base kind storage = .error fault := by
  unfold ofStorage
  split
  next hok => rw [h] at hok; cases hok
  next herror => rw [h] at herror; rw [Except.error.inj herror]

/-- A dense matrix, stored row by row with `lda` slots a row. -/
def dense (rows cols lda : Word) (kind : ValueKind) (values : Array α) :
    Except ShapeError (Matrix α) :=
  ofStorage rows cols 0 kind (.dense lda values)

/-- A real dense matrix from its rows. -/
def ofRows (rows : List (Array α)) : Except ShapeError (Matrix α) := do
  let cols := (rows.head?.map Array.size).getD 0
  ensure (rows.all (fun r => r.size == cols) = true) .ragged
  dense (UInt64.ofNat rows.length) (UInt64.ofNat cols) (UInt64.ofNat cols) .real
    (rows.foldl (· ++ ·) #[])

/-- A matrix of compressed rows. -/
def csr (rows cols base : Word) (kind : ValueKind) (entries : Compressed α) (flags : Flags := {}) :
    Except ShapeError (Matrix α) :=
  ofStorage rows cols base kind (.csr entries flags)

/-- A matrix of compressed block rows. -/
def bcsr (rows cols base : Word) (kind : ValueKind) (runs : List (BlockRows α)) (shared : Bool) :
    Except ShapeError (Matrix α) :=
  ofStorage rows cols base kind (.bcsr runs shared)

def withRepresentation (m : Matrix α) (representation : Representation) : Matrix α :=
  { m with representation }

/-! ### Properties -/

def format (m : Matrix α) : StorageFormat := m.storage.format

def isSquare (m : Matrix α) : Bool := m.rows == m.cols

/-- The number of slots from one row to the next in dense storage, the column count otherwise. -/
def leadingDimension (m : Matrix α) : Word :=
  match m.storage with
  | .dense lda _ => lda
  | .csr .. | .bcsr .. => m.cols

/-! ### Equality of numbers -/

/-- Corresponding numbers are equal as numbers. -/
def sameValues [Numeric α] (a b : Array α) : Bool :=
  a.size == b.size && (Array.zipWith Numeric.same a b).all id

def sameCompressed [Numeric α] (a b : Compressed α) : Bool :=
  a.offsets == b.offsets && a.columns == b.columns && sameValues a.values b.values

def sameStorage [Numeric α] : Storage α → Storage α → Bool
  | .dense lda v, .dense lda' v' => lda == lda' && sameValues v v'
  | .csr c f, .csr c' f' => f == f' && sameCompressed c c'
  | .bcsr rs s, .bcsr rs' s' =>
    s == s' && rs.length == rs'.length &&
      (List.zipWith (fun r r' => r.blockSize == r'.blockSize && r.blockRows == r'.blockRows &&
        sameCompressed r.toCompressed r'.toCompressed) rs rs').all id
  | _, _ => false

/-- Equality up to the representation of equal numbers; something that is no number equals nothing. -/
def same [Numeric α] (a b : Matrix α) : Bool :=
  a.rows == b.rows && a.cols == b.cols && a.base == b.base && a.kind == b.kind &&
    a.representation == b.representation && sameStorage a.storage b.storage

end Matrix

end AccelKrylov
