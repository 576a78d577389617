import AccelKrylov.Proofs.Wire.RoundTrip
import AccelKrylov.Proofs.Wire.Total

/-! What is read from the block that a matrix was written as. It is the matrix itself if the matrix has at
most one run of block rows for each row, and one; a block with more runs is refused for their number, once
the reader has come to it. -/

namespace AccelKrylov.Wire

open ByteReader

variable {β γ : Type}

/-! ### Readers going ahead -/

/-- Where bytes spell the fields of a result, a reader returns it and what follows goes on behind them. -/
theorem Reads.bind_of_spells {r : Reader β} {P : List Field → β → Prop} {fields : List Field} {b : β}
    {bytes : List UInt8} {offset : Nat} (hr : Reads r P) (hP : P fields b)
    (hs : Spells bytes offset fields) (k : β → Reader γ) :
    (r >>= k) bytes offset = k b bytes (stop offset fields) := by
  have hok : r bytes offset = .ok (b, stop offset fields) := (hr ..).mpr ⟨fields, hP, hs, rfl⟩
  change (r bytes offset >>= fun s => k s.1 bytes s.2) = _
  rw [hok]
  rfl

theorem bind_scalar {bytes : List UInt8} {offset : Nat} {w : Word} {rest : List Field}
    (hs : Spells bytes offset (.scalar w :: rest)) (what : String) (k : Word → Reader γ) :
    (scalar what >>= k) bytes offset = k w bytes (stop offset [.scalar w]) :=
  (reads_scalar what).bind_of_spells rfl ((spells_append bytes offset [.scalar w] rest).mp hs).1 k

theorem Spells.tail {bytes : List UInt8} {offset : Nat} {f : Field} {rest : List Field}
    (hs : Spells bytes offset (f :: rest)) : Spells bytes (stop offset [f]) rest :=
  ((spells_append bytes offset [f] rest).mp hs).2

theorem bind_tagged {result : Except UnknownTag β} {b : β} (h : result = .ok b) (bytes : List UInt8)
    (offset : Nat) (k : β → Reader γ) : (tagged result >>= k) bytes offset = k b bytes offset := by
  have hs : Spells bytes offset [] := spells_nil bytes offset
  exact (reads_tagged result).bind_of_spells ⟨rfl, h⟩ hs k

/-! ### The opening of a block -/

/-- The fields that a block opens with when its leading dimension is to be `leadingDimension`. -/
def headerFields (m : Matrix Double) (leadingDimension : Word) : List Field :=
  [.scalar m.rows, .scalar m.cols, .scalar m.base, .scalar leadingDimension, .scalar m.format.tag,
    .scalar m.kind.tag, .scalar m.representation.tag]

/-- The seven words that a block opens with are read and the tags among them looked up. -/
theorem readParts_of_header {m : Matrix Double} {leadingDimension : Word} {rest : List Field}
    {bytes : List UInt8} (hs : Spells bytes 0 (headerFields m leadingDimension ++ rest)) :
    ∃ offset, Spells bytes offset rest ∧
      readParts (μ := Reader) bytes 0 = (readStorage m.rows m.base leadingDimension m.format >>=
        fun storage => (pure ⟨m.rows, m.cols, m.base, m.kind, m.representation, storage⟩ : Reader Parts))
          bytes offset := by
  refine ⟨_, hs.tail.tail.tail.tail.tail.tail.tail, ?_⟩
  calc readParts (μ := Reader) bytes 0
    _ = _ := bind_scalar hs ..
    _ = _ := bind_scalar hs.tail ..
    _ = _ := bind_scalar hs.tail.tail ..
    _ = _ := bind_scalar hs.tail.tail.tail ..
    _ = _ := bind_scalar hs.tail.tail.tail.tail ..
    _ = _ := bind_tagged (StorageFormat.ofTag_eq_ok_iff.mpr rfl) ..
    _ = _ := bind_scalar hs.tail.tail.tail.tail.tail ..
    _ = _ := bind_tagged (ValueKind.ofTag_eq_ok_iff.mpr rfl) ..
    _ = _ := bind_scalar hs.tail.tail.tail.tail.tail.tail ..
    _ = _ := bind_tagged (Representation.ofTag_eq_ok_iff.mpr rfl) ..

/-! ### Too many runs -/

/-- A reader that comes to the number of runs and finds too many goes no further. -/
theorem decodeWithSize_of_manyRuns {m : Matrix Double} {runs : List (BlockRows Double)} {shared : Bool}
    {bytes : List UInt8} (hstorage : m.storage = .bcsr runs shared) (hlt : runs.length < 2 ^ 64)
    (hmany : max m.rows.toNat 1 < runs.length) (hs : Spells bytes 0 m.fields) :
    decodeWithSize bytes =
      .error (.malformed (.runCount (UInt64.ofNat runs.length) m.rows)) := by
  obtain ⟨offset, hrest, hparts⟩ := readParts_of_header hs
  have hformat : m.format = .bcsr := by rw [Matrix.format, hstorage]; rfl
  rw [hstorage] at hrest
  rw [hformat] at hparts
  have hcount : UInt64.ofNat runs.length = 0 ∨ max m.rows 1 < UInt64.ofNat runs.length := by
    right
    rw [UInt64.lt_iff_toNat_lt, Word.toNat_max, UInt64.toNat_ofNat_of_lt' hlt]
    exact hmany
  have hfail : readStorage (μ := Reader) m.rows m.base m.leadingDimension .bcsr bytes offset =
      .error (.malformed (.runCount (UInt64.ofNat runs.length) m.rows)) := by
    refine (bind_scalar hrest ..).trans ?_
    rw [if_pos hcount]
    rfl
  rw [decodeWithSize_eq, hparts]
  change ((readStorage (μ := Reader) m.rows m.base m.leadingDimension .bcsr bytes offset >>= _) >>= _) = _
  rw [hfail]
  rfl

/-! ### Blocks in memory -/

/-- The runs of block rows of a matrix that is stored as such. -/
def blockRuns (m : Matrix Double) : List (BlockRows Double) :=
  match m.storage with
  | .bcsr runs _ => runs
  | .dense .. | .csr .. => []

theorem blockRuns_of_bcsr {m : Matrix Double} {runs : List (BlockRows Double)} {shared : Bool}
    (h : m.storage = .bcsr runs shared) : blockRuns m = runs := by
  unfold blockRuns
  rw [h]

/-- What reading the block of a matrix comes to. -/
def readBack (m : Matrix Double) : Except DecodeError (Matrix Double) :=
  if (blockRuns m).length ≤ max m.rows.toNat 1 then .ok m
  else .error (.malformed (.runCount (UInt64.ofNat (blockRuns m).length) m.rows))

theorem length_encode (m : Matrix Double) : m.encode.length = m.encodedSize :=
  length_flatMap_bytes _

theorem length_flatMap_runFields (runs : List (BlockRows Double)) :
    (runs.flatMap runFields).length = 5 * runs.length := by
  induction runs with
  | nil => rfl
  | cons run runs ih =>
    have hrun : (runFields run).length = 5 := rfl
    rw [List.flatMap_cons, List.length_append, List.length_cons, ih, hrun]
    omega

/-- Every run takes room in the block. -/
theorem length_blockRuns_le (m : Matrix Double) : (blockRuns m).length ≤ m.encodedSize := by
  unfold blockRuns
  split
  next runs shared hstorage =>
    have hfields : runs.length ≤ m.fields.length := by
      simp only [Matrix.fields, hstorage, storageFields, List.length_append, List.length_cons,
        length_flatMap_runFields]
      omega
    have hstop : 0 + 8 * m.fields.length ≤ 0 + m.encodedSize := le_stop 0 m.fields
    omega
  all_goals exact Nat.zero_le _

/-- What is read from a block in memory, whatever follows it. -/
theorem decodeWithSize_written {m : Matrix Double} {flat : Flat} (h : Flat.ofMatrix m = .ok flat)
    (tail : List UInt8) :
    decodeWithSize (flat.block.bytes ++ tail) = (readBack m).map fun m => (m, m.encodedSize) := by
  obtain ⟨hmemory, rfl⟩ := ofMatrix_eq_ok_iff.mp h
  have hsize : m.encodedSize < 2 ^ 64 := by
    unfold addressSpace at hmemory
    omega
  unfold readBack
  by_cases hfew : (blockRuns m).length ≤ max m.rows.toNat 1
  · rw [if_pos hfew]
    refine decodeWithSize_encode_append m (fun runs shared hstorage => ?_) hsize tail
    rwa [← blockRuns_of_bcsr hstorage]
  · rw [if_neg hfew]
    have hlt := length_blockRuns_le m
    cases hstorage : m.storage with
    | bcsr runs shared =>
      rw [blockRuns_of_bcsr hstorage] at hfew hlt ⊢
      exact decodeWithSize_of_manyRuns hstorage (by omega) (Nat.lt_of_not_le hfew)
        (spells_bytes m.fields tail (fits_of_size hsize))
    | dense | csr =>
      unfold blockRuns at hfew
      rw [hstorage] at hfew
      exact absurd (Nat.zero_le _) hfew

end AccelKrylov.Wire
