import AccelKrylov.Proofs.Argument.Built

/-! Which matrix arguments can be read back. The block of a matrix is added to the list and is read from
there, however many arguments come after it; but a matrix of block rows may be made of more runs than it
has rows, since a run may be empty, and the reader refuses the block of such a matrix. -/

namespace AccelKrylov

namespace Wire

theorem Flat.toMatrix_eq {m : Matrix Double} {flat : Flat} (h : Flat.ofMatrix m = .ok flat) :
    flat.toMatrix = readBack m := by
  have hread := decodeWithSize_written h []
  rw [List.append_nil] at hread
  rw [Flat.toMatrix, decode, hread]
  cases readBack m <;> rfl

end Wire

namespace ArgumentList

theorem matrixAt_eq {l : ArgumentList} {position : Nat} {blob : Blob}
    (h : l.blobs.lookup position = some blob) :
    l.matrixAt position = blob.flat.toMatrix.mapError .decode := by
  rw [matrixAt, h]
  dsimp only
  cases blob.flat.toMatrix <;> rfl

theorem lookup_mono {blobs blobs' : List (Nat × Blob)} {position : Nat} {blob : Blob}
    (h : blobs <+: blobs') (hblob : blobs.lookup position = some blob) :
    blobs'.lookup position = some blob := by
  obtain ⟨more, rfl⟩ := h
  rw [List.lookup_append, hblob]
  rfl

/-- A matrix that was added is read from its block, whatever is added behind it. -/
theorem matrixAt_addMatrix {l l' : ArgumentList} {address : Word} {m : Matrix Double}
    {direction : Direction} {position : Nat} (hl : l.Built)
    (h : l.addMatrix address m direction = .ok (l', position)) (later : List Addition) :
    (l'.addAll later).matrixAt position = (Wire.readBack m).mapError .decode := by
  have hadd : l.add (.matrix address m direction) = .ok (l', position) := by
    rw [add, mapError_eq_ok]
    exact h
  obtain ⟨d, hentry, rfl, rfl⟩ := of_add hadd
  obtain ⟨flat, hflat, -⟩ := Addition.entry_matrix_eq_ok_iff.mp hentry
  have hfresh : l.blobs.lookup l.size = none :=
    List.lookup_eq_none_iff.mpr fun b hb => bne_iff_ne.mpr (Nat.ne_of_gt (hl.blobs_lt b hb))
  have hblob : (l.extend (.matrix address m direction) d).blobs.lookup l.size = some ⟨address, flat⟩ := by
    rw [extend, Addition.blob?_matrix hflat, List.lookup_append, hfresh]
    simp
  rw [matrixAt_eq (lookup_mono (blobs_addAll _ later) hblob), Wire.Flat.toMatrix_eq hflat]

end ArgumentList

/-- A matrix of block rows is read back, from its own block and from the list that it was added to, exactly
when it has at most one run for each row, or one run; otherwise the number of its runs is refused. -/
theorem bcsr_read_back {rows cols base : Word} {kind : ValueKind} {runs : List (BlockRows Double)}
    {shared : Bool} {m : Matrix Double} (h : Matrix.bcsr rows cols base kind runs shared = .ok m) :
    (Wire.readBack m = if runs.length ≤ max rows.toNat 1 then .ok m
      else .error (.malformed (.runCount (UInt64.ofNat runs.length) rows))) ∧
    (∀ flat, Wire.Flat.ofMatrix m = .ok flat → flat.toMatrix = Wire.readBack m) ∧
    ∀ (l l' : ArgumentList) (address : Word) (direction : Direction) (position : Nat), l.Built →
      l.addMatrix address m direction = .ok (l', position) → ∀ later,
      (l'.addAll later).matrixAt position = (Wire.readBack m).mapError .decode := by
  refine ⟨?_, fun flat => Wire.Flat.toMatrix_eq, ?_⟩
  · obtain ⟨hrows, -, -, -, -, hstorage⟩ := Matrix.ofStorage_eq_ok h
    rw [Wire.readBack, Wire.blockRuns_of_bcsr hstorage, hrows]
  · exact fun l l' address direction position hl hadd => ArgumentList.matrixAt_addMatrix hl hadd

/-- One row in a run of its own, and a run of no rows behind it. -/
def emptyRunRuns : List (BlockRows Double) :=
  [⟨⟨#[0, 1], #[0], #[⟨0x3ff0000000000000⟩]⟩, 1, 1⟩, ⟨⟨#[0], #[], #[]⟩, 1, 0⟩]

def emptyRunMatrix : Matrix Double where
  rows := 1
  cols := 1
  base := 0
  kind := .real
  representation := .general
  storage := .bcsr emptyRunRuns false
  fits := by cbv

theorem emptyRunMatrix_memory :
    emptyRunMatrix.encodedSize + Wire.arrayAlignment ≤ addressSpace := by decide

theorem bcsr_read_back_emptyRun :
    Matrix.bcsr 1 1 0 .real emptyRunRuns false = .ok emptyRunMatrix ∧
      ∃ l : ArgumentList, ArgumentList.addMatrix {} 4096 emptyRunMatrix .input = .ok (l, 0) ∧
        l.matrixAt 0 = .error (.decode (.malformed (.runCount 2 1))) := by
  have hmade : Matrix.bcsr 1 1 0 .real emptyRunRuns false = .ok emptyRunMatrix :=
    Matrix.ofStorage_storage emptyRunMatrix
  obtain ⟨hread, -, hat⟩ := bcsr_read_back hmade
  rw [if_neg (by decide)] at hread
  have hflat := Wire.ofMatrix_eq_ok_iff.mpr ⟨emptyRunMatrix_memory, rfl⟩
  obtain ⟨l, hadd⟩ : ∃ l, ArgumentList.addMatrix {} 4096 emptyRunMatrix .input = .ok (l, 0) :=
    ⟨_, bind_eq_ok.mpr ⟨_, hflat, rfl⟩⟩
  have hback := hat {} l 4096 .input 0 .empty hadd []
  rw [hread] at hback
  exact ⟨hmade, l, hadd, hback⟩

/-- Not every matrix of block rows can be read from the block that it was written as. -/
theorem bcsr_unreadable : ¬ ∀ (rows cols base : Word) (kind : ValueKind) (runs : List (BlockRows Double))
    (shared : Bool) (m : Matrix Double), Matrix.bcsr rows cols base kind runs shared = .ok m →
    (∀ flat, Wire.Flat.ofMatrix m = .ok flat → ∃ m', flat.toMatrix = .ok m') ∧
      ∀ (l l' : ArgumentList) (address : Word) (direction : Direction) (position : Nat), l.Built →
        l.addMatrix address m direction = .ok (l', position) → ∃ m', l'.matrixAt position = .ok m' := by
  intro h
  have hmade : Matrix.bcsr 1 1 0 .real emptyRunRuns false = .ok emptyRunMatrix :=
    Matrix.ofStorage_storage emptyRunMatrix
  have hflat := Wire.ofMatrix_eq_ok_iff.mpr ⟨emptyRunMatrix_memory, rfl⟩
  obtain ⟨m', hread⟩ := (h 1 1 0 .real emptyRunRuns false emptyRunMatrix hmade).1 _ hflat
  rw [Wire.Flat.toMatrix_eq hflat, Wire.readBack, if_neg (by decide)] at hread
  cases hread

end AccelKrylov
