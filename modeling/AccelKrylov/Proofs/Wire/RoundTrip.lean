import AccelKrylov.Proofs.Wire.MatrixFields
import AccelKrylov.Proofs.Matrix.Fits

/-! Reading a matrix back from its block. A block in memory is as long as its fields need, its bytes
spell the fields of the matrix, and a reader that takes those fields returns the same matrix, down to
the bits of every number, whatever follows the block. -/

namespace AccelKrylov.Wire

/-! ### Writing into room enough -/

theorem writeSegments_of_le (ss : List Segment) (out : List UInt8)
    (h : totalSize ss ≤ out.length) :
    writeSegments ss out = (true, ss.flatMap Segment.bytes ++ out.drop (totalSize ss)) := by
  induction ss generalizing out with
  | nil => rfl
  | cons s ss ih =>
    rw [totalSize_cons] at h
    rw [writeSegments, if_pos (by omega), ih _ (by rw [List.length_drop]; omega)]
    simp [List.drop_drop]

/-- The gaps and lengths apart, a block is at least as long as any of its arrays. -/
theorem array_le_size {offset : Nat} {fields : List Field} {ws : List Word}
    (h : .array ws ∈ fields) : 8 * ws.length ≤ totalSize (layoutFrom offset fields) := by
  induction fields generalizing offset with
  | nil => cases h
  | cons f fs ih =>
    rw [layoutFrom, totalSize_append]
    rcases List.mem_cons.mp h with rfl | h
    · simp only [Field.segments, totalSize_cons, Segment.size]
      omega
    · have hrest : 8 * ws.length ≤
          totalSize (layoutFrom (offset + totalSize (f.segments offset)) fs) := ih h
      omega

theorem fits_of_size {fields : List Field} (h : size fields < 2 ^ 64) :
    ∀ f ∈ fields, f.Fits := by
  intro f hf
  cases f with
  | scalar w => trivial
  | array ws => exact Nat.lt_of_le_of_lt (array_le_size hf) h

/-- A block opens with seven words. -/
theorem header_le_encodedSize (m : Matrix Double) : 56 ≤ m.encodedSize := by
  simp only [Matrix.encodedSize, size, layout, Matrix.fields, List.cons_append, List.nil_append,
    layoutFrom, Field.segments, totalSize_cons, Segment.size]
  omega

theorem encodeInto_zeros (m : Matrix Double) :
    m.encodeInto (List.replicate m.encodedSize 0) = (true, m.encode) := by
  have hlength : (List.replicate m.encodedSize (0 : UInt8)).length = totalSize (layout m.fields) :=
    List.length_replicate
  unfold Matrix.encodeInto Wire.write
  rw [writeSegments_of_le _ _ (Nat.le_of_eq hlength.symm), ← hlength, List.drop_length,
    List.append_nil]
  rfl

/-- The block of a matrix holds the bytes of the matrix, if there is memory for it. -/
theorem ofMatrix_eq_ok_iff {m : Matrix Double} {flat : Flat} :
    Flat.ofMatrix m = .ok flat ↔ m.encodedSize + arrayAlignment ≤ addressSpace ∧
      flat = ⟨⟨m.encode, UInt64.ofNat arrayAlignment⟩, arrayOffsets m.fields⟩ := by
  have hpos := header_le_encodedSize m
  have hmax : max m.encodedSize 1 = m.encodedSize := by omega
  have halign : Word.isPowerOfTwo (UInt64.ofNat arrayAlignment) = true := by decide
  have hword : (UInt64.ofNat arrayAlignment).toNat = arrayAlignment := by decide
  unfold Flat.ofMatrix
  rw [Buffer.zeroed_eq halign, hmax, hword, bind_eq_ok]
  by_cases h : m.encodedSize + arrayAlignment ≤ addressSpace
  · rw [if_pos h]
    constructor
    · rintro ⟨block, hblock, hflat⟩
      obtain rfl := Except.ok.inj hblock
      dsimp only at hflat
      rw [encodeInto_zeros m] at hflat
      exact ⟨h, (Except.ok.inj hflat).symm⟩
    · rintro ⟨-, rfl⟩
      refine ⟨_, rfl, ?_⟩
      dsimp only
      rw [encodeInto_zeros m]
      rfl
  · simp [h]

/-! ### Reading it back -/

theorem flag_word (b : Bool) : ((if b then 1 else 0 : Word) != 0) = b := by cases b <;> rfl

theorem storageSpelling_fields (m : Matrix Double)
    (hruns : ∀ runs shared, m.storage = .bcsr runs shared → runs.length ≤ max m.rows.toNat 1) :
    StorageSpelling m.rows m.base m.leadingDimension (storageFields m.base m.storage) m.storage := by
  have hne : ∀ runs shared, m.storage = .bcsr runs shared → runs ≠ [] := by
    intro runs shared hs
    have hfits := m.storage_fits
    rw [hs] at hfits
    exact hfits.2.1
  unfold Matrix.leadingDimension
  generalize m.storage = storage at hruns hne
  cases storage with
  | dense lda values => exact .dense values
  | csr entries flags =>
    have h : StorageSpelling m.rows m.base m.cols _ _ := .csr entries
      (if flags.unitDiagonal then 1 else 0) (if flags.sorted then 1 else 0)
      (if flags.upper then 1 else 0) (if flags.lower then 1 else 0) (if flags.shared then 1 else 0)
    simp only [flag_word] at h
    exact h
  | bcsr runs shared =>
    have h : StorageSpelling m.rows m.base m.cols _ _ := .bcsr runs (if shared then 1 else 0)
      (hne runs shared rfl) (hruns runs shared rfl)
    simp only [flag_word] at h
    exact h

theorem decodeWithSize_encode_append (m : Matrix Double)
    (hruns : ∀ runs shared, m.storage = .bcsr runs shared → runs.length ≤ max m.rows.toNat 1)
    (hsize : m.encodedSize < 2 ^ 64) (tail : List UInt8) :
    decodeWithSize (m.encode ++ tail) = .ok (m, m.encodedSize) :=
  decodeWithSize_eq_ok_iff.mpr ⟨m.fields,
    .intro (.ofMatrix m) m.leadingDimension _ (storageSpelling_fields m hruns),
    spells_bytes m.fields tail (fits_of_size hsize), rfl⟩

/-- Decoding undoes writing a matrix into memory, for every matrix that has at most one run of block
rows for each row: what comes back is the same matrix, bit by bit, whatever follows the block, and the
size read off the block is the one that was written. The block is had exactly when there is memory. -/
theorem decode_flat_append (m : Matrix Double)
    (hruns : ∀ runs shared, m.storage = .bcsr runs shared → runs.length ≤ max m.rows.toNat 1) :
    ((∃ flat, Flat.ofMatrix m = .ok flat) ↔ m.encodedSize + arrayAlignment ≤ addressSpace) ∧
      ∀ flat tail, Flat.ofMatrix m = .ok flat →
        decode (flat.block.bytes ++ tail) = .ok m ∧
          decodedSize (flat.block.bytes ++ tail) = .ok m.encodedSize := by
  refine ⟨⟨?_, fun h => ⟨_, ofMatrix_eq_ok_iff.mpr ⟨h, rfl⟩⟩⟩, ?_⟩
  · rintro ⟨flat, h⟩
    exact (ofMatrix_eq_ok_iff.mp h).1
  · intro flat tail h
    obtain ⟨hsize, rfl⟩ := ofMatrix_eq_ok_iff.mp h
    have hword : m.encodedSize < 2 ^ 64 := by
      unfold addressSpace at hsize
      omega
    have hread := decodeWithSize_encode_append m hruns hword tail
    simp only [decode, decodedSize, hread]
    exact ⟨rfl, rfl⟩

/-- Three complex rows, counted from one, in two runs of block rows: two blocks of one row and column,
then an empty run of one block row of two. -/
def twoRuns : Matrix Double where
  rows := 3
  cols := 3
  base := 1
  kind := .complex
  representation := .triangular
  storage := .bcsr
    [⟨⟨#[1, 3], #[1, 3], #[⟨0x7FF8000000000001⟩, ⟨0⟩, ⟨0x8000000000000000⟩, ⟨1⟩]⟩, 1, 1⟩,
      ⟨⟨#[1, 1], #[], #[]⟩, 2, 1⟩] true
  fits := by cbv

theorem decode_flat_append_twoRuns :
    (∀ runs shared, twoRuns.storage = .bcsr runs shared → runs.length ≤ max twoRuns.rows.toNat 1) ∧
      ∃ flat, Flat.ofMatrix twoRuns = .ok flat ∧
        decode (flat.block.bytes ++ [7]) = .ok twoRuns ∧
          decodedSize (flat.block.bytes ++ [7]) = .ok 456 := by
  have hruns : ∀ runs shared, twoRuns.storage = .bcsr runs shared →
      runs.length ≤ max twoRuns.rows.toNat 1 := by
    rintro runs shared h
    cases h
    decide
  obtain ⟨hmemory, hread⟩ := decode_flat_append twoRuns hruns
  obtain ⟨flat, hflat⟩ := hmemory.mpr (by decide)
  have hsize : twoRuns.encodedSize = 456 := by decide
  rw [← hsize]
  exact ⟨hruns, flat, hflat, hread flat [7] hflat⟩

end AccelKrylov.Wire
