import AccelKrylov.Proofs.Wire.Delimited
import AccelKrylov.Proofs.Argument.LastWrite

/-! The seven words that a block opens with. A reader that accepts a block has compared all of them with what
it makes of the block, except for the leading dimension of a matrix in compressed or block rows: that word
may hold anything, and is lost when the matrix is written again. -/

namespace AccelKrylov

namespace Wire

/-- The first seven words of some bytes. -/
def header (bytes : List UInt8) : List Word := (List.range 7).map (wordAt bytes)

end Wire

/-- The seven words that the block of a matrix opens with. -/
def Matrix.header (m : Matrix Double) : List Word :=
  [m.rows, m.cols, m.base, m.leadingDimension, m.format.tag, m.kind.tag, m.representation.tag]

namespace Wire

/-! ### Words in a row -/

theorem spells_word {bytes : List UInt8} {k : Nat} {w : Word} :
    Spells bytes (8 * k) [.scalar w] ↔ 8 * (k + 1) ≤ bytes.length ∧ wordAt bytes k = w := by
  have hpad : padding (8 * k) scalarAlignment = 0 := by
    unfold padding scalarAlignment
    omega
  rw [spells_scalar, hpad, Nat.mul_succ]
  refine and_congr_right fun hroom => ?_
  have hlength : ((bytes.drop (8 * k)).take 8).length = 8 := by
    rw [List.length_take, List.length_drop]
    omega
  constructor
  · intro h
    exact (congrArg Word.ofBytes h).trans (Word.ofBytes_bytes w)
  · rintro rfl
    exact (Word.bytes_ofBytes _ hlength).symm

theorem stop_word (k : Nat) (w : Word) : stop (8 * k) [.scalar w] = 8 * (k + 1) := by
  have hpad : padding (8 * k) scalarAlignment = 0 := by
    unfold padding scalarAlignment
    omega
  rw [stop_scalar, hpad]
  rfl

theorem stop_words (k : Nat) (ws : List Word) : stop (8 * k) (ws.map .scalar) = 8 * (k + ws.length) := by
  induction ws generalizing k with
  | nil => rfl
  | cons w ws ih =>
    have hfields : (w :: ws).map Field.scalar = [.scalar w] ++ ws.map .scalar := rfl
    rw [hfields, stop_append, stop_word, ih, List.length_cons, Nat.add_assoc, Nat.add_comm 1]

theorem wordAt_of_spells {ws : List Word} {rest : List Field} {bytes : List UInt8} {k : Nat}
    (h : Spells bytes (8 * k) (ws.map .scalar ++ rest)) (i : Nat) (hi : i < ws.length) :
    wordAt bytes (k + i) = ws[i] := by
  induction ws generalizing k i with
  | nil => exact absurd hi (Nat.not_lt_zero i)
  | cons w ws ih =>
    obtain ⟨hw, hws⟩ := (spells_append _ _ [.scalar w] (ws.map .scalar ++ rest)).mp h
    rw [stop_word] at hws
    cases i with
    | zero => exact (spells_word.mp hw).2
    | succ i =>
      have hnext := ih hws i (Nat.lt_of_succ_lt_succ hi)
      rw [Nat.add_right_comm] at hnext
      exact hnext

theorem header_of_spells {m : Matrix Double} {leadingDimension : Word} {rest : List Field}
    {bytes : List UInt8} (h : Spells bytes 0 (headerFields m leadingDimension ++ rest)) :
    header bytes = m.header.set 3 leadingDimension := by
  have hs : Spells bytes (8 * 0) ((m.header.set 3 leadingDimension).map .scalar ++ rest) := h
  refine List.ext_getElem rfl fun i hi hi' => ?_
  have hword := wordAt_of_spells hs i hi'
  rw [Nat.zero_add] at hword
  simpa [header] using hword

/-- The block that a matrix is written as opens with its seven words. -/
theorem header_encode (m : Matrix Double) : header m.encode = m.header := by
  have hfits : ∀ f ∈ headerFields m m.leadingDimension, f.Fits := by
    simp [headerFields, Field.Fits]
  have hfields : m.fields = headerFields m m.leadingDimension ++ storageFields m.base m.storage := rfl
  obtain ⟨tail, hbytes⟩ : ∃ tail, m.encode = bytes (headerFields m m.leadingDimension) ++ tail := by
    refine ⟨(layoutFrom (stop 0 (headerFields m m.leadingDimension))
      (storageFields m.base m.storage)).flatMap Segment.bytes, ?_⟩
    rw [Matrix.encode, hfields, bytes, layout, layoutFrom_append, List.flatMap_append, bytes, layout]
  have hs := spells_bytes (headerFields m m.leadingDimension) tail hfits
  rw [← hbytes, ← List.append_nil (headerFields m m.leadingDimension)] at hs
  rw [header_of_spells hs]
  rfl

/-! ### One word changed -/

/-- Fields stay where they are when only other bytes change. -/
theorem Spells.congr {bytes bytes' : List UInt8} {offset : Nat} {fields : List Field}
    (h : Spells bytes offset fields) (hlength : stop offset fields ≤ bytes'.length)
    (hsame : ∀ i, offset ≤ i → i < stop offset fields → bytes'[i]? = bytes[i]?) :
    Spells bytes' offset fields :=
  ⟨h.1, h.2.congr hlength fun i hfrom hto _ => hsame i hfrom hto⟩

theorem wordAt_overwrite {bytes bytes' : List UInt8} {k : Nat} {w : Word}
    (h : overwrite bytes (8 * k) w.bytes = some bytes') : wordAt bytes' k = w := by
  unfold overwrite at h
  split at h
  next hroom =>
    obtain rfl := Option.some.inj h
    have hfront : (bytes.take (8 * k)).length = 8 * k := by
      rw [List.length_take]
      omega
    rw [wordAt, List.append_assoc, List.drop_left' hfront, List.take_left' (Word.length_bytes w),
      Word.ofBytes_bytes]
  next => cases h

/-- Bytes that spell some fields spell them with another word in the place of one of theirs once it is written
there. -/
theorem spells_overwrite {bytes bytes' : List UInt8} {before rest : List Field} {k : Nat} {old w : Word}
    (h : Spells bytes 0 (before ++ .scalar old :: rest)) (hk : stop 0 before = 8 * k)
    (hwritten : overwrite bytes (8 * k) w.bytes = some bytes') :
    Spells bytes' 0 (before ++ .scalar w :: rest) := by
  have hlength := length_of_overwrite hwritten
  have hbyte := getElem?_overwrite hwritten
  rw [Word.length_bytes] at hbyte
  have hstop := h.stop_le
  obtain ⟨hbefore, hbehind⟩ := (spells_append ..).mp h
  obtain ⟨hold, hrest⟩ := (spells_append _ _ [.scalar old] rest).mp hbehind
  rw [hk] at hold hrest
  rw [stop_word] at hrest
  have hroom := (spells_word.mp hold).1
  refine (spells_append ..).mpr ⟨?_, (spells_append _ _ [.scalar w] rest).mpr ⟨?_, ?_⟩⟩
  · refine hbefore.congr (by omega) fun i _ hto => ?_
    rw [hbyte, if_neg (by omega)]
  · rw [hk]
    exact spells_word.mpr ⟨by omega, wordAt_overwrite hwritten⟩
  · rw [hk, stop_word]
    refine hrest.congr ?_ fun i hfrom _ => ?_
    · have hend := hrest.stop_le
      omega
    · rw [hbyte, if_neg (by omega)]

/-- Another leading dimension is written into bytes that open with a block. -/
theorem spells_leadingDimension {m : Matrix Double} {leadingDimension w : Word} {rest : List Field}
    {bytes bytes' : List UInt8} (h : Spells bytes 0 (headerFields m leadingDimension ++ rest))
    (hwritten : overwrite bytes 24 w.bytes = some bytes') :
    Spells bytes' 0 (headerFields m w ++ rest) :=
  spells_overwrite h (stop_words 0 [m.rows, m.cols, m.base]) hwritten

/-! ### Reading -/

theorem decode_eq_ok_iff_spells {bytes : List UInt8} {m : Matrix Double} : decode bytes = .ok m ↔
    ∃ leadingDimension rest, StorageSpelling m.rows m.base leadingDimension rest m.storage ∧
      Spells bytes 0 (headerFields m leadingDimension ++ rest) := by
  rw [decode_eq_ok_iff, decodeWithSize_eq_ok_iff]
  constructor
  · rintro ⟨_, ⟨_, leadingDimension, rest, hstorage⟩, hs, -⟩
    exact ⟨leadingDimension, rest, hstorage, hs⟩
  · rintro ⟨leadingDimension, rest, hstorage, hs⟩
    have hparts := PartsSpelling.intro (.ofMatrix m) leadingDimension rest hstorage
    exact ⟨_, hparts, hs, hparts.size_eq.symm⟩

/-- A dense matrix tells its leading dimension a second time. -/
theorem StorageSpelling.of_dense {rows base leadingDimension : Word} {rest : List Field}
    {storage : Storage Double} (h : StorageSpelling rows base leadingDimension rest storage)
    (hdense : storage.format = .dense) :
    ∃ values, storage = .dense leadingDimension values ∧
      rest = [.scalar leadingDimension, numbers values] := by
  cases h with
  | dense values => exact ⟨values, rfl, rfl⟩
  | csr | bcsr => cases hdense

/-- Compressed and block rows do not tell it. -/
theorem StorageSpelling.of_sparse {rows base leadingDimension : Word} {rest : List Field}
    {storage : Storage Double} (h : StorageSpelling rows base leadingDimension rest storage)
    (hsparse : storage.format ≠ .dense) (w : Word) : StorageSpelling rows base w rest storage := by
  cases h with
  | dense values => exact absurd rfl hsparse
  | csr entries unitDiagonal sorted upper lower shared =>
    exact .csr entries unitDiagonal sorted upper lower shared
  | bcsr runs shared nonempty few => exact .bcsr runs shared nonempty few

theorem decode_of_otherLeadingDimension {m : Matrix Double} {lda w : Word} {rest : List Field}
    {bytes : List UInt8} (hdense : m.format = .dense) (hne : lda ≠ w)
    (h : Spells bytes 0 (headerFields m w ++ .scalar lda :: rest)) :
    decode bytes = .error (.malformed (.leadingDimension lda w)) := by
  obtain ⟨offset, hrest, hparts⟩ := readParts_of_header h
  have hfail : readStorage (μ := Reader) m.rows m.base w .dense bytes offset =
      .error (.malformed (.leadingDimension lda w)) := by
    refine (bind_scalar hrest ..).trans ?_
    rw [if_pos hne]
    rfl
  rw [hdense] at hparts
  rw [decode, decodeWithSize_eq, hparts]
  change (((readStorage (μ := Reader) m.rows m.base w .dense bytes offset >>= _) >>= _).map _) = _
  rw [hfail]
  rfl

/-! ### Headers -/

/-- Writing a matrix that has been read gives its header back, but for the leading dimension, and all of it
exactly if that was the one of the matrix. It is in dense storage: there any other one is refused as malformed.
In compressed and block rows any other one is accepted, and the matrix is the same. -/
theorem decode_header {bytes : List UInt8} {m : Matrix Double} (h : decode bytes = .ok m) :
    (∀ flat, Flat.ofMatrix m = .ok flat → header flat.block.bytes = m.header) ∧
      header bytes = m.header.set 3 (wordAt bytes 3) ∧
      (header bytes = m.header ↔ wordAt bytes 3 = m.leadingDimension) ∧
      (m.format = .dense → header bytes = m.header) ∧
      ∀ w, ∃ bytes', overwrite bytes 24 w.bytes = some bytes' ∧
        (m.format = .dense → w ≠ m.leadingDimension →
          decode bytes' = .error (.malformed (.leadingDimension m.leadingDimension w))) ∧
        (m.format ≠ .dense → decode bytes' = .ok m) := by
  obtain ⟨leadingDimension, rest, hstorage, hs⟩ := decode_eq_ok_iff_spells.mp h
  have hheader := header_of_spells hs
  have hword : wordAt bytes 3 = leadingDimension := congrArg (fun ws : List Word => ws.getD 3 0) hheader
  have hsame : header bytes = m.header ↔ wordAt bytes 3 = m.leadingDimension := by
    rw [hheader, hword]
    simp [Matrix.header]
  have hdense (hdense : m.format = .dense) : leadingDimension = m.leadingDimension := by
    obtain ⟨values, hvalues, -⟩ := hstorage.of_dense hdense
    rw [Matrix.leadingDimension, hvalues]
  refine ⟨fun flat hflat => ?_, hword ▸ hheader, hsame, fun hd => hsame.mpr (hword.trans (hdense hd)),
    fun w => ?_⟩
  · obtain ⟨-, rfl⟩ := ofMatrix_eq_ok_iff.mp hflat
    exact header_encode m
  · have hroom : 24 + w.bytes.length ≤ bytes.length := by
      have hsize := header_le_encodedSize m
      have hlength := encodedSize_le_length h
      rw [Word.length_bytes]
      omega
    refine ⟨_, if_pos hroom, fun hd hne => ?_, fun hsparse => ?_⟩
    · obtain ⟨values, -, rfl⟩ := hstorage.of_dense hd
      rw [← hdense hd] at hne ⊢
      exact decode_of_otherLeadingDimension hd (Ne.symm hne) (spells_leadingDimension hs (if_pos hroom))
    · exact decode_eq_ok_iff_spells.mpr
        ⟨w, rest, hstorage.of_sparse hsparse w, spells_leadingDimension hs (if_pos hroom)⟩

/-- The block of a matrix of one row and one column, in compressed rows, whose header says that the leading
dimension is 99. -/
def strayBytes : List UInt8 := sortedEntry.encode.set 24 99

set_option maxRecDepth 4000 in
theorem decode_strayBytes : decode strayBytes = .ok sortedEntry := by with_unfolding_all rfl

theorem decode_header_strayBytes : decode strayBytes = .ok sortedEntry ∧
    (∃ flat, Flat.ofMatrix sortedEntry = .ok flat ∧ header flat.block.bytes = [1, 1, 1, 1, 1, 0, 1]) ∧
    header strayBytes = [1, 1, 1, 99, 1, 0, 1] ∧
    ∃ bytes', overwrite strayBytes 24 (Word.bytes 7) = some bytes' ∧ decode bytes' = .ok sortedEntry := by
  obtain ⟨hwritten, hread, -, -, hchanged⟩ := decode_header decode_strayBytes
  obtain ⟨bytes', hbytes, -, hsparse⟩ := hchanged 7
  have hflat := ofMatrix_eq_ok_iff.mpr ⟨(by decide : sortedEntry.encodedSize + 64 ≤ addressSpace), rfl⟩
  exact ⟨decode_strayBytes, ⟨_, hflat, hwritten _ hflat⟩, hread, bytes', hbytes, hsparse (by decide)⟩

/-- Not every header that is accepted is the one that the matrix is written with. -/
theorem header_not_reproduced : ¬ ∀ (bytes : List UInt8) (m : Matrix Double), decode bytes = .ok m →
    ∀ flat, Flat.ofMatrix m = .ok flat → header flat.block.bytes = header bytes := by
  intro h
  have hflat := ofMatrix_eq_ok_iff.mpr ⟨(by decide : sortedEntry.encodedSize + 64 ≤ addressSpace), rfl⟩
  have hheader := h strayBytes sortedEntry decode_strayBytes _ hflat
  revert hheader
  decide

end Wire

end AccelKrylov
