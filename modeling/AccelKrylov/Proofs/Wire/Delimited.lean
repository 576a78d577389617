import AccelKrylov.Proofs.Wire.Written

/-! Blocks say where they end. Whether bytes open with the block of a matrix, and with which one, depends on
the bytes of its words and arrays alone: not on what follows the block, nor on what fills the gaps before
its arrays. So a block that is cut short is refused, and no block is the beginning of a longer one. -/

namespace AccelKrylov.Wire

/-! ### Bytes that do not matter -/

/-- Byte `i` lies in a gap of segments that start at `offset`. -/
def InGap : (offset : Nat) → List Segment → (i : Nat) → Prop
  | _, [], _ => False
  | offset, s :: rest, i =>
    ((∃ n, s = .gap n) ∧ offset ≤ i ∧ i < offset + s.size) ∨ InGap (offset + s.size) rest i

/-- Byte `i` of the block of a matrix fills a gap. -/
def IsPadding (m : Matrix Double) (i : Nat) : Prop := InGap 0 (layout m.fields) i

theorem InGap.le {offset i : Nat} {ss : List Segment} (h : InGap offset ss i) : offset ≤ i := by
  induction ss generalizing offset with
  | nil => cases h
  | cons s ss ih =>
    obtain ⟨-, hle, -⟩ | hin := h
    · exact hle
    · exact Nat.le_trans (Nat.le_add_right ..) (ih hin)

/-- Segments stay where they are when only bytes in gaps and behind the segments change. -/
theorem SegmentsAt.congr {bytes bytes' : List UInt8} {offset : Nat} {ss : List Segment}
    (h : SegmentsAt bytes offset ss) (hlength : offset + totalSize ss ≤ bytes'.length)
    (hsame : ∀ i, offset ≤ i → i < offset + totalSize ss → ¬ InGap offset ss i →
      bytes'[i]? = bytes[i]?) : SegmentsAt bytes' offset ss := by
  induction ss generalizing offset with
  | nil => trivial
  | cons s ss ih =>
    rw [totalSize_cons] at hlength hsame
    obtain ⟨⟨-, hs⟩, hrest⟩ := h
    refine ⟨⟨by omega, ?_⟩, ih hrest (by omega) fun i hfrom hto hgap => ?_⟩
    · by_cases hgap : ∃ n, s = .gap n
      · exact .inl hgap
      · right
        rw [← hs.resolve_left hgap]
        refine take_drop_congr fun i hfrom hto => hsame i hfrom (by omega) ?_
        rintro (⟨hn, -⟩ | hin)
        · exact hgap hn
        · have := hin.le
          omega
    · refine hsame i (by omega) (by omega) ?_
      rintro (⟨-, -, hlt⟩ | hin)
      · omega
      · exact hgap hin

/-! ### The fields that bytes spell and those of the matrix -/

/-- The field with its word, if it is one, put to zero. What words hold has no effect on the layout. -/
def Field.blank : Field → Field
  | .scalar _ => .scalar 0
  | .array ws => .array ws

theorem totalSize_blank (offset : Nat) (fields : List Field) :
    totalSize (layoutFrom offset (fields.map Field.blank)) = totalSize (layoutFrom offset fields) := by
  induction fields generalizing offset with
  | nil => rfl
  | cons f fields ih =>
    have hf : totalSize (f.blank.segments offset) = totalSize (f.segments offset) := by
      cases f <;> rfl
    rw [List.map_cons, layoutFrom, layoutFrom, totalSize_append, totalSize_append, hf, ih]

theorem inGap_append (offset : Nat) (ss rest : List Segment) (i : Nat) :
    InGap offset (ss ++ rest) i ↔ InGap offset ss i ∨ InGap (offset + totalSize ss) rest i := by
  induction ss generalizing offset with
  | nil => simp [InGap]
  | cons s ss ih => simp [InGap, ih, or_assoc, Nat.add_assoc]

theorem inGap_blank (offset : Nat) (fields : List Field) (i : Nat) :
    InGap offset (layoutFrom offset (fields.map Field.blank)) i ↔
      InGap offset (layoutFrom offset fields) i := by
  induction fields generalizing offset with
  | nil => rfl
  | cons f fields ih =>
    have hsize : totalSize (f.blank.segments offset) = totalSize (f.segments offset) := by
      cases f <;> rfl
    have hgap : InGap offset (f.blank.segments offset) i ↔ InGap offset (f.segments offset) i := by
      cases f with
      | array ws => rfl
      | scalar w => simp [Field.blank, Field.segments, InGap, Segment.size]
    rw [List.map_cons, layoutFrom, layoutFrom, inGap_append, inGap_append, hsize, hgap, ih]

theorem StorageSpelling.blank {rows base leadingDimension : Word} {fields : List Field}
    {storage : Storage Double} (h : StorageSpelling rows base leadingDimension fields storage) :
    fields.map Field.blank = (storageFields base storage).map Field.blank := by
  cases h with
  | dense values => rfl
  | csr entries unitDiagonal sorted upper lower shared => simp [storageFields, Field.flag, Field.blank]
  | bcsr runs shared nonempty few => simp [storageFields, Field.flag, Field.blank]

/-- Bytes that a matrix is read from spell the fields of its block, but for flags and for words that the
storage makes up for. -/
theorem PartsSpelling.blank {fields : List Field} {m : Matrix Double}
    (h : PartsSpelling fields (.ofMatrix m)) : fields.map Field.blank = m.fields.map Field.blank := by
  cases h with
  | intro _ leadingDimension rest storage =>
    have hrest := storage.blank
    change rest.map Field.blank = (storageFields m.base m.storage).map Field.blank at hrest
    simp [Matrix.fields, Field.blank, hrest]

theorem PartsSpelling.size_eq {fields : List Field} {m : Matrix Double}
    (h : PartsSpelling fields (.ofMatrix m)) : size fields = m.encodedSize := by
  unfold size layout Matrix.encodedSize size layout
  rw [← totalSize_blank, h.blank, totalSize_blank]

theorem PartsSpelling.isPadding_iff {fields : List Field} {m : Matrix Double}
    (h : PartsSpelling fields (.ofMatrix m)) (i : Nat) :
    InGap 0 (layout fields) i ↔ IsPadding m i := by
  unfold IsPadding layout
  rw [← inGap_blank, h.blank, inGap_blank]

/-! ### Reading -/

theorem decode_eq_ok_iff {bytes : List UInt8} {m : Matrix Double} :
    decode bytes = .ok m ↔ decodeWithSize bytes = .ok (m, m.encodedSize) := by
  unfold decode
  constructor
  · intro h
    cases hread : decodeWithSize bytes with
    | error e => rw [hread] at h; cases h
    | ok s =>
      rw [hread] at h
      obtain ⟨m', last⟩ := s
      obtain rfl : m' = m := Except.ok.inj h
      obtain ⟨fields, hfields, -, rfl⟩ := decodeWithSize_eq_ok_iff.mp hread
      rw [hfields.size_eq]
  · intro h
    rw [h]
    rfl

theorem encodedSize_le_length {bytes : List UInt8} {m : Matrix Double} (h : decode bytes = .ok m) :
    m.encodedSize ≤ bytes.length := by
  obtain ⟨fields, hfields, hs, hsize⟩ := decodeWithSize_eq_ok_iff.mp (decode_eq_ok_iff.mp h)
  have hstop := hs.stop_le
  rw [Nat.zero_max] at hstop
  rw [hsize]
  simpa [stop, size, layout] using hstop

/-- The bytes of the words and arrays are all that matters. -/
theorem decode_congr {bytes bytes' : List UInt8} {m : Matrix Double} (h : decode bytes = .ok m)
    (hlength : m.encodedSize ≤ bytes'.length)
    (hsame : ∀ i < m.encodedSize, ¬ IsPadding m i → bytes'[i]? = bytes[i]?) : decode bytes' = .ok m := by
  obtain ⟨fields, hfields, hs, hsize⟩ := decodeWithSize_eq_ok_iff.mp (decode_eq_ok_iff.mp h)
  have htotal : totalSize (layoutFrom 0 fields) = m.encodedSize := hsize.symm
  refine decode_eq_ok_iff.mpr (decodeWithSize_eq_ok_iff.mpr ⟨fields, hfields, ⟨hs.1, ?_⟩, hsize⟩)
  refine hs.2.congr (by omega) fun i _ hto hgap => hsame i (by omega) ?_
  exact fun hpadding => hgap ((hfields.isPadding_iff i).mpr hpadding)

/-- What follows the block does not matter. -/
theorem decode_take_append {bytes : List UInt8} {m : Matrix Double} (h : decode bytes = .ok m)
    (tail : List UInt8) : decode (bytes.take m.encodedSize ++ tail) = .ok m := by
  have hle := encodedSize_le_length h
  refine decode_congr h (by rw [List.length_append, List.length_take]; omega) fun i hi _ => ?_
  rw [List.getElem?_append_left (by rw [List.length_take]; omega), List.getElem?_take, if_pos hi]

/-! ### Blocks that are cut short -/

theorem wordAt_take {bytes : List UInt8} {k i : Nat} (h : 8 * (i + 1) ≤ (bytes.take k).length) :
    wordAt (bytes.take k) i = wordAt bytes i := by
  rw [List.length_take] at h
  refine congrArg Word.ofBytes (take_drop_congr fun j _ hj => ?_)
  rw [List.getElem?_take, if_pos (by omega)]

theorem UnknownTagIn.of_take {bytes : List UInt8} {k : Nat} (h : UnknownTagIn (bytes.take k)) :
    UnknownTagIn bytes := by
  have hle : (bytes.take k).length ≤ bytes.length := List.length_take_le' ..
  obtain ⟨hlength, hf⟩ | ⟨hlength, hk⟩ | ⟨hlength, hr⟩ := h
  · exact .inl ⟨by omega, fun f => wordAt_take (i := 4) hlength ▸ hf f⟩
  · exact .inr (.inl ⟨by omega, fun kind => wordAt_take (i := 5) hlength ▸ hk kind⟩)
  · exact .inr (.inr ⟨by omega, fun r => wordAt_take (i := 6) hlength ▸ hr r⟩)

/-- A reader that ran out of no bytes would have read the same from more of them, and no tag is unknown
that is known in the whole block. -/
theorem decode_take_of_lt {bytes : List UInt8} {m : Matrix Double} {k : Nat} (h : decode bytes = .ok m)
    (hk : k < m.encodedSize) : ∃ fault, decode (bytes.take k) = .error (.malformed fault) := by
  cases hread : decode (bytes.take k) with
  | ok m' =>
    have hle := encodedSize_le_length hread
    rw [List.length_take] at hle
    have hwhole : decode bytes = .ok m' := by
      refine decode_congr hread (by omega) fun i hi _ => ?_
      rw [List.getElem?_take, if_pos (by omega)]
    obtain rfl : m = m' := Except.ok.inj (h.symm.trans hwhole)
    omega
  | error e =>
    cases e with
    | malformed fault => exact ⟨fault, rfl⟩
    | unsupported tag =>
      have hunknown := ((isUnsupported_decode _).mp ⟨tag, hread⟩).of_take
      obtain ⟨tag', htag⟩ := (isUnsupported_decode bytes).mpr hunknown
      rw [h] at htag
      cases htag

/-! ### Whole blocks -/

/-- The bytes are a whole block: one that a matrix was written as, or that a matrix is read from up to its
last byte. -/
inductive IsBlock : List UInt8 → Prop where
  | written {m : Matrix Double} {flat : Flat} (h : Flat.ofMatrix m = .ok flat) : IsBlock flat.block.bytes
  | read {bytes : List UInt8} (h : decodedSize bytes = .ok bytes.length) : IsBlock bytes

/-- What is read from a whole block takes it up to its last byte. -/
theorem IsBlock.length_eq {bytes : List UInt8} {m : Matrix Double} (hb : IsBlock bytes)
    (h : decode bytes = .ok m) : bytes.length = m.encodedSize := by
  rw [decode_eq_ok_iff] at h
  cases hb with
  | @written m' flat hflat =>
    have hread := decodeWithSize_written hflat []
    rw [List.append_nil, h] at hread
    unfold readBack at hread
    split at hread
    · obtain ⟨rfl, -⟩ := Prod.mk.inj (Except.ok.inj hread)
      obtain ⟨-, rfl⟩ := ofMatrix_eq_ok_iff.mp hflat
      exact length_encode m
    · cases hread
  | read hsize =>
    unfold decodedSize at hsize
    rw [h] at hsize
    exact (Except.ok.inj hsize).symm

/-- Of two whole blocks one of which can be read, neither is the beginning of the other without being the
same. -/
theorem IsBlock.eq_take {whole bytes : List UInt8} {m : Matrix Double} (hb : IsBlock whole)
    (h : decode bytes = .ok m) (hfront : bytes.take m.encodedSize <+: whole) :
    whole = bytes.take m.encodedSize := by
  obtain ⟨tail, rfl⟩ := hfront
  have hlength := hb.length_eq (decode_take_append h tail)
  have hle := encodedSize_le_length h
  rw [List.length_append, List.length_take] at hlength
  rw [List.length_eq_zero_iff.mp (by omega : tail.length = 0), List.append_nil]

/-- A matrix that has been read has no more runs than are read. -/
theorem readBack_of_decode {bytes : List UInt8} {m : Matrix Double} (h : decode bytes = .ok m) :
    readBack m = .ok m := by
  obtain ⟨fields, ⟨_, leadingDimension, rest, storage⟩, -, -⟩ :=
    decodeWithSize_eq_ok_iff.mp (decode_eq_ok_iff.mp h)
  change StorageSpelling m.rows m.base leadingDimension rest m.storage at storage
  refine if_pos ?_
  unfold blockRuns
  generalize m.storage = s at storage
  cases storage with
  | bcsr runs shared nonempty few => exact few
  | dense | csr => exact Nat.zero_le _

/-- Bytes that open with the block of a matrix say where it ends: the size read off them is the one that the
matrix is written with, and lies within them. Writing the matrix and reading it again gives the same matrix,
bit by bit. Neither the bytes behind the block nor those that fill the gaps before its arrays have an effect
on what is read. Any shorter part of the block is refused as malformed, and no whole block goes on behind
it. -/
theorem decode_self_delimiting {bytes : List UInt8} {m : Matrix Double} (h : decode bytes = .ok m) :
    decodedSize bytes = .ok m.encodedSize ∧ m.encodedSize ≤ bytes.length ∧
      ((∃ flat, Flat.ofMatrix m = .ok flat) ↔ m.encodedSize + arrayAlignment ≤ addressSpace) ∧
      (∀ flat, Flat.ofMatrix m = .ok flat → decode flat.block.bytes = .ok m) ∧
      (∀ bytes' : List UInt8, m.encodedSize ≤ bytes'.length →
        (∀ i < m.encodedSize, ¬ IsPadding m i → bytes'[i]? = bytes[i]?) →
        decode bytes' = .ok m ∧ decodedSize bytes' = .ok m.encodedSize) ∧
      (∀ k < m.encodedSize, ∃ e text,
        decode (bytes.take k) = .error e ∧ Error.ofDecode e = .malformedBuffer text) ∧
      ∀ whole, IsBlock whole → bytes.take m.encodedSize <+: whole →
        whole = bytes.take m.encodedSize := by
  have size_of {bs : List UInt8} (hbs : decode bs = .ok m) : decodedSize bs = .ok m.encodedSize := by
    unfold decodedSize
    rw [decode_eq_ok_iff.mp hbs]
    rfl
  refine ⟨size_of h, encodedSize_le_length h, ?_, ?_, ?_, ?_, ?_⟩
  · constructor
    · rintro ⟨flat, hflat⟩
      exact (ofMatrix_eq_ok_iff.mp hflat).1
    · exact fun hmemory => ⟨_, ofMatrix_eq_ok_iff.mpr ⟨hmemory, rfl⟩⟩
  · intro flat hflat
    have hread := decodeWithSize_written hflat []
    rw [List.append_nil, readBack_of_decode h] at hread
    exact decode_eq_ok_iff.mpr hread
  · intro bytes' hlength hsame
    have hread := decode_congr h hlength hsame
    exact ⟨hread, size_of hread⟩
  · intro k hk
    obtain ⟨fault, hfault⟩ := decode_take_of_lt h hk
    exact ⟨_, _, hfault, rfl⟩
  · exact fun whole hwhole hfront => hwhole.eq_take h hfront

/-- One row and one column, counted from one, as compressed rows that are declared sorted. -/
def sortedEntry : Matrix Double where
  rows := 1
  cols := 1
  base := 1
  kind := .real
  representation := .symmetric
  storage := .csr ⟨#[1, 2], #[1], #[⟨0x8000000000000000⟩]⟩ { sorted := true }
  fits := by cbv

/-- The entry as no writer puts it: with another word for true, a byte in a gap that is not zero, and two
bytes behind the block. -/
def sortedEntryBytes : List UInt8 :=
  (sortedEntry.encode.set 72 6).set 120 7 ++ [8, 9]

set_option maxRecDepth 4000 in
theorem decode_self_delimiting_sortedEntry :
    decode sortedEntryBytes = .ok sortedEntry ∧ decodedSize sortedEntryBytes = .ok 272 ∧
      decode sortedEntry.encode = .ok sortedEntry ∧
      ∃ e text, decode (sortedEntryBytes.take 271) = .error e ∧
        Error.ofDecode e = .malformedBuffer text := by
  have hread : decode sortedEntryBytes = .ok sortedEntry := by with_unfolding_all rfl
  have hsize : sortedEntry.encodedSize = 272 := by decide
  obtain ⟨hdecoded, -, hmemory, hflat, -, hshort, -⟩ := decode_self_delimiting hread
  obtain ⟨flat, hwritten⟩ := hmemory.mpr (by decide)
  have hbytes : flat.block.bytes = sortedEntry.encode := by rw [(ofMatrix_eq_ok_iff.mp hwritten).2]
  have hwhole := hflat flat hwritten
  rw [hbytes] at hwhole
  rw [hsize] at hdecoded hshort
  exact ⟨hread, hdecoded, hwhole, hshort 271 (by decide)⟩

end AccelKrylov.Wire
