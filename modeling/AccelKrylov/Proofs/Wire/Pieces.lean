import AccelKrylov.Proofs.Wire.RoundTrip

/-! Where the words and arrays of a matrix stand in its block. They follow one another and do not overlap, and
all bytes between them are zero. Every array starts at a multiple of 64, less than 64 bytes behind the word
that holds its length; so the gaps never add up to more than 63 bytes for each array. -/

namespace AccelKrylov

namespace Wire

/-! ### Pieces -/

/-- The words of an array. -/
def Segment.words? : Segment → Option (List Word)
  | gap _ | scalar _ => none
  | array ws => some ws

/-- A word or an array in a block, with where it starts. -/
structure Piece where
  start : Nat
  content : Segment
deriving DecidableEq

namespace Piece

def size (p : Piece) : Nat := p.content.size

/-- Where a piece ends. -/
def stop (p : Piece) : Nat := p.start + p.size

/-- Byte `i` of the block is one of the piece. -/
def Covers (p : Piece) (i : Nat) : Prop := p.start ≤ i ∧ i < p.stop

def IsWord (p : Piece) : Prop := ∃ w, p.content = .scalar w

/-- Where an array starts, and its words. -/
def array? (p : Piece) : Option (Nat × List Word) := p.content.words?.map fun ws => (p.start, ws)

end Piece

/-- The words and arrays among segments of which the first is at `offset`. -/
def pieces : (offset : Nat) → List Segment → List Piece
  | _, [] => []
  | offset, .gap n :: rest => pieces (offset + n) rest
  | offset, .scalar w :: rest => ⟨offset, .scalar w⟩ :: pieces (offset + 8) rest
  | offset, .array ws :: rest => ⟨offset, .array ws⟩ :: pieces (offset + 8 * ws.length) rest

section
variable {offset : Nat} {ss : List Segment} {p : Piece}

theorem pieces_cons (offset : Nat) (s : Segment) (rest : List Segment) :
    pieces offset (s :: rest) = pieces offset [s] ++ pieces (offset + s.size) rest := by
  cases s <;> rfl

theorem pieces_append (offset : Nat) (ss rest : List Segment) :
    pieces offset (ss ++ rest) = pieces offset ss ++ pieces (offset + totalSize ss) rest := by
  induction ss generalizing offset with
  | nil => rfl
  | cons s ss ih =>
    rw [List.cons_append, pieces_cons, ih, pieces_cons offset s ss, List.append_assoc, totalSize_cons,
      Nat.add_assoc]

/-- A piece of a single segment is the segment. -/
theorem eq_of_mem_single {s : Segment} (h : p ∈ pieces offset [s]) : p = ⟨offset, s⟩ := by
  cases s with
  | gap n => cases h
  | scalar w => exact List.mem_singleton.mp h
  | array ws => exact List.mem_singleton.mp h

/-- Pieces stand within their segments. -/
theorem bounds_of_mem (h : p ∈ pieces offset ss) : offset ≤ p.start ∧ p.stop ≤ offset + totalSize ss := by
  induction ss generalizing offset with
  | nil => cases h
  | cons s ss ih =>
    rw [pieces_cons] at h
    rw [totalSize_cons]
    obtain h | h := List.mem_append.mp h
    · obtain rfl := eq_of_mem_single h
      exact ⟨Nat.le_refl _, show offset + s.size ≤ _ by omega⟩
    · have := ih h
      omega

/-- Each piece ends before the next one starts. -/
theorem ordered_pieces (offset : Nat) (ss : List Segment) :
    (pieces offset ss).Pairwise fun p q => p.stop ≤ q.start := by
  induction ss generalizing offset with
  | nil => exact .nil
  | cons s ss ih =>
    rw [pieces_cons]
    refine List.pairwise_append.mpr ⟨?_, ih _, fun p hp q hq => ?_⟩
    · cases s with
      | gap n => exact .nil
      | scalar w => exact List.pairwise_singleton ..
      | array ws => exact List.pairwise_singleton ..
    · obtain rfl := eq_of_mem_single hp
      exact (bounds_of_mem hq).1

/-- What bytes spell they hold piece by piece. -/
theorem bytes_of_mem {bytes : List UInt8} (hs : SegmentsAt bytes offset ss) (h : p ∈ pieces offset ss) :
    (bytes.drop p.start).take p.size = p.content.bytes := by
  induction ss generalizing offset with
  | nil => cases h
  | cons s ss ih =>
    obtain ⟨⟨-, hs⟩, hrest⟩ := hs
    rw [pieces_cons] at h
    obtain h | h := List.mem_append.mp h
    · obtain rfl := eq_of_mem_single h
      refine hs.resolve_left ?_
      rintro ⟨n, rfl⟩
      cases h
    · exact ih hrest h

/-- Bytes outside all pieces are zero. -/
theorem getElem?_of_uncovered (offset : Nat) {i : Nat} (hi : i < totalSize ss)
    (h : ∀ p ∈ pieces offset ss, ¬ p.Covers (offset + i)) : (ss.flatMap Segment.bytes)[i]? = some 0 := by
  induction ss generalizing offset i with
  | nil => exact absurd hi (Nat.not_lt_zero _)
  | cons s ss ih =>
    rw [totalSize_cons] at hi
    rw [pieces_cons] at h
    rw [List.flatMap_cons]
    by_cases hwithin : i < s.size
    · rw [List.getElem?_append_left (by rwa [Segment.length_bytes])]
      have hout (hs : (⟨offset, s⟩ : Piece) ∈ pieces offset [s]) : False :=
        h _ (List.mem_append_left _ hs) ⟨Nat.le_add_right .., Nat.add_lt_add_left hwithin _⟩
      cases s with
      | gap n => exact List.getElem?_replicate_of_lt hwithin
      | scalar w => exact (hout List.mem_cons_self).elim
      | array ws => exact (hout List.mem_cons_self).elim
    · rw [List.getElem?_append_right (by rw [Segment.length_bytes]; omega), Segment.length_bytes]
      refine ih (offset + s.size) (by omega) fun p hp => ?_
      have hout := h p (List.mem_append_right _ hp)
      rwa [show offset + s.size + (i - s.size) = offset + i by omega]

/-- The positions of the arrays are where the pieces that are arrays start. -/
theorem arrayOffsetsFrom_eq (offset : Nat) (ss : List Segment) :
    arrayOffsetsFrom offset ss = ((pieces offset ss).filterMap Piece.array?).map Prod.fst := by
  induction ss generalizing offset with
  | nil => rfl
  | cons s ss ih =>
    cases s with
    | gap n => exact ih _
    | scalar w => exact ih _
    | array ws => exact congrArg (offset :: ·) (ih _)

theorem words_pieces (ps : List Piece) :
    (ps.filterMap Piece.array?).map Prod.snd = (ps.map Piece.content).filterMap Segment.words? := by
  rw [List.map_filterMap, List.filterMap_map]
  refine congrArg (List.filterMap · ps) (funext fun p => ?_)
  cases h : p.content.words? <;> simp [Piece.array?, h]

end

/-! ### Pieces of fields -/

/-- A word, or an array behind the word for its length in bytes. -/
def Field.contents : Field → List Segment
  | .scalar w => [.scalar w]
  | .array ws => [.scalar (UInt64.ofNat (8 * ws.length)), .array ws]

/-- The pieces of fields that start at `offset`. -/
def fieldPieces (offset : Nat) (fields : List Field) : List Piece := pieces offset (layoutFrom offset fields)

section
variable {offset : Nat} {fields : List Field} {p : Piece}

theorem fieldPieces_cons (offset : Nat) (f : Field) (fields : List Field) :
    fieldPieces offset (f :: fields) = fieldPieces offset [f] ++ fieldPieces (stop offset [f]) fields := by
  have hone : layoutFrom offset [f] = f.segments offset := by simp [layoutFrom]
  rw [fieldPieces, layoutFrom, pieces_append, stop, fieldPieces, fieldPieces, hone]

theorem fieldPieces_scalar (offset : Nat) (w : Word) :
    fieldPieces offset [.scalar w] = [⟨offset + padding offset scalarAlignment, .scalar w⟩] := rfl

theorem fieldPieces_array (offset : Nat) (ws : List Word) : fieldPieces offset [.array ws] =
    let start := offset + padding offset scalarAlignment
    [⟨start, .scalar (UInt64.ofNat (8 * ws.length))⟩,
      ⟨start + 8 + padding (start + 8) arrayAlignment, .array ws⟩] := rfl

/-- The pieces are the words and arrays of the fields, in their order. -/
theorem contents_fieldPieces (offset : Nat) (fields : List Field) :
    (fieldPieces offset fields).map Piece.content = fields.flatMap Field.contents := by
  induction fields generalizing offset with
  | nil => rfl
  | cons f fields ih =>
    rw [fieldPieces_cons, List.map_append, ih, List.flatMap_cons]
    cases f <;> rfl

theorem dvd_add_padding (offset : Nat) {align : Nat} (h : 0 < align) :
    align ∣ offset + padding offset align := by
  rw [add_padding offset h]
  exact Nat.dvd_sub_mod _

/-- Words start at multiples of eight, and arrays at multiples of 64. -/
theorem dvd_start_of_mem (h : p ∈ fieldPieces offset fields) :
    8 ∣ p.start ∧ (p.array?.isSome → 64 ∣ p.start) := by
  induction fields generalizing offset with
  | nil => cases h
  | cons f fields ih =>
    rw [fieldPieces_cons] at h
    obtain h | h := List.mem_append.mp h
    · have hscalar : 8 ∣ offset + padding offset scalarAlignment := dvd_add_padding offset (by decide)
      cases f with
      | scalar w =>
        obtain rfl := List.mem_singleton.mp h
        exact ⟨hscalar, nofun⟩
      | array ws =>
        have harray : 64 ∣ offset + padding offset scalarAlignment + 8 +
            padding (offset + padding offset scalarAlignment + 8) arrayAlignment :=
          dvd_add_padding _ (by decide)
        simp only [fieldPieces_array, List.mem_cons, List.not_mem_nil, or_false] at h
        obtain rfl | rfl := h
        · exact ⟨hscalar, nofun⟩
        · exact ⟨Nat.dvd_trans (by decide) harray, fun _ => harray⟩
    · exact ih h

/-- In front of an array stands the word for its length, less than 64 bytes away. -/
theorem exists_split_of_array {start : Nat} {ws : List Word}
    (h : ⟨start, .array ws⟩ ∈ fieldPieces offset fields) : ∃ before behind p,
      fieldPieces offset fields = before ++ p :: ⟨start, .array ws⟩ :: behind ∧
      p.content = .scalar (UInt64.ofNat (8 * ws.length)) ∧ p.stop ≤ start ∧ start < p.stop + 64 := by
  induction fields generalizing offset with
  | nil => cases h
  | cons f fields ih =>
    rw [fieldPieces_cons] at h ⊢
    obtain h | h := List.mem_append.mp h
    · cases f with
      | scalar w => cases List.mem_singleton.mp h
      | array own =>
        rw [fieldPieces_array] at h ⊢
        obtain h | h := List.mem_cons.mp h
        · cases h
        · obtain ⟨rfl, hwords⟩ := Piece.mk.inj (List.mem_singleton.mp h)
          obtain rfl := Segment.array.inj hwords
          exact ⟨[], _, _, rfl, rfl, Nat.le_add_right ..,
            Nat.add_lt_add_left (padding_lt _ (by decide : 0 < arrayAlignment)) _⟩
    · obtain ⟨before, behind, p, hsplit, hp⟩ := ih h
      exact ⟨fieldPieces offset [f] ++ before, behind, p, by rw [hsplit, List.append_assoc], hp⟩

theorem stop_single_le (f : Field) (hoffset : 8 ∣ offset) : 8 ∣ stop offset [f] ∧ stop offset [f] ≤
    offset + ((fieldPieces offset [f]).map Piece.size).sum +
      63 * ((fieldPieces offset [f]).filterMap Piece.array?).length := by
  have hpad : padding offset scalarAlignment = 0 := by
    unfold padding scalarAlignment
    omega
  cases f with
  | scalar w =>
    rw [stop_scalar, fieldPieces_scalar, hpad]
    simp [Piece.size, Segment.size]
    omega
  | array ws =>
    have hgap : padding (offset + 8) arrayAlignment < 64 := padding_lt _ (by decide)
    have hdvd : 64 ∣ offset + 8 + padding (offset + 8) arrayAlignment := dvd_add_padding _ (by decide)
    rw [stop_array, fieldPieces_array, hpad]
    simp only [Nat.add_zero, List.map_cons, List.map_nil, List.sum_cons, List.sum_nil, Piece.size,
      Segment.size, List.filterMap_cons, List.filterMap_nil, Piece.array?, Segment.words?, Option.map_none,
      Option.map_some, List.length_cons, List.length_nil]
    omega

/-- Fields that start at a multiple of eight end at one, and need gaps in front of arrays only. -/
theorem stop_le (hoffset : 8 ∣ offset) : 8 ∣ stop offset fields ∧ stop offset fields ≤
    offset + ((fieldPieces offset fields).map Piece.size).sum +
      63 * ((fieldPieces offset fields).filterMap Piece.array?).length := by
  induction fields generalizing offset with
  | nil => exact ⟨hoffset, Nat.le_add_right ..⟩
  | cons f fields ih =>
    obtain ⟨hfirst, hle⟩ := stop_single_le f hoffset
    obtain ⟨hrest, hles⟩ := ih hfirst
    have hstop : stop offset (f :: fields) = stop (stop offset [f]) fields := stop_append offset [f] fields
    rw [hstop, fieldPieces_cons, List.map_append, List.sum_append, List.filterMap_append, List.length_append]
    exact ⟨hrest, by omega⟩

/-- What starts in front of an array stands in front of the word for its length, or is that word. -/
theorem stop_le_or_eq {before behind : List Piece} {a b q : Piece}
    (ho : (before ++ a :: b :: behind).Pairwise fun p q => p.stop ≤ q.start)
    (hq : q ∈ before ++ a :: b :: behind) (hlt : q.start < b.start) : q.stop ≤ a.start ∨ q = a := by
  obtain ⟨-, hab, hbefore⟩ := List.pairwise_append.mp ho
  obtain ⟨-, hb⟩ := List.pairwise_cons.mp hab
  obtain hq | hq := List.mem_append.mp hq
  · exact .inl (hbefore q hq a List.mem_cons_self)
  · obtain rfl | hq := List.mem_cons.mp hq
    · exact .inr rfl
    · obtain rfl | hq := List.mem_cons.mp hq
      · omega
      · have hstop := (List.pairwise_cons.mp hb).1 q hq
        have hle : b.start ≤ b.stop := Nat.le_add_right ..
        omega

end

end Wire

/-! ### The arrays of a matrix -/

def Compressed.arrays (c : Compressed Double) : List (List Word) :=
  [c.offsets.toList, c.columns.toList, c.values.toList.map Double.bits]

open Wire

namespace Matrix

/-- The arrays that a matrix stores, as words. -/
def arrays (m : Matrix Double) : List (List Word) :=
  match m.storage with
  | .dense _ values => [values.toList.map Double.bits]
  | .csr entries _ => entries.arrays
  | .bcsr runs _ => runs.flatMap fun b => b.toCompressed.arrays

theorem arrays_eq (m : Matrix Double) :
    (m.fields.flatMap Field.contents).filterMap Segment.words? = m.arrays := by
  unfold arrays Matrix.fields
  cases m.storage with
  | dense lda values => rfl
  | csr entries flags => rfl
  | bcsr runs shared =>
    have hrun (b : BlockRows Double) : ((runFields b).flatMap Field.contents).filterMap Segment.words? =
        b.toCompressed.arrays := rfl
    simp only [storageFields, List.flatMap_append, List.flatMap_cons, List.flatMap_assoc,
      List.filterMap_append, List.filterMap_flatMap, hrun]
    simp [Field.flag, Field.contents, List.filterMap_cons, Segment.words?]

theorem length_arrays (m : Matrix Double) : m.arrays.length =
    match m.storage with
    | .dense .. => 1
    | .csr .. => 3
    | .bcsr runs _ => 3 * runs.length := by
  unfold arrays
  cases m.storage with
  | dense lda values => rfl
  | csr entries flags => rfl
  | bcsr runs shared => simp [Compressed.arrays, List.map_const', Nat.mul_comm]

/-- The words and arrays of a matrix in its block. -/
def pieces (m : Matrix Double) : List Piece := fieldPieces 0 m.fields

/-- A word that ends less than 64 bytes before `offset`, with padding only in between. -/
def Announces (m : Matrix Double) (p : Piece) (offset : Nat) : Prop :=
  p ∈ m.pieces ∧ p.IsWord ∧ p.stop ≤ offset ∧ offset < p.stop + 64 ∧
    ∀ i, p.stop ≤ i → i < offset → ∀ q ∈ m.pieces, ¬ q.Covers i

/-- How the words and arrays of a matrix stand in its block. -/
structure Arranged (m : Matrix Double) (flat : Flat) : Prop where
  /-- They are the fields of the matrix in their order, each array behind the word for its length. -/
  contents : m.pieces.map Piece.content = m.fields.flatMap Field.contents
  written : ∀ p ∈ m.pieces, p.stop ≤ flat.block.bytes.length ∧
    (flat.block.bytes.drop p.start).take p.size = p.content.bytes
  ordered : m.pieces.Pairwise fun p q => p.stop ≤ q.start
  /-- All other bytes are zero. -/
  blank : ∀ i < flat.block.bytes.length, (∀ p ∈ m.pieces, ¬ p.Covers i) → flat.block.bytes[i]? = some 0
  /-- The offsets are those of all arrays in their order. -/
  offsets : m.pieces.filterMap Piece.array? = flat.arrayOffsets.zip m.arrays
  count : flat.arrayOffsets.length = m.arrays.length ∧ m.arrays.length =
    match m.storage with
    | .dense .. => 1
    | .csr .. => 3
    | .bcsr runs _ => 3 * runs.length
  aligned : (∀ p ∈ m.pieces, 8 ∣ p.start) ∧ ∀ offset ∈ flat.arrayOffsets, 64 ∣ offset
  /-- The last word in front of an array, and the only one with less than 64 bytes of padding in between, holds
  the length of the array. -/
  announced : ∀ offset ws, (offset, ws) ∈ flat.arrayOffsets.zip m.arrays →
    ∃ p, m.Announces p offset ∧ (∀ q, m.Announces q offset → q = p) ∧ 8 ∣ p.start ∧
      (∃ w, p.content = .scalar w ∧ w.toNat = 8 * ws.length) ∧
      ∀ q ∈ m.pieces, q.IsWord → q.start < offset → q.start ≤ p.start
  length_le : flat.block.bytes.length ≤
    (m.pieces.map Piece.size).sum + 63 * flat.arrayOffsets.length

section
variable {m : Matrix Double}

theorem arrayOffsets_eq (m : Matrix Double) :
    arrayOffsets m.fields = (m.pieces.filterMap Piece.array?).map Prod.fst := arrayOffsetsFrom_eq 0 _

theorem arrays_eq_pieces (m : Matrix Double) : m.arrays = (m.pieces.filterMap Piece.array?).map Prod.snd := by
  rw [words_pieces, pieces, contents_fieldPieces, arrays_eq]

theorem zip_arrayOffsets (m : Matrix Double) :
    (arrayOffsets m.fields).zip m.arrays = m.pieces.filterMap Piece.array? := by
  rw [arrayOffsets_eq, arrays_eq_pieces, ← List.unzip_fst, ← List.unzip_snd, List.zip_unzip]

theorem length_arrayOffsets (m : Matrix Double) : (arrayOffsets m.fields).length = m.arrays.length := by
  rw [arrayOffsets_eq, arrays_eq_pieces, List.length_map, List.length_map]

theorem encodedSize_le (m : Matrix Double) :
    m.encodedSize ≤ (m.pieces.map Piece.size).sum + 63 * (arrayOffsets m.fields).length := by
  have hle := (@stop_le 0 m.fields (Nat.dvd_zero 8)).2
  have hstop : stop 0 m.fields = m.encodedSize := Nat.zero_add _
  rw [hstop, Nat.zero_add] at hle
  rw [arrayOffsets_eq, List.length_map]
  exact hle

theorem mem_filterMap_array? {offset : Nat} {ws : List Word} :
    (offset, ws) ∈ m.pieces.filterMap Piece.array? ↔ ⟨offset, .array ws⟩ ∈ m.pieces := by
  rw [List.mem_filterMap]
  constructor
  · rintro ⟨⟨start, content⟩, hp, harray⟩
    cases content with
    | array own =>
      cases harray
      exact hp
    | gap n => cases harray
    | scalar w => cases harray
  · exact fun hp => ⟨_, hp, rfl⟩

/-- The word in front of an array, which nothing but padding parts from it. -/
theorem exists_announces (hsize : m.encodedSize < 2 ^ 64) {offset : Nat} {ws : List Word}
    (h : ⟨offset, .array ws⟩ ∈ m.pieces) :
    ∃ p, m.Announces p offset ∧ (∀ q, m.Announces q offset → q = p) ∧
      (∃ w, p.content = .scalar w ∧ w.toNat = 8 * ws.length) ∧
      ∀ q ∈ m.pieces, q.start < offset → q.start ≤ p.start := by
  obtain ⟨before, behind, p, hsplit, hword, hstop, hgap⟩ := exists_split_of_array h
  have hordered : (fieldPieces 0 m.fields).Pairwise fun p q => p.stop ≤ q.start := ordered_pieces 0 _
  have hfirst {q : Piece} (hq : q ∈ m.pieces) (hlt : q.start < offset) : q.stop ≤ p.start ∨ q = p := by
    rw [pieces, hsplit] at hq
    exact stop_le_or_eq (hsplit ▸ hordered) hq hlt
  have hp : p ∈ m.pieces := by
    rw [pieces, hsplit]
    simp
  have hend : offset + 8 * ws.length ≤ 0 + m.encodedSize := (bounds_of_mem h).2
  refine ⟨p, ⟨hp, ⟨_, hword⟩, hstop, hgap, fun i hfrom hto q hq ⟨hstart, hin⟩ => ?_⟩, fun q hq => ?_,
    ⟨_, hword, UInt64.toNat_ofNat_of_lt' (show 8 * ws.length < 2 ^ 64 by omega)⟩, fun q hq hlt => ?_⟩
  · have hle : p.start ≤ p.stop := Nat.le_add_right ..
    obtain hbefore | rfl := hfirst hq (by omega)
    · omega
    · omega
  · obtain ⟨hq, ⟨w, hw⟩, hqstop, -, hpadding⟩ := hq
    have hqsize : q.stop = q.start + 8 := by rw [Piece.stop, Piece.size, hw]; rfl
    have hpsize : p.stop = p.start + 8 := by rw [Piece.stop, Piece.size, hword]; rfl
    -- a word further in front would have this one in its padding
    refine (hfirst hq (by omega)).resolve_left fun hbefore => ?_
    exact hpadding p.start hbefore (by omega) p hp ⟨Nat.le_refl _, by omega⟩
  · have hle : q.start ≤ q.stop := Nat.le_add_right ..
    obtain hbefore | rfl := hfirst hq hlt
    · omega
    · exact Nat.le_refl _

end

theorem arranged_of_ofMatrix {m : Matrix Double} {flat : Flat} (h : Flat.ofMatrix m = .ok flat) :
    m.Arranged flat := by
  obtain ⟨hmemory, hflat⟩ := ofMatrix_eq_ok_iff.mp h
  have hbytes : flat.block.bytes = m.encode := by rw [hflat]
  have hoffsets : flat.arrayOffsets = arrayOffsets m.fields := by rw [hflat]
  have hlength : m.encode.length = m.encodedSize := length_flatMap_bytes _
  have hspells : SegmentsAt m.encode 0 (layout m.fields) := by
    simpa [Matrix.encode, bytes] using segmentsAt_flatMap_bytes [] (layout m.fields) []
  have hsize : m.encodedSize < 2 ^ 64 := by
    unfold addressSpace at hmemory
    omega
  constructor
  case contents => exact contents_fieldPieces 0 m.fields
  case ordered => exact ordered_pieces 0 _
  case written =>
    intro p hp
    have hbounds : p.stop ≤ 0 + m.encodedSize := (bounds_of_mem hp).2
    rw [hbytes, hlength]
    exact ⟨by omega, bytes_of_mem hspells hp⟩
  case blank =>
    intro i hi hout
    rw [hbytes, hlength] at hi
    rw [hbytes]
    refine getElem?_of_uncovered 0 hi fun p hp => ?_
    rw [Nat.zero_add]
    exact hout p hp
  case offsets => rw [hoffsets, zip_arrayOffsets]
  case count =>
    rw [hoffsets]
    exact ⟨length_arrayOffsets m, length_arrays m⟩
  case aligned =>
    refine ⟨fun p hp => (dvd_start_of_mem hp).1, fun offset hoffset => ?_⟩
    rw [hoffsets, arrayOffsets_eq] at hoffset
    obtain ⟨⟨offset, ws⟩, hp, rfl⟩ := List.mem_map.mp hoffset
    exact (dvd_start_of_mem (mem_filterMap_array?.mp hp)).2 rfl
  case announced =>
    intro offset ws h
    rw [hoffsets, zip_arrayOffsets, mem_filterMap_array?] at h
    obtain ⟨p, hp, hunique, hlength, hlast⟩ := exists_announces hsize h
    exact ⟨p, hp, hunique, (dvd_start_of_mem hp.1).1, hlength, fun q hq _ => hlast q hq⟩
  case length_le =>
    rw [hbytes, hlength, hoffsets]
    exact encodedSize_le m

/-- In the block of every matrix that there is memory for, the words and arrays stand in order, aligned and
apart from one another, with zeros in the gaps; each array is found from the offset that is listed for it, and
its length from the word in front of it. The gaps take at most 63 bytes for each array. -/
theorem arranged_in_block (m : Matrix Double) :
    ((∃ flat, Flat.ofMatrix m = .ok flat) ↔ m.encodedSize + arrayAlignment ≤ addressSpace) ∧
      ∀ flat, Flat.ofMatrix m = .ok flat → m.Arranged flat := by
  refine ⟨⟨?_, fun h => ⟨_, ofMatrix_eq_ok_iff.mpr ⟨h, rfl⟩⟩⟩, fun flat => arranged_of_ofMatrix⟩
  rintro ⟨flat, h⟩
  exact (ofMatrix_eq_ok_iff.mp h).1

/-- The second run has no block, and two empty arrays. -/
theorem arranged_in_block_twoRuns : ∃ flat, Flat.ofMatrix twoRuns = .ok flat ∧ twoRuns.Arranged flat ∧
    flat.arrayOffsets = [128, 192, 256, 320, 384, 448] ∧
      twoRuns.arrays.map List.length = [2, 2, 4, 2, 0, 0] := by
  obtain ⟨hmemory, harranged⟩ := arranged_in_block twoRuns
  obtain ⟨flat, hflat⟩ := hmemory.mpr (by decide)
  refine ⟨flat, hflat, harranged flat hflat, ?_, by decide⟩
  rw [(ofMatrix_eq_ok_iff.mp hflat).2]
  decide

end Matrix

end AccelKrylov
