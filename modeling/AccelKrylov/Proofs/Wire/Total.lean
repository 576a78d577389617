import AccelKrylov.Proofs.Wire.MatrixFields
import AccelKrylov.Proofs.Wire.TrapFree

/-! Reading a matrix from any bytes. It comes to a matrix whose arrays fit or to one of two kinds of
error, no machine is stopped on the way, and what the bytes announce does not lengthen the run: every
run of block rows uses up forty bytes. -/

namespace AccelKrylov.Wire

open Guarded ByteReader

variable {β γ : Type}

/-! ### Bytes used up -/

theorem SegmentsAt.end_le {bytes : List UInt8} {offset : Nat} {ss : List Segment}
    (h : SegmentsAt bytes offset ss) : offset + totalSize ss ≤ max offset bytes.length := by
  induction ss generalizing offset with
  | nil =>
    rw [totalSize_nil]
    omega
  | cons s ss ih =>
    have hs := h.1.1
    have := ih h.2
    rw [totalSize_cons]
    omega

theorem Spells.stop_le {bytes : List UInt8} {offset : Nat} {fields : List Field}
    (h : Spells bytes offset fields) : stop offset fields ≤ max offset bytes.length := h.2.end_le

/-- Every field takes at least the eight bytes of a word. -/
theorem le_stop (offset : Nat) (fields : List Field) :
    offset + 8 * fields.length ≤ stop offset fields := by
  induction fields generalizing offset with
  | nil => exact Nat.le_refl offset
  | cons f fs ih =>
    have hf : offset + 8 ≤ stop offset [f] := by
      cases f with
      | scalar w => rw [stop_scalar]; omega
      | array ws => rw [stop_array]; dsimp only; omega
    have := ih (stop offset [f])
    rw [show f :: fs = [f] ++ fs from rfl, stop_append, List.length_append, List.length_singleton]
    omega

/-- A run of block rows takes five fields. -/
theorem readRun_uses {bytes : List UInt8} {offset last : Nat} {b : BlockRows Double}
    (h : readRun (μ := Reader) bytes offset = .ok (b, last)) : offset + 40 ≤ last ∧ last ≤ bytes.length := by
  obtain ⟨_, hfields, hs, hlast⟩ := (reads_run bytes offset b last).mp h
  rw [hfields] at hs hlast
  have hle := le_stop offset (runFields b)
  have hstop := hs.stop_le
  have hlength : (runFields b).length = 5 := rfl
  omega

/-- However many runs are asked for, no more are read than the bytes have room for, and one. -/
theorem readRuns_min {bytes : List UInt8} {offset k : Nat} (hk : 0 < k)
    (h : bytes.length < offset + 40 * k) (n : Nat) :
    readRuns (μ := Reader) n bytes offset = readRuns (μ := Reader) (min n k) bytes offset := by
  induction n generalizing offset k with
  | zero => rw [Nat.zero_min]
  | succ n ih =>
    obtain ⟨k, rfl⟩ : ∃ k', k = k' + 1 := ⟨k - 1, by omega⟩
    rw [Nat.succ_min_succ]
    have hstep (m : Nat) : readRuns (μ := Reader) (m + 1) bytes offset =
        (readRun (μ := Reader) bytes offset >>= fun s =>
          readRuns (μ := Reader) m bytes s.2 >>= fun t => .ok (s.1 :: t.1, t.2)) := rfl
    rw [hstep, hstep]
    cases hrun : readRun (μ := Reader) bytes offset with
    | error e => rfl
    | ok s =>
      obtain ⟨hfrom, hto⟩ := readRun_uses hrun
      have hrest : readRuns (μ := Reader) n bytes s.2 = readRuns (μ := Reader) (min n k) bytes s.2 :=
        ih (by omega) (by omega)
      change (readRuns (μ := Reader) n bytes s.2 >>= _) = _
      rw [hrest]
      rfl

/-! ### Errors -/

/-- The reader never comes upon an unknown tag. -/
def OnlyMalformed (r : Reader β) : Prop :=
  ∀ bytes offset e, r bytes offset = .error e → ∃ fault, e = .malformed fault

namespace OnlyMalformed

protected theorem pure (b : β) : OnlyMalformed (pure b) := fun _ _ _ h => nomatch h

theorem fail (fault : Malformation) : OnlyMalformed (ByteReader.fail (.malformed fault) : Reader β) := by
  intro bytes offset e h
  cases h
  exact ⟨fault, rfl⟩

protected theorem bind {r : Reader β} {k : β → Reader γ} (hr : OnlyMalformed r)
    (hk : ∀ b, OnlyMalformed (k b)) : OnlyMalformed (r >>= k) := by
  intro bytes offset e h
  change (r bytes offset >>= fun s => k s.1 bytes s.2) = _ at h
  cases hrun : r bytes offset with
  | error e' =>
    rw [hrun] at h
    cases h
    exact hr bytes offset e hrun
  | ok s =>
    rw [hrun] at h
    exact hk s.1 bytes s.2 e h

theorem guard {p : Prop} [Decidable p] {fault : Malformation} {r : Reader β} (h : OnlyMalformed r) :
    OnlyMalformed (if p then ByteReader.fail (.malformed fault) else r) := by
  split
  · exact fail fault
  · exact h

theorem take (n : Word) (what : String) : OnlyMalformed (ByteReader.take n what) := by
  intro bytes offset e h
  change Reader.take n.toNat what bytes offset = .error e at h
  unfold Reader.take at h
  split at h
  · cases h
  · cases h
    exact ⟨_, rfl⟩

theorem skipTo (align : Word) (what : String) : OnlyMalformed (ByteReader.skipTo align what) := by
  intro bytes offset e h
  change Reader.skipTo align.toNat what bytes offset = .error e at h
  unfold Reader.skipTo Reader.take at h
  split at h
  · cases h
  · cases h
    exact ⟨_, rfl⟩

theorem scalar (what : String) : OnlyMalformed (scalar what) :=
  (skipTo _ what).bind fun _ => (take _ what).bind fun _ => .pure _

theorem flag (what : String) : OnlyMalformed (flag what) := (scalar what).bind fun _ => .pure _

theorem array (what : String) : OnlyMalformed (array what) :=
  (scalar what).bind fun length => .guard <|
    (skipTo _ what).bind fun _ => (take length what).bind fun _ => .pure _

theorem compressed (what : String) : OnlyMalformed (readCompressed what) :=
  (array _).bind fun _ => (array _).bind fun _ => ((array _).bind fun _ => .pure _).bind fun _ =>
    .pure _

theorem runs (n : Nat) : OnlyMalformed (readRuns n) := by
  induction n with
  | zero => exact .pure []
  | succ n ih =>
    have hrun : OnlyMalformed readRun :=
      (scalar _).bind fun _ => (scalar _).bind fun _ => (compressed _).bind fun _ => .pure _
    exact hrun.bind fun _ => ih.bind fun _ => .pure _

theorem storage (rows base leadingDimension : Word) (format : StorageFormat) :
    OnlyMalformed (readStorage rows base leadingDimension format) := by
  cases format with
  | dense =>
    exact (scalar _).bind fun _ => .guard <| ((array _).bind fun _ => .pure _).bind fun _ => .pure _
  | csr =>
    exact (scalar _).bind fun _ => .guard <| (flag _).bind fun _ => (flag _).bind fun _ =>
      (flag _).bind fun _ => (flag _).bind fun _ => (compressed _).bind fun _ =>
      (flag _).bind fun _ => .pure _
  | bcsr =>
    exact (scalar _).bind fun count => .guard <| (runs count.toNat).bind fun _ =>
      (flag _).bind fun _ => .pure _

end OnlyMalformed

/-- The word at the `i`th place of bytes. -/
def wordAt (bytes : List UInt8) (i : Nat) : Word := Word.ofBytes ((bytes.drop (8 * i)).take 8)

/-- A tag that stands for nothing is where the bytes have a tag. -/
def UnknownTagIn (bytes : List UInt8) : Prop :=
  (40 ≤ bytes.length ∧ ∀ f : StorageFormat, wordAt bytes 4 ≠ f.tag) ∨
    (48 ≤ bytes.length ∧ ∀ k : ValueKind, wordAt bytes 5 ≠ k.tag) ∨
    (56 ≤ bytes.length ∧ ∀ r : Representation, wordAt bytes 6 ≠ r.tag)

/-- The result is that a tag is unknown. -/
def IsUnsupported (x : Except DecodeError β) : Prop := ∃ tag, x = .error (.unsupported tag)

theorem OnlyMalformed.not_isUnsupported {r : Reader β} (h : OnlyMalformed r) (bytes : List UInt8)
    (offset : Nat) : ¬ IsUnsupported (r bytes offset) := by
  rintro ⟨tag, htag⟩
  obtain ⟨fault, hfault⟩ := h bytes offset _ htag
  cases hfault

/-- At the start of a block words follow each other without gaps. -/
theorem isUnsupported_bind_scalar {what : String} {bytes : List UInt8} {i : Nat}
    {k : Word → Reader γ} : IsUnsupported ((scalar what >>= k) bytes (8 * i)) ↔
      8 * (i + 1) ≤ bytes.length ∧ IsUnsupported (k (wordAt bytes i) bytes (8 * (i + 1))) := by
  have hpad : padding (8 * i) scalarAlignment = 0 := by
    unfold padding scalarAlignment
    omega
  by_cases h : 8 * (i + 1) ≤ bytes.length
  · have hscalar : scalar (μ := Reader) what bytes (8 * i) = .ok (wordAt bytes i, 8 * (i + 1)) := by
      rw [scalar_eq_ok, spells_scalar, stop_scalar, hpad]
      exact ⟨⟨h, ((Word.ofBytes_eq_iff (by rw [List.length_take, List.length_drop]; omega)).mp rfl)⟩,
        rfl⟩
    change IsUnsupported (scalar (μ := Reader) what bytes (8 * i) >>= fun s => k s.1 bytes s.2) ↔ _
    rw [hscalar]
    exact ⟨fun hk => ⟨h, hk⟩, fun hk => hk.2⟩
  · refine ⟨?_, fun hk => absurd hk.1 h⟩
    change IsUnsupported (scalar (μ := Reader) what bytes (8 * i) >>= fun s => k s.1 bytes s.2) → _
    cases hscalar : scalar (μ := Reader) what bytes (8 * i) with
    | error e =>
      rintro ⟨tag, htag⟩
      cases htag
      exact absurd ⟨tag, hscalar⟩ ((OnlyMalformed.scalar what).not_isUnsupported bytes _)
    | ok s =>
      obtain ⟨hs, -⟩ := scalar_eq_ok.mp hscalar
      rw [spells_scalar, hpad] at hs
      exact absurd hs.1 h

theorem isUnsupported_bind_tagged {result : Except UnknownTag β} {bytes : List UInt8} {offset : Nat}
    {k : β → Reader γ} : IsUnsupported ((tagged result >>= k) bytes offset) ↔
      (∀ b, result ≠ .ok b) ∨ ∃ b, result = .ok b ∧ IsUnsupported (k b bytes offset) := by
  cases result with
  | error tag => exact ⟨fun _ => .inl nofun, fun _ => ⟨tag, rfl⟩⟩
  | ok b =>
    constructor
    · exact fun h => .inr ⟨b, rfl, h⟩
    · rintro (h | ⟨b', hb, h⟩)
      · exact absurd rfl (h b)
      · rwa [Except.ok.inj hb]

/-- The tags are looked up as they are read, and nothing else can be unknown. -/
theorem isUnsupported_readParts (bytes : List UInt8) :
    IsUnsupported (readParts (μ := Reader) bytes 0) ↔ UnknownTagIn bytes := by
  have hrest (rows base leadingDimension : Word) (format : StorageFormat)
      (k : Storage Double → Parts) (offset : Nat) : ¬ IsUnsupported
        ((readStorage rows base leadingDimension format >>= fun s => (pure (k s) : Reader Parts))
          bytes offset) :=
    OnlyMalformed.not_isUnsupported ((OnlyMalformed.storage rows base leadingDimension format).bind
      fun _ => .pure _) bytes offset
  unfold readParts
  rw [show (0 : Nat) = 8 * 0 from rfl]
  simp only [isUnsupported_bind_scalar, isUnsupported_bind_tagged, hrest, and_false, exists_false,
    or_false, ne_eq, StorageFormat.ofTag_eq_ok_iff, ValueKind.ofTag_eq_ok_iff,
    Representation.ofTag_eq_ok_iff]
  simp only [UnknownTagIn, exists_and_right, ne_eq, ← not_exists, Nat.zero_add, Nat.reduceAdd,
    Nat.reduceMul]
  -- Each tag is known or not; what is left is about the length.
  by_cases hformat : ∃ f : StorageFormat, wordAt bytes 4 = f.tag <;>
    by_cases hkind : ∃ k : ValueKind, wordAt bytes 5 = k.tag <;>
    by_cases hrepresentation : ∃ r : Representation, wordAt bytes 6 = r.tag <;>
    simp only [hformat, hkind, hrepresentation, not_true_eq_false, not_false_eq_true, false_or,
      true_and, false_and, and_false, and_true, or_false] <;>
    omega

/-! ### Matrices -/

theorem toMatrix_map_ofMatrix (p : Parts) :
    p.toMatrix.map Parts.ofMatrix = (p.storage.check p.rows p.cols p.base p.kind).map fun _ => p := by
  cases hcheck : p.storage.check p.rows p.cols p.base p.kind with
  | ok =>
    have hm : p.toMatrix = .ok ⟨p.rows, p.cols, p.base, p.kind, p.representation, p.storage, hcheck⟩ :=
      toMatrix_eq_ok_iff.mpr rfl
    rw [hm]
    rfl
  | error fault =>
    have hm : p.toMatrix = .error fault := by
      unfold Parts.toMatrix
      rw [Matrix.ofStorage_eq_error hcheck]
      rfl
    rw [hm]
    rfl

/-- The matrix read, as its parts, with the position behind it as a word. -/
def partsInWords (s : Matrix Double × Nat) : Parts × Word := (.ofMatrix s.1, UInt64.ofNat s.2)

theorem decodeWithSize_eq (bytes : List UInt8) :
    decodeWithSize bytes = (readParts (μ := Reader) bytes 0 >>= fun s =>
      (s.1.toMatrix.mapError fun fault => .malformed (.shape fault)).map fun m => (m, s.2)) := by
  change (readParts (μ := Reader) bytes 0 >>= _) = _
  refine bind_congr fun ⟨p, last⟩ => ?_
  cases hm : p.toMatrix with
  | ok m => simp only [hm]; rfl
  | error fault => simp only [hm]; rfl

/-- On a machine that stops at traps, reading comes to the same result. -/
theorem guardedDecode_eq {bytes : List UInt8} (h : Addressable bytes) : guardedDecode bytes =
    lift (((decodeWithSize bytes).map partsInWords).mapError .ofDecode) := by
  obtain ⟨hparts, -⟩ := tracks_parts bytes 0 h (Nat.zero_le _)
  change readParts (μ := WordReader) bytes 0 = inWords (readParts (μ := Reader) bytes 0) at hparts
  unfold guardedDecode
  rw [hparts, decodeWithSize_eq]
  cases readParts (μ := Reader) bytes 0 with
  | error e => rfl
  | ok s =>
    obtain ⟨p, last⟩ := s
    have hbuild := toMatrix_map_ofMatrix p
    change ((p.storage.guardedCheck p.rows p.cols p.base p.kind).adapt _ >>= _) = lift
      ((((p.toMatrix.mapError fun fault => DecodeError.malformed (.shape fault)).map
        fun m => (m, last)).map partsInWords).mapError Error.ofDecode)
    rw [Storage.guardedCheck_eq]
    cases hcheck : p.storage.check p.rows p.cols p.base p.kind with
    | ok =>
      rw [hcheck] at hbuild
      cases hm : p.toMatrix with
      | ok m =>
        rw [hm] at hbuild
        obtain rfl := Except.ok.inj hbuild
        rfl
      | error fault => rw [hm] at hbuild; cases hbuild
    | error fault =>
      rw [hcheck] at hbuild
      cases hm : p.toMatrix with
      | ok m => rw [hm] at hbuild; cases hbuild
      | error fault' =>
        rw [hm] at hbuild
        cases hbuild
        rfl

theorem isUnsupported_decode (bytes : List UInt8) :
    IsUnsupported (decode bytes) ↔ UnknownTagIn bytes := by
  rw [← isUnsupported_readParts]
  unfold decode
  rw [decodeWithSize_eq]
  cases readParts (μ := Reader) bytes 0 with
  | error e =>
    constructor
    · rintro ⟨tag, h⟩
      cases h
      exact ⟨tag, rfl⟩
    · rintro ⟨tag, h⟩
      cases h
      exact ⟨tag, rfl⟩
  | ok s =>
    refine ⟨?_, fun ⟨tag, h⟩ => nomatch h⟩
    rintro ⟨tag, h⟩
    change ((s.1.toMatrix.mapError fun fault => DecodeError.malformed (.shape fault)).map
      fun m => (m, s.2)).map Prod.fst = _ at h
    cases hm : s.1.toMatrix with
    | ok m => rw [hm] at h; cases h
    | error fault => rw [hm] at h; cases h

/-- Reading a matrix is total and sound on any bytes. A machine that stops at traps is never stopped and
comes to the same result; the number of runs that bytes announce is cut off by their length; a matrix
that comes out fits its arrays and lies within the bytes; all else is reported as unsupported, exactly
when one of the tags is unknown, or as malformed; and the size of a block is refused exactly when the
block is, for the same reason. -/
theorem decode_total (bytes : List UInt8) :
    (Addressable bytes → guardedDecode bytes =
        lift (((decodeWithSize bytes).map partsInWords).mapError .ofDecode)) ∧
      (∀ n offset, readRuns (μ := Reader) n bytes offset =
        readRuns (μ := Reader) (min n (bytes.length / 40 + 1)) bytes offset) ∧
      (∀ m last, decodeWithSize bytes = .ok (m, last) →
        last ≤ bytes.length ∧ m.storage.Fits m.rows m.cols m.base m.kind) ∧
      (∀ e, decode bytes = .error e → (∃ text, Error.ofDecode e = .unsupportedFormat text) ∨
        ∃ text, Error.ofDecode e = .malformedBuffer text) ∧
      ((∃ e text, decode bytes = .error e ∧ Error.ofDecode e = .unsupportedFormat text) ↔
        UnknownTagIn bytes) ∧
      ∀ e, decodedSize bytes = .error e ↔ decode bytes = .error e := by
  refine ⟨guardedDecode_eq, ?_, ?_, ?_, ?_, ?_⟩
  · intro n offset
    exact readRuns_min (Nat.succ_pos _) (by omega) n
  · intro m last h
    obtain ⟨fields, -, hs, rfl⟩ := decodeWithSize_eq_ok_iff.mp h
    have hstop := hs.stop_le
    rw [Nat.zero_max] at hstop
    exact ⟨by simpa [stop, size, layout] using hstop, m.storage_fits⟩
  · intro e _
    cases e with
    | unsupported tag => exact .inl ⟨_, rfl⟩
    | malformed fault => exact .inr ⟨_, rfl⟩
  · rw [← isUnsupported_decode]
    constructor
    · rintro ⟨e, text, h, he⟩
      cases e with
      | unsupported tag => exact ⟨tag, h⟩
      | malformed fault => cases he
    · rintro ⟨tag, h⟩
      exact ⟨_, _, h, rfl⟩
  · intro e
    unfold decode decodedSize
    rw [map_eq_error, map_eq_error]

/-- Eight words that announce more runs of block rows than can be counted, and none of them. -/
def announcement : List UInt8 :=
  bytes [.scalar (0 - 1), .scalar 0, .scalar 0, .scalar 0, .scalar 2, .scalar 0, .scalar 0,
    .scalar (0 - 1)]

theorem decode_total_announcement : Addressable announcement ∧
    guardedDecode announcement =
      lift (.error (.ofDecode (.malformed (.truncated "BCSR block size" 8 64 64)))) := by
  have hsize : Addressable announcement := by unfold Addressable; decide
  refine ⟨hsize, ?_⟩
  have hread : decodeWithSize announcement =
      .error (.malformed (.truncated "BCSR block size" 8 64 64)) := by with_unfolding_all rfl
  rw [(decode_total announcement).1 hsize, hread]
  rfl

end AccelKrylov.Wire
