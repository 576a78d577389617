import AccelKrylov.Wire.Matrix
import AccelKrylov.Proofs.Word

/-! Which fields a reader takes. Bytes spell fields from an offset on when every segment of the fields
stands where the layout puts it; what the gaps hold does not matter. A reader is described by the fields
that it takes for each of its results, and descriptions compose along its steps. -/

namespace AccelKrylov.Wire

open ByteReader

/-! ### Bytes that spell fields -/

/-- The bytes from `offset` on are those of the segment; a gap may hold anything. -/
def Segment.At (bytes : List UInt8) (offset : Nat) (s : Segment) : Prop :=
  offset + s.size ≤ bytes.length ∧
    ((∃ n, s = gap n) ∨ (bytes.drop offset).take s.size = s.bytes)

def SegmentsAt (bytes : List UInt8) : (offset : Nat) → List Segment → Prop
  | _, [] => True
  | offset, s :: rest => s.At bytes offset ∧ SegmentsAt bytes (offset + s.size) rest

/-- The length of an array in bytes is a word. -/
def Field.Fits : Field → Prop
  | .scalar _ => True
  | .array ws => 8 * ws.length < 2 ^ 64

/-- The bytes from `offset` on spell the fields. -/
def Spells (bytes : List UInt8) (offset : Nat) (fields : List Field) : Prop :=
  (∀ f ∈ fields, f.Fits) ∧ SegmentsAt bytes offset (layoutFrom offset fields)

/-- Where fields end that start at `offset`. -/
def stop (offset : Nat) (fields : List Field) : Nat :=
  offset + totalSize (layoutFrom offset fields)

@[simp] theorem totalSize_nil : totalSize [] = 0 := rfl

@[simp] theorem totalSize_cons (s : Segment) (rest : List Segment) :
    totalSize (s :: rest) = s.size + totalSize rest := rfl

@[simp] theorem totalSize_append (ss rest : List Segment) :
    totalSize (ss ++ rest) = totalSize ss + totalSize rest := by
  induction ss with
  | nil => simp
  | cons s ss ih => rw [List.cons_append, totalSize_cons, totalSize_cons, ih, Nat.add_assoc]

theorem length_flatMap_bytes (ss : List Segment) :
    (ss.flatMap Segment.bytes).length = totalSize ss := by
  induction ss with
  | nil => rfl
  | cons s rest ih => simp [Segment.length_bytes, ih]

theorem segmentsAt_append (bytes : List UInt8) (offset : Nat) (ss rest : List Segment) :
    SegmentsAt bytes offset (ss ++ rest) ↔
      SegmentsAt bytes offset ss ∧ SegmentsAt bytes (offset + totalSize ss) rest := by
  induction ss generalizing offset with
  | nil => simp [SegmentsAt]
  | cons s ss ih => simp [SegmentsAt, ih, and_assoc, Nat.add_assoc]

theorem layoutFrom_append (offset : Nat) (fs gs : List Field) :
    layoutFrom offset (fs ++ gs) = layoutFrom offset fs ++ layoutFrom (stop offset fs) gs := by
  induction fs generalizing offset with
  | nil => simp [layoutFrom, stop]
  | cons f fs ih => simp [layoutFrom, stop, ih, Nat.add_assoc]

theorem stop_append (offset : Nat) (fs gs : List Field) :
    stop offset (fs ++ gs) = stop (stop offset fs) gs := by
  simp [stop, layoutFrom_append, Nat.add_assoc]

@[simp] theorem spells_nil (bytes : List UInt8) (offset : Nat) : Spells bytes offset [] := by
  simp [Spells, layoutFrom, SegmentsAt]

theorem spells_append (bytes : List UInt8) (offset : Nat) (fs gs : List Field) :
    Spells bytes offset (fs ++ gs) ↔
      Spells bytes offset fs ∧ Spells bytes (stop offset fs) gs := by
  simp only [Spells, layoutFrom_append, segmentsAt_append, List.mem_append, stop]
  constructor
  · rintro ⟨hfit, hfs, hgs⟩
    exact ⟨⟨fun f hf => hfit f (.inl hf), hfs⟩, fun f hf => hfit f (.inr hf), hgs⟩
  · rintro ⟨⟨hf, hfs⟩, hg, hgs⟩
    exact ⟨fun f => Or.rec (hf f) (hg f), hfs, hgs⟩

/-- The bytes of segments spell them, whatever stands before and behind. -/
theorem segmentsAt_flatMap_bytes (front ss : List Segment) (tail : List UInt8) :
    SegmentsAt ((front ++ ss).flatMap Segment.bytes ++ tail) (totalSize front) ss := by
  induction ss generalizing front with
  | nil => trivial
  | cons s ss ih =>
    refine ⟨⟨?_, .inr ?_⟩, ?_⟩
    · simp only [List.length_append, length_flatMap_bytes, totalSize_append, totalSize_cons]
      omega
    · have hd : ((front ++ s :: ss).flatMap Segment.bytes ++ tail).drop (totalSize front) =
          s.bytes ++ (ss.flatMap Segment.bytes ++ tail) := by
        rw [List.flatMap_append, List.append_assoc, ← length_flatMap_bytes, List.drop_left,
          List.flatMap_cons, List.append_assoc]
      rw [hd, ← Segment.length_bytes, List.take_left]
    · have := ih (front ++ [s])
      simpa using this

theorem spells_bytes (fields : List Field) (tail : List UInt8) (h : ∀ f ∈ fields, f.Fits) :
    Spells (bytes fields ++ tail) 0 fields :=
  ⟨h, by simpa [bytes, layout] using segmentsAt_flatMap_bytes [] (layout fields) tail⟩

/-! ### Single fields -/

theorem spells_scalar (bytes : List UInt8) (offset : Nat) (w : Word) :
    Spells bytes offset [.scalar w] ↔
      offset + padding offset scalarAlignment + 8 ≤ bytes.length ∧
        (bytes.drop (offset + padding offset scalarAlignment)).take 8 = w.bytes := by
  simp [Spells, Field.Fits, layoutFrom, Field.segments, SegmentsAt, Segment.At, Segment.size,
    Segment.bytes]
  omega

theorem stop_scalar (offset : Nat) (w : Word) :
    stop offset [.scalar w] = offset + padding offset scalarAlignment + 8 := by
  simp [stop, layoutFrom, Field.segments, Segment.size, Nat.add_assoc]

theorem spells_array (bytes : List UInt8) (offset : Nat) (ws : List Word) :
    Spells bytes offset [.array ws] ↔
      8 * ws.length < 2 ^ 64 ∧ Spells bytes offset [.scalar (UInt64.ofNat (8 * ws.length))] ∧
        let start := offset + padding offset scalarAlignment + 8
        let start := start + padding start arrayAlignment
        start + 8 * ws.length ≤ bytes.length ∧
          (bytes.drop start).take (8 * ws.length) = ws.flatMap Word.bytes := by
  rw [spells_scalar]
  simp [Spells, Field.Fits, layoutFrom, Field.segments, SegmentsAt, Segment.At, Segment.size,
    Segment.bytes]
  intro _
  constructor
  · rintro ⟨_, hlength, _, hin, hwords⟩
    exact ⟨hlength, hin, hwords⟩
  · rintro ⟨hlength, hin, hwords⟩
    exact ⟨by omega, hlength, by omega, hin, hwords⟩

theorem stop_array (offset : Nat) (ws : List Word) :
    stop offset [.array ws] =
      let start := offset + padding offset scalarAlignment + 8
      start + padding start arrayAlignment + 8 * ws.length := by
  simp [stop, layoutFrom, Field.segments, Segment.size, Nat.add_assoc]

/-! ### Readers -/

variable {β γ : Type}

/-- The reader takes exactly the fields that `P` lets stand for what it returns. -/
def Reads (r : Reader β) (P : List Field → β → Prop) : Prop :=
  ∀ bytes offset b last, r bytes offset = .ok (b, last) ↔
    ∃ fields, P fields b ∧ Spells bytes offset fields ∧ last = stop offset fields

namespace Reads

variable {r : Reader β} {P P' : List Field → β → Prop}

theorem congr (h : Reads r P) (hP : ∀ fields b, P fields b ↔ P' fields b) : Reads r P' := by
  intro bytes offset b last
  rw [h bytes offset b last]
  simp only [hP]

protected theorem pure (b : β) : Reads (pure b) fun fields b' => fields = [] ∧ b' = b := by
  intro bytes offset b' last
  change Except.ok (b, offset) = .ok (b', last) ↔ _
  constructor
  · intro h
    cases h
    exact ⟨[], ⟨rfl, rfl⟩, spells_nil .., rfl⟩
  · rintro ⟨_, ⟨rfl, rfl⟩, -, rfl⟩
    rfl

theorem fail (e : DecodeError) : Reads (ByteReader.fail e : Reader β) fun _ _ => False := by
  intro bytes offset b last
  change Except.error e = .ok (b, last) ↔ _
  simp

theorem bind_eq_ok {k : β → Reader γ} {bytes : List UInt8} {offset last : Nat} {c : γ} :
    (r >>= k) bytes offset = .ok (c, last) ↔
      ∃ b middle, r bytes offset = .ok (b, middle) ∧ k b bytes middle = .ok (c, last) := by
  change (r bytes offset >>= fun s => k s.1 bytes s.2) = _ ↔ _
  cases h : r bytes offset with
  | error e => simp [bind, Except.bind]
  | ok s =>
    constructor
    · exact fun hk => ⟨s.1, s.2, rfl, hk⟩
    · rintro ⟨b, middle, hs, hk⟩
      cases hs
      exact hk

protected theorem bind {k : β → Reader γ} {Q : β → List Field → γ → Prop} (hr : Reads r P)
    (hk : ∀ b, Reads (k b) (Q b)) :
    Reads (r >>= k) fun fields c => ∃ b xs ys, fields = xs ++ ys ∧ P xs b ∧ Q b ys c := by
  intro bytes offset c last
  rw [bind_eq_ok]
  constructor
  · rintro ⟨b, middle, hb, hc⟩
    obtain ⟨xs, hP, hxs, rfl⟩ := (hr ..).mp hb
    obtain ⟨ys, hQ, hys, rfl⟩ := (hk b ..).mp hc
    exact ⟨xs ++ ys, ⟨b, xs, ys, rfl, hP, hQ⟩, (spells_append ..).mpr ⟨hxs, hys⟩,
      (stop_append ..).symm⟩
  · rintro ⟨_, ⟨b, xs, ys, rfl, hP, hQ⟩, hs, rfl⟩
    obtain ⟨hxs, hys⟩ := (spells_append ..).mp hs
    exact ⟨b, stop offset xs, (hr ..).mpr ⟨xs, hP, hxs, rfl⟩,
      (hk b ..).mpr ⟨ys, hQ, hys, stop_append ..⟩⟩

protected theorem map {f : β → γ} (hr : Reads r P) :
    Reads (r >>= fun b => pure (f b)) fun fields c => ∃ b, P fields b ∧ c = f b := by
  refine (hr.bind fun b => Reads.pure (f b)).congr fun fields c => ?_
  constructor
  · rintro ⟨b, xs, _, rfl, hP, rfl, rfl⟩
    exact ⟨b, by simpa using hP, rfl⟩
  · rintro ⟨b, hP, rfl⟩
    exact ⟨b, fields, [], by simp, hP, rfl, rfl⟩

end Reads

/-! ### Readers of fields -/

theorem take_eq_ok {n : Nat} {what : String} {bytes bs : List UInt8} {offset last : Nat} :
    Reader.take n what bytes offset = .ok (bs, last) ↔
      offset + n ≤ bytes.length ∧ (bytes.drop offset).take n = bs ∧ last = offset + n := by
  unfold Reader.take
  by_cases h : offset + n ≤ bytes.length
  · simp [h, eq_comm]
  · simp [h]

theorem skipTo_eq_ok {align : Nat} {what : String} {bytes : List UInt8} {offset last : Nat}
    {u : Unit} : Reader.skipTo align what bytes offset = .ok (u, last) ↔
      offset + padding offset align ≤ bytes.length ∧ last = offset + padding offset align := by
  unfold Reader.skipTo Reader.take
  by_cases h : offset + padding offset align ≤ bytes.length
  · simp [h, bind, Except.bind, eq_comm]
  · simp [h, bind, Except.bind]

theorem scalar_eq_ok {what : String} {bytes : List UInt8} {offset last : Nat} {w : Word} :
    scalar (μ := Reader) what bytes offset = .ok (w, last) ↔
      Spells bytes offset [.scalar w] ∧ last = stop offset [.scalar w] := by
  change (Reader.skipTo scalarAlignment what >>= fun _ =>
    Reader.take 8 what >>= fun bs => pure (Word.ofBytes bs)) bytes offset = _ ↔ _
  simp only [Reads.bind_eq_ok, skipTo_eq_ok, take_eq_ok, spells_scalar, stop_scalar]
  constructor
  · rintro ⟨_, start, ⟨hpad, rfl⟩, bs, _, ⟨hin, rfl, rfl⟩, hw⟩
    cases hw
    have hlength : ((bytes.drop (offset + padding offset scalarAlignment)).take 8).length = 8 := by
      rw [List.length_take, List.length_drop]
      omega
    exact ⟨⟨hin, (Word.bytes_ofBytes _ hlength).symm⟩, rfl⟩
  · rintro ⟨⟨hin, hw⟩, rfl⟩
    refine ⟨(), _, ⟨by omega, rfl⟩, w.bytes, _, ⟨hin, hw, rfl⟩, ?_⟩
    rw [Word.ofBytes_bytes]
    rfl

theorem reads_scalar (what : String) : Reads (scalar what) fun fields w => fields = [.scalar w] := by
  intro bytes offset w last
  rw [scalar_eq_ok]
  simp

/-- Bytes that a whole number of words fills are the bytes of the words they spell. -/
theorem bytes_listOfBytes {bs : List UInt8} {length : Word} (h8 : length % 8 = 0)
    (hbs : bs.length = length.toNat) : (Word.listOfBytes bs).flatMap Word.bytes = bs ∧
      UInt64.ofNat (8 * (Word.listOfBytes bs).length) = length := by
  have hmod : length.toNat % 8 = 0 := by
    have := congrArg UInt64.toNat h8
    rwa [UInt64.toNat_mod] at this
  have hf := Word.flatMap_bytes_listOfBytes (length.toNat / 8) bs (by omega)
  have hl := Word.length_flatMap_bytes (Word.listOfBytes bs)
  rw [hf, hbs] at hl
  exact ⟨hf, by rw [← hl, UInt64.ofNat_toNat]⟩

theorem array_eq_ok {what : String} {bytes : List UInt8} {offset last : Nat} {ws : List Word} :
    array (μ := Reader) what bytes offset = .ok (ws, last) ↔
      Spells bytes offset [.array ws] ∧ last = stop offset [.array ws] := by
  change (scalar what >>= fun length => if length % 8 ≠ 0 then
    ByteReader.fail (.malformed (.arrayLength what length)) else
    Reader.skipTo arrayAlignment what >>= fun _ => Reader.take length.toNat what >>= fun bs =>
      pure (Word.listOfBytes bs)) bytes offset = _ ↔ _
  simp only [Reads.bind_eq_ok, scalar_eq_ok, spells_array, stop_array, stop_scalar]
  constructor
  · rintro ⟨length, _, ⟨hlength, rfl⟩, h⟩
    split at h
    · cases h
    rename_i h8
    simp only [Reads.bind_eq_ok, skipTo_eq_ok, take_eq_ok] at h
    obtain ⟨_, _, ⟨hpad, rfl⟩, bs, _, ⟨hin, hbs, rfl⟩, h⟩ := h
    cases h
    have hl : bs.length = length.toNat := by
      rw [← hbs, List.length_take, List.length_drop]
      omega
    obtain ⟨hf, hw⟩ := bytes_listOfBytes (Decidable.not_not.mp h8) hl
    have h8 : 8 * (Word.listOfBytes bs).length = length.toNat := by
      rw [← Word.length_flatMap_bytes, hf, hl]
    rw [hw, h8, hf]
    exact ⟨⟨length.toNat_lt, hlength, hin, hbs⟩, rfl⟩
  · rintro ⟨⟨hfit, hlength, hin, hwords⟩, rfl⟩
    have hl : (UInt64.ofNat (8 * ws.length)).toNat = 8 * ws.length :=
      UInt64.toNat_ofNat_of_lt' hfit
    refine ⟨_, _, ⟨hlength, rfl⟩, ?_⟩
    rw [if_neg]
    · simp only [Reads.bind_eq_ok, skipTo_eq_ok, take_eq_ok, hl]
      refine ⟨(), _, ⟨by omega, rfl⟩, _, _, ⟨hin, hwords, rfl⟩, ?_⟩
      rw [Word.listOfBytes_flatMap_bytes]
      rfl
    · have h8 : (UInt64.ofNat (8 * ws.length) % 8).toNat = 0 := by
        rw [UInt64.toNat_mod, hl]
        exact Nat.mul_mod_right 8 _
      exact not_not_intro (UInt64.toNat_inj.mp h8)

theorem reads_array (what : String) : Reads (array what) fun fields ws => fields = [.array ws] := by
  intro bytes offset ws last
  rw [array_eq_ok]
  simp

end AccelKrylov.Wire
