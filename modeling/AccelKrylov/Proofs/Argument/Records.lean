import AccelKrylov.Proofs.Wire.Total
import AccelKrylov.Argument.Records

/-! What an array of records says. The array is a count and the slots behind it; a list is read from it
exactly when there are as many slots as the count says and every one of them describes an argument. -/

namespace AccelKrylov

/-! ### Single records -/

namespace Record

/-- The record describes an argument: its alignment is a power of two and its direction one of the three. -/
structure Describes (r : Record) : Prop where
  direction : r.direction = 0 ∨ r.direction = 1 ∨ r.direction = 2
  alignment : ∃ k, r.alignment.toNat = 2 ^ k

/-- A direction and a power of two are all that is looked at. -/
theorem toDescriptor_eq_ok_iff {r : Record} {d : Descriptor} :
    r.toDescriptor = .ok d ↔ d.alignment.isPowerOfTwo = true ∧ r = ofDescriptor d := by
  unfold toDescriptor
  constructor
  · intro h
    split at h
    · cases h
    next direction hdirection =>
      split at h
      next hcheck =>
        obtain rfl := Except.ok.inj h
        obtain ⟨_, haligned, hd⟩ := bind_eq_ok.mp hcheck
        obtain rfl := Except.ok.inj hd
        refine ⟨ensure_eq_ok.mp haligned, ?_⟩
        rw [ofDescriptor, ← Direction.ofTag?_eq_some_iff.mp hdirection]
      · cases h
  · rintro ⟨haligned, rfl⟩
    have hcheck : d.check = .ok d := bind_eq_ok.mpr ⟨(), ensure_eq_ok.mpr haligned, rfl⟩
    simp only [ofDescriptor, Direction.ofTag?_tag, hcheck]

theorem describes_iff {r : Record} : r.Describes ↔ ∃ d, r.toDescriptor = .ok d := by
  constructor
  · rintro ⟨hdirection, halignment⟩
    obtain ⟨direction, hdirection⟩ : ∃ d : Direction, r.direction = d.tag := by
      obtain h | h | h := hdirection
      · exact ⟨.input, h⟩
      · exact ⟨.output, h⟩
      · exact ⟨.both, h⟩
    refine ⟨⟨r.address, r.size, r.alignment, direction⟩, toDescriptor_eq_ok_iff.mpr ⟨?_, ?_⟩⟩
    · exact Word.isPowerOfTwo_iff.mpr halignment
    · rw [ofDescriptor, ← hdirection]
  · rintro ⟨d, h⟩
    obtain ⟨haligned, rfl⟩ := toDescriptor_eq_ok_iff.mp h
    refine ⟨?_, Word.isPowerOfTwo_iff.mp haligned⟩
    change d.direction.tag = 0 ∨ d.direction.tag = 1 ∨ d.direction.tag = 2
    cases d.direction <;> decide

end Record

open Wire (wordAt)

namespace Records

/-! ### Slots -/

/-- Record `i` of some records. -/
def recordAt (records : List UInt8) (i : Nat) : Record := .ofBytes ((records.drop (32 * i)).take 32)

/-- Record `i` of an array, behind its count. -/
def slot (bytes : List UInt8) (i : Nat) : Record := recordAt (bytes.drop 8) i

theorem recordAt_succ (records : List UInt8) (i : Nat) :
    recordAt records (i + 1) = recordAt (records.drop 32) i := by
  rw [recordAt, recordAt, List.drop_drop, Nat.mul_succ, Nat.add_comm]

/-- A record is four words of the array. -/
theorem slot_eq (bytes : List UInt8) (i : Nat) : slot bytes i =
    ⟨wordAt bytes (4 * i + 1), wordAt bytes (4 * i + 2), wordAt bytes (4 * i + 3),
      wordAt bytes (4 * i + 4)⟩ := by
  have hword (k : Nat) (hk : k ≤ 3) :
      (((bytes.drop 8).drop (32 * i)).take 32 |>.drop (8 * k)).take 8 =
        (bytes.drop (8 * (4 * i + 1 + k))).take 8 := by
    rw [List.drop_take, List.take_take, List.drop_drop, List.drop_drop, Nat.min_eq_left (by omega)]
    congr 2
    omega
  rw [slot, recordAt, Record.ofBytes, Record.mk.injEq]
  exact ⟨congrArg Word.ofBytes (hword 0 (by decide)), congrArg Word.ofBytes (hword 1 (by decide)),
    congrArg Word.ofBytes (hword 2 (by decide)), congrArg Word.ofBytes (hword 3 (by decide))⟩

/-! ### Writing -/

theorem length_flatMap_records (descriptors : List Descriptor) :
    (descriptors.flatMap fun d => (Record.ofDescriptor d).bytes).length = 32 * descriptors.length := by
  induction descriptors with
  | nil => rfl
  | cons d ds ih =>
    rw [List.flatMap_cons, List.length_append, ih, Record.length_bytes, List.length_cons]
    omega

theorem length_ofList (descriptors : List Descriptor) :
    (ofList descriptors).bytes.length = 8 + 32 * descriptors.length := by
  rw [ofList, List.length_append, length_flatMap_records, Word.length_bytes]

theorem eq_of_allocate {descriptors : List Descriptor} {records : Records}
    (h : allocate descriptors = .ok records) : records = ofList descriptors := by
  obtain ⟨_, -, h⟩ := bind_eq_ok.mp h
  exact (Except.ok.inj h).symm

theorem length_of_allocate {descriptors : List Descriptor} {records : Records}
    (h : allocate descriptors = .ok records) : records.bytes.length = 8 + 32 * descriptors.length := by
  rw [eq_of_allocate h, length_ofList]

/-- There is only so much memory for records. -/
theorem bytes_lt_of_allocate {descriptors : List Descriptor} {records : Records}
    (h : allocate descriptors = .ok records) : records.bytes.length < 2 ^ 64 := by
  rw [length_of_allocate h]
  obtain ⟨_, hblock, -⟩ := bind_eq_ok.mp h
  rw [Buffer.zeroed_eq (by decide)] at hblock
  split at hblock
  next hmemory =>
    unfold addressSpace at hmemory
    omega
  · cases hblock

theorem length_lt_of_allocate {descriptors : List Descriptor} {records : Records}
    (h : allocate descriptors = .ok records) : descriptors.length < 2 ^ 64 := by
  have hbytes := bytes_lt_of_allocate h
  rw [length_of_allocate h] at hbytes
  omega

theorem ofBytes_bytes (r : Record) (rest : List UInt8) : Record.ofBytes ((r.bytes ++ rest).take 32) = r := by
  rw [List.take_left' r.length_bytes]
  simp [Record.ofBytes, Record.bytes, List.drop_append, List.drop_of_length_le, List.take_of_length_le]

theorem recordAt_flatMap {descriptors : List Descriptor} {i : Nat} {d : Descriptor}
    (h : descriptors[i]? = some d) :
    recordAt (descriptors.flatMap fun d => (Record.ofDescriptor d).bytes) i = .ofDescriptor d := by
  induction descriptors generalizing i with
  | nil => cases h
  | cons d' ds ih =>
    rw [List.flatMap_cons]
    cases i with
    | zero =>
      obtain rfl := Option.some.inj h
      exact ofBytes_bytes ..
    | succ i =>
      rw [recordAt_succ, List.drop_left' (Record.length_bytes _)]
      exact ih h

theorem wordAt_ofList (descriptors : List Descriptor) :
    wordAt (ofList descriptors).bytes 0 = UInt64.ofNat descriptors.length := by
  rw [wordAt, ofList, Nat.mul_zero, List.drop_zero, List.take_left' (Word.length_bytes _),
    Word.ofBytes_bytes]

theorem slot_ofList {descriptors : List Descriptor} {i : Nat} {d : Descriptor}
    (h : descriptors[i]? = some d) : slot (ofList descriptors).bytes i = .ofDescriptor d := by
  rw [slot, ofList, List.drop_left' (Word.length_bytes _)]
  exact recordAt_flatMap h

/-! ### Reading -/

theorem readRecords_eq_ok_iff {n : Nat} {records : List UInt8} {descriptors : List Descriptor} :
    readRecords n records = .ok descriptors ↔ descriptors.length = n ∧
      ∀ i d, descriptors[i]? = some d → (recordAt records i).toDescriptor = .ok d := by
  induction n generalizing records descriptors with
  | zero =>
    rw [readRecords, List.length_eq_zero_iff]
    constructor
    · intro h
      obtain rfl := Except.ok.inj h
      exact ⟨rfl, nofun⟩
    · rintro ⟨rfl, -⟩
      rfl
  | succ n ih =>
    rw [readRecords, bind_eq_ok]
    constructor
    · rintro ⟨d, hd, hrest⟩
      obtain ⟨rest, hread, h⟩ := bind_eq_ok.mp hrest
      obtain rfl := Except.ok.inj h
      obtain ⟨hlength, hslots⟩ := ih.mp hread
      refine ⟨congrArg (· + 1) hlength, fun i d' hi => ?_⟩
      cases i with
      | zero =>
        obtain rfl := Option.some.inj hi
        exact hd
      | succ i =>
        rw [recordAt_succ]
        exact hslots i d' hi
    · rintro ⟨hlength, hslots⟩
      cases descriptors with
      | nil => cases hlength
      | cons d rest =>
        refine ⟨d, hslots 0 d rfl, bind_eq_ok.mpr ⟨rest, ih.mpr ⟨Nat.succ.inj hlength, ?_⟩, rfl⟩⟩
        intro i d' hi
        rw [← recordAt_succ]
        exact hslots (i + 1) d' hi

theorem readRecords_isOk_iff {n : Nat} {records : List UInt8} :
    (∃ descriptors, readRecords n records = .ok descriptors) ↔
      ∀ i < n, (recordAt records i).Describes := by
  induction n generalizing records with
  | zero => exact ⟨fun _ => nofun, fun _ => ⟨[], rfl⟩⟩
  | succ n ih =>
    constructor
    · rintro ⟨descriptors, h⟩ i hi
      obtain ⟨hlength, hslots⟩ := readRecords_eq_ok_iff.mp h
      exact Record.describes_iff.mpr ⟨_, hslots i _ (List.getElem?_eq_getElem (by omega))⟩
    · intro h
      obtain ⟨d, hd⟩ := Record.describes_iff.mp (h 0 (Nat.succ_pos n))
      obtain ⟨rest, hrest⟩ := ih.mpr fun i hi => recordAt_succ records i ▸ h (i + 1) (Nat.succ_lt_succ hi)
      exact ⟨d :: rest, bind_eq_ok.mpr ⟨d, hd, bind_eq_ok.mpr ⟨rest, hrest, rfl⟩⟩⟩

theorem read_eq_ok_iff {bytes : List UInt8} {descriptors : List Descriptor} :
    read bytes = .ok descriptors ↔ 8 + 32 * (wordAt bytes 0).toNat ≤ bytes.length ∧
      descriptors.length = (wordAt bytes 0).toNat ∧
      ∀ i d, descriptors[i]? = some d → (slot bytes i).toDescriptor = .ok d := by
  have hcount : Word.ofBytes (bytes.take 8) = wordAt bytes 0 := rfl
  unfold read
  rw [bind_eq_ok, hcount]
  constructor
  · rintro ⟨_, -, h⟩
    obtain ⟨_, hfits, h⟩ := bind_eq_ok.mp h
    rw [ensure_eq_ok] at hfits
    obtain ⟨hlength, hslots⟩ := readRecords_eq_ok_iff.mp h
    exact ⟨by omega, hlength, hslots⟩
  · rintro ⟨hfits, hlength, hslots⟩
    have hread := readRecords_eq_ok_iff.mpr ⟨hlength, hslots⟩
    exact ⟨(), ensure_eq_ok.mpr (by omega), bind_eq_ok.mpr ⟨(), ensure_eq_ok.mpr (by omega), hread⟩⟩

/-- An array is read when it has all the records that it counts, and each describes an argument. -/
theorem read_isOk_iff {bytes : List UInt8} : (∃ descriptors, read bytes = .ok descriptors) ↔
    8 + 32 * (wordAt bytes 0).toNat ≤ bytes.length ∧
      ∀ i < (wordAt bytes 0).toNat, (slot bytes i).Describes := by
  constructor
  · rintro ⟨descriptors, h⟩
    obtain ⟨hfits, hlength, hslots⟩ := read_eq_ok_iff.mp h
    refine ⟨hfits, readRecords_isOk_iff.mp ⟨descriptors, ?_⟩⟩
    exact readRecords_eq_ok_iff.mpr ⟨hlength, hslots⟩
  · rintro ⟨hfits, hdescribes⟩
    obtain ⟨descriptors, h⟩ := readRecords_isOk_iff.mpr hdescribes
    exact ⟨descriptors, read_eq_ok_iff.mpr ⟨hfits, readRecords_eq_ok_iff.mp h⟩⟩

theorem aligned_of_read {bytes : List UInt8} {descriptors : List Descriptor}
    (h : read bytes = .ok descriptors) : ∀ d ∈ descriptors, d.alignment.isPowerOfTwo = true := by
  intro d hd
  obtain ⟨i, hi⟩ := List.mem_iff_getElem?.mp hd
  exact (Record.toDescriptor_eq_ok_iff.mp ((read_eq_ok_iff.mp h).2.2 i d hi)).1

end Records

end AccelKrylov
