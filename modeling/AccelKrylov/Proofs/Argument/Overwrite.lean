import AccelKrylov.Proofs.Argument.Bijection
import AccelKrylov.Proofs.Argument.LastWrite
import AccelKrylov.Proofs.Trap

/-! Overwriting one record of an array. A position that the array has gets its record, and no other byte is
changed. Any other position is refused, up to where the end of its place is no word: a record has 32 bytes, so that
is from `2 ^ 59 - 1` on, and a machine that stops at traps is stopped there before it looks at the array. -/

namespace AccelKrylov

open Guarded
open Wire (wordAt)

namespace Records

/-- Bytes that differ from others in one slot only, which holds a record. -/
structure DiffersInSlot (i : Nat) (record : Record) (bytes bytes' : List UInt8) : Prop where
  length : bytes'.length = bytes.length
  inside : ∀ k < 32, bytes'[8 + 32 * i + k]? = record.bytes[k]?
  outside : ∀ k, k < 8 + 32 * i ∨ 8 + 32 * (i + 1) ≤ k → bytes'[k]? = bytes[k]?

section
variable {i n : Nat} {record : Record} {bytes bytes' : List UInt8} {position : Word}

/-! ### Where a record goes -/

/-- The place of a record is looked for in the array once its end is known to be a word. -/
theorem writeRecord_eq (r : Records) (position : Word) (record : Record) : r.writeRecord position record =
    if position.toNat + 1 < 2 ^ 59 then
      match overwrite r.bytes (8 + 32 * position.toNat) record.bytes with
      | some bytes => pure ⟨bytes⟩
      | none => lift (.error ⟨position⟩)
    else trap .overflow := by
  have hwidth : (32 : Word).toNat = 32 := rfl
  have hheader : (8 : Word).toNat = 8 := rfl
  rw [writeRecord]
  by_cases hword : position.toNat < 2 ^ 59
  · have hmul : (mul position 32 : Guarded RecordRangeError Word) = pure (position * 32) :=
      mul_eq (by rw [hwidth]; omega)
    have hproduct : (position * 32).toNat = 32 * position.toNat := by
      rw [UInt64.toNat_mul, hwidth]
      omega
    have hadd : (add 8 (position * 32) : Guarded RecordRangeError Word) = pure (8 + position * 32) :=
      add_eq (by rw [hproduct, hheader]; omega)
    have hstart : (8 + position * 32).toNat = 8 + 32 * position.toNat := by
      rw [UInt64.toNat_add, hproduct, hheader]
      omega
    simp only [hmul, hadd, pure_bind]
    by_cases hend : position.toNat + 1 < 2 ^ 59
    · rw [if_pos hend, add_eq (by rw [hstart, hwidth]; omega), hstart]
      exact pure_bind _ _
    · rw [if_neg hend, add_eq_trap (by rw [hstart, hwidth]; omega)]
      rfl
  · have hmul : (mul position 32 : Guarded RecordRangeError Word) = trap .overflow :=
      mul_eq_trap (by rw [hwidth]; omega)
    rw [hmul, if_neg (by omega)]
    rfl

theorem overwrite_of_writeRecord {r written : Records} (h : r.writeRecord position record = pure written) :
    overwrite r.bytes (8 + 32 * position.toNat) record.bytes = some written.bytes := by
  rw [writeRecord_eq] at h
  split at h
  next =>
    split at h
    next bytes hbytes => rw [hbytes, ← pure_inj.mp h]
    next => cases h
  next => cases h

/-- A position that the array has not, as long as the end of its place is a word. -/
theorem writeRecord_eq_error {r : Records} (hcount : r.bytes.length = 8 + 32 * n) (hword : position.toNat + 1 < 2 ^ 59)
    (h : n ≤ position.toNat) : r.writeRecord position record = lift (.error ⟨position⟩) := by
  have hnone : overwrite r.bytes (8 + 32 * position.toNat) record.bytes = none := by
    refine if_neg ?_
    rw [hcount, Record.length_bytes]
    omega
  rw [writeRecord_eq, if_pos hword, hnone]

/-- The position has to be one of the records that are there. -/
theorem writeRecord_isPure_iff {r : Records} (hlength : r.bytes.length < 2 ^ 64)
    (hcount : r.bytes.length = 8 + 32 * n) :
    (∃ written, r.writeRecord position record = pure written) ↔ position.toNat < n := by
  have hfits : 8 + 32 * position.toNat + record.bytes.length ≤ r.bytes.length ↔ position.toNat < n := by
    rw [hcount, Record.length_bytes]
    omega
  constructor
  · rintro ⟨written, hwritten⟩
    have hplace := overwrite_of_writeRecord hwritten
    rw [overwrite] at hplace
    exact hfits.mp (Option.ite_none_right_eq_some.mp hplace).1
  · intro h
    rw [writeRecord_eq, if_pos (by omega), overwrite, if_pos (hfits.mpr h)]
    exact ⟨_, rfl⟩

/-! ### What is there afterwards -/

theorem differsInSlot_of_overwrite (h : overwrite bytes (8 + 32 * i) record.bytes = some bytes') :
    DiffersInSlot i record bytes bytes' := by
  refine ⟨length_of_overwrite h, fun k hk => ?_, fun k hk => ?_⟩
  · rw [getElem?_overwrite h, Record.length_bytes, if_pos (by omega), Nat.add_sub_cancel_left]
  · rw [getElem?_overwrite h, Record.length_bytes, if_neg (by omega)]

theorem getElem?_slot (j k : Nat) : (((bytes.drop 8).drop (32 * j)).take 32)[k]? =
    if k < 32 then bytes[8 + 32 * j + k]? else none := by
  rw [List.getElem?_take, List.drop_drop, List.getElem?_drop]

namespace DiffersInSlot

theorem count (h : DiffersInSlot i record bytes bytes') : wordAt bytes' 0 = wordAt bytes 0 := by
  refine congrArg Word.ofBytes (List.ext_getElem? fun k => ?_)
  rw [List.getElem?_take, List.getElem?_take, List.getElem?_drop, List.getElem?_drop]
  split
  · exact h.outside _ (by omega)
  · rfl

/-- The slot holds the record now, the others hold what they held before. -/
theorem slot (h : DiffersInSlot i record bytes bytes') (j : Nat) :
    Records.slot bytes' j = if j = i then record else Records.slot bytes j := by
  split
  next hj =>
    subst hj
    have hbytes : ((bytes'.drop 8).drop (32 * j)).take 32 = record.bytes.take 32 := by
      refine List.ext_getElem? fun k => ?_
      rw [getElem?_slot, List.getElem?_take]
      split
      next hk => exact h.inside k hk
      · rfl
    rw [Records.slot, recordAt, hbytes, ← List.append_nil record.bytes]
    exact ofBytes_bytes record []
  next hj =>
    refine congrArg Record.ofBytes (List.ext_getElem? fun k => ?_)
    rw [getElem?_slot, getElem?_slot]
    split
    · exact h.outside _ (by omega)
    · rfl

end DiffersInSlot

/-! ### What is read afterwards -/

/-- The first record that describes no argument is what is wrong with the records. -/
theorem readRecords_eq_error {records : List UInt8} {fault : RecordError} (hi : i < n)
    (hbefore : ∀ j < i, (recordAt records j).Describes)
    (h : (recordAt records i).toDescriptor = .error fault) :
    readRecords n records = .error fault := by
  induction i generalizing n records with
  | zero =>
    obtain ⟨n, rfl⟩ := Nat.exists_eq_add_of_lt hi
    exact bind_eq_error.mpr (.inl h)
  | succ i ih =>
    obtain ⟨n, rfl⟩ := Nat.exists_eq_add_of_lt hi
    obtain ⟨d, hd⟩ := Record.describes_iff.mp (hbefore 0 (Nat.succ_pos i))
    refine bind_eq_error.mpr (.inr ⟨d, hd, bind_eq_error.mpr (.inl (ih (by omega) (fun j hj => ?_) ?_))⟩)
    · exact recordAt_succ records j ▸ hbefore (j + 1) (Nat.succ_lt_succ hj)
    · exact recordAt_succ records i ▸ h

theorem read_eq_error {fault : RecordError} (hfits : 8 + 32 * (wordAt bytes 0).toNat ≤ bytes.length)
    (hi : i < (wordAt bytes 0).toNat) (hbefore : ∀ j < i, (slot bytes j).Describes)
    (h : (slot bytes i).toDescriptor = .error fault) : read bytes = .error fault := by
  have hcount : Word.ofBytes (bytes.take 8) = wordAt bytes 0 := rfl
  rw [read, ensure, if_pos (by omega)]
  dsimp only
  rw [hcount, ensure, if_pos (by omega)]
  exact readRecords_eq_error hi hbefore h

variable {descriptors : List Descriptor}

/-- A record that describes an argument takes the place of the one that was there. -/
theorem read_of_describes (hread : read bytes = .ok descriptors) (h : DiffersInSlot i record bytes bytes')
    {d : Descriptor} (hd : record.toDescriptor = .ok d) : read bytes' = .ok (descriptors.set i d) := by
  obtain ⟨hfits, hlength, hslots⟩ := read_eq_ok_iff.mp hread
  refine read_eq_ok_iff.mpr ⟨?_, ?_, fun j d' hj => ?_⟩
  · rwa [h.count, h.length]
  · rw [List.length_set, hlength, h.count]
  · rw [h.slot]
    rw [List.getElem?_set] at hj
    split at hj
    next hij =>
      subst hij
      obtain ⟨-, rfl⟩ := Option.ite_some_none_eq_some.mp hj
      rwa [if_pos rfl]
    next hij =>
      rw [if_neg (Ne.symm hij)]
      exact hslots j d' hj

/-- A record that describes none is what is wrong with the array. -/
theorem read_of_not_describes (hread : read bytes = .ok descriptors)
    (h : DiffersInSlot i record bytes bytes') (hi : i < descriptors.length) {fault : RecordError}
    (hfault : record.toDescriptor = .error fault) : read bytes' = .error fault := by
  obtain ⟨hfits, hdescribes⟩ := read_isOk_iff.mp ⟨_, hread⟩
  obtain ⟨-, hlength, -⟩ := read_eq_ok_iff.mp hread
  rw [← h.count] at hfits hdescribes hlength
  refine read_eq_error (h.length ▸ hfits) (hlength ▸ hi) (fun j hj => ?_) ?_
  · rw [h.slot, if_neg (by omega)]
    exact hdescribes j (by omega)
  · rw [h.slot, if_pos rfl]
    exact hfault

end

end Records

/-! ### Lists of arguments -/

/-- One record of the array for a list of arguments is overwritten. A position of the list has the record afterwards
and no other byte is changed, so that what is read is the list with one argument replaced, or that the record is
malformed; any other position is refused, except that from `2 ^ 59 - 1` on the end of its place is no word. -/
theorem records_overwritten (l : ArgumentList) (hl : l.Built) (records : Records)
    (hrecords : Records.allocate l.descriptors = .ok records) (position : Word) (record : Record) :
    ((∃ written, records.writeRecord position record = pure written) ↔ position.toNat < l.size) ∧
    (∀ written, records.writeRecord position record = pure written →
      Records.DiffersInSlot position.toNat record records.bytes written.bytes ∧
      (record.Describes → ∃ d, record = .ofDescriptor d ∧ ArgumentList.ofRecords written.bytes =
        .ok (.ofDescriptors (l.descriptors.set position.toNat d))) ∧
      (¬ record.Describes → ∃ text,
        ArgumentList.ofRecords written.bytes = .error (.malformedBuffer text))) ∧
    (l.size ≤ position.toNat → position.toNat + 1 < 2 ^ 59 → ∃ fault,
      records.writeRecord position record = lift (.error fault) ∧
      Error.ofRecordWrite fault = .invalidArgument s!"record {position} is out of range") ∧
    (2 ^ 59 ≤ position.toNat + 1 → records.writeRecord position record = trap .overflow) := by
  have hread : Records.read records.bytes = .ok l.descriptors := by
    have happend := Records.read_ofList_append hl.aligned (Records.length_lt_of_allocate hrecords) []
    rwa [List.append_nil, ← Records.eq_of_allocate hrecords] at happend
  have hcount := Records.length_of_allocate hrecords
  have hsucceeds : (∃ written, records.writeRecord position record = pure written) ↔ position.toNat < l.size :=
    Records.writeRecord_isPure_iff (Records.bytes_lt_of_allocate hrecords) hcount
  refine ⟨hsucceeds, fun written hwritten => ?_, fun h hword => ?_, fun h => ?_⟩
  · have hdiffers := Records.differsInSlot_of_overwrite (Records.overwrite_of_writeRecord hwritten)
    have hslot := hsucceeds.mp ⟨written, hwritten⟩
    refine ⟨hdiffers, fun hdescribes => ?_, fun hdescribes => ?_⟩
    · obtain ⟨d, hd⟩ := Record.describes_iff.mp hdescribes
      have hback := Records.read_of_describes hread hdiffers hd
      exact ⟨d, (Record.toDescriptor_eq_ok_iff.mp hd).2,
        ArgumentList.ofRecords_eq_ok_iff.mpr ⟨_, hback, rfl⟩⟩
    · cases hfault : record.toDescriptor with
      | ok d => exact absurd (Record.describes_iff.mpr ⟨d, hfault⟩) hdescribes
      | error fault =>
        rw [ArgumentList.ofRecords, Records.read_of_not_describes hread hdiffers hslot hfault]
        exact ⟨fault.message, rfl⟩
  · exact ⟨_, Records.writeRecord_eq_error hcount hword h, rfl⟩
  · rw [Records.writeRecord_eq, if_neg (Nat.not_lt.mpr h)]

/-- Two words that the device only reads. -/
def twoWords : ArgumentList :=
  ArgumentList.addAll {} [.descriptor ⟨4096, 8, 8, .input⟩, .descriptor ⟨8192, 8, 8, .input⟩]

theorem built_twoWords : twoWords.Built :=
  .add (a := .descriptor ⟨8192, 8, 8, .input⟩) (.add (a := .descriptor ⟨4096, 8, 8, .input⟩) .empty rfl) rfl

theorem exists_records_twoWords : ∃ records, Records.allocate twoWords.descriptors = .ok records :=
  Records.allocate_isOk_iff.mpr
    (show 8 + 32 * twoWords.descriptors.length + Records.alignment.toNat ≤ addressSpace by decide)

/-- The second word becomes one that the device writes to. -/
theorem records_overwritten_twoWords :
    twoWords.Built ∧ ∃ records written, Records.allocate twoWords.descriptors = .ok records ∧
      records.writeRecord 1 ⟨12288, 8, 16, 1⟩ = pure written ∧
      ArgumentList.ofRecords written.bytes =
        .ok (.ofDescriptors [⟨4096, 8, 8, .input⟩, ⟨12288, 8, 16, .output⟩]) := by
  obtain ⟨records, hrecords⟩ := exists_records_twoWords
  obtain ⟨hsucceeds, hafter, -⟩ :=
    records_overwritten twoWords built_twoWords records hrecords 1 ⟨12288, 8, 16, 1⟩
  obtain ⟨written, hwritten⟩ := hsucceeds.mpr (by decide)
  obtain ⟨⟨address, size, alignment, direction⟩, hd, hback⟩ :=
    (hafter written hwritten).2.1 ⟨.inr (.inl rfl), 4, rfl⟩
  obtain ⟨rfl, rfl, rfl, htag⟩ := Record.mk.inj hd
  obtain rfl : direction = .output := Option.some.inj ((Direction.ofTag?_eq_some_iff.mpr htag).symm.trans rfl)
  exact ⟨built_twoWords, records, written, hrecords, hwritten, hback⟩

/-- A position that no list can have is not refused: the machine is stopped. -/
theorem records_overwritten_far :
    twoWords.Built ∧ twoWords.size < (576460752303423488 : Word).toNat ∧
    ∃ records, Records.allocate twoWords.descriptors = .ok records ∧
      records.writeRecord 576460752303423488 ⟨1, 2, 4, 1⟩ = trap .overflow := by
  obtain ⟨records, hrecords⟩ := exists_records_twoWords
  refine ⟨built_twoWords, by decide, records, hrecords, ?_⟩
  rw [Records.writeRecord_eq, if_neg (by decide)]

end AccelKrylov
