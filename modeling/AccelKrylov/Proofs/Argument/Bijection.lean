import AccelKrylov.Argument.Guarded
import AccelKrylov.Proofs.Argument.Built

/-! Records and lists of arguments stand for each other. What is written for a list is read back as that
list, whatever bytes follow; and what can be read from bytes is written as the bytes that were read. Which
bytes can be read is a matter of their length and of each record on its own. -/

namespace AccelKrylov

open Guarded
open Wire (wordAt)

namespace Records

/-! ### From arguments to records and back -/

theorem toDescriptor_ofDescriptor {d : Descriptor} (h : d.alignment.isPowerOfTwo = true) :
    (Record.ofDescriptor d).toDescriptor = .ok d :=
  Record.toDescriptor_eq_ok_iff.mpr ⟨h, rfl⟩

theorem readRecords_append {descriptors : List Descriptor}
    (h : ∀ d ∈ descriptors, d.alignment.isPowerOfTwo = true) (rest : List UInt8) :
    readRecords descriptors.length
      ((descriptors.flatMap fun d => (Record.ofDescriptor d).bytes) ++ rest) = .ok descriptors := by
  induction descriptors with
  | nil => rfl
  | cons d ds ih =>
    obtain ⟨hd, hds⟩ := List.forall_mem_cons.mp h
    rw [List.length_cons, readRecords, List.flatMap_cons, List.append_assoc, ofBytes_bytes,
      List.drop_left' (Record.length_bytes _), toDescriptor_ofDescriptor hd, ih hds]
    rfl

/-- Arguments are read from their records, also with more bytes behind them. -/
theorem read_ofList_append {descriptors : List Descriptor}
    (h : ∀ d ∈ descriptors, d.alignment.isPowerOfTwo = true) (hlt : descriptors.length < 2 ^ 64)
    (rest : List UInt8) : read ((ofList descriptors).bytes ++ rest) = .ok descriptors := by
  have hlength := length_ofList descriptors
  have hcount : (Word.ofBytes (((ofList descriptors).bytes ++ rest).take 8)).toNat =
      descriptors.length := by
    rw [ofList, List.append_assoc, List.take_left' (Word.length_bytes _), Word.ofBytes_bytes,
      UInt64.toNat_ofNat_of_lt' hlt]
  have hrecords : ((ofList descriptors).bytes ++ rest).drop 8 =
      (descriptors.flatMap fun d => (Record.ofDescriptor d).bytes) ++ rest := by
    rw [ofList, List.append_assoc, List.drop_left' (Word.length_bytes _)]
  rw [read]
  dsimp only
  rw [hcount, hrecords]
  refine bind_eq_ok.mpr ⟨(), ensure_eq_ok.mpr ?_, bind_eq_ok.mpr ⟨(), ensure_eq_ok.mpr ?_, ?_⟩⟩
  · rw [List.length_append]
    omega
  · rw [List.length_append]
    omega
  · exact readRecords_append h rest

/-- There is memory for the records of some arguments as long as it can be addressed. -/
theorem allocate_isOk_iff {descriptors : List Descriptor} :
    (∃ records, allocate descriptors = .ok records) ↔
      8 + 32 * descriptors.length + alignment.toNat ≤ addressSpace := by
  have hmax : max (8 + 32 * descriptors.length) 1 = 8 + 32 * descriptors.length := by omega
  rw [allocate, Buffer.zeroed_eq (by decide), hmax]
  split
  next h => exact ⟨fun _ => h, fun _ => ⟨_, rfl⟩⟩
  next h => exact ⟨fun ⟨_, hrecords⟩ => (nomatch hrecords), fun h' => absurd h' h⟩

/-! ### From records to arguments and back -/

theorem bytes_ofBytes {bytes : List UInt8} (h : bytes.length = 32) :
    (Record.ofBytes bytes).bytes = bytes := by
  have hword (k : Nat) (hk : k ≤ 24) :
      (Word.ofBytes ((bytes.drop k).take 8)).bytes = (bytes.drop k).take 8 :=
    Word.bytes_ofBytes _ (by rw [List.length_take, List.length_drop]; omega)
  have hzero := hword 0 (by decide)
  rw [List.drop_zero] at hzero
  rw [Record.ofBytes, Record.bytes, hzero, hword 8 (by decide), hword 16 (by decide),
    hword 24 (by decide), ← List.take_add, ← List.take_add, ← List.take_add]
  exact List.take_of_length_le (by omega)

/-- The records that were read are those of the arguments that they describe. -/
theorem flatMap_of_readRecords {n : Nat} {records : List UInt8} {descriptors : List Descriptor}
    (hlength : 32 * n ≤ records.length) (h : readRecords n records = .ok descriptors) :
    (descriptors.flatMap fun d => (Record.ofDescriptor d).bytes) = records.take (32 * n) := by
  induction n generalizing records descriptors with
  | zero =>
    obtain rfl := Except.ok.inj h
    rfl
  | succ n ih =>
    obtain ⟨d, hd, hrest⟩ := bind_eq_ok.mp h
    obtain ⟨ds, hds, hcons⟩ := bind_eq_ok.mp hrest
    obtain rfl := Except.ok.inj hcons
    have hfront : (Record.ofDescriptor d).bytes = records.take 32 := by
      rw [← (Record.toDescriptor_eq_ok_iff.mp hd).2]
      exact bytes_ofBytes (by rw [List.length_take]; omega)
    have hback := ih (by rw [List.length_drop]; omega) hds
    rw [List.flatMap_cons, hfront, hback, Nat.mul_succ, Nat.add_comm, List.take_add]

theorem bytes_of_read {bytes : List UInt8} {descriptors : List Descriptor}
    (h : read bytes = .ok descriptors) :
    (ofList descriptors).bytes = bytes.take (8 + 32 * (wordAt bytes 0).toNat) := by
  obtain ⟨hfits, hlength, hslots⟩ := read_eq_ok_iff.mp h
  have hcount : Word.bytes (UInt64.ofNat descriptors.length) = bytes.take 8 := by
    rw [hlength, UInt64.ofNat_toNat]
    exact Word.bytes_ofBytes (bytes.take 8) (by rw [List.length_take]; omega)
  have hbehind : 32 * (wordAt bytes 0).toNat ≤ (bytes.drop 8).length := by
    rw [List.length_drop]
    omega
  have hrecords := flatMap_of_readRecords hbehind (readRecords_eq_ok_iff.mpr ⟨hlength, hslots⟩)
  rw [ofList, hcount, hrecords, List.take_add]

/-! ### Counts that are not to be believed -/

theorem readRecords_take (n : Nat) (records : List UInt8) :
    readRecords n (records.take (32 * n)) = readRecords n records := by
  induction n generalizing records with
  | zero => rfl
  | succ n ih =>
    have hfront : (records.take (32 * (n + 1))).take 32 = records.take 32 := by
      rw [List.take_take, Nat.min_eq_left (by omega)]
    have hback : (records.take (32 * (n + 1))).drop 32 = (records.drop 32).take (32 * n) := by
      rw [List.drop_take, Nat.mul_succ, Nat.add_sub_cancel]
    rw [readRecords, readRecords, hfront, hback, ih]

/-- A count is within the bytes when their number is, as a number; then it is also a word. -/
theorem extentWithin_eq_some {length : Nat} {count needed : Word} (hlength : length < 2 ^ 64) :
    extentWithin length count = some needed ↔
      count.toNat * 32 + 8 ≤ length ∧ needed.toNat = count.toNat * 32 + 8 := by
  have hwidth : (32 : Word).toNat = 32 := rfl
  have hheader : (8 : Word).toNat = 8 := rfl
  simp only [extentWithin, Option.filter_eq_some_iff, Option.bind_eq_some_iff, Word.checkedMul_eq_some,
    Word.checkedAdd_eq_some, decide_eq_true_eq, hwidth, hheader]
  constructor
  · rintro ⟨⟨product, ⟨-, hproduct⟩, -, hneeded⟩, hle⟩
    omega
  · rintro ⟨hle, hneeded⟩
    have hproduct : (count * 32).toNat = count.toNat * 32 := by
      rw [UInt64.toNat_mul, hwidth, Nat.mod_eq_of_lt (by omega)]
    exact ⟨⟨count * 32, ⟨by omega, hproduct⟩, by omega, by omega⟩, by omega⟩

/-- Reading records never runs into a trap, whatever their count. -/
theorem guardedRead_eq {bytes : List UInt8} (h : bytes.length < 2 ^ 64) :
    guardedRead bytes = lift (read bytes) := by
  unfold guardedRead read
  refine lift_bind fun _ hheader => ?_
  have hheader := ensure_eq_ok.mp hheader
  have hslice : (slice bytes 0 8 : Guarded RecordError (List UInt8)) = pure (bytes.take 8) :=
    slice_eq (by decide) hheader
  rw [hslice, pure_bind]
  dsimp only
  generalize Word.ofBytes (bytes.take 8) = count
  by_cases hfits : count.toNat * 32 + 8 ≤ bytes.length
  · have hproduct : (count * 32).toNat = count.toNat * 32 := by
      rw [UInt64.toNat_mul, Nat.mod_eq_of_lt (show _ < 2 ^ 64 from ?_)]
      · rfl
      · change count.toNat * 32 < 2 ^ 64
        omega
    have hstop : (8 + count * 32).toNat = 8 + count.toNat * 32 := by
      rw [UInt64.toNat_add, hproduct, Nat.mod_eq_of_lt (show _ < 2 ^ 64 from ?_)]
      · rfl
      · change 8 + count.toNat * 32 < 2 ^ 64
        omega
    have hmul : (mul count 32 : Guarded RecordError Word) = pure (count * 32) :=
      mul_eq (by change count.toNat * 32 < 2 ^ 64; omega)
    have hadd : (add 8 (count * 32) : Guarded RecordError Word) = pure (8 + count * 32) :=
      add_eq (by rw [hproduct]; change 8 + count.toNat * 32 < 2 ^ 64; omega)
    have hneeded : extentWithin bytes.length count = some (8 + count * 32) :=
      (extentWithin_eq_some h).mpr ⟨hfits, by omega⟩
    have hrecords : (slice bytes 8 (8 + count * 32) : Guarded RecordError (List UInt8)) =
        pure ((bytes.drop 8).take (32 * count.toNat)) := by
      rw [slice_eq (by rw [UInt64.le_iff_toNat_le, hstop]; exact Nat.le_add_right ..) (by omega), hstop]
      congr 2
      exact (Nat.add_sub_cancel_left ..).trans (Nat.mul_comm ..)
    rw [ensure, if_pos hfits, hneeded]
    simp only [hmul, hadd, hrecords, pure_bind, readRecords_take]
    rfl
  · have hnone : extentWithin bytes.length count = none :=
      Option.eq_none_iff_forall_ne_some.mpr fun needed hneeded =>
        hfits ((extentWithin_eq_some h).mp hneeded).1
    rw [ensure, if_neg hfits, hnone]
    rfl

end Records

/-- The list of bare arguments that an array of records describes. -/
def ArgumentList.ofRecords (bytes : List UInt8) : Except Error ArgumentList :=
  ((Records.read bytes).map ofDescriptors).mapError .ofRecord

theorem ArgumentList.ofRecords_eq_ok_iff {bytes : List UInt8} {l : ArgumentList} :
    ofRecords bytes = .ok l ↔ ∃ descriptors, Records.read bytes = .ok descriptors ∧
      l = ofDescriptors descriptors := by
  rw [ofRecords, mapError_eq_ok]
  cases Records.read bytes with
  | error fault => simp [Except.map]
  | ok descriptors => simp [Except.map, eq_comm]

/-- Records and lists of arguments stand for each other. A list that callers come by has records as long as
memory can be addressed for them: 32 bytes for each argument behind the eight bytes of the count. From them,
whatever bytes follow, the same arguments are read, without the matrices that the list owns. Bytes can be
read exactly when they have room for a count and for as many records as it says, each of which describes an
argument; the records of what is read are then the bytes it was read from, and all else is reported as
malformed. No count leads a machine that stops at traps astray. -/
theorem records_bijective :
    (∀ l : ArgumentList, l.Built →
      ((∃ records, Records.allocate l.descriptors = .ok records) ↔
        8 + 32 * l.size + Records.alignment.toNat ≤ addressSpace) ∧
      ∀ records, Records.allocate l.descriptors = .ok records →
        records.bytes.length = 8 + 32 * l.size ∧
        ∀ rest, ∃ back, ArgumentList.ofRecords (records.bytes ++ rest) = .ok back ∧
          back.descriptors = l.descriptors ∧ back.blobs = []) ∧
    ∀ bytes : List UInt8,
      (bytes.length < 2 ^ 64 → Records.guardedRead bytes = lift (Records.read bytes)) ∧
      ((∃ back, ArgumentList.ofRecords bytes = .ok back) ↔ 8 ≤ bytes.length ∧
        8 + 32 * (wordAt bytes 0).toNat ≤ bytes.length ∧
        ∀ i < (wordAt bytes 0).toNat, (Records.slot bytes i).Describes) ∧
      (∀ back, ArgumentList.ofRecords bytes = .ok back →
        back.Built ∧ back.size = (wordAt bytes 0).toNat ∧
        ∀ records, Records.allocate back.descriptors = .ok records →
          records.bytes = bytes.take (8 + 32 * (wordAt bytes 0).toNat)) ∧
      ∀ e, ArgumentList.ofRecords bytes = .error e → ∃ text, e = .malformedBuffer text := by
  refine ⟨fun l hl => ⟨Records.allocate_isOk_iff, fun records h => ?_⟩, fun bytes => ?_⟩
  · have hlt := Records.length_lt_of_allocate h
    rw [Records.eq_of_allocate h]
    refine ⟨Records.length_ofList _, fun rest => ?_⟩
    have hread := Records.read_ofList_append hl.aligned hlt rest
    exact ⟨_, ArgumentList.ofRecords_eq_ok_iff.mpr ⟨_, hread, rfl⟩, rfl, rfl⟩
  · refine ⟨Records.guardedRead_eq, ?_, ?_, ?_⟩
    · simp only [ArgumentList.ofRecords_eq_ok_iff]
      constructor
      · rintro ⟨_, descriptors, hread, -⟩
        obtain ⟨hfits, hdescribes⟩ := Records.read_isOk_iff.mp ⟨descriptors, hread⟩
        exact ⟨by omega, hfits, hdescribes⟩
      · rintro ⟨-, hfits, hdescribes⟩
        obtain ⟨descriptors, hread⟩ := Records.read_isOk_iff.mpr ⟨hfits, hdescribes⟩
        exact ⟨_, descriptors, hread, rfl⟩
    · intro back h
      obtain ⟨descriptors, hread, rfl⟩ := ArgumentList.ofRecords_eq_ok_iff.mp h
      have hsize : (ArgumentList.ofDescriptors descriptors).size = (wordAt bytes 0).toNat :=
        (Records.read_eq_ok_iff.mp hread).2.1
      refine ⟨.read hread, hsize, fun records hrecords => ?_⟩
      rw [Records.eq_of_allocate hrecords]
      exact Records.bytes_of_read hread
    · intro e h
      rw [ArgumentList.ofRecords] at h
      cases hread : Records.read bytes with
      | error fault =>
        rw [hread] at h
        exact ⟨_, (Except.error.inj h).symm⟩
      | ok descriptors =>
        rw [hread] at h
        cases h

/-- A number that the device may write to, and an array of three that it only reads. -/
def numberAndArray : ArgumentList :=
  ArgumentList.addAll {} [.scalar (.word 2) ⟨4096, [0, 0]⟩ .both,
    .buffer (.word 4) ⟨8192, [1, 0, 0, 0, 2, 0, 0, 0, 3, 0, 0, 0]⟩ .input]

/-- The two are read from their records with three bytes behind them; if the count says three, not even its
last record can be looked at. -/
theorem records_bijective_numberAndArray :
    numberAndArray.Built ∧ (∃ records, Records.allocate numberAndArray.descriptors = .ok records ∧
      records.bytes.length = 72 ∧
      (∃ back, ArgumentList.ofRecords (records.bytes ++ [7, 8, 9]) = .ok back ∧
        back.descriptors = [⟨4096, 2, 64, .both⟩, ⟨8192, 12, 4, .input⟩]) ∧
      ¬ ∃ back, ArgumentList.ofRecords (records.bytes.set 0 3) = .ok back) := by
  have hbuilt : numberAndArray.Built :=
    .add (a := .buffer (.word 4) ⟨8192, [1, 0, 0, 0, 2, 0, 0, 0, 3, 0, 0, 0]⟩ .input)
      (.add (a := .scalar (.word 2) ⟨4096, [0, 0]⟩ .both) .empty rfl) rfl
  obtain ⟨hlists, hbytes⟩ := records_bijective
  obtain ⟨hmemory, hrecords⟩ := hlists numberAndArray hbuilt
  obtain ⟨records, hallocated⟩ := hmemory.mpr (by decide)
  obtain ⟨hlength, hread⟩ := hrecords records hallocated
  obtain ⟨back, hback, hdescriptors, -⟩ := hread [7, 8, 9]
  refine ⟨hbuilt, records, hallocated, hlength, ⟨back, hback, hdescriptors⟩, fun hthree => ?_⟩
  have hfits := ((hbytes _).2.1.mp hthree).2.1
  rw [Records.eq_of_allocate hallocated] at hfits
  exact absurd hfits (by decide)

end AccelKrylov
