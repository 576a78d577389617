import AccelKrylov.Proofs.Argument.Built

/-! What is noticed when records come back. A device may have written anything over an array of records;
reading the array and comparing it with the arguments that were sent succeeds exactly when nothing but
addresses has changed, and says otherwise what is wrong. -/

namespace AccelKrylov

open Wire (wordAt)

/-! ### Changes to an array -/

/-- Byte `i` of an array of records belongs to an address. -/
def IsAddressByte (i : Nat) : Prop := 8 ≤ i ∧ (i - 8) % 32 < 8

/-- Two arrays have one length and the same bytes, but for those of addresses. -/
def AgreeButAddresses (sent bytes : List UInt8) : Prop :=
  bytes.length = sent.length ∧ ∀ i, ¬ IsAddressByte i → bytes[i]? = sent[i]?

/-- Everything but the address is the same. -/
structure Record.SameShape (r r' : Record) : Prop where
  size : r.size = r'.size
  alignment : r.alignment = r'.alignment
  direction : r.direction = r'.direction

theorem wordAt_eq_iff {sent bytes : List UInt8} {k : Nat} (hsent : 8 * (k + 1) ≤ sent.length)
    (hbytes : 8 * (k + 1) ≤ bytes.length) : wordAt bytes k = wordAt sent k ↔
      ∀ i, 8 * k ≤ i → i < 8 * (k + 1) → bytes[i]? = sent[i]? := by
  have hlength {bs : List UInt8} (h : 8 * (k + 1) ≤ bs.length) :
      ((bs.drop (8 * k)).take 8).length = 8 := by
    rw [List.length_take, List.length_drop]
    omega
  constructor
  · intro h i hfrom hto
    have hwords : (bytes.drop (8 * k)).take 8 = (sent.drop (8 * k)).take 8 := by
      rw [← Word.bytes_ofBytes _ (hlength hbytes), ← Word.bytes_ofBytes _ (hlength hsent)]
      exact congrArg Word.bytes h
    have hi := congrArg (·[i - 8 * k]?) hwords
    simp only [List.getElem?_take, List.getElem?_drop] at hi
    rwa [if_pos (by omega), if_pos (by omega), Nat.add_sub_cancel' hfrom] at hi
  · intro h
    exact congrArg Word.ofBytes (take_drop_congr fun i hfrom hto => h i hfrom (by omega))

/-- Agreement word by word; every fourth word is an address. -/
theorem agree_iff_words {sent bytes : List UInt8} {n : Nat} (hsent : sent.length = 8 + 32 * n)
    (hbytes : bytes.length = 8 + 32 * n) : AgreeButAddresses sent bytes ↔
      ∀ k < 4 * n + 1, k % 4 ≠ 1 → wordAt bytes k = wordAt sent k := by
  constructor
  · rintro ⟨-, h⟩ k hk haddress
    refine (wordAt_eq_iff (by omega) (by omega)).mpr fun i hfrom hto => h i ?_
    unfold IsAddressByte
    omega
  · refine fun h => ⟨by omega, fun i hi => ?_⟩
    by_cases hin : i < 8 + 32 * n
    · unfold IsAddressByte at hi
      have hk := h (i / 8) (by omega) (by omega)
      exact (wordAt_eq_iff (by omega) (by omega)).mp hk i (by omega) (by omega)
    · rw [List.getElem?_eq_none (by omega), List.getElem?_eq_none (by omega)]

namespace Records

/-- An array agrees with the one that was sent when the count and all shapes are the same. -/
theorem agree_ofList_iff {sent : List Descriptor} {bytes : List UInt8}
    (hlength : bytes.length = 8 + 32 * sent.length) : AgreeButAddresses (ofList sent).bytes bytes ↔
      wordAt bytes 0 = UInt64.ofNat sent.length ∧
        ∀ i d, sent[i]? = some d → (slot bytes i).SameShape (.ofDescriptor d) := by
  rw [agree_iff_words (length_ofList sent) hlength, ← wordAt_ofList]
  constructor
  · intro h
    refine ⟨h 0 (by omega) (by decide), fun i d hd => ?_⟩
    have hi := (List.getElem?_eq_some_iff.mp hd).1
    rw [← slot_ofList hd, slot_eq, slot_eq]
    exact ⟨h (4 * i + 2) (by omega) (by omega), h (4 * i + 3) (by omega) (by omega),
      h (4 * i + 4) (by omega) (by omega)⟩
  · rintro ⟨hcount, hslots⟩ k hk haddress
    obtain rfl | hpos := Nat.eq_zero_or_pos k
    · exact hcount
    · have hi : (k - 1) / 4 < sent.length := by omega
      have hd := List.getElem?_eq_getElem hi
      have hshape := hslots _ _ hd
      rw [← slot_ofList hd, slot_eq, slot_eq] at hshape
      obtain hk | hk | hk : k = 4 * ((k - 1) / 4) + 2 ∨ k = 4 * ((k - 1) / 4) + 3 ∨
          k = 4 * ((k - 1) / 4) + 4 := by omega
      · rw [hk]
        exact hshape.size
      · rw [hk]
        exact hshape.alignment
      · rw [hk]
        exact hshape.direction

end Records

/-! ### Differences between lists -/

/-- Two lists differ at a position in more than the address. -/
def DifferAt (sent returned : List Descriptor) (position : Nat) : Prop :=
  ∃ a b, sent[position]? = some a ∧ returned[position]? = some b ∧
    ¬ (a.size = b.size ∧ a.alignment = b.alignment ∧ a.direction = b.direction)

/-- The first position at which two lists differ, which is the length of the shorter one if they are not
of one length. -/
def FirstDifference (sent returned : List Descriptor) (position : Nat) : Prop :=
  if sent.length = returned.length then
    DifferAt sent returned position ∧ ∀ i < position, ¬ DifferAt sent returned i
  else position = min sent.length returned.length

theorem Descriptor.sameShape_iff {a b : Descriptor} : a.sameShape b = true ↔
    a.size = b.size ∧ a.alignment = b.alignment ∧ a.direction = b.direction := by
  simp [sameShape, and_assoc]

theorem differAt_zero {a b : Descriptor} {sent returned : List Descriptor} :
    DifferAt (a :: sent) (b :: returned) 0 ↔ a.sameShape b = false := by
  rw [← Bool.not_eq_true, Descriptor.sameShape_iff]
  simp [DifferAt]

theorem differAt_succ {a b : Descriptor} {sent returned : List Descriptor} {i : Nat} :
    DifferAt (a :: sent) (b :: returned) (i + 1) ↔ DifferAt sent returned i := by
  simp [DifferAt]

namespace Mismatch

theorem firstFrom_eq_none {i : Nat} {sent returned : List Descriptor} :
    firstFrom i sent returned = none ↔ ∀ j, ¬ DifferAt sent returned j := by
  induction sent generalizing i returned with
  | nil => simp [firstFrom, DifferAt]
  | cons a sent ih =>
    cases returned with
    | nil => simp [firstFrom, DifferAt]
    | cons b returned =>
      have hsucc : (∀ j, ¬ DifferAt (a :: sent) (b :: returned) j) ↔
          ¬ DifferAt (a :: sent) (b :: returned) 0 ∧ ∀ j, ¬ DifferAt sent returned j := by
        constructor
        · exact fun h => ⟨h 0, fun j hj => h (j + 1) (differAt_succ.mpr hj)⟩
        · rintro ⟨hzero, hrest⟩ (_ | j)
          · exact hzero
          · exact fun hj => hrest j (differAt_succ.mp hj)
      rw [hsucc, differAt_zero, firstFrom]
      cases h : a.sameShape b with
      | true => simp [ih]
      | false => simp

/-- The difference that is found is the first one. -/
theorem firstFrom_eq_some {i : Nat} {sent returned : List Descriptor} {m : Mismatch}
    (h : firstFrom i sent returned = some m) : ∃ j, m.position = i + j ∧ DifferAt sent returned j ∧
      ∀ k < j, ¬ DifferAt sent returned k := by
  induction sent generalizing i returned with
  | nil => simp [firstFrom] at h
  | cons a sent ih =>
    cases returned with
    | nil => simp [firstFrom] at h
    | cons b returned =>
      rw [firstFrom] at h
      split at h
      next hsame =>
        obtain ⟨j, hposition, hj, hbefore⟩ := ih h
        refine ⟨j + 1, by omega, differAt_succ.mpr hj, fun k hk => ?_⟩
        cases k with
        | zero => rw [differAt_zero, hsame]; exact Bool.noConfusion
        | succ k => exact fun hk' => hbefore k (Nat.lt_of_succ_lt_succ hk) (differAt_succ.mp hk')
      next hdiffer =>
        obtain rfl := Option.some.inj h
        exact ⟨0, rfl, differAt_zero.mpr (Bool.not_eq_true _ ▸ hdiffer), nofun⟩

theorem first?_eq_none {sent returned : List Descriptor} : first? sent returned = none ↔
    sent.length = returned.length ∧ ∀ i, ¬ DifferAt sent returned i := by
  rw [first?]
  split
  next h => exact iff_of_false nofun fun hsame => h hsame.1
  next h => rw [firstFrom_eq_none, and_iff_right (not_not.mp h)]

theorem first?_eq_some {sent returned : List Descriptor} {m : Mismatch}
    (h : first? sent returned = some m) : FirstDifference sent returned m.position := by
  rw [first?] at h
  rw [FirstDifference]
  split at h
  next hlength =>
    obtain rfl := Option.some.inj h
    rw [if_neg hlength]
    rfl
  next hlength =>
    obtain ⟨j, hposition, hj, hbefore⟩ := firstFrom_eq_some h
    rw [if_pos (not_not.mp hlength), hposition, Nat.zero_add]
    exact ⟨hj, hbefore⟩

end Mismatch

/-! ### What comes back -/

namespace Records

/-- Reads the records that came back and compares them with the arguments that were sent. -/
def receive (sent : List Descriptor) (bytes : List UInt8) : Except Error (List Descriptor) :=
  match read bytes with
  | .error fault => .error (.ofRecord fault)
  | .ok returned => match Mismatch.first? sent returned with
    | some m => .error (.ofMismatch m)
    | none => .ok returned

section
variable {sent returned : List Descriptor} {bytes : List UInt8}

theorem receive_of_error {fault : RecordError} (h : read bytes = .error fault) :
    receive sent bytes = .error (.ofRecord fault) := by
  rw [receive, h]

theorem receive_of_mismatch {m : Mismatch} (h : read bytes = .ok returned)
    (hm : Mismatch.first? sent returned = some m) : receive sent bytes = .error (.ofMismatch m) := by
  rw [receive, h]
  dsimp only
  rw [hm]

theorem receive_eq_ok_iff : receive sent bytes = .ok returned ↔
    read bytes = .ok returned ∧ Mismatch.first? sent returned = none := by
  constructor
  · intro h
    cases hread : read bytes with
    | error fault =>
      rw [receive_of_error hread] at h
      cases h
    | ok returned' =>
      cases hm : Mismatch.first? sent returned' with
      | some m =>
        rw [receive_of_mismatch hread hm] at h
        cases h
      | none =>
        rw [receive, hread] at h
        dsimp only at h
        rw [hm] at h
        obtain rfl := Except.ok.inj h
        exact ⟨rfl, hm⟩
  · rintro ⟨hread, hm⟩
    rw [receive, hread]
    dsimp only
    rw [hm]

/-- An error of the reader is one, and so is a difference. -/
theorem receive_eq_error {e : Error} (h : receive sent bytes = .error e) :
    (∃ fault, read bytes = .error fault ∧ e = .ofRecord fault) ∨
      ∃ returned m, read bytes = .ok returned ∧ Mismatch.first? sent returned = some m ∧
        e = .ofMismatch m := by
  cases hread : read bytes with
  | error fault =>
    rw [receive_of_error hread] at h
    exact .inl ⟨fault, rfl, (Except.error.inj h).symm⟩
  | ok returned =>
    cases hm : Mismatch.first? sent returned with
    | some m =>
      rw [receive_of_mismatch hread hm] at h
      exact .inr ⟨returned, m, rfl, hm, (Except.error.inj h).symm⟩
    | none =>
      rw [receive_eq_ok_iff.mpr ⟨hread, hm⟩] at h
      cases h

/-- Bytes that come back are malformed exactly when they cannot be read. -/
theorem malformed_iff : (∃ text, receive sent bytes = .error (.malformedBuffer text)) ↔
    ¬ ∃ back, read bytes = .ok back := by
  constructor
  · rintro ⟨text, h⟩ ⟨back, hread⟩
    obtain ⟨fault, herror, -⟩ | ⟨_, m, -, -, he⟩ := receive_eq_error h
    · rw [hread] at herror
      cases herror
    · cases he
  · intro h
    cases hread : read bytes with
    | error fault => exact ⟨_, receive_of_error hread⟩
    | ok back => exact absurd ⟨back, hread⟩ h

/-! ### What is noticed -/

/-- What was read differs nowhere from what was sent when all its records have the shapes of the arguments
sent. -/
theorem sameShape_of_receive (h : receive sent bytes = .ok returned) {i : Nat} {d : Descriptor}
    (hd : sent[i]? = some d) : ∃ d', returned[i]? = some d' ∧ slot bytes i = .ofDescriptor d' ∧
      d.size = d'.size ∧ d.alignment = d'.alignment ∧ d.direction = d'.direction := by
  obtain ⟨hread, hm⟩ := receive_eq_ok_iff.mp h
  obtain ⟨hlength, hsame⟩ := Mismatch.first?_eq_none.mp hm
  obtain ⟨hi, -⟩ := List.getElem?_eq_some_iff.mp hd
  have hd' := List.getElem?_eq_getElem (hlength ▸ hi)
  refine ⟨_, hd', ?_, ?_⟩
  · exact (Record.toDescriptor_eq_ok_iff.mp ((read_eq_ok_iff.mp hread).2.2 i _ hd')).2
  · exact Decidable.of_not_not fun hdiffer => hsame i ⟨d, _, hd, hd', hdiffer⟩

theorem agree_of_receive (hlength : bytes.length = 8 + 32 * sent.length)
    (h : receive sent bytes = .ok returned) : AgreeButAddresses (ofList sent).bytes bytes := by
  refine (agree_ofList_iff hlength).mpr ⟨?_, fun i d hd => ?_⟩
  · obtain ⟨hread, hm⟩ := receive_eq_ok_iff.mp h
    rw [(Mismatch.first?_eq_none.mp hm).1, (read_eq_ok_iff.mp hread).2.1, UInt64.ofNat_toNat]
  · obtain ⟨d', -, hslot, hsize, halignment, hdirection⟩ := sameShape_of_receive h hd
    rw [hslot]
    exact ⟨hsize.symm, halignment.symm, congrArg Direction.tag hdirection.symm⟩

theorem receive_of_agree (haligned : ∀ d ∈ sent, d.alignment.isPowerOfTwo = true)
    (hlt : sent.length < 2 ^ 64) (hagree : AgreeButAddresses (ofList sent).bytes bytes) :
    ∃ returned, receive sent bytes = .ok returned := by
  have hlength := hagree.1.trans (length_ofList sent)
  obtain ⟨hcount, hslots⟩ := (agree_ofList_iff hlength).mp hagree
  have hnat : (wordAt bytes 0).toNat = sent.length := by
    rw [hcount, UInt64.toNat_ofNat_of_lt' hlt]
  have hdescribes : ∀ i < (wordAt bytes 0).toNat, (slot bytes i).Describes := by
    intro i hi
    rw [hnat] at hi
    have hd := List.getElem?_eq_getElem hi
    obtain ⟨hdirection, halignment⟩ := Record.describes_iff.mpr
      ⟨_, Record.toDescriptor_eq_ok_iff.mpr ⟨haligned _ (List.mem_of_getElem? hd), rfl⟩⟩
    have hshape := hslots i _ hd
    exact ⟨hshape.direction ▸ hdirection, hshape.alignment ▸ halignment⟩
  obtain ⟨returned, hread⟩ := read_isOk_iff.mpr ⟨by omega, hdescribes⟩
  obtain ⟨-, hreturned, hback⟩ := read_eq_ok_iff.mp hread
  refine ⟨returned, receive_eq_ok_iff.mpr ⟨hread, Mismatch.first?_eq_none.mpr ⟨by omega, ?_⟩⟩⟩
  rintro i ⟨d, d', hd, hd', hdiffer⟩
  obtain ⟨-, hslot⟩ := Record.toDescriptor_eq_ok_iff.mp (hback i d' hd')
  have hshape := hslots i d hd
  rw [hslot] at hshape
  have hdirection : d'.direction = d.direction := by
    have htag := congrArg Direction.ofTag? hshape.direction
    exact Option.some.inj (by simpa [Record.ofDescriptor] using htag)
  exact hdiffer ⟨hshape.size.symm, hshape.alignment.symm, hdirection.symm⟩

end

end Records

/-- What is noticed of the bytes that came back for some arguments. -/
structure Noticed (sent : List Descriptor) (bytes : List UInt8) : Prop where
  /-- All is well exactly when no more than addresses have changed. -/
  accepted : (∃ returned, Records.receive sent bytes = .ok returned) ↔
    AgreeButAddresses (Records.ofList sent).bytes bytes
  /-- What is returned are the arguments that were sent, at the addresses that came back. -/
  returned (back : List Descriptor) : Records.receive sent bytes = .ok back →
    back = sent.mapIdx fun i d => { d with address := (Records.slot bytes i).address }
  malformed : (∃ text, Records.receive sent bytes = .error (.malformedBuffer text)) ↔
    bytes.length < 8 + 32 * (wordAt bytes 0).toNat ∨
      ∃ i < (wordAt bytes 0).toNat, ¬ (Records.slot bytes i).Describes
  /-- Every other error says where the lists differ first. -/
  mismatch (e : Error) : Records.receive sent bytes = .error e → (∃ text, e = .malformedBuffer text) ∨
    ∃ back position detail, Records.read bytes = .ok back ∧
      e = .argumentMismatch position detail ∧ FirstDifference sent back position

theorem noticed {sent : List Descriptor} {bytes : List UInt8}
    (haligned : ∀ d ∈ sent, d.alignment.isPowerOfTwo = true) (hlt : sent.length < 2 ^ 64)
    (hlength : bytes.length = 8 + 32 * sent.length) : Noticed sent bytes where
  accepted :=
    ⟨fun ⟨_, h⟩ => Records.agree_of_receive hlength h, Records.receive_of_agree haligned hlt⟩
  returned back h := by
    have hback := (Mismatch.first?_eq_none.mp (Records.receive_eq_ok_iff.mp h).2).1
    apply List.ext_getElem?
    intro i
    rw [List.getElem?_mapIdx]
    cases hd : sent[i]? with
    | none =>
      rw [List.getElem?_eq_none_iff] at hd
      exact List.getElem?_eq_none (by omega)
    | some d =>
      obtain ⟨d', hd', hslot, hsize, halignment, hdirection⟩ := Records.sameShape_of_receive h hd
      rw [hd', hslot, Option.map_some, hsize, halignment, hdirection]
      rfl
  malformed := by
    rw [Records.malformed_iff, Records.read_isOk_iff]
    simp only [Classical.not_and_iff_not_or_not, Classical.not_forall, Nat.not_le,
      exists_prop]
  mismatch e h := by
    obtain ⟨fault, -, rfl⟩ | ⟨back, m, hread, hm, rfl⟩ := Records.receive_eq_error h
    · exact .inl ⟨_, rfl⟩
    · exact .inr ⟨back, _, _, hread, rfl, Mismatch.first?_eq_some hm⟩

end AccelKrylov
