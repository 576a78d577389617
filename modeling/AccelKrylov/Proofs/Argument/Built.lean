import AccelKrylov.Proofs.Argument.Records
import AccelKrylov.Proofs.Wire.Written
import AccelKrylov.Error

/-! Lists of arguments as their callers come by them: arguments are added one after the other to a list that
is empty or was read from records, and the device may write to what is there. Whatever the order, every
alignment in the list is a power of two, and a matrix stays at the position where it was added. -/

namespace AccelKrylov

theorem mapError_eq_ok {ε ε' β : Type} {x : Except ε β} {f : ε → ε'} {b : β} :
    x.mapError f = .ok b ↔ x = .ok b := by
  cases x with
  | ok b' =>
    constructor
    · rintro ⟨⟩
      rfl
    · rintro ⟨⟩
      rfl
  | error e => exact ⟨nofun, nofun⟩

/-- Writing to a block does not move its end. -/
theorem Buffer.size_write (b : Buffer) (offset : Nat) (patch : List UInt8) :
    ((b.write offset patch).getD b).size = b.size := by
  cases h : overwrite b.bytes offset patch with
  | none => simp [Buffer.write, h]
  | some bytes => simpa [Buffer.write, h, Buffer.size] using length_of_overwrite h

/-- An argument that is to be added to a list. -/
inductive Addition where
  /-- A single value, or a configuration. -/
  | scalar (footprint : Footprint) (cell : Cell) (direction : Direction)
  | buffer (footprint : Footprint) (cell : Cell) (direction : Direction)
  | matrix (address : Word) (m : Matrix Double) (direction : Direction)
  | descriptor (d : Descriptor)

namespace Addition

/-- What the argument is listed as, unless it is refused. -/
def entry : Addition → Except Error Descriptor
  | scalar footprint cell direction => .ok
      ⟨cell.address, footprint.size, max footprint.align ArgumentList.scalarAlignment, direction⟩
  | buffer footprint cell direction => .ok
      ⟨cell.address, UInt64.ofNat cell.bytes.length, footprint.align, direction⟩
  | matrix address m direction => ((Wire.Flat.ofMatrix m).map fun flat =>
      ⟨address, UInt64.ofNat flat.block.size, flat.block.align, direction⟩).mapError .ofAllocation
  | descriptor d => d.check.mapError .ofAlignment

/-- The block that the argument is written into, if it is a matrix. -/
def blob? : Addition → Option Blob
  | matrix address m _ => (Wire.Flat.ofMatrix m).toOption.map fun flat => ⟨address, flat⟩
  | scalar .. | buffer .. | descriptor _ => none

/-- The caller's memory behind the argument. -/
def memory? : Addition → Option (List UInt8)
  | scalar _ cell _ | buffer _ cell _ => some cell.bytes
  | matrix .. | descriptor _ => none

section
variable {address : Word} {m : Matrix Double} {direction : Direction} {d : Descriptor} {flat : Wire.Flat}

theorem size_of_ofMatrix (h : Wire.Flat.ofMatrix m = .ok flat) : flat.block.size = m.encodedSize := by
  rw [(Wire.ofMatrix_eq_ok_iff.mp h).2]
  exact Wire.length_encode m

theorem align_of_ofMatrix (h : Wire.Flat.ofMatrix m = .ok flat) : flat.block.align = 64 := by
  rw [(Wire.ofMatrix_eq_ok_iff.mp h).2]
  rfl

/-- A matrix is listed as the block that it is written into. -/
theorem entry_matrix_eq_ok_iff : (matrix address m direction).entry = .ok d ↔
    ∃ flat, Wire.Flat.ofMatrix m = .ok flat ∧ d = ⟨address, UInt64.ofNat m.encodedSize, 64, direction⟩ := by
  rw [entry, mapError_eq_ok]
  cases h : Wire.Flat.ofMatrix m with
  | ok flat =>
    have hsize := size_of_ofMatrix h
    have halign := align_of_ofMatrix h
    simp [Except.map, hsize, halign, eq_comm]
  | error fault => simp [Except.map]

theorem blob?_matrix (h : Wire.Flat.ofMatrix m = .ok flat) :
    (matrix address m direction).blob? = some ⟨address, flat⟩ := by
  rw [blob?, h]
  rfl

end

theorem aligned_of_entry {a : Addition} {d : Descriptor} (h : a.entry = .ok d) :
    d.alignment.isPowerOfTwo = true := by
  cases a with
  | scalar footprint cell direction =>
    obtain rfl := Except.ok.inj h
    exact Word.isPowerOfTwo_max footprint.aligned (by decide)
  | buffer footprint cell direction =>
    obtain rfl := Except.ok.inj h
    exact footprint.aligned
  | matrix address m direction =>
    obtain ⟨flat, -, rfl⟩ := entry_matrix_eq_ok_iff.mp h
    exact show Word.isPowerOfTwo 64 = true by decide
  | descriptor d =>
    rw [entry, mapError_eq_ok] at h
    obtain ⟨_, haligned, hd⟩ := bind_eq_ok.mp h
    obtain rfl := Except.ok.inj hd
    exact ensure_eq_ok.mp haligned

/-- Only matrices have blocks. -/
theorem exists_matrix_of_blob {a : Addition} {blob : Blob} (h : a.blob? = some blob) :
    ∃ m direction, a = .matrix blob.address m direction ∧ Wire.Flat.ofMatrix m = .ok blob.flat := by
  cases a with
  | scalar _ _ _ | buffer _ _ _ | descriptor _ => cases h
  | matrix address m direction =>
    cases hflat : Wire.Flat.ofMatrix m with
    | ok flat =>
      rw [blob?_matrix hflat] at h
      obtain rfl := Option.some.inj h
      exact ⟨m, direction, rfl, hflat⟩
    | error fault =>
      rw [blob?, hflat] at h
      cases h

end Addition

namespace ArgumentList

/-! ### Ways to come by a list -/

/-- The list with one more argument, and the position of the argument. -/
def add (l : ArgumentList) : Addition → Except Error (ArgumentList × Nat)
  | .scalar footprint cell direction => .ok (l.addScalar footprint cell direction)
  | .buffer footprint cell direction => .ok (l.addBuffer footprint cell direction)
  | .matrix address m direction => (l.addMatrix address m direction).mapError .ofAllocation
  | .descriptor d => (l.addDescriptor d).mapError .ofAlignment

/-- The list with some more arguments. One that cannot be added leaves the list as it is. -/
def addAll (l : ArgumentList) : List Addition → ArgumentList
  | [] => l
  | a :: additions => match l.add a with
    | .ok (l', _) => addAll l' additions
    | .error _ => addAll l additions

/-- A list that a caller can have. -/
inductive Built : ArgumentList → Prop where
  | empty : Built {}
  | read {bytes : List UInt8} {descriptors : List Descriptor}
    (h : Records.read bytes = .ok descriptors) : Built (ofDescriptors descriptors)
  | add {l l' : ArgumentList} {a : Addition} {position : Nat} (earlier : Built l)
    (h : l.add a = .ok (l', position)) : Built l'
  | poke {l : ArgumentList} (earlier : Built l) (position offset : Nat) (patch : List UInt8) :
    Built (l.poke position offset patch)

/-! ### What an addition does -/

/-- The list with an argument at its end. -/
def extend (l : ArgumentList) (a : Addition) (d : Descriptor) : ArgumentList where
  descriptors := l.descriptors ++ [d]
  blobs := l.blobs ++ (a.blob?.map fun blob => (l.size, blob)).toList
  borrowed := l.borrowed ++ (a.memory?.map fun bytes => (l.size, bytes)).toList

@[simp] theorem size_extend (l : ArgumentList) (a : Addition) (d : Descriptor) :
    (l.extend a d).size = l.size + 1 := List.length_append

theorem extend_of_borrowed {a : Addition} {bytes : List UInt8} (hblob : a.blob? = none)
    (hmemory : a.memory? = some bytes) (l : ArgumentList) (d : Descriptor) :
    l.extend a d = (l.pushBorrowed d bytes).1 := by
  simp [extend, pushBorrowed, hblob, hmemory]

/-- An addition is refused, or it appends what belongs to the argument. -/
theorem add_eq (l : ArgumentList) (a : Addition) :
    l.add a = a.entry.map fun d => (l.extend a d, l.size) := by
  cases a with
  | scalar footprint cell direction =>
    rw [add, addScalar, Addition.entry, Except.map, extend_of_borrowed rfl rfl]
    rfl
  | buffer footprint cell direction =>
    rw [add, addBuffer, Addition.entry, Except.map, extend_of_borrowed rfl rfl]
    rfl
  | matrix address m direction =>
    have hmemory : (Addition.matrix address m direction).memory? = none := rfl
    rw [add, addMatrix, Addition.entry]
    cases h : Wire.Flat.ofMatrix m with
    | ok flat =>
      have hblob : (Addition.matrix address m direction).blob? = some ⟨address, flat⟩ :=
        Addition.blob?_matrix h
      change _ = Except.ok (l.extend _ _, l.size)
      simp [extend, hblob, hmemory]
      rfl
    | error fault => rfl
  | descriptor d =>
    rw [add, addDescriptor, Addition.entry]
    cases h : d.check with
    | ok d' =>
      change _ = Except.ok (l.extend _ _, l.size)
      simp [extend, Addition.blob?, Addition.memory?]
      rfl
    | error fault => rfl

theorem of_add {l l' : ArgumentList} {a : Addition} {position : Nat} (h : l.add a = .ok (l', position)) :
    ∃ d, a.entry = .ok d ∧ l' = l.extend a d ∧ position = l.size := by
  rw [add_eq] at h
  cases hentry : a.entry with
  | ok d =>
    rw [hentry] at h
    obtain ⟨rfl, rfl⟩ := Prod.mk.inj (Except.ok.inj h)
    exact ⟨d, rfl, rfl, rfl⟩
  | error e =>
    rw [hentry] at h
    cases h

/-- Blocks stay where they are when arguments are added. -/
theorem blobs_addAll (l : ArgumentList) (additions : List Addition) :
    l.blobs <+: (l.addAll additions).blobs := by
  induction additions generalizing l with
  | nil => exact List.prefix_rfl
  | cons a additions ih =>
    rw [addAll]
    split
    next l' position h =>
      obtain ⟨d, -, rfl, -⟩ := of_add h
      exact (List.prefix_append l.blobs _).trans (ih (l.extend a d))
    · exact ih l

/-! ### What holds of every list -/

namespace Built

variable {l : ArgumentList}

theorem aligned (hl : l.Built) : ∀ d ∈ l.descriptors, d.alignment.isPowerOfTwo = true := by
  induction hl with
  | empty => nofun
  | read h => exact Records.aligned_of_read h
  | add earlier h ih =>
    obtain ⟨d, hentry, rfl, -⟩ := of_add h
    exact List.forall_mem_append.mpr ⟨ih, List.forall_mem_singleton.mpr (Addition.aligned_of_entry hentry)⟩
  | poke earlier position offset patch ih => exact ih

/-- Every block is listed at its position, the device does not change that. -/
theorem blobs_listed (hl : l.Built) : ∀ b ∈ l.blobs, ∃ direction, l.get? b.1 =
    some ⟨b.2.address, UInt64.ofNat b.2.flat.block.size, 64, direction⟩ := by
  induction hl with
  | empty | read _ => nofun
  | @add l l' a position earlier h ih =>
    obtain ⟨d, hentry, rfl, -⟩ := of_add h
    refine List.forall_mem_append.mpr ⟨fun b hb => ?_, fun b hb => ?_⟩
    · obtain ⟨direction, hat⟩ := ih b hb
      refine ⟨direction, ?_⟩
      rw [get?, extend, List.getElem?_append_left (List.getElem?_eq_some_iff.mp hat).1]
      exact hat
    · obtain ⟨blob, hblob, rfl⟩ := Option.map_eq_some_iff.mp (Option.mem_toList.mp hb)
      obtain ⟨m, direction, rfl, hflat⟩ := Addition.exists_matrix_of_blob hblob
      obtain ⟨-, -, rfl⟩ := Addition.entry_matrix_eq_ok_iff.mp hentry
      refine ⟨direction, ?_⟩
      rw [Addition.size_of_ofMatrix hflat]
      exact List.getElem?_concat_length
  | poke earlier position offset patch ih =>
    intro b hb
    obtain ⟨b', hb', rfl⟩ := List.mem_map.mp hb
    obtain ⟨direction, hat⟩ := ih b' hb'
    refine ⟨direction, ?_⟩
    dsimp only
    split
    · rw [Buffer.size_write]
      exact hat
    · exact hat

/-- Every block belongs to an argument of the list. -/
theorem blobs_lt (hl : l.Built) : ∀ b ∈ l.blobs, b.1 < l.size := by
  intro b hb
  obtain ⟨direction, hat⟩ := hl.blobs_listed b hb
  exact (List.getElem?_eq_some_iff.mp hat).1

/-- Blocks are in the order of their arguments. -/
theorem blobs_sorted (hl : l.Built) : l.blobs.Pairwise fun b b' => b.1 < b'.1 := by
  induction hl with
  | empty | read _ => exact .nil
  | @add l l' a position earlier h ih =>
    obtain ⟨d, -, rfl, -⟩ := of_add h
    refine List.pairwise_append.mpr ⟨ih, by cases a.blob? <;> simp, fun b hb b' hb' => ?_⟩
    obtain ⟨blob, -, rfl⟩ := Option.map_eq_some_iff.mp (Option.mem_toList.mp hb')
    exact earlier.blobs_lt b hb
  | poke earlier position offset patch ih =>
    refine List.pairwise_map.mpr (ih.imp fun {b b'} h => ?_)
    dsimp only
    split <;> split <;> exact h

/-- A block is found at its position. -/
theorem lookup_of_mem (hl : l.Built) {position : Nat} {blob : Blob} (h : (position, blob) ∈ l.blobs) :
    l.blobs.lookup position = some blob := by
  have hsorted := hl.blobs_sorted
  generalize l.blobs = blobs at h hsorted
  induction blobs with
  | nil => cases h
  | cons b blobs ih =>
    obtain ⟨hfirst, hsorted⟩ := List.pairwise_cons.mp hsorted
    rcases List.mem_cons.mp h with rfl | hlater
    · exact List.lookup_cons_self
    · have hne := Nat.ne_of_gt (hfirst _ hlater)
      rw [List.lookup_cons, beq_false_of_ne hne]
      exact ih hlater hsorted

end Built

end ArgumentList

end AccelKrylov
