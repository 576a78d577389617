import AccelKrylov.Proofs.Argument.ReadBack

/-! Lists of arguments that change in place. A call that adds an argument goes through several changes, and
whatever it has done to the list before it fails would stay; but a call that fails has not done anything yet.
So after any calls the arguments and the blocks of the list belong together. -/

namespace AccelKrylov

/-- A call on a list, with what it leaves of the list when it fails. -/
abbrev InPlace (β : Type) := ExceptT Error (StateM ArgumentList) β

namespace InPlace

/-! ### Calls -/

/-- Appends a descriptor; its position is the one before the new end. -/
def push (d : Descriptor) : InPlace Nat := do
  modify fun l => { l with descriptors := l.descriptors ++ [d] }
  return (← get).size - 1

/-- Borrows memory of the caller's for the argument at a position. -/
def borrow (position : Nat) (bytes : List UInt8) : InPlace Unit :=
  modify fun l => { l with borrowed := l.borrowed ++ [(position, bytes)] }

/-- Takes over the block of the argument at a position. -/
def own (position : Nat) (blob : Blob) : InPlace Unit :=
  modify fun l => { l with blobs := l.blobs ++ [(position, blob)] }

def pushBorrowed (d : Descriptor) (bytes : List UInt8) : InPlace Nat := do
  let position ← push d
  borrow position bytes
  return position

/-- The changes that an addition makes, in their order. -/
def add : Addition → InPlace Nat
  | .scalar footprint cell direction => pushBorrowed
      ⟨cell.address, footprint.size, max footprint.align ArgumentList.scalarAlignment, direction⟩ cell.bytes
  | .buffer footprint cell direction => pushBorrowed
      ⟨cell.address, UInt64.ofNat cell.bytes.length, footprint.align, direction⟩ cell.bytes
  | .matrix address m direction => do
    let flat ← (Wire.Flat.ofMatrix m).mapError Error.ofAllocation
    let position ← push ⟨address, UInt64.ofNat flat.block.size, flat.block.align, direction⟩
    own position ⟨address, flat⟩
    return position
  | .descriptor d => do
    push (← d.check.mapError Error.ofAlignment)

/-- Several calls, one after the other, whether they fail or not. -/
def addEach : List Addition → StateM ArgumentList (List (Except Error Nat))
  | [] => return []
  | a :: additions => do
    let result ← (add a).run
    return result :: (← addEach additions)

/-! ### What a call does -/

section
variable {l l' : ArgumentList} {β γ : Type} {x : InPlace β} {f : β → InPlace γ}

theorem run_bind_of_ok {b : β} (h : x.run.run l = (.ok b, l')) : (x >>= f).run.run l = (f b).run.run l' := by
  rw [ExceptT.run_bind, StateT.run_bind, h]
  rfl

theorem run_bind_of_error {e : Error} (h : x.run.run l = (.error e, l')) :
    (x >>= f).run.run l = (.error e, l') := by
  rw [ExceptT.run_bind, StateT.run_bind, h]
  rfl

theorem run_liftM (l : ArgumentList) (x : Except Error β) : (liftM x : InPlace β).run.run l = (x, l) := rfl

theorem run_push (l : ArgumentList) (d : Descriptor) : (push d).run.run l = (.ok l.size, (l.push d).1) := by
  change (Except.ok ((l.descriptors ++ [d]).length - 1), _) = _
  rw [List.length_append]
  rfl

theorem run_pushBorrowed (l : ArgumentList) (d : Descriptor) (bytes : List UInt8) :
    (pushBorrowed d bytes).run.run l = (.ok l.size, (l.pushBorrowed d bytes).1) := by
  rw [pushBorrowed, run_bind_of_ok (run_push l d)]
  rfl

end

/-- A call comes to the list that the addition makes; one that fails leaves the list as it is. -/
theorem run_add (l : ArgumentList) (a : Addition) : (add a).run.run l = match l.add a with
    | .ok (l', position) => (.ok position, l')
    | .error e => (.error e, l) := by
  cases a with
  | scalar footprint cell direction => exact run_pushBorrowed ..
  | buffer footprint cell direction => exact run_pushBorrowed ..
  | matrix address m direction =>
    rw [add, ArgumentList.add, ArgumentList.addMatrix]
    cases Wire.Flat.ofMatrix m with
    | ok flat =>
      rw [run_bind_of_ok (run_liftM l ((Except.ok flat).mapError .ofAllocation)),
        run_bind_of_ok (run_push ..)]
      rfl
    | error fault => exact run_bind_of_error rfl
  | descriptor d =>
    rw [add, ArgumentList.add, ArgumentList.addDescriptor]
    cases d.check with
    | ok d' =>
      rw [run_bind_of_ok (run_liftM l ((Except.ok d').mapError .ofAlignment))]
      exact run_push ..
    | error fault => exact run_bind_of_error rfl

theorem run_add_of_ok {l : ArgumentList} {a : Addition} {d : Descriptor} (h : a.entry = .ok d) :
    (add a).run.run l = (.ok l.size, l.extend a d) := by
  rw [run_add, ArgumentList.add_eq, h]
  rfl

theorem run_add_of_error {l : ArgumentList} {a : Addition} {e : Error} (h : a.entry = .error e) :
    (add a).run.run l = (.error e, l) := by
  rw [run_add, ArgumentList.add_eq, h]
  rfl

/-! ### What several calls do -/

/-- Calls on a list, with what each of them returns and the list that they leave. -/
inductive Runs : ArgumentList → List Addition → List (Except Error Nat) → ArgumentList → Prop
  | nil (l : ArgumentList) : Runs l [] [] l
  | added {l l' : ArgumentList} {a : Addition} {d : Descriptor} {additions : List Addition}
      {results : List (Except Error Nat)} (entry : a.entry = .ok d)
      (rest : Runs (l.extend a d) additions results l') :
    Runs l (a :: additions) (.ok l.size :: results) l'
  | refused {l l' : ArgumentList} {a : Addition} {e : Error} {additions : List Addition}
      {results : List (Except Error Nat)} (entry : a.entry = .error e) (rest : Runs l additions results l') :
    Runs l (a :: additions) (.error e :: results) l'

theorem runs_addEach (l : ArgumentList) (additions : List Addition) :
    Runs l additions ((addEach additions).run l).1 ((addEach additions).run l).2 := by
  induction additions generalizing l with
  | nil => exact .nil l
  | cons a additions ih =>
    have hcons : (addEach (a :: additions)).run l =
        (((add a).run.run l).1 :: ((addEach additions).run ((add a).run.run l).2).1,
          ((addEach additions).run ((add a).run.run l).2).2) := rfl
    cases hentry : a.entry with
    | ok d =>
      rw [hcons, run_add_of_ok hentry]
      exact .added hentry (ih _)
    | error e =>
      rw [hcons, run_add_of_error hentry]
      exact .refused hentry (ih l)

/-- The position that a call for a matrix returns. -/
def matrixPosition? : Addition × Except Error Nat → Option Nat
  | (.matrix .., .ok position) => some position
  | _ => none

theorem matrixPosition?_ok {a : Addition} {d : Descriptor} (h : a.entry = .ok d) (position : Nat) :
    matrixPosition? (a, .ok position) = a.blob?.map fun _ => position := by
  cases a with
  | scalar _ _ _ | buffer _ _ _ | descriptor _ => rfl
  | matrix address m direction =>
    obtain ⟨flat, hflat, -⟩ := Addition.entry_matrix_eq_ok_iff.mp h
    rw [Addition.blob?_matrix hflat]
    rfl

theorem matrixPosition?_error (a : Addition) (e : Error) : matrixPosition? (a, .error e) = none := by
  cases a <;> rfl

namespace Runs

variable {l l' : ArgumentList} {additions : List Addition} {results : List (Except Error Nat)}

theorem built (h : Runs l additions results l') (hl : l.Built) : l'.Built := by
  induction h with
  | nil l => exact hl
  | @added l l' a d additions results entry rest ih =>
    have hadd : l.add a = .ok (l.extend a d, l.size) := by
      rw [ArgumentList.add_eq, entry]
      rfl
    exact ih (.add hl hadd)
  | refused entry rest ih => exact ih hl

theorem length_eq (h : Runs l additions results l') : results.length = additions.length := by
  induction h with
  | nil l => rfl
  | added entry rest ih | refused entry rest ih => rw [List.length_cons, List.length_cons, ih]

theorem descriptors (h : Runs l additions results l') :
    l'.descriptors = l.descriptors ++ additions.filterMap fun a => a.entry.toOption := by
  induction h with
  | nil l => simp
  | added entry rest ih =>
    rw [ih, List.filterMap_cons, entry, ArgumentList.extend, List.append_assoc]
    rfl
  | refused entry rest ih =>
    rw [ih, List.filterMap_cons, entry]
    rfl

theorem positions (h : Runs l additions results l') :
    results.filterMap Except.toOption =
      List.range' l.size (additions.filterMap fun a => a.entry.toOption).length := by
  induction h with
  | nil l => rfl
  | added entry rest ih =>
    rw [List.filterMap_cons, List.filterMap_cons, entry, ih, ArgumentList.size_extend]
    rfl
  | refused entry rest ih =>
    rw [List.filterMap_cons, List.filterMap_cons, entry, ih]
    rfl

theorem blobs (h : Runs l additions results l') : l.blobs <+: l'.blobs ∧
    l'.blobs.map Prod.fst = l.blobs.map Prod.fst ++ (additions.zip results).filterMap matrixPosition? := by
  induction h with
  | nil l => simp
  | @added l l' a d additions results entry rest ih =>
    refine ⟨(List.prefix_append l.blobs _).trans ih.1, ?_⟩
    rw [ih.2, List.zip_cons_cons, List.filterMap_cons, matrixPosition?_ok entry, ArgumentList.extend]
    cases a.blob? <;> simp
  | refused entry rest ih =>
    refine ⟨ih.1, ?_⟩
    rw [ih.2, List.zip_cons_cons, List.filterMap_cons, matrixPosition?_error]

/-- A matrix that was added has its block in the list. -/
theorem exists_blob (h : Runs l additions results l') {address : Word} {m : Matrix Double}
    {direction : Direction} {position : Nat}
    (hadded : (Addition.matrix address m direction, Except.ok position) ∈ additions.zip results) :
    ∃ flat, Wire.Flat.ofMatrix m = .ok flat ∧ (position, (⟨address, flat⟩ : Blob)) ∈ l'.blobs ∧
      l'.get? position = some ⟨address, UInt64.ofNat m.encodedSize, 64, direction⟩ := by
  induction h with
  | nil l => cases hadded
  | @added l l' a d additions results entry rest ih =>
    rw [List.zip_cons_cons, List.mem_cons] at hadded
    rcases hadded with hfirst | hlater
    · obtain ⟨rfl, hposition⟩ := Prod.mk.inj hfirst
      obtain rfl := Except.ok.inj hposition
      obtain ⟨flat, hflat, rfl⟩ := Addition.entry_matrix_eq_ok_iff.mp entry
      refine ⟨flat, hflat, rest.blobs.1.subset ?_, ?_⟩
      · simp [ArgumentList.extend, Addition.blob?_matrix hflat]
      · rw [ArgumentList.get?, rest.descriptors, ArgumentList.extend]
        simp [ArgumentList.size]
    · exact ih hlater
  | refused entry rest ih =>
    rw [List.zip_cons_cons, List.mem_cons] at hadded
    rcases hadded with hfirst | hlater
    · cases (Prod.mk.inj hfirst).2
    · exact ih hlater

end Runs

end InPlace

/-! ### Lists after calls -/

/-- What is true of a list after some calls on an earlier one, and of what they have returned. -/
structure ArgumentList.Consistent (earlier : ArgumentList) (additions : List Addition)
    (results : List (Except Error Nat)) (l : ArgumentList) : Prop where
  answered : results.length = additions.length
  /-- The arguments that are not refused are appended, in their order. -/
  descriptors : l.descriptors = earlier.descriptors ++ additions.filterMap fun a => a.entry.toOption
  positions : results.filterMap Except.toOption = List.range' earlier.size (l.size - earlier.size)
  aligned : ∀ d ∈ l.descriptors, d.alignment.isPowerOfTwo = true
  /-- There is one block for each matrix that has been added. -/
  blobs : l.blobs.map Prod.fst =
    earlier.blobs.map Prod.fst ++ (additions.zip results).filterMap InPlace.matrixPosition?
  increasing : l.blobs.Pairwise fun b b' => b.1 < b'.1
  listed : ∀ b ∈ l.blobs, ∃ direction, l.get? b.1 =
    some ⟨b.2.address, UInt64.ofNat b.2.flat.block.size, 64, direction⟩
  written : ∀ address m direction position,
    (Addition.matrix address m direction, Except.ok position) ∈ additions.zip results →
      ∃ flat, Wire.Flat.ofMatrix m = .ok flat ∧ (position, ⟨address, flat⟩) ∈ l.blobs ∧
        l.get? position = some ⟨address, UInt64.ofNat m.encodedSize, 64, direction⟩
  read : ∀ b ∈ l.blobs, l.matrixAt b.1 = (Wire.decode b.2.flat.block.bytes).mapError .decode
  notMatrix : ∀ position, position ∉ l.blobs.map Prod.fst →
    (l.matrixAt position).mapError Error.ofMatrixArgument =
      .error (.invalidArgument s!"argument {position} is not a matrix")

/-- A call appends one descriptor and returns the position that it gets there, and with a matrix appends its
block; a call that fails changes nothing. After any calls on a list that a caller can have, the descriptors
and the blocks belong together, and exactly the positions of matrices are read as matrices. -/
theorem calls_keep_consistent :
    (∀ (l : ArgumentList) (a : Addition), (InPlace.add a).run.run l = match a.entry with
      | .ok d => (.ok l.size, l.extend a d)
      | .error e => (.error e, l)) ∧
    ∀ (l : ArgumentList), l.Built → ∀ additions : List Addition,
      l.Consistent additions ((InPlace.addEach additions).run l).1 ((InPlace.addEach additions).run l).2 := by
  refine ⟨fun l a => ?_, fun l hl additions => ?_⟩
  · rw [InPlace.run_add, ArgumentList.add_eq]
    cases a.entry <;> rfl
  · have hruns := InPlace.runs_addEach l additions
    generalize ((InPlace.addEach additions).run l).1 = results at hruns ⊢
    generalize ((InPlace.addEach additions).run l).2 = l' at hruns ⊢
    have hbuilt := hruns.built hl
    have hsize : l'.size - l.size = (additions.filterMap fun a => a.entry.toOption).length := by
      simp [ArgumentList.size, hruns.descriptors]
    refine ⟨hruns.length_eq, hruns.descriptors, ?_, hbuilt.aligned, hruns.blobs.2, hbuilt.blobs_sorted,
      hbuilt.blobs_listed, ?_, ?_, ?_⟩
    · rw [hsize]
      exact hruns.positions
    · intro address m direction position hadded
      exact hruns.exists_blob hadded
    · intro b hb
      exact ArgumentList.matrixAt_eq (hbuilt.lookup_of_mem hb)
    · intro position hnone
      have hlookup : l'.blobs.lookup position = none := List.lookup_eq_none_iff.mpr fun b hb =>
        bne_iff_ne.mpr fun heq => hnone (heq ▸ List.mem_map_of_mem hb)
      rw [ArgumentList.matrixAt, hlookup]
      rfl

/-- A number, a matrix, a descriptor that is refused, and an array. -/
def mixedCalls : List Addition :=
  [.scalar (.word 8 rfl) ⟨4096, List.replicate 8 1⟩ .input, .matrix 8192 Wire.twoRuns .both,
    .descriptor ⟨4096, 16, 12, .input⟩, .buffer (.word 4 rfl) ⟨5000, List.replicate 12 2⟩ .output]

theorem calls_keep_consistent_mixedCalls : ({} : ArgumentList).Built ∧
    ((InPlace.addEach mixedCalls).run {}).1 = [.ok 0, .ok 1,
      .error (.invalidArgument "alignment 12 is not a power of two"), .ok 2] ∧
    ((InPlace.addEach mixedCalls).run {}).2.blobs.map Prod.fst = [1] ∧
    ∃ flat, ((InPlace.addEach mixedCalls).run {}).2.matrixAt 1 =
        (Wire.decode flat.block.bytes).mapError .decode ∧ Wire.Flat.ofMatrix Wire.twoRuns = .ok flat := by
  have hresults : ((InPlace.addEach mixedCalls).run {}).1 = [.ok 0, .ok 1,
      .error (.invalidArgument "alignment 12 is not a power of two"), .ok 2] := by with_unfolding_all rfl
  have hconsistent := calls_keep_consistent.2 {} .empty mixedCalls
  rw [hresults] at hconsistent
  obtain ⟨flat, hflat, hblob, -⟩ := hconsistent.written 8192 Wire.twoRuns .both 1 (by simp [mixedCalls])
  have hread := hconsistent.read (1, ⟨8192, flat⟩) hblob
  exact ⟨.empty, hresults, hconsistent.blobs, flat, hread, hflat⟩

end AccelKrylov
