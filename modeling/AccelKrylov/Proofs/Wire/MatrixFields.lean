import AccelKrylov.Proofs.Wire.Reading

/-! The fields that a reader of matrices takes. They are the fields that a matrix is written as, except
that a flag may be spelled by any word: zero for false, every other one for true. -/

namespace AccelKrylov.Wire

open ByteReader

variable {β : Type}

/-! ### Steps of readers -/

theorem reads_flag (what : String) :
    Reads (flag what) fun fields b => ∃ w, fields = [.scalar w] ∧ b = (w != 0) :=
  (reads_scalar what).map

theorem reads_tagged (result : Except UnknownTag β) :
    Reads (tagged result) fun fields b => fields = [] ∧ result = .ok b := by
  unfold tagged
  cases result with
  | ok b => exact (Reads.pure b).congr fun fields b' => by simp [eq_comm]
  | error tag => exact (Reads.fail _).congr fun fields b' => by simp

theorem reads_if {p : Prop} [Decidable p] {e : DecodeError} {r : Reader β}
    {P : List Field → β → Prop} (h : Reads r P) :
    Reads (if p then ByteReader.fail e else r) fun fields b => ¬ p ∧ P fields b := by
  split
  next hp => exact (Reads.fail e).congr fun _ _ => by simp [hp]
  next hp => exact h.congr fun _ _ => by simp [hp]

theorem reads_numbers (what : String) :
    Reads (readNumbers what) fun fields values => fields = [numbers values] := by
  refine (reads_array what).map.congr fun fields values => ?_
  constructor
  · rintro ⟨ws, rfl, rfl⟩
    simp [numbers, Function.comp_def]
  · rintro rfl
    exact ⟨_, rfl, by simp [Function.comp_def]⟩

theorem reads_compressed (what : String) :
    Reads (readCompressed what) fun fields c => fields = compressedFields c := by
  refine ((reads_array _).bind fun offsets => (reads_array _).bind fun columns =>
    (reads_numbers _).map).congr fun fields c => ?_
  constructor
  · rintro ⟨offsets, _, _, rfl, rfl, columns, _, _, rfl, rfl, values, rfl, rfl⟩
    rfl
  · rintro rfl
    exact ⟨_, _, _, rfl, rfl, _, _, _, rfl, rfl, c.values, rfl, rfl⟩

theorem reads_run : Reads readRun fun fields run => fields = runFields run := by
  refine ((reads_scalar _).bind fun blockSize => (reads_scalar _).bind fun blockRows =>
    (reads_compressed _).map).congr fun fields run => ?_
  constructor
  · rintro ⟨blockSize, _, _, rfl, rfl, blockRows, _, _, rfl, rfl, entries, rfl, rfl⟩
    rfl
  · rintro rfl
    exact ⟨_, _, _, rfl, rfl, _, _, _, rfl, rfl, run.toCompressed, rfl, rfl⟩

theorem reads_runs (n : Nat) :
    Reads (readRuns n) fun fields runs => fields = runs.flatMap runFields ∧ runs.length = n := by
  induction n with
  | zero =>
    refine (Reads.pure _).congr fun fields runs => ?_
    constructor
    · rintro ⟨rfl, rfl⟩
      exact ⟨rfl, rfl⟩
    · rintro ⟨rfl, h⟩
      rw [List.length_eq_zero_iff.mp h]
      exact ⟨rfl, rfl⟩
  | succ n ih =>
    refine (reads_run.bind fun run => ih.map).congr fun fields runs => ?_
    constructor
    · rintro ⟨run, _, _, rfl, rfl, rest, ⟨rfl, rfl⟩, rfl⟩
      exact ⟨rfl, rfl⟩
    · rintro ⟨rfl, h⟩
      cases runs with
      | nil => cases h
      | cons run rest => exact ⟨run, _, _, rfl, rfl, rest, ⟨rfl, by simpa using h⟩, rfl⟩

/-! ### Storage -/

/-- The fields stand for the storage of a matrix with the given header. -/
inductive StorageSpelling (rows base leadingDimension : Word) : List Field → Storage Double → Prop where
  | dense (values : Array Double) :
    StorageSpelling rows base leadingDimension [.scalar leadingDimension, numbers values]
      (.dense leadingDimension values)
  | csr (entries : Compressed Double) (unitDiagonal sorted upper lower shared : Word) :
    StorageSpelling rows base leadingDimension
      ([.scalar base, .scalar unitDiagonal, .scalar sorted, .scalar upper, .scalar lower] ++
        compressedFields entries ++ [.scalar shared])
      (.csr entries ⟨unitDiagonal != 0, sorted != 0, upper != 0, lower != 0, shared != 0⟩)
  | bcsr (runs : List (BlockRows Double)) (shared : Word) (nonempty : runs ≠ [])
    (few : runs.length ≤ max rows.toNat 1) :
    StorageSpelling rows base leadingDimension
      (.scalar (UInt64.ofNat runs.length) :: runs.flatMap runFields ++ [.scalar shared])
      (.bcsr runs (shared != 0))

/-- A number of runs is accepted when there are some, and no more than one for each row. -/
theorem runCount_ok_iff {rows count : Word} {runs : List (BlockRows Double)}
    (h : runs.length = count.toNat) :
    ¬ (count = 0 ∨ max rows 1 < count) ↔ runs ≠ [] ∧ runs.length ≤ max rows.toNat 1 := by
  have hzero : count = 0 ↔ runs = [] := by
    rw [← List.length_eq_zero_iff, h]
    exact UInt64.toNat_inj.symm
  rw [not_or, hzero, UInt64.lt_iff_toNat_lt, Word.toNat_max, h, Nat.not_lt]
  rfl

theorem reads_storage (rows base leadingDimension : Word) (format : StorageFormat) :
    Reads (readStorage rows base leadingDimension format) fun fields s =>
      StorageSpelling rows base leadingDimension fields s ∧ s.format = format := by
  cases format with
  | dense =>
    refine ((reads_scalar _).bind fun lda => reads_if (reads_numbers _).map).congr
      fun fields s => ?_
    constructor
    · rintro ⟨lda, _, _, rfl, rfl, hlda, values, rfl, rfl⟩
      rw [Decidable.not_not.mp hlda]
      exact ⟨.dense values, rfl⟩
    · rintro ⟨hs, hf⟩
      cases hs with
      | dense values => exact ⟨_, _, _, rfl, rfl, not_not_intro rfl, values, rfl, rfl⟩
      | csr => cases hf
      | bcsr => cases hf
  | csr =>
    refine ((reads_scalar _).bind fun own => reads_if <| (reads_flag _).bind fun unitDiagonal =>
      (reads_flag _).bind fun sorted => (reads_flag _).bind fun upper =>
      (reads_flag _).bind fun lower => (reads_compressed _).bind fun entries =>
      (reads_flag _).map).congr fun fields s => ?_
    constructor
    · rintro ⟨own, _, _, rfl, rfl, hown, _, _, _, rfl, ⟨u, rfl, rfl⟩, _, _, _, rfl, ⟨so, rfl, rfl⟩,
        _, _, _, rfl, ⟨up, rfl, rfl⟩, _, _, _, rfl, ⟨l, rfl, rfl⟩, entries, _, _, rfl, rfl, _,
        ⟨sh, rfl, rfl⟩, rfl⟩
      rw [Decidable.not_not.mp hown]
      exact ⟨.csr entries u so up l sh, rfl⟩
    · rintro ⟨hs, hf⟩
      cases hs with
      | csr entries u so up l sh =>
        exact ⟨_, [_], _, rfl, rfl, not_not_intro rfl, _, [_], _, rfl, ⟨u, rfl, rfl⟩,
          _, [_], _, rfl, ⟨so, rfl, rfl⟩, _, [_], _, rfl, ⟨up, rfl, rfl⟩, _, [_], _, rfl,
          ⟨l, rfl, rfl⟩, entries, _, _, rfl, rfl, _, ⟨sh, rfl, rfl⟩, rfl⟩
      | dense => cases hf
      | bcsr => cases hf
  | bcsr =>
    refine ((reads_scalar _).bind fun count => reads_if <| (reads_runs _).bind fun runs =>
      (reads_flag _).map).congr fun fields s => ?_
    constructor
    · rintro ⟨count, _, _, rfl, rfl, hcount, runs, _, _, rfl, ⟨rfl, hl⟩, _, ⟨sh, rfl, rfl⟩, rfl⟩
      obtain ⟨hne, hfew⟩ := (runCount_ok_iff hl).mp hcount
      rw [show count = UInt64.ofNat runs.length by rw [hl, UInt64.ofNat_toNat]]
      exact ⟨.bcsr runs sh hne hfew, rfl⟩
    · rintro ⟨hs, hf⟩
      cases hs with
      | bcsr runs sh hne hfew =>
        have hlt := rows.toNat_lt
        have hl : runs.length = (UInt64.ofNat runs.length).toNat :=
          (UInt64.toNat_ofNat_of_lt' (show runs.length < 2 ^ 64 by omega)).symm
        exact ⟨_, [_], _, rfl, rfl, (runCount_ok_iff hl).mpr ⟨hne, hfew⟩, runs, _, _, rfl,
          ⟨rfl, hl⟩, _, ⟨sh, rfl, rfl⟩, rfl⟩
      | dense => cases hf
      | csr => cases hf

/-! ### Matrices -/

/-- The fields stand for the parts of a matrix. -/
inductive PartsSpelling : List Field → Parts → Prop where
  | intro (p : Parts) (leadingDimension : Word) (rest : List Field)
    (storage : StorageSpelling p.rows p.base leadingDimension rest p.storage) :
    PartsSpelling
      (.scalar p.rows :: .scalar p.cols :: .scalar p.base :: .scalar leadingDimension ::
        .scalar p.storage.format.tag :: .scalar p.kind.tag :: .scalar p.representation.tag :: rest) p

theorem reads_parts : Reads readParts PartsSpelling := by
  refine ((reads_scalar _).bind fun rows => (reads_scalar _).bind fun cols =>
    (reads_scalar _).bind fun base => (reads_scalar _).bind fun leadingDimension =>
    (reads_scalar _).bind fun storageTag => (reads_tagged _).bind fun format =>
    (reads_scalar _).bind fun kindTag => (reads_tagged _).bind fun kind =>
    (reads_scalar _).bind fun representationTag => (reads_tagged _).bind fun representation =>
    (reads_storage rows base leadingDimension format).map).congr fun fields p => ?_
  constructor
  · rintro ⟨rows, _, _, rfl, rfl, cols, _, _, rfl, rfl, base, _, _, rfl, rfl, lead, _, _, rfl, rfl,
      _, _, _, rfl, rfl, format, _, _, rfl, ⟨rfl, hformat⟩, _, _, _, rfl, rfl, kind, _, _, rfl,
      ⟨rfl, hkind⟩, _, _, _, rfl, rfl, representation, _, _, rfl, ⟨rfl, hrepresentation⟩, storage,
      ⟨hstorage, rfl⟩, rfl⟩
    obtain rfl := StorageFormat.ofTag_eq_ok_iff.mp hformat
    obtain rfl := ValueKind.ofTag_eq_ok_iff.mp hkind
    obtain rfl := Representation.ofTag_eq_ok_iff.mp hrepresentation
    exact .intro ⟨rows, cols, base, kind, representation, storage⟩ lead _ hstorage
  · rintro ⟨p, lead, rest, hstorage⟩
    exact ⟨_, [_], _, rfl, rfl, _, [_], _, rfl, rfl, _, [_], _, rfl, rfl, _, [_], _, rfl, rfl,
      _, [_], _, rfl, rfl, _, [], _, rfl, ⟨rfl, StorageFormat.ofTag_eq_ok_iff.mpr rfl⟩,
      _, [_], _, rfl, rfl, _, [], _, rfl, ⟨rfl, ValueKind.ofTag_eq_ok_iff.mpr rfl⟩,
      _, [_], _, rfl, rfl, _, [], _, rfl, ⟨rfl, Representation.ofTag_eq_ok_iff.mpr rfl⟩,
      p.storage, ⟨hstorage, rfl⟩, rfl⟩

theorem toMatrix_eq_ok_iff {p : Parts} {m : Matrix Double} :
    p.toMatrix = .ok m ↔ p = .ofMatrix m := by
  constructor
  · intro h
    unfold Parts.toMatrix at h
    cases hm : Matrix.ofStorage p.rows p.cols p.base p.kind p.storage with
    | error fault => rw [hm] at h; cases h
    | ok m' =>
      rw [hm] at h
      cases h
      obtain ⟨hr, hc, hb, hk, -, hs⟩ := Matrix.ofStorage_eq_ok hm
      simp only [Parts.ofMatrix, Matrix.withRepresentation, hr, hc, hb, hk, hs]
  · rintro rfl
    change (Matrix.ofStorage m.rows m.cols m.base m.kind m.storage).map _ = _
    rw [Matrix.ofStorage_storage]
    rfl

theorem reads_matrix : Reads readMatrix fun fields m => PartsSpelling fields (.ofMatrix m) := by
  unfold readMatrix
  refine (reads_parts.bind (Q := fun p fields m => fields = [] ∧ p = .ofMatrix m) fun p => ?_).congr
    fun fields m => ?_
  · cases h : p.toMatrix with
    | ok m =>
      refine (Reads.pure m).congr fun fields m' => ?_
      rw [← toMatrix_eq_ok_iff, h, Except.ok.injEq, eq_comm (a := m)]
    | error fault =>
      refine (Reads.fail _).congr fun fields m' => ?_
      simp [← toMatrix_eq_ok_iff, h]
  constructor
  · rintro ⟨p, xs, _, rfl, hp, rfl, rfl⟩
    simpa using hp
  · intro h
    exact ⟨_, fields, [], by simp, h, rfl, rfl⟩

theorem decodeWithSize_eq_ok_iff {bytes : List UInt8} {m : Matrix Double} {last : Nat} :
    decodeWithSize bytes = .ok (m, last) ↔
      ∃ fields, PartsSpelling fields (.ofMatrix m) ∧ Spells bytes 0 fields ∧
        last = size fields := by
  unfold decodeWithSize
  rw [reads_matrix]
  simp [stop, size, layout]

end AccelKrylov.Wire
