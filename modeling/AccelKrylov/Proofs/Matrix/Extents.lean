import AccelKrylov.Proofs.Matrix.Assembly
import AccelKrylov.Error

/-! Matrices of any dimensions that words can name. No way to make a matrix runs into a trap, and dimensions
that ask for more of anything than words can count are reported as such; only the table of offsets for elements
in any order is asked for before the number of rows is checked. From `2 ^ 60 - 1` rows on there is no room for it,
and with the largest number of rows its size is no word. -/

namespace AccelKrylov

open Guarded

variable {α : Type} {rows cols base : Word} {kind : ValueKind}

/-! ### Extents -/

/-- How many entries the last offset stands for. -/
def Compressed.implied (c : Compressed α) (outer base : Word) : Nat :=
  (c.offsets.getD outer.toNat base).toNat - base.toNat

/-- Offsets and numbers of compressed entries can be counted in words. -/
structure Compressed.Countable (c : Compressed α) (outer base : Word) (stride : Nat) : Prop where
  offsets : outer.toNat + 1 < 2 ^ 64
  values : c.implied outer base * stride < 2 ^ 64

/-- All that arrays of their dimensions have to have can be counted in words. -/
def Storage.Countable (rows base : Word) (kind : ValueKind) : Storage α → Prop
  | .dense lda _ => rows.toNat * lda.toNat * kind.width.toNat < 2 ^ 64
  | .csr entries _ => entries.Countable rows base kind.width.toNat
  | .bcsr runs _ => (∀ b ∈ runs, b.blockValues kind < 2 ^ 64 ∧ b.height < 2 ^ 64 ∧
      b.Countable b.blockRows base (b.blockValues kind)) ∧ BlockRows.coverage runs < 2 ^ 64

theorem Compressed.Fits.countable {c : Compressed α} {outer : Word} {limit stride : Nat}
    (h : c.Fits outer base limit stride) : c.Countable outer base stride where
  offsets := h.outer_lt
  values := by
    rw [implied, ← h.size_columns, ← h.size_values]
    exact h.values_lt

theorem BlockRows.height_le_coverage {runs : List (BlockRows α)} {b : BlockRows α} (h : b ∈ runs) :
    b.height ≤ coverage runs := by
  obtain ⟨n, hn⟩ := List.mem_iff_getElem?.mp h
  have := coverage_take hn
  omega

theorem Storage.Fits.countable {s : Storage α} (h : s.Fits rows cols base kind) :
    s.Countable rows base kind := by
  cases s with
  | dense lda values =>
    obtain ⟨-, -, hlt, hsize⟩ := h
    rwa [hsize] at hlt
  | csr entries flags => exact h.2.countable
  | bcsr runs shared =>
    obtain ⟨-, -, hruns, hcoverage⟩ := h
    have hlt : BlockRows.coverage runs < 2 ^ 64 := hcoverage ▸ rows.toNat_lt
    exact ⟨fun b hb => ⟨(hruns b hb).blockValues_lt,
      Nat.lt_of_le_of_lt (BlockRows.height_le_coverage hb) hlt, (hruns b hb).entries.countable⟩, hlt⟩

namespace Matrix

theorem ofStorage_of_not_countable {s : Storage α} (h : ¬ s.Countable rows base kind) :
    ∃ fault, ofStorage rows cols base kind s = .error fault := by
  cases hcheck : s.check rows cols base kind with
  | ok => exact absurd (Storage.check_eq_ok_iff.mp hcheck).countable h
  | error fault => exact ⟨fault, ofStorage_eq_error hcheck⟩

/-! ### Ways to make a matrix -/

open Triplet

/-- Dimensions that ask for too much are reported, and no way to make a matrix does arithmetic that leaves the
words or looks up what is not there, whatever the dimensions and arrays are. Elements in any order are the one
exception: with the largest number of rows the size of their table of offsets is no word. From `2 ^ 60 - 1` rows
on it is one, but no memory has room for the table. -/
theorem made_in_words (rows cols base : Word) (kind : ValueKind) (s : Storage α) (ts : List (Triplet α))
    (hlength : ts.length < 2 ^ 64) :
    guardedOfStorage rows cols base kind s = lift (ofStorage rows cols base kind s) ∧
    (¬ s.Countable rows base kind → ∃ text,
      (ofStorage rows cols base kind s).mapError Error.ofShape = .error (.invalidDimensions text)) ∧
    (rows.toNat + 1 < 2 ^ 60 → ∃ outcome, ofTriplets rows cols ts = lift outcome) ∧
    (2 ^ 60 ≤ rows.toNat + 1 → rows.toNat + 1 < 2 ^ 64 → ofTriplets rows cols ts = trap .capacity) ∧
    (2 ^ 64 ≤ rows.toNat + 1 → ofTriplets rows cols ts = trap .overflow) := by
  refine ⟨guardedOfStorage_eq .., fun h => ?_, fun htable => ?_, fun hmany hword => ?_, fun hmost => ?_⟩
  · obtain ⟨fault, hfault⟩ := ofStorage_of_not_countable h
    rw [hfault]
    exact ⟨fault.message, rfl⟩
  · have hsorted : (ts.mergeSort Triplet.before).length < 2 ^ 64 := by rwa [List.length_mergeSort]
    by_cases hall : ∀ t ∈ ts.mergeSort Triplet.before, t.InRange rows cols
    · exact ⟨_, ofSorted_eq_pure (by omega) hsorted hall htable⟩
    · exact ⟨_, ofSorted_eq_error htable hsorted (sorted_mergeSort ts) hall⟩
  · rw [ofTriplets, ofSorted_eq_trap hmany, if_pos hword]
  · rw [ofTriplets, ofSorted_eq_trap (by omega), if_neg (Nat.not_lt.mpr hmost)]

/-- More rows of two numbers than words can count, and rows for three elements. -/
theorem made_in_words_oversized :
    (∃ text, (dense 9223372036854775808 2 2 .real #[1, 2, (3 : Int)]).mapError Error.ofShape =
      .error (.invalidDimensions text)) ∧
    repeatedElement.length < 2 ^ 64 ∧ ∃ outcome, ofTriplets 3 2 repeatedElement = lift outcome := by
  have hlength : repeatedElement.length < 2 ^ 64 := by decide
  obtain ⟨-, hreported, -⟩ := made_in_words 9223372036854775808 2 0 .real (.dense 2 #[1, 2, (3 : Int)])
    repeatedElement hlength
  obtain ⟨-, -, hassembled, -⟩ := made_in_words 3 2 0 .real (.dense 2 #[1, 2, (3 : Int)])
    repeatedElement hlength
  exact ⟨hreported (by unfold Storage.Countable; decide), hlength, hassembled (by decide)⟩

/-- A matrix of no elements with the largest number of rows is not reported as too large. -/
theorem ofTriplets_largest :
    ofTriplets 18446744073709551615 1 ([] : List (Triplet Int)) = trap .overflow :=
  ofSorted_eq_trap (by decide)

end Matrix

end AccelKrylov
