import AccelKrylov.Solver
import AccelKrylov.Proofs.Double.Sizes
import AccelKrylov.Proofs.Solver.Paths

/-! What a solution is worth in numbers of 64 bits, where lengths and steps can be too small or too large for
them. -/

namespace AccelKrylov

open Float.Model.UnpackedFloat

/-! ### Steps -/

/-- Steps that are small enough to be absorbed lead to a finite vector, however many they are. -/
theorem Vec.within_travel {x : Array Double} (hx : ∀ ξ ∈ x, ξ.Within 1023) (path : List (Double × Array Double))
    (hpath : ∀ step ∈ path, ∀ π ∈ step.2, (step.1 * π).Within 970) : ∀ ξ ∈ travel x path, ξ.Within 1023 := by
  induction path generalizing x with
  | nil => exact hx
  | cons step path ih =>
    obtain ⟨hstep, hrest⟩ := List.forall_mem_cons.mp hpath
    refine ih (fun ξ hξ => ?_) hrest
    obtain ⟨i, hi, rfl⟩ := Array.mem_iff_getElem.mp hξ
    simp only [addScaled, Array.getElem_mapIdx]
    split
    next π hπ => exact (hx _ (Array.getElem_mem _)).add (hstep π (Array.mem_of_getElem? hπ))
    next => exact hx _ (Array.getElem_mem _)

/-- A step that is not finite is not made good by later ones. -/
theorem Vec.finite_steps_of_travel {x : Array Double} {path : List (Double × Array Double)}
    (hsizes : ∀ step ∈ path, step.2.size = x.size) (h : ∀ ξ ∈ travel x path, Numeric.isFinite ξ = true) :
    (∀ ξ ∈ x, Numeric.isFinite ξ = true) ∧
      ∀ step ∈ path, ∀ π ∈ step.2, Numeric.isFinite (step.1 * π) = true := by
  induction path generalizing x with
  | nil => exact ⟨h, nofun⟩
  | cons step path ih =>
    obtain ⟨hsize, hrest⟩ := List.forall_mem_cons.mp hsizes
    obtain ⟨hnext, hlater⟩ := ih (by simpa using hrest) h
    have hsum {i : ℕ} (hi : i < x.size) : Numeric.isFinite (x[i] + step.1 * step.2[i]) = true := by
      refine hnext _ (Array.mem_iff_getElem.mpr ⟨i, by simpa using hi, ?_⟩)
      simp [addScaled, hsize, hi]
    refine ⟨fun ξ hξ => ?_, List.forall_mem_cons.mpr ⟨fun π hπ => ?_, hlater⟩⟩
    · obtain ⟨i, hi, rfl⟩ := Array.mem_iff_getElem.mp hξ
      exact (Double.isFinite_of_add (hsum hi)).1
    · obtain ⟨i, hi, rfl⟩ := Array.mem_iff_getElem.mp hπ
      exact (Double.isFinite_of_add (hsum (hsize ▸ hi))).2

/-! ### Solutions -/

/-- What is true of a solution, whatever the sizes of the numbers that it comes from.

That nothing needs to be done is answered exactly if the squares of all entries of `b` round to zero, as those of
zeros do, but not only those. The residual is finite if the threshold is with which it has been compared, and that
is finite for entries of up to `2 ^ 485` and a tolerance of up to `2 ^ 511`. The vector `x` is finite if no step
has an entry above `2 ^ 970`, however many steps there are, and not finite if a step is not. -/
structure Solution.InRange (b : Array Double) (tolerance : Double) (path : List (Double × Array Double))
    (s : Solution Double) : Prop where
  iterations : s.iterations.toNat = path.length
  unmoved : s.iterations = 0 ↔ ∀ β ∈ b, β.Vanishes
  zero : s.iterations = 0 → s = .zero b.size
  residual : Numeric.isFinite (tolerance * Vec.norm b) = true → Numeric.isFinite s.residual = true
  residual_of_within : (∀ β ∈ b, β.Within 485) → tolerance.Within 511 → Numeric.isFinite s.residual = true
  x : (∀ step ∈ path, ∀ π ∈ step.2, (step.1 * π).Within 970) → ∀ ξ ∈ s.x, ξ.Within 1023
  steps : (∀ ξ ∈ s.x, Numeric.isFinite ξ = true) →
    ∀ step ∈ path, ∀ π ∈ step.2, Numeric.isFinite (step.1 * π) = true

namespace Solution.FoundBy

variable {b : Array Double} {tolerance : Double} {path : List (Double × Array Double)} {s : Solution Double}

theorem iterations_eq_zero_iff (h : s.FoundBy b tolerance path) : s.iterations = 0 ↔ path = [] := by
  rw [← List.length_eq_zero_iff, ← h.iterations]
  exact UInt64.toNat_inj.symm

theorem isFinite_residual (h : s.FoundBy b tolerance path)
    (hthreshold : Numeric.isFinite (tolerance * Vec.norm b) = true) : Numeric.isFinite s.residual = true := by
  by_cases hpath : path = []
  · rw [h.zero hpath]
    exact (Double.within_zero (j := 0)).isFinite
  · obtain ⟨⟨r, hr⟩, hle⟩ := h.accepted hpath
    rw [hr] at hle ⊢
    exact (Vec.norm_unsigned r).isFinite_of_le hthreshold hle

theorem inRange (h : s.FoundBy b tolerance path) : s.InRange b tolerance path where
  iterations := h.iterations
  unmoved := by rw [h.iterations_eq_zero_iff, h.unmoved, Vec.same_norm_zero_iff]
  zero hzero := h.zero (h.iterations_eq_zero_iff.mp hzero)
  residual := h.isFinite_residual
  residual_of_within hb ht :=
    have hthreshold : (tolerance * Vec.norm b).Within 1023 :=
      ht.mul (Vec.within_norm hb) (by decide) (by decide) (by decide)
    h.isFinite_residual hthreshold.isFinite
  x hpath := by
    rw [h.x]
    exact Vec.within_travel (fun ξ hξ => (Array.mem_replicate.mp hξ).2 ▸ Double.within_zero) path hpath
  steps hx := (Vec.finite_steps_of_travel (by simpa using h.sizes) (h.x ▸ hx)).2

end Solution.FoundBy

/-- Whatever the products come to, so for every matrix, storage and split of the rows, and for every right-hand
side, tolerance and limit, a solution by either method is one in the sense above. -/
theorem solutions_inRange {σ : Type} (op : Operator σ Double) (b : Array Double) (tolerance : Double)
    (limit : Word) (w : σ) (s : Solution Double) :
    ((ConjugateGradient.solve op b tolerance limit w).1 = .ok s →
        s.InRange b tolerance (ConjugateGradient.path op b tolerance limit w)) ∧
      ((BiconjugateGradient.solve op b tolerance limit w).1 = .ok s →
        s.InRange b tolerance (BiconjugateGradient.path op b tolerance limit w)) :=
  ⟨fun h => (ConjugateGradient.foundBy_path h).inRange, fun h => (BiconjugateGradient.foundBy_path h).inRange⟩

/-! ### One equation in one unknown -/

namespace ScalarSystem

def matrix (a : Double) : Matrix Double where
  rows := 1
  cols := 1
  base := 0
  kind := .real
  representation := .general
  storage := .dense 1 #[a]
  fits := by cbv

def tolerance : Double := (Algorithm.standard .conjugateGradient).tolerance

/-- With one worker. -/
def operator (a : Double) : Operator (Pool RowRange) Double := (RowSplit.ofRows 1 .inTurn).operator (matrix a)

/-- A solution by both methods. -/
def Solves (a β : Double) (s : Solution Double) : Prop :=
  (ConjugateGradient.solve (operator a) #[β] tolerance 10 (.ofWorkers 1)).1 = .ok s ∧
    (BiconjugateGradient.solve (operator a) #[β] tolerance 10 (.ofWorkers 1)).1 = .ok s

instance (a β : Double) (s : Solution Double) : Decidable (Solves a β s) := instDecidableAnd

def half : Double := ⟨0x3fe0000000000000⟩
def two : Double := ⟨0x4000000000000000⟩
def four : Double := ⟨0x4010000000000000⟩

theorem solves_four : Solves two four ⟨#[two], 1, 0⟩ := by decide +kernel

theorem paths_four :
    ConjugateGradient.path (operator two) #[four] tolerance 10 (.ofWorkers 1) = [(half, #[four])] ∧
      BiconjugateGradient.path (operator two) #[four] tolerance 10 (.ofWorkers 1) = [(half, #[four])] := by
  decide +kernel

theorem within_half_mul_four : (half * four).Within 970 := by
  refine ⟨2, by decide +kernel, ?_⟩
  rw [abs_of_pos two_pos]
  exact (zpow_one (2 : ℚ)).symm.trans_le (zpow_le_zpow_right₀ one_le_two (by decide))

end ScalarSystem

open ScalarSystem in
/-- One step by half of the right-hand side, which is small enough, so that the solution is finite. -/
theorem solutions_inRange_four : Solves two four ⟨#[two], 1, 0⟩ ∧
    (⟨#[two], 1, 0⟩ : Solution Double).InRange #[four] tolerance
        (ConjugateGradient.path (operator two) #[four] tolerance 10 (.ofWorkers 1)) ∧
      (⟨#[two], 1, 0⟩ : Solution Double).InRange #[four] tolerance
        (BiconjugateGradient.path (operator two) #[four] tolerance 10 (.ofWorkers 1)) ∧
      ∀ ξ ∈ #[two], ξ.Within 1023 := by
  obtain ⟨hconjugate, hbiconjugate⟩ :=
    solutions_inRange (operator two) #[four] tolerance 10 (.ofWorkers 1) ⟨#[two], 1, 0⟩
  have hinRange := hconjugate solves_four.1
  refine ⟨solves_four, hinRange, hbiconjugate solves_four.2, hinRange.x ?_⟩
  rw [paths_four.1]
  simpa using within_half_mul_four

/-- A solution whose numbers are all finite, and which says that nothing needed to be done only of a right-hand
side of zeros. -/
def Solution.Honest (b : Array Double) (s : Solution Double) : Prop :=
  (∀ ξ ∈ s.x, Numeric.isFinite ξ = true) ∧ Numeric.isFinite s.residual = true ∧
    (s.iterations = 0 → ∀ β ∈ b, Numeric.same β 0 = true)

instance (b : Array Double) (s : Solution Double) : Decidable (s.Honest b) := instDecidableAnd

namespace ScalarSystem

/-- `2 ^ -1000`. -/
def tiny : Double := ⟨0x0170000000000000⟩

/-- `2 ^ -600`. -/
def small : Double := ⟨0x1a70000000000000⟩

/-- `2 ^ 300`. -/
def large : Double := ⟨0x52b0000000000000⟩

/-- `2 ^ 600`. -/
def huge : Double := ⟨0x6570000000000000⟩

def infinite : Double := ⟨0x7ff0000000000000⟩

theorem solves_small : Solves 1 small ⟨#[0], 0, 0⟩ := by decide +kernel

theorem solves_large : Solves tiny large ⟨#[infinite], 1, 0⟩ := by decide +kernel

theorem solves_huge : Solves tiny huge ⟨#[infinite], 1, infinite⟩ := by decide +kernel

end ScalarSystem

open ScalarSystem in
/-- Not all solutions for finite numbers are honest: the length of a right-hand side can be too small to be told
from zero, the entries of a solution can be too large, and so can the length with which the residual is
compared. -/
theorem solutions_not_honest :
    (∀ a ∈ [1, tiny], (matrix a).isSquare = true ∧ (matrix a).kind = .real) ∧
      (∀ β ∈ [small, large, huge], Numeric.isFinite β = true) ∧
      Numeric.isFinite tolerance = true ∧ Numeric.le tolerance 0 = false ∧
      (Solves 1 small ⟨#[0], 0, 0⟩ ∧ ¬(⟨#[0], 0, 0⟩ : Solution Double).Honest #[small]) ∧
      (Solves tiny large ⟨#[infinite], 1, 0⟩ ∧ ¬(⟨#[infinite], 1, 0⟩ : Solution Double).Honest #[large]) ∧
      (Solves tiny huge ⟨#[infinite], 1, infinite⟩ ∧
        ¬(⟨#[infinite], 1, infinite⟩ : Solution Double).Honest #[huge]) := by
  refine ⟨by decide, by decide +kernel, by decide +kernel, by decide +kernel, ⟨solves_small, ?_⟩,
    ⟨solves_large, ?_⟩, ⟨solves_huge, ?_⟩⟩
  all_goals decide +kernel

end AccelKrylov
