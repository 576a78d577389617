import Mathlib.Algebra.BigOperators.Ring.Finset
import Mathlib.Algebra.Order.BigOperators.Ring.Finset
import Mathlib.Analysis.Real.Sqrt
import AccelKrylov.Numeric

/-! Vectors entry by entry, in exact arithmetic. -/

namespace AccelKrylov

/-- Numbers of an ordered field that is computed in exactly, with square roots. -/
class ExactArithmetic (α : Type) [Field α] [LinearOrder α] [Numeric α] : Prop where
  le_iff (a b : α) : Numeric.le a b = true ↔ a ≤ b
  same_iff (a b : α) : Numeric.same a b = true ↔ a = b
  isFinite (a : α) : Numeric.isFinite a = true
  sqrt_nonneg (a : α) : 0 ≤ Numeric.sqrt a
  sqrt_mul_sqrt {a : α} (h : 0 ≤ a) : Numeric.sqrt a * Numeric.sqrt a = a

noncomputable instance : Numeric ℝ where
  sqrt := Real.sqrt
  le a b := decide (a ≤ b)
  same a b := decide (a = b)
  isFinite _ := true

instance : ExactArithmetic ℝ where
  le_iff _ _ := decide_eq_true_iff
  same_iff _ _ := decide_eq_true_iff
  isFinite _ := rfl
  sqrt_nonneg := Real.sqrt_nonneg
  sqrt_mul_sqrt := Real.mul_self_sqrt

namespace Vec

variable {α : Type}

/-! ### Entries -/

theorem ext [Zero α] {a b : Array α} (hsize : a.size = b.size)
    (h : ∀ i < a.size, a.getD i 0 = b.getD i 0) : a = b := by
  refine Array.ext hsize fun i hi hi' => ?_
  have hentry := h i hi
  rwa [Array.getD_eq_getD_getElem?, Array.getD_eq_getD_getElem?, Array.getElem?_eq_getElem hi,
    Array.getElem?_eq_getElem hi'] at hentry

/-- The entries of a vector, its length included. -/
theorem getElem?_eq_iff [Zero α] {x : Array α} {n : Nat} {f : Nat → α} :
    (∀ i, x[i]? = if i < n then some (f i) else none) ↔ x.size = n ∧ ∀ i < n, x.getD i 0 = f i := by
  constructor
  · intro h
    refine ⟨Nat.le_antisymm ?_ (Nat.le_of_not_lt fun hlt => ?_), fun i hi => ?_⟩
    · exact Array.getElem?_eq_none_iff.mp ((h n).trans (if_neg (Nat.lt_irrefl n)))
    · have hnone := (h x.size).symm.trans (Array.getElem?_eq_none (Nat.le_refl x.size))
      rw [if_pos hlt] at hnone
      cases hnone
    · rw [Array.getD_eq_getD_getElem?, h, if_pos hi, Option.getD_some]
  · rintro ⟨rfl, h⟩ i
    split
    next hi =>
      have hentry := h i hi
      rw [Array.getD_eq_getD_getElem?, Array.getElem?_eq_getElem hi, Option.getD_some] at hentry
      rw [Array.getElem?_eq_getElem hi, hentry]
    next hi => exact Array.getElem?_eq_none (Nat.le_of_not_lt hi)

@[simp] theorem size_zeros [Zero α] (n : Nat) : (zeros n : Array α).size = n := Array.size_replicate

@[simp] theorem getD_zeros [Zero α] (n i : Nat) : (zeros n : Array α).getD i 0 = 0 := by
  rw [zeros, Array.getD_eq_getD_getElem?, Array.getElem?_replicate]
  split <;> rfl

@[simp] theorem size_addScaled [Add α] [Mul α] (s : α) (x y : Array α) :
    (addScaled s x y).size = y.size := Array.size_mapIdx

@[simp] theorem size_scaleAdd [Add α] [Mul α] (r : Array α) (s : α) (p : Array α) :
    (scaleAdd r s p).size = p.size := Array.size_mapIdx

section
variable [Semiring α] {x y : Array α}

theorem getD_of_size_le {i : Nat} (h : x.size ≤ i) : x.getD i 0 = 0 := by
  rw [Array.getD_eq_getD_getElem?, Array.getElem?_eq_none h, Option.getD_none]

theorem getD_addScaled (h : x.size = y.size) (s : α) (i : Nat) :
    (addScaled s x y).getD i 0 = y.getD i 0 + s * x.getD i 0 := by
  by_cases hi : i < y.size
  · have hx : x[i]? = some x[i] := Array.getElem?_eq_getElem (h ▸ hi)
    simp only [addScaled, Array.getD_eq_getD_getElem?, Array.getElem?_mapIdx, hx,
      Array.getElem?_eq_getElem hi, Option.map_some, Option.getD_some]
  · rw [getD_of_size_le (by rw [size_addScaled]; omega), getD_of_size_le (Nat.le_of_not_lt hi),
      getD_of_size_le (show x.size ≤ i by omega), mul_zero, add_zero]

theorem getD_scaleAdd (h : x.size = y.size) (s : α) (i : Nat) :
    (scaleAdd x s y).getD i 0 = x.getD i 0 + s * y.getD i 0 := by
  by_cases hi : i < y.size
  · have hx : x[i]? = some x[i] := Array.getElem?_eq_getElem (h ▸ hi)
    simp only [scaleAdd, Array.getD_eq_getD_getElem?, Array.getElem?_mapIdx, hx,
      Array.getElem?_eq_getElem hi, Option.map_some, Option.getD_some]
  · rw [getD_of_size_le (by rw [size_scaleAdd]; omega), getD_of_size_le (Nat.le_of_not_lt hi),
      getD_of_size_le (show x.size ≤ i by omega), mul_zero, add_zero]

theorem foldl_zipWith_mul {xs ys : List α} (h : xs.length = ys.length) (init : α) :
    (List.zipWith (· * ·) xs ys).foldl (· + ·) init =
      init + ∑ i ∈ Finset.range xs.length, xs.getD i 0 * ys.getD i 0 := by
  induction xs generalizing ys init with
  | nil => simp
  | cons x xs ih =>
    cases ys with
    | nil => cases h
    | cons y ys =>
      rw [List.zipWith_cons_cons, List.foldl_cons, ih (Nat.succ.inj h), List.length_cons,
        Finset.sum_range_succ', add_assoc, add_comm (x * y)]
      rfl

/-- Adding up the products of entries from the left is their sum. -/
theorem dot_eq_sum (h : x.size = y.size) :
    dot x y = ∑ i ∈ Finset.range x.size, x.getD i 0 * y.getD i 0 := by
  have hsum := foldl_zipWith_mul (show x.toList.length = y.toList.length from h) 0
  rw [zero_add, ← Array.toList_zipWith, Array.foldl_toList] at hsum
  rw [dot, hsum]
  refine Finset.sum_congr rfl fun i _ => ?_
  simp only [Array.getD_eq_getD_getElem?, List.getD_eq_getElem?_getD, Array.getElem?_toList]

end

theorem getD_add [Semiring α] {x y : Array α} (h : x.size = y.size) (i : Nat) :
    (Array.zipWith (· + ·) x y).getD i 0 = x.getD i 0 + y.getD i 0 := by
  by_cases hi : i < x.size
  · have hy : y[i]? = some y[i] := Array.getElem?_eq_getElem (h ▸ hi)
    simp only [Array.getD_eq_getD_getElem?, Array.getElem?_zipWith, hy,
      Array.getElem?_eq_getElem hi, Option.getD_some]
  · rw [getD_of_size_le (by rw [Array.size_zipWith]; omega), getD_of_size_le (Nat.le_of_not_lt hi),
      getD_of_size_le (show y.size ≤ i by omega), add_zero]

theorem getD_sub [Ring α] {x y : Array α} (h : x.size = y.size) (i : Nat) :
    (Array.zipWith (· - ·) x y).getD i 0 = x.getD i 0 - y.getD i 0 := by
  by_cases hi : i < x.size
  · have hy : y[i]? = some y[i] := Array.getElem?_eq_getElem (h ▸ hi)
    simp only [Array.getD_eq_getD_getElem?, Array.getElem?_zipWith, hy,
      Array.getElem?_eq_getElem hi, Option.getD_some]
  · rw [getD_of_size_le (by rw [Array.size_zipWith]; omega), getD_of_size_le (Nat.le_of_not_lt hi),
      getD_of_size_le (show y.size ≤ i by omega), sub_zero]

/-! ### Lengths -/

section
variable [Field α] [LinearOrder α] [IsStrictOrderedRing α]

theorem dot_self_nonneg (x : Array α) : 0 ≤ dot x x := by
  rw [dot_eq_sum rfl]
  exact Finset.sum_nonneg fun i _ => mul_self_nonneg _

theorem dot_self_eq_zero_iff (x : Array α) : dot x x = 0 ↔ x = zeros x.size := by
  rw [dot_eq_sum rfl, Finset.sum_mul_self_eq_zero_iff]
  constructor
  · intro h
    refine ext (size_zeros _).symm fun i hi => ?_
    rw [h i (Finset.mem_range.mpr hi), getD_zeros]
  · intro h i _
    rw [h, getD_zeros]

variable [Numeric α] [ExactArithmetic α]

theorem norm_mul_norm (x : Array α) : norm x * norm x = dot x x :=
  ExactArithmetic.sqrt_mul_sqrt (dot_self_nonneg x)

/-- Only the zero vector has no length. -/
theorem norm_eq_zero_iff (x : Array α) : norm x = 0 ↔ x = zeros x.size := by
  rw [← dot_self_eq_zero_iff, ← norm_mul_norm, mul_self_eq_zero]

end

end Vec

end AccelKrylov
