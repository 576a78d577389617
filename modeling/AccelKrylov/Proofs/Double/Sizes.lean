import AccelKrylov.Proofs.Double.Arithmetic

/-! Sizes of numbers of 64 bits, and of vectors of them. Only where all squares of its entries round to zero has a
vector no length; and entries that are not too large have a length that is not too large, however many they
are. -/

namespace AccelKrylov

open Float.Model (UnpackedFloat)
open Float.Model.UnpackedFloat

namespace Double

open Rounding

/-- The number that the bits stand for. -/
def number (d : Double) : UnpackedFloat := unpack .binary64 d.bits.toBitVec

/-- The value of what is a finite number. -/
def value (d : Double) : Option ℚ := Rounding.value d.number

variable (a b : Double)

theorem packable_number : Packable a.number := packable_unpack _

/-! ### The operations on bits -/

theorem unpack_toFloat : a.toFloat.toModel.unpack = a.number := settle_of_packable a.packable_number

theorem number_zero : (0 : Double).number = .zero .positive := rfl

theorem number_add : (a + b).number = settle (add .binary64 a.number b.number) := by
  rw [← unpack_toFloat a, ← unpack_toFloat b]
  rfl

theorem number_mul : (a * b).number = settle (mul .binary64 a.number b.number) := by
  rw [← unpack_toFloat a, ← unpack_toFloat b]
  rfl

theorem number_sqrt : (Numeric.sqrt a).number = settle (sqrt .binary64 a.number) := by
  rw [← unpack_toFloat a]
  rfl

theorem isFinite_eq : Numeric.isFinite a = a.number.isFinite := by
  rw [← unpack_toFloat a]
  rfl

theorem le_eq : Numeric.le a b = a.number.le b.number := by
  rw [← unpack_toFloat a, ← unpack_toFloat b]
  exact Bool.decide_eq_true.trans Bool.decide_eq_true

theorem same_eq : Numeric.same a b = a.number.beq b.number := by
  rw [← unpack_toFloat a, ← unpack_toFloat b]
  rfl

variable {a b} {i j : ℤ}

/-! ### Sizes -/

/-- A finite number of magnitude `2 ^ j` at most. -/
def Within (d : Double) (j : ℤ) : Prop := ∃ x, d.value = some x ∧ |x| ≤ 2 ^ j

/-- A finite number whose square is at most half of the least number, so that it rounds to zero. -/
def Vanishes (d : Double) : Prop := ∃ x, d.value = some x ∧ x ^ 2 ≤ 2 ^ (-1075 : ℤ)

theorem isFinite_iff : Numeric.isFinite a = true ↔ ∃ x, a.value = some x := by
  rw [isFinite_eq]
  exact Rounding.isFinite_iff

theorem Within.isFinite (h : a.Within j) : Numeric.isFinite a = true := isFinite_iff.mpr (h.imp fun _ hx => hx.1)

theorem within_zero : (0 : Double).Within j := Rounding.within_zero

theorem Within.mul {k : ℤ} (ha : a.Within i) (hb : b.Within j) (hk : i + j = k) (hleast : -1074 ≤ k)
    (hlarge : k ≤ 1023) : (a * b).Within k := by
  subst hk
  have h := Rounding.Within.mul a.packable_number b.packable_number ha hb hleast hlarge
  rwa [← number_mul] at h

/-- Adding what is no more than half of the distance between numbers of size `2 ^ 1023` never leads above
`2 ^ 1023`, however often it is done. -/
theorem Within.add (ha : a.Within 1023) (hb : b.Within 970) : (a + b).Within 1023 := by
  have h := Rounding.Within.add a.packable_number b.packable_number ha hb
  rwa [← number_add] at h

/-- A sum is not finite unless both numbers are. -/
theorem isFinite_of_add (h : Numeric.isFinite (a + b) = true) :
    Numeric.isFinite a = true ∧ Numeric.isFinite b = true := by
  rw [isFinite_eq, number_add] at h
  rw [isFinite_eq, isFinite_eq]
  exact Rounding.isFinite_of_add h

/-! ### Squares and their sums -/

/-- What has no minus sign. -/
def Unsigned (d : Double) : Prop := Rounding.Unsigned d.number

theorem square_unsigned (a : Double) : (a * a).Unsigned ∧ ((a * a).number = .zero .positive ↔ a.Vanishes) := by
  rw [Unsigned, number_mul]
  exact Rounding.square_unsigned a.packable_number

theorem Unsigned.add (ha : a.Unsigned) (hb : b.Unsigned) : (a + b).Unsigned ∧
    ((a + b).number = .zero .positive ↔ a.number = .zero .positive ∧ b.number = .zero .positive) := by
  rw [Unsigned, number_add]
  exact add_unsigned a.packable_number b.packable_number ha hb

theorem Unsigned.sqrt (ha : a.Unsigned) : (Numeric.sqrt a).Unsigned ∧
    ((Numeric.sqrt a).number = .zero .positive ↔ a.number = .zero .positive) := by
  rw [Unsigned, number_sqrt]
  exact sqrt_unsigned a.packable_number ha

theorem Within.sqrt (h : a.Within j) (ha : a.Unsigned) : (Numeric.sqrt a).Within 512 := by
  have h := Rounding.Within.sqrt a.packable_number ha h
  rwa [← number_sqrt] at h

theorem Unsigned.same_zero_iff (ha : a.Unsigned) : Numeric.same a 0 = true ↔ a.number = .zero .positive := by
  rw [same_eq]
  exact beq_zero_iff ha .positive

theorem Unsigned.isFinite_of_le (ha : a.Unsigned) (hb : Numeric.isFinite b = true) (h : Numeric.le a b = true) :
    Numeric.isFinite a = true := by
  rw [isFinite_eq] at hb ⊢
  rw [le_eq] at h
  exact Rounding.isFinite_of_le ha hb h

end Double

namespace Vec

open Double

variable {b : Array Double} {t : Double} {j : ℤ}

/-! ### Lengths -/

theorem dot_self (b : Array Double) : dot b b = (b.toList.map fun β => β * β).foldl (· + ·) 0 := by
  rw [dot, ← Array.foldl_toList, Array.toList_zipWith, List.zipWith_self]

theorem foldl_squares (bs : List Double) {sum : Double} (hsum : sum.Unsigned) :
    ((bs.map fun β => β * β).foldl (· + ·) sum).Unsigned ∧
      (((bs.map fun β => β * β).foldl (· + ·) sum).number = .zero .positive ↔
        sum.number = .zero .positive ∧ ∀ β ∈ bs, β.Vanishes) := by
  induction bs generalizing sum with
  | nil => simp [hsum]
  | cons β bs ih =>
    obtain ⟨hsquare, hvanishes⟩ := square_unsigned β
    obtain ⟨hnext, hzero⟩ := hsum.add hsquare
    obtain ⟨hunsigned, hrest⟩ := ih hnext
    refine ⟨hunsigned, ?_⟩
    rw [List.map_cons, List.foldl_cons, hrest, hzero, hvanishes, List.forall_mem_cons, and_assoc]

theorem within_foldl_squares (bs : List Double) {sum : Double} (hsum : sum.Within 1023)
    (hbs : ∀ β ∈ bs, β.Within 485) : ((bs.map fun β => β * β).foldl (· + ·) sum).Within 1023 := by
  induction bs generalizing sum with
  | nil => exact hsum
  | cons β bs ih =>
    obtain ⟨hβ, hrest⟩ := List.forall_mem_cons.mp hbs
    exact ih (hsum.add (hβ.mul hβ (by decide) (by decide) (by decide))) hrest

theorem dot_self_unsigned (b : Array Double) : (dot b b).Unsigned ∧
    ((dot b b).number = .zero .positive ↔ ∀ β ∈ b, β.Vanishes) := by
  obtain ⟨hunsigned, hzero⟩ := foldl_squares b.toList (show (0 : Double).Unsigned from .zero)
  rw [dot_self]
  exact ⟨hunsigned, by simpa [number_zero] using hzero⟩

theorem norm_unsigned (b : Array Double) : (norm b).Unsigned := (dot_self_unsigned b).1.sqrt.1

/-- A vector has no length exactly if the squares of all its entries round to zero. -/
theorem same_norm_zero_iff : Numeric.same (norm b) 0 = true ↔ ∀ β ∈ b, β.Vanishes := by
  obtain ⟨hunsigned, hzero⟩ := dot_self_unsigned b
  rw [(norm_unsigned b).same_zero_iff, norm, hunsigned.sqrt.2, hzero]

/-- Entries that are not too large have a length that is not, whatever their number. -/
theorem within_norm (hb : ∀ β ∈ b, β.Within 485) : (norm b).Within 512 := by
  refine Within.sqrt (j := 1023) ?_ (dot_self_unsigned b).1
  rw [dot_self]
  exact within_foldl_squares b.toList within_zero (by simpa using hb)

end Vec

end AccelKrylov
