import Mathlib
import AccelKrylov.Double

/-! How the numbers of 64 bits round. A mantissa is cut off at the exponent at which 53 bits of it are left, or
at the least exponent there is, and goes to the nearest multiple, from the middle to the even one. Which numbers
round to at most `n` units is all that has to be known of it. -/

namespace AccelKrylov.Rounding

open Float.Model Float.Model.UnpackedFloat

/-! ### Cutting off -/

/-- Cutting off `k` bits at once: the bits that are left, and whether what is cut off is at least one half, and
whether it is neither nothing nor one half. -/
theorem shiftRight_eq (m k : ℕ) : ExtendedMantissa.mk m false false >>> k =
    ⟨m / 2 ^ k, decide (2 ^ k ≤ 2 * (m % 2 ^ k)), decide (2 * (m % 2 ^ k) % 2 ^ k ≠ 0)⟩ := by
  induction k with
  | zero => simp [HShiftRight.hShiftRight, Nat.repeat, Nat.mod_one]
  | succ k ih =>
    change (ExtendedMantissa.mk m false false >>> k).shiftRightOne = _
    have hlt := Nat.mod_lt m (Nat.two_pow_pos k)
    have hmod : m % 2 ^ (k + 1) = m % 2 ^ k + 2 ^ k * (m / 2 ^ k % 2) := Nat.mod_pow_succ
    rw [ih, hmod, Nat.pow_succ', ExtendedMantissa.shiftRightOne, Nat.mul_comm 2 (2 ^ k),
      ← Nat.div_div_eq_div_mul]
    generalize m % 2 ^ k = r at *
    generalize m / 2 ^ k = a at *
    generalize 2 ^ k = p at *
    -- the last bit that is left now goes out, and stands for one half; the half there was joins the rest
    have hbit : a % 2 = 0 ∨ a % 2 = 1 := by omega
    have hsticky : 2 * r % p ≠ 0 ∨ p ≤ 2 * r ↔ r ≠ 0 := by
      obtain hhalf | hhalf := Nat.lt_or_ge (2 * r) p
      · rw [Nat.mod_eq_of_lt hhalf]
        omega
      · omega
    have hrest : 2 * (r + p * (a % 2)) % (p * 2) = 2 * r := by
      rw [Nat.mul_add, ← Nat.mul_assoc, Nat.mul_comm 2 p, Nat.add_mul_mod_self_left,
        Nat.mod_eq_of_lt (by omega)]
    simp only [ExtendedMantissa.mk.injEq, true_and, hrest, decide_not]
    refine ⟨?_, ?_⟩
    · obtain hbit | hbit := hbit <;> simp [hbit] <;> omega
    · rw [Bool.eq_iff_iff]
      simp
      omega

/-- Below the middle a mantissa rounds down, above it up, and in the middle to the even one. -/
theorem roundedMantissa_eq (m k : ℕ) : (ExtendedMantissa.mk m false false >>> k).roundedMantissa =
    if 2 * (m % 2 ^ k) < 2 ^ k then m / 2 ^ k
    else if 2 * (m % 2 ^ k) = 2 ^ k then m / 2 ^ k + m / 2 ^ k % 2
    else m / 2 ^ k + 1 := by
  have hlt := Nat.mod_lt m (Nat.two_pow_pos k)
  rw [shiftRight_eq]
  generalize m % 2 ^ k = r at *
  generalize m / 2 ^ k = a at *
  generalize 2 ^ k = p at *
  obtain hbelow | hmiddle | habove := Nat.lt_trichotomy (2 * r) p
  · have hround : decide (p ≤ 2 * r) = false := decide_eq_false (by omega)
    rw [if_pos hbelow, hround]
    cases decide (2 * r % p ≠ 0) <;> rfl
  · have hround : decide (p ≤ 2 * r) = true := decide_eq_true (by omega)
    have hsticky : decide (2 * r % p ≠ 0) = false := by simp [hmiddle]
    rw [if_neg (by omega), if_pos hmiddle, hround, hsticky]
    rfl
  · have hround : decide (p ≤ 2 * r) = true := decide_eq_true (by omega)
    have hsticky : decide (2 * r % p ≠ 0) = true := by
      rw [Nat.mod_eq_sub_mod (by omega), Nat.mod_eq_of_lt (by omega)]
      exact decide_eq_true (by omega)
    rw [if_neg (by omega), if_neg (by omega), hround, hsticky]
    rfl

/-- A mantissa without `k` of its bits is at most `n` if and only if it was below the middle between `n` and
`n + 1`, or in it and `n` is even. -/
theorem roundedMantissa_le_iff (m k n : ℕ) :
    (ExtendedMantissa.mk m false false >>> k).roundedMantissa ≤ n ↔
      2 * m < (2 * n + 1) * 2 ^ k ∨ 2 * m = (2 * n + 1) * 2 ^ k ∧ n % 2 = 0 := by
  have hlt := Nat.mod_lt m (Nat.two_pow_pos k)
  have hm := Nat.div_add_mod m (2 ^ k)
  rw [roundedMantissa_eq]
  generalize m % 2 ^ k = r at *
  generalize m / 2 ^ k = a at *
  generalize 2 ^ k = p at *
  subst hm
  obtain hn | rfl | hn := Nat.lt_trichotomy a n
  · have hle : p * (a + 1) ≤ p * n := Nat.mul_le_mul_left p hn
    have hbelow : 2 * (p * a + r) < (2 * n + 1) * p := by linarith
    simp only [hbelow, true_or, iff_true]
    split_ifs <;> omega
  · have hmiddle : (2 * a + 1) * p = 2 * (p * a) + p := by ring
    rw [hmiddle]
    split_ifs <;> omega
  · have hle : p * (n + 1) ≤ p * a := Nat.mul_le_mul_left p hn
    have habove : (2 * n + 1) * p < 2 * (p * a + r) := by linarith
    simp only [habove.not_gt, habove.ne', false_and, or_self, iff_false, not_le]
    split_ifs <;> omega

theorem mantissa_shiftRight (em : ExtendedMantissa) (k : ℕ) : (em >>> k).mantissa = em.mantissa / 2 ^ k := by
  induction k with
  | zero => simp [HShiftRight.hShiftRight, Nat.repeat]
  | succ k ih =>
    change (em >>> k).mantissa / 2 = _
    rw [ih, Nat.div_div_eq_div_mul, Nat.pow_succ]

/-- However the bits cut off were come to, what is left is the part above them, or one more. -/
theorem roundedMantissa_bounds (em : ExtendedMantissa) :
    em.mantissa ≤ em.roundedMantissa ∧ em.roundedMantissa ≤ em.mantissa + 1 := by
  obtain ⟨a, round, sticky⟩ := em
  cases round <;> cases sticky <;>
    simp only [ExtendedMantissa.roundedMantissa, ExtendedMantissa.accuracy, Accuracy.roundToNearestEven] <;>
    omega

/-! ### Rounding to 64 bits -/

/-- The exponent at which a number of total exponent `n` keeps 53 bits, or the least exponent there is. -/
theorem targetExponent_eq (n : ℤ) : Format.binary64.targetExponent n = max (n - 53) (-1074) := rfl

/-- A number of `q` units of `2 ^ t`, with 53 bits at most. -/
def assemble (s : Sign) (q : ℕ) (t : ℤ) : UnpackedFloat :=
  if h : q = 0 then .zero s
  else if q < 2 ^ 53 then .finite s q t (Nat.pos_of_ne_zero h)
  else .finite s (2 ^ 52) (t + 1) (Nat.two_pow_pos 52)

/-- The units that rounding leaves are `2 ^ 53` at most, and no fewer than half of that unless their exponent is
the least one. -/
structure Units (q : ℕ) (t : ℤ) : Prop where
  le : q ≤ 2 ^ 53
  least : -1074 ≤ t
  normal : -1074 < t → 2 ^ 52 ≤ q

theorem Units.mul_zpow_le {q : ℕ} {t j : ℤ} (h : Units q t) (hj : 53 + t ≤ j) : q * 2 ^ t ≤ (2 : ℚ) ^ j := by
  have hq : (q : ℚ) ≤ 2 ^ (53 : ℤ) := by exact_mod_cast h.le
  calc q * 2 ^ t ≤ (2 : ℚ) ^ (53 : ℤ) * 2 ^ t := by gcongr
    _ = 2 ^ (53 + t) := (zpow_add₀ two_ne_zero 53 t).symm
    _ ≤ 2 ^ j := zpow_le_zpow_right₀ one_le_two hj

/-- With less than 53 bits their exponent is the one they are to have, and with one more it is the next. -/
theorem Units.targetExponent {q : ℕ} {t : ℤ} (h : Units q t) :
    max (q.log2 + t - 52) (-1074) = if q = 2 ^ 53 then t + 1 else t := by
  have hleast := h.least
  split
  next hq =>
    rw [hq, Nat.log2_two_pow]
    omega
  next hq =>
    have hlt : q < 2 ^ 53 := lt_of_le_of_ne h.le hq
    by_cases hq0 : q = 0
    · have ht := mt h.normal (by omega)
      rw [hq0, Nat.log2_zero]
      omega
    · have hlog : q.log2 < 53 := (Nat.log2_lt hq0).mpr hlt
      by_cases ht : -1074 < t
      · have hge : 52 ≤ q.log2 := (Nat.le_log2 hq0).mpr (h.normal ht)
        omega
      · omega

theorem shiftToExponent_of_le {m : ℕ} {e t : ℤ} {accuracy : Accuracy} (h : e ≤ t) :
    shiftToExponent m e accuracy t =
      (ExtendedMantissa.ofMantissaAndAccuracy m accuracy >>> (t - e).toNat, t) := by
  rw [shiftToExponent]
  simp only [Prod.mk.injEq, true_and]
  omega

theorem shiftToTargetExponent_eq {m : ℕ} {e t : ℤ} {accuracy : Accuracy}
    (ht : max (m.log2 + e - 52) (-1074) = t) (h : e ≤ t) :
    shiftToTargetExponent .binary64 m e accuracy =
      (ExtendedMantissa.ofMantissaAndAccuracy m accuracy >>> (t - e).toNat, t) := by
  have htarget : Format.binary64.targetExponent (totalExponent m e) = t := by
    rw [targetExponent_eq, totalExponent, ← ht]
    omega
  rw [shiftToTargetExponent, htarget, shiftToExponent_of_le h]

theorem mantissa_ofMantissaAndAccuracy (m : ℕ) (accuracy : Accuracy) :
    (ExtendedMantissa.ofMantissaAndAccuracy m accuracy).mantissa = m := by
  obtain _ | order := accuracy
  · rfl
  · cases order <;> rfl

theorem units_roundedMantissa {m : ℕ} {e t : ℤ} (accuracy : Accuracy)
    (ht : max (m.log2 + e - 52) (-1074) = t) (h : e ≤ t) :
    Units (ExtendedMantissa.ofMantissaAndAccuracy m accuracy >>> (t - e).toNat).roundedMantissa t := by
  obtain ⟨hlower, hupper⟩ :=
    roundedMantissa_bounds (ExtendedMantissa.ofMantissaAndAccuracy m accuracy >>> (t - e).toNat)
  rw [mantissa_shiftRight, mantissa_ofMantissaAndAccuracy] at hlower hupper
  refine ⟨?_, by omega, fun hleast => ?_⟩
  · have hm : m < 2 ^ (53 + (t - e).toNat) :=
      Nat.lt_log2_self.trans_le (Nat.pow_le_pow_right two_pos (by omega))
    have hdiv : m / 2 ^ (t - e).toNat < 2 ^ 53 :=
      Nat.div_lt_of_lt_mul (by rwa [Nat.pow_add, Nat.mul_comm] at hm)
    omega
  · have hlog : 52 + (t - e).toNat = m.log2 := by omega
    have hm0 : m ≠ 0 := by
      rintro rfl
      rw [Nat.log2_zero] at hlog
      omega
    have hm : 2 ^ (52 + (t - e).toNat) ≤ m := hlog ▸ Nat.log2_self_le hm0
    have hdiv : 2 ^ 52 ≤ m / 2 ^ (t - e).toNat := by
      rwa [Nat.le_div_iff_mul_le (Nat.two_pow_pos _), ← Nat.pow_add]
    exact hdiv.trans hlower

/-- The second cut only takes away the bit that rounding up may have given. -/
theorem roundWithAccuracy_eq (s : Sign) {m : ℕ} {e t : ℤ} (accuracy : Accuracy)
    (ht : max (m.log2 + e - 52) (-1074) = t) (h : e ≤ t) :
    roundWithAccuracy .binary64 s m e accuracy =
      assemble s (ExtendedMantissa.ofMantissaAndAccuracy m accuracy >>> (t - e).toNat).roundedMantissa t := by
  have hunits := units_roundedMantissa accuracy ht h
  rw [roundWithAccuracy, shiftToTargetExponent_eq ht h]
  dsimp only
  generalize (ExtendedMantissa.ofMantissaAndAccuracy m accuracy >>> (t - e).toNat).roundedMantissa = q at *
  have htarget := hunits.targetExponent
  by_cases hq : q = 2 ^ 53
  · rw [if_pos hq] at htarget
    rw [shiftToTargetExponent_eq htarget (by omega)]
    subst hq
    simp [assemble, mantissa_shiftRight, mantissa_ofMantissaAndAccuracy]
  · rw [if_neg hq] at htarget
    rw [shiftToTargetExponent_eq htarget le_rfl]
    have hlt : q < 2 ^ 53 := lt_of_le_of_ne hunits.le hq
    simp only [assemble, if_pos hlt, mantissa_shiftRight, mantissa_ofMantissaAndAccuracy, sub_self,
      Int.toNat_zero, pow_zero, Nat.div_one]

/-! ### Nearest numbers -/

/-- The number `y` is rounded to `q` units of `2 ^ t`: to at most `n` of them if and only if it is nearer to `n`
than to the next multiple, or in the middle and `n` is even. -/
structure Nearest (y : ℚ) (q : ℕ) (t : ℤ) : Prop extends Units q t where
  le_iff (n : ℕ) : q ≤ n ↔
    2 * y < (2 * n + 1) * 2 ^ t ∨ 2 * y = (2 * n + 1) * 2 ^ t ∧ n % 2 = 0

theorem nearest_roundedMantissa {m : ℕ} {e t : ℤ} (ht : max (m.log2 + e - 52) (-1074) = t) (h : e ≤ t) :
    Nearest (m * 2 ^ e) (ExtendedMantissa.mk m false false >>> (t - e).toNat).roundedMantissa t where
  toUnits := units_roundedMantissa .exact ht h
  le_iff n := by
    have hpow : (2 : ℚ) ^ t = 2 ^ (t - e).toNat * 2 ^ e := by
      rw [← zpow_natCast, ← zpow_add₀ two_ne_zero, Int.toNat_of_nonneg (by omega), sub_add_cancel]
    have hpos : (0 : ℚ) < 2 ^ e := by positivity
    rw [roundedMantissa_le_iff, hpow, ← mul_assoc, ← mul_assoc, mul_lt_mul_iff_left₀ hpos,
      mul_left_inj' hpos.ne']
    norm_cast

namespace Nearest

variable {y : ℚ} {q : ℕ} {t j : ℤ}

/-- What is at most half of a unit rounds to zero. -/
theorem eq_zero_iff_le (h : Nearest y q t) : q = 0 ↔ 2 * y ≤ 2 ^ t := by
  rw [← Nat.le_zero, h.le_iff 0, le_iff_lt_or_eq]
  simp

/-- What is at most half of the least number rounds to zero, and nothing else does. -/
theorem eq_zero_iff (h : Nearest y q t) : q = 0 ↔ y ≤ 2 ^ (-1075 : ℤ) := by
  have hhalf : (2 : ℚ) ^ (-1074 : ℤ) = 2 * 2 ^ (-1075 : ℤ) := zpow_one_add₀ two_ne_zero (-1075)
  obtain ht | ht := h.least.eq_or_lt
  · rw [h.eq_zero_iff_le, ← ht, hhalf, mul_le_mul_iff_right₀ two_pos]
  · have hq : q ≠ 0 := by
      have := h.normal ht
      omega
    have hle : (2 : ℚ) ^ (-1074 : ℤ) ≤ 2 ^ t := zpow_le_zpow_right₀ one_le_two h.least
    have hy := mt h.eq_zero_iff_le.mpr hq
    simp only [hq, false_iff, not_le] at hy ⊢
    linarith

/-- Rounding does not pass a power of two. -/
theorem mul_zpow_le_zpow (h : Nearest y q t) (hj : -1074 ≤ j) (hy : y ≤ 2 ^ j) : q * 2 ^ t ≤ (2 : ℚ) ^ j := by
  -- otherwise `y` would be at most half of a unit, and the unit would be the least one
  have htj : t ≤ j := by
    by_contra htj
    have hle : (2 : ℚ) ^ (1 + j) ≤ 2 ^ t := zpow_le_zpow_right₀ one_le_two (by omega)
    rw [zpow_one_add₀ two_ne_zero] at hle
    have hzero : q = 0 := h.eq_zero_iff_le.mpr (by linarith)
    have := h.normal (by omega)
    omega
  have hpow : ((2 ^ (j - t).toNat : ℕ) : ℚ) * 2 ^ t = 2 ^ j := by
    rw [Nat.cast_pow, Nat.cast_ofNat, ← zpow_natCast, ← zpow_add₀ two_ne_zero]
    congr 1
    omega
  have hunit : (0 : ℚ) < 2 ^ t := by positivity
  have hq : q ≤ 2 ^ (j - t).toNat := (h.le_iff _).mpr (.inl (by linarith))
  calc (q : ℚ) * 2 ^ t ≤ ((2 ^ (j - t).toNat : ℕ) : ℚ) * 2 ^ t := by gcongr
    _ = 2 ^ j := hpow

/-- What exceeds `2 ^ 1023` by no more than half of the distance to the next number rounds to it. -/
theorem mul_zpow_le_of_absorbed (h : Nearest y q t) (hy : y ≤ 2 ^ (1023 : ℤ) + 2 ^ (970 : ℤ)) :
    q * 2 ^ t ≤ (2 : ℚ) ^ (1023 : ℤ) := by
  have htop : (2 : ℚ) ^ (1023 : ℤ) = 2 ^ (53 : ℤ) * 2 ^ (970 : ℤ) := zpow_add₀ two_ne_zero 53 970
  have hpos : (0 : ℚ) < 2 ^ (970 : ℤ) := by positivity
  have hdouble : (2 : ℚ) ^ (971 : ℤ) = 2 * 2 ^ (970 : ℤ) := zpow_one_add₀ two_ne_zero 970
  rw [htop] at hy
  obtain ht | rfl | ht := lt_trichotomy t 971
  · exact h.toUnits.mul_zpow_le (by omega)
  · -- `y` is at most in the middle between `2 ^ 52` units, which is even, and the next multiple
    rw [htop]
    have hle := h.le_iff (2 ^ 52)
    rw [hdouble] at hle ⊢
    generalize (2 : ℚ) ^ (970 : ℤ) = u at *
    have hq : q ≤ 2 ^ 52 := by
      rw [hle, and_iff_left (by norm_num), ← le_iff_lt_or_eq]
      norm_num at hy ⊢
      linarith only [hy]
    have hq : (q : ℚ) ≤ 2 ^ 52 := by exact_mod_cast hq
    calc q * (2 * u) ≤ 2 ^ 52 * (2 * u) := by gcongr
      _ = 2 ^ (53 : ℤ) * u := by norm_num; ring
  · -- with larger units there would be too few of them
    have hunit : (2 : ℚ) ^ (971 : ℤ) ≤ 2 ^ (t - 1) := zpow_le_zpow_right₀ one_le_two (by omega)
    have hnext : (2 : ℚ) ^ t = 2 * 2 ^ (t - 1) := by rw [← zpow_one_add₀ two_ne_zero, add_sub_cancel]
    rw [hdouble] at hunit
    have hle := h.le_iff (2 ^ 52 - 1)
    rw [hnext] at hle
    generalize (2 : ℚ) ^ (970 : ℤ) = u at *
    generalize (2 : ℚ) ^ (t - 1) = v at *
    have hq : q ≤ 2 ^ 52 - 1 := by
      rw [hle]
      left
      norm_num at hy ⊢
      linarith only [hy, hunit, hpos]
    have := h.normal (by omega)
    omega

end Nearest

theorem roundWithAccuracy_exact (s : Sign) {m : ℕ} {e : ℤ} (h : e ≤ max (m.log2 + e - 52) (-1074)) :
    ∃ q t, Nearest (m * 2 ^ e) q t ∧ roundWithAccuracy .binary64 s m e .exact = assemble s q t :=
  ⟨_, _, nearest_roundedMantissa rfl h, roundWithAccuracy_eq s .exact rfl h⟩

/-- A mantissa with a smaller exponent is larger by as much. -/
theorem decreaseExponent_eq (m : ℕ) (e t : ℤ) :
    decreaseExponent m e t = (m * 2 ^ (e - t).toNat, min e t) := by
  rw [decreaseExponent, Nat.shiftLeft_eq]
  simp only [Prod.mk.injEq, true_and]
  omega

theorem mul_zpow_min (m : ℕ) (e t : ℤ) : ((m * 2 ^ (e - t).toNat : ℕ) : ℚ) * 2 ^ min e t = m * 2 ^ e := by
  rw [Nat.cast_mul, Nat.cast_pow, Nat.cast_ofNat, mul_assoc, ← zpow_natCast, ← zpow_add₀ two_ne_zero]
  congr 2
  omega

theorem log2_mul_two_pow {m : ℕ} (hm : m ≠ 0) (k : ℕ) : (m * 2 ^ k).log2 = m.log2 + k := by
  have hpos := Nat.two_pow_pos k
  rw [Nat.log2_eq_iff (Nat.mul_ne_zero hm hpos.ne'), Nat.pow_add, Nat.add_right_comm, Nat.pow_add]
  exact ⟨Nat.mul_le_mul_right _ (Nat.log2_self_le hm), Nat.mul_lt_mul_of_pos_right Nat.lt_log2_self hpos⟩

/-- Where the exponent is too large it is made smaller first. -/
theorem round_exact (s : Sign) {m : ℕ} (hm : m ≠ 0) (e : ℤ) :
    ∃ q t, Nearest (m * 2 ^ e) q t ∧ UnpackedFloat.round .binary64 s m e = assemble s q t := by
  rw [UnpackedFloat.round, decreaseExponent_eq, ← mul_zpow_min m e]
  refine roundWithAccuracy_exact s ?_
  rw [log2_mul_two_pow hm, targetExponent_eq, totalExponent]
  omega

end AccelKrylov.Rounding
