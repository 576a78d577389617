import AccelKrylov.Proofs.Double.Packing

/-! Products, sums and roots of numbers of 64 bits: how large they are, that a sum absorbs what is small beside
it, and which of those without a minus sign are zero. -/

namespace AccelKrylov.Rounding

open Float.Model (Format UnpackedFloat)
open Float.Model.UnpackedFloat

/-- So many units with a sign. -/
def signed (s : Sign) (m : ℕ) (e : ℤ) : ℚ := (s.apply m : ℤ) * 2 ^ e

/-- The number that something stands for, unless it is infinite or no number. -/
def value : UnpackedFloat → Option ℚ
  | .zero _ => some 0
  | .finite s m e _ => some (signed s m e)
  | .infinity _ | .notANumber => none

/-- What is left of a result once it has been stored. -/
def settle (u : UnpackedFloat) : UnpackedFloat := unpack .binary64 (pack .binary64 u)

/-- A finite number of magnitude `2 ^ j` at most. -/
def Within (j : ℤ) (u : UnpackedFloat) : Prop := ∃ z, value u = some z ∧ |z| ≤ 2 ^ j

/-- What has no minus sign. -/
inductive Unsigned : UnpackedFloat → Prop
  | notANumber : Unsigned .notANumber
  | infinity : Unsigned (.infinity .positive)
  | zero : Unsigned (.zero .positive)
  | finite (m : ℕ) (e : ℤ) (hm : 0 < m) : Unsigned (.finite .positive m e hm)

attribute [simp] Unsigned.notANumber Unsigned.infinity Unsigned.zero Unsigned.finite

variable {q : ℕ} {t j : ℤ} {s : Sign} {u v : UnpackedFloat}

theorem abs_signed (s : Sign) (m : ℕ) (e : ℤ) : |signed s m e| = m * 2 ^ e := by
  cases s <;> simp [signed, Sign.apply]

theorem value_assemble (h : Units q t) : value (assemble s q t) = some (signed s q t) := by
  rw [assemble]
  split
  next hq => cases s <;> simp [value, hq, signed, Sign.apply]
  next hq =>
    split
    · rfl
    next hlt =>
      obtain rfl : q = 2 ^ 53 := le_antisymm h.le (not_lt.mp hlt)
      rw [value, signed, signed, zpow_add_one₀ two_ne_zero]
      cases s <;> simp only [Sign.apply] <;> push_cast <;> ring_nf

theorem packable_assemble (h : Units q t) (hq : q * 2 ^ t ≤ (2 : ℚ) ^ (1023 : ℤ)) :
    Packable (assemble s q t) := by
  have hbound {k : ℕ} (hk : 2 ^ k ≤ q) : k + t ≤ 1023 := by
    have hk : (2 : ℚ) ^ (k : ℤ) ≤ q := by exact_mod_cast hk
    rw [← zpow_le_zpow_iff_right₀ (show (1 : ℚ) < 2 from one_lt_two), zpow_add₀ two_ne_zero]
    exact (mul_le_mul_of_nonneg_right hk (by positivity)).trans hq
  have ht : t ≤ 971 := by
    by_contra ht
    have := hbound (h.normal (by omega))
    omega
  have hleast := h.least
  rw [assemble]
  split
  · trivial
  next hq0 =>
    split
    next hlt => exact ⟨h, hlt, ht⟩
    next hlt =>
      have := hbound (not_lt.mp hlt)
      exact ⟨⟨by decide, by omega, fun _ => le_rfl⟩, by decide, by omega⟩

/-- What has been rounded and is not too large is stored as it is. -/
theorem within_settle_assemble (h : Units q t) (hj : j ≤ 1023) (hq : q * 2 ^ t ≤ (2 : ℚ) ^ j) :
    Within j (settle (assemble s q t)) := by
  have hlarge : (2 : ℚ) ^ j ≤ 2 ^ (1023 : ℤ) := zpow_le_zpow_right₀ one_le_two hj
  rw [settle, unpack_pack (packable_assemble h (hq.trans hlarge))]
  exact ⟨_, value_assemble h, (abs_signed s q t).trans_le hq⟩

theorem settle_of_packable (h : Packable u) : settle u = u := unpack_pack h

@[simp]
theorem settle_zero (s : Sign) : settle (.zero s) = .zero s := settle_of_packable (u := .zero s) trivial

@[simp]
theorem settle_notANumber : settle .notANumber = .notANumber := settle_of_packable (u := .notANumber) trivial

@[simp]
theorem settle_infinity (s : Sign) : settle (.infinity s) = .infinity s :=
  settle_of_packable (u := .infinity s) trivial

theorem within_zero : Within j (.zero s) := ⟨0, rfl, by rw [abs_zero]; positivity⟩

theorem Within.mono {i : ℤ} (h : Within i u) (hij : i ≤ j) : Within j u := by
  obtain ⟨z, hz, hle⟩ := h
  exact ⟨z, hz, hle.trans (zpow_le_zpow_right₀ one_le_two hij)⟩

theorem Within.zero_or_finite (h : Within j u) :
    (∃ s, u = .zero s) ∨ ∃ s m e, ∃ hm : 0 < m, u = .finite s m e hm ∧ m * 2 ^ e ≤ (2 : ℚ) ^ j := by
  obtain ⟨z, hz, hle⟩ := h
  cases u with
  | infinity => cases hz
  | notANumber => cases hz
  | zero s => exact .inl ⟨s, rfl⟩
  | finite s m e hm =>
    obtain rfl := Option.some.inj hz
    exact .inr ⟨s, m, e, hm, rfl, abs_signed s m e ▸ hle⟩

/-! ### Products -/

variable {m m₁ m₂ : ℕ} {e e₁ e₂ : ℤ}

/-- One of two numbers has 53 bits, or both have the least exponent, so that their product never has to be given
more bits. -/
theorem mul_finite (s₁ s₂ : Sign) (h₁ : Units m₁ e₁) (h₂ : Units m₂ e₂) (hm₁ : 0 < m₁) (hm₂ : 0 < m₂) :
    ∃ q t, Nearest (m₁ * 2 ^ e₁ * (m₂ * 2 ^ e₂)) q t ∧
      mul .binary64 (.finite s₁ m₁ e₁ hm₁) (.finite s₂ m₂ e₂ hm₂) = assemble (s₁ * s₂) q t := by
  have hlarge : -1074 < e₁ ∨ -1074 < e₂ → 52 ≤ (m₁ * m₂).log2 := by
    intro h
    rw [Nat.le_log2 (Nat.mul_pos hm₁ hm₂).ne']
    obtain h | h := h
    · exact (h₁.normal h).trans (Nat.le_mul_of_pos_right _ hm₂)
    · exact (h₂.normal h).trans (Nat.le_mul_of_pos_left _ hm₁)
  have hproduct : (m₁ * 2 ^ e₁ * (m₂ * 2 ^ e₂) : ℚ) = ((m₁ * m₂ : ℕ) : ℚ) * 2 ^ (e₁ + e₂) := by
    rw [zpow_add₀ two_ne_zero, Nat.cast_mul]
    ring
  have h₁ := h₁.least
  have h₂ := h₂.least
  rw [hproduct]
  exact roundWithAccuracy_exact _ (by omega)

theorem Within.mul {i : ℤ} (hu : Packable u) (hv : Packable v) (hui : Within i u) (hvj : Within j v)
    (hleast : -1074 ≤ i + j) (hlarge : i + j ≤ 1023) :
    Within (i + j) (settle (mul .binary64 u v)) := by
  obtain ⟨s₁, rfl⟩ | ⟨s₁, m₁, e₁, hm₁, rfl, hle₁⟩ := hui.zero_or_finite <;>
    obtain ⟨s₂, rfl⟩ | ⟨s₂, m₂, e₂, hm₂, rfl, hle₂⟩ := hvj.zero_or_finite
  · exact (settle_zero (s₁ * s₂)).symm ▸ within_zero
  · exact (settle_zero (s₁ * s₂)).symm ▸ within_zero
  · exact (settle_zero (s₁ * s₂)).symm ▸ within_zero
  · obtain ⟨q, t, hnearest, hmul⟩ := mul_finite s₁ s₂ hu.1 hv.1 hm₁ hm₂
    rw [hmul]
    refine within_settle_assemble hnearest.toUnits hlarge (hnearest.mul_zpow_le_zpow hleast ?_)
    rw [zpow_add₀ two_ne_zero]
    gcongr

/-! ### Sums -/

theorem signed_mul_two_pow (s : Sign) (m : ℕ) (e t : ℤ) :
    signed s (m * 2 ^ (e - t).toNat) (min e t) = signed s m e := by
  have h := mul_zpow_min m e t
  cases s <;> simp only [signed, Sign.apply, Int.cast_neg, Int.cast_natCast, neg_mul, h]

theorem abs_mul_zpow (n e : ℤ) : |(n : ℚ) * 2 ^ e| = n.natAbs * 2 ^ e := by
  rw [abs_mul, abs_of_pos (show (0 : ℚ) < 2 ^ e by positivity), Nat.cast_natAbs, Int.cast_abs]

/-- A whole number of units is zero, or is rounded with its sign. -/
theorem normalize_eq (n e : ℤ) :
    n = 0 ∧ UnpackedFloat.normalize .binary64 n e .positive = .zero .positive ∨
      ∃ s q t, Nearest |n * 2 ^ e| q t ∧ (s = .positive ↔ 0 < n) ∧
        UnpackedFloat.normalize .binary64 n e .positive = assemble s q t := by
  rw [abs_mul_zpow]
  obtain hn | rfl | hn := lt_trichotomy n 0
  · obtain ⟨q, t, hnearest, hround⟩ := round_exact .negative (Int.natAbs_ne_zero.mpr hn.ne) e
    have habs : (-n).toNat = n.natAbs := by omega
    refine .inr ⟨.negative, q, t, hnearest, by simp [hn.le], ?_⟩
    rw [UnpackedFloat.normalize, compare_lt_iff_lt.mpr hn, habs, hround]
  · exact .inl ⟨rfl, rfl⟩
  · obtain ⟨q, t, hnearest, hround⟩ := round_exact .positive (Int.natAbs_ne_zero.mpr hn.ne') e
    have habs : n.toNat = n.natAbs := by omega
    refine .inr ⟨.positive, q, t, hnearest, by simp [hn], ?_⟩
    rw [UnpackedFloat.normalize, compare_gt_iff_gt.mpr hn, habs, hround]

/-- The numbers to be added are a whole number of units of the smaller exponent, and so is their sum. -/
theorem add_finite (s₁ s₂ : Sign) (e₁ e₂ : ℤ) (hm₁ : 0 < m₁) (hm₂ : 0 < m₂) :
    ∃ n : ℤ, signed s₁ m₁ e₁ + signed s₂ m₂ e₂ = n * 2 ^ min e₁ e₂ ∧
      add .binary64 (.finite s₁ m₁ e₁ hm₁) (.finite s₂ m₂ e₂ hm₂) =
        UnpackedFloat.normalize .binary64 n (min e₁ e₂) .positive := by
  refine ⟨_, ?_, by simp only [add, decreaseExponent_eq]; rfl⟩
  have h₁ := signed_mul_two_pow s₁ m₁ e₁ (min e₁ e₂)
  have h₂ := signed_mul_two_pow s₂ m₂ e₂ (min e₁ e₂)
  rw [signed, min_eq_right (min_le_left ..)] at h₁
  rw [signed, min_eq_right (min_le_right ..)] at h₂
  rw [← h₁, ← h₂, ← add_mul, Int.cast_add]

/-- Adding up to half of the distance between numbers of size `2 ^ 1023` does not lead above `2 ^ 1023`. -/
theorem Within.add (hu : Packable u) (hv : Packable v) (hu' : Within 1023 u) (hv' : Within 970 v) :
    Within 1023 (settle (add .binary64 u v)) := by
  obtain ⟨s₁, rfl⟩ | ⟨s₁, m₁, e₁, hm₁, rfl, hle₁⟩ := hu'.zero_or_finite <;>
    obtain ⟨s₂, rfl⟩ | ⟨s₂, m₂, e₂, hm₂, rfl, hle₂⟩ := hv'.zero_or_finite
  · simp only [UnpackedFloat.add]
    split <;> exact (settle_zero _).symm ▸ within_zero
  · exact (settle_of_packable hv).symm ▸ hv'.mono (by decide)
  · exact (settle_of_packable hu).symm ▸ hu'
  · obtain ⟨n, hsum, hadd⟩ := add_finite s₁ s₂ e₁ e₂ hm₁ hm₂
    rw [hadd]
    obtain ⟨-, hzero⟩ | ⟨s, q, t, hnearest, -, hround⟩ := normalize_eq n (min e₁ e₂)
    · rw [hzero, settle_zero]
      exact within_zero
    · rw [hround]
      refine within_settle_assemble hnearest.toUnits le_rfl (hnearest.mul_zpow_le_of_absorbed ?_)
      rw [← hsum]
      refine (abs_add_le _ _).trans ?_
      rw [abs_signed, abs_signed]
      exact add_le_add hle₁ hle₂

/-! ### Roots -/

theorem log2_sqrt {n : ℕ} (hn : n ≠ 0) : n.sqrt.log2 = n.log2 / 2 := by
  rw [Nat.log2_eq_iff (mt Nat.sqrt_eq_zero.mp hn), Nat.le_sqrt', Nat.sqrt_lt', ← Nat.pow_mul, ← Nat.pow_mul]
  have hle : 2 ^ (n.log2 / 2 * 2) ≤ 2 ^ n.log2 := Nat.pow_le_pow_right two_pos (by omega)
  have hlt : 2 ^ (n.log2 + 1) ≤ 2 ^ ((n.log2 / 2 + 1) * 2) := Nat.pow_le_pow_right two_pos (by omega)
  exact ⟨hle.trans (Nat.log2_self_le hn), Nat.lt_log2_self.trans_le hlt⟩

/-- A mantissa is given so many bits that its root has 53 of them at least, and the root of what is below
`2 ^ 1024` is below `2 ^ 512`. -/
theorem sqrtCore_bounds (h : Units m e) (hm : 0 < m) (hlt : m < 2 ^ 53) (he : e ≤ 971) :
    ∃ root t accuracy, sqrtCore .binary64 m e = (root, t, accuracy) ∧
      52 ≤ root.log2 ∧ root.log2 + t < 512 ∧ -1000 ≤ t := by
  have hleast := h.least
  have hlog : m.log2 < 53 := (Nat.log2_lt hm.ne').mpr hlt
  refine ⟨_, _, _, rfl, ?_⟩
  -- the least exponent is far below half of any exponent, so that the root has the other one
  have ht : min (e.ediv 2) (Format.binary64.targetExponent ((Float.Model.totalExponent m e + 1).ediv 2)) =
      min (e / 2) (max ((m.log2 + 1 + e + 1) / 2 - 53) (-1074)) := rfl
  rw [ht, Nat.shiftLeft_eq, log2_sqrt (by positivity), log2_mul_two_pow hm.ne']
  omega

/-- The root of a number is a number, and never zero. -/
theorem sqrt_finite (h : Packable (.finite .positive m e hm)) :
    ∃ q t, Units q t ∧ q ≠ 0 ∧ q * 2 ^ t ≤ (2 : ℚ) ^ (512 : ℤ) ∧
      sqrt .binary64 (.finite .positive m e hm) = assemble .positive q t := by
  obtain ⟨root, t, accuracy, hcore, hlower, hupper, hleast⟩ := sqrtCore_bounds h.1 hm h.2.1 h.2.2
  have htarget : max (root.log2 + t - 52) (-1074) = root.log2 + t - 52 := by omega
  have hunits := units_roundedMantissa accuracy htarget (by omega)
  refine ⟨_, _, hunits, ?_, hunits.mul_zpow_le (by omega), ?_⟩
  · have := hunits.normal (by omega)
    omega
  · simp only [sqrt, hcore]
    exact roundWithAccuracy_eq _ _ htarget (by omega)

theorem Within.sqrt (hu : Packable u) (hunsigned : Unsigned u) (h : Within j u) :
    Within 512 (settle (sqrt .binary64 u)) := by
  obtain ⟨s, rfl⟩ | ⟨s, m, e, hm, rfl, -⟩ := h.zero_or_finite
  · exact (settle_zero s).symm ▸ within_zero
  · cases hunsigned
    obtain ⟨q, t, hunits, -, hq, hsqrt⟩ := sqrt_finite hu
    rw [hsqrt]
    exact within_settle_assemble hunits (by decide) hq

/-! ### What has no minus sign -/

theorem settle_finite (h : Units m e) (hm : 0 < m) (hlt : m < 2 ^ 53) :
    settle (.finite s m e hm) = if e ≤ 971 then .finite s m e hm else .infinity s := by
  split
  next he => exact settle_of_packable ⟨h, hlt, he⟩
  next he => exact unpack_pack_large hlt (not_le.mp he)

theorem settle_assemble_positive (h : Units q t) :
    Unsigned (settle (assemble .positive q t)) ∧
      (settle (assemble .positive q t) = .zero .positive ↔ q = 0) := by
  have hleast := h.least
  by_cases hq : q = 0
  · rw [hq]
    simp [assemble]
  · obtain ⟨m, e, hm, hunits, hlt, hassemble⟩ : ∃ m e, ∃ hm : 0 < m, Units m e ∧ m < 2 ^ 53 ∧
        assemble .positive q t = .finite .positive m e hm := by
      rw [assemble, dif_neg hq]
      split
      next hlt => exact ⟨q, t, Nat.pos_of_ne_zero hq, h, hlt, rfl⟩
      next => exact ⟨2 ^ 52, t + 1, by decide, ⟨by decide, by omega, fun _ => le_rfl⟩, by decide, rfl⟩
    rw [hassemble, settle_finite hunits hm hlt]
    split <;> simp [hq]

@[simp]
theorem sign_mul_self (s : Sign) : s * s = .positive := by cases s <;> rfl

/-- A square has no minus sign, and is zero exactly if it is at most half of the least number. -/
theorem square_unsigned (hu : Packable u) : Unsigned (settle (mul .binary64 u u)) ∧
    (settle (mul .binary64 u u) = .zero .positive ↔ ∃ x, value u = some x ∧ x ^ 2 ≤ 2 ^ (-1075 : ℤ)) := by
  cases u with
  | notANumber => simp [mul, value]
  | infinity s => simp [mul, value]
  | zero s => simp [mul, value]
  | finite s m e hm =>
    obtain ⟨q, t, hnearest, hmul⟩ := mul_finite s s hu.1 hu.1 hm hm
    obtain ⟨hunsigned, hzero⟩ := settle_assemble_positive hnearest.toUnits
    rw [hmul, sign_mul_self]
    refine ⟨hunsigned, ?_⟩
    rw [hzero, hnearest.eq_zero_iff, ← pow_two, ← abs_signed s, sq_abs]
    simp [value]

/-- Two numbers that are at least the least one do not add up to nothing. -/
theorem add_positive (h₁ : Units m₁ e₁) (hm₁ : 0 < m₁) (hm₂ : 0 < m₂) :
    ∃ q t, Units q t ∧ q ≠ 0 ∧
      add .binary64 (.finite .positive m₁ e₁ hm₁) (.finite .positive m₂ e₂ hm₂) = assemble .positive q t := by
  obtain ⟨n, hsum, hadd⟩ := add_finite .positive .positive e₁ e₂ hm₁ hm₂
  have hpositive {m : ℕ} (e : ℤ) (hm : 0 < m) : (2 : ℚ) ^ e ≤ signed .positive m e := by
    have hm : (1 : ℚ) ≤ m := by exact_mod_cast hm
    simpa [signed, Sign.apply] using le_mul_of_one_le_left (zpow_nonneg zero_le_two e) hm
  have hleast : (2 : ℚ) ^ (-1075 : ℤ) < 2 ^ e₁ := zpow_lt_zpow_right₀ one_lt_two (by have := h₁.least; omega)
  have hsecond : (0 : ℚ) < 2 ^ e₂ := by positivity
  have hlarge : (2 : ℚ) ^ (-1075 : ℤ) < n * 2 ^ min e₁ e₂ := by
    have := hpositive e₁ hm₁
    have := hpositive e₂ hm₂
    rw [← hsum]
    linarith
  have hn : 0 < n := by
    have hpos : (0 : ℚ) < n * 2 ^ min e₁ e₂ := (zpow_pos two_pos _).trans hlarge
    exact_mod_cast pos_of_mul_pos_left hpos (by positivity)
  obtain ⟨hzero, -⟩ | ⟨s, q, t, hnearest, hsign, hround⟩ := normalize_eq n (min e₁ e₂)
  · exact absurd hzero hn.ne'
  · obtain rfl := hsign.mpr hn
    refine ⟨q, t, hnearest.toUnits, ?_, hadd.trans hround⟩
    rw [ne_eq, hnearest.eq_zero_iff, not_le]
    exact hlarge.trans_le (le_abs_self _)

/-- Without minus signs nothing cancels. -/
theorem add_unsigned (hu : Packable u) (hv : Packable v) (hu' : Unsigned u) (hv' : Unsigned v) :
    Unsigned (settle (add .binary64 u v)) ∧
      (settle (add .binary64 u v) = .zero .positive ↔ u = .zero .positive ∧ v = .zero .positive) := by
  cases hu' with
  | notANumber => simp [add]
  | infinity => cases hv' <;> simp [add]
  | zero => cases hv' <;> simp [add, settle_of_packable hv]
  | finite m₁ e₁ hm₁ =>
    cases hv' with
    | notANumber => simp [add]
    | infinity => simp [add]
    | zero => simp [add, settle_of_packable hu]
    | finite m₂ e₂ hm₂ =>
      obtain ⟨q, t, hunits, hq, hadd⟩ := add_positive hu.1 hm₁ hm₂
      obtain ⟨hunsigned, hzero⟩ := settle_assemble_positive hunits
      rw [hadd]
      exact ⟨hunsigned, by simp [hzero, hq]⟩

theorem sqrt_unsigned (hu : Packable u) (hu' : Unsigned u) :
    Unsigned (settle (sqrt .binary64 u)) ∧
      (settle (sqrt .binary64 u) = .zero .positive ↔ u = .zero .positive) := by
  cases hu' with
  | notANumber => simp [sqrt]
  | infinity => simp [sqrt]
  | zero => simp [sqrt]
  | finite m e hm =>
    obtain ⟨q, t, hunits, hq, -, hsqrt⟩ := sqrt_finite hu
    obtain ⟨hunsigned, hzero⟩ := settle_assemble_positive hunits
    rw [hsqrt]
    exact ⟨hunsigned, by simp [hzero, hq]⟩

/-! ### Tests -/

theorem isFinite_iff : u.isFinite = true ↔ ∃ z, value u = some z := by
  cases u <;> simp [UnpackedFloat.isFinite, value]

theorem beq_zero_iff (hu : Unsigned u) (s : Sign) : u.beq (.zero s) = true ↔ u = .zero .positive := by
  cases hu <;> simp [UnpackedFloat.beq, UnpackedFloat.compare]

/-- What is not finite stays so, whatever is added to it. -/
theorem isFinite_of_add (h : (settle (add .binary64 u v)).isFinite = true) :
    u.isFinite = true ∧ v.isFinite = true := by
  cases u <;> cases v <;> simp_all [UnpackedFloat.add, UnpackedFloat.isFinite]
  next s₁ s₂ => by_cases hs : (s₁ == s₂) = true <;> simp [hs] at h

/-- Nothing that is not finite and has no minus sign is below a finite number. -/
theorem isFinite_of_le (hu : Unsigned u) (hv : v.isFinite = true) (h : u.le v = true) : u.isFinite = true := by
  cases hu <;> cases v <;>
    simp_all [UnpackedFloat.le, UnpackedFloat.compare, UnpackedFloat.isFinite, Ordering.isLE]

end AccelKrylov.Rounding
