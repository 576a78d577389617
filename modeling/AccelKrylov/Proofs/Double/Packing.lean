import AccelKrylov.Proofs.Double.Rounding

/-! What 64 bits can hold. A number comes back out of its bits as it was put in, unless it is too large: then it
is infinite. -/

namespace AccelKrylov.Rounding

open Float.Model (Format UnpackedFloat)
open Float.Model.UnpackedFloat

/-- A number that 64 bits can hold. -/
def Packable : UnpackedFloat → Prop
  | .finite _ m e _ => Units m e ∧ m < 2 ^ 53 ∧ e ≤ 971
  | _ => True

/-! ### Unpacking -/

/-- The number with a sign, 11 bits of exponent and 52 bits of mantissa. -/
def ofFields (s : Sign) (e : BitVec 11) (m : BitVec 52) : UnpackedFloat :=
  if e = -1#11 then if m = 0#52 then .infinity s else .notANumber
  else if e = 0#11 then
    if h : m = 0#52 then .zero s
    else .finite s m.toNat (-1074) (Nat.pos_of_ne_zero fun hm => h (BitVec.eq_of_toNat_eq hm))
  else .finite s (2 ^ 52 + m.toNat) (e.toNat - 1075) (by omega)

/-- The first bit of a mantissa is not stored. -/
theorem toNat_implicitBit (m : BitVec 52) : (1#1 ++ m).toNat = 2 ^ 52 + m.toNat := by
  rw [BitVec.toNat_append, BitVec.toNat_ofNat, ← Nat.shiftLeft_add_eq_or_of_lt m.isLt]
  rfl

theorem unpack_eq (b : BitVec 64) : unpack .binary64 b =
    ofFields (Sign.ofBitVec (@unpackSign .binary64 b)) (@unpackExponent .binary64 b)
      (@unpackMantissa .binary64 b) := by
  rw [unpack, ofFields]
  dsimp only
  split
  · rfl
  · split
    next hfirst => simp [hfirst, Format.exponentBias]
    next => simp only [toNat_implicitBit]; rfl

theorem packable_ofFields (s : Sign) (e : BitVec 11) (m : BitVec 52) : Packable (ofFields s e m) := by
  have he := e.isLt
  have hm := m.isLt
  rw [ofFields]
  split
  · split <;> trivial
  next hlast =>
    split
    · split
      · trivial
      · exact ⟨⟨by omega, by decide, fun h => absurd h (by decide)⟩, by omega, by decide⟩
    next hfirst =>
      have hlast : e.toNat ≠ 2047 := fun h => hlast (BitVec.eq_of_toNat_eq h)
      have hfirst : e.toNat ≠ 0 := fun h => hfirst (BitVec.eq_of_toNat_eq h)
      exact ⟨⟨by omega, by omega, fun _ => by omega⟩, by omega, by omega⟩

theorem packable_unpack (b : BitVec 64) : Packable (unpack .binary64 b) := by
  rw [unpack_eq]
  exact packable_ofFields ..

/-! ### Packing -/

theorem unpack_packComponents (s : Sign) (e : BitVec 11) (m : BitVec 52) :
    unpack .binary64 (packComponents .binary64 s e m) = ofFields s e m := by
  rw [unpack_eq, unpackSign_packComponents, Sign.ofBitVec_toBitVec, unpackExponent_packComponents,
    unpackMantissa_packComponents]

theorem pack_finite (s : Sign) {m : ℕ} {e : ℤ} (hm : 0 < m) (hlt : m < 2 ^ 53) :
    pack .binary64 (.finite s m e hm) =
      if 971 < e then packedInfinity .binary64 s
      else packComponents .binary64 s (if 2 ^ 52 ≤ m then BitVec.ofNat 11 (e + 1075).toNat else 0#11)
        (BitVec.ofNat 52 m) := by
  have hbias : e + Format.binary64.exponentBias + Format.binary64.mantissaBitsWithoutImplicit = e + 1075 :=
    add_assoc e 1023 52
  have hlarge : 2 ^ Format.binary64.exponentBits ≤ (e + 1075).toNat + 1 ↔ 971 < e := by
    change 2048 ≤ (e + 1075).toNat + 1 ↔ _
    omega
  have hnormal : m.log2 + 1 = Format.binary64.mantissaBits ↔ 2 ^ 52 ≤ m := by
    have hlog : m.log2 < 53 := (Nat.log2_lt hm.ne').mpr hlt
    rw [← Nat.le_log2 hm.ne']
    change m.log2 + 1 = 53 ↔ _
    omega
  simp only [pack, hbias, hlarge, hnormal]
  split
  · rfl
  · split <;> rfl

theorem unpack_pack {u : UnpackedFloat} (h : Packable u) : unpack .binary64 (pack .binary64 u) = u := by
  cases u with
  | notANumber => rfl
  | infinity s => cases s <;> rfl
  | zero s => cases s <;> rfl
  | finite s m e hm =>
    obtain ⟨hunits, hlt, hle⟩ := h
    have hleast := hunits.least
    rw [pack_finite s hm hlt, if_neg (by omega), unpack_packComponents, ofFields]
    by_cases hnormal : 2 ^ 52 ≤ m
    · have hexponent : (BitVec.ofNat 11 (e + 1075).toNat).toNat = (e + 1075).toNat :=
        Nat.mod_eq_of_lt (by omega)
      have hmantissa : (BitVec.ofNat 52 m).toNat = m - 2 ^ 52 := by
        rw [BitVec.toNat_ofNat, Nat.mod_eq_sub_mod hnormal, Nat.mod_eq_of_lt (by omega)]
      have hlast : BitVec.ofNat 11 (e + 1075).toNat ≠ -1#11 := by
        intro h
        have h : (e + 1075).toNat = 2047 := hexponent ▸ congrArg BitVec.toNat h
        omega
      have hfirst : BitVec.ofNat 11 (e + 1075).toNat ≠ 0#11 := by
        intro h
        have h : (e + 1075).toNat = 0 := hexponent ▸ congrArg BitVec.toNat h
        omega
      rw [if_pos hnormal, if_neg hlast, if_neg hfirst, UnpackedFloat.finite.injEq, hexponent, hmantissa]
      exact ⟨rfl, by omega, by omega⟩
    · have hmantissa : (BitVec.ofNat 52 m).toNat = m := Nat.mod_eq_of_lt (by omega)
      have hzero : BitVec.ofNat 52 m ≠ 0#52 := by
        intro h
        have h : m = 0 := hmantissa ▸ congrArg BitVec.toNat h
        omega
      have he : e = -1074 := by
        by_contra hne
        exact hnormal (hunits.normal (by omega))
      rw [if_neg hnormal, if_neg (by decide), if_pos rfl, dif_neg hzero, UnpackedFloat.finite.injEq, hmantissa]
      exact ⟨rfl, rfl, he.symm⟩

/-- A number that is too large for 64 bits is infinite in them. -/
theorem unpack_pack_large {s : Sign} {m : ℕ} {e : ℤ} {hm : 0 < m} (hlt : m < 2 ^ 53) (hlarge : 971 < e) :
    unpack .binary64 (pack .binary64 (.finite s m e hm)) = .infinity s := by
  rw [pack_finite s hm hlt, if_pos hlarge]
  cases s <;> rfl

end AccelKrylov.Rounding
