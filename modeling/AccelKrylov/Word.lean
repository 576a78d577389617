/-! Machine words of 64 bits: their bytes in memory, least significant first, and the few
operations on them that can fail or that round. -/

namespace AccelKrylov

/-! ### Little-endian numbers -/

/-- The `k` low bytes of a number, least significant first. -/
def littleEndian : (k : Nat) → Nat → List UInt8
  | 0, _ => []
  | k + 1, n => UInt8.ofNat n :: littleEndian k (n / 256)

/-- The number that a list of bytes spells, least significant first. -/
def ofLittleEndian : List UInt8 → Nat
  | [] => 0
  | b :: bs => b.toNat + 256 * ofLittleEndian bs

@[simp] theorem length_littleEndian (k n : Nat) : (littleEndian k n).length = k := by
  induction k generalizing n with
  | zero => rfl
  | succ k ih => simp [littleEndian, ih]

/-- An unsigned number of 64 bits. Plain `+`, `-` and `*` wrap. -/
abbrev Word := UInt64

namespace Word

/-! ### Bytes -/

/-- The eight bytes of a word in memory. -/
def bytes (w : Word) : List UInt8 := littleEndian 8 w.toNat

/-- The word that eight bytes spell. -/
def ofBytes (bs : List UInt8) : Word := UInt64.ofNat (ofLittleEndian bs)

@[simp] theorem length_bytes (w : Word) : w.bytes.length = 8 := length_littleEndian 8 _

/-- The words that bytes spell, eight bytes to a word. -/
def listOfBytes : List UInt8 → List Word
  | a :: b :: c :: d :: e :: f :: g :: h :: rest =>
    ofBytes [a, b, c, d, e, f, g, h] :: listOfBytes rest
  | _ => []

/-! ### Arithmetic that can fail -/

/-- The sum, unless it needs more than 64 bits. -/
def checkedAdd (a b : Word) : Option Word :=
  if a.toNat + b.toNat < UInt64.size then some (a + b) else none

/-- The product, unless it needs more than 64 bits. -/
def checkedMul (a b : Word) : Option Word :=
  if a.toNat * b.toNat < UInt64.size then some (a * b) else none

/-- The product of several factors, unless some partial product needs more than 64 bits. -/
def checkedProduct (factors : List Word) : Option Word := factors.foldlM checkedMul 1

/-! ### Rounding and ranges -/

/-- The quotient rounded up; nothing for a zero divisor is asked of it. -/
def ceilDiv (a b : Word) : Word := a / b + if a % b = 0 then 0 else 1

theorem toNat_pos_iff {a : Word} : 0 < a.toNat ↔ a ≠ 0 := by
  rw [Nat.pos_iff_ne_zero, ne_eq, ne_eq, ← UInt64.toNat_inj]
  rfl

theorem toNat_ceilDiv (a : Word) {b : Word} (h : b ≠ 0) :
    (ceilDiv a b).toNat = (a.toNat + b.toNat - 1) / b.toNat := by
  have hpos := toNat_pos_iff.mpr h
  have ha := a.toNat_lt
  have hsum := Nat.div_add_mod a.toNat b.toNat
  have hmod := Nat.mod_lt a.toNat hpos
  have hzero : a % b = 0 ↔ a.toNat % b.toNat = 0 := by
    rw [← UInt64.toNat_inj, UInt64.toNat_mod]
    rfl
  unfold ceilDiv
  rw [UInt64.toNat_add, UInt64.toNat_div]
  split
  next hm =>
    rw [hzero] at hm
    have hle := Nat.div_le_self a.toNat b.toNat
    rw [hm, Nat.mul_comm] at hsum
    rw [UInt64.toNat_zero, Nat.add_zero, Nat.mod_eq_of_lt (by omega)]
    refine ((Nat.div_eq_iff hpos).mpr ⟨?_, ?_⟩).symm <;> omega
  next hm =>
    rw [hzero] at hm
    have hle : a.toNat / b.toNat ≤ a.toNat / 2 := Nat.div_le_div_left (by omega) (by omega)
    rw [Nat.mul_comm] at hsum
    rw [UInt64.toNat_one, Nat.mod_eq_of_lt (by omega)]
    refine ((Nat.div_eq_iff hpos).mpr ⟨?_, ?_⟩).symm <;> rw [Nat.add_mul] <;> omega

theorem toNat_max (a b : Word) : (max a b).toNat = max a.toNat b.toNat := by
  change (if a ≤ b then b else a).toNat = _
  split
  next h => exact (Nat.max_eq_right (UInt64.le_iff_toNat_le.mp h)).symm
  next h =>
    have := mt UInt64.le_iff_toNat_le.mpr h
    omega

/-- Exactly one bit is set. -/
def isPowerOfTwo (w : Word) : Bool := w != 0 && (w &&& (w - 1)) == 0

/-- The words from `start` up to, not including, `stop`; empty when `stop` comes first. -/
def range (start stop : Word) : List Word :=
  (List.range (stop.toNat - start.toNat)).map fun i => start + UInt64.ofNat i

end Word

/-- How many bytes lie between `offset` and the next multiple of `align`. -/
def padding (offset align : Nat) : Nat := (align - offset % align) % align

theorem padding_lt (offset : Nat) {align : Nat} (h : 0 < align) : padding offset align < align :=
  Nat.mod_lt _ h

/-- The next multiple is the last one that is not past `offset + align - 1`. -/
theorem add_padding (offset : Nat) {align : Nat} (h : 0 < align) :
    offset + padding offset align = offset + align - 1 - (offset + align - 1) % align := by
  have hlt := Nat.mod_lt offset h
  have hsum := Nat.div_add_mod offset align
  unfold padding
  by_cases hr : offset % align = 0
  · have htop : (offset + align - 1) % align = align - 1 := by
      rw [show offset + align - 1 = align - 1 + align * (offset / align) by omega,
        Nat.add_mul_mod_self_left, Nat.mod_eq_of_lt (by omega)]
    rw [hr, htop, Nat.sub_zero, Nat.mod_self]
    omega
  · have htop : (offset + align - 1) % align = offset % align - 1 := by
      rw [show offset + align - 1 = offset % align - 1 + align * (offset / align + 1) by
        rw [Nat.mul_add]; omega, Nat.add_mul_mod_self_left, Nat.mod_eq_of_lt (by omega)]
    rw [htop, Nat.mod_eq_of_lt (by omega)]
    omega

/-- A checked condition with the fault to report when it does not hold. -/
def ensure {ε : Type} (p : Prop) [Decidable p] (fault : ε) : Except ε Unit :=
  if p then .ok () else .error fault

section
variable {ε β γ : Type}

theorem ensure_eq_ok {p : Prop} [Decidable p] {fault : ε} {u : Unit} :
    ensure p fault = .ok u ↔ p := by
  unfold ensure
  split
  next h => exact ⟨fun _ => h, fun _ => rfl⟩
  next h => exact ⟨nofun, fun h' => absurd h' h⟩

theorem ensure_eq_error {p : Prop} [Decidable p] {fault e : ε} (h : ensure p fault = .error e) :
    fault = e := by
  unfold ensure at h
  split at h
  · cases h
  · exact Except.error.inj h

theorem ensure_congr {p q : Prop} [Decidable p] [Decidable q] {fault : ε} (h : p ↔ q) :
    ensure p fault = ensure q fault := by
  unfold ensure
  by_cases hp : p
  · rw [if_pos hp, if_pos (h.mp hp)]
  · rw [if_neg hp, if_neg (mt h.mpr hp)]

theorem bind_eq_ok {x : Except ε β} {k : β → Except ε γ} {c : γ} :
    (x >>= k) = .ok c ↔ ∃ b, x = .ok b ∧ k b = .ok c := by
  cases x with
  | error e => simp [bind, Except.bind]
  | ok b => simp [bind, Except.bind]

theorem bind_eq_error {x : Except ε β} {k : β → Except ε γ} {e : ε} :
    (x >>= k) = .error e ↔ x = .error e ∨ ∃ b, x = .ok b ∧ k b = .error e := by
  cases x with
  | error e' => simp [bind, Except.bind]
  | ok b => simp [bind, Except.bind]

theorem map_eq_error {x : Except ε β} {f : β → γ} {e : ε} : x.map f = .error e ↔ x = .error e := by
  cases x with
  | error e' => simp [Except.map]
  | ok b => simp [Except.map]

end

end AccelKrylov
