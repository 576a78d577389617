import Mathlib.Algebra.Group.Nat.Defs
import AccelKrylov.Word

/-! What bytes and arithmetic say about words. Reading bytes undoes writing them, in both directions; a
checked sum or product is there when it fits, and is then the one of numbers. -/

namespace AccelKrylov

/-! ### Little-endian numbers -/

theorem ofLittleEndian_littleEndian (k n : Nat) :
    ofLittleEndian (littleEndian k n) = n % 256 ^ k := by
  induction k generalizing n with
  | zero => simp [littleEndian, ofLittleEndian, Nat.mod_one]
  | succ k ih =>
    have hp : (256 : Nat) ^ (k + 1) = 256 * 256 ^ k := Nat.pow_succ'
    have hb : (UInt8.ofNat n).toNat = n % 256 := UInt8.toNat_ofNat'
    rw [littleEndian, ofLittleEndian, ih, hb, hp, Nat.mod_mul]

theorem littleEndian_ofLittleEndian (bs : List UInt8) :
    littleEndian bs.length (ofLittleEndian bs) = bs := by
  induction bs with
  | nil => rfl
  | cons b bs ih =>
    have hb := b.toNat_lt
    have hd : (b.toNat + 256 * ofLittleEndian bs) / 256 = ofLittleEndian bs := by omega
    have hm : UInt8.ofNat (b.toNat + 256 * ofLittleEndian bs) = b := by
      apply UInt8.toNat_inj.mp
      rw [UInt8.toNat_ofNat']
      omega
    simp only [List.length_cons, littleEndian, ofLittleEndian, hd, hm, ih]

theorem ofLittleEndian_lt (bs : List UInt8) : ofLittleEndian bs < 256 ^ bs.length := by
  induction bs with
  | nil => simp [ofLittleEndian]
  | cons b bs ih =>
    have hb := b.toNat_lt
    simp only [ofLittleEndian, List.length_cons, Nat.pow_succ]
    omega

/-! ### Stretches of bytes -/

theorem take_drop_congr {bytes bytes' : List UInt8} {start n : Nat}
    (h : ∀ i, start ≤ i → i < start + n → bytes'[i]? = bytes[i]?) :
    (bytes'.drop start).take n = (bytes.drop start).take n := by
  apply List.ext_getElem?
  intro j
  rw [List.getElem?_take, List.getElem?_take, List.getElem?_drop, List.getElem?_drop]
  split
  next hj => exact h (start + j) (by omega) (by omega)
  · rfl

namespace Word

/-! ### Bytes -/

@[simp] theorem ofBytes_bytes (w : Word) : ofBytes w.bytes = w := by
  apply UInt64.toNat_inj.mp
  rw [ofBytes, bytes, ofLittleEndian_littleEndian, UInt64.toNat_ofNat']
  have := w.toNat_lt
  omega

theorem bytes_ofBytes (bs : List UInt8) (h : bs.length = 8) : (ofBytes bs).bytes = bs := by
  have hl := ofLittleEndian_lt bs
  rw [h] at hl
  rw [bytes, ofBytes, UInt64.toNat_ofNat', Nat.mod_eq_of_lt (by omega), ← h]
  exact littleEndian_ofLittleEndian bs

theorem ofBytes_eq_iff {bs : List UInt8} (h : bs.length = 8) {w : Word} :
    ofBytes bs = w ↔ bs = w.bytes := by
  constructor
  · rintro rfl
    exact (bytes_ofBytes bs h).symm
  · rintro rfl
    exact ofBytes_bytes w

@[simp] theorem length_flatMap_bytes (ws : List Word) : (ws.flatMap bytes).length = 8 * ws.length := by
  induction ws with
  | nil => rfl
  | cons w ws ih =>
    rw [List.flatMap_cons, List.length_append, ih, length_bytes, List.length_cons]
    omega

theorem listOfBytes_append {bs : List UInt8} (h : bs.length = 8) (rest : List UInt8) :
    listOfBytes (bs ++ rest) = ofBytes bs :: listOfBytes rest := by
  match bs, h with
  | [_, _, _, _, _, _, _, _], _ => rfl

theorem listOfBytes_flatMap_bytes (ws : List Word) : listOfBytes (ws.flatMap bytes) = ws := by
  induction ws with
  | nil => rfl
  | cons w ws ih => rw [List.flatMap_cons, listOfBytes_append (length_bytes w), ofBytes_bytes, ih]

theorem flatMap_bytes_listOfBytes (n : Nat) (bs : List UInt8) (h : bs.length = 8 * n) :
    (listOfBytes bs).flatMap bytes = bs := by
  induction n generalizing bs with
  | zero =>
    rw [List.length_eq_zero_iff.mp (by omega : bs.length = 0)]
    rfl
  | succ n ih =>
    have hfront : (bs.take 8).length = 8 := by rw [List.length_take]; omega
    have hback : (bs.drop 8).length = 8 * n := by rw [List.length_drop]; omega
    rw [← List.take_append_drop 8 bs, listOfBytes_append hfront, List.flatMap_cons,
      bytes_ofBytes _ hfront, ih _ hback]

/-! ### Arithmetic that can fail -/

theorem checkedAdd_eq_some {a b c : Word} :
    checkedAdd a b = some c ↔ a.toNat + b.toNat < 2 ^ 64 ∧ c.toNat = a.toNat + b.toNat := by
  unfold checkedAdd
  split
  next h =>
    rw [Option.some.injEq, ← UInt64.toNat_inj, UInt64.toNat_add, Nat.mod_eq_of_lt h]
    exact ⟨fun hc => ⟨h, hc.symm⟩, fun hc => hc.2.symm⟩
  next h => exact ⟨nofun, fun hc => absurd hc.1 h⟩

theorem checkedMul_eq_some {a b c : Word} :
    checkedMul a b = some c ↔ a.toNat * b.toNat < 2 ^ 64 ∧ c.toNat = a.toNat * b.toNat := by
  unfold checkedMul
  split
  next h =>
    rw [Option.some.injEq, ← UInt64.toNat_inj, UInt64.toNat_mul, Nat.mod_eq_of_lt h]
    exact ⟨fun hc => ⟨h, hc.symm⟩, fun hc => hc.2.symm⟩
  next h => exact ⟨nofun, fun hc => absurd hc.1 h⟩

theorem checkedProduct_pair {a b n : Word} :
    checkedProduct [a, b] = some n ↔ a.toNat * b.toNat < 2 ^ 64 ∧ n.toNat = a.toNat * b.toNat := by
  have hone : checkedMul 1 a = some a :=
    checkedMul_eq_some.mpr ⟨by simpa using a.toNat_lt, by simp⟩
  simp only [checkedProduct, List.foldlM, hone, Option.bind_eq_bind, Option.bind_some,
    Option.bind_eq_some_iff, checkedMul_eq_some, Option.pure_def, Option.some.injEq]
  constructor
  · rintro ⟨_, h, rfl⟩
    exact h
  · intro h
    exact ⟨n, h, rfl⟩

/-- A partial product of factors that are not zero does not pass the whole one. -/
theorem checkedProduct_triple {a b c n : Word} (h : 0 < c.toNat) :
    checkedProduct [a, b, c] = some n ↔
      a.toNat * b.toNat * c.toNat < 2 ^ 64 ∧ n.toNat = a.toNat * b.toNat * c.toNat := by
  have hone : checkedMul 1 a = some a :=
    checkedMul_eq_some.mpr ⟨by simpa using a.toNat_lt, by simp⟩
  simp only [checkedProduct, List.foldlM, hone, Option.bind_eq_bind, Option.bind_some,
    Option.bind_eq_some_iff, checkedMul_eq_some, Option.pure_def, Option.some.injEq]
  constructor
  · rintro ⟨m, ⟨-, hm⟩, _, hn, rfl⟩
    rwa [hm] at hn
  · rintro ⟨hlt, hn⟩
    have hle : a.toNat * b.toNat ≤ a.toNat * b.toNat * c.toNat := Nat.le_mul_of_pos_right _ h
    have hm : (a * b).toNat = a.toNat * b.toNat := by
      rw [UInt64.toNat_mul, Nat.mod_eq_of_lt (by omega)]
    exact ⟨a * b, ⟨by omega, hm⟩, n, by rw [hm]; exact ⟨hlt, hn⟩, rfl⟩

/-! ### Next words and differences -/

theorem toNat_succ {w : Word} (h : w.toNat + 1 < 2 ^ 64) : (w + 1).toNat = w.toNat + 1 := by
  rw [UInt64.toNat_add]
  exact Nat.mod_eq_of_lt h

theorem toNat_sub_ofNat {w : Word} {n : Nat} (h : n ≤ w.toNat) :
    (w - UInt64.ofNat n).toNat = w.toNat - n := by
  have hn : (UInt64.ofNat n).toNat = n := UInt64.toNat_ofNat_of_lt' (Nat.lt_of_le_of_lt h w.toNat_lt)
  rw [UInt64.toNat_sub_of_le _ _ (UInt64.le_iff_toNat_le.mpr (hn.symm ▸ h)), hn]

/-! ### Ranges -/

theorem range_eq (start stop : Word) :
    range start stop = (List.range' start.toNat (stop.toNat - start.toNat)).map UInt64.ofNat := by
  rw [range, List.range'_eq_map_range, List.map_map]
  refine List.map_congr_left fun i _ => ?_
  rw [Function.comp_apply, UInt64.ofNat_add, UInt64.ofNat_toNat]

theorem range_zero (stop : Word) : range 0 stop = (List.range stop.toNat).map UInt64.ofNat := by
  rw [range_eq, List.range_eq_range']
  rfl

theorem getElem?_range (start stop : Word) (i : Nat) : (range start stop)[i]? =
    if start.toNat + i < stop.toNat then some (UInt64.ofNat (start.toNat + i)) else none := by
  rw [range_eq, List.getElem?_map]
  split
  next hi => rw [List.getElem?_range' (by omega), Nat.one_mul, Option.map_some]
  next hi => rw [List.getElem?_eq_none (by rw [List.length_range']; omega), Option.map_none]

theorem mem_range {start stop w : Word} : w ∈ range start stop ↔ start ≤ w ∧ w < stop := by
  rw [range_eq, List.mem_map, UInt64.le_iff_toNat_le, UInt64.lt_iff_toNat_lt]
  have hstop := stop.toNat_lt
  constructor
  · rintro ⟨i, hi, rfl⟩
    obtain ⟨hfrom, hto⟩ := List.mem_range'_1.mp hi
    rw [UInt64.toNat_ofNat_of_lt' (show i < 2 ^ 64 by omega)]
    exact ⟨hfrom, by omega⟩
  · rintro ⟨hfrom, hto⟩
    exact ⟨w.toNat, List.mem_range'_1.mpr ⟨hfrom, by omega⟩, UInt64.ofNat_toNat⟩

/-! ### Signed words -/

theorem toInt64_neg_iff (w : Word) : w.toInt64 < 0 ↔ 2 ^ 63 ≤ w.toNat := by
  have htoNat : w.toBitVec.toNat = w.toNat := rfl
  rw [Int64.lt_iff_toInt_lt]
  change w.toBitVec.toInt < 0 ↔ _
  rw [BitVec.toInt_neg_iff]
  omega

theorem toInt_toInt64 {w : Word} (h : w.toNat < 2 ^ 63) : w.toInt64.toInt = w.toNat := by
  have hsmall : 2 * w.toBitVec.toNat < 2 ^ 64 := by
    change 2 * w.toNat < 2 ^ 64
    omega
  exact BitVec.toInt_eq_toNat_of_lt hsmall

/-! ### Powers of two -/

theorem isPowerOfTwo_iff {w : Word} : w.isPowerOfTwo = true ↔ ∃ k, w.toNat = 2 ^ k := by
  change ((w != 0 && (w &&& (w - 1)) == 0) = true) ↔ w.toNat.isPowerOfTwo
  rw [Bool.and_eq_true, bne_iff_ne, beq_iff_eq, ← toNat_pos_iff, Nat.pos_iff_ne_zero]
  by_cases h : w.toNat = 0
  · refine iff_of_false (fun hw => hw.1 h) ?_
    rw [h]
    exact fun ⟨k, hk⟩ => absurd hk (Nat.ne_of_lt (Nat.two_pow_pos k))
  · have hone : (1 : Word) ≤ w := UInt64.le_iff_toNat_le.mpr (Nat.one_le_iff_ne_zero.mpr h)
    rw [← UInt64.toNat_inj, UInt64.toNat_and, UInt64.toNat_sub_of_le _ _ hone, and_iff_right h]
    exact Nat.and_sub_one_eq_zero_iff_isPowerOfTwo h

theorem isPowerOfTwo_max {a b : Word} (ha : a.isPowerOfTwo = true) (hb : b.isPowerOfTwo = true) :
    (max a b).isPowerOfTwo = true := by
  obtain h | h : max a b = a ∨ max a b = b := by
    change (if a ≤ b then b else a) = a ∨ (if a ≤ b then b else a) = b
    split <;> simp
  · rw [h]
    exact ha
  · rw [h]
    exact hb

end Word

end AccelKrylov
