import AccelKrylov.Proofs.Word
import AccelKrylov.Trap

/-! When a machine that stops at traps is stopped, and what is known once it was not. Each of its operations has
then come to the plain result; a loop is stopped only if one of its steps is. -/

namespace AccelKrylov.Guarded

variable {ε β γ ι : Type}

/-! ### Operations that are not stopped -/

/-- Behind a step that cannot be stopped, only its results matter. -/
theorem lift_bind {x : Except ε β} {k : β → Guarded ε γ} {k' : β → Except ε γ}
    (h : ∀ b, x = .ok b → k b = lift (k' b)) : (lift x >>= k) = lift (x >>= k') := by
  cases x with
  | error e => rfl
  | ok b => exact h b rfl

theorem add_eq {a b : Word} (h : a.toNat + b.toNat < 2 ^ 64) :
    (add a b : Guarded ε Word) = pure (a + b) := if_pos h

theorem sub_eq {a b : Word} (h : b ≤ a) : (sub a b : Guarded ε Word) = pure (a - b) := if_pos h

theorem mul_eq {a b : Word} (h : a.toNat * b.toNat < 2 ^ 64) :
    (mul a b : Guarded ε Word) = pure (a * b) := if_pos h

/-- Counting one further. -/
theorem add_one_eq {a : Word} (h : a.toNat + 1 < 2 ^ 64) : (add a 1 : Guarded ε Word) = pure (a + 1) :=
  add_eq h

theorem div_eq (a : Word) {b : Word} (h : b ≠ 0) : (div a b : Guarded ε Word) = pure (a / b) := if_pos h

theorem mod_eq (a : Word) {b : Word} (h : b ≠ 0) : (mod a b : Guarded ε Word) = pure (a % b) := if_pos h

theorem get_eq {values : Array β} {index : Word} {v : β} (h : values[index.toNat]? = some v) :
    (get values index : Guarded ε β) = pure v := by
  unfold get
  rw [h]

theorem zeros_eq {size : Word} (h : size.toNat < 2 ^ 60) :
    (zeros size : Guarded ε (Array Word)) = pure (Array.replicate size.toNat 0) :=
  if_pos (by unfold largestBlock; omega)

theorem slice_eq {bytes : List UInt8} {start stop : Word} (h : start ≤ stop)
    (hstop : stop.toNat ≤ bytes.length) : (slice bytes start stop : Guarded ε (List UInt8)) =
      pure ((bytes.drop start.toNat).take (stop.toNat - start.toNat)) := if_pos ⟨h, hstop⟩

/-! ### Operations that are stopped -/

theorem add_eq_trap {a b : Word} (h : 2 ^ 64 ≤ a.toNat + b.toNat) :
    (add a b : Guarded ε Word) = trap .overflow := if_neg (Nat.not_lt.mpr h)

theorem mul_eq_trap {a b : Word} (h : 2 ^ 64 ≤ a.toNat * b.toNat) :
    (mul a b : Guarded ε Word) = trap .overflow := if_neg (Nat.not_lt.mpr h)

theorem zeros_eq_trap {size : Word} (h : 2 ^ 60 ≤ size.toNat) :
    (zeros size : Guarded ε (Array Word)) = trap .capacity := if_neg (by unfold largestBlock; omega)

/-! ### Rounding -/

/-- Rounding a quotient up never leaves the words: only a divisor of two or more leaves a remainder. -/
theorem ceilDiv_eq (a : Word) {b : Word} (h : b ≠ 0) :
    (ceilDiv a b : Guarded ε Word) = pure (Word.ceilDiv a b) := by
  unfold ceilDiv
  rw [div_eq a h, mod_eq a h]
  change (if 0 < a % b then add (a / b) 1 else pure (a / b)) = _
  unfold Word.ceilDiv
  split
  next hpos =>
    have hpos := UInt64.lt_iff_toNat_lt.mp hpos
    have hlt := Nat.mod_lt a.toNat (Word.toNat_pos_iff.mpr h)
    have hle : a.toNat / b.toNat ≤ a.toNat / 2 := by
      rw [UInt64.toNat_mod, UInt64.toNat_zero] at hpos
      exact Nat.div_le_div_left (by omega) (by omega)
    have ha := a.toNat_lt
    have hne : a % b ≠ 0 := Word.toNat_pos_iff.mp hpos
    rw [if_neg hne, add_one_eq]
    rw [UInt64.toNat_div]
    omega
  next hzero =>
    have hzero : a % b = 0 := Decidable.not_not.mp fun hne =>
      hzero (UInt64.lt_iff_toNat_lt.mpr (Word.toNat_pos_iff.mpr hne))
    rw [if_pos hzero]
    simp

/-- Clearing the low `k` bits of a word takes away its remainder by `2 ^ k`. -/
theorem toNat_and_not_low {k : Nat} {a low : Word} (hlow : low.toNat = 2 ^ k - 1) :
    (a &&& ~~~low).toNat = a.toNat - a.toNat % 2 ^ k := by
  have hpos := Nat.two_pow_pos k
  have hshift : a.toNat - a.toNat % 2 ^ k = a.toNat >>> k <<< k := by
    have := Nat.div_add_mod a.toNat (2 ^ k)
    rw [Nat.shiftRight_eq_div_pow, Nat.shiftLeft_eq, Nat.mul_comm]
    omega
  have hnot : (~~~low).toNat = 2 ^ 64 - (low.toNat + 1) := by
    rw [UInt64.toNat_not]
    unfold UInt64.size
    omega
  rw [hshift, UInt64.toNat_and, hnot]
  refine Nat.eq_of_testBit_eq fun i => ?_
  rw [Nat.testBit_and, Nat.testBit_two_pow_sub_succ low.toNat_lt, hlow, Nat.testBit_two_pow_sub_one,
    Nat.testBit_shiftLeft, Nat.testBit_shiftRight]
  by_cases hi : i < 64
  · by_cases hk : k ≤ i
    · simp [hi, hk, Nat.not_lt.mpr hk]
    · simp [hk, Nat.lt_of_not_le hk]
  · have hhigh : a.toNat.testBit i = false :=
      Nat.testBit_lt_two_pow (Nat.lt_of_lt_of_le a.toNat_lt
        (Nat.pow_le_pow_right (by decide) (by omega)))
    by_cases hk : k ≤ i
    · simp [hhigh, hk]
    · simp [hhigh, hk]

/-- The next multiple is where the padding ends. -/
theorem alignUp_eq {k : Nat} {offset align : Word} (halign : align.toNat = 2 ^ k)
    (h : offset.toNat + align.toNat < 2 ^ 64) : (alignUp offset align : Guarded ε Word) =
      pure (UInt64.ofNat (offset.toNat + padding offset.toNat align.toNat)) := by
  have hpos := Nat.two_pow_pos k
  have hone : (1 : Word).toNat = 1 := rfl
  have hsum : (offset + align).toNat = offset.toNat + align.toNat := by
    rw [UInt64.toNat_add, Nat.mod_eq_of_lt h]
  have htop_le : (1 : Word) ≤ offset + align := by rw [UInt64.le_iff_toNat_le]; omega
  have hlow_le : (1 : Word) ≤ align := by rw [UInt64.le_iff_toNat_le]; omega
  have htop : (offset + align - 1).toNat = offset.toNat + align.toNat - 1 := by
    rw [UInt64.toNat_sub_of_le _ _ htop_le, hsum, hone]
  have hlow : (align - 1).toNat = 2 ^ k - 1 := by
    rw [UInt64.toNat_sub_of_le _ _ hlow_le, halign, hone]
  unfold alignUp
  simp only [add_eq h, sub_eq htop_le, sub_eq hlow_le, pure_bind]
  congr 1
  apply UInt64.toNat_inj.mp
  have hpad := padding_lt offset.toNat (show 0 < align.toNat by omega)
  rw [toNat_and_not_low hlow, htop, ← halign,
    UInt64.toNat_ofNat_of_lt' (show _ < 2 ^ 64 by omega), add_padding _ (by omega)]

/-! ### Conditions -/

theorem lift_ensure {p : Prop} [Decidable p] {fault : ε} (h : p) :
    lift (ensure p fault) = (pure () : Guarded ε Unit) := by
  rw [ensure, if_pos h]
  rfl

theorem lift_ensure_bind_of_not {p : Prop} [Decidable p] {fault : ε} {k : Unit → Guarded ε β} (h : ¬ p) :
    (lift (ensure p fault) >>= k) = lift (.error fault) := by
  rw [ensure, if_neg h]
  rfl

/-! ### Computations that are not stopped -/

theorem pure_inj {b c : β} : (pure b : Guarded ε β) = pure c ↔ b = c :=
  ⟨fun h => Except.ok.inj (Except.ok.inj h), fun h => h ▸ rfl⟩

theorem bind_eq_pure {x : Guarded ε β} {k : β → Guarded ε γ} {c : γ} :
    (x >>= k) = pure c ↔ ∃ b, x = pure b ∧ k b = pure c := by
  constructor
  · intro h
    match x with
    | .ok (.ok b) => exact ⟨b, rfl, h⟩
    | .ok (.error e) => cases h
    | .error t => cases h
  · rintro ⟨b, rfl, h⟩
    exact h

/-- A result that is there under a condition only. -/
theorem ite_trap_eq_pure {p : Prop} [Decidable p] {b c : β} {t : Trap} :
    (if p then pure b else trap t : Guarded ε β) = pure c ↔ p ∧ b = c := by
  split
  next hp => rw [pure_inj, and_iff_right hp]
  next hp => exact ⟨nofun, fun h => absurd h.1 hp⟩

theorem of_add {a b c : Word} (h : (add a b : Guarded ε Word) = pure c) : a + b = c :=
  (ite_trap_eq_pure.mp h).2

theorem toNat_of_add {a b c : Word} (h : (add a b : Guarded ε Word) = pure c) :
    c.toNat = a.toNat + b.toNat := by
  obtain ⟨hlt, rfl⟩ := ite_trap_eq_pure.mp h
  rw [UInt64.toNat_add, Nat.mod_eq_of_lt hlt]

theorem of_sub {a b c : Word} (h : (sub a b : Guarded ε Word) = pure c) : a - b = c :=
  (ite_trap_eq_pure.mp h).2

theorem of_mul {a b c : Word} (h : (mul a b : Guarded ε Word) = pure c) : a * b = c :=
  (ite_trap_eq_pure.mp h).2

theorem of_div {a b c : Word} (h : (div a b : Guarded ε Word) = pure c) : a / b = c :=
  (ite_trap_eq_pure.mp h).2

theorem of_mod {a b c : Word} (h : (mod a b : Guarded ε Word) = pure c) : a % b = c :=
  (ite_trap_eq_pure.mp h).2

theorem of_get {values : Array β} {index : Word} {v : β} (h : (get values index : Guarded ε β) = pure v)
    (default : β) : values.getD index.toNat default = v := by
  unfold get at h
  split at h
  next hv =>
    obtain rfl := pure_inj.mp h
    rw [Array.getD_eq_getD_getElem?, hv, Option.getD_some]
  · cases h

theorem of_mapM {l : List ι} {f : ι → Guarded ε β} {g : ι → β} {r : List β}
    (h : l.mapM f = pure r) (hg : ∀ a b, f a = pure b → g a = b) : l.map g = r := by
  induction l generalizing r with
  | nil => exact pure_inj.mp h
  | cons a l ih =>
    rw [List.mapM_cons] at h
    obtain ⟨b, hb, h⟩ := bind_eq_pure.mp h
    obtain ⟨bs, hbs, h⟩ := bind_eq_pure.mp h
    obtain rfl := pure_inj.mp h
    rw [List.map_cons, hg a b hb, ih hbs]

/-! ### Loops -/

theorem mapM_eq_pure {l : List ι} {f : ι → Guarded ε β} {g : ι → β} (h : ∀ a ∈ l, f a = pure (g a)) :
    l.mapM f = pure (l.map g) := by
  induction l with
  | nil => rfl
  | cons a l ih =>
    obtain ⟨ha, hl⟩ := List.forall_mem_cons.mp h
    rw [List.mapM_cons, ha, ih hl]
    rfl

theorem mapM_eq_map {l : List Nat} {f : Word → Guarded ε β} {g : Nat → β}
    (h : ∀ i ∈ l, f (UInt64.ofNat i) = pure (g i)) :
    (l.map UInt64.ofNat).mapM f = pure (l.map g) :=
  List.mapM_map.trans (mapM_eq_pure h)

theorem mapM_eq_filterMap {l : List Nat} {f : Word → Guarded ε β} {g : Nat → Option γ} {out : γ → β}
    (h : ∀ i ∈ l, ∃ c, g i = some c ∧ f (UInt64.ofNat i) = pure (out c)) :
    (l.map UInt64.ofNat).mapM f = pure ((l.filterMap g).map out) := by
  induction l with
  | nil => rfl
  | cons i l ih =>
    obtain ⟨⟨c, hc, hi⟩, hl⟩ := List.forall_mem_cons.mp h
    rw [List.map_cons, List.mapM_cons, hi, ih hl, List.filterMap_cons_some hc]
    rfl

/-- A loop over steps that a trap may stop is stopped if one of them is. -/
theorem mapM_eq_trap {l : List Nat} {f : Word → Guarded ε β} {t : Trap}
    (h : ∀ i ∈ l, (∃ b, f (UInt64.ofNat i) = pure b) ∨ f (UInt64.ofNat i) = trap t)
    (hstops : ∃ i ∈ l, f (UInt64.ofNat i) = trap t) : (l.map UInt64.ofNat).mapM f = trap t := by
  induction l with
  | nil =>
    obtain ⟨i, hi, -⟩ := hstops
    cases hi
  | cons i l ih =>
    obtain ⟨hi, hl⟩ := List.forall_mem_cons.mp h
    rw [List.map_cons, List.mapM_cons]
    obtain ⟨b, hb⟩ | htrap := hi
    · obtain ⟨j, hj, htrap⟩ := hstops
      obtain rfl | hj := List.mem_cons.mp hj
      · rw [htrap]
        rfl
      · rw [hb, ih hl ⟨j, hj, htrap⟩]
        rfl
    · rw [htrap]
      rfl

/-- A loop whose steps are not stopped while something holds that they keep. -/
theorem foldlM_eq_pure_foldl {l : List ι} {f : β → ι → Guarded ε β} {g : β → ι → β} (keeps : β → Prop)
    (h : ∀ a ∈ l, ∀ b, keeps b → f b a = pure (g b a) ∧ keeps (g b a)) {b : β} (hb : keeps b) :
    l.foldlM f b = pure (l.foldl g b) := by
  induction l generalizing b with
  | nil => rfl
  | cons a l ih =>
    obtain ⟨ha, hl⟩ := List.forall_mem_cons.mp h
    obtain ⟨hstep, hnext⟩ := ha b hb
    rw [List.foldlM_cons, hstep, pure_bind, List.foldl_cons]
    exact ih hl hnext

/-! ### Entries -/

/-- Setting an entry to something made of it is modifying it. -/
theorem setIfInBounds_getElem {values : Array β} {i : Nat} (h : i < values.size) (f : β → β) :
    values.setIfInBounds i (f values[i]) = values.modify i f := by
  refine Array.ext_getElem? fun j => ?_
  rw [Array.getElem?_setIfInBounds, Array.getElem?_modify]
  split
  next hj => rw [← hj, Array.getElem?_eq_getElem h, Option.map_some]
  · rfl

/-! ### Words from numbers -/

theorem add_ofNat {a b : Nat} (h : a + b < 2 ^ 64) :
    (add (UInt64.ofNat a) (UInt64.ofNat b) : Guarded ε Word) = pure (UInt64.ofNat (a + b)) := by
  have ha : (UInt64.ofNat a).toNat = a := UInt64.toNat_ofNat_of_lt' (show a < 2 ^ 64 by omega)
  have hb : (UInt64.ofNat b).toNat = b := UInt64.toNat_ofNat_of_lt' (show b < 2 ^ 64 by omega)
  rw [add_eq (by rw [ha, hb]; exact h), UInt64.ofNat_add]

theorem add_ofNat_eq_trap {a b : Nat} (ha : a < 2 ^ 64) (hb : b < 2 ^ 64) (h : 2 ^ 64 ≤ a + b) :
    (add (UInt64.ofNat a) (UInt64.ofNat b) : Guarded ε Word) = trap .overflow := by
  rw [add_eq_trap (by rw [UInt64.toNat_ofNat_of_lt' ha, UInt64.toNat_ofNat_of_lt' hb]; exact h)]

theorem mul_ofNat {a : Nat} {w : Word} (ha : a < 2 ^ 64) (h : a * w.toNat < 2 ^ 64) :
    (mul (UInt64.ofNat a) w : Guarded ε Word) = pure (UInt64.ofNat (a * w.toNat)) := by
  rw [mul_eq (by rw [UInt64.toNat_ofNat_of_lt' ha]; exact h), UInt64.ofNat_mul, UInt64.ofNat_toNat]

theorem get_ofNat {values : Array β} {i : Nat} {v : β} (h : values[i]? = some v) (hi : i < 2 ^ 64) :
    (get values (UInt64.ofNat i) : Guarded ε β) = pure v :=
  get_eq (by rw [UInt64.toNat_ofNat_of_lt' hi]; exact h)

end AccelKrylov.Guarded
