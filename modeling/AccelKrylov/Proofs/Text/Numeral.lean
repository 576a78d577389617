import AccelKrylov.Text.Numeral
import Mathlib.Data.List.TakeWhile
import Mathlib.Data.Nat.Digits.Defs

/-! The texts that spell numbers: one or more of the ten digits, the first of which counts most, behind a sign
if there is one, with blanks around it. Reading a text gives the number that it spells, and texts that spell
none are not read. -/

namespace AccelKrylov.Text

variable {cs core : List Char} {c : Char} {d n : Nat}

/-! ### Digits -/

/-- One or more digits. -/
def IsNumeral (cs : List Char) : Prop := cs ≠ [] ∧ ∀ c ∈ cs, c.isDigit = true

/-- What digits stand for in the decimal system. -/
def decimal (cs : List Char) : Nat := Nat.ofDigits 10 (cs.reverse.map fun c => c.toNat - '0'.toNat)

theorem decimal_cons (c : Char) (cs : List Char) :
    decimal (c :: cs) = (c.toNat - '0'.toNat) * 10 ^ cs.length + decimal cs := by
  unfold decimal
  rw [List.reverse_cons, List.map_append, Nat.ofDigits_append, List.map_singleton,
    Nat.ofDigits_singleton, List.length_map, List.length_reverse, Nat.mul_comm, Nat.add_comm]

theorem isDigit_iff : c.isDigit = true ↔ '0' ≤ c ∧ c ≤ '9' := by
  unfold Char.isDigit
  rw [Bool.and_eq_true, decide_eq_true_eq, decide_eq_true_eq]
  rfl

theorem digit?_eq_some_iff : digit? c = some d ↔ c.isDigit = true ∧ d = c.toNat - '0'.toNat := by
  unfold digit?
  rw [isDigit_iff, Option.ite_none_right_eq_some, Option.some.injEq, eq_comm (a := d)]

/-- Digits continue a number in the decimal system. -/
theorem digitsFrom?_eq_some_iff {m : Nat} : digitsFrom? n cs = some m ↔
    (∀ c ∈ cs, c.isDigit = true) ∧ m = n * 10 ^ cs.length + decimal cs := by
  induction cs generalizing n with
  | nil =>
    rw [digitsFrom?, Option.some.injEq, eq_comm]
    simp [decimal]
  | cons c cs ih =>
    rw [digitsFrom?, List.forall_mem_cons, decimal_cons, List.length_cons]
    constructor
    · intro h
      obtain ⟨d, hd, hrest⟩ := Option.bind_eq_some_iff.mp h
      obtain ⟨hc, rfl⟩ := digit?_eq_some_iff.mp hd
      obtain ⟨hcs, rfl⟩ := ih.mp hrest
      exact ⟨⟨hc, hcs⟩, by ring⟩
    · rintro ⟨⟨hc, hcs⟩, rfl⟩
      exact Option.bind_eq_some_iff.mpr
        ⟨_, digit?_eq_some_iff.mpr ⟨hc, rfl⟩, ih.mpr ⟨hcs, by ring⟩⟩

theorem digits?_eq_some_iff : digits? cs = some n ↔ IsNumeral cs ∧ n = decimal cs := by
  cases cs with
  | nil => exact ⟨nofun, fun h => absurd rfl h.1.1⟩
  | cons c cs =>
    change digitsFrom? 0 (c :: cs) = some n ↔ _
    rw [digitsFrom?_eq_some_iff, Nat.zero_mul, Nat.zero_add]
    exact and_congr_left' ⟨fun h => ⟨List.cons_ne_nil c cs, h⟩, And.right⟩

/-! ### Signs -/

/-- A text that spells a number, maybe with a plus sign. -/
inductive SpellsNatural : List Char → Nat → Prop
  | bare {cs : List Char} (h : IsNumeral cs) : SpellsNatural cs (decimal cs)
  | plus {cs : List Char} (h : IsNumeral cs) : SpellsNatural ('+' :: cs) (decimal cs)

/-- A text that spells a number, maybe with a sign. -/
inductive SpellsInteger : List Char → Int → Prop
  | natural {cs : List Char} {n : Nat} (h : SpellsNatural cs n) : SpellsInteger cs n
  | minus {cs : List Char} (h : IsNumeral cs) : SpellsInteger ('-' :: cs) (-(decimal cs : Int))

theorem not_isNumeral_of_sign (h : c.isDigit = false) : ¬IsNumeral (c :: cs) := fun hcs => by
  rw [hcs.2 c List.mem_cons_self] at h
  cases h

theorem natural?_eq_some_iff : natural? cs = some n ↔ SpellsNatural cs n := by
  unfold natural?
  split
  next cs =>
    rw [digits?_eq_some_iff]
    constructor
    · rintro ⟨hcs, rfl⟩
      exact .plus hcs
    · intro h
      cases h with
      | bare h => exact absurd h (not_isNumeral_of_sign rfl)
      | plus h => exact ⟨h, rfl⟩
  next hplus =>
    rw [digits?_eq_some_iff]
    constructor
    · rintro ⟨hcs, rfl⟩
      exact .bare hcs
    · intro h
      cases h with
      | bare h => exact ⟨h, rfl⟩
      | plus h => exact absurd rfl (hplus _)

theorem integer?_eq_some_iff {n : Int} : integer? cs = some n ↔ SpellsInteger cs n := by
  unfold integer?
  split
  next cs =>
    rw [Option.map_eq_some_iff]
    constructor
    · rintro ⟨m, hm, rfl⟩
      obtain ⟨hcs, rfl⟩ := digits?_eq_some_iff.mp hm
      exact .minus hcs
    · intro h
      cases h with
      | natural h =>
        cases h with
        | bare h => exact absurd h (not_isNumeral_of_sign rfl)
      | minus h => exact ⟨_, digits?_eq_some_iff.mpr ⟨h, rfl⟩, rfl⟩
  next hminus =>
    rw [Option.map_eq_some_iff]
    constructor
    · rintro ⟨m, hm, rfl⟩
      exact .natural (natural?_eq_some_iff.mp hm)
    · intro h
      cases h with
      | natural h => exact ⟨_, natural?_eq_some_iff.mpr h, rfl⟩
      | minus h => exact absurd rfl (hminus _)

/-! ### Blanks -/

/-- A text is `core` with blanks around it. -/
inductive Padded (core : List Char) : List Char → Prop
  | mk {before after : List Char} (before_blank : ∀ c ∈ before, isBlank c = true)
    (after_blank : ∀ c ∈ after, isBlank c = true) : Padded core (before ++ core ++ after)

theorem padded_trim (cs : List Char) : Padded (trim cs) cs := by
  have hfirst := List.takeWhile_append_dropWhile (p := isBlank) (l := cs)
  have hlast := List.takeWhile_append_dropWhile (p := isBlank) (l := (cs.dropWhile isBlank).reverse)
  have hsplit : cs = cs.takeWhile isBlank ++ trim cs ++
      ((cs.dropWhile isBlank).reverse.takeWhile isBlank).reverse := by
    unfold trim
    rw [List.append_assoc, ← List.reverse_append, hlast, List.reverse_reverse, hfirst]
  have hpadded : Padded (trim cs) (cs.takeWhile isBlank ++ trim cs ++
      ((cs.dropWhile isBlank).reverse.takeWhile isBlank).reverse) :=
    .mk (fun c hc => List.mem_takeWhile_imp hc)
      fun c hc => List.mem_takeWhile_imp (List.mem_reverse.mp hc)
  rwa [← hsplit] at hpadded

/-- Behind blanks, what has no blanks is where dropping stops. -/
theorem dropWhile_isBlank {before rest : List Char} (hbefore : ∀ c ∈ before, isBlank c = true)
    (hcore : ∀ c ∈ core, isBlank c = false) (hne : core ≠ []) :
    (before ++ (core ++ rest)).dropWhile isBlank = core ++ rest := by
  cases core with
  | nil => exact absurd rfl hne
  | cons c core =>
    rw [List.dropWhile_append_of_pos hbefore, List.cons_append, List.dropWhile_cons_of_neg]
    rw [hcore c List.mem_cons_self]
    exact Bool.false_ne_true

theorem trim_eq (h : Padded core cs) (hcore : ∀ c ∈ core, isBlank c = false) (hne : core ≠ []) :
    trim cs = core := by
  obtain ⟨hbefore, hafter⟩ := h
  unfold trim
  rw [List.append_assoc, dropWhile_isBlank hbefore hcore hne, List.reverse_append,
    ← List.append_nil core.reverse, dropWhile_isBlank, List.append_nil, List.reverse_reverse]
  · exact fun c hc => hafter c (List.mem_reverse.mp hc)
  · exact fun c hc => hcore c (List.mem_reverse.mp hc)
  · exact mt List.reverse_eq_nil_iff.mp hne

theorem isBlank_of_isDigit (h : c.isDigit = true) : isBlank c = false := by
  obtain ⟨hlow, hhigh⟩ := isDigit_iff.mp h
  have hlow : 48 ≤ c.toNat := hlow
  have hhigh : c.toNat ≤ 57 := hhigh
  unfold isBlank
  simp only [Bool.or_eq_false_iff, Bool.and_eq_false_iff, decide_eq_false_iff_not, beq_eq_false_iff_ne]
  omega

/-! ### Numbers between blanks -/

theorem isBlank_of_isNumeral (h : IsNumeral cs) : ∀ c ∈ cs, isBlank c = false :=
  fun c hc => isBlank_of_isDigit (h.2 c hc)

namespace SpellsNatural

theorem not_blank (h : SpellsNatural cs n) : ∀ c ∈ cs, isBlank c = false := by
  cases h with
  | bare h => exact isBlank_of_isNumeral h
  | plus h => exact List.forall_mem_cons.mpr ⟨by decide, isBlank_of_isNumeral h⟩

theorem ne_nil (h : SpellsNatural cs n) : cs ≠ [] := by
  cases h with
  | bare h => exact h.1
  | plus h => exact List.cons_ne_nil _ _

end SpellsNatural

namespace SpellsInteger

variable {n : Int}

theorem not_blank (h : SpellsInteger cs n) : ∀ c ∈ cs, isBlank c = false := by
  cases h with
  | natural h => exact h.not_blank
  | minus h => exact List.forall_mem_cons.mpr ⟨by decide, isBlank_of_isNumeral h⟩

theorem ne_nil (h : SpellsInteger cs n) : cs ≠ [] := by
  cases h with
  | natural h => exact h.ne_nil
  | minus h => exact List.cons_ne_nil _ _

end SpellsInteger

/-- Between blanks stands a text that spells the number, maybe with a plus sign. -/
def DenotesNatural (raw : String) (n : Nat) : Prop :=
  ∃ core, Padded core raw.toList ∧ SpellsNatural core n

/-- Between blanks stands a text that spells the number, maybe with a sign. -/
def DenotesInteger (raw : String) (n : Int) : Prop :=
  ∃ core, Padded core raw.toList ∧ SpellsInteger core n

theorem natural?_trim_eq_some_iff {raw : String} :
    natural? (trim raw.toList) = some n ↔ DenotesNatural raw n := by
  rw [natural?_eq_some_iff]
  constructor
  · exact fun h => ⟨_, padded_trim raw.toList, h⟩
  · rintro ⟨core, hpadded, hcore⟩
    rwa [trim_eq hpadded hcore.not_blank hcore.ne_nil]

theorem integer?_trim_eq_some_iff {raw : String} {n : Int} :
    integer? (trim raw.toList) = some n ↔ DenotesInteger raw n := by
  rw [integer?_eq_some_iff]
  constructor
  · exact fun h => ⟨_, padded_trim raw.toList, h⟩
  · rintro ⟨core, hpadded, hcore⟩
    rwa [trim_eq hpadded hcore.not_blank hcore.ne_nil]

/-- A text denotes no two integers. -/
theorem DenotesInteger.unique {raw : String} {m n : Int} (hm : DenotesInteger raw m)
    (hn : DenotesInteger raw n) : m = n :=
  Option.some.inj ((integer?_trim_eq_some_iff.mpr hm).symm.trans (integer?_trim_eq_some_iff.mpr hn))

end AccelKrylov.Text
