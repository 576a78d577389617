import AccelKrylov.Double

/-! The shortest decimal that reads back as a given floating-point number. The number stands for an
interval of reals that round to it; the coarsest decimal grid with a point in that interval gives the
fewest digits, and of two points on it the nearer one is taken. -/

namespace AccelKrylov.Decimal

/-- A positive number as a fraction, with the ends of the interval of reals that round to it over the
same denominator. -/
structure Interval where
  low : Nat
  value : Nat
  high : Nat
  denominator : Nat
  /-- The ends round to the number too. -/
  closed : Bool

namespace Interval

/-- The interval of a positive finite number, from its significand and exponent fields. Below a power of
two the gap to the next number is half as wide. -/
def ofFields (fraction exponent : Nat) : Interval :=
  let m := if exponent = 0 then fraction else fraction + 0x10000000000000
  let e := max exponent 1
  let below := if fraction = 0 ∧ 1 < exponent then 1 else 2
  let up := 1 <<< (e - 1075)
  let down := 1 <<< (1075 - e)
  ⟨(4 * m - below) * up, 4 * m * up, (4 * m + 2) * up, 4 * down, m % 2 == 0⟩

/-- The fraction `n / d` lies in the interval. -/
def contains (i : Interval) (n d : Nat) : Bool :=
  let x := n * i.denominator
  if i.closed then decide (i.low * d ≤ x ∧ x ≤ i.high * d)
  else decide (i.low * d < x ∧ x < i.high * d)

/-- The point of the grid `10 ^ k` in the interval that is nearest to the number, in units of the grid;
of two equally near ones the greater one. -/
def onGrid (i : Interval) (k : Int) : Option Nat :=
  let up := Nat.pow 10 k.toNat
  let down := Nat.pow 10 (-k).toNat
  let floor := i.value * down / (i.denominator * up)
  let twice := 2 * i.value * down
  let middle := (2 * floor + 1) * i.denominator * up
  match i.contains (floor * up) down, i.contains ((floor + 1) * up) down with
  | true, true =>
    some (if twice < middle then floor else floor + 1)
  | true, false => some floor
  | false, true => some (floor + 1)
  | false, false => none

/-- The first of `n` ever finer grids, from `10 ^ k` on, that has a point in the interval. -/
def search (i : Interval) : (n : Nat) → (k : Int) → Option (Nat × Int)
  | 0, _ => none
  | n + 1, k => match i.onGrid k with
    | some d => some (d, k)
    | none => search i n (k - 1)

end Interval

/-- Digits and an exponent of ten. -/
structure Digits where
  digits : Nat
  exponent : Int

/-- The shortest digits of a positive finite number; no such number is above `10 ^ 309` or needs a grid
finer than `10 ^ -1074`. -/
def shortest (d : Double) : Digits :=
  let i := Interval.ofFields (d.bits &&& 0xfffffffffffff).toNat (d.bits >>> 52 &&& 0x7ff).toNat
  match i.search 1384 309 with
  | some (digits, exponent) => ⟨digits, exponent⟩
  | none => ⟨i.value, 0⟩

/-! ### Notation -/

/-- Zeros. -/
def zeros (n : Nat) : List Char := List.replicate n '0'

/-- Digits of a positive number, written positionally from `10 ^ -4` up to `10 ^ 16` with at least one
place, and else with one digit before the point and an exponent. -/
def layout (x : Digits) : List Char :=
  let ds := Nat.toDigits 10 x.digits
  let point : Int := ds.length + x.exponent
  if point < -3 ∨ 16 < point then
    let fraction := ds.drop 1
    ds.take 1 ++ (if fraction.isEmpty then [] else '.' :: fraction) ++
      'e' :: (toString (point - 1)).toList
  else if point ≤ 0 then '0' :: '.' :: zeros (-point).toNat ++ ds
  else if x.exponent < 0 then ds.take point.toNat ++ '.' :: ds.drop point.toNat
  else ds ++ zeros x.exponent.toNat ++ ['.', '0']

/-- A floating-point number in words. -/
def write (d : Double) : String :=
  let sign : List Char := if d.bits >>> 63 = 1 then ['-'] else []
  let magnitude : Double := ⟨d.bits &&& 0x7fffffffffffffff⟩
  if d.isNaN then "NaN"
  else if magnitude.bits = 0x7ff0000000000000 then String.ofList (sign ++ ['i', 'n', 'f'])
  else if magnitude.bits = 0 then String.ofList (sign ++ ['0', '.', '0'])
  else String.ofList (sign ++ layout (shortest magnitude))

end AccelKrylov.Decimal
