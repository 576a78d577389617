/-! What iterative solvers need of their numbers beyond the field operations, and the vector
operations they are written in. Every operation fixes its order of evaluation, so that it can be read
over floating-point numbers as well as over an exact field. -/

namespace AccelKrylov

/-- Square roots and the tests that steer an iteration. -/
class Numeric (α : Type) where
  sqrt : α → α
  le : α → α → Bool
  /-- Equality of numbers, which need not be equality of representations. -/
  same : α → α → Bool
  isFinite : α → Bool

namespace Vec

variable {α : Type}

/-- The sum of the products of corresponding entries, added from the left to zero. -/
def dot [Zero α] [Add α] [Mul α] (a b : Array α) : α :=
  (Array.zipWith (· * ·) a b).foldl (· + ·) 0

/-- The length of a vector. -/
def norm [Zero α] [Add α] [Mul α] [Numeric α] (a : Array α) : α := Numeric.sqrt (dot a a)

/-- The vector `y + s x`; entries of `y` that `x` does not reach stay. -/
def addScaled [Add α] [Mul α] (s : α) (x y : Array α) : Array α :=
  y.mapIdx fun i yi => match x[i]? with
    | some xi => yi + s * xi
    | none => yi

/-- The vector `r + s p`; entries of `p` that `r` does not reach stay. -/
def scaleAdd [Add α] [Mul α] (r : Array α) (s : α) (p : Array α) : Array α :=
  p.mapIdx fun i pi => match r[i]? with
    | some ri => ri + s * pi
    | none => pi

/-- The zero vector of a length. Memory for it is taken to be there, also for `2 ^ 60` entries and more, which no
allocator has room for. -/
def zeros [Zero α] (n : Nat) : Array α := Array.replicate n 0

end Vec

end AccelKrylov
