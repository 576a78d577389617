import AccelKrylov.Buffer

/-! Operations on words as a machine carries them out that stops at a result which does not exist: a sum
or a difference that is no word, a quotient by zero, a slot outside an array, a table that no memory has room
for. -/

namespace AccelKrylov

/-- What stops a machine. -/
inductive Trap where
  | overflow
  | outOfRange
  | zeroDivisor
  | capacity
deriving DecidableEq

/-- A computation that ends with a result or an error, unless a trap stops it. -/
abbrev Guarded (ε : Type) := ExceptT ε (Except Trap)

namespace Guarded

variable {ε β γ : Type}

/-- What cannot be stopped. -/
def lift (x : Except ε β) : Guarded ε β := ExceptT.mk (.ok x)

def trap (t : Trap) : Guarded ε β := ExceptT.mk (.error t)

/-! ### Operations -/

def add (a b : Word) : Guarded ε Word :=
  if a.toNat + b.toNat < UInt64.size then pure (a + b) else trap .overflow

def sub (a b : Word) : Guarded ε Word := if b ≤ a then pure (a - b) else trap .overflow

def mul (a b : Word) : Guarded ε Word :=
  if a.toNat * b.toNat < UInt64.size then pure (a * b) else trap .overflow

def div (a b : Word) : Guarded ε Word := if b ≠ 0 then pure (a / b) else trap .zeroDivisor

def mod (a b : Word) : Guarded ε Word := if b ≠ 0 then pure (a % b) else trap .zeroDivisor

def get (values : Array β) (index : Word) : Guarded ε β :=
  match values[index.toNat]? with
  | some v => pure v
  | none => trap .outOfRange

/-- A table of zeros, each of which takes eight bytes and begins at a multiple of eight. One that is too large for a
block cannot be had; memory for every other one is taken to be there. -/
def zeros (size : Word) : Guarded ε (Array Word) :=
  if size.toNat * 8 + 8 ≤ largestBlock then pure (Array.replicate size.toNat 0) else trap .capacity

/-- The bytes from `start` up to `stop`. -/
def slice (bytes : List UInt8) (start stop : Word) : Guarded ε (List UInt8) :=
  if start ≤ stop ∧ stop.toNat ≤ bytes.length then
    pure ((bytes.drop start.toNat).take (stop.toNat - start.toNat))
  else trap .outOfRange

/-- The quotient rounded up. -/
def ceilDiv (a b : Word) : Guarded ε Word := do
  let quotient ← div a b
  let remainder ← mod a b
  if 0 < remainder then add quotient 1 else return quotient

/-- The next multiple of a power of two, found by clearing the low bits. -/
def alignUp (offset align : Word) : Guarded ε Word := do
  let top ← sub (← add offset align) 1
  let low ← sub align 1
  return top &&& ~~~low

end Guarded

end AccelKrylov
