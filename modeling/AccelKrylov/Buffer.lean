import AccelKrylov.Word

/-! Blocks of zeroed memory whose address is a multiple of a power of two, and writing into a stretch of
bytes without leaving it. -/

namespace AccelKrylov

/-! ### Overwriting bytes -/

/-- The bytes with `patch` put over those from `offset` on, if that is within them. -/
def overwrite (bytes : List UInt8) (offset : Nat) (patch : List UInt8) : Option (List UInt8) :=
  if offset + patch.length ≤ bytes.length then
    some (bytes.take offset ++ patch ++ bytes.drop (offset + patch.length))
  else none

theorem length_of_overwrite {bytes patch out : List UInt8} {offset : Nat}
    (h : overwrite bytes offset patch = some out) : out.length = bytes.length := by
  unfold overwrite at h
  split at h
  · cases h
    simp
    omega
  · cases h

/-! ### Aligned blocks -/

/-- Why a block cannot be had. -/
inductive AllocationError where
  /-- The alignment is no power of two, or the size rounded up to it passes the largest signed word. -/
  | layout (size : Nat) (align : Word)
  /-- No memory is left for it. -/
  | exhausted (size : Nat) (align : Word)
deriving DecidableEq

/-- A block and its alignment take no more than this, which no signed word passes. -/
def largestBlock : Nat := 0x8000000000000000

/-- More memory than this no process can address. -/
def addressSpace : Nat := 0x800000000000

structure Buffer where
  bytes : List UInt8
  align : Word
deriving DecidableEq

namespace Buffer

/-- A zeroed block; an empty one still occupies a byte. -/
def zeroed (size : Nat) (align : Word) : Except AllocationError Buffer := do
  let occupied := max size 1
  ensure (align.isPowerOfTwo = true ∧ occupied + align.toNat ≤ largestBlock) (.layout size align)
  ensure (occupied + align.toNat ≤ addressSpace) (.exhausted size align)
  .ok ⟨List.replicate size 0, align⟩

/-- A block is had exactly when it can be addressed. -/
theorem zeroed_eq {align : Word} (h : align.isPowerOfTwo = true) (size : Nat) :
    zeroed size align =
      if max size 1 + align.toNat ≤ addressSpace then .ok ⟨List.replicate size 0, align⟩
      else .error
        (if max size 1 + align.toNat ≤ largestBlock then .exhausted size align else .layout size align) := by
  unfold zeroed ensure
  simp only [h, true_and]
  by_cases hlayout : max size 1 + align.toNat ≤ largestBlock
  · by_cases hmemory : max size 1 + align.toNat ≤ addressSpace
    · simp only [if_pos hlayout, if_pos hmemory]
      rfl
    · simp only [if_pos hlayout, if_neg hmemory]
      rfl
  · have hmemory : ¬ max size 1 + align.toNat ≤ addressSpace := by
      unfold largestBlock at hlayout
      unfold addressSpace
      omega
    simp only [if_neg hlayout, if_neg hmemory]
    rfl

def size (b : Buffer) : Nat := b.bytes.length

def isEmpty (b : Buffer) : Bool := b.bytes.isEmpty

/-- The block with bytes put over those from `offset` on, if that is within it. -/
def write (b : Buffer) (offset : Nat) (patch : List UInt8) : Option Buffer :=
  (overwrite b.bytes offset patch).map fun bytes => { b with bytes }

/-- The block in words, its address as given. -/
def describe (b : Buffer) (address : String) : String :=
  s!"AlignedBuffer \x7b address: {address}, len: " ++ toString b.size ++ ", align: " ++
    toString b.align ++ " \x7d"

end Buffer

end AccelKrylov
