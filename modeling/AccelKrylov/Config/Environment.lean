import AccelKrylov.Config.Basic
import AccelKrylov.Text.Numeral

/-! Settings from named texts, such as a process's environment. What is not set keeps its standard value,
empty paths count as not set, and the first text that cannot be read is reported. -/

namespace AccelKrylov.Settings

/-- Any number but zero means yes. -/
def readFlag (raw : String) : Except Error Bool :=
  match Text.integer? (Text.trim raw.toList) with
  | some n =>
    if Int64.minValue.toInt ≤ n ∧ n ≤ Int64.maxValue.toInt then .ok (decide (n ≠ 0)) else .error fault
  | none => .error fault
where
  fault : Error :=
    .invalidConfiguration (offloadVariable ++ " must be an integer, got " ++ Text.quote raw)

/-- A positive number of at most 64 bits. -/
def readCount (variableName raw : String) : Except Error Word :=
  match Text.natural? (Text.trim raw.toList) with
  | some n =>
    if 0 < n ∧ n < UInt64.size then .ok (UInt64.ofNat n) else .error fault
  | none => .error fault
where
  fault : Error :=
    .invalidConfiguration (variableName ++ " must be a positive integer, got " ++ Text.quote raw)

/-- Reads a text that may be missing. -/
def readOr {β : Type} (standard : β) (read : String → Except Error β) :
    Option String → Except Error β
  | none => .ok standard
  | some raw => read raw

/-- The settings that a look-up of names gives. -/
def ofLookup (processors : Word) (lookUp : String → Option String) : Except Error Settings := do
  let s := standard processors
  let offload ← readOr s.offload readFlag (lookUp offloadVariable)
  let firmwareDirectory := (lookUp firmwareVariable).filter fun d => !d.isEmpty
  let devicePath := ((lookUp deviceVariable).filter fun d => !d.isEmpty).getD s.devicePath
  let workers ← readOr s.pool.workers (readCount threadsVariable) (lookUp threadsVariable)
  let chunkRows ← readOr s.pool.chunkRows (readCount chunkRowsVariable) (lookUp chunkRowsVariable)
  return { s with offload, firmwareDirectory, devicePath, pool := ⟨workers, chunkRows⟩ }

end AccelKrylov.Settings
