import AccelKrylov.Config.Basic
import AccelKrylov.Json.Document

/-! Settings as JSON documents. Settings are an object, in which missing members keep their standard
values, unknown ones are passed over and known ones stand at most once; or an array of the values in
their order, which may stop early. -/

namespace AccelKrylov.Settings

open Json

/-! ### Reading values -/

def bool? : Document → Option Bool
  | .bool b => some b
  | _ => none

def path? : Document → Option String
  | .string s => string? s
  | _ => none

def optionalPath? : Document → Option (Option String)
  | .null => some none
  | d => (path? d).map some

/-- A whole number; zero has no sign. -/
def whole? : Document → Option Int
  | .number ⟨negative, some n⟩ =>
    if negative then (if n = 0 then none else some (-(n : Int))) else some n
  | _ => none

def word? (d : Document) : Option Word := do
  let n ← whole? d
  if 0 ≤ n ∧ n < UInt64.size then some (UInt64.ofNat n.toNat) else none

def signal? (d : Document) : Option Int32 := do
  let n ← whole? d
  if Int32.minValue.toInt ≤ n ∧ n ≤ Int32.maxValue.toInt then some (Int32.ofInt n) else none

/-! ### Reading records -/

/-- How to read a value into a record, under its name. -/
abbrev Reading (β : Type) := String × (β → Document → Option β)

/-- Reads items into the first values of a record. -/
def readItems {β : Type} : List (Reading β) → β → List Document → Option β
  | _, b, [] => some b
  | [], _, _ :: _ => none
  | (_, read) :: readings, b, d :: ds => do readItems readings (← read b d) ds

/-- Reads members into the values they name. `left` are the values that have not been read yet. -/
def readMembers {β : Type} (readings : List (Reading β)) :
    (left : List String) → β → List (Units × Document) → Option β
  | _, b, [] => some b
  | left, b, (key, d) :: rest => do
    let name ← string? key
    match readings.lookup name with
    | none => readMembers readings left b rest
    | some read =>
      if left.contains name then readMembers readings (left.erase name) (← read b d) rest
      else none

def readRecord {β : Type} (readings : List (Reading β)) (b : β) : Document → Option β
  | .array ds => readItems readings b ds
  | .object ms => readMembers readings (readings.map Prod.fst) b ms
  | _ => none

def poolReadings : List (Reading PoolSettings) := [
  ("workers", fun s d => do return { s with workers := ← word? d }),
  ("chunk_rows", fun s d => do return { s with chunkRows := ← word? d })]

/-- The values of settings; those of the pool start from what a host with `processors` processors has
without settings. -/
def readings (processors : Word) : List (Reading Settings) := [
  ("offload", fun s d => do return { s with offload := ← bool? d }),
  ("firmware_dir", fun s d => do return { s with firmwareDirectory := ← optionalPath? d }),
  ("device_path", fun s d => do return { s with devicePath := ← path? d }),
  ("interrupt_signal", fun s d => do return { s with interruptSignal := ← signal? d }),
  ("dispatch", fun s d => do
    return { s with pool := ← readRecord poolReadings (standard processors).pool d })]

/-- The settings that a JSON text holds, if they are valid. -/
def ofJson (processors : Word) (text : String) : Except Error Settings := do
  match parse? text >>= readRecord (readings processors) (standard processors) with
  | none => throw (.invalidConfiguration "bad JSON: no settings")
  | some s =>
    s.validate
    return s

/-! ### Writing -/

/-- The settings as JSON text, one member to a line. -/
def toJson (s : Settings) : String :=
  "\x7b\n" ++
  "  \"offload\": " ++ (if s.offload then "true" else "false") ++ ",\n" ++
  "  \"firmware_dir\": " ++ (s.firmwareDirectory.map quote).getD "null" ++ ",\n" ++
  "  \"device_path\": " ++ quote s.devicePath ++ ",\n" ++
  "  \"interrupt_signal\": " ++ toString s.interruptSignal.toInt ++ ",\n" ++
  "  \"dispatch\": \x7b\n" ++
  "    \"workers\": " ++ toString s.pool.workers ++ ",\n" ++
  "    \"chunk_rows\": " ++ toString s.pool.chunkRows ++ "\n" ++
  "  \x7d\n\x7d"

end AccelKrylov.Settings
