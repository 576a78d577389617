import AccelKrylov.Signal.Disposition
import AccelKrylov.Files.Path

/-! The interrupt guard: while it is held, one signal stops the device and then has the effect it had
before. A process has one place for a guard; dropping the guard puts back what it found. -/

namespace AccelKrylov

/-- What the handler of a guard works with. -/
structure GuardSlot where
  /-- The device that is told to stop. -/
  stopPath : Option String
  previous : Disposition
deriving DecidableEq

structure Guard where
  signal : Int32
  slot : GuardSlot
deriving DecidableEq

/-- Why a guard is not installed. -/
inductive GuardError where
  | nulInPath (path : String)
  | query (signal : Int32) (cause : IoError)
  | busy
  | install (signal : Int32) (cause : IoError)
deriving DecidableEq

def GuardError.message : GuardError → String
  | nulInPath path => "device path " ++ path ++ " contains a NUL byte"
  | query signal cause => s!"cannot query signal {signal.toInt}: " ++ cause.message
  | busy => "another interrupt guard is already active"
  | install signal cause => s!"cannot install handler for signal {signal.toInt}: " ++ cause.message

/-- The dispositions of a process and its place for a guard. -/
structure Signals where
  table : SignalTable := .initial
  slot : Option GuardSlot := none

/-- What the arrival of a signal leads to. -/
inductive SignalEffect where
  /-- The device at a path is told to stop. -/
  | stop (path : String)
  | call (handler : Handler) (signal : Int32)
  /-- The system's own reaction. -/
  | standard (signal : Int32)
deriving DecidableEq

namespace Signals

/-- Changes the disposition of a signal. -/
def set (s : Signals) (signal : Int32) (d : Disposition) : Except IoError Signals := do
  return { s with table := ← s.table.set signal d }

/-! ### Installing and dropping -/

/-- Takes the place for a guard and sets the handler. -/
def install (s : Signals) (signal : Int32) (stopPath : Option String) :
    Except GuardError (Guard × Signals) := do
  match stopPath.filter Path.hasNul with
  | some path => throw (.nulInPath path)
  | none => pure ()
  let previous ← (s.table.query signal).mapError (.query signal)
  ensure (s.slot = none) .busy
  let table ← (s.table.set signal .guarded).mapError (.install signal)
  let slot : GuardSlot := ⟨stopPath, previous⟩
  return (⟨signal, slot⟩, ⟨table, some slot⟩)

/-- Puts back what a guard has found, and gives its place away. -/
def drop (s : Signals) (g : Guard) : Signals :=
  match s.table.set g.signal g.slot.previous with
  | .ok table => ⟨table, none⟩
  | .error _ => { s with slot := none }

end Signals

/-! ### Arrival of signals -/

/-- What a disposition that a guard has found leads to. The system's own reaction is held back. -/
def Disposition.chained (signal : Int32) : Disposition → List SignalEffect
  | call handler => [.call handler signal]
  | standard | ignored | guarded => []

/-- What a guard's handler does, with the paths that open as devices. -/
def GuardSlot.effects (opens : String → Bool) (signal : Int32) (slot : GuardSlot) :
    List SignalEffect :=
  ((slot.stopPath.filter opens).map SignalEffect.stop).toList ++ slot.previous.chained signal

/-- What the arrival of a signal leads to, with the paths that open as devices. -/
def Signals.deliver (opens : String → Bool) (s : Signals) (signal : Int32) : List SignalEffect :=
  match s.table.disposition signal with
  | .standard => [.standard signal]
  | .ignored => []
  | .call handler => [.call handler signal]
  | .guarded => match s.slot with
    | some slot => slot.effects opens signal
    | none => []

end AccelKrylov
