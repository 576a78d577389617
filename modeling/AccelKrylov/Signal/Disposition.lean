import AccelKrylov.IoError

/-! What a process does with the signals it is sent, and which of that it may change. -/

namespace AccelKrylov

/-- A function of the process's that signals can call. -/
structure Handler where
  routine : Nat
  /-- It is told where the signal came from. -/
  takesInfo : Bool
deriving DecidableEq

/-- What happens when a signal arrives. -/
inductive Disposition where
  /-- The system's own reaction, which ends the process. -/
  | standard
  | ignored
  | call (handler : Handler)
  /-- The interrupt guard stops the device, then does what was to happen before. -/
  | guarded
deriving DecidableEq

/-- Signals that exist, apart from the two that the system's library keeps to itself. -/
def isSignal (signal : Int32) : Bool :=
  decide (1 ≤ signal) && decide (signal ≤ 64) && signal != 32 && signal != 33

/-- Signals whose disposition can be changed. -/
def isCatchable (signal : Int32) : Bool := isSignal signal && signal != 9 && signal != 19

/-- The dispositions of a process. -/
structure SignalTable where
  disposition : Int32 → Disposition

namespace SignalTable

/-- A process that has changed nothing. -/
def initial : SignalTable := ⟨fun _ => .standard⟩

def query (t : SignalTable) (signal : Int32) : Except IoError Disposition :=
  if isSignal signal then .ok (t.disposition signal) else .error .invalid

def set (t : SignalTable) (signal : Int32) (d : Disposition) : Except IoError SignalTable :=
  if isCatchable signal then .ok ⟨fun s => if s = signal then d else t.disposition s⟩
  else .error .invalid

end SignalTable

end AccelKrylov
