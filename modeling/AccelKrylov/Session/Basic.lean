import AccelKrylov.Device.Transport
import AccelKrylov.Config.Basic

/-! Sessions in which firmware runs on the device, and what surrounds them. -/

namespace AccelKrylov

/-! ### Sessions -/

/-- How far a run has come. -/
inductive Phase where
  | idle | argumentsWritten | firmwareTransferred | callerRegistered | running | waiting
  | completed | callerUnregistered | resultsRead | done
deriving DecidableEq

def Phase.name : Phase → String
  | idle => "Idle"
  | argumentsWritten => "ArgsWritten"
  | firmwareTransferred => "FirmwareTransferred"
  | callerRegistered => "AppRegistered"
  | running => "Running"
  | waiting => "Waiting"
  | completed => "Completed"
  | callerUnregistered => "AppUnregistered"
  | resultsRead => "ResultsRead"
  | done => "Done"

/-- What a session has done in all its runs. The counts have no bound here; counts in words of 64 bits come round to
zero. -/
structure TransferStats where
  recordsAllocated : Nat := 0
  recordsReleased : Nat := 0
  /-- The size of all arrays of records. -/
  recordBytes : Nat := 0
  commandsIssued : Nat := 0
deriving DecidableEq

structure Session where
  settings : Settings
  phase : Phase := .idle
  stats : TransferStats := {}
deriving DecidableEq

/-! ### Surroundings -/

/-- The system and the process that a session runs in. -/
structure Host where
  files : FileSystem
  process : Int32
  /-- The descriptor that a completion event gets. -/
  eventDescriptor : Int32
  /-- Where the text of a path is put. -/
  pathAddress : Word
  /-- Where the memory behind the argument at a position is. -/
  argumentAddress : Nat → Word

/-- The paths that open as devices. -/
def Host.opens (h : Host) (path : String) : Bool := (h.files.canOpen path).isOk

/-- The device, and what the signals of the process have come to. -/
structure Machine (σ : Type) where
  device : σ
  signals : Signals := {}
  /-- What signals have led to, in order. -/
  effects : List SignalEffect := []
  /-- Why the system gives out no completion event, if it gives out none. -/
  eventRefused : Option IoError := none

/-- How a run ends. -/
inductive Outcome where
  | returned (descriptors : List Descriptor)
  | failed (fault : Error)
  /-- The device never signals completion. -/
  | waiting
deriving DecidableEq

end AccelKrylov
