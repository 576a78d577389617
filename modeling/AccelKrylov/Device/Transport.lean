import AccelKrylov.Error
import AccelKrylov.Completion

/-! Commands with all that they give the device to read, and what carries them there. A transport is a
machine of its own: it answers each command, and may meanwhile write to the caller's memory, raise the
completion event and send the caller signals. -/

namespace AccelKrylov

/-! ### Commands -/

inductive Command where
  /-- The image at `path`, which `args` says the address of. -/
  | loadFirmware (path : String) (args : LoadFirmware)
  | runFirmware
  | stopFirmware
  | setArguments (records : Records)
  | getArguments (records : Records)
  | registerCaller (caller : Caller)
  | unregisterCaller (caller : Caller)
  /-- The bytes `data`, which `args` says the address of. -/
  | initMemory (data : List UInt8) (args : InitMemory)
deriving DecidableEq

namespace Command

def kind : Command → DeviceCommand
  | loadFirmware .. => .loadFirmware
  | runFirmware => .runFirmware
  | stopFirmware => .stopFirmware
  | setArguments _ => .setArguments
  | getArguments _ => .getArguments
  | registerCaller _ => .registerCaller
  | unregisterCaller _ => .unregisterCaller
  | initMemory .. => .initMemory

end Command

/-! ### Transports -/

/-- Bytes for the memory behind the argument at a position. -/
structure MemoryWrite where
  position : Nat
  offset : Nat
  bytes : List UInt8
deriving DecidableEq

/-- How a device takes a command, and what it does meanwhile. -/
structure Reply (σ : Type) where
  device : σ
  outcome : Except Error Unit := .ok ()
  /-- Writes to the records that the command brings, by offset. -/
  recordWrites : List (Nat × List UInt8) := []
  memoryWrites : List MemoryWrite := []
  /-- What is added to the completion event. -/
  signalled : List Word := []
  /-- Why the completion event cannot be waited on any more, if the device has broken it. -/
  broken : Option IoError := none
  /-- The signals that the caller is sent. -/
  raised : List Int32 := []

/-- What carries commands to a device whose states are `σ`. -/
structure Transport (σ : Type) where
  /-- Where the device can be told to stop. -/
  path : Option String
  submit : σ → Command → Reply σ

/-- The records after a device's writes. -/
def Records.pokeAll (r : Records) (writes : List (Nat × List UInt8)) : Records :=
  writes.foldl (fun r (offset, bytes) => r.poke offset bytes) r

/-- The arguments after a device's writes to their memory. -/
def ArgumentList.pokeAll (l : ArgumentList) (writes : List MemoryWrite) : ArgumentList :=
  writes.foldl (fun l w => l.poke w.position w.offset w.bytes) l

namespace Transport

variable {σ : Type}

/-- Gives up whatever firmware is running. -/
def stop (t : Transport σ) (device : σ) : Reply σ := t.submit device .stopFirmware

/-- Copies bytes to device memory in a number of chunks. Neither may be zero. -/
def initMemory (t : Transport σ) (device : σ) (destination address : Word) (data : List UInt8)
    (chunks : Word) : Reply σ :=
  if chunks = 0 then
    { device, outcome := .error (.invalidArgument "init_memory needs at least one write chunk") }
  else if data.isEmpty then
    { device
      outcome := .error (.invalidArgument "init_memory called with an empty source buffer") }
  else
    t.submit device (.initMemory data ⟨destination, address, UInt64.ofNat data.length, chunks⟩)

/-- The status of a file that does not know a request. -/
def unknownRequest : Int32 := -25

/-- The device file at a path, opened for each command. A file that opens is an ordinary one, which
knows none of the requests. -/
def deviceFile (files : FileSystem) (path : String) : Transport Unit where
  path := some path
  submit _ c :=
    match files.canOpen path with
    | .ok () => { device := (), outcome := .error (.device c.kind unknownRequest) }
    | .error cause => { device := (), outcome := .error (.deviceUnavailable path cause) }

end Transport

end AccelKrylov
