import AccelKrylov.Device.Transport

/-! A device that follows a script instead of running firmware, and remembers what it was sent. It stands
in where there is no accelerator. -/

namespace AccelKrylov

/-- The parts of a record. -/
inductive RecordField where
  | address | size | alignment | direction
deriving DecidableEq

def RecordField.name : RecordField → String
  | address => "address"
  | size => "size"
  | alignment => "alignment"
  | direction => "direction"

def RecordField.offset : RecordField → Nat
  | address => 0
  | size => 8
  | alignment => 16
  | direction => 24

/-- A word for one field of the record at a position. -/
structure RecordChange where
  position : Nat
  field : RecordField
  value : Word
deriving DecidableEq

/-- Where the word goes in an array of records. -/
def RecordChange.write (c : RecordChange) : Nat × List UInt8 :=
  (8 + 32 * c.position + c.field.offset, c.value.bytes)

structure Script where
  /-- Statuses of the commands that fail. -/
  failure : DeviceCommand → Option Int32 := fun _ => none
  /-- Signals sent when firmware runs. -/
  raised : List Int32 := []
  /-- What firmware adds to the completion event. -/
  eventValue : Word := 1
  /-- What firmware writes; it arrives when results are read. -/
  memoryWrites : List MemoryWrite := []
  recordChanges : List RecordChange := []
  /-- A new count for the records, if any. -/
  count : Option Word := none

structure ScriptedDevice where
  script : Script := {}
  /-- The commands it was sent, the last one first. -/
  seen : List Command := []

namespace ScriptedDevice

/-- Takes a command as the script says. -/
def submit (d : ScriptedDevice) (c : Command) : Reply ScriptedDevice :=
  let device := { d with seen := c :: d.seen }
  match d.script.failure c.kind with
  | some status => { device, outcome := .error (.device c.kind status) }
  | none => match c with
    | .runFirmware =>
      match CompletionEvent.signal {} d.script.eventValue with
      | .error cause =>
        { device, outcome := .error (.notification cause), raised := d.script.raised }
      | .ok _ => { device, signalled := [d.script.eventValue], raised := d.script.raised }
    | .getArguments _ => {
        device
        memoryWrites := d.script.memoryWrites
        recordWrites := d.script.recordChanges.map RecordChange.write ++
          (d.script.count.map fun n => (0, n.bytes)).toList }
    | _ => { device }

/-- The transport to a scripted device. -/
def transport (path : Option String) : Transport ScriptedDevice := ⟨path, submit⟩

end ScriptedDevice

end AccelKrylov
