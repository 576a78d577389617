import AccelKrylov.Double

/-! The commands of the accelerator's driver: their request codes, and the structures in memory that go
with them. A code packs the direction of the transfer, the size of the structure, the letter that
marks the driver, and the number of the command. -/

namespace AccelKrylov

/-! ### Structures in memory -/

/-- Loads a firmware image whose path, ended by a zero byte, is at an address. -/
structure LoadFirmware where
  path : Word
  pathLength : Word
  firmwareSize : Word
deriving DecidableEq

def LoadFirmware.bytes (s : LoadFirmware) : List UInt8 :=
  s.path.bytes ++ s.pathLength.bytes ++ s.firmwareSize.bytes

/-- The field that an array of records opens with. -/
structure RecordCount where
  count : Word
deriving DecidableEq

def RecordCount.bytes (s : RecordCount) : List UInt8 := s.count.bytes

/-- Who is to be told when firmware has finished. -/
structure Caller where
  eventDescriptor : Int32
  process : Int32
deriving DecidableEq

def Caller.bytes (s : Caller) : List UInt8 :=
  littleEndian 4 s.eventDescriptor.toUInt32.toNat ++ littleEndian 4 s.process.toUInt32.toNat

/-- Copies bytes of the caller's to device memory. -/
structure InitMemory where
  destination : Word
  address : Word
  size : Word
  chunks : Word
deriving DecidableEq

def InitMemory.bytes (s : InitMemory) : List UInt8 :=
  s.destination.bytes ++ s.address.bytes ++ s.size.bytes ++ s.chunks.bytes

/-- What a solver's firmware is told first. -/
structure SolverControl where
  tolerance : Double
  maxIterations : Word
  rows : Word
  method : Word
deriving DecidableEq

def SolverControl.bytes (s : SolverControl) : List UInt8 :=
  s.tolerance.bytes ++ s.maxIterations.bytes ++ s.rows.bytes ++ s.method.bytes

/-! ### Commands -/

inductive DeviceCommand where
  | loadFirmware | runFirmware | stopFirmware | setArguments | getArguments
  | registerCaller | unregisterCaller | initMemory
deriving DecidableEq

namespace DeviceCommand

def name : DeviceCommand → String
  | loadFirmware => "LoadFirmware"
  | runFirmware => "RunFirmware"
  | stopFirmware => "StopFirmware"
  | setArguments => "SetSolverArguments"
  | getArguments => "GetSolverArguments"
  | registerCaller => "RegisterCallerApp"
  | unregisterCaller => "UnregisterCallerApp"
  | initMemory => "InitMemory"

/-- Which way a command's structure travels. -/
inductive Transfer where
  | none | write | readWrite
deriving DecidableEq

def Transfer.bits : Transfer → Word
  | none => 0
  | write => 1
  | readWrite => 3

/-- The letter that marks requests of this driver. -/
def driverLetter : Word := 0x53

/-- The code of a request. -/
def encode (transfer : Transfer) (number size : Word) : Word :=
  transfer.bits <<< 30 ||| size <<< 16 ||| driverLetter <<< 8 ||| number

def requestCode : DeviceCommand → Word
  | loadFirmware => encode .write 1 24
  | runFirmware => encode .none 2 0
  | stopFirmware => encode .none 3 0
  | setArguments => encode .write 4 8
  | getArguments => encode .readWrite 5 8
  | registerCaller => encode .write 6 8
  | unregisterCaller => encode .write 7 8
  | initMemory => encode .write 8 32

end DeviceCommand

end AccelKrylov
