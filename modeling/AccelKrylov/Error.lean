import AccelKrylov.IoError
import AccelKrylov.Device.Command
import AccelKrylov.Argument.Records
import AccelKrylov.Matrix.Product
import AccelKrylov.Matrix.Triplets
import AccelKrylov.Signal.Guard
import AccelKrylov.Pool.Basic

/-! Everything that can go wrong on the way to the device and back: its text, its status for callers that
want a number, and the faults of the single parts that end up in it. -/

namespace AccelKrylov

inductive Error where
  | missingConfiguration (setting : String)
  | invalidConfiguration (text : String)
  | firmwareNotFound (path : String)
  | deviceUnavailable (path : String) (source : IoError)
  | device (command : DeviceCommand) (status : Int32)
  | unsupportedFormat (text : String)
  | allocation (size : Nat) (align : Word)
  | malformedBuffer (text : String)
  | invalidDimensions (text : String)
  | invalidArgument (text : String)
  | argumentMismatch (position : Nat) (detail : String)
  | notification (source : IoError)
  | interruptHandler (text : String)
  | dispatcher (text : String)
  | unsupportedPlatform (text : String)
  | io (source : IoError)
deriving DecidableEq

namespace Error

/-! ### Texts -/

def name : Error → String
  | missingConfiguration _ => "MissingConfiguration"
  | invalidConfiguration _ => "InvalidConfiguration"
  | firmwareNotFound _ => "FirmwareNotFound"
  | deviceUnavailable .. => "DeviceUnavailable"
  | device .. => "Device"
  | unsupportedFormat _ => "UnsupportedFormat"
  | allocation .. => "Allocation"
  | malformedBuffer _ => "MalformedBuffer"
  | invalidDimensions _ => "InvalidDimensions"
  | invalidArgument _ => "InvalidArgument"
  | argumentMismatch .. => "ArgumentMismatch"
  | notification _ => "Notification"
  | interruptHandler _ => "InterruptHandler"
  | dispatcher _ => "Dispatcher"
  | unsupportedPlatform _ => "UnsupportedPlatform"
  | io _ => "IoError"

def message : Error → String
  | missingConfiguration setting =>
    "Missing configuration: environment variable " ++ setting ++ " is not set"
  | invalidConfiguration text => "Invalid configuration: " ++ text
  | firmwareNotFound path => "Firmware binary not found: " ++ path
  | deviceUnavailable path source => "Device " ++ path ++ " could not be opened: " ++ source.message
  | device command status =>
    "Device command " ++ command.name ++ s!" failed with status {status.toInt}"
  | unsupportedFormat text => "Unsupported matrix format: " ++ text
  | allocation size align => s!"Allocation of {size} bytes (alignment {align}) failed"
  | malformedBuffer text => "Malformed buffer: " ++ text
  | invalidDimensions text => "Invalid matrix dimensions: " ++ text
  | invalidArgument text => "Invalid argument: " ++ text
  | argumentMismatch position detail =>
    s!"Argument {position} changed shape across the device call: " ++ detail
  | notification source => "Completion wait failed: " ++ source.message
  | interruptHandler text => "Interrupt handler could not be installed: " ++ text
  | dispatcher text => "Local dispatcher error: " ++ text
  | unsupportedPlatform text => "Operation not supported on this platform: " ++ text
  | io source => "IO error: " ++ source.message

/-- The error with its parts named. -/
def describe : Error → String
  | e@(missingConfiguration text) | e@(invalidConfiguration text) | e@(unsupportedFormat text)
  | e@(malformedBuffer text) | e@(invalidDimensions text) | e@(invalidArgument text)
  | e@(interruptHandler text) | e@(dispatcher text) | e@(unsupportedPlatform text) =>
    e.name ++ "(" ++ Text.quote text ++ ")"
  | e@(firmwareNotFound path) => e.name ++ "(" ++ Text.quote path ++ ")"
  | e@(deviceUnavailable path source) =>
    e.name ++ " \x7b path: " ++ Text.quote path ++ ", source: " ++ source.describe ++ " \x7d"
  | e@(device command status) =>
    e.name ++ " \x7b command: " ++ command.name ++ s!", status: {status.toInt} \x7d"
  | e@(allocation size align) => e.name ++ s!" \x7b size: {size}, align: {align} \x7d"
  | e@(argumentMismatch position detail) =>
    e.name ++ s!" \x7b position: {position}, detail: " ++ Text.quote detail ++ " \x7d"
  | e@(notification source) | e@(io source) => e.name ++ "(" ++ source.describe ++ ")"

/-! ### Statuses -/

def configurationStatus : Int32 := -1000

def unsupportedFormatStatus : Int32 := -2000

def allocationStatus : Int32 := -3000

def invalidInputStatus : Int32 := -4000

/-- The status of device failures that have no number of their own. -/
def deviceStatus : Int32 := -5

def status : Error → Int32
  | missingConfiguration _ | invalidConfiguration _ | firmwareNotFound _ => configurationStatus
  | device _ status => status
  | deviceUnavailable _ source | notification source | io source =>
    source.negatedCode?.getD deviceStatus
  | unsupportedFormat _ => unsupportedFormatStatus
  | allocation .. => allocationStatus
  | malformedBuffer _ | invalidDimensions _ | invalidArgument _ | argumentMismatch .. =>
    invalidInputStatus
  | interruptHandler _ | dispatcher _ | unsupportedPlatform _ => deviceStatus

/-- The status is the one of configuration errors. -/
def isConfiguration (e : Error) : Bool := e.status == configurationStatus

/-- The device itself reported the failure. -/
def isDevice : Error → Bool
  | device .. | deviceUnavailable .. => true
  | _ => false

/-! ### Faults of the parts -/

def ofTag (tag : UnknownTag) : Error := unsupportedFormat tag.message

def ofShape (fault : ShapeError) : Error := invalidDimensions fault.message

def ofDecode : Wire.DecodeError → Error
  | .unsupported tag => ofTag tag
  | .malformed fault => malformedBuffer fault.message

def ofProduct : ProductError → Error
  | e@(.notReal _) => unsupportedFormat e.message
  | e@(.shape ..) => invalidDimensions e.message

def ofAllocation : AllocationError → Error
  | .layout size align =>
    invalidArgument s!"alignment {align} is not a power of two or size {size} overflows"
  | .exhausted size align => allocation size align

def ofAlignment (fault : AlignmentError) : Error := invalidArgument fault.message

def ofMatrixArgument : MatrixArgumentError → Error
  | .notMatrix position => invalidArgument s!"argument {position} is not a matrix"
  | .decode fault => ofDecode fault

def ofRecord (fault : RecordError) : Error := malformedBuffer fault.message

def ofRecordWrite (fault : RecordRangeError) : Error := invalidArgument fault.message

def ofMismatch (m : Mismatch) : Error := argumentMismatch m.position m.detail

def ofGuard (fault : GuardError) : Error := interruptHandler fault.message

def ofPool : PoolError → Error
  | .noWorkers => invalidConfiguration PoolError.noWorkers.message
  | e => dispatcher e.message

end Error

/-- The direction that a number in a device's memory stands for. -/
def Direction.ofTag (tag : Word) : Except Error Direction :=
  match ofTag? tag with
  | some d => .ok d
  | none => .error (.ofRecord (.direction tag))

/-- Writes the block of a matrix over the front of `out`; the bytes written, or the error, come with
what `out` holds afterwards. -/
def Matrix.flattenInto (m : Matrix Double) (out : List UInt8) :
    Except Error Nat × List UInt8 :=
  let (complete, out') := m.encodeInto out
  if complete then (.ok m.encodedSize, out')
  else (.error (.invalidArgument
    s!"output buffer of {out.length} bytes is too small for the matrix"), out')

end AccelKrylov
