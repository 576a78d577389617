import AccelKrylov.Error
import AccelKrylov.Files.Path

/-! Settings: whether solves go to the device, where its firmware and its device file are, which signal
stops it, and how local work is split. -/

namespace AccelKrylov

/-- How local work is split. -/
structure PoolSettings where
  workers : Word
  /-- Matrix rows in one job. -/
  chunkRows : Word
deriving DecidableEq

structure Settings where
  offload : Bool
  firmwareDirectory : Option String
  devicePath : String
  /-- The signal that stops firmware during a run. -/
  interruptSignal : Int32
  pool : PoolSettings
deriving DecidableEq

/-! ### Names of settings -/

def offloadVariable : String := "SOLVER_OFFLOAD"

def firmwareVariable : String := "SOLVER_FIRMWARE_DIR"

def deviceVariable : String := "SOLVER_DEVICE"

def threadsVariable : String := "SOLVER_THREADS"

def chunkRowsVariable : String := "SOLVER_CHUNK_ROWS"

namespace Settings

/-- What holds without any setting, on a host with `processors` processors. -/
def standard (processors : Word) : Settings :=
  ⟨false, none, "/dev/solver_accel", 2, ⟨processors, 64⟩⟩

/-- The pool has a worker and jobs have a row. -/
def validate (s : Settings) : Except Error Unit := do
  ensure (s.pool.workers ≠ 0) (.invalidConfiguration "dispatch.workers must be at least 1")
  ensure (s.pool.chunkRows ≠ 0) (.invalidConfiguration "dispatch.chunk_rows must be at least 1")

/-- Where the firmware image with a name is; it has to be a file. -/
def firmwarePath (s : Settings) (fs : FileSystem) (name : String) : Except Error String :=
  match s.firmwareDirectory with
  | none => .error (.missingConfiguration firmwareVariable)
  | some directory =>
    let path := Path.join directory name
    if fs.isFile path then .ok path else .error (.firmwareNotFound path)

end Settings

end AccelKrylov
