import AccelKrylov.Session.Basic

/-! One run of firmware, from writing the arguments to reading the results. A run goes through stages; each
stage either moves the session on or ends the run, and what the run holds at its end is given back. -/

namespace AccelKrylov

variable {σ : Type}

/-- A command that was sent, and what came of it. -/
structure Exchange where
  command : Command
  outcome : Except Error Unit
  /-- The records after the device's writes. -/
  records : Option Records
  /-- What was added to the completion event, and why it was broken if it was. -/
  signalled : List Word := []
  broken : Option IoError := none

/-- A run under way. -/
structure Run (σ : Type) extends Machine σ where
  session : Session
  arguments : ArgumentList
  records : Option Records := none
  event : Except IoError CompletionEvent := .ok {}
  guard : Option Guard := none
  /-- The commands that the device was sent, the last one first. -/
  exchanges : List Exchange := []
  /-- What the records that came back describe. -/
  returned : List Descriptor := []

/-- A firmware image: its path and its size. -/
structure Image where
  path : String
  size : Word
deriving DecidableEq

namespace Run

/-! ### What a run holds -/

def advance (r : Run σ) (phase : Phase) : Run σ := { r with session := { r.session with phase } }

/-- Takes over the records of the arguments. -/
def holdRecords (r : Run σ) (records : Records) : Run σ :=
  let stats := r.session.stats
  { r with
    records := some records
    session := { r.session with
      stats := { stats with
        recordsAllocated := stats.recordsAllocated + 1
        recordBytes := stats.recordBytes + records.bytes.length } } }

/-- Gives the records back, if there are any. -/
def releaseRecords (r : Run σ) : Run σ :=
  match r.records with
  | some _ =>
    let stats := r.session.stats
    { r with
      records := none
      session := { r.session with
        stats := { stats with recordsReleased := stats.recordsReleased + 1 } } }
  | none => r

theorem records_releaseRecords (r : Run σ) : r.releaseRecords.records = none := by
  unfold releaseRecords
  split
  · rfl
  next h => exact h

@[simp] theorem exchanges_releaseRecords (r : Run σ) : r.releaseRecords.exchanges = r.exchanges := by
  unfold releaseRecords
  split <;> rfl

@[simp] theorem phase_releaseRecords (r : Run σ) :
    r.releaseRecords.session.phase = r.session.phase := by
  unfold releaseRecords
  split <;> rfl

@[simp] theorem guard_releaseRecords (r : Run σ) : r.releaseRecords.guard = r.guard := by
  unfold releaseRecords
  split <;> rfl

@[simp] theorem returned_releaseRecords (r : Run σ) : r.releaseRecords.returned = r.returned := by
  unfold releaseRecords
  split <;> rfl

/-- Drops the guard, if there is one. -/
def dropGuard (r : Run σ) : Run σ :=
  match r.guard with
  | some guard => { r with guard := none, signals := r.signals.drop guard }
  | none => r

theorem guard_dropGuard (r : Run σ) : r.dropGuard.guard = none := by
  unfold dropGuard
  split
  · rfl
  next h => exact h

@[simp] theorem exchanges_dropGuard (r : Run σ) : r.dropGuard.exchanges = r.exchanges := by
  unfold dropGuard
  split <;> rfl

@[simp] theorem records_dropGuard (r : Run σ) : r.dropGuard.records = r.records := by
  unfold dropGuard
  split <;> rfl

@[simp] theorem session_dropGuard (r : Run σ) : r.dropGuard.session = r.session := by
  unfold dropGuard
  split <;> rfl

/-! ### Talking to the device -/

/-- The records after a command. Only the two commands that bring them give the device a chance to
write to them. -/
def recordsAfter (r : Run σ) (c : Command) (reply : Reply σ) : Option Records :=
  match c with
  | .setArguments _ | .getArguments _ => r.records.map (·.pokeAll reply.recordWrites)
  | _ => r.records

/-- What the caller finds after a command, whatever its outcome. -/
def afterReply (r : Run σ) (h : Host) (c : Command) (reply : Reply σ) : Run σ :=
  let records := r.recordsAfter c reply
  let stats := r.session.stats
  { r with
    session := { r.session with stats := { stats with commandsIssued := stats.commandsIssued + 1 } }
    device := reply.device
    arguments := r.arguments.pokeAll reply.memoryWrites
    records
    event := CompletionEvent.meet r.event reply.signalled reply.broken
    exchanges := ⟨c, reply.outcome, records, reply.signalled, reply.broken⟩ :: r.exchanges
    effects := r.effects ++ reply.raised.flatMap (r.signals.deliver h.opens) }

/-- Sends a command; if it succeeds, the run is in the given phase. -/
def command (r : Run σ) (t : Transport σ) (h : Host) (c : Command) (phase : Phase) :
    Run σ × Option Outcome :=
  let reply := t.submit r.device c
  let r := r.afterReply h c reply
  match reply.outcome with
  | .ok () => (r.advance phase, none)
  | .error fault => (r, some (.failed fault))

theorem command_of_ok {r : Run σ} {t : Transport σ} {h : Host} {c : Command} {phase : Phase}
    (hok : (t.submit r.device c).outcome = .ok ()) :
    r.command t h c phase = ((r.afterReply h c (t.submit r.device c)).advance phase, none) := by
  unfold command
  simp only [hok]

theorem command_of_error {r : Run σ} {t : Transport σ} {h : Host} {c : Command} {phase : Phase}
    {fault : Error} (herror : (t.submit r.device c).outcome = .error fault) :
    r.command t h c phase = (r.afterReply h c (t.submit r.device c), some (.failed fault)) := by
  unfold command
  simp only [herror]

/-! ### On the caller's side -/

/-- Writes the records of the arguments. -/
def allocate (r : Run σ) : Run σ × Option Outcome :=
  match Records.allocate r.arguments.descriptors with
  | .ok records => (r.holdRecords records, none)
  | .error fault => (r, some (.failed (.ofAllocation fault)))

/-- Takes a completion event from the system. -/
def createEvent (r : Run σ) : Run σ × Option Outcome :=
  match r.eventRefused with
  | none => (r, none)
  | some cause => (r, some (.failed (.notification cause)))

/-- Installs a guard that stops the device at `stopPath`. -/
def installGuard (r : Run σ) (stopPath : Option String) : Run σ × Option Outcome :=
  match r.signals.install r.session.settings.interruptSignal stopPath with
  | .ok (guard, signals) => ({ r with guard := some guard, signals }, none)
  | .error fault => (r, some (.failed (.ofGuard fault)))

/-- Waits for the completion event. -/
def await (r : Run σ) : Run σ × Option Outcome :=
  let r := r.advance .waiting
  match r.event with
  | .error cause => (r, some (.failed (.notification cause)))
  | .ok e => match e.wait with
    | some (_, e) => (advance { r with event := .ok e } .completed, none)
    | none => (r, some .waiting)

/-- Reads the records that came back. They have to describe the arguments that were sent. -/
def verify (r : Run σ) : Run σ × Option Outcome :=
  match Records.read ((r.records.map Records.bytes).getD []) with
  | .error fault => (r, some (.failed (.ofRecord fault)))
  | .ok returned => match Mismatch.first? r.arguments.descriptors returned with
    | some m => (r, some (.failed (.ofMismatch m)))
    | none => ((advance { r with returned } .resultsRead).releaseRecords.advance .done, none)

end Run

/-! ### Stages -/

/-- The parts of a run. -/
inductive Stage where
  | allocate | setArguments | loadFirmware | createEvent | registerCaller | installGuard
  | runFirmware | await | unregisterCaller | dropGuard | getArguments | verify
deriving DecidableEq

namespace Stage

/-- The stages of a run in their order. -/
def order : List Stage :=
  [allocate, setArguments, loadFirmware, createEvent, registerCaller, installGuard, runFirmware,
    await, unregisterCaller, dropGuard, getArguments, verify]

/-- Goes through a stage, which ends the run or not. -/
def act (t : Transport σ) (h : Host) (image : Image) : Stage → Run σ → Run σ × Option Outcome
  | allocate, r => r.allocate
  | setArguments, r => match r.records with
    | some records => r.command t h (.setArguments records) .argumentsWritten
    | none => (r, none)
  | loadFirmware, r =>
    r.command t h (.loadFirmware image.path
      ⟨h.pathAddress, UInt64.ofNat image.path.utf8ByteSize, image.size⟩) .firmwareTransferred
  | createEvent, r => r.createEvent
  | registerCaller, r =>
    r.command t h (.registerCaller ⟨h.eventDescriptor, h.process⟩) .callerRegistered
  | installGuard, r => r.installGuard t.path
  | runFirmware, r => r.command t h .runFirmware .running
  | await, r => r.await
  | unregisterCaller, r =>
    r.command t h (.unregisterCaller ⟨h.eventDescriptor, h.process⟩) .callerUnregistered
  | dropGuard, r => (r.dropGuard, none)
  | getArguments, r => match r.records with
    | some records => r.command t h (.getArguments records) .callerUnregistered
    | none => (r, none)
  | verify, r => r.verify

/-- Goes through stages in order, up to the first one that ends the run. -/
def actAll (t : Transport σ) (h : Host) (image : Image) :
    List Stage → Run σ → Run σ × Option Outcome
  | [], r => (r, none)
  | s :: ss, r => match s.act t h image r with
    | (r, none) => actAll t h image ss r
    | ended => ended

end Stage

/-! ### Whole runs -/

/-- The image that is to be run. A path with a zero byte cannot be passed on. -/
def Image.locate (h : Host) (settings : Settings) (firmware : String) : Except Error Image := do
  let path ← settings.firmwarePath h.files firmware
  let size ← (h.files.size path).mapError .io
  ensure (Path.hasNul path = false)
    (.invalidConfiguration ("firmware path " ++ path ++ " contains a NUL byte"))
  return ⟨path, size⟩

/-- What a run holds is given back, unless it waits for ever. -/
def Run.close (r : Run σ) : Outcome → Run σ
  | .waiting => r
  | _ => r.dropGuard.releaseRecords

/-- A run that has not begun. -/
def Session.begin (session : Session) (arguments : ArgumentList) (machine : Machine σ) : Run σ :=
  { machine with session := { session with phase := .idle }, arguments }

/-- Runs firmware with arguments. -/
def Session.run (session : Session) (t : Transport σ) (h : Host) (firmware : String)
    (arguments : ArgumentList) (machine : Machine σ) : Run σ × Outcome :=
  let r := session.begin arguments machine
  match Image.locate h session.settings firmware with
  | .error fault => (r, .failed fault)
  | .ok image =>
    let (r, ended) := Stage.actAll t h image Stage.order r
    let outcome := ended.getD (.returned r.returned)
    (r.close outcome, outcome)

end AccelKrylov
