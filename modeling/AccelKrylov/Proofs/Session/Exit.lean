import AccelKrylov.Session.Run

/-! What a run says to its device and where it can end: the order of the commands, and a table of the ways
to end, one for each place where a run can fail. What holds however a run ends is read off the table. -/

namespace AccelKrylov

variable {σ : Type}

/-! ### The order of commands -/

/-- The commands of a run in order, each with the phase in which it is sent. -/
def protocol : List (Phase × DeviceCommand) :=
  [(.idle, .setArguments), (.argumentsWritten, .loadFirmware), (.firmwareTransferred, .registerCaller),
    (.callerRegistered, .runFirmware), (.completed, .unregisterCaller),
    (.callerUnregistered, .getArguments)]

/-- The first `n` commands were sent, and succeeded. -/
def Sent (n : Nat) (sent : List Exchange) : Prop :=
  sent.map (·.command.kind) = (protocol.map Prod.snd).take n ∧ ∀ x ∈ sent, x.outcome = .ok ()

/-- What some commands leave of the completion event. -/
def eventAfter (sent : List Exchange) : Except IoError CompletionEvent :=
  sent.foldl (fun e x => CompletionEvent.meet e x.signalled x.broken) (.ok {})

/-- The records that a command brings. -/
def Command.records? : Command → Option Records
  | .setArguments records | .getArguments records => some records
  | _ => none

/-- What was said to a device, the last exchange first, and the states of the device before and
afterwards. -/
inductive Conversation (t : Transport σ) : σ → List Exchange → σ → Prop where
  | nil (d : σ) : Conversation t d [] d
  | cons {d d' : σ} {xs : List Exchange} (c : Command) (records : Option Records)
    (earlier : Conversation t d xs d')
    (written : ∀ given, c.records? = some given →
      records = some (given.pokeAll (t.submit d' c).recordWrites)) :
    Conversation t d (⟨c, (t.submit d' c).outcome, records, (t.submit d' c).signalled,
      (t.submit d' c).broken⟩ :: xs) (t.submit d' c).device

/-! ### Ways to end -/

/-- A run as it is asked for. -/
structure Call (σ : Type) where
  transport : Transport σ
  host : Host
  session : Session
  firmware : String
  arguments : ArgumentList
  machine : Machine σ

namespace Call

variable (c : Call σ)

def located : Except Error Image := Image.locate c.host c.session.settings c.firmware

def records : Except AllocationError Records := Records.allocate c.arguments.descriptors

def guard : Except GuardError (Guard × Signals) :=
  c.machine.signals.install c.session.settings.interruptSignal c.transport.path

/-- What the run leaves behind, and what comes of it. -/
def run : Run σ × Outcome :=
  c.session.run c.transport c.host c.firmware c.arguments c.machine

theorem run_of_error {fault : Error} (h : c.located = .error fault) :
    c.run = (c.session.begin c.arguments c.machine, .failed fault) := by
  unfold located at h
  unfold run Session.run
  rw [h]

theorem run_of_ok {image : Image} (h : c.located = .ok image) :
    let ended := Stage.actAll c.transport c.host image Stage.order
      (c.session.begin c.arguments c.machine)
    let outcome := ended.2.getD (.returned ended.1.returned)
    c.run = (ended.1.close outcome, outcome) := by
  unfold located at h
  unfold run Session.run
  rw [h]

end Call

/-- How a run can end: the commands it has sent, its phase, and what comes of it. -/
inductive Exit (c : Call σ) : List Exchange → Phase → Outcome → Prop where
  | notLocated {fault : Error} (located : c.located = .error fault) :
    Exit c [] .idle (.failed fault)
  | noMemory {fault : AllocationError} (records : c.records = .error fault) :
    Exit c [] .idle (.failed (.ofAllocation fault))
  | refused {n : Nat} {sent : List Exchange} {x : Exchange} {phase : Phase} {fault : Error}
    (earlier : Sent n sent) (next : protocol[n]? = some (phase, x.command.kind))
    (outcome : x.outcome = .error fault) :
    Exit c (sent ++ [x]) phase (.failed fault)
  | noEvent {sent : List Exchange} {cause : IoError} (earlier : Sent 2 sent)
    (event : c.machine.eventRefused = some cause) :
    Exit c sent .firmwareTransferred (.failed (.notification cause))
  | noGuard {sent : List Exchange} {fault : GuardError} (earlier : Sent 3 sent)
    (guard : c.guard = .error fault) :
    Exit c sent .callerRegistered (.failed (.ofGuard fault))
  | waitFailed {sent : List Exchange} {cause : IoError} (earlier : Sent 4 sent)
    (event : eventAfter sent = .error cause) :
    Exit c sent .waiting (.failed (.notification cause))
  | unsignalled {sent : List Exchange} {e : CompletionEvent} (earlier : Sent 4 sent)
    (event : eventAfter sent = .ok e) (wait : e.wait = none) :
    Exit c sent .waiting .waiting
  | unreadable {sent : List Exchange} {x : Exchange} {records : Records} {fault : RecordError}
    (earlier : Sent 6 (sent ++ [x])) (back : x.records = some records)
    (read : Records.read records.bytes = .error fault) :
    Exit c (sent ++ [x]) .callerUnregistered (.failed (.ofRecord fault))
  | changed {sent : List Exchange} {x : Exchange} {records : Records} {returned : List Descriptor}
    {m : Mismatch} (earlier : Sent 6 (sent ++ [x])) (back : x.records = some records)
    (read : Records.read records.bytes = .ok returned)
    (differ : Mismatch.first? c.arguments.descriptors returned = some m) :
    Exit c (sent ++ [x]) .callerUnregistered (.failed (.ofMismatch m))
  | finished {sent : List Exchange} {x : Exchange} {records : Records} {returned : List Descriptor}
    (earlier : Sent 6 (sent ++ [x])) (back : x.records = some records)
    (read : Records.read records.bytes = .ok returned)
    (agree : Mismatch.first? c.arguments.descriptors returned = none) :
    Exit c (sent ++ [x]) .done (.returned returned)

/-- What has to go well before the first, the third, the fourth and the fifth command. -/
structure Admitted (c : Call σ) (sent : List Exchange) : Prop where
  located : 1 ≤ sent.length → ∃ image, c.located = .ok image
  records : 1 ≤ sent.length → ∃ records, c.records = .ok records
  event : 3 ≤ sent.length → c.machine.eventRefused = none
  guard : 4 ≤ sent.length → ∃ held, c.guard = .ok held
  wait : 5 ≤ sent.length → ∃ e taken, eventAfter (sent.take 4) = .ok e ∧ e.wait = some taken

/-- Nothing has to go well before a command when none was sent. -/
theorem Admitted.nil {c : Call σ} : Admitted c [] where
  located h := absurd h (by decide)
  records h := absurd h (by decide)
  event h := absurd h (by decide)
  guard h := absurd h (by decide)
  wait h := absurd h (by decide)

/-! ### Reading the table -/

namespace Exit

variable {c : Call σ} {sent : List Exchange} {phase : Phase} {outcome : Outcome}

theorem kinds_prefix (h : Exit c sent phase outcome) :
    sent.map (·.command.kind) <+: protocol.map Prod.snd := by
  have hfirst {n : Nat} {xs : List Exchange} (h : Sent n xs) :
      xs.map (·.command.kind) <+: protocol.map Prod.snd := by
    rw [h.1]
    exact List.take_prefix n _
  cases h with
  | notLocated | noMemory => exact List.nil_prefix
  | refused earlier next =>
    rw [List.map_append, earlier.1, List.map_singleton]
    have hnext := congrArg (Option.map Prod.snd) next
    rw [← List.getElem?_map, Option.map_some] at hnext
    rw [← Option.toList_some, ← hnext, ← List.take_add_one]
    exact List.take_prefix _ _
  | noEvent earlier | noGuard earlier | waitFailed earlier | unsignalled earlier
  | unreadable earlier | changed earlier | finished earlier => exact hfirst earlier

theorem succeeded (h : Exit c sent phase outcome) : ∀ x ∈ sent.dropLast, x.outcome = .ok () := by
  intro x hx
  cases h with
  | notLocated | noMemory => cases hx
  | refused earlier =>
    rw [List.dropLast_concat] at hx
    exact earlier.2 x hx
  | noEvent earlier | noGuard earlier | waitFailed earlier | unsignalled earlier
  | unreadable earlier | changed earlier | finished earlier =>
    exact earlier.2 x (List.dropLast_subset _ hx)

theorem failed {x : Exchange} {fault : Error} (h : Exit c sent phase outcome) (hx : x ∈ sent)
    (hfault : x.outcome = .error fault) : outcome = .failed fault := by
  have hnever {n : Nat} (earlier : Sent n sent) : False := by
    rw [earlier.2 x hx] at hfault
    cases hfault
  cases h with
  | notLocated | noMemory => cases hx
  | refused earlier _ houtcome =>
    rcases List.mem_append.mp hx with hx | hx
    · rw [earlier.2 x hx] at hfault
      cases hfault
    · rw [List.mem_singleton.mp hx, houtcome] at hfault
      rw [Except.error.inj hfault]
  | noEvent earlier | noGuard earlier | waitFailed earlier | unsignalled earlier
  | unreadable earlier | changed earlier | finished earlier => exact (hnever earlier).elim

theorem done_iff (h : Exit c sent phase outcome) :
    phase = .done ↔ ∃ returned, outcome = .returned returned := by
  cases h with
  | refused _ next =>
    refine ⟨?_, nofun⟩
    rintro rfl
    have hphase : ∀ p ∈ protocol, p.1 ≠ .done := by decide
    exact absurd rfl (hphase _ (List.mem_of_getElem? next))
  | finished => exact ⟨fun _ => ⟨_, rfl⟩, fun _ => rfl⟩
  | _ => exact ⟨nofun, nofun⟩

theorem length_of_waiting (h : Exit c sent phase .waiting) : sent.length = 4 := by
  cases h with
  | unsignalled earlier =>
    have hlength := congrArg List.length earlier.1
    rwa [List.length_map] at hlength

end Exit

end AccelKrylov
