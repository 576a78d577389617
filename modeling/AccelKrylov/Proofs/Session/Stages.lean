import AccelKrylov.Proofs.Argument.Records
import AccelKrylov.Proofs.Session.Exit

/-! What one stage does to a run. A stage that a run passes leaves it with the commands sent so far, all of
them successful, in the phase of that stage; a stage that ends the run does so in one of the ways of the
table. -/

namespace AccelKrylov

variable {σ : Type}

/-! ### What stages do -/

namespace Stage

/-- The command that a stage sends. -/
def command? : Stage → Option DeviceCommand
  | setArguments => some .setArguments
  | loadFirmware => some .loadFirmware
  | registerCaller => some .registerCaller
  | runFirmware => some .runFirmware
  | unregisterCaller => some .unregisterCaller
  | getArguments => some .getArguments
  | allocate | createEvent | installGuard | await | dropGuard | verify => none

/-- The phase of a run that has passed a stage. -/
def phase : Stage → Phase
  | allocate => .idle
  | setArguments => .argumentsWritten
  | loadFirmware | createEvent => .firmwareTransferred
  | registerCaller | installGuard => .callerRegistered
  | runFirmware => .running
  | await => .completed
  | unregisterCaller | dropGuard | getArguments => .callerUnregistered
  | verify => .done

/-- The stages before a stage. -/
def before (s : Stage) : List Stage := order.takeWhile (· ≠ s)

/-- The phase of a run that has passed some stages. -/
def phaseAfter (past : List Stage) : Phase := (past.getLast?.map phase).getD .idle

end Stage

/-- What no stage of a run changes, and the counts since its start: `began` arrays of records were
allocated, and the run holds those that were not given back. -/
structure Kept (c : Call σ) (began : Nat) (r : Run σ) : Prop where
  settings : r.session.settings = c.session.settings
  descriptors : r.arguments.descriptors = c.arguments.descriptors
  eventRefused : r.eventRefused = c.machine.eventRefused
  conversation : Conversation c.transport c.machine.device r.exchanges r.device
  allocated : r.session.stats.recordsAllocated = c.session.stats.recordsAllocated + began
  released : r.session.stats.recordsReleased + r.records.toList.length =
    c.session.stats.recordsReleased + began
  bytes : r.session.stats.recordBytes =
    c.session.stats.recordBytes + began * (8 + 32 * c.arguments.size)
  issued : r.session.stats.commandsIssued = c.session.stats.commandsIssued + r.exchanges.length

/-- What has gone well before the run could pass some stages. -/
structure Cleared (c : Call σ) (past : List Stage) : Prop where
  located : ∃ image, c.located = .ok image
  records : .allocate ∈ past → ∃ records, c.records = .ok records
  event : .createEvent ∈ past → c.machine.eventRefused = none
  guard : .installGuard ∈ past → ∃ held, c.guard = .ok held

/-- What a run has come to that has passed some stages. -/
structure Passed (c : Call σ) (past : List Stage) (r : Run σ) : Prop where
  cleared : Cleared c past
  kept : Kept c (min past.length 1) r
  phase : r.session.phase = Stage.phaseAfter past
  sent : r.exchanges.reverse.map (·.command.kind) = past.filterMap Stage.command?
  succeeded : ∀ x ∈ r.exchanges, x.outcome = .ok ()
  records : r.records.isSome = decide (.allocate ∈ past ∧ .verify ∉ past)
  signals : .installGuard ∉ past → r.signals = c.machine.signals
  event : .await ∉ past → r.event = eventAfter r.exchanges.reverse
  waited : .await ∈ past → ∃ e taken,
    eventAfter (r.exchanges.reverse.take 4) = .ok e ∧ e.wait = some taken
  back : .getArguments ∈ past → ∃ x earlier records, r.exchanges = x :: earlier ∧
    x.records = some records ∧ (.verify ∉ past → r.records = some records) ∧
      (.verify ∈ past → Records.read records.bytes = .ok r.returned ∧
        Mismatch.first? c.arguments.descriptors r.returned = none)

/-- What a run has come to that a stage has ended. -/
structure Ended (c : Call σ) (r : Run σ) (outcome : Outcome) : Prop where
  kept : Kept c (min r.exchanges.length 1) r
  exit : Exit c r.exchanges.reverse r.session.phase outcome
  admitted : Admitted c r.exchanges.reverse
  held : outcome = .waiting → r.records.isSome

/-- A stage behind some others either passes or ends the run. -/
def Goes (c : Call σ) (past : List Stage) (s : Stage) (result : Run σ × Option Outcome) : Prop :=
  (∃ r, result = (r, none) ∧ Passed c (past ++ [s]) r) ∨
    ∃ r outcome, result = (r, some outcome) ∧ Ended c r outcome

/-! ### Commands -/

theorem ArgumentList.descriptors_pokeAll (l : ArgumentList) (writes : List MemoryWrite) :
    (l.pokeAll writes).descriptors = l.descriptors := by
  unfold pokeAll
  induction writes generalizing l with
  | nil => rfl
  | cons w writes ih => exact ih (l.poke w.position w.offset w.bytes)

/-- A command neither loses the records nor finds new ones. -/
theorem Run.length_recordsAfter (r : Run σ) (cmd : Command) (reply : Reply σ) :
    (r.recordsAfter cmd reply).toList.length = r.records.toList.length := by
  unfold recordsAfter
  cases cmd <;> cases r.records <;> rfl

theorem Run.isSome_recordsAfter (r : Run σ) (cmd : Command) (reply : Reply σ) :
    (r.recordsAfter cmd reply).isSome = r.records.isSome := by
  unfold recordsAfter
  cases cmd <;> cases r.records <;> rfl

theorem eventAfter_append (sent : List Exchange) (x : Exchange) :
    eventAfter (sent ++ [x]) = CompletionEvent.meet (eventAfter sent) x.signalled x.broken := by
  simp [eventAfter]

variable {c : Call σ} {r : Run σ} {began : Nat} {past : List Stage}

theorem Kept.congr {r' : Run σ} (k : Kept c began r)
    (settings : r'.session.settings = r.session.settings) (stats : r'.session.stats = r.session.stats)
    (arguments : r'.arguments = r.arguments) (eventRefused : r'.eventRefused = r.eventRefused)
    (device : r'.device = r.device) (exchanges : r'.exchanges = r.exchanges)
    (records : r'.records = r.records) : Kept c began r' where
  settings := settings.trans k.settings
  descriptors := by rw [arguments]; exact k.descriptors
  eventRefused := eventRefused.trans k.eventRefused
  conversation := by rw [exchanges, device]; exact k.conversation
  allocated := by rw [stats]; exact k.allocated
  released := by rw [stats, records]; exact k.released
  bytes := by rw [stats]; exact k.bytes
  issued := by rw [stats, exchanges]; exact k.issued

theorem Kept.advance (k : Kept c began r) (phase : Phase) : Kept c began (r.advance phase) :=
  k.congr rfl rfl rfl rfl rfl rfl rfl

/-- What is given back is counted. -/
theorem Kept.releaseRecords (k : Kept c began r) : Kept c began r.releaseRecords := by
  unfold Run.releaseRecords
  split
  next records hrecords =>
    exact {
      settings := k.settings
      descriptors := k.descriptors
      eventRefused := k.eventRefused
      conversation := k.conversation
      allocated := k.allocated
      released := by
        have := k.released
        rw [hrecords] at this
        exact this
      bytes := k.bytes
      issued := k.issued }
  · exact k

theorem Kept.dropGuard (k : Kept c began r) : Kept c began r.dropGuard := by
  unfold Run.dropGuard
  split
  · exact k.congr rfl rfl rfl rfl rfl rfl rfl
  · exact k

/-- A command, whatever comes of it, is one more exchange. -/
theorem Kept.afterReply (k : Kept c began r) {cmd : Command}
    (hbrought : ∀ given, cmd.records? = some given → r.records = some given) :
    Kept c began (r.afterReply c.host cmd (c.transport.submit r.device cmd)) where
  settings := k.settings
  descriptors := (ArgumentList.descriptors_pokeAll _ _).trans k.descriptors
  eventRefused := k.eventRefused
  conversation := by
    refine .cons cmd _ k.conversation fun given hgiven => ?_
    have hrecords := hbrought given hgiven
    cases cmd with
    | setArguments => simp [Run.recordsAfter, hrecords]
    | getArguments => simp [Run.recordsAfter, hrecords]
    | _ => cases hgiven
  allocated := k.allocated
  released := by
    have := k.released
    rw [← Run.length_recordsAfter r cmd (c.transport.submit r.device cmd)] at this
    exact this
  bytes := k.bytes
  issued := by
    have := k.issued
    change r.session.stats.commandsIssued + 1 = _ + (r.exchanges.length + 1)
    omega

/-- The command `kind` comes next behind some stages, as number `n`. -/
def Next (past : List Stage) (n : Nat) (kind : DeviceCommand) : Prop :=
  protocol[n]? = some (Stage.phaseAfter past, kind) ∧
    past.filterMap Stage.command? = (protocol.map Prod.snd).take n ∧ .verify ∉ past ∧
    .allocate ∈ past ∧ (2 ≤ n → .createEvent ∈ past) ∧ (3 ≤ n → .installGuard ∈ past) ∧
    (4 ≤ n ↔ .await ∈ past)

instance (past : List Stage) (n : Nat) (kind : DeviceCommand) : Decidable (Next past n kind) := by
  unfold Next; infer_instance

/-- Every command comes next behind the stages before its own. -/
theorem Stage.next {s : Stage} {kind : DeviceCommand} (h : s.command? = some kind) :
    ∃ n, Next s.before n kind := by
  cases s with
  | setArguments => cases h; exact ⟨0, by decide⟩
  | loadFirmware => cases h; exact ⟨1, by decide⟩
  | registerCaller => cases h; exact ⟨2, by decide⟩
  | runFirmware => cases h; exact ⟨3, by decide⟩
  | unregisterCaller => cases h; exact ⟨4, by decide⟩
  | getArguments => cases h; exact ⟨5, by decide⟩
  | _ => cases h

theorem Passed.length_exchanges (hp : Passed c past r) :
    r.exchanges.length = (past.filterMap Stage.command?).length := by
  rw [← hp.sent, List.length_map, List.length_reverse]

theorem Passed.sent_take (hp : Passed c past r) {n : Nat}
    (h : past.filterMap Stage.command? = (protocol.map Prod.snd).take n) :
    Sent n r.exchanges.reverse :=
  ⟨hp.sent.trans h, fun x hx => hp.succeeded x (List.mem_reverse.mp hx)⟩

/-- One more exchange, behind those of the stages passed. -/
theorem Passed.sent_afterReply (hp : Passed c past r) (cmd : Command) :
    (r.afterReply c.host cmd (c.transport.submit r.device cmd)).exchanges.reverse.map
      (·.command.kind) = past.filterMap Stage.command? ++ [cmd.kind] := by
  rw [← hp.sent]
  change ((_ :: r.exchanges).reverse.map _) = _
  rw [List.reverse_cons, List.map_append]
  rfl

theorem Next.length_eq {n : Nat} {kind : DeviceCommand} (hnext : Next past n kind)
    (hp : Passed c past r) : r.exchanges.length = n := by
  have hlt : n < protocol.length := (List.getElem?_eq_some_iff.mp hnext.1).1
  rw [hp.length_exchanges, hnext.2.1, List.length_take, List.length_map]
  omega

/-- Whatever has to go well before a command has gone well when the command comes next. -/
theorem Passed.admitted {n : Nat} {kind : DeviceCommand} (hp : Passed c past r)
    (hnext : Next past n kind) (x : Exchange) : Admitted c (r.exchanges.reverse ++ [x]) := by
  have hn := hnext.length_eq hp
  obtain ⟨-, -, -, hallocate, hcreate, hguard, hawait⟩ := hnext
  have hlength : (r.exchanges.reverse ++ [x]).length = n + 1 := by simp [hn]
  refine ⟨fun _ => hp.cleared.located, fun _ => hp.cleared.records hallocate,
    fun h => hp.cleared.event (hcreate ?_), fun h => hp.cleared.guard (hguard ?_), fun h => ?_⟩
  · omega
  · omega
  · rw [List.take_append_of_le_length (by rw [List.length_reverse]; omega)]
    exact hp.waited (hawait.mp (by omega))

theorem Cleared.append {s : Stage} (h : Cleared c past)
    (records : s = .allocate → ∃ records, c.records = .ok records)
    (event : s = .createEvent → c.machine.eventRefused = none)
    (guard : s = .installGuard → ∃ held, c.guard = .ok held) : Cleared c (past ++ [s]) where
  located := h.located
  records hs := (List.mem_append.mp hs).elim h.records fun hs =>
    records (List.mem_singleton.mp hs).symm
  event hs := (List.mem_append.mp hs).elim h.event fun hs => event (List.mem_singleton.mp hs).symm
  guard hs := (List.mem_append.mp hs).elim h.guard fun hs => guard (List.mem_singleton.mp hs).symm

theorem Stage.mem_before_append {s q : Stage} {kind : DeviceCommand} (hs : s.command? = some kind)
    (hq : q.command? = none) : q ∈ s.before ++ [s] ↔ q ∈ s.before := by
  rw [List.mem_append, List.mem_singleton, or_iff_left]
  rintro rfl
  rw [hs] at hq
  cases hq

theorem Passed.kept_afterReply {n : Nat} {kind : DeviceCommand} {cmd : Command} (hp : Passed c past r)
    (hnext : Next past n kind) (hbrought : ∀ given, cmd.records? = some given → r.records = some given) :
    Kept c 1 (r.afterReply c.host cmd (c.transport.submit r.device cmd)) := by
  have hpos := List.length_pos_of_mem hnext.2.2.2.1
  have hkept := hp.kept.afterReply hbrought
  rwa [show min past.length 1 = 1 by omega] at hkept

/-- A command that succeeds passes its stage. -/
theorem Passed.answered {n : Nat} {s : Stage} {cmd : Command} (hp : Passed c s.before r)
    (hs : s.command? = some cmd.kind) (hnext : Next s.before n cmd.kind)
    (hbrought : ∀ given, cmd.records? = some given → r.records = some given)
    (houtcome : (c.transport.submit r.device cmd).outcome = .ok ()) :
    Passed c (s.before ++ [s])
      ((r.afterReply c.host cmd (c.transport.submit r.device cmd)).advance s.phase) := by
  have hlength := hnext.length_eq hp
  have hpast {q : Stage} := Stage.mem_before_append (q := q) hs
  obtain ⟨-, -, hverify, hallocate, -, -, hawait⟩ := id hnext
  exact {
    cleared := hp.cleared.append (fun h => by rw [h] at hs; cases hs)
      (fun h => by rw [h] at hs; cases hs) (fun h => by rw [h] at hs; cases hs)
    kept := by
      rw [show min (s.before ++ [s]).length 1 = 1 by simp]
      exact (hp.kept_afterReply hnext hbrought).advance s.phase
    phase := by
      change s.phase = _
      simp [Stage.phaseAfter]
    sent := by
      rw [List.filterMap_append, List.filterMap_cons, hs]
      exact hp.sent_afterReply cmd
    succeeded := fun x hx => by
      rcases List.mem_cons.mp hx with rfl | hx
      · exact houtcome
      · exact hp.succeeded x hx
    records := by
      change (r.recordsAfter cmd (c.transport.submit r.device cmd)).isSome = _
      simp only [Run.isSome_recordsAfter, hp.records, @hpast .allocate rfl, @hpast .verify rfl]
    signals := fun h => hp.signals (mt (hpast rfl).mpr h)
    event := fun h => by
      change CompletionEvent.meet r.event _ _ = eventAfter (_ :: r.exchanges).reverse
      rw [List.reverse_cons, eventAfter_append, hp.event (mt (hpast rfl).mpr h)]
    waited := fun h => by
      have h := (hpast rfl).mp h
      change ∃ e taken, eventAfter ((_ :: r.exchanges).reverse.take 4) = .ok e ∧ _
      rw [List.reverse_cons, List.take_append_of_le_length (by
        rw [List.length_reverse, hlength]; exact hawait.mpr h)]
      exact hp.waited h
    back := fun _ => by
      have hheld : r.records.isSome = true := by simp [hp.records, hallocate, hverify]
      rw [← Run.isSome_recordsAfter r cmd (c.transport.submit r.device cmd)] at hheld
      obtain ⟨records, hrecords⟩ := Option.isSome_iff_exists.mp hheld
      exact ⟨_, _, records, rfl, hrecords, fun _ => hrecords,
        fun h => absurd ((hpast rfl).mp h) hverify⟩ }

/-- A command that fails ends the run in the phase in which it was sent. -/
theorem Passed.refused {n : Nat} {cmd : Command} {fault : Error} (hp : Passed c past r)
    (hnext : Next past n cmd.kind)
    (hbrought : ∀ given, cmd.records? = some given → r.records = some given)
    (houtcome : (c.transport.submit r.device cmd).outcome = .error fault) :
    Ended c (r.afterReply c.host cmd (c.transport.submit r.device cmd)) (.failed fault) := by
  refine ⟨?_, ?_, ?_, nofun⟩
  · change Kept c (min (r.exchanges.length + 1) 1) _
    rw [show min (r.exchanges.length + 1) 1 = 1 by omega]
    exact hp.kept_afterReply hnext hbrought
  · change Exit c (_ :: r.exchanges).reverse r.session.phase _
    rw [List.reverse_cons, hp.phase]
    exact .refused (hp.sent_take hnext.2.1) hnext.1 houtcome
  · change Admitted c (_ :: r.exchanges).reverse
    rw [List.reverse_cons]
    exact hp.admitted hnext _

theorem Passed.command {s : Stage} {cmd : Command} (hp : Passed c s.before r)
    (hs : s.command? = some cmd.kind)
    (hbrought : ∀ given, cmd.records? = some given → r.records = some given) :
    Goes c s.before s (r.command c.transport c.host cmd s.phase) := by
  obtain ⟨n, hnext⟩ := Stage.next hs
  cases houtcome : (c.transport.submit r.device cmd).outcome with
  | ok =>
    exact .inl ⟨_, Run.command_of_ok houtcome, hp.answered hs hnext hbrought houtcome⟩
  | error fault =>
    exact .inr ⟨_, _, Run.command_of_error houtcome, hp.refused hnext hbrought houtcome⟩

/-! ### Stages without a command -/

/-- What has gone well before some stages admits the commands sent there. -/
def Allowed (past : List Stage) (n : Nat) : Prop :=
  past.filterMap Stage.command? = (protocol.map Prod.snd).take n ∧ n ≤ 6 ∧ .allocate ∈ past ∧
    (3 ≤ n → .createEvent ∈ past) ∧ (4 ≤ n → .installGuard ∈ past) ∧ (5 ≤ n → .await ∈ past)

instance (past : List Stage) (n : Nat) : Decidable (Allowed past n) := by
  unfold Allowed; infer_instance

/-- A stage without a command ends the run as it is. -/
theorem Passed.ended {n : Nat} {r' : Run σ} {outcome : Outcome} (hp : Passed c past r)
    (hallowed : Allowed past n) (hpos : 1 ≤ n) (hkept : Kept c 1 r')
    (hexchanges : r'.exchanges = r.exchanges)
    (hexit : Sent n r.exchanges.reverse → Exit c r.exchanges.reverse r'.session.phase outcome)
    (hheld : r'.records.isSome) : Ended c r' outcome := by
  obtain ⟨hsent, hn, hallocate, hcreate, hguard, hawait⟩ := hallowed
  have hlength : r.exchanges.length = n := by
    rw [hp.length_exchanges, hsent, List.length_take, List.length_map]
    exact Nat.min_eq_left hn
  refine ⟨?_, ?_, ?_, fun _ => hheld⟩
  · rwa [hexchanges, hlength, Nat.min_eq_right hpos]
  · rw [hexchanges]
    exact hexit (hp.sent_take hsent)
  · rw [hexchanges]
    refine ⟨fun _ => hp.cleared.located, fun _ => hp.cleared.records hallocate,
      fun h => hp.cleared.event (hcreate ?_), fun h => hp.cleared.guard (hguard ?_),
      fun h => hp.waited (hawait ?_)⟩ <;>
      simpa [hlength] using h

theorem Passed.allocate (hp : Passed c [] r) : Goes c [] .allocate r.allocate := by
  have hexchanges : r.exchanges = [] := by simpa using hp.sent
  have hrecords : r.records = none := by simpa using hp.records
  have hkept := hp.kept
  unfold Run.allocate
  rw [hkept.descriptors, show Records.allocate c.arguments.descriptors = c.records from rfl]
  cases hc : c.records with
  | ok records =>
    refine .inl ⟨_, rfl, ?_⟩
    have hlength := Records.length_of_allocate hc
    exact {
      cleared := hp.cleared.append (fun _ => ⟨records, hc⟩) nofun nofun
      kept := {
        settings := hkept.settings
        descriptors := hkept.descriptors
        eventRefused := hkept.eventRefused
        conversation := hkept.conversation
        allocated := congrArg (· + 1) hkept.allocated
        released := by
          have := hkept.released
          rw [hrecords] at this
          exact congrArg (· + 1) this
        bytes := by
          have := hkept.bytes
          change r.session.stats.recordBytes + records.bytes.length = _
          rw [this, hlength]
          simp [ArgumentList.size]
        issued := hkept.issued }
      phase := hp.phase
      sent := hp.sent
      succeeded := hp.succeeded
      records := rfl
      signals := fun _ => hp.signals (by decide)
      event := fun _ => hp.event (by decide)
      waited := fun h => absurd h (by decide)
      back := fun h => absurd h (by decide) }
  | error fault =>
    refine .inr ⟨_, _, rfl, ?_, ?_, ?_, nofun⟩
    · rw [hexchanges]
      exact hkept
    · rw [hexchanges, hp.phase]
      exact .noMemory hc
    · rw [hexchanges]
      exact .nil

theorem Passed.createEvent (hp : Passed c (Stage.before .createEvent) r) :
    Goes c (Stage.before .createEvent) .createEvent r.createEvent := by
  unfold Run.createEvent
  rw [hp.kept.eventRefused]
  cases hc : c.machine.eventRefused with
  | none =>
    refine .inl ⟨_, rfl, ?_⟩
    exact {
      cleared := hp.cleared.append nofun (fun _ => hc) nofun
      kept := hp.kept
      phase := hp.phase
      sent := hp.sent
      succeeded := hp.succeeded
      records := hp.records
      signals := fun _ => hp.signals (by decide)
      event := fun _ => hp.event (by decide)
      waited := fun h => absurd h (by decide)
      back := fun h => absurd h (by decide) }
  | some cause =>
    refine .inr ⟨_, _, rfl, hp.ended (n := 2) (by decide) (by decide) hp.kept rfl ?_ hp.records⟩
    intro hsent
    rw [hp.phase]
    exact .noEvent hsent hc

theorem Passed.installGuard (hp : Passed c (Stage.before .installGuard) r) :
    Goes c (Stage.before .installGuard) .installGuard
      (r.installGuard c.transport.path) := by
  have hinstall : r.signals.install r.session.settings.interruptSignal c.transport.path = c.guard := by
    rw [hp.signals (by decide), hp.kept.settings]
    rfl
  unfold Run.installGuard
  rw [hinstall]
  cases hc : c.guard with
  | ok held =>
    refine .inl ⟨_, rfl, ?_⟩
    exact {
      cleared := hp.cleared.append nofun nofun fun _ => ⟨_, hc⟩
      kept := hp.kept.congr rfl rfl rfl rfl rfl rfl rfl
      phase := hp.phase
      sent := hp.sent
      succeeded := hp.succeeded
      records := hp.records
      signals := fun h => absurd (by decide) h
      event := fun _ => hp.event (by decide)
      waited := fun h => absurd h (by decide)
      back := fun h => absurd h (by decide) }
  | error fault =>
    refine .inr ⟨_, _, rfl, hp.ended (n := 3) (by decide) (by decide) hp.kept rfl ?_ hp.records⟩
    intro hsent
    rw [hp.phase]
    exact .noGuard hsent hc

/-- The wait ends with the event, fails with it, or does not end. -/
theorem Passed.await (hp : Passed c (Stage.before .await) r) :
    Goes c (Stage.before .await) .await r.await := by
  have hevent := hp.event (by decide)
  unfold Run.await
  cases he : eventAfter r.exchanges.reverse with
  | error cause =>
    rw [he] at hevent
    simp only [Run.advance, hevent]
    refine .inr ⟨_, _, rfl, hp.ended (n := 4) (by decide) (by decide)
      (hp.kept.congr rfl rfl rfl rfl rfl rfl rfl) rfl ?_ hp.records⟩
    exact fun hsent => .waitFailed hsent he
  | ok e =>
    rw [he] at hevent
    simp only [Run.advance, hevent]
    cases hw : e.wait with
    | none =>
      refine .inr ⟨_, _, rfl, hp.ended (n := 4) (by decide) (by decide)
        (hp.kept.congr rfl rfl rfl rfl rfl rfl rfl) rfl ?_ hp.records⟩
      exact fun hsent => .unsignalled hsent he hw
    | some taken =>
      refine .inl ⟨_, rfl, ?_⟩
      exact {
        cleared := hp.cleared.append nofun nofun nofun
        kept := hp.kept.congr rfl rfl rfl rfl rfl rfl rfl
        phase := rfl
        sent := hp.sent
        succeeded := hp.succeeded
        records := hp.records
        signals := fun h => absurd (by decide) h
        event := fun h => absurd (by decide) h
        waited := fun _ => ⟨e, taken, by
          rw [List.take_of_length_le]
          · exact he
          · rw [List.length_reverse, hp.length_exchanges]
            decide, hw⟩
        back := fun h => absurd h (by decide) }

theorem Passed.dropGuard (hp : Passed c (Stage.before .dropGuard) r) :
    Passed c (Stage.before .dropGuard ++ [.dropGuard]) r.dropGuard where
  cleared := hp.cleared.append nofun nofun nofun
  kept := hp.kept.dropGuard
  phase := by
    rw [Run.session_dropGuard, hp.phase]
    rfl
  sent := by
    rw [Run.exchanges_dropGuard, hp.sent]
    rfl
  succeeded := by
    rw [Run.exchanges_dropGuard]
    exact hp.succeeded
  records := by
    rw [Run.records_dropGuard, hp.records]
    rfl
  signals := fun h => absurd (by decide) h
  event := fun h => absurd (by decide) h
  waited := fun _ => by
    rw [Run.exchanges_dropGuard]
    exact hp.waited (by decide)
  back := fun h => absurd h (by decide)

/-- A run whose records have been read and found unchanged gives them back. -/
theorem Passed.checked {x : Exchange} {earlier : List Exchange} {records : Records}
    {returned : List Descriptor} (hp : Passed c (Stage.before .verify) r)
    (hexchanges : r.exchanges = x :: earlier) (hback : x.records = some records)
    (hrecords : r.records = some records) (hread : Records.read records.bytes = .ok returned)
    (hm : Mismatch.first? c.arguments.descriptors returned = none) :
    Passed c (Stage.before .verify ++ [.verify])
      ((Run.advance { r with records := some records, returned } .resultsRead).releaseRecords.advance
        .done) := by
  have hkept : Kept c 1 (Run.advance { r with records := some records, returned } .resultsRead) :=
    hp.kept.congr rfl rfl rfl rfl rfl rfl hrecords.symm
  exact {
    cleared := hp.cleared.append nofun nofun nofun
    kept := hkept.releaseRecords.advance .done
    phase := rfl
    sent := by
      change (Run.releaseRecords _).exchanges.reverse.map _ = _
      rw [Run.exchanges_releaseRecords]
      exact hp.sent
    succeeded := by
      change ∀ x ∈ (Run.releaseRecords _).exchanges, _
      rw [Run.exchanges_releaseRecords]
      exact hp.succeeded
    records := by
      change (Run.releaseRecords _).records.isSome = _
      rw [Run.records_releaseRecords]
      rfl
    signals := fun h => absurd (by decide) h
    event := fun h => absurd (by decide) h
    waited := fun _ => by
      change ∃ e taken, eventAfter ((Run.releaseRecords _).exchanges.reverse.take 4) = .ok e ∧ _
      rw [Run.exchanges_releaseRecords]
      exact hp.waited (by decide)
    back := fun _ => by
      refine ⟨x, earlier, records, ?_, hback, fun h => absurd (by decide) h, fun _ => ?_⟩
      · change (Run.releaseRecords _).exchanges = _
        rw [Run.exchanges_releaseRecords]
        exact hexchanges
      · change Records.read records.bytes = .ok (Run.releaseRecords _).returned ∧ _
        rw [Run.returned_releaseRecords]
        exact ⟨hread, hm⟩ }

/-- The records that are read are those of the last exchange. -/
theorem Passed.verify (hp : Passed c (Stage.before .verify) r) :
    Goes c (Stage.before .verify) .verify r.verify := by
  obtain ⟨x, earlier, records, hexchanges, hback, hheld, -⟩ := hp.back (by decide)
  have hrecords := hheld (by decide)
  have hsome : r.records.isSome := hp.records
  have hreverse : r.exchanges.reverse = earlier.reverse ++ [x] := by
    rw [hexchanges, List.reverse_cons]
  unfold Run.verify
  rw [hp.kept.descriptors, hrecords, Option.map_some, Option.getD_some]
  cases hread : Records.read records.bytes with
  | error fault =>
    refine .inr ⟨_, _, rfl, hp.ended (n := 6) (by decide) (by decide) hp.kept rfl ?_ hsome⟩
    intro hsent
    rw [hreverse] at hsent ⊢
    rw [hp.phase]
    exact .unreadable hsent hback hread
  | ok returned =>
    cases hm : Mismatch.first? c.arguments.descriptors returned with
    | some m =>
      simp only [hm]
      refine .inr ⟨_, _, rfl, hp.ended (n := 6) (by decide) (by decide) hp.kept rfl ?_ hsome⟩
      intro hsent
      rw [hreverse] at hsent ⊢
      rw [hp.phase]
      exact .changed hsent hback hread hm
    | none =>
      simp only [hm]
      exact .inl ⟨_, rfl, hp.checked hexchanges hback hrecords hread hm⟩

/-! ### Any stage -/

/-- Each stage, behind those before it, passes or ends the run. -/
theorem Passed.act (image : Image) (s : Stage) (hp : Passed c s.before r) :
    Goes c s.before s (s.act c.transport c.host image r) := by
  cases s with
  | allocate => exact hp.allocate
  | setArguments =>
    obtain ⟨records, hrecords⟩ := Option.isSome_iff_exists.mp hp.records
    have hact : Stage.setArguments.act c.transport c.host image r =
        r.command c.transport c.host (.setArguments records) .argumentsWritten := by
      simp only [Stage.act, hrecords]
    rw [hact]
    refine hp.command rfl fun given hgiven => ?_
    rwa [← Option.some.inj hgiven]
  | loadFirmware => exact hp.command rfl nofun
  | createEvent => exact hp.createEvent
  | registerCaller => exact hp.command rfl nofun
  | installGuard => exact hp.installGuard
  | runFirmware => exact hp.command rfl nofun
  | await => exact hp.await
  | unregisterCaller => exact hp.command rfl nofun
  | dropGuard => exact .inl ⟨_, rfl, hp.dropGuard⟩
  | getArguments =>
    obtain ⟨records, hrecords⟩ := Option.isSome_iff_exists.mp hp.records
    have hact : Stage.getArguments.act c.transport c.host image r =
        r.command c.transport c.host (.getArguments records) .callerUnregistered := by
      simp only [Stage.act, hrecords]
    rw [hact]
    refine hp.command rfl fun given hgiven => ?_
    rwa [← Option.some.inj hgiven]
  | verify => exact hp.verify

end AccelKrylov
