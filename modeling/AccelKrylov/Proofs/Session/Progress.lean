import AccelKrylov.Session.Interleaving
import AccelKrylov.Proofs.Session.Memory
import AccelKrylov.Proofs.Signal.Restore

/-! How far a run has come, whatever goes on around it. The machine may have changed since the stage before,
so that all that can be said of a run behind some stages is which commands it has sent, whether it has its
records, and that it has no guard before it installs one. The place for a guard is the run's throughout. -/

namespace AccelKrylov

variable {σ : Type} {t : Transport σ} {h : Host} {image : Image} {r : Run σ} {s : Stage}

/-! ### What stages do, whatever goes on around them -/

/-- What a run has sent and holds that has gone through some stages. -/
structure Gone (gone : List Stage) (r : Run σ) : Prop where
  sent : r.commands.map Command.kind = gone.filterMap Stage.command?
  records : r.records.isSome = decide (.allocate ∈ gone ∧ .verify ∉ gone)
  guard : .installGuard ∉ gone → r.guard = none

/-- The place for a guard is the run's. -/
def Run.HasSlot (r : Run σ) : Prop := r.signals.slot = r.guard.map Guard.slot

/-- The commands of a run come first in the protocol. -/
def Run.InOrder (r : Run σ) : Prop := r.commands.map Command.kind <+: protocol.map Prod.snd

theorem Run.commands_resume (r : Run σ) (machine : Machine σ) :
    (r.resume machine).commands = r.commands := rfl

theorem Run.Silent.commands {r' : Run σ} (hr : r.Silent r') : r'.commands = r.commands := by
  unfold Run.commands
  rw [hr.exchanges]

/-- What a stage sends, it sends to the device and behind the other commands. -/
theorem Stage.act_sends (t : Transport σ) (h : Host) (image : Image) (s : Stage) (r : Run σ) :
    ∃ sent, (s.act t h image r).1.commands = r.commands ++ sent ∧
      (s.act t h image r).1.device = t.after r.device sent := by
  obtain ⟨cmd, phase, -, -, hact⟩ | ⟨hsilent, -⟩ := s.act_cases t h image r
  · refine ⟨[cmd], ?_⟩
    rw [hact]
    unfold Run.command
    dsimp only
    split <;> exact ⟨by simp [Run.commands, Run.afterReply, Run.advance], rfl⟩
  · refine ⟨[], ?_, hsilent.device⟩
    rw [Run.commands, hsilent.exchanges, List.append_nil]
    rfl

theorem Run.HasSlot.dropGuard (hr : r.HasSlot) : r.dropGuard.HasSlot := by
  unfold Run.dropGuard
  split
  next guard _ =>
    unfold Run.HasSlot Signals.drop
    dsimp only
    split <;> rfl
  · exact hr

theorem Run.HasSlot.releaseRecords (hr : r.HasSlot) : r.releaseRecords.HasSlot := by
  unfold Run.releaseRecords
  split <;> exact hr

theorem Run.HasSlot.command (hr : r.HasSlot) (t : Transport σ) (h : Host) (cmd : Command)
    (phase : Phase) : (r.command t h cmd phase).1.HasSlot := by
  unfold Run.command
  dsimp only
  split <;> exact hr

/-- A guard that is installed fills the place; one that is refused leaves it as it is. -/
theorem Run.HasSlot.installGuard (hr : r.HasSlot) (stopPath : Option String) :
    (r.installGuard stopPath).1.HasSlot := by
  unfold Run.installGuard
  split
  next guard signals heq =>
    obtain ⟨-, -, -, -, rfl⟩ := Signals.install_eq_ok_iff.mp heq
    rfl
  · exact hr

theorem Run.HasSlot.act (hr : r.HasSlot) (t : Transport σ) (h : Host) (image : Image) (s : Stage) :
    (s.act t h image r).1.HasSlot := by
  cases s with
  | loadFirmware | registerCaller | runFirmware | unregisterCaller => exact hr.command ..
  | setArguments | getArguments =>
    rw [Stage.act]
    split
    · exact hr.command ..
    · exact hr
  | allocate =>
    change r.allocate.1.HasSlot
    unfold Run.allocate
    split <;> exact hr
  | createEvent =>
    change r.createEvent.1.HasSlot
    unfold Run.createEvent
    split <;> exact hr
  | installGuard => exact hr.installGuard t.path
  | await =>
    change r.await.1.HasSlot
    unfold Run.await
    dsimp only
    split
    · exact hr
    · split <;> exact hr
  | dropGuard => exact hr.dropGuard
  | verify =>
    change r.verify.1.HasSlot
    unfold Run.verify
    split
    · exact hr
    · split
      · exact hr
      · exact Run.HasSlot.releaseRecords (r := Run.advance _ _) hr

/-! ### One stage behind the others -/

namespace Gone

/-- What a stage leaves behind: it was passed, or it ended the run, or it has to be tried again. -/
structure Left (s : Stage) (after : Run σ) (ended : Option Outcome) : Prop where
  passed : ended = none → Gone (s.before ++ [s]) after
  waits : ended = some .waiting → Gone s.before after
  inOrder : after.InOrder

theorem inOrder {gone left : List Stage} (hr : Gone gone r) (h : Stage.order = gone ++ left) :
    r.InOrder := by
  have hprefix := (List.prefix_append gone left).filterMap Stage.command?
  rw [← h] at hprefix
  unfold Run.InOrder
  rw [hr.sent]
  exact hprefix

theorem inOrder_before (hr : Gone s.before r) : r.InOrder := by
  obtain ⟨left, horder⟩ : ∃ left, Stage.order = s.before ++ left := by cases s <;> exact ⟨_, rfl⟩
  exact hr.inOrder horder

theorem inOrder_through (hr : Gone (s.before ++ [s]) r) : r.InOrder := by
  obtain ⟨left, horder⟩ : ∃ left, Stage.order = (s.before ++ [s]) ++ left := by
    cases s <;> exact ⟨_, rfl⟩
  exact hr.inOrder horder

theorem resume {gone : List Stage} (hr : Gone gone r) (machine : Machine σ) :
    Gone gone (r.resume machine) := ⟨hr.sent, hr.records, hr.guard⟩

theorem begin (session : Session) (arguments : ArgumentList) (machine : Machine σ) :
    Gone [] (session.begin arguments machine) := ⟨rfl, rfl, fun _ => rfl⟩

/-- A command is one more, and nothing else that stages hold changes with it. -/
theorem command (hr : Gone s.before r) {cmd : Command} (hs : s.command? = some cmd.kind)
    (phase : Phase) :
    Left s (r.command t h cmd phase).1 (r.command t h cmd phase).2 := by
  have hpast {q : Stage} := Stage.mem_before_append (q := q) hs
  have hafter (after : Run σ) (hcommands : after.commands = r.commands ++ [cmd])
      (hrecords : after.records.isSome = r.records.isSome) (hguard : after.guard = r.guard) :
      Gone (s.before ++ [s]) after := by
    refine ⟨?_, ?_, fun hinstall => ?_⟩
    · rw [hcommands, List.map_append, hr.sent, List.filterMap_append, List.filterMap_cons, hs]
      rfl
    · simp only [hrecords, hr.records, @hpast .allocate rfl, @hpast .verify rfl]
    · rw [hguard]
      exact hr.guard (mt (hpast rfl).mpr hinstall)
  have hreply := hafter (r.afterReply h cmd (t.submit r.device cmd))
    (by simp [Run.commands, Run.afterReply]) (Run.isSome_recordsAfter ..) rfl
  cases houtcome : (t.submit r.device cmd).outcome with
  | ok =>
    rw [Run.command_of_ok houtcome]
    exact ⟨fun _ => ⟨hreply.sent, hreply.records, hreply.guard⟩,
      fun h => absurd h.symm (Option.some_ne_none _), hreply.inOrder_through⟩
  | error fault =>
    rw [Run.command_of_error houtcome]
    exact ⟨fun h => absurd h (Option.some_ne_none _),
      fun h => Outcome.noConfusion (Option.some.inj h), hreply.inOrder_through⟩

/-- A stage without a command sends nothing. -/
theorem commands_act (hs : s.command? = none) (t : Transport σ) (h : Host) (image : Image) (r : Run σ) :
    (s.act t h image r).1.commands = r.commands := by
  obtain ⟨cmd, phase, hkind, -⟩ | ⟨hsilent, -⟩ := s.act_cases t h image r
  · rw [hs] at hkind
    cases hkind
  · exact hsilent.commands

section
variable (after : Run σ) (outcome : Outcome)

/-- A stage without a command that passes; what it makes of the records and of the guard is left to show. -/
theorem passes (hr : Gone s.before r) (hact : s.act t h image r = (after, none)) (hs : s.command? = none)
    (records : after.records.isSome = decide (.allocate ∈ s.before ++ [s] ∧ .verify ∉ s.before ++ [s]))
    (guard : .installGuard ∉ s.before ++ [s] → after.guard = none) :
    Left s (s.act t h image r).1 (s.act t h image r).2 := by
  have hcommands := commands_act hs t h image r
  rw [hact] at hcommands ⊢
  have hgone : Gone (s.before ++ [s]) after := by
    refine ⟨?_, records, guard⟩
    rw [hcommands, hr.sent, List.filterMap_append, List.filterMap_cons, hs, List.filterMap_nil,
      List.append_nil]
  exact ⟨fun _ => hgone, fun h => absurd h.symm (Option.some_ne_none _), hgone.inOrder_through⟩

/-- A stage without a command that does not pass; a run that waits holds what it held. -/
theorem ends (hr : Gone s.before r) (hact : s.act t h image r = (after, some outcome))
    (hs : s.command? = none)
    (waits : outcome = .waiting → after.records = r.records ∧ after.guard = r.guard) :
    Left s (s.act t h image r).1 (s.act t h image r).2 := by
  have hcommands := commands_act hs t h image r
  rw [hact] at hcommands ⊢
  refine ⟨fun h => absurd h (Option.some_ne_none _), fun hwaiting => ?_, ?_⟩
  · obtain ⟨hrecords, hguard⟩ := waits (Option.some.inj hwaiting)
    exact ⟨hcommands ▸ hr.sent, hrecords ▸ hr.records, hguard ▸ hr.guard⟩
  · unfold Run.InOrder
    rw [hcommands]
    exact hr.inOrder_before

end

/-- Behind the stages before it, every stage passes, waits or ends the run. -/
theorem act (hr : Gone s.before r) (t : Transport σ) (h : Host) (image : Image) :
    Left s (s.act t h image r).1 (s.act t h image r).2 := by
  cases s with
  | loadFirmware | registerCaller | runFirmware | unregisterCaller => exact hr.command rfl _
  | setArguments | getArguments =>
    obtain ⟨records, hrecords⟩ := Option.isSome_iff_exists.mp hr.records
    simp only [Stage.act, hrecords]
    exact hr.command rfl _
  | allocate =>
    cases hallocate : Records.allocate r.arguments.descriptors with
    | ok records =>
      refine hr.passes (r.holdRecords records) ?_ rfl rfl fun _ => hr.guard (by decide)
      simp only [Stage.act, Run.allocate, hallocate]
    | error fault =>
      refine hr.ends r (.failed (.ofAllocation fault)) ?_ rfl fun h => Outcome.noConfusion h
      simp only [Stage.act, Run.allocate, hallocate]
  | createEvent =>
    cases hrefused : r.eventRefused with
    | none =>
      refine hr.passes r ?_ rfl hr.records fun _ => hr.guard (by decide)
      simp only [Stage.act, Run.createEvent, hrefused]
    | some cause =>
      refine hr.ends r (.failed (.notification cause)) ?_ rfl fun h => Outcome.noConfusion h
      simp only [Stage.act, Run.createEvent, hrefused]
  | installGuard =>
    cases hinstall : r.signals.install r.session.settings.interruptSignal t.path with
    | ok made =>
      refine hr.passes { r with guard := some made.1, signals := made.2 } ?_ rfl hr.records
        fun hnot => absurd (by decide) hnot
      simp only [Stage.act, Run.installGuard, hinstall]
    | error fault =>
      refine hr.ends r (.failed (.ofGuard fault)) ?_ rfl fun h => Outcome.noConfusion h
      simp only [Stage.act, Run.installGuard, hinstall]
  | await =>
    cases hevent : r.event with
    | error cause =>
      refine hr.ends (r.advance .waiting) (.failed (.notification cause)) ?_ rfl
        fun h => Outcome.noConfusion h
      simp only [Stage.act, Run.await, Run.advance, hevent]
    | ok e =>
      cases hwait : e.wait with
      | none =>
        refine hr.ends (r.advance .waiting) .waiting ?_ rfl fun _ => ⟨rfl, rfl⟩
        simp only [Stage.act, Run.await, Run.advance, hevent, hwait]
      | some taken =>
        refine hr.passes (Run.advance { r.advance .waiting with event := .ok taken.2 } .completed)
          ?_ rfl hr.records fun hnot => absurd (by decide) hnot
        simp only [Stage.act, Run.await, Run.advance, hevent, hwait]
  | dropGuard =>
    refine hr.passes (r.dropGuard) rfl rfl ?_ fun _ => r.guard_dropGuard
    rw [Run.records_dropGuard]
    exact hr.records
  | verify =>
    cases hread : Records.read ((r.records.map Records.bytes).getD []) with
    | error fault =>
      refine hr.ends r (.failed (.ofRecord fault)) ?_ rfl fun h => Outcome.noConfusion h
      simp only [Stage.act, Run.verify, hread]
    | ok returned =>
      cases hm : Mismatch.first? r.arguments.descriptors returned with
      | some m =>
        refine hr.ends r (.failed (.ofMismatch m)) ?_ rfl fun h => Outcome.noConfusion h
        simp only [Stage.act, Run.verify, hread, hm]
      | none =>
        refine hr.passes ((Run.advance { r with returned } .resultsRead).releaseRecords.advance .done)
          ?_ rfl ?_ fun hnot => absurd (by decide) hnot
        · simp only [Stage.act, Run.verify, hread, hm]
        · change (Run.releaseRecords _).records.isSome = _
          rw [Run.records_releaseRecords]
          rfl

end Gone

/-! ### Giving back -/

theorem Run.HasSlot.release (hr : r.HasSlot) (holding : Holding) : (r.release holding).HasSlot := by
  cases holding with
  | guard => exact hr.dropGuard
  | records => exact hr.releaseRecords
  | event | lock => exact hr

theorem Run.silent_release (r : Run σ) (holding : Holding) : r.Silent (r.release holding) := by
  cases holding with
  | guard => exact .dropGuard r
  | records => exact .releaseRecords r
  | event | lock => exact .refl r

theorem Run.guard_release {holding : Holding} (h : r.guard = none ∨ holding = .guard) :
    (r.release holding).guard = none := by
  cases holding with
  | guard => exact r.guard_dropGuard
  | records =>
    change r.releaseRecords.guard = none
    rw [guard_releaseRecords]
    exact h.resolve_right nofun
  | event | lock => exact h.resolve_right nofun

end AccelKrylov
