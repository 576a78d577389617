import AccelKrylov.Proofs.Session.Stages

/-! What a run does, by induction over its stages: each of them sends its command or says nothing, and a run
passes them all, or one of them ends it in one of the ways of the table. -/

namespace AccelKrylov

variable {σ : Type} {c : Call σ} {r : Run σ} {began : Nat} {past : List Stage}

/-! ### What a stage says -/

/-- Nothing has been said between two moments of a run. -/
structure Run.Silent (r r' : Run σ) : Prop where
  exchanges : r'.exchanges = r.exchanges
  device : r'.device = r.device
  arguments : r'.arguments = r.arguments

namespace Run.Silent

variable {r r' r'' : Run σ}

theorem refl (r : Run σ) : r.Silent r := ⟨rfl, rfl, rfl⟩

theorem trans (h : r.Silent r') (h' : r'.Silent r'') : r.Silent r'' :=
  ⟨h'.exchanges.trans h.exchanges, h'.device.trans h.device, h'.arguments.trans h.arguments⟩

theorem releaseRecords (r : Run σ) : r.Silent r.releaseRecords := by
  unfold Run.releaseRecords
  split <;> exact ⟨rfl, rfl, rfl⟩

theorem dropGuard (r : Run σ) : r.Silent r.dropGuard := by
  unfold Run.dropGuard
  split <;> exact ⟨rfl, rfl, rfl⟩

theorem close (r : Run σ) (outcome : Outcome) : r.Silent (r.close outcome) := by
  cases outcome with
  | waiting => exact refl r
  | _ => exact (dropGuard r).trans (releaseRecords _)

end Run.Silent

/-- A stage sends its command, which brings the records if it brings any; or it says nothing, and the run
holds no other records than before, unless it has written those of the arguments. -/
theorem Stage.act_cases (t : Transport σ) (h : Host) (image : Image) (s : Stage) (r : Run σ) :
    (∃ cmd phase, s.command? = some cmd.kind ∧
      (∀ given, cmd.records? = some given → r.records = some given) ∧
      s.act t h image r = r.command t h cmd phase) ∨
    r.Silent (s.act t h image r).1 ∧ ∀ records ∈ (s.act t h image r).1.records,
      r.records = some records ∨ Records.allocate r.arguments.descriptors = .ok records := by
  have hbrought (given : Records) (h : (none : Option Records) = some given) : r.records = some given :=
    absurd h (Option.not_mem_none given)
  cases s with
  | allocate =>
    refine .inr ?_
    change r.Silent r.allocate.1 ∧ ∀ records ∈ r.allocate.1.records, _
    unfold Run.allocate
    split
    next records hrecords =>
      exact ⟨⟨rfl, rfl, rfl⟩, fun records' h' => .inr (Option.some.inj h' ▸ hrecords)⟩
    next => exact ⟨.refl r, fun records h => .inl h⟩
  | setArguments =>
    cases hrecords : r.records with
    | some records =>
      refine .inl ⟨.setArguments records, .argumentsWritten, rfl, fun given hgiven => ?_, ?_⟩
      · rw [← hgiven]
        rfl
      · simp only [Stage.act, hrecords]
    | none =>
      refine .inr ?_
      simp only [Stage.act, hrecords]
      exact ⟨.refl r, fun records h => absurd (hrecords ▸ h) (Option.not_mem_none records)⟩
  | loadFirmware => exact .inl ⟨.loadFirmware _ _, _, rfl, hbrought, rfl⟩
  | createEvent =>
    refine .inr ?_
    change r.Silent r.createEvent.1 ∧ ∀ records ∈ r.createEvent.1.records, _
    unfold Run.createEvent
    split <;> exact ⟨.refl r, fun records h => .inl h⟩
  | registerCaller => exact .inl ⟨.registerCaller _, _, rfl, hbrought, rfl⟩
  | installGuard =>
    refine .inr ?_
    change r.Silent (r.installGuard t.path).1 ∧ ∀ records ∈ (r.installGuard t.path).1.records, _
    unfold Run.installGuard
    split <;> exact ⟨⟨rfl, rfl, rfl⟩, fun records h => .inl h⟩
  | runFirmware => exact .inl ⟨.runFirmware, _, rfl, hbrought, rfl⟩
  | await =>
    refine .inr ?_
    change r.Silent r.await.1 ∧ ∀ records ∈ r.await.1.records, _
    unfold Run.await
    dsimp only
    split
    next => exact ⟨⟨rfl, rfl, rfl⟩, fun records h => .inl h⟩
    next => split <;> exact ⟨⟨rfl, rfl, rfl⟩, fun records h => .inl h⟩
  | unregisterCaller => exact .inl ⟨.unregisterCaller _, _, rfl, hbrought, rfl⟩
  | dropGuard =>
    refine .inr ⟨.dropGuard r, fun records h => .inl ?_⟩
    exact r.records_dropGuard ▸ h
  | getArguments =>
    cases hrecords : r.records with
    | some records =>
      refine .inl ⟨.getArguments records, .callerUnregistered, rfl, fun given hgiven => ?_, ?_⟩
      · rw [← hgiven]
        rfl
      · simp only [Stage.act, hrecords]
    | none =>
      refine .inr ?_
      simp only [Stage.act, hrecords]
      exact ⟨.refl r, fun records h => absurd (hrecords ▸ h) (Option.not_mem_none records)⟩
  | verify =>
    refine .inr ?_
    change r.Silent r.verify.1 ∧ ∀ records ∈ r.verify.1.records, _
    unfold Run.verify
    split
    next => exact ⟨.refl r, fun records h => .inl h⟩
    next returned _ =>
      split
      next => exact ⟨.refl r, fun records h => .inl h⟩
      next =>
        have hsilent := Run.Silent.releaseRecords (Run.advance { r with returned } .resultsRead)
        refine ⟨⟨hsilent.exchanges, hsilent.device, hsilent.arguments⟩, fun records h => ?_⟩
        have hnone := (Run.advance { r with returned } .resultsRead).records_releaseRecords
        exact absurd (hnone ▸ h) (Option.not_mem_none records)

/-! ### One stage after the other -/

theorem Stage.eq_before {s : Stage} {past left : List Stage} (h : order = past ++ s :: left) :
    past = s.before := by
  have hnodup : (past ++ s :: left).Nodup := h ▸ (by decide : order.Nodup)
  have hne : ∀ q ∈ past, decide (q ≠ s) = true := fun q hq =>
    decide_eq_true ((List.nodup_append.mp hnodup).2.2 q hq s List.mem_cons_self)
  unfold before
  rw [h, List.takeWhile_append_of_pos hne, List.takeWhile_cons_of_neg (by simp), List.append_nil]

/-- By induction over the stages that are left, a run passes them all or one of them ends it. -/
theorem Passed.actAll (image : Image) (left : List Stage) (h : Stage.order = past ++ left)
    (hp : Passed c past r) :
    (∃ r', Stage.actAll c.transport c.host image left r = (r', none) ∧ Passed c Stage.order r') ∨
      ∃ r' outcome, Stage.actAll c.transport c.host image left r = (r', some outcome) ∧
        Ended c r' outcome := by
  induction left generalizing past r with
  | nil =>
    rw [List.append_nil] at h
    exact .inl ⟨r, rfl, h ▸ hp⟩
  | cons s left ih =>
    obtain rfl := Stage.eq_before h
    rcases hp.act image s with ⟨r', hact, hr'⟩ | ⟨r', outcome, hact, hr'⟩
    · have hrest : Stage.order = (s.before ++ [s]) ++ left := by
        rw [h, List.append_assoc]
        rfl
      rw [Stage.actAll, hact]
      exact ih hrest hr'
    · rw [Stage.actAll, hact]
      exact .inr ⟨r', outcome, rfl, hr'⟩

/-! ### The run as a whole -/

theorem Kept.begin : Kept c 0 (c.session.begin c.arguments c.machine) where
  settings := rfl
  descriptors := rfl
  eventRefused := rfl
  conversation := .nil _
  allocated := rfl
  released := rfl
  bytes := by simp [Session.begin]
  issued := rfl

theorem Passed.begin {image : Image} (h : c.located = .ok image) :
    Passed c [] (c.session.begin c.arguments c.machine) where
  cleared := ⟨⟨image, h⟩, nofun, nofun, nofun⟩
  kept := .begin
  phase := rfl
  sent := rfl
  succeeded := fun _ hx => absurd hx List.not_mem_nil
  records := rfl
  signals := fun _ => rfl
  event := fun _ => rfl
  waited := nofun
  back := nofun

theorem Passed.finished (hp : Passed c Stage.order r) : Ended c r (.returned r.returned) := by
  have hlength : r.exchanges.length = 6 := hp.length_exchanges
  obtain ⟨x, earlier, records, hexchanges, hback, -, hchecked⟩ := hp.back (by decide)
  obtain ⟨hread, hm⟩ := hchecked (by decide)
  have hsent : Sent 6 r.exchanges.reverse := hp.sent_take rfl
  refine ⟨?_, ?_, ?_, nofun⟩
  · rw [hlength]
    exact hp.kept
  · rw [hexchanges, List.reverse_cons] at hsent ⊢
    rw [hp.phase]
    exact .finished hsent hback hread hm
  · exact ⟨fun _ => hp.cleared.located, fun _ => hp.cleared.records (by decide),
      fun _ => hp.cleared.event (by decide), fun _ => hp.cleared.guard (by decide),
      fun _ => hp.waited (by decide)⟩

theorem Call.ended (c : Call σ) :
    ∃ r outcome, c.run = (r.close outcome, outcome) ∧ Ended c r outcome := by
  cases hc : c.located with
  | error fault =>
    rw [c.run_of_error hc]
    exact ⟨c.session.begin c.arguments c.machine, .failed fault, rfl, .begin, .notLocated hc, .nil,
      fun h => Outcome.noConfusion h⟩
  | ok image =>
    rw [c.run_of_ok hc]
    rcases (Passed.begin hc).actAll image Stage.order rfl with
      ⟨r, hact, hr⟩ | ⟨r, outcome, hact, hr⟩
    · refine ⟨r, .returned r.returned, ?_, hr.finished⟩
      simp only [hact, Option.getD_none]
    · refine ⟨r, outcome, ?_, hr⟩
      simp only [hact, Option.getD_some]

theorem Kept.close (k : Kept c began r) (outcome : Outcome) : Kept c began (r.close outcome) := by
  cases outcome with
  | waiting => exact k
  | _ => exact k.dropGuard.releaseRecords

theorem Run.exchanges_close (r : Run σ) (outcome : Outcome) :
    (r.close outcome).exchanges = r.exchanges := by
  cases outcome <;> simp [Run.close]

theorem Run.phase_close (r : Run σ) (outcome : Outcome) :
    (r.close outcome).session.phase = r.session.phase := by
  cases outcome <;> simp [Run.close]

/-- A run that comes back holds nothing. -/
theorem Run.close_holds_nothing (r : Run σ) {outcome : Outcome} (h : outcome ≠ .waiting) :
    (r.close outcome).records = none ∧ (r.close outcome).guard = none := by
  have hclose : r.close outcome = r.dropGuard.releaseRecords := by
    cases outcome with
    | waiting => exact absurd rfl h
    | _ => rfl
  rw [hclose]
  exact ⟨records_releaseRecords _, by rw [guard_releaseRecords, guard_dropGuard]⟩

/-- What a run adds to the counts of its session. -/
def TransferStats.add (s : TransferStats) (allocated released bytes issued : Nat) : TransferStats :=
  ⟨s.recordsAllocated + allocated, s.recordsReleased + released, s.recordBytes + bytes,
    s.commandsIssued + issued⟩

/-- The counts at the end say how many commands were sent, and nothing is left to be given back unless
the run waits. -/
theorem Ended.stats {outcome : Outcome} (hr : Ended c r outcome) :
    (r.close outcome).session.stats = c.session.stats.add (min r.exchanges.length 1)
      (if outcome = .waiting then 0 else min r.exchanges.length 1)
      (min r.exchanges.length 1 * (8 + 32 * c.arguments.size)) r.exchanges.length := by
  have hkept := hr.kept.close outcome
  have hreleased := hkept.released
  have hissued := hkept.issued
  rw [Run.exchanges_close] at hissued
  have hgiven : (r.close outcome).session.stats.recordsReleased = c.session.stats.recordsReleased +
      if outcome = .waiting then 0 else min r.exchanges.length 1 := by
    split
    next hw =>
      subst hw
      have hlength := hr.exit.length_of_waiting
      obtain ⟨records, hrecords⟩ := Option.isSome_iff_exists.mp (hr.held rfl)
      rw [List.length_reverse] at hlength
      change r.session.stats.recordsReleased + r.records.toList.length = _ at hreleased
      rw [hrecords, hlength] at hreleased
      exact Nat.add_right_cancel hreleased
    next hw =>
      rw [(Run.close_holds_nothing r hw).1] at hreleased
      exact hreleased
  cases hstats : (r.close outcome).session.stats with
  | mk allocated released bytes issued =>
    rw [hstats] at hgiven hissued
    have hallocated := hkept.allocated
    have hbytes := hkept.bytes
    rw [hstats] at hallocated hbytes
    simp only [TransferStats.add, TransferStats.mk.injEq]
    exact ⟨hallocated, hgiven, hbytes, hissued⟩

/-- Whatever the device, the configuration, the firmware and the arguments are, and whatever was done in
the session before: a run sends a front of the protocol's commands, every one but the last succeeds, and
one that fails is what the run reports; the run ends in one of the ways of the table, in the phase that
the last step brought it to, which is the last phase exactly when results are returned; and it has
allocated one array of records if it has sent anything, which is given back unless it waits for ever. -/
theorem run_follows_protocol (c : Call σ) :
    ∃ r outcome sent, c.run = (r, outcome) ∧ r.exchanges = sent.reverse ∧
      Conversation c.transport c.machine.device r.exchanges r.device ∧
      sent.map (·.command.kind) <+: protocol.map Prod.snd ∧
      (∀ x ∈ sent.dropLast, x.outcome = .ok ()) ∧
      (∀ x fault, x ∈ sent → x.outcome = .error fault → outcome = .failed fault) ∧
      Exit c sent r.session.phase outcome ∧
      Admitted c sent ∧
      (r.session.phase = .done ↔ ∃ returned, outcome = .returned returned) ∧
      r.session.settings = c.session.settings ∧
      (r.session.stats = c.session.stats.add (min sent.length 1)
        (if outcome = .waiting then 0 else min sent.length 1)
        (min sent.length 1 * (8 + 32 * c.arguments.size)) sent.length) ∧
      (outcome ≠ .waiting → r.records = none ∧ r.guard = none) := by
  obtain ⟨r, outcome, hrun, hr⟩ := c.ended
  have hkept := hr.kept.close outcome
  have hexit := hr.exit
  rw [← Run.phase_close r outcome] at hexit
  refine ⟨r.close outcome, outcome, r.exchanges.reverse, hrun, ?_, hkept.conversation,
    hexit.kinds_prefix, hexit.succeeded, fun x fault => hexit.failed, hexit, hr.admitted,
    hexit.done_iff, hkept.settings, ?_, Run.close_holds_nothing r⟩
  · rw [Run.exchanges_close, List.reverse_reverse]
  · rw [List.length_reverse]
    exact hr.stats

end AccelKrylov
