import AccelKrylov.Proofs.Session.Turns

/-! A thread that nobody disturbs. Taking the lock, going through the stages of a run and giving everything
back, it leaves the machine and its session as the run by itself does. -/

namespace AccelKrylov.Process

variable {σ : Type} {t : Nat → Transport σ} {h : Nat → Host} {s s' : Process σ} {i number : Nat}
  {session : Session} {run r : Run σ} {image : Image}

theorem replay_cons {action : ThreadAction} {actions : List ThreadAction}
    (hstep : s.step t h action = some s') :
    s.replay t h (action :: actions) = s'.replay t h actions := by
  unfold replay
  rw [List.foldlM_cons, hstep]
  rfl

theorem replay_append {actions more : List ThreadAction} (hrun : s.replay t h actions = some s') :
    s.replay t h (actions ++ more) = s'.replay t h more := by
  unfold replay at hrun ⊢
  rw [List.foldlM_append, hrun]
  rfl

/-! ### Going through stages -/

theorem step_proceed {stage : Stage} {left : List Stage} {after : Run σ} {ended : Option Outcome}
    {sent : List Command}
    (hthread : s.threads[i]? = some ⟨session, .inside number run image (stage :: left)⟩)
    (hmachine : run.resume s.machine = run)
    (hact : stage.act (t i) (h number) image run = (after, ended))
    (hsent : after.commands = run.commands ++ sent) :
    s.step t h (.proceed i) = some
      { s.move i session (.next number after image stage left ended) with
        machine := after.toMachine
        log := s.log ++ sent.map fun cmd => ⟨i, number, cmd⟩ } := by
  rw [step, hthread]
  simp only [hmachine, hact, absorb_eq hsent]
  rfl

/-- By induction over the stages that are left, the run comes to where it comes by itself. -/
theorem replay_proceed {left : List Stage} {ended : Option Outcome}
    (hthread : s.threads[i]? = some ⟨session, .inside number run image left⟩)
    (hmachine : run.resume s.machine = run)
    (hact : Stage.actAll (t i) (h number) image left run = (r, ended)) (hwaits : ended ≠ some .waiting) :
    ∃ k sent, r.commands = run.commands ++ sent ∧
      s.replay t h (List.replicate k (.proceed i)) = some
        { s.move i session (.closing number r (some (ended.getD (.returned r.returned))) Holding.order) with
          machine := r.toMachine
          log := s.log ++ sent.map fun cmd => ⟨i, number, cmd⟩ } := by
  induction left generalizing s run with
  | nil =>
    obtain ⟨rfl, rfl⟩ := Prod.mk.inj hact
    refine ⟨1, [], (List.append_nil _).symm, ?_⟩
    have hsame : run.toMachine = s.machine := congrArg Run.toMachine hmachine.symm
    have hstep : s.step t h (.proceed i) =
        some (s.move i session (.closing number run (some (.returned run.returned)) Holding.order)) := by
      rw [step, hthread]
    rw [List.replicate_one, replay_cons hstep, List.map_nil, List.append_nil, hsame]
    rfl
  | cons stage left ih =>
    obtain ⟨sent, hsent, -⟩ := stage.act_sends (t i) (h number) image run
    rw [Stage.actAll] at hact
    cases hstage : stage.act (t i) (h number) image run with
    | mk after gone =>
      rw [hstage] at hact hsent
      have hstep := step_proceed hthread hmachine hstage hsent
      have hlt := (List.getElem?_eq_some_iff.mp hthread).1
      cases gone with
      | none =>
        have hnext : (s.threads.set i ⟨session, .inside number after image left⟩)[i]? =
            some ⟨session, .inside number after image left⟩ := List.getElem?_set_self hlt
        obtain ⟨k, more, hmore, hrest⟩ := ih (s := {
          s.move i session (.inside number after image left) with
          machine := after.toMachine
          log := s.log ++ sent.map fun cmd => ⟨i, number, cmd⟩ }) hnext rfl hact
        refine ⟨k + 1, sent ++ more, ?_, ?_⟩
        · rw [hmore, hsent, List.append_assoc]
        · rw [List.replicate_succ, replay_cons hstep]
          refine hrest.trans ?_
          unfold move
          rw [List.set_set, List.map_append, List.append_assoc]
      | some outcome =>
        obtain ⟨rfl, rfl⟩ := Prod.mk.inj hact
        refine ⟨1, sent, hsent, ?_⟩
        rw [List.replicate_one, replay_cons hstep]
        cases outcome with
        | waiting => exact absurd rfl hwaits
        | returned | failed => rfl

/-! ### Giving everything back -/

theorem replay_release {holdings : List Holding} {outcome : Option Outcome} (hlock : .lock ∉ holdings)
    (hthread : s.threads[i]? = some ⟨session, .closing number run outcome (holdings ++ [.lock])⟩)
    (hmachine : run.resume s.machine = run) :
    s.replay t h (List.replicate (holdings.length + 1) (.release i)) = some
      { s.move i (holdings.foldl Run.release run).session .outside with
        machine := (holdings.foldl Run.release run).toMachine
        lock := none
        past := s.past ++ [⟨i, number, holdings.foldl Run.release run, outcome⟩] } := by
  induction holdings generalizing s run with
  | nil =>
    have hsame : run.toMachine = s.machine := congrArg Run.toMachine hmachine.symm
    have hstep : s.step t h (.release i) = some { s.move i run.session .outside with
        lock := none
        past := s.past ++ [⟨i, number, run, outcome⟩] } := by
      rw [step, hthread]
      rfl
    rw [List.length_nil, List.replicate_one, replay_cons hstep, List.foldl_nil, hsame]
    rfl
  | cons holding holdings ih =>
    rw [List.mem_cons, not_or] at hlock
    have hlt := (List.getElem?_eq_some_iff.mp hthread).1
    have hsent : (run.release holding).commands = run.commands ++ [] := by
      rw [List.append_nil]
      exact (run.silent_release holding).commands
    obtain ⟨next, hnext⟩ : ∃ next, next =
        { s.move i session (.closing number (run.release holding) outcome (holdings ++ [.lock])) with
          machine := (run.release holding).toMachine } := ⟨_, rfl⟩
    have hstep : s.step t h (.release i) = some next := by
      rw [List.cons_append] at hthread
      cases holding with
      | lock => exact absurd rfl hlock.1
      | guard | event | records =>
        rw [step, hthread, hnext]
        simp only [hmachine, absorb_eq hsent, List.map_nil, List.append_nil]
        rfl
    have hthread' : next.threads[i]? =
        some ⟨session, .closing number (run.release holding) outcome (holdings ++ [.lock])⟩ := by
      rw [hnext]
      exact List.getElem?_set_self hlt
    rw [List.length_cons, List.replicate_succ, replay_cons hstep,
      ih hlock.2 hthread' (by rw [hnext]; rfl), hnext]
    unfold move
    rw [List.set_set]
    rfl

/-- What a run gives back on its own, its thread gives back step by step, and then the lock. -/
theorem replay_close {outcome : Outcome}
    (hthread : s.threads[i]? = some ⟨session, .closing number run (some outcome) Holding.order⟩)
    (hmachine : run.resume s.machine = run) (hwaits : outcome ≠ .waiting) :
    s.replay t h (List.replicate 4 (.release i)) = some
      { s.move i (run.close outcome).session .outside with
        machine := (run.close outcome).toMachine
        lock := none
        past := s.past ++ [⟨i, number, run.close outcome, some outcome⟩] } := by
  rw [← run.foldl_release hwaits]
  exact replay_release (by decide : Holding.lock ∉ [Holding.guard, .event, .records]) hthread hmachine

/-! ### Whole runs -/

/-- A run that is in its stages goes through them and gives everything back. -/
theorem replay_inside {left : List Stage} {after : Run σ} {ended : Option Outcome} {outcome : Outcome}
    (hthread : s.threads[i]? = some ⟨session, .inside number run image left⟩)
    (hmachine : run.resume s.machine = run)
    (hact : Stage.actAll (t i) (h number) image left run = (after, ended))
    (houtcome : ended.getD (.returned after.returned) = outcome) (hwaits : outcome ≠ .waiting) :
    ∃ k sent, after.commands = run.commands ++ sent ∧
      s.replay t h (List.replicate k (.proceed i) ++ List.replicate 4 (.release i)) = some
        { s.move i (after.close outcome).session .outside with
          machine := (after.close outcome).toMachine
          lock := none
          past := s.past ++ [⟨i, number, after.close outcome, some outcome⟩]
          log := s.log ++ sent.map fun cmd => ⟨i, number, cmd⟩ } := by
  have hended : ended ≠ some .waiting := by
    rintro rfl
    exact hwaits houtcome.symm
  obtain ⟨k, sent, hsent, hproceed⟩ := replay_proceed hthread hmachine hact hended
  rw [houtcome] at hproceed
  obtain ⟨closing, hclosing⟩ : ∃ closing : Process σ, closing =
      { s.move i session (.closing number after (some outcome) Holding.order) with
        machine := after.toMachine
        log := s.log ++ sent.map fun cmd => ⟨i, number, cmd⟩ } := ⟨_, rfl⟩
  rw [← hclosing] at hproceed
  have hover : closing.threads[i]? =
      some ⟨session, .closing number after (some outcome) Holding.order⟩ := by
    rw [hclosing]
    exact List.getElem?_set_self (List.getElem?_eq_some_iff.mp hthread).1
  refine ⟨k, sent, hsent, ?_⟩
  rw [replay_append hproceed, replay_close hover (by rw [hclosing]; rfl) hwaits, hclosing]
  unfold move
  rw [List.set_set]

/-- A thread that takes the lock and is not disturbed does what the run by itself does, unless that waits for
ever. -/
theorem replay_undisturbed {firmware : String} {arguments : ArgumentList} {outcome : Outcome}
    (hlock : s.lock = none) (hthread : s.threads[i]? = some ⟨session, .outside⟩)
    (hrun : session.run (t i) (h s.runs) firmware arguments s.machine = (r, outcome))
    (hwaits : outcome ≠ .waiting) :
    ∃ k, s.replay t h (.enter i firmware arguments :: (List.replicate k (.proceed i) ++
        List.replicate 4 (.release i))) = some
      { s.move i r.session .outside with
        machine := r.toMachine
        runs := s.runs + 1
        past := s.past ++ [⟨i, s.runs, r, some outcome⟩]
        log := s.log ++ r.commands.map fun cmd => ⟨i, s.runs, cmd⟩ } := by
  obtain ⟨begun, hbegun⟩ : ∃ begun, begun = session.begin arguments s.machine := ⟨_, rfl⟩
  have hcommands : begun.commands = [] := by rw [hbegun]; rfl
  have hset (activity : Activity σ) :
      (s.threads.set i ⟨session, activity⟩)[i]? = some ⟨session, activity⟩ :=
    List.getElem?_set_self (List.getElem?_eq_some_iff.mp hthread).1
  unfold Session.run at hrun
  rw [← hbegun] at hrun
  cases hlocated : Image.locate (h s.runs) session.settings firmware with
  | error fault =>
    rw [hlocated] at hrun
    obtain ⟨rfl, rfl⟩ := Prod.mk.inj hrun
    obtain ⟨entered, hentered⟩ : ∃ entered, entered =
        { s.move i session (.closing s.runs begun (some (.failed fault)) Holding.order) with
          lock := some i
          runs := s.runs + 1 } := ⟨_, rfl⟩
    have hstep : s.step t h (.enter i firmware arguments) = some entered := by
      rw [step, hlock, hthread, hentered, hbegun]
      simp only [hlocated]
    have hclosing : entered.threads[i]? =
        some ⟨session, .closing s.runs begun (some (.failed fault)) Holding.order⟩ := by
      rw [hentered]
      exact hset _
    have hclose : begun.close (.failed fault) = begun := by rw [hbegun]; rfl
    refine ⟨0, ?_⟩
    rw [List.replicate_zero, List.nil_append, replay_cons hstep,
      replay_close hclosing (by rw [hentered, hbegun]; rfl) hwaits, hclose, hcommands, hentered,
      List.map_nil, List.append_nil]
    unfold move
    rw [List.set_set, hlock]
  | ok image =>
    rw [hlocated] at hrun
    obtain ⟨entered, hentered⟩ : ∃ entered, entered =
        { s.move i session (.inside s.runs begun image Stage.order) with
          lock := some i
          runs := s.runs + 1 } := ⟨_, rfl⟩
    have hstep : s.step t h (.enter i firmware arguments) = some entered := by
      rw [step, hlock, hthread, hentered, hbegun]
      simp only [hlocated]
    have hinside : entered.threads[i]? = some ⟨session, .inside s.runs begun image Stage.order⟩ := by
      rw [hentered]
      exact hset _
    cases hact : Stage.actAll (t i) (h s.runs) image Stage.order begun with
    | mk after ended =>
      simp only [hact] at hrun
      obtain ⟨rfl, houtcome⟩ := Prod.mk.inj hrun
      obtain ⟨k, sent, hsent, hreplay⟩ :=
        replay_inside hinside (by rw [hentered, hbegun]; rfl) hact houtcome hwaits
      rw [houtcome, (Run.Silent.close after outcome).commands, hsent, hcommands, List.nil_append]
      refine ⟨k, ?_⟩
      rw [replay_cons hstep, hreplay, hentered]
      unfold move
      rw [List.set_set, hlock]

end AccelKrylov.Process
