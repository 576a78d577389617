import AccelKrylov.Proofs.Session.Progress

/-! What threads that share a device do to each other. A thread that has not taken the lock is outside of its
runs, so that the device hears one run after the other; and a run has dropped its guard before it gives the
lock back, so that no run finds the guard of another. -/

namespace AccelKrylov

variable {σ : Type} {r : Run σ} {s : Stage}

/-! ### The thread that has the lock -/

/-- What a thread does that pursues a run. -/
inductive Activity.Pursues (number : Nat) (r : Run σ) : Activity σ → Prop
  | inside {image : Image} {gone left : List Stage} (order : Stage.order = gone ++ left)
    (run : Gone gone r) : Pursues number r (.inside number r image left)
  | closing {outcome : Option Outcome} {gone left : List Holding} (order : Holding.order = gone ++ left)
    (inOrder : r.InOrder) (guard : .guard ∈ gone → r.guard = none) :
    Pursues number r (.closing number r outcome left)

theorem Activity.Pursues.inOrder {number : Nat} {activity : Activity σ}
    (h : activity.Pursues number r) : r.InOrder := by
  cases h with
  | inside order run => exact run.inOrder order
  | closing _ inOrder => exact inOrder

/-- A run that is over has everything left to give back. -/
theorem Activity.Pursues.finished {number : Nat} (h : r.InOrder) (outcome : Option Outcome) :
    (Activity.closing number r outcome Holding.order).Pursues number r :=
  .closing rfl h fun hguard => absurd hguard List.not_mem_nil

section
variable {number : Nat} {outcome : Option Outcome} {left : List Holding}

theorem Activity.Pursues.of_closing {n : Nat} {run : Run σ}
    (h : (Activity.closing n run outcome left).Pursues number r) : n = number ∧ run = r := by
  cases h
  exact ⟨rfl, rfl⟩

/-- A run that has only the lock left to give back has no guard. -/
theorem Activity.Pursues.unguarded
    (h : (Activity.closing number r outcome (.lock :: left)).Pursues number r) : r.guard = none := by
  cases h with
  | @closing _ gone _ order _ guard =>
    refine guard ?_
    cases gone with
    | nil => cases order
    | cons first gone =>
      obtain ⟨rfl, -⟩ := List.cons.inj order
      exact List.mem_cons_self

/-- What is given back is behind the run, and the guard stays dropped. -/
theorem Activity.Pursues.release {holding : Holding}
    (h : (Activity.closing number r outcome (holding :: left)).Pursues number r) (machine : Machine σ) :
    (Activity.closing number ((r.resume machine).release holding) outcome left).Pursues number
      ((r.resume machine).release holding) := by
  cases h with
  | @closing _ gone _ order inOrder guard =>
    have order' : Holding.order = (gone ++ [holding]) ++ left := by
      rw [order, List.append_assoc]
      rfl
    refine .closing order' ?_ fun hmem => ?_
    · unfold Run.InOrder
      rw [((r.resume machine).silent_release holding).commands]
      exact inOrder
    · refine Run.guard_release ((List.mem_append.mp hmem).imp guard fun h => ?_)
      exact (List.mem_singleton.mp h).symm

end

theorem Gone.Left.pursues {number : Nat} {ended : Option Outcome} {left : List Stage}
    (hr : Gone.Left s r ended) (order : Stage.order = s.before ++ s :: left) :
    (Activity.next number r image s left ended).Pursues number r := by
  cases ended with
  | none => exact .inside (by rw [order, List.append_assoc]; rfl) (hr.passed rfl)
  | some outcome =>
    cases outcome with
    | waiting => exact .inside order (hr.waits rfl)
    | returned | failed => exact .finished hr.inOrder _

/-- The commands of a run, as the device is sent them. -/
def Tenure.entries (c : Tenure σ) : List LogEntry :=
  c.run.commands.map fun cmd => ⟨c.thread, c.number, cmd⟩

/-- The device after a command, each thread reaching it in its own way. -/
def LogEntry.reach (t : Nat → Transport σ) (d : σ) (e : LogEntry) : σ :=
  ((t e.thread).submit d e.command).device

namespace Process

variable {t : Nat → Transport σ} {h : Nat → Host} {d : σ} {s s' : Process σ} {i : Nat}
  {current : Option (Tenure σ)}

/-- Runs come one after the other: those that are over, and the one whose thread has the lock, if there is
one. The place for a guard is that run's. -/
structure Serial (t : Nat → Transport σ) (d : σ) (s : Process σ) (current : Option (Tenure σ)) :
    Prop where
  lock : s.lock = current.map Tenure.thread
  others : ∀ i thread, s.threads[i]? = some thread → s.lock ≠ some i → thread.activity = .outside
  pursues : ∀ c ∈ current, ∃ thread, s.threads[c.thread]? = some thread ∧
    thread.activity.Pursues c.number c.run
  slot : s.machine.signals.slot = (current.bind (·.run.guard)).map Guard.slot
  log : s.log = (s.past ++ current.toList).flatMap Tenure.entries
  heard : s.machine.device = s.log.foldl (LogEntry.reach t) d
  numbers : (s.past ++ current.toList).map Tenure.number = List.range s.runs
  inOrder : ∀ c ∈ s.past, c.run.InOrder

theorem absorb_eq {number : Nat} {before after : Run σ} {sent : List Command}
    (hsent : after.commands = before.commands ++ sent) : s.absorb i number before after =
      { s with machine := after.toMachine, log := s.log ++ sent.map fun cmd => ⟨i, number, cmd⟩ } := by
  have hnew : (after.exchanges.reverse.drop before.exchanges.length).map (·.command) = sent := by
    unfold Run.commands at hsent
    rw [List.map_drop, hsent, List.drop_left']
    rw [List.length_map, List.length_reverse]
  unfold absorb
  rw [← hnew, List.map_map]
  rfl

namespace Serial

theorem start (t : Nat → Transport σ) {machine : Machine σ} (hslot : machine.signals.slot = none)
    (sessions : List Session) : Serial t machine.device (start machine sessions) none where
  lock := rfl
  others i thread hthread _ := by
    obtain ⟨session, -, rfl⟩ := List.mem_map.mp (List.mem_of_getElem? hthread)
    rfl
  pursues c hc := absurd hc (Option.not_mem_none c)
  slot := hslot
  log := rfl
  heard := rfl
  numbers := rfl
  inOrder c hc := absurd hc List.not_mem_nil

/-- Whoever is not outside of its runs has the lock. -/
theorem holder (hs : Serial t d s current) {thread : Thread σ} (hthread : s.threads[i]? = some thread)
    (hinside : thread.activity ≠ .outside) :
    ∃ c, current = some c ∧ c.thread = i ∧ thread.activity.Pursues c.number c.run := by
  have hlock : s.lock = some i := by
    by_contra hlock
    exact hinside (hs.others i thread hthread hlock)
  rw [hs.lock] at hlock
  obtain ⟨c, hc, rfl⟩ := Option.map_eq_some_iff.mp hlock
  obtain ⟨thread', hthread', hpursues⟩ := hs.pursues c hc
  rw [hthread, Option.some.injEq] at hthread'
  exact ⟨c, hc, rfl, hthread' ▸ hpursues⟩

variable {c : Tenure σ} {r : Run σ} {activity : Activity σ} {session : Session}

theorem enter (hs : Serial t d s current) (arguments : ArgumentList) (hlock : s.lock = none)
    (hthread : s.threads[i]? = some ⟨session, .outside⟩)
    (hactivity : activity.Pursues s.runs (session.begin arguments s.machine)) :
    Serial t d { s.move i session activity with lock := some i, runs := s.runs + 1 }
      (some { thread := i, number := s.runs, run := session.begin arguments s.machine }) := by
  have hnone : current = none := by
    rw [hs.lock] at hlock
    exact Option.map_eq_none_iff.mp hlock
  subst hnone
  have hlt := (List.getElem?_eq_some_iff.mp hthread).1
  have hlog := hs.log
  have hnumbers := hs.numbers
  rw [Option.toList_none, List.append_nil] at hlog hnumbers
  exact {
    lock := rfl
    others := fun j thread hj hne => by
      have hij : i ≠ j := fun h => hne (congrArg some h)
      refine hs.others j thread ?_ (by rw [hlock]; nofun)
      rwa [← List.getElem?_set_ne hij]
    pursues := fun c hc => by
      obtain rfl := Option.some.inj hc
      exact ⟨_, List.getElem?_set_self hlt, hactivity⟩
    slot := hs.slot
    log := by
      rw [Option.toList_some, List.flatMap_append, List.flatMap_singleton]
      exact hlog.trans (List.append_nil _).symm
    heard := hs.heard
    numbers := by
      rw [Option.toList_some, List.map_append, List.range_succ, ← hnumbers]
      rfl
    inOrder := hs.inOrder }

/-- The thread that has the lock goes on with its run, and may send something. -/
theorem onward (hs : Serial t d s (some c)) (session : Session) (machine : Machine σ)
    (sent : List Command) (hactivity : activity.Pursues c.number r)
    (hslot : machine.signals.slot = r.guard.map Guard.slot)
    (hsent : r.commands = c.run.commands ++ sent)
    (hdevice : machine.device = (t c.thread).after s.machine.device sent) :
    Serial t d { s.move c.thread session activity with
      machine
      log := s.log ++ sent.map fun cmd => ⟨c.thread, c.number, cmd⟩ } (some { c with run := r }) where
  lock := hs.lock
  others j thread hthread hj := by
    have hne : c.thread ≠ j := fun h => hj (by rw [← h]; exact hs.lock)
    refine hs.others j thread ?_ hj
    rwa [← List.getElem?_set_ne hne]
  pursues c' hc' := by
    obtain rfl := Option.some.inj hc'
    obtain ⟨thread, hthread, -⟩ := hs.pursues c rfl
    have hlt := (List.getElem?_eq_some_iff.mp hthread).1
    exact ⟨_, List.getElem?_set_self hlt, hactivity⟩
  slot := hslot
  log := by
    have hentries : ({ c with run := r } : Tenure σ).entries =
        c.entries ++ sent.map fun cmd => ⟨c.thread, c.number, cmd⟩ := by
      unfold Tenure.entries
      rw [hsent, List.map_append]
    have hlog := hs.log
    rw [Option.toList_some, List.flatMap_append, List.flatMap_singleton] at hlog ⊢
    rw [hentries, hlog, List.append_assoc]
    rfl
  heard := by
    rw [List.foldl_append, ← hs.heard, hdevice, List.foldl_map]
    rfl
  numbers := by
    have hnumbers := hs.numbers
    rw [List.map_append] at hnumbers ⊢
    exact hnumbers
  inOrder := hs.inOrder

/-- The thread that has the lock goes on with its run, on its own side. -/
theorem stay (hs : Serial t d s (some c)) (session : Session) (hactivity : activity.Pursues c.number r)
    (hguard : r.guard = c.run.guard) (hcommands : r.commands = c.run.commands) :
    Serial t d (s.move c.thread session activity) (some { c with run := r }) := by
  have hslot := hs.slot
  rw [Option.bind_some, ← hguard] at hslot
  have honward := hs.onward session s.machine [] hactivity hslot (by rw [hcommands, List.append_nil]) rfl
  rw [List.map_nil, List.append_nil] at honward
  exact honward

/-- The lock is given back. -/
theorem leave (hs : Serial t d s (some c)) (session : Session) (outcome : Option Outcome)
    (hguard : c.run.guard = none) (horder : c.run.InOrder) :
    Serial t d { s.move c.thread session .outside with
      lock := none
      past := s.past ++ [{ c with outcome }] } none where
  lock := rfl
  others j thread hj _ := by
    by_cases hij : c.thread = j
    · subst hij
      change (s.threads.set c.thread _)[c.thread]? = some thread at hj
      obtain ⟨thread', hthread, -⟩ := hs.pursues c rfl
      rw [List.getElem?_set_self (List.getElem?_eq_some_iff.mp hthread).1] at hj
      obtain rfl := Option.some.inj hj
      rfl
    · refine hs.others j thread ?_ (fun h => hij (Option.some.inj (hs.lock.symm.trans h)))
      rwa [← List.getElem?_set_ne hij]
  pursues c hc := absurd hc (Option.not_mem_none c)
  slot := by
    have hslot := hs.slot
    rw [Option.bind_some, hguard] at hslot
    exact hslot
  log := by
    have hlog := hs.log
    rw [Option.toList_some, List.flatMap_append, List.flatMap_singleton] at hlog
    rw [Option.toList_none, List.append_nil, List.flatMap_append, List.flatMap_singleton]
    exact hlog
  heard := hs.heard
  numbers := by
    have hnumbers := hs.numbers
    rw [Option.toList_some, List.map_append] at hnumbers
    rw [Option.toList_none, List.append_nil, List.map_append]
    exact hnumbers
  inOrder c' hc' := by
    rcases List.mem_append.mp hc' with hc' | hc'
    · exact hs.inOrder c' hc'
    · obtain rfl := List.mem_singleton.mp hc'
      exact horder

/-! ### Steps -/

theorem proceed (hs : Serial t d s current) (hstep : s.step t h (.proceed i) = some s') :
    ∃ current', Serial t d s' current' := by
  obtain ⟨session, number, run, image, left, hthread, hgoes⟩ := of_step_proceed hstep
  obtain ⟨c, rfl, rfl, hpursues⟩ := hs.holder hthread nofun
  cases hpursues with
  | @inside _ gone _ order hgone =>
    rcases hgoes with ⟨rfl, rfl⟩ | ⟨stage, rest, after, ended, rfl, hact, rfl⟩
    · exact ⟨_, hs.stay session (.finished (hgone.inOrder order) _) rfl rfl⟩
    · obtain rfl := Stage.eq_before order
      have hslot : (c.run.resume s.machine).HasSlot := hs.slot
      have hslot' := hslot.act (t c.thread) (h c.number) image stage
      have hleft := (hgone.resume s.machine).act (t c.thread) (h c.number) image
      obtain ⟨sent, hsent, hdevice⟩ :=
        stage.act_sends (t c.thread) (h c.number) image (c.run.resume s.machine)
      rw [hact] at hslot' hleft hsent hdevice
      rw [c.run.commands_resume] at hsent
      rw [absorb_eq hsent]
      exact ⟨_, hs.onward session after.toMachine sent (hleft.pursues order) hslot' hsent hdevice⟩

theorem panic (hs : Serial t d s current) (hstep : s.step t h (.panic i) = some s') :
    ∃ current', Serial t d s' current' := by
  obtain ⟨session, number, run, image, left, hthread, rfl⟩ := of_step_panic hstep
  obtain ⟨c, rfl, rfl, hpursues⟩ := hs.holder hthread nofun
  have horder := hpursues.inOrder
  cases hpursues
  exact ⟨_, hs.stay session (.finished horder none) rfl rfl⟩

theorem signal (hs : Serial t d s current) {value : Word}
    (hstep : s.step t h (.signal i value) = some s') : ∃ current', Serial t d s' current' := by
  obtain ⟨session, number, run, image, left, event, hthread, rfl⟩ := of_step_signal hstep
  obtain ⟨c, rfl, rfl, hpursues⟩ := hs.holder hthread nofun
  cases hpursues with
  | inside order hgone =>
    have hgone' : Gone _ { c.run with event } := ⟨hgone.sent, hgone.records, hgone.guard⟩
    exact ⟨_, hs.stay session (.inside order hgone') rfl rfl⟩

/-- The lock goes last, when the guard is gone. -/
theorem release (hs : Serial t d s current) (hstep : s.step t h (.release i) = some s') :
    ∃ current', Serial t d s' current' := by
  obtain ⟨session, number, run, outcome, holding, left, hthread, hgoes⟩ := of_step_release hstep
  obtain ⟨c, rfl, rfl, hpursues⟩ := hs.holder hthread nofun
  obtain ⟨rfl, rfl⟩ := hpursues.of_closing
  rcases hgoes with ⟨rfl, rfl⟩ | ⟨after, -, rfl, rfl⟩
  · exact ⟨none, hs.leave c.run.session outcome hpursues.unguarded hpursues.inOrder⟩
  · have hslot : (c.run.resume s.machine).HasSlot := hs.slot
    have hsilent := (c.run.resume s.machine).silent_release holding
    have hsent : ((c.run.resume s.machine).release holding).commands = c.run.commands ++ [] := by
      rw [hsilent.commands, List.append_nil]
      rfl
    rw [absorb_eq hsent]
    exact ⟨_, hs.onward session _ [] (hpursues.release s.machine) (hslot.release holding) hsent
      hsilent.device⟩

theorem step (hs : Serial t d s current) {action : ThreadAction} (hstep : s.step t h action = some s') :
    ∃ current', Serial t d s' current' := by
  cases action with
  | enter i firmware arguments =>
    obtain ⟨session, activity, hlock, hthread, rfl, hactivity⟩ := of_step_enter hstep
    refine ⟨_, hs.enter arguments hlock hthread ?_⟩
    have hbegin := Gone.begin session arguments s.machine
    rcases hactivity with ⟨image, rfl⟩ | ⟨outcome, rfl⟩
    · exact .inside rfl hbegin
    · exact .finished (hbegin.inOrder rfl) (some outcome)
  | proceed i => exact hs.proceed hstep
  | panic i => exact hs.panic hstep
  | signal i value => exact hs.signal hstep
  | release i => exact hs.release hstep
  | elsewhere table effects eventRefused =>
    obtain rfl := Option.some.inj hstep
    exact ⟨current, hs.lock, hs.others, hs.pursues, hs.slot, hs.log, hs.heard, hs.numbers, hs.inOrder⟩

theorem replay (hs : Serial t d s current) {actions : List ThreadAction}
    (hrun : s.replay t h actions = some s') : ∃ current', Serial t d s' current' := by
  induction actions generalizing s current with
  | nil =>
    obtain rfl := Option.some.inj hrun
    exact ⟨current, hs⟩
  | cons action actions ih =>
    obtain ⟨s₁, hstep, hrest⟩ := Option.bind_eq_some_iff.mp hrun
    obtain ⟨current₁, hs₁⟩ := hs.step hstep
    exact ih hs₁ hrest

/-- A run that is about to install its guard finds the place for it empty. -/
theorem vacant (hs : Serial t d s current) {number : Nat} {run : Run σ} {image : Image} {left : List Stage}
    {session : Session}
    (hthread : s.threads[i]? = some ⟨session, .inside number run image (.installGuard :: left)⟩) :
    s.machine.signals.slot = none := by
  obtain ⟨c, rfl, -, hpursues⟩ := hs.holder hthread nofun
  have hslot := hs.slot
  cases hpursues with
  | inside order hgone =>
    obtain rfl := Stage.eq_before order
    rw [Option.bind_some, hgone.guard (by decide)] at hslot
    exact hslot

/-- What the device was sent later is of the same run or of a later one. -/
theorem sorted (hs : Serial t d s current) :
    s.log.Pairwise fun earlier later => earlier.number ≤ later.number := by
  have hnumber {c : Tenure σ} {e : LogEntry} (he : e ∈ c.entries) : e.number = c.number := by
    obtain ⟨cmd, -, rfl⟩ := List.mem_map.mp he
    rfl
  have hnumbers : ((s.past ++ current.toList).map Tenure.number).Pairwise (· < ·) := by
    rw [hs.numbers]
    exact List.pairwise_lt_range
  rw [hs.log, List.pairwise_flatMap]
  refine ⟨fun c _ => ?_, ?_⟩
  · exact List.pairwise_of_forall_mem_list fun e he e' he' =>
      Nat.le_of_eq ((hnumber he).trans (hnumber he').symm)
  · refine (List.pairwise_map.mp hnumbers).imp fun hlt e he e' he' => ?_
    rw [hnumber he, hnumber he']
    exact Nat.le_of_lt hlt

end Serial

/-- However threads are interleaved and however their runs end, what the device is sent is what one run sends,
then what the next one sends: only the thread that has the lock is in a run. As long as nobody has the lock no
guard is installed, and no run that installs its guard finds another. -/
theorem sessions_take_turns (t : Nat → Transport σ) (h : Nat → Host) {machine : Machine σ}
    (hslot : machine.signals.slot = none) {sessions : List Session} {actions : List ThreadAction}
    (hrun : (start machine sessions).replay t h actions = some s) :
    (∃ current : Option (Tenure σ), s.lock = current.map Tenure.thread ∧
      (∀ c ∈ current, ∃ thread, s.threads[c.thread]? = some thread ∧
        thread.activity.Pursues c.number c.run) ∧
      s.log = (s.past ++ current.toList).flatMap Tenure.entries ∧
      (s.past ++ current.toList).map Tenure.number = List.range s.runs ∧
      ∀ c ∈ s.past ++ current.toList, c.run.InOrder) ∧
    (s.log.Pairwise fun earlier later => earlier.number ≤ later.number) ∧
    s.machine.device = s.log.foldl (LogEntry.reach t) machine.device ∧
    (∀ i thread, s.threads[i]? = some thread → s.lock ≠ some i → thread.activity = .outside) ∧
    (s.lock = none → s.machine.signals.slot = none) ∧
    ∀ (i : Nat) (session : Session) (number : Nat) (run : Run σ) (image : Image) (left : List Stage),
      s.threads[i]? = some ⟨session, .inside number run image (.installGuard :: left)⟩ →
        ∀ signal stopPath, s.machine.signals.install signal stopPath ≠ .error .busy := by
  obtain ⟨current, hs⟩ := (Serial.start t hslot sessions).replay hrun
  refine ⟨⟨current, hs.lock, hs.pursues, hs.log, hs.numbers, fun c hc => ?_⟩, hs.sorted, hs.heard,
    hs.others, fun hlock => ?_, fun i session number run image left hthread signal stopPath => ?_⟩
  · rcases List.mem_append.mp hc with hc | hc
    · exact hs.inOrder c hc
    · obtain ⟨thread, -, hpursues⟩ := hs.pursues c (Option.mem_toList.mp hc)
      exact hpursues.inOrder
  · rw [hs.lock, Option.map_eq_none_iff] at hlock
    rw [hs.slot, hlock]
    rfl
  · exact Signals.install_ne_busy (hs.vacant hthread) signal stopPath

namespace TwoThreads

/-- The device refuses to run the firmware of the first thread. -/
def transport (thread : Nat) : Transport Nat where
  path := none
  submit d cmd := {
    device := d + 1
    outcome := if thread = 0 ∧ cmd.kind = .runFirmware then .error (.device .runFirmware (-5)) else .ok () }

def host : Host := ⟨⟨fun _ => .ok (.file 64)⟩, 7, 3, 4096, fun _ => 8192⟩

def machine : Machine Nat := { device := 0 }

def session : Session := ⟨{ Settings.standard 1 with firmwareDirectory := some "/firmware" }, .idle, {}⟩

/-- Both runs end with their guards installed, one by an error and the other one by a panic. -/
def actions : List ThreadAction :=
  .enter 0 "cg.bin" {} :: List.replicate 7 (.proceed 0) ++ List.replicate 4 (.release 0) ++
    .enter 1 "cg.bin" {} :: List.replicate 6 (.proceed 1) ++ .panic 1 :: List.replicate 4 (.release 1)

theorem log_eq : ((start machine [session, session]).replay transport (fun _ => host) actions).map
    (fun s => (s.lock, s.log.map fun e => (e.number, e.command.kind))) =
      some (none, [(0, .setArguments), (0, .loadFirmware), (0, .registerCaller), (0, .runFirmware),
        (1, .setArguments), (1, .loadFirmware), (1, .registerCaller)]) := by decide +kernel

end TwoThreads

theorem sessions_take_turns_twoThreads :
    TwoThreads.machine.signals.slot = none ∧
    ∃ s, (start TwoThreads.machine [TwoThreads.session, TwoThreads.session]).replay TwoThreads.transport
        (fun _ => TwoThreads.host) TwoThreads.actions = some s ∧
      s.log.map (·.number) = [0, 0, 0, 0, 1, 1, 1] ∧ s.machine.signals.slot = none := by
  obtain ⟨s, hrun, hfound⟩ := Option.map_eq_some_iff.mp TwoThreads.log_eq
  obtain ⟨hlock, hlog⟩ := Prod.mk.inj hfound
  have hnumbers := congrArg (List.map Prod.fst) hlog
  rw [List.map_map] at hnumbers
  obtain ⟨-, -, -, -, hfree, -⟩ := sessions_take_turns TwoThreads.transport (fun _ => TwoThreads.host)
    (rfl : TwoThreads.machine.signals.slot = none) hrun
  exact ⟨rfl, s, hrun, hnumbers, hfree hlock⟩

end Process

end AccelKrylov
