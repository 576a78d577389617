import AccelKrylov.Session.Run

/-! Threads that each run sessions of their own on one device. One lock keeps their runs apart: a thread takes
it before a run, and gives it back behind all that the run has taken since. An order of actions is one way in
which the threads can be interleaved. -/

namespace AccelKrylov

variable {σ : Type}

/-! ### What a run gives back -/

/-- What a run can hold at its end. -/
inductive Holding where
  | guard | event | records | lock
deriving DecidableEq

/-- The order in which a run gives back what it holds: what it has taken last goes first. -/
def Holding.order : List Holding := [guard, event, records, lock]

/-- Gives one thing back, if the run holds it. An event that is closed leaves no trace, and the lock is the
process's. -/
def Run.release (r : Run σ) : Holding → Run σ
  | .guard => r.dropGuard
  | .records => r.releaseRecords
  | .event | .lock => r

/-- One thing after the other, a run gives back all that it has to. -/
theorem Run.foldl_release (r : Run σ) {outcome : Outcome} (h : outcome ≠ .waiting) :
    Holding.order.foldl Run.release r = r.close outcome := by
  cases outcome with
  | waiting => exact absurd rfl h
  | returned | failed => rfl

/-! ### Threads -/

/-- A run that goes on with the machine as others have left it. -/
def Run.resume (r : Run σ) (machine : Machine σ) : Run σ := { r with toMachine := machine }

/-- What a thread does. Runs are numbered in the order in which they begin. -/
inductive Activity (σ : Type) where
  | outside
  /-- Its run goes through the stages that are left. -/
  | inside (number : Nat) (run : Run σ) (image : Image) (left : List Stage)
  /-- Its run is over, by an outcome or by a panic, and has some things left to give back. -/
  | closing (number : Nat) (run : Run σ) (outcome : Option Outcome) (left : List Holding)

/-- What a thread does after a stage that ended its run or not. A thread that waits tries again. -/
def Activity.next (number : Nat) (after : Run σ) (image : Image) (stage : Stage) (left : List Stage) :
    Option Outcome → Activity σ
  | none => .inside number after image left
  | some .waiting => .inside number after image (stage :: left)
  | some outcome => .closing number after (some outcome) Holding.order

structure Thread (σ : Type) where
  session : Session
  activity : Activity σ := .outside

/-- A run with its number and its thread. -/
structure Tenure (σ : Type) where
  thread : Nat
  number : Nat
  run : Run σ
  /-- What the caller is told, if the run came to an outcome. -/
  outcome : Option Outcome := none

/-- A command that the device was sent, with the thread and the run that it came from. -/
structure LogEntry where
  thread : Nat
  number : Nat
  command : Command
deriving DecidableEq

/-! ### Processes -/

/-- The threads of a process. -/
structure Process (σ : Type) where
  machine : Machine σ
  threads : List (Thread σ)
  /-- The thread that has the lock. -/
  lock : Option Nat := none
  /-- How many runs have begun. -/
  runs : Nat := 0
  /-- The runs that have given back their lock, in that order. -/
  past : List (Tenure σ) := []
  /-- What the device was sent, in order. -/
  log : List LogEntry := []

/-- A step of a thread, of the device, or of what is around them. -/
inductive ThreadAction where
  /-- A thread takes the lock and begins a run. -/
  | enter (thread : Nat) (firmware : String) (arguments : ArgumentList)
  /-- A thread goes through the next stage of its run, or finds that none is left. -/
  | proceed (thread : Nat)
  /-- A panic ends the run of a thread. -/
  | panic (thread : Nat)
  /-- The device adds to the completion event of a thread's run. -/
  | signal (thread : Nat) (value : Word)
  /-- A thread gives back the next thing that its run holds. -/
  | release (thread : Nat)
  /-- Signals arrive, the rest of the process changes their dispositions, and the system begins or ceases to
  give out events. -/
  | elsewhere (table : SignalTable) (effects : List SignalEffect) (eventRefused : Option IoError)

namespace Process

/-- A process in which no session has been run. -/
def start (machine : Machine σ) (sessions : List Session) : Process σ :=
  { machine, threads := sessions.map fun session => { session } }

/-- The process after a thread has moved on. -/
def move (s : Process σ) (i : Nat) (session : Session) (activity : Activity σ) : Process σ :=
  { s with threads := s.threads.set i ⟨session, activity⟩ }

/-- The process after a part of a run, with what that has changed and what it has sent. -/
def absorb (s : Process σ) (i number : Nat) (before after : Run σ) : Process σ :=
  { s with
    machine := after.toMachine
    log := s.log ++ (after.exchanges.reverse.drop before.exchanges.length).map fun x =>
      ⟨i, number, x.command⟩ }

/-- The process after an action, if the action is possible. Every thread has its way to the device, and every
run finds a host of its own. -/
def step (t : Nat → Transport σ) (h : Nat → Host) (s : Process σ) : ThreadAction → Option (Process σ)
  | .enter i firmware arguments => match s.lock, s.threads[i]? with
    | none, some ⟨session, .outside⟩ =>
      let run := session.begin arguments s.machine
      let activity := match Image.locate (h s.runs) session.settings firmware with
        | .ok image => .inside s.runs run image Stage.order
        | .error fault => .closing s.runs run (some (.failed fault)) Holding.order
      some { s.move i session activity with lock := some i, runs := s.runs + 1 }
    | _, _ => none
  | .proceed i => match s.threads[i]? with
    | some ⟨session, .inside number run image (stage :: left)⟩ =>
      let (after, ended) := stage.act (t i) (h number) image (run.resume s.machine)
      some ((s.absorb i number run after).move i session (.next number after image stage left ended))
    | some ⟨session, .inside number run _ []⟩ =>
      some (s.move i session (.closing number run (some (.returned run.returned)) Holding.order))
    | _ => none
  | .panic i => match s.threads[i]? with
    | some ⟨session, .inside number run _ _⟩ =>
      some (s.move i session (.closing number run none Holding.order))
    | _ => none
  | .signal i value => match s.threads[i]? with
    | some ⟨session, .inside number run image left⟩ =>
      let run := { run with event := run.event.map (·.signalAll [value]) }
      some (s.move i session (.inside number run image left))
    | _ => none
  | .release i => match s.threads[i]? with
    | some ⟨_, .closing number run outcome (.lock :: _)⟩ =>
      some { s.move i run.session .outside with
        lock := none
        past := s.past ++ [⟨i, number, run, outcome⟩] }
    | some ⟨session, .closing number run outcome (holding :: left)⟩ =>
      let after := (run.resume s.machine).release holding
      some ((s.absorb i number run after).move i session (.closing number after outcome left))
    | _ => none
  | .elsewhere table effects eventRefused => some
      { s with
        machine := { s.machine with signals := { s.machine.signals with table }, effects, eventRefused } }

section
variable {t : Nat → Transport σ} {h : Nat → Host} {s s' : Process σ} {i : Nat}

theorem of_step_enter {firmware : String} {arguments : ArgumentList}
    (hs : s.step t h (.enter i firmware arguments) = some s') :
    ∃ session activity, s.lock = none ∧ s.threads[i]? = some ⟨session, .outside⟩ ∧
      s' = { s.move i session activity with lock := some i, runs := s.runs + 1 } ∧
      ((∃ image, activity = .inside s.runs (session.begin arguments s.machine) image Stage.order) ∨
        ∃ outcome, activity =
          .closing s.runs (session.begin arguments s.machine) (some outcome) Holding.order) := by
  rw [step] at hs
  split at hs
  next session hlock hthread =>
    obtain rfl := Option.some.inj hs
    refine ⟨session, _, hlock, hthread, rfl, ?_⟩
    split
    next image _ => exact .inl ⟨image, rfl⟩
    next fault _ => exact .inr ⟨.failed fault, rfl⟩
  · cases hs

theorem of_step_proceed (hs : s.step t h (.proceed i) = some s') :
    ∃ session number run image left, s.threads[i]? = some ⟨session, .inside number run image left⟩ ∧
      ((left = [] ∧
          s' = s.move i session (.closing number run (some (.returned run.returned)) Holding.order)) ∨
        ∃ stage rest after ended, left = stage :: rest ∧
          stage.act (t i) (h number) image (run.resume s.machine) = (after, ended) ∧
          s' = (s.absorb i number run after).move i session
            (.next number after image stage rest ended)) := by
  rw [step] at hs
  split at hs
  next session number run image stage rest hthread =>
    obtain rfl := Option.some.inj hs
    exact ⟨session, number, run, image, _, hthread, .inr ⟨stage, rest, _, _, rfl, rfl, rfl⟩⟩
  next session number run image hthread =>
    obtain rfl := Option.some.inj hs
    exact ⟨session, number, run, image, [], hthread, .inl ⟨rfl, rfl⟩⟩
  · cases hs

theorem of_step_panic (hs : s.step t h (.panic i) = some s') :
    ∃ session number run image left, s.threads[i]? = some ⟨session, .inside number run image left⟩ ∧
      s' = s.move i session (.closing number run none Holding.order) := by
  rw [step] at hs
  split at hs
  next session number run image left hthread =>
    exact ⟨session, number, run, image, left, hthread, (Option.some.inj hs).symm⟩
  · cases hs

theorem of_step_signal {value : Word} (hs : s.step t h (.signal i value) = some s') :
    ∃ session number run image left event,
      s.threads[i]? = some ⟨session, .inside number run image left⟩ ∧
      s' = s.move i session (.inside number { run with event } image left) := by
  rw [step] at hs
  split at hs
  next session number run image left hthread =>
    exact ⟨session, number, run, image, left, _, hthread, (Option.some.inj hs).symm⟩
  · cases hs

theorem of_step_release (hs : s.step t h (.release i) = some s') :
    ∃ session number run outcome holding left,
      s.threads[i]? = some ⟨session, .closing number run outcome (holding :: left)⟩ ∧
      ((holding = .lock ∧ s' = { s.move i run.session .outside with
          lock := none
          past := s.past ++ [⟨i, number, run, outcome⟩] }) ∨
        ∃ after, holding ≠ .lock ∧ after = (run.resume s.machine).release holding ∧
          s' = (s.absorb i number run after).move i session (.closing number after outcome left)) := by
  rw [step] at hs
  split at hs
  next session number run outcome left hthread =>
    obtain rfl := Option.some.inj hs
    exact ⟨session, number, run, outcome, .lock, left, hthread, .inl ⟨rfl, rfl⟩⟩
  next session number run outcome holding left hlock hthread =>
    obtain rfl := Option.some.inj hs
    exact ⟨session, number, run, outcome, holding, left, hthread, .inr ⟨_, hlock, rfl, rfl⟩⟩
  · cases hs

end

/-- The process after some actions in order, if all are possible. -/
def replay (t : Nat → Transport σ) (h : Nat → Host) (s : Process σ) (actions : List ThreadAction) :
    Option (Process σ) :=
  actions.foldlM (step t h) s

end Process

end AccelKrylov
