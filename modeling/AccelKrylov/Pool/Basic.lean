import AccelKrylov.Word

/-! A pool of workers that take jobs from one queue, first come first served. Everything that happens in
a pool is one of a few actions, each of which takes one shared step; `Pool.step` says what an action
does and when it is possible. An order of actions is one way the threads can be interleaved. -/

namespace AccelKrylov

variable {ρ : Type}

/-! ### Jobs and workers -/

/-- Work with a number. -/
structure Task (ρ : Type) where
  id : Word
  routine : ρ
deriving DecidableEq

/-- What a queue holds. A worker that takes poison ends. -/
inductive Job (ρ : Type) where
  | work (task : Task ρ)
  | poison
deriving DecidableEq

namespace Job

/-- Poison has the largest number. -/
def id : Job ρ → Word
  | work task => task.id
  | poison => 0xffffffffffffffff

def isPoison : Job ρ → Bool
  | work _ => false
  | poison => true

def describe (j : Job ρ) : String := s!"Job \x7b id: {j.id}, poison: {j.isPoison} \x7d"

end Job

/-- How far a worker is with the task it has taken. -/
inductive Worker (ρ : Type) where
  /-- It has none and looks at the queue. -/
  | polling
  | taken (task : Task ρ)
  /-- The task has been run and has crashed, which is yet to be counted. -/
  | crashed (task : Task ρ)
  /-- The task has been run and is yet to be counted as completed. -/
  | returned (task : Task ρ)
  /-- The task has been counted and is still pending. -/
  | completed (task : Task ρ)
  | exited
deriving DecidableEq

def Worker.hasExited : Worker ρ → Bool
  | exited => true
  | polling | taken _ | crashed _ | returned _ | completed _ => false

/-! ### The pool -/

/-- The workers and the queue, with what is counted. The counts have no bound here; counts in words of 64 bits come
round to zero after `2 ^ 64` tasks. -/
structure Pool (ρ : Type) where
  workers : List (Worker ρ)
  queue : List (Job ρ) := []
  /-- Tasks that are counted as pending while their submitters have yet to queue them. -/
  announced : List (Task ρ) := []
  /-- Poison has been queued; nobody submits any more. -/
  closing : Bool := false
  nextId : Word := 0
  pending : Nat := 0
  completed : Nat := 0
  crashed : Nat := 0
  /-- The tasks that have been run, the last one first. -/
  history : List (Task ρ) := []
deriving DecidableEq

/-- One shared step of a submitter, of a worker, or of whoever shuts the pool down. -/
inductive PoolAction (ρ : Type) where
  /-- A submitter uses up a number. -/
  | number
  /-- A submitter counts its task as pending. -/
  | announce (task : Task ρ)
  /-- The submitter of the announced task at a position queues it. -/
  | push (submitter : Nat)
  /-- A worker takes the first job of the queue. -/
  | pop (worker : Nat)
  /-- A worker runs its task to its end. -/
  | run (worker : Nat) (crashes : Bool)
  | noteCrash (worker : Nat)
  | complete (worker : Nat)
  /-- A worker counts its task as no longer pending. -/
  | retire (worker : Nat)
  /-- Poison is queued for every worker. -/
  | close
  /-- The workers, all ended, are given up. -/
  | join
deriving DecidableEq

/-- Why a pool does not do what it is asked to. -/
inductive PoolError where
  | noWorkers
  | poison
  | shutDown
  /-- So many workers have ended without taking poison. -/
  | abnormal (workers : Nat)
deriving DecidableEq

def PoolError.message : PoolError → String
  | noWorkers => "dispatcher needs at least one worker"
  | poison => "poison jobs are only issued by shutdown"
  | shutDown => "dispatcher is shut down"
  | abnormal workers => s!"{workers} worker threads terminated abnormally"

namespace Pool

/-- A pool whose workers have just been started. -/
def ofWorkers (n : Nat) : Pool ρ := { workers := List.replicate n .polling }

/-- A pool of so many workers, if that is not none. Memory for their list, and a thread for each of them, is taken
to be there. -/
def start (workers : Word) : Except PoolError (Pool ρ) := do
  ensure (workers ≠ 0) .noWorkers
  return ofWorkers workers.toNat

/-! ### Actions -/

/-- The pool after worker `w` has moved on. -/
def move (p : Pool ρ) (w : Nat) (next : Worker ρ) : Pool ρ :=
  { p with workers := p.workers.set w next }

/-- The pool after an action, if the action is possible. -/
def step (p : Pool ρ) : PoolAction ρ → Option (Pool ρ)
  | .number => some { p with nextId := p.nextId + 1 }
  | .announce task =>
    if p.workers.isEmpty || p.closing then none
    else some { p with pending := p.pending + 1, announced := p.announced ++ [task] }
  | .push i => match p.announced[i]? with
    | some task => some
        { p with announced := p.announced.eraseIdx i, queue := p.queue ++ [.work task] }
    | none => none
  | .pop w => match p.workers[w]?, p.queue with
    | some .polling, .work task :: queue => some { p.move w (.taken task) with queue }
    | some .polling, .poison :: queue => some { p.move w .exited with queue }
    | _, _ => none
  | .run w crashes => match p.workers[w]? with
    | some (.taken task) =>
      some { p.move w (if crashes then .crashed task else .returned task) with
        history := task :: p.history }
    | _ => none
  | .noteCrash w => match p.workers[w]? with
    | some (.crashed task) =>
      some { p.move w (.returned task) with crashed := p.crashed + 1 }
    | _ => none
  | .complete w => match p.workers[w]? with
    | some (.returned task) =>
      some { p.move w (.completed task) with completed := p.completed + 1 }
    | _ => none
  | .retire w => match p.workers[w]? with
    | some (.completed _) => some { p.move w .polling with pending := p.pending - 1 }
    | _ => none
  | .close =>
    if p.workers.isEmpty || p.closing || !p.announced.isEmpty then none
    else some { p with
      closing := true, queue := p.queue ++ List.replicate p.workers.length .poison }
  | .join =>
    if p.closing && p.workers.all fun | .exited => true | _ => false then
      some { p with workers := [] }
    else none

/-! ### What an action needs and does -/

section
variable {p p' : Pool ρ} {w i : Nat}

theorem of_step_announce {task : Task ρ} (h : p.step (.announce task) = some p') :
    p.workers.isEmpty = false ∧ p.closing = false ∧
      p' = { p with pending := p.pending + 1, announced := p.announced ++ [task] } := by
  rw [step] at h
  split at h
  · cases h
  next hopen =>
    rw [Bool.or_eq_true, not_or, Bool.not_eq_true, Bool.not_eq_true] at hopen
    exact ⟨hopen.1, hopen.2, (Option.some.inj h).symm⟩

theorem of_step_push (h : p.step (.push i) = some p') :
    ∃ task, p.announced[i]? = some task ∧
      p' = { p with announced := p.announced.eraseIdx i, queue := p.queue ++ [.work task] } := by
  rw [step] at h
  split at h
  next task htask => exact ⟨task, htask, (Option.some.inj h).symm⟩
  · cases h

theorem of_step_pop (h : p.step (.pop w) = some p') : p.workers[w]? = some .polling ∧
    ((∃ task queue, p.queue = .work task :: queue ∧ p' = { p.move w (.taken task) with queue }) ∨
      ∃ queue, p.queue = .poison :: queue ∧ p' = { p.move w .exited with queue }) := by
  rw [step] at h
  split at h
  next task queue hw hq => exact ⟨hw, .inl ⟨task, queue, hq, (Option.some.inj h).symm⟩⟩
  next queue hw hq => exact ⟨hw, .inr ⟨queue, hq, (Option.some.inj h).symm⟩⟩
  · cases h

theorem of_step_run {crashes : Bool} (h : p.step (.run w crashes) = some p') :
    ∃ task, p.workers[w]? = some (.taken task) ∧
      p' = { p.move w (if crashes then .crashed task else .returned task) with
        history := task :: p.history } := by
  rw [step] at h
  split at h
  next task hw => exact ⟨task, hw, (Option.some.inj h).symm⟩
  · cases h

theorem of_step_noteCrash (h : p.step (.noteCrash w) = some p') :
    ∃ task, p.workers[w]? = some (.crashed task) ∧
      p' = { p.move w (.returned task) with crashed := p.crashed + 1 } := by
  rw [step] at h
  split at h
  next task hw => exact ⟨task, hw, (Option.some.inj h).symm⟩
  · cases h

theorem of_step_complete (h : p.step (.complete w) = some p') :
    ∃ task, p.workers[w]? = some (.returned task) ∧
      p' = { p.move w (.completed task) with completed := p.completed + 1 } := by
  rw [step] at h
  split at h
  next task hw => exact ⟨task, hw, (Option.some.inj h).symm⟩
  · cases h

theorem of_step_retire (h : p.step (.retire w) = some p') :
    ∃ task, p.workers[w]? = some (.completed task) ∧
      p' = { p.move w .polling with pending := p.pending - 1 } := by
  rw [step] at h
  split at h
  next task hw => exact ⟨task, hw, (Option.some.inj h).symm⟩
  · cases h

theorem of_step_close (h : p.step .close = some p') :
    p.closing = false ∧ p.announced = [] ∧
      p' = { p with
        closing := true, queue := p.queue ++ List.replicate p.workers.length .poison } := by
  rw [step] at h
  split at h
  · cases h
  next hopen =>
    simp only [Bool.or_eq_true, not_or, Bool.not_eq_true, Bool.not_eq_false', List.isEmpty_iff] at hopen
    exact ⟨hopen.1.2, hopen.2, (Option.some.inj h).symm⟩

theorem of_step_join (h : p.step .join = some p') :
    p.closing = true ∧ (∀ worker ∈ p.workers, worker = .exited) ∧ p' = { p with workers := [] } := by
  rw [step] at h
  split at h
  next hall =>
    rw [Bool.and_eq_true, List.all_eq_true] at hall
    refine ⟨hall.1, fun worker hworker => ?_, (Option.some.inj h).symm⟩
    have := hall.2 worker hworker
    cases worker with
    | exited => rfl
    | _ => cases this
  · cases h

end

/-- The pool after some actions in order, if all are possible. -/
def replay (p : Pool ρ) (actions : List (PoolAction ρ)) : Option (Pool ρ) :=
  actions.foldlM step p

/-- Pools that some number of workers can get to, in any interleaving. -/
def Reachable (p : Pool ρ) : Prop :=
  ∃ n actions, 0 < n ∧ (ofWorkers n).replay actions = some p

/-! ### Submitting -/

/-- Queues a job, whose submitter nobody comes before. -/
def submit (p : Pool ρ) : Job ρ → Except PoolError (Pool ρ)
  | .poison => .error .poison
  | .work task =>
    match p.replay [.announce task, .push p.announced.length] with
    | some p' => .ok p'
    | none => .error .shutDown

/-- Queues work under a number of its own, which is used up in any case. -/
def spawn (p : Pool ρ) (routine : ρ) : Pool ρ × Except PoolError Word :=
  let id := p.nextId
  let p := { p with nextId := id + 1 }
  match p.submit (.work ⟨id, routine⟩) with
  | .ok p' => (p', .ok id)
  | .error e => (p, .error e)

/-! ### Shutting down -/

/-- What comes of waiting for the workers to end. -/
def joined (p : Pool ρ) : Except PoolError Unit :=
  let failed := p.workers.countP fun worker => !worker.hasExited
  ensure (failed = 0) (.abnormal failed)

end Pool

end AccelKrylov
