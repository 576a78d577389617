import AccelKrylov.Pool.Basic

/-! Letting a pool work until nothing more can happen. Of the workers that can do something the first one
does, so that tasks that can be run are run in the order of the queue. -/

namespace AccelKrylov

variable {ρ : Type}

/-- What the routines of a pool do when they are run. -/
structure Behaviour (ρ : Type) where
  /-- Others wait for something. -/
  ready : ρ → Bool
  crashes : ρ → Bool

/-- Routines that come to an end. -/
def Behaviour.calm : Behaviour ρ := ⟨fun _ => true, fun _ => false⟩

/-- What worker `w` does next. -/
def Worker.next? (b : Behaviour ρ) (queue : List (Job ρ)) (w : Nat) :
    Worker ρ → Option (PoolAction ρ)
  | polling => if queue.isEmpty then none else some (.pop w)
  | taken task => if b.ready task.routine then some (.run w (b.crashes task.routine)) else none
  | crashed _ => some (.noteCrash w)
  | returned _ => some (.complete w)
  | completed _ => some (.retire w)
  | exited => none

/-- The number of actions that a worker needs at most to come back for more. -/
def Worker.remaining : Worker ρ → Nat
  | taken _ => 4
  | crashed _ => 3
  | returned _ => 2
  | completed _ => 1
  | polling | exited => 0

namespace Pool

/-- What happens next, if workers go on in their order, counted from `w`. -/
def nextOf? (b : Behaviour ρ) (queue : List (Job ρ)) :
    (w : Nat) → List (Worker ρ) → Option (PoolAction ρ)
  | _, [] => none
  | w, worker :: workers => (worker.next? b queue w).or (nextOf? b queue (w + 1) workers)

/-- What happens next in a pool. -/
def next? (b : Behaviour ρ) (p : Pool ρ) : Option (PoolAction ρ) := nextOf? b p.queue 0 p.workers

/-- At least the number of actions that can happen before new work comes. -/
def remaining (p : Pool ρ) : Nat := 5 * p.queue.length + (p.workers.map Worker.remaining).foldr (· + ·) 0

/-- The pool after at most `n` actions. -/
def settleWithin (b : Behaviour ρ) : (n : Nat) → Pool ρ → Pool ρ
  | 0, p => p
  | n + 1, p => match next? b p >>= p.step with
    | some p' => settleWithin b n p'
    | none => p

/-- The tasks that are yet to be run. -/
def unrun (p : Pool ρ) : Nat := p.queue.length + p.workers.countP fun
  | .taken _ => true
  | .polling | .crashed _ | .returned _ | .completed _ | .exited => false

/-- The pool when there is enough of something, after at most `n` actions. -/
def settleUntil (b : Behaviour ρ) (enough : Pool ρ → Bool) : (n : Nat) → Pool ρ → Pool ρ
  | 0, p => p
  | n + 1, p =>
    if enough p then p
    else match next? b p >>= p.step with
      | some p' => settleUntil b enough n p'
      | none => p

/-- The pool when nothing more can happen. -/
def settle (b : Behaviour ρ) (p : Pool ρ) : Pool ρ := settleWithin b p.remaining p

/-- Ends the workers after all jobs that are queued. A pool that is shut down stays as it is. -/
def shutdown (b : Behaviour ρ) (p : Pool ρ) : Pool ρ :=
  match p.step .close with
  | none => p
  | some p =>
    let p := p.settle b
    (p.step .join).getD p

end Pool

end AccelKrylov
