import AccelKrylov.Pool.Basic
import Mathlib.Data.List.Perm.Basic

/-! The accounts of a pool. A ledger remembers, beside the pool, which tasks were counted as pending, which
jobs were queued and taken, and which tasks have crashed or been retired. What one action does to a pool
keeps its counters in balance with the ledger, and so does every interleaving of actions. -/

namespace AccelKrylov

open scoped List

variable {ρ : Type}

/-! ### What is where -/

def Job.task? : Job ρ → Option (Task ρ)
  | work task => some task
  | poison => none

/-- The tasks among jobs. -/
def tasks (jobs : List (Job ρ)) : List (Task ρ) := jobs.filterMap Job.task?

namespace Worker

/-- The task that a worker has taken and not yet retired. -/
def held? : Worker ρ → Option (Task ρ)
  | taken task | crashed task | returned task | completed task => some task
  | polling | exited => none

/-- The task that a worker is yet to run. -/
def unrun? : Worker ρ → Option (Task ρ)
  | taken task => some task
  | _ => none

/-- The task that a worker has run and not yet retired. -/
def ran? : Worker ρ → Option (Task ρ)
  | crashed task | returned task | completed task => some task
  | polling | taken _ | exited => none

/-- The task that a worker has run and not yet counted as completed. -/
def uncounted? : Worker ρ → Option (Task ρ)
  | crashed task | returned task => some task
  | _ => none

/-- The task that has crashed, which its worker has not yet counted. -/
def crash? : Worker ρ → Option (Task ρ)
  | crashed task => some task
  | _ => none

end Worker

/-- The tasks that the workers of a pool have in some way. -/
def Pool.among (p : Pool ρ) (f : Worker ρ → Option (Task ρ)) : List (Task ρ) := p.workers.filterMap f

/-! ### Ledgers -/

/-- A pool with its past. -/
structure Ledger (ρ : Type) where
  pool : Pool ρ
  /-- The tasks that were counted as pending. -/
  accepted : List (Task ρ) := []
  /-- All jobs that were queued, in order. -/
  pushed : List (Job ρ) := []
  /-- All jobs that workers took, in order. -/
  popped : List (Job ρ) := []
  /-- The tasks that crashed, the last one first. -/
  crashes : List (Task ρ) := []
  /-- The tasks that are no longer pending, the last one first. -/
  retired : List (Task ρ) := []
deriving DecidableEq

namespace Ledger

def ofWorkers (n : Nat) : Ledger ρ := { pool := .ofWorkers n }

/-- The ledger after an action that has brought the pool to `p`. -/
def note (l : Ledger ρ) (p : Pool ρ) : PoolAction ρ → Ledger ρ
  | .announce task => { l with pool := p, accepted := l.accepted ++ [task] }
  | .push i =>
    { l with pool := p, pushed := l.pushed ++ (l.pool.announced[i]?.map Job.work).toList }
  | .pop _ => { l with pool := p, popped := l.popped ++ l.pool.queue.head?.toList }
  | .run w crashes =>
    let crashed := if crashes then l.pool.workers[w]?.bind Worker.unrun? else none
    { l with pool := p, crashes := crashed.toList ++ l.crashes }
  | .retire w =>
    { l with pool := p, retired := (l.pool.workers[w]?.bind Worker.held?).toList ++ l.retired }
  | .close =>
    { l with pool := p, pushed := l.pushed ++ List.replicate l.pool.workers.length .poison }
  | .number | .noteCrash _ | .complete _ | .join => { l with pool := p }

def step (l : Ledger ρ) (a : PoolAction ρ) : Option (Ledger ρ) :=
  (l.pool.step a).map fun p => l.note p a

def replay (l : Ledger ρ) (actions : List (PoolAction ρ)) : Option (Ledger ρ) :=
  actions.foldlM step l

/-- Keeping a ledger neither adds to what can happen nor takes from it. -/
theorem replay_pool (l : Ledger ρ) (actions : List (PoolAction ρ)) :
    (l.replay actions).map pool = l.pool.replay actions := by
  induction actions generalizing l with
  | nil => rfl
  | cons a actions ih =>
    unfold replay Pool.replay at ih ⊢
    rw [List.foldlM_cons, List.foldlM_cons]
    unfold step
    cases hstep : l.pool.step a with
    | none => rfl
    | some p =>
      have hpool : (l.note p a).pool = p := by cases a <;> rfl
      have := ih (l.note p a)
      rw [hpool] at this
      exact this

end Ledger

/-! ### One worker moving on -/

section
variable {α β : Type} {f : α → Option β} {xs : List α} {i : Nat} {a b : α}

theorem filterMap_cons_toList (f : α → Option β) (x : α) (xs : List α) :
    (x :: xs).filterMap f = (f x).toList ++ xs.filterMap f := by
  rw [List.filterMap_cons]
  cases f x <;> rfl

/-- What changes when one member of a list is replaced is what the members stand for. -/
theorem filterMap_set_perm (f : α → Option β) (h : xs[i]? = some a) (b : α) :
    (f a).toList ++ (xs.set i b).filterMap f ~ (f b).toList ++ xs.filterMap f := by
  obtain ⟨hi, rfl⟩ := List.getElem?_eq_some_iff.mp h
  have hold := (List.getElem_cons_eraseIdx_perm hi).filterMap f
  have hnew := (List.set_perm_cons_eraseIdx hi b).filterMap f
  rw [filterMap_cons_toList] at hold hnew
  calc (f xs[i]).toList ++ (xs.set i b).filterMap f
    _ ~ (f xs[i]).toList ++ ((f b).toList ++ (xs.eraseIdx i).filterMap f) := hnew.append_left _
    _ ~ (f b).toList ++ ((f xs[i]).toList ++ (xs.eraseIdx i).filterMap f) :=
      List.perm_append_comm_assoc ..
    _ ~ (f b).toList ++ xs.filterMap f := hold.append_left _

end

namespace Pool

variable {p : Pool ρ} {w : Nat} {before after : Worker ρ} {task : Task ρ}
  {f : Worker ρ → Option (Task ρ)}

/-- A worker has what it had. -/
theorem among_move_keep (h : p.workers[w]? = some before) (hf : f after = f before) :
    (p.move w after).among f ~ p.among f := by
  have hperm := filterMap_set_perm f h after
  rw [hf] at hperm
  exact (List.perm_append_left_iff _).mp hperm

theorem perm_move_keep {xs rest : List (Task ρ)} (h : p.workers[w]? = some before)
    (hf : f after = f before) (hxs : xs ~ p.among f ++ rest) :
    xs ~ (p.move w after).among f ++ rest :=
  hxs.trans ((among_move_keep h hf).append_right _).symm

theorem length_move_keep {m n : Nat} (h : p.workers[w]? = some before) (hf : f after = f before)
    (hm : m + (p.among f).length = n) : m + ((p.move w after).among f).length = n := by
  rw [(among_move_keep h hf).length_eq]
  exact hm

/-- A worker has one task more. -/
theorem among_move_take (h : p.workers[w]? = some before) (hbefore : f before = none)
    (hafter : f after = some task) : (p.move w after).among f ~ task :: p.among f := by
  have hperm := filterMap_set_perm f h after
  rw [hbefore, hafter] at hperm
  exact hperm

/-- A worker has one task less. -/
theorem among_move_give (h : p.workers[w]? = some before) (hbefore : f before = some task)
    (hafter : f after = none) : task :: (p.move w after).among f ~ p.among f := by
  have hperm := filterMap_set_perm f h after
  rw [hbefore, hafter] at hperm
  exact hperm

/-- Workers that have all ended have nothing. -/
theorem among_of_exited (h : ∀ worker ∈ p.workers, worker = .exited) (hf : f .exited = none) :
    p.among f = [] := by
  unfold among
  rw [List.filterMap_eq_nil_iff]
  intro worker hworker
  rw [h worker hworker, hf]

end Pool

/-! ### The balance -/

/-- The counters of the pool and the lists of the ledger agree. -/
structure Balanced (l : Ledger ρ) : Prop where
  /-- Jobs are taken in the order in which they were queued. -/
  order : l.pushed = l.popped ++ l.pool.queue
  /-- A task that was counted is queued once, unless its submitter has yet to do so. -/
  accepted : l.accepted ~ l.pool.announced ++ tasks l.pushed
  /-- A task that was taken is with one worker, or retired. -/
  taken : tasks l.popped ~ l.pool.among Worker.held? ++ l.retired
  /-- A task that was run was run once. -/
  history : l.pool.history ~ l.pool.among Worker.ran? ++ l.retired
  pending : l.pool.pending + l.retired.length = l.accepted.length
  completed : l.pool.completed + (l.pool.among Worker.uncounted?).length = l.pool.history.length
  crashed : l.pool.crashed + (l.pool.among Worker.crash?).length = l.crashes.length
  crashes : l.crashes.Sublist l.pool.history

namespace Balanced

variable {l : Ledger ρ} {p : Pool ρ} {w : Nat} {task : Task ρ}

theorem tasks_append (xs ys : List (Job ρ)) : tasks (xs ++ ys) = tasks xs ++ tasks ys :=
  List.filterMap_append

theorem tasks_poison (n : Nat) : tasks (List.replicate n (.poison : Job ρ)) = [] := by
  induction n with
  | zero => rfl
  | succ n ih => exact ih

/-- Workers that have just been started have nothing. -/
theorem among_ofWorkers (n : Nat) {f : Worker ρ → Option (Task ρ)} (hf : f .polling = none) :
    (Ledger.ofWorkers n : Ledger ρ).pool.among f = [] :=
  List.filterMap_replicate_of_none hf

theorem ofWorkers (n : Nat) : Balanced (Ledger.ofWorkers n : Ledger ρ) where
  order := rfl
  accepted := .refl []
  taken := by
    rw [among_ofWorkers n rfl]
    exact .refl []
  history := by
    rw [among_ofWorkers n rfl]
    exact .refl []
  pending := rfl
  completed := by
    rw [among_ofWorkers n rfl]
    rfl
  crashed := by
    rw [among_ofWorkers n rfl]
    rfl
  crashes := .refl []

theorem number (b : Balanced l) (h : l.pool.step .number = some p) : Balanced (l.note p .number) := by
  obtain rfl := Option.some.inj h
  exact ⟨b.order, b.accepted, b.taken, b.history, b.pending, b.completed, b.crashed, b.crashes⟩

theorem announce (b : Balanced l) (h : l.pool.step (.announce task) = some p) :
    Balanced (l.note p (.announce task)) := by
  obtain ⟨-, -, rfl⟩ := Pool.of_step_announce h
  refine ⟨b.order, ?_, b.taken, b.history, ?_, b.completed, b.crashed, b.crashes⟩
  · change l.accepted ++ [task] ~ l.pool.announced ++ [task] ++ tasks l.pushed
    calc l.accepted ++ [task]
      _ ~ l.pool.announced ++ tasks l.pushed ++ [task] := b.accepted.append_right _
      _ ~ l.pool.announced ++ ([task] ++ tasks l.pushed) := by
        rw [List.append_assoc]
        exact List.perm_append_comm.append_left _
      _ ~ l.pool.announced ++ [task] ++ tasks l.pushed := by rw [List.append_assoc]
  · have hpending := b.pending
    change l.pool.pending + 1 + l.retired.length = (l.accepted ++ [task]).length
    rw [List.length_append, List.length_singleton]
    omega

/-- A task that is queued is no longer only announced. -/
theorem push {i : Nat} (b : Balanced l) (h : l.pool.step (.push i) = some p) :
    Balanced (l.note p (.push i)) := by
  obtain ⟨task, hi, rfl⟩ := Pool.of_step_push h
  obtain ⟨hlt, rfl⟩ := List.getElem?_eq_some_iff.mp hi
  have hnote : (l.pool.announced[i]?.map Job.work).toList = [Job.work l.pool.announced[i]] := by
    rw [hi]
    rfl
  refine ⟨?_, ?_, b.taken, b.history, b.pending, b.completed, b.crashed, b.crashes⟩
  · change l.pushed ++ _ = l.popped ++ (l.pool.queue ++ _)
    rw [hnote, b.order, List.append_assoc]
  · change l.accepted ~ l.pool.announced.eraseIdx i ++ tasks (l.pushed ++ _)
    rw [hnote, tasks_append]
    have herase := List.getElem_cons_eraseIdx_perm hlt
    calc l.accepted
      _ ~ l.pool.announced ++ tasks l.pushed := b.accepted
      _ ~ l.pool.announced[i] :: l.pool.announced.eraseIdx i ++ tasks l.pushed :=
        herase.symm.append_right _
      _ ~ l.pool.announced.eraseIdx i ++ tasks l.pushed ++ [l.pool.announced[i]] :=
        (List.perm_append_singleton _ _).symm
      _ ~ l.pool.announced.eraseIdx i ++ (tasks l.pushed ++ [l.pool.announced[i]]) := by
        rw [List.append_assoc]

theorem pop (b : Balanced l) (h : l.pool.step (.pop w) = some p) : Balanced (l.note p (.pop w)) := by
  obtain ⟨hw, ⟨task, queue, hq, rfl⟩ | ⟨queue, hq, rfl⟩⟩ := Pool.of_step_pop h
  all_goals
    have horder : l.pushed = l.popped ++ l.pool.queue.head?.toList ++ queue := by
      rw [b.order, hq, List.append_assoc]
      rfl
  · have take : (l.pool.move w (.taken task)).among Worker.held? ~
        task :: l.pool.among Worker.held? := Pool.among_move_take hw rfl rfl
    refine ⟨horder, b.accepted, ?_, Pool.perm_move_keep hw rfl b.history, b.pending,
      Pool.length_move_keep hw rfl b.completed, Pool.length_move_keep hw rfl b.crashed, b.crashes⟩
    change tasks (l.popped ++ l.pool.queue.head?.toList) ~ _
    rw [hq, tasks_append]
    calc tasks l.popped ++ [task]
      _ ~ task :: tasks l.popped := List.perm_append_singleton _ _
      _ ~ task :: (l.pool.among Worker.held? ++ l.retired) := b.taken.cons _
      _ ~ (l.pool.move w (.taken task)).among Worker.held? ++ l.retired :=
        (take.append_right _).symm
  · refine ⟨horder, b.accepted, ?_, Pool.perm_move_keep hw rfl b.history, b.pending,
      Pool.length_move_keep hw rfl b.completed, Pool.length_move_keep hw rfl b.crashed, b.crashes⟩
    change tasks (l.popped ++ l.pool.queue.head?.toList) ~ _
    rw [hq, tasks_append]
    change tasks l.popped ++ [] ~ _
    rw [List.append_nil]
    exact Pool.perm_move_keep hw rfl b.taken

theorem run {crashes : Bool} (b : Balanced l) (h : l.pool.step (.run w crashes) = some p) :
    Balanced (l.note p (.run w crashes)) := by
  obtain ⟨task, hw, rfl⟩ := Pool.of_step_run h
  have hunrun : l.pool.workers[w]?.bind Worker.unrun? = some task := by
    rw [hw]
    rfl
  have hlength (k : Nat) (hk : k = l.pool.history.length) :
      k + 1 = (task :: l.pool.history).length := by rw [hk, List.length_cons]
  cases crashes with
  | true =>
    have take (f : Worker ρ → Option (Task ρ)) (hbefore : f (.taken task) = none)
        (hafter : f (.crashed task) = some task) :
        (l.pool.move w (.crashed task)).among f ~ task :: l.pool.among f :=
      Pool.among_move_take hw hbefore hafter
    refine ⟨b.order, b.accepted, Pool.perm_move_keep hw rfl b.taken, ?_, b.pending, ?_, ?_, ?_⟩
    · exact (b.history.cons task).trans ((take Worker.ran? rfl rfl).append_right l.retired).symm
    · exact (congrArg _ (take Worker.uncounted? rfl rfl).length_eq).trans (hlength _ b.completed)
    · change l.pool.crashed + ((l.pool.move w (.crashed task)).among Worker.crash?).length =
        ((l.pool.workers[w]?.bind Worker.unrun?).toList ++ l.crashes).length
      rw [hunrun, (take Worker.crash? rfl rfl).length_eq, List.length_cons, ← Nat.add_assoc, b.crashed]
      rfl
    · change ((l.pool.workers[w]?.bind Worker.unrun?).toList ++ l.crashes).Sublist _
      rw [hunrun]
      exact b.crashes.cons_cons task
  | false =>
    have take (f : Worker ρ → Option (Task ρ)) (hbefore : f (.taken task) = none)
        (hafter : f (.returned task) = some task) :
        (l.pool.move w (.returned task)).among f ~ task :: l.pool.among f :=
      Pool.among_move_take hw hbefore hafter
    refine ⟨b.order, b.accepted, Pool.perm_move_keep hw rfl b.taken, ?_, b.pending, ?_,
      Pool.length_move_keep hw rfl b.crashed, b.crashes.cons task⟩
    · exact (b.history.cons task).trans ((take Worker.ran? rfl rfl).append_right l.retired).symm
    · exact (congrArg _ (take Worker.uncounted? rfl rfl).length_eq).trans (hlength _ b.completed)

theorem noteCrash (b : Balanced l) (h : l.pool.step (.noteCrash w) = some p) :
    Balanced (l.note p (.noteCrash w)) := by
  obtain ⟨task, hw, rfl⟩ := Pool.of_step_noteCrash h
  have give : task :: (l.pool.move w (.returned task)).among Worker.crash? ~
      l.pool.among Worker.crash? := Pool.among_move_give hw rfl rfl
  refine ⟨b.order, b.accepted, Pool.perm_move_keep hw rfl b.taken,
    Pool.perm_move_keep hw rfl b.history, b.pending, Pool.length_move_keep hw rfl b.completed, ?_,
    b.crashes⟩
  have hcrashed := b.crashed
  rw [← give.length_eq, List.length_cons] at hcrashed
  change l.pool.crashed + 1 + ((l.pool.move w (.returned task)).among Worker.crash?).length =
    l.crashes.length
  omega

theorem complete (b : Balanced l) (h : l.pool.step (.complete w) = some p) :
    Balanced (l.note p (.complete w)) := by
  obtain ⟨task, hw, rfl⟩ := Pool.of_step_complete h
  have give : task :: (l.pool.move w (.completed task)).among Worker.uncounted? ~
      l.pool.among Worker.uncounted? := Pool.among_move_give hw rfl rfl
  refine ⟨b.order, b.accepted, Pool.perm_move_keep hw rfl b.taken,
    Pool.perm_move_keep hw rfl b.history, b.pending, ?_, Pool.length_move_keep hw rfl b.crashed,
    b.crashes⟩
  have hcompleted := b.completed
  rw [← give.length_eq, List.length_cons] at hcompleted
  change l.pool.completed + 1 + ((l.pool.move w (.completed task)).among Worker.uncounted?).length =
    l.pool.history.length
  omega

/-- What is counted as pending is what was counted and is not retired, wherever it is. -/
theorem pending_eq (b : Balanced l) : l.pool.pending =
    l.pool.announced.length + (tasks l.pool.queue).length + (l.pool.among Worker.held?).length := by
  have haccepted := b.accepted.length_eq
  have htaken := b.taken.length_eq
  have hpending := b.pending
  rw [b.order, tasks_append, List.length_append, List.length_append] at haccepted
  rw [List.length_append] at htaken
  omega

/-- There is something pending when a task is retired. -/
theorem retire (b : Balanced l) (h : l.pool.step (.retire w) = some p) :
    Balanced (l.note p (.retire w)) := by
  obtain ⟨task, hw, rfl⟩ := Pool.of_step_retire h
  have hheld : l.pool.workers[w]?.bind Worker.held? = some task := by
    rw [hw]
    rfl
  have give (f : Worker ρ → Option (Task ρ)) (hbefore : f (.completed task) = some task)
      (hafter : f .polling = none) : task :: (l.pool.move w .polling).among f ~ l.pool.among f :=
    Pool.among_move_give hw hbefore hafter
  -- the task goes from the worker that has it to the retired ones
  have moved (f : Worker ρ → Option (Task ρ)) (hbefore : f (.completed task) = some task)
      (hafter : f .polling = none) :
      l.pool.among f ++ l.retired ~ (l.pool.move w .polling).among f ++ task :: l.retired :=
    ((give f hbefore hafter).symm.append_right _).trans List.perm_middle.symm
  refine ⟨b.order, b.accepted, ?_, ?_, ?_, Pool.length_move_keep hw rfl b.completed,
    Pool.length_move_keep hw rfl b.crashed, b.crashes⟩
  · change tasks l.popped ~ _ ++ ((l.pool.workers[w]?.bind Worker.held?).toList ++ l.retired)
    rw [hheld]
    exact b.taken.trans (moved Worker.held? rfl rfl)
  · change l.pool.history ~ _ ++ ((l.pool.workers[w]?.bind Worker.held?).toList ++ l.retired)
    rw [hheld]
    exact b.history.trans (moved Worker.ran? rfl rfl)
  · change l.pool.pending - 1 + ((l.pool.workers[w]?.bind Worker.held?).toList ++ l.retired).length =
      l.accepted.length
    rw [hheld, List.length_append]
    change l.pool.pending - 1 + (1 + l.retired.length) = l.accepted.length
    have hone := (give Worker.held? rfl rfl).length_eq
    have hcount := b.pending_eq
    have hpending := b.pending
    rw [List.length_cons] at hone
    omega

theorem close (b : Balanced l) (h : l.pool.step .close = some p) : Balanced (l.note p .close) := by
  obtain ⟨-, -, rfl⟩ := Pool.of_step_close h
  refine ⟨?_, ?_, b.taken, b.history, b.pending, b.completed, b.crashed, b.crashes⟩
  · change l.pushed ++ _ = l.popped ++ (l.pool.queue ++ _)
    rw [b.order, List.append_assoc]
  · change l.accepted ~ l.pool.announced ++ tasks (l.pushed ++ _)
    rw [tasks_append, tasks_poison, List.append_nil]
    exact b.accepted

/-- Workers that have all ended take nothing with them. -/
theorem join (b : Balanced l) (h : l.pool.step .join = some p) : Balanced (l.note p .join) := by
  obtain ⟨-, hexited, rfl⟩ := Pool.of_step_join h
  have gone (f : Worker ρ → Option (Task ρ)) (hf : f .exited = none) : [] = l.pool.among f :=
    (Pool.among_of_exited hexited hf).symm
  refine ⟨b.order, b.accepted, ?_, ?_, b.pending, ?_, ?_, b.crashes⟩
  · change tasks l.popped ~ [] ++ l.retired
    rw [gone Worker.held? rfl]
    exact b.taken
  · change l.pool.history ~ [] ++ l.retired
    rw [gone Worker.ran? rfl]
    exact b.history
  · change l.pool.completed + ([] : List (Task ρ)).length = _
    rw [gone Worker.uncounted? rfl]
    exact b.completed
  · change l.pool.crashed + ([] : List (Task ρ)).length = _
    rw [gone Worker.crash? rfl]
    exact b.crashed

theorem note {a : PoolAction ρ} (b : Balanced l) (h : l.pool.step a = some p) :
    Balanced (l.note p a) := by
  cases a with
  | number => exact b.number h
  | announce task => exact b.announce h
  | push i => exact b.push h
  | pop w => exact b.pop h
  | run w crashes => exact b.run h
  | noteCrash w => exact b.noteCrash h
  | complete w => exact b.complete h
  | retire w => exact b.retire h
  | close => exact b.close h
  | join => exact b.join h

theorem replay {l' : Ledger ρ} {actions : List (PoolAction ρ)} (b : Balanced l)
    (h : l.replay actions = some l') : Balanced l' := by
  induction actions generalizing l with
  | nil =>
    obtain rfl := Option.some.inj h
    exact b
  | cons a actions ih =>
    obtain ⟨next, hnext, hrest⟩ := Option.bind_eq_some_iff.mp h
    obtain ⟨p, hp, rfl⟩ := Option.map_eq_some_iff.mp hnext
    exact ih (b.note hp) hrest

end Balanced

end AccelKrylov
