import AccelKrylov.Proofs.Pool.Ledger

/-! What a pool owes those who give it work. Whatever the interleaving, its counters say how many tasks are
where, no task is lost or run twice, and a worker whose task crashes comes back for more. -/

namespace AccelKrylov

open scoped List

variable {ρ : Type}

/-! ### What an action does to a worker -/

/-- The worker whose action it is. -/
def PoolAction.worker? : PoolAction ρ → Option Nat
  | pop w | run w _ | noteCrash w | complete w | retire w => some w
  | number | announce _ | push _ | close | join => none

namespace Worker

/-- From where to where an action brings its worker. -/
inductive Moves (w : Nat) (queue : List (Job ρ)) : PoolAction ρ → Worker ρ → Worker ρ → Prop
  | take (task : Task ρ) : Moves w queue (.pop w) .polling (.taken task)
  | leave (h : queue.head? = some .poison) : Moves w queue (.pop w) .polling .exited
  | run (task : Task ρ) (crashes : Bool) : Moves w queue (.run w crashes) (.taken task)
      (if crashes then .crashed task else .returned task)
  | noteCrash (task : Task ρ) : Moves w queue (.noteCrash w) (.crashed task) (.returned task)
  | complete (task : Task ρ) : Moves w queue (.complete w) (.returned task) (.completed task)
  | retire (task : Task ρ) : Moves w queue (.retire w) (.completed task) .polling

/-- What worker `w`, which has run its task, does before it looks at the queue again. -/
def ahead (w : Nat) : Worker ρ → List (PoolAction ρ)
  | crashed _ => [.noteCrash w, .complete w, .retire w]
  | returned _ => [.complete w, .retire w]
  | completed _ => [.retire w]
  | polling | taken _ | exited => []

theorem Moves.ahead {w : Nat} {queue : List (Job ρ)} {a next : PoolAction ρ} {before after : Worker ρ}
    {rest : List (PoolAction ρ)} (h : Moves w queue a before after)
    (hahead : before.ahead w = next :: rest) : a = next ∧ after.ahead w = rest := by
  cases h with
  | take | leave | run => cases hahead
  | noteCrash | complete | retire => exact List.cons.inj hahead

/-- A worker ends when it takes poison and in no other way. -/
theorem Moves.exited {w : Nat} {queue : List (Job ρ)} {a : PoolAction ρ} {before : Worker ρ}
    (h : Moves w queue a before .exited) :
    before = .polling ∧ a = .pop w ∧ queue.head? = some .poison := by
  generalize hafter : Worker.exited = after at h
  cases h with
  | leave hpoison => exact ⟨rfl, rfl, hpoison⟩
  | run task crashes => cases crashes <;> cases hafter
  | take | noteCrash | complete | retire => cases hafter

end Worker

namespace Pool

variable {p p' : Pool ρ} {a : PoolAction ρ} {w : Nat} {before : Worker ρ} {task : Task ρ}

theorem step_own (h : p.step a = some p') (ha : a.worker? = some w) :
    ∃ before after, p.workers[w]? = some before ∧ p'.workers = p.workers.set w after ∧
      Worker.Moves w p.queue a before after := by
  cases a with
  | number | announce _ | push _ | close | join => cases ha
  | pop v =>
    obtain rfl := Option.some.inj ha
    obtain ⟨hw, ⟨task, queue, -, rfl⟩ | ⟨queue, hq, rfl⟩⟩ := of_step_pop h
    · exact ⟨_, _, hw, rfl, .take task⟩
    · exact ⟨_, _, hw, rfl, .leave (congrArg List.head? hq)⟩
  | run v crashes =>
    obtain rfl := Option.some.inj ha
    obtain ⟨task, hw, rfl⟩ := of_step_run h
    exact ⟨_, _, hw, rfl, .run task crashes⟩
  | noteCrash v =>
    obtain rfl := Option.some.inj ha
    obtain ⟨task, hw, rfl⟩ := of_step_noteCrash h
    exact ⟨_, _, hw, rfl, .noteCrash task⟩
  | complete v =>
    obtain rfl := Option.some.inj ha
    obtain ⟨task, hw, rfl⟩ := of_step_complete h
    exact ⟨_, _, hw, rfl, .complete task⟩
  | retire v =>
    obtain rfl := Option.some.inj ha
    obtain ⟨task, hw, rfl⟩ := of_step_retire h
    exact ⟨_, _, hw, rfl, .retire task⟩

/-- What is nobody's action leaves the workers as they are, or gives them up when all have ended. -/
theorem step_shared (h : p.step a = some p') (ha : a.worker? = none) :
    p'.workers = p.workers ∨ (∀ worker ∈ p.workers, worker = .exited) ∧ p'.workers = [] := by
  cases a with
  | pop _ | run _ _ | noteCrash _ | complete _ | retire _ => cases ha
  | number =>
    obtain rfl := Option.some.inj h
    exact .inl rfl
  | announce task =>
    obtain ⟨-, -, rfl⟩ := of_step_announce h
    exact .inl rfl
  | push i =>
    obtain ⟨task, -, rfl⟩ := of_step_push h
    exact .inl rfl
  | close =>
    obtain ⟨-, -, rfl⟩ := of_step_close h
    exact .inl rfl
  | join =>
    obtain ⟨-, hexited, rfl⟩ := of_step_join h
    exact .inr ⟨hexited, rfl⟩

/-- Others do not move a worker that has not ended. -/
theorem step_other (h : p.step a = some p') (ha : a.worker? ≠ some w)
    (hw : p.workers[w]? = some before) (hbefore : before ≠ .exited) :
    p'.workers[w]? = some before := by
  cases hv : a.worker? with
  | none =>
    obtain hsame | ⟨hexited, -⟩ := step_shared h hv
    · rw [hsame]
      exact hw
    · exact absurd (hexited before (List.mem_of_getElem? hw)) hbefore
  | some v =>
    obtain ⟨-, after, -, hset, -⟩ := step_own h hv
    have hne : v ≠ w := fun heq => ha (heq ▸ hv)
    rw [hset, List.getElem?_set_ne hne]
    exact hw

theorem exited_of_step (h : p.step a = some p') (hw : p'.workers[w]? = some .exited) :
    p.workers[w]? = some .exited ∨
      p.workers[w]? = some .polling ∧ a = .pop w ∧ p.queue.head? = some .poison := by
  by_cases ha : a.worker? = some w
  · obtain ⟨before, after, hbefore, hset, hmoves⟩ := step_own h ha
    have hlt : w < p.workers.length := (List.getElem?_eq_some_iff.mp hbefore).1
    rw [hset, List.getElem?_set_self hlt] at hw
    obtain rfl := Option.some.inj hw
    obtain ⟨rfl, hpop, hpoison⟩ := hmoves.exited
    exact .inr ⟨hbefore, hpop, hpoison⟩
  · cases hv : a.worker? with
    | none =>
      obtain hsame | ⟨-, hnone⟩ := step_shared h hv
      · exact .inl (hsame ▸ hw)
      · rw [hnone] at hw
        cases hw
    | some v =>
      obtain ⟨-, after, -, hset, -⟩ := step_own h hv
      have hne : v ≠ w := fun heq => ha (heq ▸ hv)
      rw [hset, List.getElem?_set_ne hne] at hw
      exact .inl hw

/-- Whatever the others do meanwhile, a worker that has run its task does what is ahead of it first. -/
theorem replay_ahead {actions : List (PoolAction ρ)} (h : p.replay actions = some p')
    (hw : p.workers[w]? = some before) :
    actions.filter (·.worker? = some w) <+: before.ahead w ∨
      before.ahead w <+: actions.filter (·.worker? = some w) := by
  induction actions generalizing p before with
  | nil => exact .inl List.nil_prefix
  | cons a actions ih =>
    obtain ⟨next, hnext, hrest⟩ := Option.bind_eq_some_iff.mp h
    cases hahead : before.ahead w with
    | nil => exact .inr List.nil_prefix
    | cons first rest =>
      by_cases ha : a.worker? = some w
      · obtain ⟨before', after, hbefore, hset, hmoves⟩ := step_own hnext ha
        obtain rfl := Option.some.inj (hbefore.symm.trans hw)
        obtain ⟨rfl, rfl⟩ := hmoves.ahead hahead
        have hlt : w < p.workers.length := (List.getElem?_eq_some_iff.mp hw).1
        have hafter : next.workers[w]? = some after := by rw [hset, List.getElem?_set_self hlt]
        rw [List.filter_cons, if_pos (decide_eq_true ha), List.prefix_cons_inj, List.prefix_cons_inj]
        exact ih hrest hafter
      · have hbefore : before ≠ .exited := by
          rintro rfl
          cases hahead
        rw [List.filter_cons, if_neg (by rw [decide_eq_true_eq]; exact ha), ← hahead]
        exact ih hrest (step_other hnext ha hw hbefore)

/-- A worker that runs its task, which crashes, can come back and be counted, without any other. -/
theorem replay_crash (hw : p.workers[w]? = some (.taken task)) :
    p.replay [.run w true, .noteCrash w, .complete w, .retire w] = some { p with
      workers := p.workers.set w .polling
      pending := p.pending - 1
      completed := p.completed + 1
      crashed := p.crashed + 1
      history := task :: p.history } := by
  obtain ⟨hlt, hget⟩ := List.getElem?_eq_some_iff.mp hw
  simp [replay, step, move, hlt, hget]

end Pool

/-! ### The accounts -/

/-- What a worker has is yet to be run, or has been run. -/
theorem held_perm (workers : List (Worker ρ)) : workers.filterMap Worker.held? ~
    workers.filterMap Worker.unrun? ++ workers.filterMap Worker.ran? := by
  induction workers with
  | nil => exact .refl []
  | cons worker workers ih =>
    cases worker with
    | polling | exited => exact ih
    | taken task => exact ih.cons task
    | crashed task | returned task | completed task =>
      exact (ih.cons task).trans List.perm_middle.symm

/-- The tasks that a pool was given are accounted for. -/
structure Accounted (l : Ledger ρ) : Prop where
  /-- A task is pending while it is announced, in the queue or with a worker. -/
  pending : l.pool.pending =
    l.pool.announced.length + (tasks l.pool.queue).length + (l.pool.among Worker.held?).length
  unfinished : l.pool.pending + l.retired.length = l.accepted.length
  /-- Every task is in one place, and is run once if at all. -/
  once : l.accepted ~ l.pool.announced ++ tasks l.pool.queue ++ l.pool.among Worker.unrun? ++
    l.pool.history
  /-- Every task that was taken was taken once. -/
  taken : tasks l.popped ~ l.pool.among Worker.unrun? ++ l.pool.history
  order : l.pushed = l.popped ++ l.pool.queue
  /-- A task that was run is completed, but for those whose workers are yet to count them. -/
  completed : l.pool.completed + (l.pool.among Worker.uncounted?).length = l.pool.history.length
  crashed : l.pool.crashed + (l.pool.among Worker.crash?).length = l.crashes.length
  crashes : l.crashes.Sublist l.pool.history
  /-- When nothing is pending, every task has been run once and is completed. -/
  idle : l.pool.pending = 0 → l.pool.announced = [] ∧ tasks l.pool.queue = [] ∧
    l.pool.among Worker.held? = [] ∧ l.pool.history ~ l.accepted ∧
    l.pool.completed = l.accepted.length ∧ l.pool.crashed = l.crashes.length

namespace Balanced

variable {l : Ledger ρ}

theorem popped_perm (b : Balanced l) :
    tasks l.popped ~ l.pool.among Worker.unrun? ++ l.pool.history := by
  calc tasks l.popped
    _ ~ l.pool.among Worker.held? ++ l.retired := b.taken
    _ ~ l.pool.among Worker.unrun? ++ l.pool.among Worker.ran? ++ l.retired :=
      (held_perm l.pool.workers).append_right _
    _ ~ l.pool.among Worker.unrun? ++ l.pool.history := by
      rw [List.append_assoc]
      exact b.history.symm.append_left _

theorem accepted_perm (b : Balanced l) : l.accepted ~
    l.pool.announced ++ tasks l.pool.queue ++ l.pool.among Worker.unrun? ++ l.pool.history := by
  calc l.accepted
    _ ~ l.pool.announced ++ (tasks l.popped ++ tasks l.pool.queue) := by
      rw [← tasks_append, ← b.order]
      exact b.accepted
    _ ~ l.pool.announced ++ (tasks l.pool.queue ++ tasks l.popped) :=
      List.perm_append_comm.append_left _
    _ ~ l.pool.announced ++ tasks l.pool.queue ++ tasks l.popped := by rw [List.append_assoc]
    _ ~ l.pool.announced ++ tasks l.pool.queue ++ l.pool.among Worker.unrun? ++ l.pool.history := by
      rw [List.append_assoc _ (l.pool.among _)]
      exact b.popped_perm.append_left _

/-- Without pending tasks no task is anywhere but among those that have been run. -/
theorem idle (b : Balanced l) (h : l.pool.pending = 0) : l.pool.announced = [] ∧
    tasks l.pool.queue = [] ∧ l.pool.among Worker.held? = [] ∧ l.pool.history ~ l.accepted ∧
    l.pool.completed = l.accepted.length ∧ l.pool.crashed = l.crashes.length := by
  have hcount := b.pending_eq
  have hannounced : l.pool.announced = [] := List.eq_nil_of_length_eq_zero (by omega)
  have hqueue : tasks l.pool.queue = [] := List.eq_nil_of_length_eq_zero (by omega)
  have hheld : l.pool.among Worker.held? = [] := List.eq_nil_of_length_eq_zero (by omega)
  have idle_of (f : Worker ρ → Option (Task ρ))
      (hf : ∀ worker, worker.held? = none → f worker = none) : l.pool.among f = [] := by
    unfold Pool.among at hheld ⊢
    rw [List.filterMap_eq_nil_iff] at hheld ⊢
    exact fun worker hworker => hf worker (hheld worker hworker)
  have hunrun := idle_of Worker.unrun? fun | .polling, _ | .exited, _ => rfl
  have huncounted := idle_of Worker.uncounted? fun | .polling, _ | .exited, _ => rfl
  have hcrash := idle_of Worker.crash? fun | .polling, _ | .exited, _ => rfl
  have hrun := b.accepted_perm
  rw [hannounced, hqueue, hunrun] at hrun
  have hcompleted := b.completed
  have hcrashed := b.crashed
  rw [huncounted] at hcompleted
  rw [hcrash] at hcrashed
  exact ⟨hannounced, hqueue, hheld, hrun.symm, hcompleted.trans hrun.length_eq.symm, hcrashed⟩

theorem accounted (b : Balanced l) : Accounted l where
  pending := b.pending_eq
  unfinished := b.pending
  once := b.accepted_perm
  taken := b.popped_perm
  order := b.order
  completed := b.completed
  crashed := b.crashed
  crashes := b.crashes
  idle := b.idle

end Balanced

/-- However the steps of submitters and workers are interleaved, the tasks are accounted for: none is
lost, taken twice or run twice, and they are taken in the order in which they were queued. No worker ends
but by poison, and one whose task crashes counts the crash, then the completion, and looks at the queue
again. -/
theorem pool_accounts {n : Nat} {actions : List (PoolAction ρ)} {p : Pool ρ}
    (h : (Pool.ofWorkers n).replay actions = some p) :
    (∃ l, (Ledger.ofWorkers n).replay actions = some l ∧ l.pool = p ∧ Accounted l) ∧
    ∀ w,
      (∀ a p', p.step a = some p' → p'.workers[w]? = some .exited →
        p.workers[w]? = some .exited ∨
          p.workers[w]? = some .polling ∧ a = .pop w ∧ p.queue.head? = some .poison) ∧
      ∀ task, p.workers[w]? = some (.taken task) →
        p.replay [.run w true, .noteCrash w, .complete w, .retire w] = some { p with
          workers := p.workers.set w .polling
          pending := p.pending - 1
          completed := p.completed + 1
          crashed := p.crashed + 1
          history := task :: p.history } ∧
        ∀ later p', p.replay (.run w true :: later) = some p' →
          later.filter (·.worker? = some w) <+: [.noteCrash w, .complete w, .retire w] ∨
            [.noteCrash w, .complete w, .retire w] <+: later.filter (·.worker? = some w) := by
  constructor
  · have hpool := (Ledger.ofWorkers n).replay_pool actions
    obtain ⟨l, hl, rfl⟩ := Option.map_eq_some_iff.mp (hpool.trans h)
    exact ⟨l, hl, rfl, ((Balanced.ofWorkers n).replay hl).accounted⟩
  · refine fun w => ⟨fun a p' => Pool.exited_of_step, fun task hw => ⟨Pool.replay_crash hw, ?_⟩⟩
    intro later p' hlater
    obtain ⟨crashed, hrun, hrest⟩ := Option.bind_eq_some_iff.mp hlater
    have hlt : w < p.workers.length := (List.getElem?_eq_some_iff.mp hw).1
    have hcrashed : crashed.workers[w]? = some (.crashed task) := by
      obtain ⟨task', hw', rfl⟩ := Pool.of_step_run hrun
      obtain rfl := Worker.taken.inj (Option.some.inj (hw.symm.trans hw'))
      exact List.getElem?_set_self hlt
    exact Pool.replay_ahead hrest hcrashed

/-- Two tasks on one worker, of which the first one crashes. -/
theorem pool_accounts_crash :
    let first : Task Unit := ⟨0, ()⟩
    let second : Task Unit := ⟨1, ()⟩
    let actions : List (PoolAction Unit) := [.announce first, .announce second, .push 1, .push 0, .pop 0,
      .run 0 true, .noteCrash 0, .complete 0, .retire 0, .pop 0]
    let p : Pool Unit := {
      workers := [.taken first], pending := 1, completed := 1, crashed := 1, history := [second] }
    (Pool.ofWorkers 1).replay actions = some p ∧
      ∃ l, (Ledger.ofWorkers 1).replay actions = some l ∧ l.pool = p ∧ Accounted l :=
  ⟨by decide, (pool_accounts (by decide)).1⟩

end AccelKrylov
