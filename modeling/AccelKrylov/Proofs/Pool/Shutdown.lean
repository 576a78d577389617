import AccelKrylov.Error
import AccelKrylov.Proofs.Pool.Lifecycle

/-! How a pool is shut down. The tasks that were given to it before are run and counted, each worker takes
the portion of poison that is meant for it, and afterwards there is nothing left that could be changed. -/

namespace AccelKrylov

open scoped List

variable {ρ : Type}

namespace Pool

variable {n : Nat} {p p' : Pool ρ} {a : PoolAction ρ} {b : Behaviour ρ}

/-- A pool is shut down, in any interleaving: the pool afterwards, and what comes of it. -/
inductive ShutsDown (p : Pool ρ) : Pool ρ → Except PoolError Unit → Prop where
  | already (h : p.workers = []) : ShutsDown p p (.ok ())
  | now {closed drained p' : Pool ρ} {actions : List (PoolAction ρ)} (close : p.step .close = some closed)
    (drain : closed.replay actions = some drained) (join : drained.step .join = some p') :
    ShutsDown p p' drained.joined

/-! ### One schedule -/

theorem nextOf_eq_some {queue : List (Job ρ)} {v : Nat} {workers : List (Worker ρ)}
    (h : nextOf? b queue v workers = some a) : ∃ (i : Nat) (worker : Worker ρ),
      workers[i]? = some worker ∧ worker.next? b queue (v + i) = some a := by
  induction workers generalizing v with
  | nil => cases h
  | cons worker workers ih =>
    rw [nextOf?, Option.or_eq_some_iff] at h
    obtain h | ⟨-, h⟩ := h
    · exact ⟨0, worker, rfl, h⟩
    · obtain ⟨i, worker', hi, hnext⟩ := ih h
      exact ⟨i + 1, worker', hi, by rwa [Nat.add_right_comm] at hnext⟩

theorem nextOf_eq_none {queue : List (Job ρ)} {v i : Nat} {workers : List (Worker ρ)}
    {worker : Worker ρ} (h : nextOf? b queue v workers = none) (hi : workers[i]? = some worker) :
    worker.next? b queue (v + i) = none := by
  induction workers generalizing v i with
  | nil => cases hi
  | cons first workers ih =>
    rw [nextOf?, Option.or_eq_none_iff] at h
    cases i with
    | zero =>
      obtain rfl := Option.some.inj hi
      exact h.1
    | succ i =>
      have := ih h.2 hi
      rwa [Nat.add_right_comm] at this

/-- Letting the workers go on in their order ends when none of them has anything to do. -/
theorem settleWithin_eq (b : Behaviour ρ) {k : Nat} (h : p.remaining ≤ k) :
    ∃ actions, p.replay actions = some (settleWithin b k p) ∧ next? b (settleWithin b k p) = none := by
  have going {p : Pool ρ} {a : PoolAction ρ} (ha : next? b p = some a) :
      ∃ p', p.step a = some p' ∧ p'.remaining < p.remaining := by
    obtain ⟨w, worker, hw, hnext⟩ := nextOf_eq_some ha
    rw [Nat.zero_add] at hnext
    obtain ⟨hown, p', hstep⟩ := step_of_next hw hnext
    exact ⟨p', hstep, remaining_lt hstep hown⟩
  induction k generalizing p with
  | zero =>
    refine ⟨[], rfl, ?_⟩
    cases ha : next? b p with
    | none => exact ha
    | some a =>
      obtain ⟨p', -, hlt⟩ := going ha
      omega
  | succ k ih =>
    cases ha : next? b p with
    | none =>
      refine ⟨[], ?_, ?_⟩ <;> simp [settleWithin, ha, replay]
    | some a =>
      obtain ⟨p', hstep, hlt⟩ := going ha
      obtain ⟨actions, hactions, hnone⟩ := ih (p := p') (by omega)
      have hsettle : settleWithin b (k + 1) p = settleWithin b k p' := by
        simp [settleWithin, ha, hstep]
      rw [hsettle]
      refine ⟨a :: actions, ?_, hnone⟩
      rw [replay, List.foldlM_cons, hstep]
      exact hactions

theorem joined_of_join (h : p.step .join = some p') : p.joined = .ok () := by
  have hnone : (p.workers.countP fun worker => !worker.hasExited) = 0 := by
    refine List.countP_eq_zero.mpr fun worker hworker => ?_
    rw [(of_step_join h).2.1 worker hworker]
    exact Bool.noConfusion
  exact ensure_eq_ok.mpr hnone

theorem step_join (hclosing : p.closing = true) (h : ∀ worker ∈ p.workers, worker = .exited) :
    p.step .join = some { p with workers := [] } := by
  refine if_pos ?_
  rw [hclosing, Bool.true_and, List.all_eq_true]
  intro worker hworker
  rw [h worker hworker]

/-- Where no worker has anything to do while the pool drains, all have ended. -/
theorem exited_of_next (hl : Lifecycle n p) (hclosing : p.closing = true)
    (hready : ∀ r, b.ready r = true) (h : next? b p = none) : ∀ worker ∈ p.workers, worker = .exited := by
  intro worker hworker
  obtain ⟨w, hw⟩ := List.mem_iff_getElem?.mp hworker
  refine Classical.byContradiction fun hne => ?_
  have hqueue (hpolling : worker = .polling) : p.queue ≠ [] := hl.queue_ne_nil hclosing (hpolling ▸ hw)
  obtain ⟨a, ha⟩ := next_of_ready (w := 0 + w) hready hne hqueue
  rw [nextOf_eq_none h hw] at ha
  cases ha

/-- A pool whose tasks all come to an end can be shut down. -/
theorem Lifecycle.shutsDown_shutdown (hl : Lifecycle n p) (hn : 0 < n) (hready : ∀ r, b.ready r = true)
    (hopen : p.closing = false) (hannounced : p.announced = []) : ShutsDown p (p.shutdown b) (.ok ()) := by
  have hworkers : p.workers.isEmpty = false := by
    cases hl with
    | isOpen _ _ hworkers => exact List.isEmpty_eq_false_iff.mpr (List.ne_nil_of_length_pos (by omega))
    | draining _ hdrains | ended hdrains =>
      rw [hopen] at hdrains
      cases hdrains
  obtain ⟨closed, hclose, hclosing⟩ : ∃ closed, p.step .close = some closed ∧ closed.closing = true := by
    simp [Pool.step, hworkers, hopen, hannounced]
  have hclosed := hl.step hclose
  obtain ⟨actions, hdrain, hnone⟩ := settleWithin_eq b (Nat.le_refl closed.remaining)
  have hstill := (hclosed.replay_remaining hclosing hdrain).1
  have hexited := exited_of_next (hclosed.replay hdrain) hstill hready hnone
  have hjoin := step_join hstill hexited
  have hshutdown : p.shutdown b = { closed.settle b with workers := [] } := by
    rw [shutdown, hclose]
    change ((closed.settle b).step .join).getD _ = _
    rw [settle, hjoin]
    rfl
  rw [hshutdown, ← joined_of_join hjoin]
  exact .now hclose hdrain hjoin

/-! ### After the end -/

/-- A pool that was shut down: it is empty, and nothing that is asked of it changes more than the number
that the next task would have had. -/
structure Retired (p : Pool ρ) : Prop where
  workers : p.workers = []
  queue : p.queue = []
  pending : p.pending = 0
  submit (job : Job ρ) : ∃ e text, p.submit job = .error e ∧ Error.ofPool e = .dispatcher text
  spawn (routine : ρ) : ∃ e text, p.spawn routine = ({ p with nextId := p.nextId + 1 }, .error e) ∧
    Error.ofPool e = .dispatcher text
  again {p' : Pool ρ} {result : Except PoolError Unit} (h : ShutsDown p p' result) :
    p' = p ∧ result = .ok ()

theorem submit_of_retired (h : p.workers = []) (task : Task ρ) :
    p.submit (.work task) = .error .shutDown := by
  have hnone : p.replay [.announce task, .push p.announced.length] = none := by
    simp [replay, step, h]
  rw [submit, hnone]

theorem Retired.of_workers (h : p.workers = []) (hqueue : p.queue = []) (hpending : p.pending = 0) :
    Retired p where
  workers := h
  queue := hqueue
  pending := hpending
  submit job := by
    cases job with
    | work task => exact ⟨_, _, submit_of_retired h task, rfl⟩
    | poison => exact ⟨_, _, rfl, rfl⟩
  spawn routine := by
    refine ⟨.shutDown, _, ?_, rfl⟩
    have hnumbered : { p with nextId := p.nextId + 1 }.workers = [] := h
    rw [Pool.spawn, submit_of_retired hnumbered]
  again hshuts := by
    cases hshuts with
    | already => exact ⟨rfl, rfl⟩
    | now close => simp [step, h] at close

theorem replay_append (p : Pool ρ) (actions later : List (PoolAction ρ)) :
    p.replay (actions ++ later) = (p.replay actions).bind (·.replay later) := List.foldlM_append

variable {actions : List (PoolAction ρ)}

/-- When all workers have ended, no task is left anywhere but among those that were run. -/
theorem drained_of_exited (hn : 0 < n) (h : (Pool.ofWorkers n).replay actions = some p)
    (hexited : ∀ worker ∈ p.workers, worker = .exited) : p.queue = [] ∧ p.announced = [] ∧
      p.pending = 0 ∧ ∃ l, (Ledger.ofWorkers n).replay actions = some l ∧ l.pool = p ∧
        p.history ~ l.accepted ∧ p.completed = l.accepted.length := by
  obtain ⟨-, hannounced, hqueue⟩ := ((Lifecycle.ofWorkers n).replay h).queue_of_exited hn hexited
  have hpool := (Ledger.ofWorkers n).replay_pool actions
  obtain ⟨l, hl, rfl⟩ := Option.map_eq_some_iff.mp (hpool.trans h)
  have hbalanced := (Balanced.ofWorkers n).replay hl
  have hpending : l.pool.pending = 0 := by
    rw [hbalanced.pending_eq, hannounced, hqueue, among_of_exited hexited rfl]
    rfl
  obtain ⟨-, -, -, hhistory, hcompleted, -⟩ := hbalanced.idle hpending
  exact ⟨hqueue, hannounced, hpending, l, hl, rfl, hhistory, hcompleted⟩

theorem retired_of_replay (hn : 0 < n) (h : (Pool.ofWorkers n).replay actions = some p)
    (hworkers : p.workers = []) : p.Retired := by
  have hexited : ∀ worker ∈ p.workers, worker = .exited := by
    rw [hworkers]
    exact nofun
  obtain ⟨hqueue, -, hpending, -⟩ := drained_of_exited hn h hexited
  exact .of_workers hworkers hqueue hpending

theorem ShutsDown.replay {result : Except PoolError Unit} (h : p.ShutsDown p' result) :
    result = .ok () ∧ p'.workers = [] ∧ ∃ more, p.replay more = some p' := by
  cases h with
  | already hworkers => exact ⟨rfl, hworkers, [], rfl⟩
  | @now closed drained _ between hclose hdrain hjoin =>
    obtain ⟨-, -, rfl⟩ := of_step_join hjoin
    refine ⟨joined_of_join hjoin, rfl, .close :: (between ++ [.join]), ?_⟩
    have hrest : closed.replay (between ++ [.join]) = some { drained with workers := [] } := by
      rw [replay_append, hdrain, Option.bind_some, Pool.replay, List.foldlM_cons, hjoin]
      rfl
    rw [Pool.replay, List.foldlM_cons, hclose]
    exact hrest

/-- How a pool of `n` workers that has come to `p` by some actions ends. -/
structure EndsWell (p : Pool ρ) (n : Nat) (actions : List (PoolAction ρ)) : Prop where
  /-- No worker takes poison while a task is queued, or is still to be queued. -/
  order (w : Nat) (a : PoolAction ρ) : p.takesPoison w a = true → p.announced = [] ∧ tasks p.queue = []
  /-- A worker that has ended has taken one portion of poison; any other has taken none. -/
  portions (w : Nat) : w < n → poisonTaken w (Pool.ofWorkers n) actions = (p.lacks w).toNat
  /-- Once poison is queued, a worker can go on until it has ended. -/
  goes (w : Nat) (worker : Worker ρ) : p.closing = true → p.workers[w]? = some worker →
    worker ≠ .exited → ∃ a p', a.worker? = some w ∧ p.step a = some p'
  /-- In whatever order the workers then go on, they come to an end. -/
  ends (later : List (PoolAction ρ)) (p' : Pool ρ) : p.closing = true → p.replay later = some p' →
    (later.filter (·.worker?.isSome)).length ≤ p.remaining
  /-- When all workers have ended, all tasks have been run once. -/
  drained : (∀ worker ∈ p.workers, worker = .exited) → p.queue = [] ∧ p.announced = [] ∧
    p.pending = 0 ∧ ∃ l, (Ledger.ofWorkers n).replay actions = some l ∧ l.pool = p ∧
      p.history ~ l.accepted ∧ p.completed = l.accepted.length
  retired : p.workers = [] → p.Retired
  /-- Shutting the pool down brings it to its end, and fails for no worker. -/
  shutdown (p' : Pool ρ) (result : Except PoolError Unit) : p.ShutsDown p' result →
    result = .ok () ∧ p'.Retired ∧ ∃ more, p.replay more = some p'
  /-- It can be shut down when nobody is submitting. -/
  possible (b : Behaviour ρ) : (∀ r, b.ready r = true) → p.closing = false → p.announced = [] →
    p.ShutsDown (p.shutdown b) (.ok ())

end Pool

/-- However the steps of submitters and workers are interleaved, and whichever tasks crash, a pool ends well
when it is shut down: no worker takes poison before the last task has been taken, each takes one portion of
it, and when all have ended every task that was ever accepted has been run once. What is then left refuses
all work and can be shut down again without effect. -/
theorem pool_ends_well {n : Nat} {actions : List (PoolAction ρ)} {p : Pool ρ} (hn : 0 < n)
    (h : (Pool.ofWorkers n).replay actions = some p) : p.EndsWell n actions := by
  have hl : p.Lifecycle n := (Pool.Lifecycle.ofWorkers n).replay h
  exact {
    order := fun w a htakes => hl.no_tasks_behind_poison (Pool.head_of_takesPoison htakes)
    portions := fun w hw => Pool.poisonTaken_eq hw h
    goes := fun w worker => hl.can_go_on
    ends := fun later p' hclosing hlater =>
      Nat.le_trans (Nat.le_add_right ..) (hl.replay_remaining hclosing hlater).2
    drained := Pool.drained_of_exited hn h
    retired := Pool.retired_of_replay hn h
    shutdown := fun p' result hshuts => by
      obtain ⟨hresult, hworkers, more, hmore⟩ := hshuts.replay
      have hwhole : (Pool.ofWorkers n).replay (actions ++ more) = some p' := by
        rw [Pool.replay_append, h]
        exact hmore
      exact ⟨hresult, Pool.retired_of_replay hn hwhole hworkers, more, hmore⟩
    possible := fun b hready => hl.shutsDown_shutdown hn hready }

/-- Two workers, one of which is still busy with a task that crashes when the other one ends. -/
theorem pool_ends_well_busy :
    let task : Task Unit := ⟨0, ()⟩
    let actions : List (PoolAction Unit) := [.announce task, .push 0, .pop 1, .close, .pop 0, .run 1 true,
      .noteCrash 1, .complete 1, .retire 1, .pop 1, .join]
    let p : Pool Unit := {
      workers := [], closing := true, completed := 1, crashed := 1, history := [task] }
    (Pool.ofWorkers 2).replay actions = some p ∧ p.Retired ∧
      Pool.poisonTaken 0 (Pool.ofWorkers 2) actions = 1 ∧
      Pool.poisonTaken 1 (Pool.ofWorkers 2) actions = 1 := by
  intro task actions p
  have h : (Pool.ofWorkers 2).replay actions = some p := by decide
  have hends := pool_ends_well (by decide) h
  exact ⟨h, hends.retired rfl, hends.portions 0 (by decide), hends.portions 1 (by decide)⟩

end AccelKrylov
