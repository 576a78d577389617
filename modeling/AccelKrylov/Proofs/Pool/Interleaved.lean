import AccelKrylov.Proofs.Pool.Accepting

/-! A pool with one caller. The caller takes its steps in its own order, and the workers take theirs whenever
they like; what the pool has completed when nothing is pending any more is then a matter of the caller's steps
alone. -/

namespace AccelKrylov

variable {ρ : Type}

namespace PoolAction

/-- A step of somebody who submits work. -/
def submits : PoolAction ρ → Bool
  | number | announce _ | push _ => true
  | pop _ | run .. | noteCrash _ | complete _ | retire _ | close | join => false

def announces : PoolAction ρ → Bool
  | announce _ => true
  | _ => false

def pushes : PoolAction ρ → Bool
  | push _ => true
  | _ => false

end PoolAction

namespace Pool

/-- From the first pool to the second one, the caller takes some steps in order, with steps of workers before,
between and after them. Only routines that can crash do. -/
inductive Interleaved (crashes : ρ → Prop) : Pool ρ → List (PoolAction ρ) → Pool ρ → Prop
  | done (p : Pool ρ) : Interleaved crashes p [] p
  | own {p q p' : Pool ρ} {a : PoolAction ρ} {steps : List (PoolAction ρ)} (caller : a.worker? = none)
      (step : p.step a = some q) (rest : Interleaved crashes q steps p') :
      Interleaved crashes p (a :: steps) p'
  | worker {p q p' : Pool ρ} {a : PoolAction ρ} {w : Nat} {steps : List (PoolAction ρ)}
      (worker : a.worker? = some w)
      (crash : ∀ task, p.workers[w]? = some (.taken task) → a = .run w true → crashes task.routine)
      (step : p.step a = some q) (rest : Interleaved crashes q steps p') :
      Interleaved crashes p steps p'

variable {crashes : ρ → Prop} {p q p' : Pool ρ} {a : PoolAction ρ} {w : Nat}
  {steps more : List (PoolAction ρ)}

namespace Interleaved

theorem trans (h : Interleaved crashes p steps q) (h' : Interleaved crashes q more p') :
    Interleaved crashes p (steps ++ more) p' := by
  induction h with
  | done => exact h'
  | own caller step _ ih => exact .own caller step (ih h')
  | worker worker crash step _ ih => exact .worker worker crash step (ih h')

/-- The caller's steps, without a worker between them. -/
theorem of_replay (hcaller : ∀ a ∈ steps, a.worker? = none) (h : p.replay steps = some p') :
    Interleaved crashes p steps p' := by
  induction steps generalizing p with
  | nil =>
    obtain rfl := Option.some.inj h
    exact .done p
  | cons a steps ih =>
    obtain ⟨ha, hcaller⟩ := List.forall_mem_cons.mp hcaller
    obtain ⟨q, hq, hrest⟩ := Option.bind_eq_some_iff.mp h
    exact .own ha hq (ih hcaller hrest)

theorem exists_replay (h : Interleaved crashes p steps p') : ∃ actions, p.replay actions = some p' := by
  induction h with
  | done => exact ⟨[], rfl⟩
  | own _ step _ ih | worker _ _ step _ ih =>
    obtain ⟨actions, hactions⟩ := ih
    exact ⟨_ :: actions, Option.bind_eq_some_iff.mpr ⟨_, step, hactions⟩⟩

/-- Workers that are let go on in their order. -/
theorem settleWithin (k : Nat) (p : Pool ρ) : Interleaved crashes p [] (settleWithin .calm k p) := by
  induction k generalizing p with
  | zero => exact .done p
  | succ k ih =>
    rw [Pool.settleWithin]
    split
    next q hnext =>
      obtain ⟨a, ha, hstep⟩ := Option.bind_eq_some_iff.mp hnext
      obtain ⟨w, worker, hw, hworker⟩ := nextOf_eq_some ha
      rw [Nat.zero_add] at hworker
      refine .worker (step_of_next hw hworker).1 (fun task htask hcrash => ?_) hstep (ih q)
      obtain rfl := Option.some.inj (hw.symm.trans htask)
      rw [hcrash] at hworker
      cases hworker
    next => exact .done p

theorem settle (p : Pool ρ) : Interleaved crashes p [] (p.settle .calm) := settleWithin p.remaining p

end Interleaved

/-! ### Submitters -/

/-- Submitters only number, announce and queue tasks. -/
theorem of_step_submits (h : p.step a = some p') (ha : a.submits = true) :
    a.worker? = none ∧ p'.closing = p.closing ∧ p'.workers = p.workers ∧
      p'.announced.length + a.pushes.toNat = p.announced.length + a.announces.toNat := by
  cases a with
  | number =>
    obtain rfl := Option.some.inj h
    exact ⟨rfl, rfl, rfl, rfl⟩
  | announce task =>
    obtain ⟨-, -, rfl⟩ := of_step_announce h
    exact ⟨rfl, rfl, rfl, List.length_append⟩
  | push i =>
    obtain ⟨task, hi, rfl⟩ := of_step_push h
    obtain ⟨hlt, -⟩ := List.getElem?_eq_some_iff.mp hi
    refine ⟨rfl, rfl, rfl, ?_⟩
    change (p.announced.eraseIdx i).length + 1 = p.announced.length + 0
    rw [List.length_eraseIdx_of_lt hlt]
    omega
  | _ => cases ha

/-- A caller has submitted some jobs and queued what it has announced. -/
structure Submitted (steps : List (PoolAction ρ)) (jobs : Nat) : Prop where
  submits : ∀ a ∈ steps, a.submits = true
  announces : steps.countP PoolAction.announces = jobs
  pushes : steps.countP PoolAction.pushes = jobs

namespace Submitted

variable {jobs jobs' : Nat}

theorem nil : Submitted ([] : List (PoolAction ρ)) 0 := ⟨nofun, rfl, rfl⟩

theorem append (h : Submitted steps jobs) (h' : Submitted more jobs') :
    Submitted (steps ++ more) (jobs + jobs') where
  submits a ha := (List.mem_append.mp ha).elim (h.submits a) (h'.submits a)
  announces := by rw [List.countP_append, h.announces, h'.announces]
  pushes := by rw [List.countP_append, h.pushes, h'.pushes]

end Submitted

theorem Interleaved.kept (h : Interleaved crashes p steps p') (hsubmits : ∀ a ∈ steps, a.submits = true) :
    p'.closing = p.closing ∧ p'.workers.length = p.workers.length ∧
      p'.announced.length + steps.countP PoolAction.pushes =
        p.announced.length + steps.countP PoolAction.announces := by
  induction h with
  | done => exact ⟨rfl, rfl, rfl⟩
  | @own p q p' a steps caller step rest ih =>
    obtain ⟨ha, hsubmits⟩ := List.forall_mem_cons.mp hsubmits
    obtain ⟨-, hclosing, hworkers, hannounced⟩ := of_step_submits step ha
    obtain ⟨hclosing', hlength, hcount⟩ := ih hsubmits
    refine ⟨hclosing'.trans hclosing, hlength.trans (congrArg List.length hworkers), ?_⟩
    rw [List.countP_cons, List.countP_cons]
    cases hp : a.pushes <;> cases ha : a.announces <;> simp [hp, ha] at hannounced ⊢ <;> omega
  | @worker p q p' a w steps worker crash step rest ih =>
    obtain ⟨before, after, -, hworkers, -⟩ := step_own step worker
    obtain ⟨hclosing, hannounced⟩ := kept_of_step step worker
    obtain ⟨hclosing', hlength, hcount⟩ := ih hsubmits
    refine ⟨hclosing'.trans hclosing, ?_, ?_⟩
    · rw [hlength, hworkers, List.length_set]
    · rw [hcount, hannounced]

/-! ### Work that nobody loses -/

end Pool

namespace Ledger

variable (l : Ledger ρ) (p : Pool ρ) (a : PoolAction ρ)

@[simp] theorem pool_note : (l.note p a).pool = p := by cases a <;> rfl

theorem accepted_note :
    (l.note p a).accepted.length = l.accepted.length + a.announces.toNat := by
  cases a with
  | announce task => exact List.length_append
  | _ => rfl

theorem crashes_note (h : ∀ w, a ≠ .run w true) : (l.note p a).crashes = l.crashes := by
  cases a with
  | run w crashes =>
    cases crashes with
    | true => exact absurd rfl (h w)
    | false => rfl
  | _ => rfl

end Ledger

namespace Pool

variable {crashes : ρ → Prop} {p q p' : Pool ρ} {a : PoolAction ρ} {w : Nat}
  {steps more : List (PoolAction ρ)} {jobs : Nat}

/-- Where no routine crashes, the books say that the caller has announced tasks and nothing else. -/
theorem Interleaved.balanced (hcalm : ∀ r, ¬ crashes r) (h : Interleaved crashes p steps p')
    {l : Ledger ρ} (hl : l.pool = p) (hbalanced : Balanced l) : ∃ l' : Ledger ρ, l'.pool = p' ∧ Balanced l' ∧
      l'.accepted.length = l.accepted.length + steps.countP PoolAction.announces ∧
      l'.crashes = l.crashes := by
  induction h generalizing l with
  | done => exact ⟨l, hl, hbalanced, rfl, rfl⟩
  | @own p q p' a steps caller step rest ih =>
    subst hl
    obtain ⟨l', hpool, hbalanced', haccepted, hcrashes⟩ := ih (l.pool_note q a) (hbalanced.note step)
    have hcalm : ∀ w, a ≠ .run w true := by
      rintro w rfl
      cases caller
    refine ⟨l', hpool, hbalanced', ?_, hcrashes.trans (l.crashes_note q a hcalm)⟩
    rw [haccepted, l.accepted_note, List.countP_cons]
    cases a.announces with
    | true => simp only [if_true, Bool.toNat_true]; omega
    | false => simp
  | @worker p q p' a w steps worker crash step rest ih =>
    subst hl
    obtain ⟨l', hpool, hbalanced', haccepted, hcrashes⟩ := ih (l.pool_note q a) (hbalanced.note step)
    have hcalm : ∀ v, a ≠ .run v true := by
      rintro v rfl
      obtain rfl := Option.some.inj worker
      obtain ⟨task, htask, -⟩ := of_step_run step
      exact hcalm _ (crash task htask rfl)
    have hsilent : a.announces = false := by cases a <;> first | rfl | cases worker
    refine ⟨l', hpool, hbalanced', ?_, hcrashes.trans (l.crashes_note q a hcalm)⟩
    rw [haccepted, l.accepted_note, hsilent]
    rfl

/-! ### Pools at rest -/

/-- Nothing goes on in the pool. It takes work, or it has been shut down for good. -/
structure AtRest (p : Pool ρ) : Prop where
  reachable : p.Reachable
  pending : p.pending = 0
  closing : p.closing = true → p.workers = []

theorem atRest_ofWorkers {n : Nat} (hn : 0 < n) : (ofWorkers n : Pool ρ).AtRest where
  reachable := ⟨n, [], hn, rfl⟩
  pending := rfl
  closing := nofun

theorem Reachable.exists_balanced (h : p.Reachable) : ∃ l : Ledger ρ, l.pool = p ∧ Balanced l := by
  obtain ⟨n, actions, -, hactions⟩ := h
  have hpool := (Ledger.ofWorkers n).replay_pool actions
  obtain ⟨l, hl, rfl⟩ := Option.map_eq_some_iff.mp (hpool.trans hactions)
  exact ⟨l, rfl, (Balanced.ofWorkers n).replay hl⟩

theorem Reachable.lifecycle (h : p.Reachable) : ∃ n, 0 < n ∧ p.Lifecycle n := by
  obtain ⟨n, actions, hn, hactions⟩ := h
  exact ⟨n, hn, (Lifecycle.ofWorkers n).replay hactions⟩

theorem Interleaved.reachable (h : Interleaved crashes p steps p') (hp : p.Reachable) : p'.Reachable := by
  obtain ⟨n, actions, hn, hactions⟩ := hp
  obtain ⟨later, hlater⟩ := h.exists_replay
  exact ⟨n, actions ++ later, hn, by rw [replay_append, hactions, Option.bind_some, hlater]⟩

namespace AtRest

theorem announced (hrest : p.AtRest) : p.announced = [] := by
  obtain ⟨l, rfl, hbalanced⟩ := hrest.reachable.exists_balanced
  exact (hbalanced.idle hrest.pending).1

theorem accepting (hrest : p.AtRest) (hworkers : p.workers ≠ []) : p.Accepting where
  workers := hworkers
  closing := Bool.eq_false_iff.mpr (mt hrest.closing hworkers)

theorem queue (hrest : p.AtRest) : p.queue = [] := by
  obtain ⟨l, rfl, hbalanced⟩ := hrest.reachable.exists_balanced
  obtain ⟨-, htasks, -⟩ := hbalanced.idle hrest.pending
  obtain ⟨n, hn, hlife⟩ := hrest.reachable.lifecycle
  cases hlife with
  | isOpen waiting _ _ hqueue =>
    cases waiting with
    | nil => exact hqueue
    | cons task waiting =>
      rw [hqueue] at htasks
      cases htasks
  | draining _ hclosing hworkers =>
    rw [hrest.closing hclosing, List.length_nil] at hworkers
    omega
  | ended _ _ _ hqueue => exact hqueue

/-- The workers of a pool at rest have nothing to do. -/
theorem step_ne (hrest : p.AtRest) (ha : a.worker? = some w) : p.step a ≠ some q := by
  intro hstep
  have hqueue := hrest.queue
  obtain ⟨before, after, hbefore, -, hmoves⟩ := step_own hstep ha
  obtain ⟨l, rfl, hbalanced⟩ := hrest.reachable.exists_balanced
  obtain ⟨-, -, hheld, -⟩ := hbalanced.idle hrest.pending
  have hnone : before.held? = none :=
    List.filterMap_eq_nil_iff.mp hheld before (List.mem_of_getElem? hbefore)
  cases hmoves with
  | take | leave =>
    obtain ⟨-, ⟨_, _, hfirst, -⟩ | ⟨_, hfirst, -⟩⟩ := of_step_pop hstep <;>
      cases hqueue.symm.trans hfirst
  | run | noteCrash | complete | retire => cases hnone

/-- Without a caller nothing happens in a pool at rest. -/
theorem eq_of_interleaved (hrest : p.AtRest) (h : Interleaved crashes p [] p') : p' = p := by
  cases h with
  | done => rfl
  | worker worker _ step _ => exact absurd step (hrest.step_ne worker)

/-- Once nothing is pending, the jobs that the caller has submitted are completed, and no others. -/
theorem completed (hrest : p.AtRest) (hcalm : ∀ r, ¬ crashes r) (h : Interleaved crashes p steps p')
    (hsteps : Submitted steps jobs) (hpending : p'.pending = 0) :
    p'.AtRest ∧ p'.completed = p.completed + jobs ∧ p'.crashed = p.crashed := by
  obtain ⟨l, rfl, hbalanced⟩ := hrest.reachable.exists_balanced
  obtain ⟨l', rfl, hbalanced', haccepted, hcrashes⟩ := h.balanced hcalm rfl hbalanced
  obtain ⟨-, -, -, -, hcompleted, hcrashed⟩ := hbalanced.idle hrest.pending
  obtain ⟨-, -, -, -, hcompleted', hcrashed'⟩ := hbalanced'.idle hpending
  obtain ⟨hclosing, hlength, -⟩ := h.kept hsteps.submits
  refine ⟨⟨h.reachable hrest.reachable, hpending, fun hclosed => ?_⟩, ?_, ?_⟩
  · have hnone := hrest.closing (hclosing.symm.trans hclosed)
    rw [← List.length_eq_zero_iff, hlength, hnone]
    rfl
  · rw [hcompleted', haccepted, hsteps.announces, hcompleted]
  · rw [hcrashed', hcrashes, hcrashed]

/-- While something is pending, a worker has something to do. -/
theorem exists_busy (hrest : p.AtRest) (h : Interleaved crashes p steps p')
    (hsteps : Submitted steps jobs) (hpending : p'.pending ≠ 0) : ∃ (w : Nat) (worker : Worker ρ),
      p'.workers[w]? = some worker ∧ worker ≠ .exited ∧ (worker = .polling → p'.queue ≠ []) := by
  obtain ⟨hclosing, hlength, hannounced⟩ := h.kept hsteps.submits
  have hreachable := h.reachable hrest.reachable
  rw [hsteps.announces, hsteps.pushes, hrest.announced] at hannounced
  obtain ⟨l, rfl, hbalanced⟩ := hreachable.exists_balanced
  obtain ⟨n, hn, hlife⟩ := hreachable.lifecycle
  have hcount := hbalanced.pending_eq
  rw [Nat.add_right_cancel hannounced, List.length_nil, Nat.zero_add] at hcount
  by_cases hheld : l.pool.among Worker.held? = []
  · have hqueue : l.pool.queue ≠ [] := by
      intro hnone
      rw [hheld, hnone] at hcount
      exact hpending hcount
    cases hlife with
    | isOpen waiting _ hworkers _ hexits =>
      obtain ⟨worker, hworker⟩ : ∃ worker, l.pool.workers[0]? = some worker :=
        ⟨_, List.getElem?_eq_getElem (by omega)⟩
      refine ⟨0, worker, hworker, ?_, fun _ => hqueue⟩
      rintro rfl
      have hnone := List.countP_eq_zero.mp hexits _ (List.mem_of_getElem? hworker)
      exact hnone rfl
    | draining _ hclosed hworkers =>
      have hnone := hrest.closing (hclosing.symm.trans hclosed)
      rw [hnone, List.length_nil] at hlength
      omega
    | ended _ _ _ hnone => exact absurd hnone hqueue
  · obtain ⟨task, htask⟩ := List.exists_mem_of_ne_nil _ hheld
    obtain ⟨worker, hworker, hhas⟩ := List.mem_filterMap.mp htask
    obtain ⟨w, hw⟩ := List.mem_iff_getElem?.mp hworker
    refine ⟨w, worker, hw, ?_, ?_⟩ <;> rintro rfl <;> cases hhas

/-- Whoever waits for a pool with work does not wait in vain. -/
theorem can_go_on (hrest : p.AtRest) (h : Interleaved crashes p steps p')
    (hsteps : Submitted steps jobs) (hpending : p'.pending ≠ 0) :
    ∃ w a q, a.worker? = some w ∧ p'.step a = some q := by
  obtain ⟨w, worker, hw, hne, hqueue⟩ := hrest.exists_busy h hsteps hpending
  obtain ⟨a, ha⟩ := next_of_ready (b := .calm) (w := w) (fun _ => rfl) hne hqueue
  obtain ⟨hworker, q, hstep⟩ := step_of_next hw ha
  exact ⟨w, a, q, hworker, hstep⟩

/-- A pool in which no worker has anything to do is at rest again. -/
theorem pending_settle (hrest : p.AtRest) (h : Interleaved crashes p steps q)
    (hsteps : Submitted steps jobs) : (q.settle .calm).pending = 0 := by
  refine Classical.byContradiction fun hpending => ?_
  have hsettled := h.trans (.settle q)
  rw [List.append_nil] at hsettled
  obtain ⟨w, worker, hw, hne, hqueue⟩ := hrest.exists_busy hsettled hsteps hpending
  obtain ⟨-, -, hnone⟩ := settleWithin_eq .calm (Nat.le_refl q.remaining)
  obtain ⟨a, ha⟩ := next_of_ready (b := .calm) (w := 0 + w) (fun _ => rfl) hne hqueue
  cases (nextOf_eq_none hnone hw).symm.trans ha

/-- A pool at rest can be shut down, after which it is at rest without workers. -/
theorem shutdown (hrest : p.AtRest) : (p.shutdown .calm).AtRest ∧ (p.shutdown .calm).workers = [] := by
  by_cases hworkers : p.workers = []
  · have hsame : p.shutdown .calm = p := by simp [Pool.shutdown, step, hworkers]
    rw [hsame]
    exact ⟨hrest, hworkers⟩
  · obtain ⟨n, actions, hn, hactions⟩ := hrest.reachable
    have hshuts := ((Lifecycle.ofWorkers n).replay hactions).shutsDown_shutdown hn (b := .calm)
      (fun _ => rfl) (hrest.accepting hworkers).closing hrest.announced
    obtain ⟨-, hnone, more, hmore⟩ := hshuts.replay
    have hwhole : (ofWorkers n).replay (actions ++ more) = some (p.shutdown .calm) := by
      rw [replay_append, hactions, Option.bind_some, hmore]
    exact ⟨⟨⟨n, _, hn, hwhole⟩, (retired_of_replay hn hwhole hnone).pending, fun _ => hnone⟩, hnone⟩

end AtRest

end Pool

end AccelKrylov
