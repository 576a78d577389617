import AccelKrylov.Proofs.Pool.Shutdown

/-! Pools that still take work. Queueing work and letting the workers go on leaves a pool as open as it was:
only shutting it down ends that. -/

namespace AccelKrylov.Pool

variable {ρ : Type} {p p' : Pool ρ} {a : PoolAction ρ} {w : Nat}

/-- There is somebody to work, and nobody has asked for the end. -/
structure Accepting (p : Pool ρ) : Prop where
  workers : p.workers ≠ []
  closing : p.closing = false

theorem accepting_ofWorkers {n : Nat} (hn : 0 < n) : (ofWorkers n : Pool ρ).Accepting where
  workers := by
    rw [ofWorkers, ne_eq, List.replicate_eq_nil_iff]
    omega
  closing := rfl

/-- Workers leave to their callers what is announced, and whether the pool is closing. -/
theorem kept_of_step (h : p.step a = some p') (ha : a.worker? = some w) :
    p'.closing = p.closing ∧ p'.announced = p.announced := by
  cases a with
  | number | announce _ | push _ | close | join => cases ha
  | pop v =>
    obtain ⟨-, ⟨task, queue, -, rfl⟩ | ⟨queue, -, rfl⟩⟩ := of_step_pop h <;> exact ⟨rfl, rfl⟩
  | run v crashes =>
    obtain ⟨task, -, rfl⟩ := of_step_run h
    exact ⟨rfl, rfl⟩
  | noteCrash v =>
    obtain ⟨task, -, rfl⟩ := of_step_noteCrash h
    exact ⟨rfl, rfl⟩
  | complete v =>
    obtain ⟨task, -, rfl⟩ := of_step_complete h
    exact ⟨rfl, rfl⟩
  | retire v =>
    obtain ⟨task, -, rfl⟩ := of_step_retire h
    exact ⟨rfl, rfl⟩

/-- Workers neither open nor close a pool. -/
theorem accepting_step_iff (h : p.step a = some p') (ha : a.worker? = some w) :
    p'.Accepting ↔ p.Accepting := by
  have hclosing := (kept_of_step h ha).1
  obtain ⟨before, after, -, hworkers, -⟩ := step_own h ha
  have hnil : p'.workers = [] ↔ p.workers = [] := by rw [hworkers, List.set_eq_nil_iff]
  constructor
  · exact fun hp => ⟨mt hnil.mpr hp.workers, hclosing.symm.trans hp.closing⟩
  · exact fun hp => ⟨mt hnil.mp hp.workers, hclosing.trans hp.closing⟩

theorem accepting_settleWithin_iff (b : Behaviour ρ) (n : Nat) :
    (settleWithin b n p).Accepting ↔ p.Accepting := by
  induction n generalizing p with
  | zero => exact Iff.rfl
  | succ n ih =>
    rw [settleWithin]
    split
    next p' hnext =>
      obtain ⟨a, ha, hstep⟩ := Option.bind_eq_some_iff.mp hnext
      obtain ⟨w, worker, hw, hworker⟩ := nextOf_eq_some ha
      rw [Nat.zero_add] at hworker
      exact ih.trans (accepting_step_iff hstep (step_of_next hw hworker).1)
    next => exact Iff.rfl

/-- Workers that go on until there is enough of something go on for a number of actions. -/
theorem exists_settleUntil_eq (b : Behaviour ρ) (enough : Pool ρ → Bool) (n : Nat) (p : Pool ρ) :
    ∃ k, settleUntil b enough n p = settleWithin b k p := by
  induction n generalizing p with
  | zero => exact ⟨0, rfl⟩
  | succ n ih =>
    rw [settleUntil]
    split
    next => exact ⟨0, rfl⟩
    next =>
      cases hnext : next? b p >>= p.step with
      | none => exact ⟨0, rfl⟩
      | some q =>
        obtain ⟨k, hk⟩ := ih q
        exact ⟨k + 1, by rw [settleWithin, hnext]; exact hk⟩

namespace Accepting

theorem submit (hp : p.Accepting) (task : Task ρ) : p.submit (.work task) =
    .ok { p with pending := p.pending + 1, queue := p.queue ++ [.work task] } := by
  have hopen : ¬ (p.workers.isEmpty || p.closing) = true := by
    simp [hp.workers, hp.closing]
  have herase : (p.announced ++ [task]).eraseIdx p.announced.length = p.announced := by
    rw [List.eraseIdx_append_of_length_le (Nat.le_refl _), Nat.sub_self]
    exact List.append_nil _
  have hpush : p.replay [.announce task, .push p.announced.length] =
      some { p with pending := p.pending + 1, queue := p.queue ++ [.work task] } := by
    simp [replay, Pool.step, hopen, herase]
  rw [Pool.submit, hpush]

end Accepting

/-! ### Work that is taken -/

/-- The pool with work at the end of its queue, every piece under the next number. -/
def enqueue (p : Pool ρ) (routines : List ρ) : Pool ρ :=
  { p with
    nextId := p.nextId + UInt64.ofNat routines.length
    pending := p.pending + routines.length
    queue := p.queue ++ routines.mapIdx fun i routine => .work ⟨p.nextId + UInt64.ofNat i, routine⟩ }

@[simp] theorem enqueue_nil (p : Pool ρ) : p.enqueue [] = p := by simp [enqueue]

@[simp] theorem enqueue_enqueue (p : Pool ρ) (routines more : List ρ) :
    (p.enqueue routines).enqueue more = p.enqueue (routines ++ more) := by
  simp [enqueue, List.mapIdx_append, UInt64.ofNat_add, UInt64.add_assoc, Nat.add_assoc,
    UInt64.add_comm (UInt64.ofNat routines.length)]

namespace Accepting

theorem enqueue (hp : p.Accepting) (routines : List ρ) : (p.enqueue routines).Accepting :=
  ⟨hp.workers, hp.closing⟩

/-- Work is taken under the next number, and nothing else changes. -/
theorem spawn (hp : p.Accepting) (routine : ρ) :
    p.spawn routine = (p.enqueue [routine], .ok p.nextId) := by
  have hnumbered : { p with nextId := p.nextId + 1 }.Accepting := ⟨hp.workers, hp.closing⟩
  rw [Pool.spawn, hnumbered.submit]
  simp [Pool.enqueue]

end Accepting

/-- Only a pool that takes work takes a piece of it. -/
theorem accepting_of_spawn {routine : ρ} {id : Word} (h : p.spawn routine = (p', .ok id)) : p.Accepting := by
  rw [spawn] at h
  cases hsubmit : { p with nextId := p.nextId + 1 }.submit (.work ⟨p.nextId, routine⟩) with
  | error e => simp [hsubmit] at h
  | ok q =>
    rw [submit] at hsubmit
    split at hsubmit
    next q' hq =>
      obtain ⟨announced, hannounce, -⟩ := Option.bind_eq_some_iff.mp hq
      obtain ⟨hworkers, hclosing, -⟩ := of_step_announce hannounce
      exact ⟨List.isEmpty_eq_false_iff.mp hworkers, hclosing⟩
    next => cases hsubmit

end AccelKrylov.Pool
