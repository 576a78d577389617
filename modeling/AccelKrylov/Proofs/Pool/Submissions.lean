import AccelKrylov.Proofs.Pool.Interleaved

/-! What a caller does to have several routines run: it numbers, announces and queues one after the other. A
pool that takes no work refuses the first one, and the caller gives up. -/

namespace AccelKrylov.Pool

variable {ρ : Type} {crashes : ρ → Prop} {p p' : Pool ρ} {routines : List ρ}

/-- The steps of a caller whose first routine gets a number, and whose tasks are announced at a position. -/
def submissions (position : Nat) : (id : Word) → List ρ → List (PoolAction ρ)
  | _, [] => []
  | id, routine :: routines =>
    .number :: .announce ⟨id, routine⟩ :: .push position :: submissions position (id + 1) routines

/-- The steps of a caller that wants routines to be run. -/
def asks (p : Pool ρ) (routines : List ρ) : List (PoolAction ρ) :=
  if p.workers.isEmpty || p.closing then (routines.take 1).map fun _ => .number
  else submissions p.announced.length p.nextId routines

/-- How many of some jobs the pool takes. -/
def taken (p : Pool ρ) (jobs : Nat) : Nat := if p.workers.isEmpty || p.closing then 0 else jobs

theorem submitted_submissions (position : Nat) (id : Word) (routines : List ρ) :
    Submitted (submissions position id routines) routines.length := by
  induction routines generalizing id with
  | nil => exact .nil
  | cons routine routines ih =>
    have hfirst : Submitted [.number, .announce ⟨id, routine⟩, .push position] 1 :=
      ⟨by simp [PoolAction.submits], rfl, rfl⟩
    rw [List.length_cons, Nat.add_comm]
    exact hfirst.append (ih (id + 1))

theorem submitted_asks (p : Pool ρ) (routines : List ρ) :
    Submitted (p.asks routines) (p.taken routines.length) := by
  unfold asks taken
  split
  · cases routines with
    | nil => exact .nil
    | cons routine routines => exact ⟨by simp [PoolAction.submits], rfl, rfl⟩
  · exact submitted_submissions _ _ routines

theorem Accepting.taken (hp : p.Accepting) (jobs : Nat) : p.taken jobs = jobs := by
  simp [Pool.taken, hp.workers, hp.closing]

theorem Interleaved.taken {steps : List (PoolAction ρ)} (h : Interleaved crashes p steps p')
    (hsubmits : ∀ a ∈ steps, a.submits = true) (jobs : Nat) : p'.taken jobs = p.taken jobs := by
  obtain ⟨hclosing, hlength, -⟩ := h.kept hsubmits
  have hempty : p'.workers.isEmpty = p.workers.isEmpty := by
    rw [Bool.eq_iff_iff, List.isEmpty_iff_length_eq_zero, List.isEmpty_iff_length_eq_zero, hlength]
  rw [Pool.taken, Pool.taken, hempty, hclosing]

theorem worker_of_submits {a : PoolAction ρ} (h : a.submits = true) : a.worker? = none := by
  cases a <;> first | rfl | cases h

theorem Interleaved.accepting {steps : List (PoolAction ρ)} (h : Interleaved crashes p steps p')
    (hsubmits : ∀ a ∈ steps, a.submits = true) (hp : p.Accepting) : p'.Accepting := by
  obtain ⟨hclosing, hlength, -⟩ := h.kept hsubmits
  refine ⟨fun hnone => hp.workers (List.eq_nil_of_length_eq_zero ?_), hclosing.trans hp.closing⟩
  rw [← hlength, hnone, List.length_nil]

/-! ### Without workers in between -/

theorem accepting_iff : p.Accepting ↔ ¬ (p.workers.isEmpty || p.closing) = true := by
  constructor
  · exact fun hp => by simp [hp.workers, hp.closing]
  · intro h
    rw [Bool.or_eq_true, not_or, Bool.not_eq_true, List.isEmpty_eq_false_iff, Bool.not_eq_true] at h
    exact ⟨h.1, h.2⟩

theorem spawn_of_refusing (h : (p.workers.isEmpty || p.closing) = true) (routine : ρ) :
    p.spawn routine = ({ p with nextId := p.nextId + 1 }, .error .shutDown) := by
  simp [spawn, submit, replay, step, h]

theorem replay_of_submit {task : Task ρ} (h : p.submit (.work task) = .ok p') :
    p.replay [.announce task, .push p.announced.length] = some p' := by
  rw [submit] at h
  split at h
  next q hq => rw [hq, Except.ok.inj h]
  next => cases h

theorem replay_submissions (hp : p.Accepting) (routines : List ρ) :
    p.replay (submissions p.announced.length p.nextId routines) = some (p.enqueue routines) := by
  induction routines generalizing p with
  | nil =>
    rw [enqueue_nil]
    rfl
  | cons routine routines ih =>
    have hnumbered : { p with nextId := p.nextId + 1 }.Accepting := ⟨hp.workers, hp.closing⟩
    have hfirst := replay_of_submit (hnumbered.submit ⟨p.nextId, routine⟩)
    have hspawned : p.replay [.number, .announce ⟨p.nextId, routine⟩, .push p.announced.length] =
        some (p.enqueue [routine]) := by
      rw [replay, List.foldlM_cons]
      exact hfirst.trans (by simp [enqueue])
    have hlater := ih (hp.enqueue [routine])
    rw [enqueue_enqueue, List.singleton_append] at hlater
    have hsplit : submissions p.announced.length p.nextId (routine :: routines) =
        [.number, .announce ⟨p.nextId, routine⟩, .push p.announced.length] ++
          submissions p.announced.length (p.nextId + 1) routines := rfl
    rw [hsplit, replay_append, hspawned, Option.bind_some]
    exact hlater

end AccelKrylov.Pool
