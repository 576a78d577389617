import AccelKrylov.Solver.ConjugateGradient
import AccelKrylov.Solver.BiconjugateGradient
import AccelKrylov.Proofs.Vector
import AccelKrylov.Proofs.Word

/-! One turn of an iterative method, whatever arithmetic it is carried out in: which products it takes, what it
can come to, and how the iterate has moved by then. -/

namespace AccelKrylov

variable {σ α : Type}

/-- With `done + 1` turns used up or under way, this is the number of the last one. -/
theorem toNat_iteration {limit : Word} {done left : Nat} (h : done + (left + 1) = limit.toNat) :
    (limit - UInt64.ofNat left).toNat = done + 1 := by
  rw [Word.toNat_sub_ofNat (by omega)]
  omega

variable [Zero α] [Add α] [Mul α] [Div α] [Neg α] [Numeric α] {op : Operator σ α} {threshold : α}
  {iteration : Word} {w w' : σ}

namespace ConjugateGradient

variable {s : State α} {outcome : Iteration (State α) α}

/-- The step of an iteration: its length and its direction. -/
def State.step (s : State α) (ap : Array α) : α × Array α := (s.rr / Vec.dot s.p ap, s.p)

/-- An iteration breaks down, or takes its step, and then either comes to a solution with a residual that is
small enough or goes on. -/
theorem State.cases_of_advance {ap : Array α} (h : s.advance threshold iteration ap = outcome) :
    (∃ quantity, outcome = .done (.error (.breakdown iteration quantity))) ∨
      ∃ x, x = Vec.addScaled (s.step ap).1 (s.step ap).2 s.x ∧
        ((∃ r, Numeric.le (Vec.norm r) threshold = true ∧
            outcome = .done (.ok ⟨x, iteration, Vec.norm r⟩)) ∨
          ∃ s', s'.x = x ∧ s'.p.size = s.p.size ∧ outcome = .next s') := by
  unfold advance at h
  dsimp only at h
  split at h
  next => exact .inl ⟨_, h.symm⟩
  next =>
    refine .inr ⟨_, rfl, ?_⟩
    split at h
    next hsmall => exact .inl ⟨_, hsmall, h.symm⟩
    next => exact .inr ⟨_, rfl, Vec.size_scaleAdd .., h.symm⟩

/-- A turn fails with its product, or is an iteration from that product. -/
theorem cases_of_turn (h : turn op threshold iteration s w = (outcome, w')) :
    (∃ e, op.apply s.p w = (.error e, w') ∧ outcome = .done (.error e)) ∨
      ∃ ap, op.apply s.p w = (.ok ap, w') ∧ s.advance threshold iteration ap = outcome := by
  rw [turn] at h
  split at h
  next e v hproduct =>
    obtain ⟨rfl, rfl⟩ := Prod.mk.inj h
    exact .inl ⟨e, hproduct, rfl⟩
  next ap v hproduct =>
    obtain ⟨hadvance, rfl⟩ := Prod.mk.inj h
    exact .inr ⟨ap, hproduct, hadvance⟩

end ConjugateGradient

namespace BiconjugateGradient

variable {s : State α} {outcome : Iteration (State α) α}

/-- The step of an iteration: its length and its direction. -/
def State.step (s : State α) (q : Array α) : α × Array α := (s.rho / Vec.dot s.pShadow q, s.p)

/-- An iteration breaks down, before its step or after it, or comes to a solution with a residual that is small
enough, or goes on. -/
theorem State.cases_of_advance {q qShadow : Array α}
    (h : s.advance threshold iteration q qShadow = outcome) :
    (∃ quantity, outcome = .done (.error (.breakdown iteration quantity))) ∨
      ∃ x, x = Vec.addScaled (s.step q).1 (s.step q).2 s.x ∧
        ((∃ r, Numeric.le (Vec.norm r) threshold = true ∧
            outcome = .done (.ok ⟨x, iteration, Vec.norm r⟩)) ∨
          ∃ s', s'.x = x ∧ (s'.p.size = s.p.size ∧ s'.pShadow.size = s.pShadow.size) ∧
            outcome = .next s') := by
  unfold advance at h
  dsimp only at h
  split at h
  next => exact .inl ⟨_, h.symm⟩
  next =>
    split at h
    next hsmall => exact .inr ⟨_, rfl, .inl ⟨_, hsmall, h.symm⟩⟩
    next =>
      split at h
      next => exact .inl ⟨_, h.symm⟩
      next => exact .inr ⟨_, rfl, .inr ⟨_, rfl, ⟨Vec.size_scaleAdd .., Vec.size_scaleAdd ..⟩, h.symm⟩⟩

/-- A turn fails with one of its products, or is an iteration from both of them. -/
theorem cases_of_turn (h : turn op threshold iteration s w = (outcome, w')) :
    (∃ e, op.apply s.p w = (.error e, w') ∧ outcome = .done (.error e)) ∨
      ∃ q w₁, op.apply s.p w = (.ok q, w₁) ∧
        ((∃ e, op.applyTransposed s.pShadow w₁ = (.error e, w') ∧ outcome = .done (.error e)) ∨
          ∃ qShadow, op.applyTransposed s.pShadow w₁ = (.ok qShadow, w') ∧
            s.advance threshold iteration q qShadow = outcome) := by
  rw [turn] at h
  split at h
  next e v hproduct =>
    obtain ⟨rfl, rfl⟩ := Prod.mk.inj h
    exact .inl ⟨e, hproduct, rfl⟩
  next q w₁ hproduct =>
    refine .inr ⟨q, w₁, hproduct, ?_⟩
    split at h
    next e v hshadow =>
      obtain ⟨rfl, rfl⟩ := Prod.mk.inj h
      exact .inl ⟨e, hshadow, rfl⟩
    next qShadow v hshadow =>
      obtain ⟨hadvance, rfl⟩ := Prod.mk.inj h
      exact .inr ⟨qShadow, hshadow, hadvance⟩

end BiconjugateGradient

end AccelKrylov
