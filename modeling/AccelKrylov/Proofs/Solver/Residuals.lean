import AccelKrylov.Proofs.Solver.BiconjugateGradient
import AccelKrylov.Proofs.Solver.ConjugateGradient

/-! Both methods, with a pool for the products: in exact arithmetic the residuals that they report are those
of the system. -/

namespace AccelKrylov

variable {α : Type} [Field α] [LinearOrder α] [IsStrictOrderedRing α] [Numeric α] [ExactArithmetic α]

/-- Whatever the storage of a square real matrix and the split of its rows, whatever the order in which parts
of products arrive, the residual that a method carries along is at the start of every iteration that of its
iterate; so is the one that it reports when it succeeds and when it gives up, and it breaks down only over the
quantity that it says. As long as the pool takes work there is no other way to end. No vector in memory is as
long as the bound on the right-hand side. -/
theorem residuals_are_true (split : RowSplit) (a : Matrix α) (b : Array α) (tolerance : α) (limit : Word)
    (pool : Pool RowRange) (hreal : a.kind = .real) (hsquare : a.isSquare = true)
    (hb : b.size = a.rows.toNat) (hmemory : b.size < 2 ^ 63) :
    ConjugateGradient.Truthful (split.operator a) a b tolerance limit pool ∧
      BiconjugateGradient.Truthful (split.operator a) a b tolerance limit pool ∧
      (pool.Accepting → ∀ fault,
        (ConjugateGradient.solve (split.operator a) b tolerance limit pool).1 ≠ .error (.offload fault) ∧
        (BiconjugateGradient.solve (split.operator a) b tolerance limit pool).1 ≠
          .error (.offload fault)) := by
  have hop := split.operator_computes hreal (hb ▸ hmemory)
  have hsystem : a.IsSystem b := ⟨hreal, eq_of_beq hsquare, hb⟩
  have hanswers := split.operator_answers hreal
  refine ⟨ConjugateGradient.truthful hop hsystem tolerance limit pool,
    BiconjugateGradient.truthful hop hsystem tolerance limit pool, fun hpool fault => ⟨?_, ?_⟩⟩
  · exact ConjugateGradient.solve_ne_offload hop hanswers hsystem tolerance limit hpool fault
  · exact BiconjugateGradient.solve_ne_offload hop hanswers hsystem tolerance limit hpool fault

/-- The matrix with a two in its only place. -/
noncomputable def doubling : Matrix ℝ where
  rows := 1
  cols := 1
  base := 0
  kind := .real
  representation := .general
  storage := .dense 1 #[2]
  fits := by rfl

theorem residuals_are_true_doubling :
    doubling.kind = .real ∧ doubling.isSquare = true ∧ (#[4] : Array ℝ).size = doubling.rows.toNat ∧
      (#[4] : Array ℝ).size < 2 ^ 63 ∧ (Pool.ofWorkers 3 : Pool RowRange).Accepting ∧
      ConjugateGradient.Truthful ((RowSplit.ofRows 1 .inTurn).operator doubling) doubling #[4] 0 7
        (.ofWorkers 3) ∧
      BiconjugateGradient.Truthful ((RowSplit.ofRows 1 .inTurn).operator doubling) doubling #[4] 0 7
        (.ofWorkers 3) ∧
      ∀ fault, (BiconjugateGradient.solve ((RowSplit.ofRows 1 .inTurn).operator doubling) #[4] 0 7
        (.ofWorkers 3)).1 ≠ .error (.offload fault) := by
  have hpool : (Pool.ofWorkers 3 : Pool RowRange).Accepting := Pool.accepting_ofWorkers (by decide)
  obtain ⟨hconjugate, hbiconjugate, hends⟩ :=
    residuals_are_true (.ofRows 1 .inTurn) doubling #[4] 0 7 (.ofWorkers 3) rfl rfl rfl (by decide)
  exact ⟨rfl, rfl, rfl, by decide, hpool, hconjugate, hbiconjugate, fun fault => (hends hpool fault).2⟩

end AccelKrylov
