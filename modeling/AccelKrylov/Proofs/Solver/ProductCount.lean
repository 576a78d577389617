import AccelKrylov.Proofs.Solver.Turns

/-! How many products a run of an iterative method takes, whatever arithmetic it is carried out in. Every
iteration takes the same number of them, and a run only ends between two iterations or at a product that
fails. -/

namespace AccelKrylov

variable {σ α : Type}

/-- The iteration that a result speaks of. -/
def SolveResult.lastIteration (limit : Word) : SolveResult α → Option Nat
  | .ok solution => some solution.iterations.toNat
  | .error (.breakdown iteration _) => some iteration.toNat
  | .error (.nonConvergence ..) => some limit.toNat
  | .error _ => none

/-- The result of an iteration: it has found a solution, or it has broken down. -/
inductive SolveResult.SpeaksOf (iteration : Word) : SolveResult α → Prop
  | solved (x : Array α) (residual : α) : SpeaksOf iteration (.ok ⟨x, iteration, residual⟩)
  | breakdown (quantity : String) : SpeaksOf iteration (.error (.breakdown iteration quantity))

theorem SolveResult.SpeaksOf.lastIteration {iteration limit : Word} {result : SolveResult α}
    (h : result.SpeaksOf iteration) : result.lastIteration limit = some iteration.toNat := by
  cases h <;> rfl

namespace Operator

variable {op : Operator σ α} {n each done left j k : Nat} {limit : Word} {w w₁ w' : σ}

/-! ### Products in a row -/

/-- One product of the matrix, or of the transposed matrix, with a vector of `n` entries. -/
def Multiplies (op : Operator σ α) (n : Nat) (w : σ) (y : Except (SolveError α) (Array α)) (w' : σ) : Prop :=
  ∃ x : Array α, x.size = n ∧ (op.apply x w = (y, w') ∨ op.applyTransposed x w = (y, w'))

/-- So many products in a row, all of which come to a result. -/
inductive Multiplied (op : Operator σ α) (n : Nat) : Nat → σ → σ → Prop
  | none (w : σ) : Multiplied op n 0 w w
  | next {k : Nat} {y : Array α} {w w₁ w' : σ} (product : op.Multiplies n w (.ok y) w₁)
      (rest : Multiplied op n k w₁ w') : Multiplied op n (k + 1) w w'

namespace Multiplied

theorem single {y : Array α} (h : op.Multiplies n w (.ok y) w') : op.Multiplied n 1 w w' := .next h (.none w')

theorem trans (h : op.Multiplied n j w w₁) (h' : op.Multiplied n k w₁ w') :
    op.Multiplied n (j + k) w w' := by
  induction h with
  | none => rwa [Nat.zero_add]
  | @next j y w w₂ w₁ product _ ih =>
    rw [Nat.add_right_comm]
    exact .next product (ih h')

end Multiplied

/-! ### Turns -/

/-- What a turn comes to with so many products: a product fails, or all of them have results, from which the turn
comes to a result that speaks of itself or to a state that keeps what is known of the one before. -/
inductive Turned {S : Type} (op : Operator σ α) (n each : Nat) (keeps : S → Prop) (iteration : Word) (w : σ) :
    Iteration S α × σ → Prop
  | failed {k : Nat} {e : SolveError α} {w₁ w' : σ} (products : op.Multiplied n k w w₁)
      (product : op.Multiplies n w₁ (.error e) w') : Turned op n each keeps iteration w (.done (.error e), w')
  | done {result : SolveResult α} {w' : σ} (products : op.Multiplied n each w w')
      (speaks : result.SpeaksOf iteration) : Turned op n each keeps iteration w (.done result, w')
  | next {s : S} {w' : σ} (products : op.Multiplied n each w w') (kept : keeps s) :
      Turned op n each keeps iteration w (.next s, w')

/-! ### Runs -/

/-- What a run of at most `left` iterations comes to after `done` of them, with so many products in each: it
goes through some iterations and speaks of the last one, or it ends at a product that fails. -/
inductive Ran (op : Operator σ α) (n each : Nat) (limit : Word) (done left : Nat) (w : σ) :
    SolveResult α × σ → Prop
  | finished {k : Nat} {result : SolveResult α} {w' : σ} (products : op.Multiplied n (each * k) w w')
      (last : result.lastIteration limit = some (done + k)) (within : k ≤ left)
      (none_left : k = 0 → left = 0) : Ran op n each limit done left w (result, w')
  | failed {k : Nat} {e : SolveError α} {w₁ w' : σ} (products : op.Multiplied n k w w₁)
      (product : op.Multiplies n w₁ (.error e) w') (some_left : 0 < left) :
      Ran op n each limit done left w (.error e, w')

/-- An iteration comes before those of a run. -/
theorem Ran.next {r : SolveResult α × σ} (h : op.Ran n each limit (done + 1) left w₁ r)
    (products : op.Multiplied n each w w₁) : op.Ran n each limit done (left + 1) w r := by
  cases h with
  | @finished k result w' later last within =>
    refine .finished (k := k + 1) ?_ ?_ (Nat.succ_le_succ within) nofun
    · rw [Nat.mul_succ, Nat.add_comm]
      exact products.trans later
    · rw [last, Nat.add_right_comm, Nat.add_assoc]
  | failed later product => exact .failed (products.trans later) product (Nat.succ_pos left)

end Operator

/-- Turns with so many products each make a run with so many products in each iteration. -/
theorem Turn.ran_iterate {S : Type} {op : Operator σ α} {n each : Nat} {limit : Word} {keeps : S → Prop}
    {turn : Turn σ S α} {exhausted : S → SolveResult α}
    (hturn : ∀ iteration s w, keeps s → op.Turned n each keeps iteration w (turn iteration s w))
    (hexhausted : ∀ s, (exhausted s).lastIteration limit = some limit.toNat) {done left : Nat}
    (h : done + left = limit.toNat) {s : S} (hs : keeps s) (w : σ) :
    op.Ran n each limit done left w (turn.iterate exhausted limit left s w) := by
  induction left generalizing done s w with
  | zero =>
    refine .finished (k := 0) (.none w) ?_ le_rfl fun _ => rfl
    rw [hexhausted, ← h]
  | succ left ih =>
    have hcomes := hturn (limit - UInt64.ofNat left) s w hs
    rw [iterate]
    generalize turn (limit - UInt64.ofNat left) s w = outcome at hcomes
    cases hcomes with
    | failed products product => exact .failed products product (Nat.succ_pos left)
    | done products speaks =>
      refine .finished (k := 1) (by rwa [Nat.mul_one]) ?_ (Nat.succ_pos left) nofun
      rw [speaks.lastIteration, toNat_iteration h]
    | next products kept => exact (ih (by omega) kept _).next products

/-! ### Both methods -/

variable [Zero α] [Add α] [Mul α] [Div α] [Neg α] [Numeric α]

namespace ConjugateGradient

/-- Every iteration takes one product. -/
theorem turned (op : Operator σ α) (threshold : α) {n : Nat} (iteration : Word) (s : State α) (w : σ)
    (hs : s.p.size = n) :
    op.Turned n 1 (fun s : State α => s.p.size = n) iteration w (turn op threshold iteration s w) := by
  obtain ⟨⟨outcome, w'⟩, hturn⟩ : ∃ r, turn op threshold iteration s w = r := ⟨_, rfl⟩
  rw [hturn]
  obtain ⟨e, hproduct, rfl⟩ | ⟨ap, hproduct, hadvance⟩ := cases_of_turn hturn
  · exact .failed (.none w) ⟨s.p, hs, .inl hproduct⟩
  · have hone : op.Multiplied n 1 w w' := .single ⟨s.p, hs, .inl hproduct⟩
    obtain ⟨quantity, rfl⟩ | ⟨x, -, ⟨r, -, rfl⟩ | ⟨s', -, hsize, rfl⟩⟩ := State.cases_of_advance hadvance
    · exact .done hone (.breakdown quantity)
    · exact .done hone (.solved x (Vec.norm r))
    · exact .next hone (hsize.trans hs)

theorem ran (op : Operator σ α) (threshold : α) (limit : Word) (b : Array α) (w : σ) :
    op.Ran b.size 1 limit 0 limit.toNat w (iterate op threshold limit limit.toNat (.initial b) w) :=
  Turn.ran_iterate (turned op threshold (n := b.size)) (fun _ => rfl) (Nat.zero_add _) rfl w

end ConjugateGradient

namespace BiconjugateGradient

/-- Every iteration takes two products, one of them with the transposed matrix. -/
theorem turned (op : Operator σ α) (threshold : α) {n : Nat} (iteration : Word) (s : State α) (w : σ)
    (hs : s.p.size = n ∧ s.pShadow.size = n) :
    op.Turned n 2 (fun s : State α => s.p.size = n ∧ s.pShadow.size = n) iteration w
      (turn op threshold iteration s w) := by
  obtain ⟨⟨outcome, w'⟩, hturn⟩ : ∃ r, turn op threshold iteration s w = r := ⟨_, rfl⟩
  rw [hturn]
  obtain ⟨e, hproduct, rfl⟩ | ⟨q, w₁, hproduct, hrest⟩ := cases_of_turn hturn
  · exact .failed (.none w) ⟨s.p, hs.1, .inl hproduct⟩
  have hone : op.Multiplied n 1 w w₁ := .single ⟨s.p, hs.1, .inl hproduct⟩
  obtain ⟨e, hshadow, rfl⟩ | ⟨qShadow, hshadow, hadvance⟩ := hrest
  · exact .failed hone ⟨s.pShadow, hs.2, .inr hshadow⟩
  have htwo : op.Multiplied n 2 w w' := hone.trans (.single ⟨s.pShadow, hs.2, .inr hshadow⟩)
  obtain ⟨quantity, rfl⟩ | ⟨x, -, ⟨r, -, rfl⟩ | ⟨s', -, ⟨hp, hpShadow⟩, rfl⟩⟩ :=
    State.cases_of_advance hadvance
  · exact .done htwo (.breakdown quantity)
  · exact .done htwo (.solved x (Vec.norm r))
  · exact .next htwo ⟨hp.trans hs.1, hpShadow.trans hs.2⟩

theorem ran (op : Operator σ α) (threshold : α) (limit : Word) (b : Array α) (w : σ) :
    op.Ran b.size 2 limit 0 limit.toNat w (iterate op threshold limit limit.toNat (.initial b) w) :=
  Turn.ran_iterate (turned op threshold (n := b.size)) (fun _ => rfl) (Nat.zero_add _) ⟨rfl, rfl⟩ w

end BiconjugateGradient

end AccelKrylov
