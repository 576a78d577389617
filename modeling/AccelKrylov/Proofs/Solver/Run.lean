import AccelKrylov.Proofs.Solver.Chunks
import AccelKrylov.Proofs.Solver.Turns

/-! Runs of iterative methods. A run is a sequence of turns; it ends with the first turn that comes to a
result, or with the last one that is allowed. What the turns keep is therefore known of the state in which a
run ends. -/

namespace AccelKrylov

variable {σ S α : Type}

/-! ### Turns -/

namespace Turn

/-- The state after `k` turns, none of which came to a result. -/
inductive Reached (turn : Turn σ S α) (first : S) (w₀ : σ) : (k : Nat) → S → σ → Prop
  | start : Reached turn first w₀ 0 first w₀
  | next {k : Nat} {s s' : S} {w w' : σ} (before : Reached turn first w₀ k s w)
      (turned : turn (UInt64.ofNat (k + 1)) s w = (.next s', w')) : Reached turn first w₀ (k + 1) s' w'

variable {turn : Turn σ S α} {exhausted : S → SolveResult α} {limit : Word} {first s : S} {w₀ w : σ}

/-- With `k + 1` turns of the limit used up or under way, this is number `k + 1`. -/
theorem number_eq {k left : Nat} (h : k + 1 + left = limit.toNat) :
    limit - UInt64.ofNat left = UInt64.ofNat (k + 1) := by
  have hlimit := limit.toNat_lt
  rw [← UInt64.toNat_inj, toNat_iteration (show k + (left + 1) = limit.toNat by omega),
    UInt64.toNat_ofNat_of_lt' (show k + 1 < 2 ^ 64 by omega)]

/-- A run goes on from every state that it reaches. -/
theorem Reached.iterate_eq {k left : Nat} (h : Reached turn first w₀ k s w) (hk : k + left = limit.toNat) :
    turn.iterate exhausted limit limit.toNat first w₀ = turn.iterate exhausted limit left s w := by
  induction h generalizing left with
  | start => rw [← hk, Nat.zero_add]
  | @next k s s' w w' before turned ih =>
    have hbefore : k + (left + 1) = limit.toNat := by omega
    rw [ih hbefore, iterate, number_eq hk, turned]

/-- A run ends in a turn that comes to a result, or in the state that its last turn leaves. -/
theorem Reached.exists_end {k left : Nat} (h : Reached turn first w₀ k s w) (hk : k + left = limit.toNat)
    {result : SolveResult α} {w' : σ} (hrun : turn.iterate exhausted limit left s w = (result, w')) :
    ∃ k s w, Reached turn first w₀ k s w ∧
      (k < limit.toNat ∧ turn (UInt64.ofNat (k + 1)) s w = (.done result, w') ∨
        k = limit.toNat ∧ w = w' ∧ result = exhausted s) := by
  induction left generalizing k s w with
  | zero =>
    obtain ⟨rfl, rfl⟩ := Prod.mk.inj hrun
    exact ⟨k, s, w, h, .inr ⟨hk, rfl, rfl⟩⟩
  | succ left ih =>
    have hnumber : k + 1 + left = limit.toNat := by omega
    rw [iterate, number_eq hnumber] at hrun
    split at hrun
    next result' v hturn =>
      obtain ⟨rfl, rfl⟩ := Prod.mk.inj hrun
      exact ⟨k, s, w, h, .inl ⟨by omega, hturn⟩⟩
    next s' v hturn => exact ih (.next h hturn) hnumber hrun

/-! ### Solves -/

section
variable [Field α] [LinearOrder α] [Numeric α] [ExactArithmetic α] {b : Array α}

theorem Reached.solve_eq {k left : Nat} (hb : Vec.norm b ≠ 0) (h : Reached turn first w₀ k s w)
    (hk : k + left = limit.toNat) :
    turn.solve exhausted limit first b w₀ = turn.iterate exhausted limit left s w := by
  rw [solve, if_neg (mt (ExactArithmetic.same_iff _ _).mp hb)]
  exact h.iterate_eq hk

/-- A run comes to the result of the turn that has one. -/
theorem Reached.solve_of_done {k : Nat} {result : SolveResult α} {w' : σ} (hb : Vec.norm b ≠ 0)
    (h : Reached turn first w₀ k s w) (hk : k < limit.toNat)
    (hturn : turn (UInt64.ofNat (k + 1)) s w = (.done result, w')) :
    turn.solve exhausted limit first b w₀ = (result, w') := by
  have hleft : k + 1 + (limit.toNat - (k + 1)) = limit.toNat := by omega
  rw [h.solve_eq hb (show k + (limit.toNat - (k + 1) + 1) = limit.toNat by omega), iterate,
    number_eq hleft, hturn]

theorem Reached.solve_of_exhausted (hb : Vec.norm b ≠ 0) (h : Reached turn first w₀ limit.toNat s w) :
    turn.solve exhausted limit first b w₀ = (exhausted s, w) := by
  rw [h.solve_eq hb (Nat.add_zero limit.toNat), iterate]

theorem solve_end [IsStrictOrderedRing α] {result : SolveResult α} {w' : σ}
    (h : turn.solve exhausted limit first b w₀ = (result, w')) :
    b = Vec.zeros b.size ∧ result = .ok (.zero b.size) ∨ ∃ k s w, Reached turn first w₀ k s w ∧
      (k < limit.toNat ∧ turn (UInt64.ofNat (k + 1)) s w = (.done result, w') ∨
        k = limit.toNat ∧ w = w' ∧ result = exhausted s) := by
  rw [solve] at h
  split at h
  next hzero =>
    obtain ⟨rfl, -⟩ := Prod.mk.inj h
    exact .inl ⟨(Vec.norm_eq_zero_iff b).mp ((ExactArithmetic.same_iff _ _).mp hzero), rfl⟩
  next hlong =>
    have hstart : Reached turn first w₀ 0 first w₀ := .start
    exact .inr (hstart.exists_end (Nat.zero_add limit.toNat) h)

end

end Turn

/-! ### Products of an operator -/

/-- Whatever products the operator comes to are those of the matrix, and only their computation can fail. -/
structure Operator.Computes [Zero α] [Add α] [Mul α] (op : Operator σ α) (a : Matrix α) : Prop where
  apply : ∀ {x y : Array α} {w w' : σ}, x.size = a.cols.toNat → op.apply x w = (.ok y, w') →
    a.product x = .ok y
  applyTransposed : ∀ {x y : Array α} {w w' : σ}, x.size = a.rows.toNat →
    op.applyTransposed x w = (.ok y, w') → a.transposeProduct x = .ok y
  apply_error : ∀ {x : Array α} {e : SolveError α} {w w' : σ}, op.apply x w = (.error e, w') →
    ∃ fault, e = .offload fault
  applyTransposed_error : ∀ {x : Array α} {e : SolveError α} {w w' : σ},
    op.applyTransposed x w = (.error e, w') → ∃ fault, e = .offload fault

/-- Products in chunks are the products of the matrix, in exact arithmetic. -/
theorem RowSplit.operator_computes [Semiring α] (s : RowSplit) {a : Matrix α} (hreal : a.kind = .real)
    (hrows : a.rows.toNat < 2 ^ 63) : (s.operator a).Computes a where
  apply hx h := of_product_eq_ok hreal hrows hx (congrArg Prod.fst h)
  applyTransposed hx h := of_transposeProduct_eq_ok hreal hrows hx (congrArg Prod.fst h)
  apply_error h := of_run_eq_error (congrArg Prod.fst h)
  applyTransposed_error h := of_run_eq_error (congrArg Prod.fst h)

/-- In a state that is ready the operator comes to every product, and stays ready. -/
structure Operator.Answers (op : Operator σ α) (a : Matrix α) (ready : σ → Prop) : Prop where
  apply : ∀ {x : Array α} {w : σ}, ready w → x.size = a.cols.toNat →
    ∃ y w', op.apply x w = (.ok y, w') ∧ ready w'
  applyTransposed : ∀ {x : Array α} {w : σ}, ready w → x.size = a.rows.toNat →
    ∃ y w', op.applyTransposed x w = (.ok y, w') ∧ ready w'

/-- A pool that takes work computes every product in chunks. -/
theorem RowSplit.operator_answers [Zero α] [One α] [Add α] [Mul α] (s : RowSplit) {a : Matrix α}
    (hreal : a.kind = .real) : (s.operator a).Answers a Pool.Accepting where
  apply hp hx := by
    obtain ⟨y, hy⟩ := s.product_of_accepting hreal hx hp
    exact ⟨y, _, hy, (s.accepting_afterResults_iff _ _).mpr (hp.enqueue _)⟩
  applyTransposed hp hx := by
    obtain ⟨y, hy⟩ := s.transposeProduct_of_accepting hreal hx hp
    exact ⟨y, _, hy, (s.accepting_afterResults_iff _ _).mpr (hp.enqueue _)⟩

/-! ### Solutions -/

section
variable [Field α] [LinearOrder α] [Numeric α]

/-- The residual of a solution is the norm of what the system leaves, and, unless there was nothing to
solve, small enough and found within the limit. -/
def Solution.Truthful (a : Matrix α) (b : Array α) (tolerance : α) (limit : Word)
    (solution : Solution α) : Prop :=
  ∃ r, a.residual b solution.x = .ok r ∧ solution.residual = Vec.norm r ∧
    (b = Vec.zeros b.size ∨ solution.residual ≤ tolerance * Vec.norm b ∧
      1 ≤ solution.iterations ∧ solution.iterations ≤ limit)

variable {a : Matrix α} {b : Array α} {tolerance : α} {limit : Word}

theorem Solution.truthful_zero [IsStrictOrderedRing α] [ExactArithmetic α] (hsystem : a.IsSystem b)
    (hzero : b = Vec.zeros b.size) : (Solution.zero b.size).Truthful a b tolerance limit :=
  ⟨b, hsystem.residual_zeros, ((Vec.norm_eq_zero_iff b).mpr hzero).symm, .inl hzero⟩

theorem Solution.truthful_of_small {k : Nat} {x r : Array α} (hk : k < limit.toNat)
    (hresidual : a.residual b x = .ok r) (hsmall : Vec.norm r ≤ tolerance * Vec.norm b) :
    (⟨x, UInt64.ofNat (k + 1), Vec.norm r⟩ : Solution α).Truthful a b tolerance limit := by
  have hlimit := limit.toNat_lt
  have hnumber : (UInt64.ofNat (k + 1)).toNat = k + 1 :=
    UInt64.toNat_ofNat_of_lt' (show k + 1 < 2 ^ 64 by omega)
  refine ⟨r, hresidual, rfl, .inr ⟨hsmall, ?_, ?_⟩⟩
  · rw [UInt64.le_iff_toNat_le, hnumber]
    exact Nat.le_add_left 1 k
  · rw [UInt64.le_iff_toNat_le, hnumber]
    exact hk

end

end AccelKrylov
