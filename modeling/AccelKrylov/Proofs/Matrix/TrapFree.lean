import AccelKrylov.Matrix.Guarded
import AccelKrylov.Proofs.Trap
import AccelKrylov.Proofs.Matrix.Fits

/-! The check of stored arrays never runs into a trap, whatever the arrays and dimensions: every slot it
looks up, every difference it takes and every divisor it uses has been checked before. On a machine that
stops at traps it therefore comes to the same result. -/

namespace AccelKrylov

open Guarded

variable {α : Type}

theorem outside_eq (base limit column : Word) : outside base limit column =
    pure (!decide (base ≤ column ∧ column - base < limit)) := by
  unfold outside
  by_cases h : column < base
  · rw [if_pos h]
    have hle : ¬ base ≤ column := UInt64.not_le.mpr h
    simp [hle]
  · have hle : base ≤ column := UInt64.not_lt.mp h
    rw [if_neg h, sub_eq hle, pure_bind]
    simp [hle, ← UInt64.not_lt]

theorem anyM_outside (base limit : Word) (columns : List Word) :
    columns.anyM (outside base limit) =
      pure (!columns.all fun j => decide (base ≤ j ∧ j - base < limit)) := by
  simp only [funext (outside_eq base limit), List.anyM_pure]
  simp [List.not_all_eq_any_not]

/-- Once the offsets are known to be one more than the groups, to start at the base and to grow, the
looks at the first and the last one and the difference between them are safe. -/
theorem Compressed.guardedCheck_eq (c : Compressed α) (outer limit base stride : Word) :
    c.guardedCheck outer limit base stride = lift (c.check outer limit base stride) := by
  unfold guardedCheck check
  cases hadd : Word.checkedAdd outer 1 with
  | none => rfl
  | some expected =>
    obtain ⟨-, hexpected⟩ := Word.checkedAdd_eq_some.mp hadd
    rw [UInt64.toNat_one] at hexpected
    refine lift_bind fun _ hsize => ?_
    have hsize := ensure_eq_ok.mp hsize
    have hfirst : c.offsets[(0 : Word).toNat]? = some c.offsets[0] :=
      Array.getElem?_eq_getElem (show 0 < c.offsets.size by omega)
    have hlast : c.offsets[outer.toNat]? = some c.offsets[outer.toNat] :=
      Array.getElem?_eq_getElem (show outer.toNat < c.offsets.size by omega)
    have hgetD : c.offsets.getD outer.toNat base = c.offsets[outer.toNat] := by
      rw [Array.getD_eq_getD_getElem?, hlast, Option.getD_some]
    have hbase : c.offsets[0] = base ↔ c.offsets[0]? = some base := by
      rw [show c.offsets[0]? = some c.offsets[0] from hfirst, Option.some.injEq]
    rw [get_eq hfirst, pure_bind, ensure_congr hbase, get_eq hlast]
    refine lift_bind fun _ hbase => lift_bind fun _ hsorted => ?_
    have hle := base_le_offset (ensure_eq_ok.mp hbase)
      ((decreases_eq_false_iff _).mp (ensure_eq_ok.mp hsorted)) outer.toNat
    rw [pure_bind, ← hgetD, sub_eq hle, pure_bind]
    refine lift_bind fun _ _ => lift_bind fun _ _ => lift_bind fun _ _ => ?_
    rw [anyM_outside, pure_bind, ensure_congr (by rw [Bool.not_eq_false', Array.all_toList])]

/-- A divisor is used only after it was found not to be zero. -/
theorem BlockRows.guardedCheckRuns_eq (cols base : Word) (kind : ValueKind) (covered : Word)
    (runs : List (BlockRows α)) :
    guardedCheckRuns cols base kind covered runs = lift (checkRuns cols base kind covered runs) := by
  induction runs generalizing covered with
  | nil => rfl
  | cons b runs ih =>
    refine lift_bind fun _ hsize => ?_
    rw [ceilDiv_eq _ (ensure_eq_ok.mp hsize), pure_bind]
    refine lift_bind fun _ _ => ?_
    rw [Compressed.guardedCheck_eq]
    refine lift_bind fun _ _ => lift_bind fun rows _ => ?_
    cases Word.checkedAdd rows covered with
    | none => rfl
    | some covered => exact ih covered

/-- The check of storage is never stopped. -/
theorem Storage.guardedCheck_eq (rows cols base : Word) (kind : ValueKind) (s : Storage α) :
    s.guardedCheck rows cols base kind = lift (s.check rows cols base kind) := by
  cases s with
  | dense lda values => rfl
  | csr entries flags =>
    refine lift_bind fun _ _ => ?_
    exact Compressed.guardedCheck_eq ..
  | bcsr runs shared =>
    refine lift_bind fun _ _ => lift_bind fun _ _ => ?_
    rw [BlockRows.guardedCheckRuns_eq]
    exact lift_bind fun _ _ => rfl

theorem Matrix.guardedOfStorage_eq (rows cols base : Word) (kind : ValueKind) (s : Storage α) :
    guardedOfStorage rows cols base kind s = lift (ofStorage rows cols base kind s) := by
  rw [guardedOfStorage, Storage.guardedCheck_eq]
  cases hcheck : s.check rows cols base kind with
  | ok => rfl
  | error fault => rw [ofStorage_eq_error hcheck]; rfl

end AccelKrylov
