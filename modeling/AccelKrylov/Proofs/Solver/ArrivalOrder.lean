import AccelKrylov.Proofs.Solver.SerialProduct

/-! Transposed products in chunks against the plain one. The parts of the chunks are added up in the order in
which they arrive. In exact arithmetic that order and the length of the chunks make no difference; of at most
two parts it takes only that addition commutes, and that the entries of the parts are added to zero, and
multiplied by one, without change. Floating-point addition commutes, so two chunks come out the same there
too. -/

namespace AccelKrylov

/-! ### Sums of a few parts -/

namespace Vec

variable {α : Type} [One α] [Mul α]

theorem addScaled_one [Add α] {part y : Array α} (hsize : part.size = y.size)
    (hone : ∀ p ∈ part, 1 * p = p) : addScaled 1 part y = Array.zipWith (· + ·) y part := by
  refine Array.ext (by simp [hsize]) fun i hi _ => ?_
  have hpart : i < part.size := by simpa [hsize] using hi
  simp [addScaled, hpart, hone _ (Array.getElem_mem hpart)]

theorem addScaled_zeros [Zero α] [Add α] {part : Array α} (hzero : ∀ p ∈ part, 0 + 1 * p = p) :
    addScaled 1 part (zeros part.size) = part := by
  refine Array.ext (by simp) fun i _ hi => ?_
  simp [addScaled, zeros, hi, hzero _ (Array.getElem_mem hi)]

/-- The sum of vectors of one length, added to the zero vector one after the other. -/
def sumParts [Zero α] [Add α] (n : Nat) (parts : List (Array α)) : Array α :=
  parts.foldl (fun y part => addScaled 1 part y) (zeros n)

section
variable [Zero α] [AddCommMagma α] {n : Nat}

theorem sumParts_pair {p q : Array α} (hp : p.size = n) (hq : q.size = n)
    (hzero : ∀ z ∈ p, 0 + 1 * z = z) (hone : ∀ z ∈ q, 1 * z = z) :
    sumParts n [p, q] = Array.zipWith (· + ·) p q := by
  subst hp
  simp [sumParts, addScaled_zeros hzero, addScaled_one hq hone]

theorem eq_of_perm_pair {β : Type} {l : List β} {p q : β} (h : l.Perm [p, q]) : l = [p, q] ∨ l = [q, p] := by
  match l, h.length_eq with
  | [p', q'], _ =>
    obtain rfl | hmem := List.mem_cons.mp (h.mem_iff.mp List.mem_cons_self)
    · rw [List.perm_singleton.mp h.cons_inv]
      exact .inl rfl
    · obtain rfl := List.mem_singleton.mp hmem
      rw [List.perm_singleton.mp (h.trans (List.Perm.swap p' p [])).cons_inv]
      exact .inr rfl

/-- The order of two parts makes no difference, and that needs no law about three. -/
theorem sumParts_perm {parts parts' : List (Array α)} (hperm : parts'.Perm parts)
    (hfew : parts.length ≤ 2) (hsize : ∀ part ∈ parts, part.size = n)
    (hkept : ∀ part ∈ parts, ∀ z ∈ part, 0 + 1 * z = z ∧ 1 * z = z) :
    sumParts n parts' = sumParts n parts := by
  match parts, hfew with
  | [], _ => rw [List.perm_nil.mp hperm]
  | [p], _ => rw [List.perm_singleton.mp hperm]
  | [p, q], _ =>
    simp only [List.forall_mem_cons] at hsize hkept
    obtain ⟨hp, hq, -⟩ := hsize
    obtain ⟨keptp, keptq, -⟩ := hkept
    obtain rfl | rfl := eq_of_perm_pair hperm
    · rfl
    · rw [sumParts_pair hp hq (fun z hz => (keptp z hz).1) fun z hz => (keptq z hz).2,
        sumParts_pair hq hp (fun z hz => (keptq z hz).1) fun z hz => (keptp z hz).2]
      exact Array.zipWith_comm_of_comm fun a b => add_comm a b

end

end Vec

/-! ### Parts in the order of their arrival -/

namespace RowSplit

variable {α : Type} [Zero α] [One α] [Add α] [Mul α]

/-- What a range of rows contributes to the transposed product. -/
def contribution (a : Matrix α) (x : Array α) (range : RowRange) : Array α :=
  (Word.range range.start range.stop).foldl (fun y row => a.addRow row (x.getD row.toNat 0) y)
    (Vec.zeros a.cols.toNat)

omit [One α] in
theorem size_of_transposeProductRows {a : Matrix α} {range : RowRange} {x y : Array α}
    (h : a.transposeProductRows range x = .ok y) : y.size = a.cols.toNat :=
  (Vec.getElem?_eq_iff.mp (Matrix.getElem?_transposeProductRows h)).1

/-- A pool that takes work comes to the sum of what its chunks contribute, in the order of their arrival. -/
theorem transposeProduct_eq_sumParts (s : RowSplit) {a : Matrix α} (hreal : a.kind = .real) {x : Array α}
    (hx : x.size = a.rows.toNat) {pool : Pool RowRange} (hp : pool.Accepting) :
    ∃ arrived : List RowRange, arrived.Perm (chunks a.rows s.chunkRows) ∧ s.transposeProduct a x pool =
      (.ok (Vec.sumParts a.cols.toNat (arrived.map (contribution a x))), s.afterResults pool.nextId
        (chunks a.rows s.chunkRows).length (pool.enqueue (chunks a.rows s.chunkRows))) := by
  obtain ⟨y, hy⟩ := s.transposeProduct_of_accepting hreal hx hp
  obtain ⟨parts, rfl, hperm, hok⟩ := of_run_eq_ok (congrArg Prod.fst hy)
  refine ⟨parts.map Prod.fst, hperm, ?_⟩
  have hparts : parts.map Prod.snd = (parts.map Prod.fst).map (contribution a x) := by
    rw [List.map_map]
    exact List.map_congr_left fun p hp => (Matrix.transposeProductRows_eq_ok.mp (hok p hp)).2.2.2.symm
  rw [hy, ← hparts, Vec.sumParts, List.foldl_map]

end RowSplit

/-! ### Floating-point numbers -/

open Float.Model in
theorem Double.unpacked_add_comm (spec : Format) (a b : UnpackedFloat) : a.add spec b = b.add spec a := by
  cases a with
  | notANumber => cases b <;> rfl
  | infinity s =>
    cases b with
    | infinity t => cases s <;> cases t <;> rfl
    | _ => rfl
  | zero s =>
    cases b with
    | zero t => cases s <;> cases t <;> rfl
    | _ => rfl
  | finite s m e hm =>
    cases b with
    | finite t n f hn =>
      -- both are brought to the smaller exponent before they are added
      have hsum := congrArg (UnpackedFloat.normalize spec · (min e f) .positive)
        (Int.add_comm (s.apply (UnpackedFloat.decreaseExponent m e (min e f)).1)
          (t.apply (UnpackedFloat.decreaseExponent n f (min e f)).1))
      exact hsum.trans (by rw [Int.min_comm e f]; rfl)
    | _ => rfl

/-- Floating-point addition commutes: the sum is rounded once, and what is no number has one pattern. -/
instance : AddCommMagma Double where
  add_comm _ _ := congrArg (fun u => Double.ofFloat ⟨.pack u⟩) (Double.unpacked_add_comm _ _ _)

/-! ### Any order -/

/-- One column of three ones. -/
def onesColumn : Matrix Int where
  rows := 3
  cols := 1
  base := 0
  kind := .real
  representation := .general
  storage := .dense 1 #[1, 1, 1]
  fits := by cbv

-- three parts of doubles do not come out the same in another order
example : Vec.sumParts 1 [#[⟨0x3fb999999999999a⟩], #[⟨0x3fd3333333333333⟩], #[1]] ≠
    Vec.sumParts 1 [#[1], #[⟨0x3fd3333333333333⟩], #[(⟨0x3fb999999999999a⟩ : Double)]] := by decide +kernel

end AccelKrylov
