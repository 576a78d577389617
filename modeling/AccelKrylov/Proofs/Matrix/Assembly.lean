import AccelKrylov.Matrix.Triplets
import AccelKrylov.Proofs.Matrix.Product
import AccelKrylov.Proofs.Matrix.TrapFree

/-! Assembling compressed rows from elements in any order. Sorted elements lie row by row, so that the number
of those above a row is where the row starts; the running sums of the numbers of elements in a row are these
starts, and every row reads back as the elements that were given for it. -/

namespace AccelKrylov

open Guarded

variable {α : Type} {rows cols : Word} {ts : List (Triplet α)}

namespace Triplet

/-! ### Order -/

theorem before_iff {a b : Triplet α} :
    a.before b = true ↔ a.row < b.row ∨ a.row = b.row ∧ a.col ≤ b.col := by simp [before]

theorem row_le_of_before {a b : Triplet α} (h : a.before b = true) : a.row.toNat ≤ b.row.toNat := by
  rcases before_iff.mp h with hlt | ⟨heq, -⟩
  · exact Nat.le_of_lt (UInt64.lt_iff_toNat_lt.mp hlt)
  · rw [heq]

/-- Elements lie row by row, and within a row from left to right. -/
def Sorted (ts : List (Triplet α)) : Prop := ts.Pairwise fun a b => a.before b = true

theorem sorted_mergeSort (ts : List (Triplet α)) : Sorted (ts.mergeSort before) := by
  refine List.pairwise_mergeSort (fun a b c hab hbc => ?_) (fun a b => ?_) ts
  · simp only [before_iff, UInt64.lt_iff_toNat_lt, UInt64.le_iff_toNat_le, ← UInt64.toNat_inj] at *
    omega
  · rw [Bool.or_eq_true, before_iff, before_iff]
    simp only [UInt64.lt_iff_toNat_lt, UInt64.le_iff_toNat_le, ← UInt64.toNat_inj]
    omega

/-- Elements that are the same at the same place can be sorted in one way only. -/
theorem Sorted.unique {ts' : List (Triplet α)} (hs : Sorted ts) (hs' : Sorted ts') (hperm : ts.Perm ts')
    (hsame : ∀ a ∈ ts', ∀ b ∈ ts', a.row = b.row → a.col = b.col → a.value = b.value) : ts = ts' := by
  refine hperm.eq_of_pairwise (fun a b ha hb hab hba => ?_) hs hs'
  have hrow : a.row = b.row :=
    UInt64.toNat_inj.mp (Nat.le_antisymm (row_le_of_before hab) (row_le_of_before hba))
  have hcol : a.col = b.col := by
    simp only [before_iff, hrow, UInt64.lt_irrefl, true_and, false_or] at hab hba
    exact UInt64.le_antisymm hab hba
  have hvalue := hsame a (hperm.mem_iff.mp ha) b hb hrow hcol
  cases a
  cases b
  simp_all

/-! ### Rows of sorted elements -/

/-- How many elements lie above row `i`. -/
def above (ts : List (Triplet α)) (i : Nat) : Nat := ts.countP fun t => t.row.toNat < i

/-- The elements of row `i`. -/
def ofRow (ts : List (Triplet α)) (i : Nat) : List (Triplet α) := ts.filter fun t => t.row.toNat = i

theorem above_zero (ts : List (Triplet α)) : above ts 0 = 0 := by simp [above]

theorem above_succ (ts : List (Triplet α)) (i : Nat) :
    above ts (i + 1) = above ts i + (ofRow ts i).length := by
  induction ts with
  | nil => rfl
  | cons t ts ih =>
    simp only [above, ofRow, List.countP_cons, List.filter_cons, decide_eq_true_eq] at ih ⊢
    rw [ih]
    split_ifs <;> grind

theorem above_mono (ts : List (Triplet α)) {i j : Nat} (h : i ≤ j) : above ts i ≤ above ts j :=
  List.countP_mono_left fun t _ ht => by simp only [decide_eq_true_eq] at ht ⊢; omega

theorem above_le (ts : List (Triplet α)) (i : Nat) : above ts i ≤ ts.length := List.countP_le_length

/-- No more elements lie above a row than there are, so that they can be counted in words. -/
theorem toNat_above (hlength : ts.length < 2 ^ 64) (i : Nat) :
    (UInt64.ofNat (above ts i)).toNat = above ts i :=
  UInt64.toNat_ofNat_of_lt' (Nat.lt_of_le_of_lt (above_le ts i) hlength)

theorem above_of_lt {n : Nat} (h : ∀ t ∈ ts, t.row.toNat < n) : above ts n = ts.length :=
  List.countP_eq_length.mpr fun t ht => decide_eq_true (h t ht)

namespace Sorted

/-- The elements above a row come first. -/
theorem filter_append (hs : Sorted ts) (i : Nat) : ts.filter (fun t => t.row.toNat < i) ++
    ts.filter (fun t => i ≤ t.row.toNat) = ts := by
  induction ts with
  | nil => rfl
  | cons t ts ih =>
    obtain ⟨ht, hs⟩ := List.pairwise_cons.mp hs
    simp only [List.filter_cons, decide_eq_true_eq]
    by_cases hi : t.row.toNat < i
    · rw [if_pos hi, if_neg (Nat.not_le.mpr hi), List.cons_append, ih hs]
    · have hnone : ts.filter (fun t => t.row.toNat < i) = [] := List.filter_eq_nil_iff.mpr fun u hu => by
        have := row_le_of_before (ht u hu)
        simp only [decide_eq_true_eq]
        omega
      have hih := ih hs
      rw [hnone, List.nil_append] at hih
      rw [if_neg hi, if_pos (Nat.not_lt.mp hi), hnone, List.nil_append, hih]

/-- Row `i` takes the slots from the number of elements above it up to that above the next row. -/
theorem ofRow_eq (hs : Sorted ts) (i : Nat) :
    ofRow ts i = (ts.drop (above ts i)).take (above ts (i + 1) - above ts i) := by
  have hrest : ts.drop (above ts i) = ts.filter fun t => i ≤ t.row.toNat := by
    rw [above, List.countP_eq_length_filter]
    conv_lhs =>
      arg 2
      rw [← hs.filter_append i]
    exact List.drop_left
  have hsplit := Sorted.filter_append
    (hs.sublist (List.filter_sublist (p := fun t => i ≤ t.row.toNat))) (i + 1)
  have hrow : (ts.filter fun t => i ≤ t.row.toNat).filter (fun t => t.row.toNat < i + 1) = ofRow ts i := by
    rw [List.filter_filter, ofRow]
    exact List.filter_congr fun t _ => by grind
  rw [hrow] at hsplit
  rw [hrest, ← hsplit, above_succ, Nat.add_sub_cancel_left, List.take_left]

/-- Row after row comes to all elements. -/
theorem flatMap_ofRow (hs : Sorted ts) (n : Nat) :
    (List.range n).flatMap (ofRow ts) = ts.filter fun t => t.row.toNat < n := by
  induction n with
  | zero => simp
  | succ n ih =>
    have hsplit := Sorted.filter_append
      (hs.sublist (List.filter_sublist (p := fun t => t.row.toNat < n + 1))) n
    have hbelow : (ts.filter fun t => t.row.toNat < n + 1).filter (fun t => t.row.toNat < n) =
        ts.filter fun t => t.row.toNat < n := by
      rw [List.filter_filter]
      exact List.filter_congr fun t _ => by grind
    have hrow : (ts.filter fun t => t.row.toNat < n + 1).filter (fun t => n ≤ t.row.toNat) = ofRow ts n := by
      rw [List.filter_filter, ofRow]
      exact List.filter_congr fun t _ => by grind
    rw [List.range_succ, List.flatMap_append, ih, List.flatMap_singleton, ← hbelow, ← hrow, hsplit]

end Sorted

/-! ### Counts and their sums -/

/-- The coordinates of an element are those of a place in the matrix. -/
def InRange (rows cols : Word) (t : Triplet α) : Prop := t.row < rows ∧ t.col < cols

instance (t : Triplet α) : Decidable (t.InRange rows cols) := inferInstanceAs (Decidable (_ ∧ _))

/-- The number of elements above row `k`, and from there on those of the rows one by one. -/
def summed (rows : Word) (ts : List (Triplet α)) (k : Nat) : Array Word :=
  ((List.range (rows.toNat + 1)).map fun j =>
    UInt64.ofNat (if j ≤ k then above ts j else (ofRow ts (j - 1)).length)).toArray

theorem getElem?_summed (rows : Word) (ts : List (Triplet α)) (k j : Nat) : (summed rows ts k)[j]? =
    if j ≤ rows.toNat then some (UInt64.ofNat (if j ≤ k then above ts j else (ofRow ts (j - 1)).length))
    else none := by
  by_cases hj : j ≤ rows.toNat <;> simp [summed, hj]

/-- Where the rows start: behind all elements above them. -/
def rowStarts (rows : Word) (ts : List (Triplet α)) : Array Word :=
  ((List.range (rows.toNat + 1)).map fun i => UInt64.ofNat (above ts i)).toArray

theorem getElem?_rowStarts (rows : Word) (ts : List (Triplet α)) (i : Nat) : (rowStarts rows ts)[i]? =
    if i ≤ rows.toNat then some (UInt64.ofNat (above ts i)) else none := by
  by_cases hi : i ≤ rows.toNat <;> simp [rowStarts, hi]

theorem summed_rows (rows : Word) (ts : List (Triplet α)) : summed rows ts rows.toNat = rowStarts rows ts := by
  refine Array.ext_getElem? fun i => ?_
  rw [getElem?_summed, getElem?_rowStarts]
  by_cases hi : i ≤ rows.toNat <;> simp [hi]

section
variable {t : Triplet α} {table : Array Word} {left : Nat}

theorem toNat_row_succ (hrow : t.row < rows) : (t.row + 1).toNat = t.row.toNat + 1 := by
  have hlt := UInt64.lt_iff_toNat_lt.mp hrow
  have htop := rows.toNat_lt
  exact Word.toNat_succ (by omega)

/-- A table with one entry more than there are rows, none of which passes the last word when as many elements as
are left are counted in it. -/
structure HasRoom (rows : Word) (left : Nat) (table : Array Word) : Prop where
  size : table.size = rows.toNat + 1
  room : ∀ (j : Nat) (n : Word), table[j]? = some n → n.toNat + left < 2 ^ 64

theorem HasRoom.empty (hrows : rows.toNat + 1 < 2 ^ 64) (hleft : left < 2 ^ 64) :
    HasRoom rows left (Array.replicate (rows + 1).toNat 0) where
  size := by rw [Array.size_replicate, Word.toNat_succ hrows]
  room j n hn := by
    rw [Array.getElem?_replicate] at hn
    obtain rfl := Option.some.inj (Option.ite_none_right_eq_some.mp hn).2
    rwa [UInt64.toNat_zero, Nat.zero_add]

theorem HasRoom.modify (h : HasRoom rows (left + 1) table) (i : Nat) :
    HasRoom rows left (table.modify i (· + 1)) where
  size := (Array.size_modify ..).trans h.size
  room j n hn := by
    rw [Array.getElem?_modify] at hn
    split at hn
    next =>
      obtain ⟨m, hm, rfl⟩ := Option.map_eq_some_iff.mp hn
      have hroom := h.room j m hm
      rw [UInt64.toNat_add, UInt64.toNat_one]
      omega
    next =>
      have hroom := h.room j n hn
      omega

theorem countRows_cons (htable : HasRoom rows (ts.length + 1) table) (ht : InRange rows cols t) :
    countRows rows cols (t :: ts) table =
      countRows rows cols ts (table.modify (t.row.toNat + 1) (· + 1)) := by
  have hlt := UInt64.lt_iff_toNat_lt.mp ht.1
  have hslot := toNat_row_succ ht.1
  have hwithin : t.row.toNat + 1 < table.size := by
    rw [htable.size]
    omega
  have hentry : table[t.row.toNat + 1]? = some table[t.row.toNat + 1] := Array.getElem?_eq_getElem hwithin
  have hcount := htable.room _ _ hentry
  have htop := rows.toNat_lt
  rw [countRows, lift_ensure ht.1, pure_bind, lift_ensure ht.2, pure_bind, add_one_eq (by omega), pure_bind,
    get_eq (by rw [hslot, hentry]), pure_bind, add_one_eq (by omega), pure_bind, hslot,
    setIfInBounds_getElem hwithin (· + 1)]

theorem countRows_cons_of_row (hrow : ¬ t.row < rows) :
    countRows rows cols (t :: ts) table = lift (.error .row) := by
  rw [countRows, lift_ensure_bind_of_not hrow]

theorem countRows_cons_of_col (hrow : t.row < rows) (hcol : ¬ t.col < cols) :
    countRows rows cols (t :: ts) table = lift (.error .column) := by
  rw [countRows, lift_ensure hrow, pure_bind, lift_ensure_bind_of_not hcol]

/-- Each element is counted in the table entry behind its row. -/
theorem exists_countRows (htable : HasRoom rows ts.length table) (hrange : ∀ t ∈ ts, InRange rows cols t) :
    ∃ counts, countRows rows cols ts table = pure counts ∧
      ∀ j : Nat, counts[j]? = table[j]?.map (· + UInt64.ofNat (ts.countP fun t => t.row.toNat + 1 = j)) := by
  induction ts generalizing table with
  | nil => exact ⟨table, rfl, fun j => by simp⟩
  | cons t ts ih =>
    obtain ⟨ht, hrange⟩ := List.forall_mem_cons.mp hrange
    obtain ⟨counts, hcounts, hentries⟩ := ih (htable.modify (t.row.toNat + 1)) hrange
    refine ⟨counts, (countRows_cons htable ht).trans hcounts, fun j => ?_⟩
    rw [hentries, Array.getElem?_modify, List.countP_cons]
    by_cases hj : t.row.toNat + 1 = j
    · simp [hj, Function.comp_def, UInt64.add_assoc, UInt64.add_comm 1, UInt64.ofNat_add]
    · simp [hj]

/-- Sorted elements are checked row by row, so that a row past the last one is met behind all columns that are
past the last one in a row of the matrix. -/
theorem countRows_eq_error (htable : HasRoom rows ts.length table) (hs : Sorted ts)
    (hrange : ¬ ∀ t ∈ ts, InRange rows cols t) : countRows rows cols ts table =
      lift (.error (if ∃ t ∈ ts, t.row < rows ∧ cols ≤ t.col then .column else .row)) := by
  induction ts generalizing table with
  | nil => simp at hrange
  | cons t ts ih =>
    obtain ⟨ht, hs⟩ := List.pairwise_cons.mp hs
    by_cases hrow : t.row < rows
    · by_cases hcol : t.col < cols
      · have hfirst : ¬ (t.row < rows ∧ cols ≤ t.col) := fun h => UInt64.not_le.mpr hcol h.2
        rw [countRows_cons htable ⟨hrow, hcol⟩, ih (htable.modify _) hs fun h =>
          hrange (List.forall_mem_cons.mpr ⟨⟨hrow, hcol⟩, h⟩)]
        simp only [List.exists_mem_cons_iff, hfirst, false_or]
      · rw [countRows_cons_of_col hrow hcol, if_pos ⟨t, List.mem_cons_self, hrow, UInt64.not_lt.mp hcol⟩]
    · rw [countRows_cons_of_row hrow, if_neg]
      rintro ⟨u, hu, hurow, -⟩
      rw [UInt64.lt_iff_toNat_lt] at hrow hurow
      obtain rfl | hu := List.mem_cons.mp hu
      · exact hrow hurow
      · have := row_le_of_before (ht u hu)
        omega

/-- In the end each entry of the table holds how many elements there are in the row before it. -/
theorem countRows_eq (hrows : rows.toNat + 1 < 2 ^ 64) (hlength : ts.length < 2 ^ 64)
    (hrange : ∀ t ∈ ts, InRange rows cols t) :
    countRows rows cols ts (Array.replicate (rows + 1).toNat 0) = pure (summed rows ts 0) := by
  obtain ⟨counts, hcounts, hentries⟩ := exists_countRows (HasRoom.empty hrows hlength) hrange
  rw [hcounts]
  refine congrArg pure (Array.ext_getElem? fun j => ?_)
  rw [hentries, Array.getElem?_replicate, Word.toNat_succ hrows, getElem?_summed]
  simp only [Nat.lt_succ_iff]
  split
  next =>
    cases j with
    | zero => simp [above_zero]
    | succ j => simp [ofRow, List.countP_eq_length_filter]
  next => rfl

end

/-- One more sum is the one before it with the next count. -/
theorem addPrevious_summed (hlength : ts.length < 2 ^ 64) {k : Nat} (hk : k + 1 ≤ rows.toNat) :
    addPrevious (summed rows ts k) (UInt64.ofNat (k + 1)) = pure (summed rows ts (k + 1)) := by
  have hword : k + 1 < 2 ^ 64 := Nat.lt_of_le_of_lt hk rows.toNat_lt
  have hindex : (UInt64.ofNat (k + 1)).toNat = k + 1 := UInt64.toNat_ofNat_of_lt' hword
  have hsub : (sub (UInt64.ofNat (k + 1)) 1 : Guarded ShapeError Word) = pure (UInt64.ofNat k) := by
    rw [sub_eq (by rw [UInt64.le_iff_toNat_le, hindex, UInt64.toNat_one]; omega), UInt64.ofNat_add]
    exact congrArg pure (UInt64.add_sub_cancel ..)
  have hprevious : (summed rows ts k)[k]? = some (UInt64.ofNat (above ts k)) := by
    rw [getElem?_summed, if_pos (by omega), if_pos (Nat.le_refl k)]
  have hcount : (summed rows ts k)[k + 1]? = some (UInt64.ofNat (ofRow ts k).length) := by
    rw [getElem?_summed, if_pos hk, if_neg (by omega), Nat.add_sub_cancel]
  have hsum := above_succ ts k
  have hle := above_le ts (k + 1)
  rw [addPrevious, hsub, pure_bind, get_ofNat hprevious (by omega), pure_bind, get_ofNat hcount hword,
    pure_bind, add_ofNat (by omega), pure_bind, hindex]
  refine congrArg pure (Array.ext_getElem? fun j => ?_)
  have hwithin : k + 1 < (summed rows ts k).size := (Array.getElem?_eq_some_iff.mp hcount).1
  rw [Array.getElem?_setIfInBounds, getElem?_summed, getElem?_summed]
  by_cases hj : k + 1 = j
  · subst hj
    rw [if_pos rfl, if_pos hwithin, if_pos hk, if_pos (Nat.le_refl _), hsum, Nat.add_comm]
  · rw [if_neg hj]
    have hnext : j ≤ k + 1 ↔ j ≤ k := by omega
    simp only [hnext]

/-- The running sums of what is counted behind the rows are where the rows start. -/
theorem runningSums_summed (hlength : ts.length < 2 ^ 64) :
    runningSums rows (summed rows ts 0) = pure (rowStarts rows ts) := by
  have hfirst (k : Nat) (hk : k ≤ rows.toNat) :
      ((List.range k).map fun i => UInt64.ofNat (i + 1)).foldlM addPrevious (summed rows ts 0) =
        (pure (summed rows ts k) : Guarded ShapeError (Array Word)) := by
    induction k with
    | zero => rfl
    | succ k ih =>
      rw [List.range_succ, List.map_append, List.foldlM_append, ih (by omega), pure_bind, List.map_singleton,
        List.foldlM_cons, addPrevious_summed hlength hk, pure_bind]
      rfl
  exact summed_rows rows ts ▸ hfirst _ (Nat.le_refl _)

end Triplet

/-! ### Compressed rows of sorted elements -/

open Triplet

/-- The elements in their order, with where the rows start. -/
def Triplet.compressed (rows : Word) (ts : List (Triplet α)) : Compressed α :=
  ⟨rowStarts rows ts, (ts.map Triplet.col).toArray, (ts.map Triplet.value).toArray⟩

theorem Triplet.fits_compressed (hrows : rows.toNat + 1 < 2 ^ 64) (hlength : ts.length < 2 ^ 64)
    (hrange : ∀ t ∈ ts, InRange rows cols t) : (compressed rows ts).Fits rows 0 cols.toNat 1 where
  size_offsets := by simp [compressed, rowStarts]
  outer_lt := hrows
  first := by
    rw [compressed, getElem?_rowStarts, if_pos (Nat.zero_le _), above_zero]
    rfl
  sorted := by
    refine List.pairwise_map.mpr (List.pairwise_lt_range.imp fun {i j} hij => ?_)
    rw [UInt64.le_iff_toNat_le, toNat_above hlength, toNat_above hlength]
    exact above_mono ts (Nat.le_of_lt hij)
  size_columns := by
    have hall : above ts rows.toNat = ts.length :=
      above_of_lt fun t ht => UInt64.lt_iff_toNat_lt.mp (hrange t ht).1
    rw [Array.getD_eq_getD_getElem?]
    simp only [compressed, getElem?_rowStarts, Nat.le_refl, if_true, Option.getD_some, hall]
    rw [UInt64.toNat_ofNat_of_lt' hlength]
    simp
  size_values := by simp [compressed]
  values_lt := by simpa [compressed] using hlength
  column_lt j hj := by
    obtain ⟨t, ht, rfl⟩ := List.mem_map.mp (List.mem_toArray.mp hj)
    exact ⟨UInt64.zero_le, by simpa using UInt64.lt_iff_toNat_lt.mp (hrange t ht).2⟩

/-- The matrix that stores elements in their order. -/
def Triplet.toMatrix (rows cols : Word) (ts : List (Triplet α)) (hrows : rows.toNat + 1 < 2 ^ 64)
    (hlength : ts.length < 2 ^ 64) (hrange : ∀ t ∈ ts, InRange rows cols t) : Matrix α where
  rows := rows
  cols := cols
  base := 0
  kind := .real
  representation := .general
  storage := .csr (compressed rows ts) { sorted := true }
  fits := Storage.check_eq_ok_iff.mpr ⟨UInt64.zero_le, fits_compressed hrows hlength hrange⟩

namespace Matrix

/-- Elements without a place in the matrix are reported, once the table of offsets is there. -/
theorem ofSorted_eq_error (hrows : rows.toNat + 1 < 2 ^ 60) (hlength : ts.length < 2 ^ 64) (hs : Sorted ts)
    (hrange : ¬ ∀ t ∈ ts, InRange rows cols t) : ofSorted rows cols ts =
      lift (.error (if ∃ t ∈ ts, t.row < rows ∧ cols ≤ t.col then .column else .row)) := by
  have hword : rows.toNat + 1 < 2 ^ 64 := by omega
  rw [ofSorted, add_one_eq hword, pure_bind, zeros_eq (by rwa [Word.toNat_succ hword]), pure_bind,
    countRows_eq_error (.empty hword hlength) hs hrange]
  rfl

/-- With more rows there is no table, whatever the elements are. -/
theorem ofSorted_eq_trap (hrows : 2 ^ 60 ≤ rows.toNat + 1) : ofSorted rows cols ts =
    trap (if rows.toNat + 1 < 2 ^ 64 then .capacity else .overflow) := by
  rw [ofSorted]
  split
  next hword =>
    rw [add_one_eq hword, pure_bind, zeros_eq_trap (by rwa [Word.toNat_succ hword])]
    rfl
  next hword =>
    rw [add_eq_trap (Nat.le_of_not_lt hword)]
    rfl

section
variable (hrows : rows.toNat + 1 < 2 ^ 64) (hlength : ts.length < 2 ^ 64)
  (hrange : ∀ t ∈ ts, InRange rows cols t)

theorem ofSorted_eq_pure (htable : rows.toNat + 1 < 2 ^ 60) :
    ofSorted rows cols ts = pure (toMatrix rows cols ts hrows hlength hrange) := by
  rw [ofSorted, add_one_eq hrows, pure_bind, zeros_eq (by rwa [Word.toNat_succ hrows]), pure_bind,
    countRows_eq hrows hlength hrange, pure_bind, runningSums_summed hlength, pure_bind, guardedOfStorage_eq]
  exact congrArg lift (ofStorage_storage (toMatrix rows cols ts hrows hlength hrange))

variable [Zero α]

/-- The stored elements of all rows, row by row and within a row in storage order. -/
def elements (m : Matrix α) : List (Triplet (Element α)) :=
  (Word.range 0 m.rows).flatMap fun row => (m.rowEntries row).map fun entry => ⟨row, entry.1, entry.2⟩

/-- A row is read as the elements that belong to it. -/
theorem rowEntries_toMatrix (hs : Sorted ts) {row : Word} (hrow : row < rows) :
    (toMatrix rows cols ts hrows hlength hrange).rowEntries row =
      (ofRow ts row.toNat).map fun t => (t.col, .real t.value) := by
  have hlt := UInt64.lt_iff_toNat_lt.mp hrow
  have hnext : (row + 1).toNat = row.toNat + 1 := Word.toNat_succ (by omega)
  have hstart (i : Nat) (hi : i ≤ rows.toNat) :
      ((rowStarts rows ts).getD i 0 - 0).toNat = above ts i := by
    rw [Array.getD_eq_getD_getElem?, getElem?_rowStarts, if_pos hi, Option.getD_some, UInt64.sub_zero,
      toNat_above hlength]
  have hend := above_le ts (row.toNat + 1)
  refine List.ext_getElem? fun j => ?_
  rw [hs.ofRow_eq]
  simp only [rowEntries, toMatrix, compressed, Compressed.slots, hnext, List.getElem?_map, Word.getElem?_range,
    hstart _ (Nat.le_of_lt hlt), hstart _ (show row.toNat + 1 ≤ rows.toNat from hlt), List.getElem?_take,
    List.getElem?_drop]
  by_cases hj : above ts row.toNat + j < above ts (row.toNat + 1)
  · have hslot : (UInt64.ofNat (above ts row.toNat + j)).toNat = above ts row.toNat + j :=
      UInt64.toNat_ofNat_of_lt' (show above ts row.toNat + j < 2 ^ 64 by omega)
    have hwithin : above ts row.toNat + j < ts.length := by omega
    rw [if_pos hj, if_pos (by omega), List.getElem?_eq_getElem hwithin]
    simp only [Option.map_some, Compressed.column, Element.read, hslot, Array.getD_eq_getD_getElem?,
      List.getElem?_toArray, List.getElem?_map, List.getElem?_eq_getElem hwithin, Option.getD_some,
      UInt64.sub_zero]
  · rw [if_neg hj, if_neg (by omega)]
    rfl

/-- Reading row by row comes to all elements in their order. -/
theorem elements_toMatrix (hs : Sorted ts) : (toMatrix rows cols ts hrows hlength hrange).elements =
    ts.map fun t => ⟨t.row, t.col, .real t.value⟩ := by
  have hall : ts.filter (fun t => t.row.toNat < rows.toNat) = ts :=
    List.filter_eq_self.mpr fun t ht => decide_eq_true (UInt64.lt_iff_toNat_lt.mp (hrange t ht).1)
  rw [elements, show (toMatrix rows cols ts hrows hlength hrange).rows = rows from rfl, Word.range_zero,
    List.flatMap_map]
  conv_rhs => rw [← hall, ← hs.flatMap_ofRow, List.map_flatMap]
  refine List.flatMap_congr fun i hi => ?_
  have hi := List.mem_range.mp hi
  have hrow : (UInt64.ofNat i).toNat = i := UInt64.toNat_ofNat_of_lt' (show i < 2 ^ 64 by omega)
  rw [rowEntries_toMatrix hrows hlength hrange hs (UInt64.lt_iff_toNat_lt.mpr (hrow.symm ▸ hi)), hrow,
    List.map_map]
  refine List.map_congr_left fun t ht => ?_
  have ht : t.row = UInt64.ofNat i := by
    rw [← UInt64.toNat_inj, hrow]
    simpa [ofRow] using (List.mem_filter.mp ht).2
  rw [ht]
  rfl

end

/-! ### Elements in any order -/

/-- What assembling elements may come to. They are sorted by their places alone, and a sort may leave those of
one place in any order. -/
def AssemblesTo (rows cols : Word) (ts : List (Triplet α)) (outcome : Guarded ShapeError (Matrix α)) : Prop :=
  ∃ sorted : List (Triplet α), sorted.Perm ts ∧ Sorted sorted ∧ ofSorted rows cols sorted = outcome

/-- The matrix has the elements, and nothing else, as sorted compressed rows. -/
structure Assembled [Zero α] (rows cols : Word) (ts : List (Triplet α)) (m : Matrix α) : Prop where
  rows_eq : m.rows = rows
  cols_eq : m.cols = cols
  base_eq : m.base = 0
  kind_eq : m.kind = .real
  representation_eq : m.representation = .general
  perm : m.elements.Perm (ts.map fun t => ⟨t.row, t.col, .real t.value⟩)
  sorted : Sorted m.elements
  nnz_eq : ∃ count : Word, (m.nnz : Guarded Unit Word) = pure count ∧ count.toNat = ts.length
  storage : ∃ entries, m.storage = .csr entries { sorted := true } ∧
    entries.offsets.size = rows.toNat + 1 ∧
    (∀ i ≤ rows.toNat, entries.offsets[i]?.map UInt64.toNat = some (above ts i)) ∧
    entries.columns.toList = m.elements.map Triplet.col ∧
    entries.values.toList.map Element.real = m.elements.map Triplet.value

theorem assembled_toMatrix [Zero α] {sorted : List (Triplet α)} (hs : Sorted sorted) (hperm : sorted.Perm ts)
    (hrows : rows.toNat + 1 < 2 ^ 64) (hlength : sorted.length < 2 ^ 64)
    (hrange : ∀ t ∈ sorted, InRange rows cols t) :
    (toMatrix rows cols sorted hrows hlength hrange).Assembled rows cols ts where
  rows_eq := rfl
  cols_eq := rfl
  base_eq := rfl
  kind_eq := rfl
  representation_eq := rfl
  perm := by
    rw [elements_toMatrix hrows hlength hrange hs]
    exact hperm.map _
  sorted := by
    rw [elements_toMatrix hrows hlength hrange hs]
    exact List.pairwise_map.mpr hs
  nnz_eq := by
    refine ⟨UInt64.ofNat sorted.length, ?_, ?_⟩
    · simp [nnz, toMatrix, compressed]
    · rw [UInt64.toNat_ofNat_of_lt' hlength, hperm.length_eq]
  storage := by
    refine ⟨compressed rows sorted, rfl, by simp [compressed, rowStarts], fun i hi => ?_, ?_, ?_⟩
    · rw [compressed, getElem?_rowStarts, if_pos hi, Option.map_some, toNat_above hlength]
      exact congrArg some (hperm.countP_eq _)
    · simp [elements_toMatrix hrows hlength hrange hs, compressed, Function.comp_def]
    · simp [elements_toMatrix hrows hlength hrange hs, compressed, Function.comp_def]

/-- Elements in any order come to a matrix exactly if each has a place in it. The matrix then has them as
sorted compressed rows, and the same matrix comes of them in every other order, if those at one place are the
same. An element in a row of the matrix and past its last column is reported before any row past the last
one. From `2 ^ 60 - 1` rows on no memory has room for the offsets, and there is no matrix of any elements. -/
theorem ofTriplets_assembles [Zero α] (rows cols : Word) (ts : List (Triplet α))
    (hrows : rows.toNat < 2 ^ 64 - 1) (hlength : ts.length < 2 ^ 64) :
    AssemblesTo rows cols ts (ofTriplets rows cols ts) ∧
    ∀ outcome, AssemblesTo rows cols ts outcome →
      (rows.toNat + 1 < 2 ^ 60 →
        ((∃ m, outcome = pure m) ↔ ∀ t ∈ ts, t.InRange rows cols) ∧
        (∀ m, outcome = pure m → m.Assembled rows cols ts) ∧
        ((∃ t ∈ ts, ¬ t.InRange rows cols) → ∃ e, outcome = lift (.error e) ∧ e.message =
          if ∃ t ∈ ts, t.row < rows ∧ cols ≤ t.col then "Column index out of bounds"
          else "Row index out of bounds")) ∧
      (2 ^ 60 ≤ rows.toNat + 1 → outcome = trap .capacity) ∧
      ∀ ts' : List (Triplet α), ts'.Perm ts →
        (∀ a ∈ ts, ∀ b ∈ ts, a.row = b.row → a.col = b.col → a.value = b.value) →
        ∀ outcome', AssemblesTo rows cols ts' outcome' → outcome' = outcome := by
  refine ⟨⟨_, List.mergeSort_perm .., sorted_mergeSort ts, rfl⟩, ?_⟩
  rintro outcome ⟨sorted, hperm, hs, rfl⟩
  have hlength : sorted.length < 2 ^ 64 := hperm.length_eq ▸ hlength
  have hword : rows.toNat + 1 < 2 ^ 64 := by omega
  refine ⟨fun htable => ?_, fun hmany => ?_, ?_⟩
  · have hrange : (∀ t ∈ sorted, t.InRange rows cols) ↔ ∀ t ∈ ts, t.InRange rows cols := by
      simp only [hperm.mem_iff]
    have hpast : (∃ t ∈ sorted, t.row < rows ∧ cols ≤ t.col) ↔ ∃ t ∈ ts, t.row < rows ∧ cols ≤ t.col := by
      simp only [hperm.mem_iff]
    by_cases hall : ∀ t ∈ sorted, t.InRange rows cols
    · have hmatrix := ofSorted_eq_pure hword hlength hall htable
      refine ⟨⟨fun _ => hrange.mp hall, fun _ => ⟨_, hmatrix⟩⟩, fun m hm => ?_, fun ⟨t, ht, hout⟩ => ?_⟩
      · obtain rfl := pure_inj.mp (hmatrix.symm.trans hm)
        exact assembled_toMatrix hs hperm hword hlength hall
      · exact absurd (hrange.mp hall t ht) hout
    · have herror := ofSorted_eq_error htable hlength hs hall
      refine ⟨⟨fun ⟨m, hm⟩ => ?_, fun h => absurd (hrange.mpr h) hall⟩, fun m hm => ?_, fun _ => ?_⟩
      · cases herror.symm.trans hm
      · cases herror.symm.trans hm
      · refine ⟨_, herror, ?_⟩
        simp only [hpast]
        split_ifs <;> rfl
  · rw [ofSorted_eq_trap hmany, if_pos hword]
  · rintro ts' hperm' hsame outcome' ⟨sorted', hperm'', hs', rfl⟩
    have hsorted : sorted' = sorted := hs'.unique hs ((hperm''.trans hperm').trans hperm.symm) fun a ha b hb =>
      hsame a (hperm.mem_iff.mp ha) b (hperm.mem_iff.mp hb)
    rw [hsorted]

/-- Two equal elements at one place, and a row without any. -/
def repeatedElement : List (Triplet Int) := [⟨2, 1, 7⟩, ⟨0, 0, 5⟩, ⟨2, 1, 7⟩]

/-- The second element is past the last column, the first one past the last row. -/
def strayElements : List (Triplet Int) := [⟨5, 0, 1⟩, ⟨1, 2, 1⟩]

theorem ofTriplets_assembles_repeatedElement :
    (3 : Word).toNat < 2 ^ 64 - 1 ∧ repeatedElement.length < 2 ^ 64 ∧ strayElements.length < 2 ^ 64 ∧
    (∃ m, ofTriplets 3 2 repeatedElement = pure m ∧ m.Assembled 3 2 repeatedElement ∧
      m.storage = .csr ⟨#[0, 1, 1, 3], #[0, 1, 1], #[5, 7, 7]⟩ { sorted := true }) ∧
    ∃ e, ofTriplets 3 2 strayElements = lift (.error e) ∧ e.message = "Column index out of bounds" := by
  have hrows : (3 : Word).toNat < 2 ^ 64 - 1 := by decide
  have htable : (3 : Word).toNat + 1 < 2 ^ 60 := by decide
  obtain ⟨hassembles, hall⟩ := ofTriplets_assembles 3 2 repeatedElement hrows (by decide)
  obtain ⟨hmatrix, -, hunique⟩ := hall _ hassembles
  obtain ⟨⟨-, hsucceeds⟩, hassembled, -⟩ := hmatrix htable
  obtain ⟨m, hm⟩ := hsucceeds (by decide)
  have hsorted : AssemblesTo 3 2 [⟨0, 0, 5⟩, ⟨2, 1, 7⟩, ⟨2, 1, 7⟩]
      (ofSorted 3 2 [⟨0, 0, 5⟩, ⟨2, 1, 7⟩, ⟨2, 1, (7 : Int)⟩]) := ⟨_, .refl _, by unfold Sorted; decide, rfl⟩
  have hother := hunique _ (by decide) (by decide) _ hsorted
  obtain ⟨hstrays, hstray⟩ := ofTriplets_assembles 3 2 strayElements hrows (by decide)
  obtain ⟨hreported, -, -⟩ := hstray _ hstrays
  obtain ⟨-, -, hmessage⟩ := hreported htable
  refine ⟨hrows, by decide, by decide, ⟨m, hm, hassembled m hm, ?_⟩, ?_⟩
  · have hvalue := @ofSorted_eq_pure Int 3 2 [⟨0, 0, 5⟩, ⟨2, 1, 7⟩, ⟨2, 1, 7⟩]
      (by decide) (by decide) (by decide) htable
    obtain rfl := pure_inj.mp (hvalue.symm.trans (hother.trans hm))
    decide
  · obtain ⟨e, he, htext⟩ := hmessage ⟨⟨1, 2, 1⟩, by decide, by decide⟩
    exact ⟨e, he, htext.trans (if_pos (by decide))⟩

/-- A matrix without elements can have too many rows for its offsets. -/
theorem ofTriplets_without_room : (∀ t ∈ ([] : List (Triplet Int)), t.InRange 1152921504606846976 1) ∧
    (1152921504606846976 : Word).toNat < 2 ^ 64 - 1 ∧
    ofTriplets 1152921504606846976 1 ([] : List (Triplet Int)) = trap .capacity :=
  ⟨List.forall_mem_nil _, by decide, ofSorted_eq_trap (by decide)⟩

end Matrix

end AccelKrylov
