import AccelKrylov.Matrix.GuardedEntries
import AccelKrylov.Proofs.Trap

/-! A machine that stops at traps and is not stopped reads what the row holds. Whatever the arrays, each of its
operations has then come to the plain result. -/

namespace AccelKrylov

variable {ε α : Type}

open Guarded

/-! ### Elements -/

/-- A read that is not stopped is the one that cannot be. -/
theorem Element.of_guardedRead [Zero α] {values : Array α} {kind : ValueKind} {index : Word}
    {e : Element α} (h : (guardedRead values kind index : Guarded ε (Element α)) = pure e) :
    read values kind index = e := by
  cases kind with
  | real =>
    obtain ⟨v, hv, h⟩ := bind_eq_pure.mp h
    obtain rfl := pure_inj.mp h
    rw [read, of_get hv]
  | complex =>
    obtain ⟨even, heven, h⟩ := bind_eq_pure.mp h
    obtain ⟨re, hre, h⟩ := bind_eq_pure.mp h
    obtain ⟨even', heven', h⟩ := bind_eq_pure.mp h
    obtain ⟨odd, hodd, h⟩ := bind_eq_pure.mp h
    obtain ⟨im, him, h⟩ := bind_eq_pure.mp h
    obtain rfl := pure_inj.mp h
    obtain rfl := of_mul heven
    obtain rfl := of_mul heven'
    obtain rfl := of_add hodd
    rw [read, of_get hre, of_get him]

/-! ### Rows that are read without a trap are the rows that are read -/

namespace Compressed

variable {c : Compressed α} {base i k : Word}

theorem of_guardedSlots [Zero α] {ks : List Word}
    (h : (c.guardedSlots base i : Guarded ε (List Word)) = pure ks) : c.slots base i = ks := by
  obtain ⟨from', hfrom, h⟩ := bind_eq_pure.mp h
  obtain ⟨start, hstart, h⟩ := bind_eq_pure.mp h
  obtain ⟨next, hnext, h⟩ := bind_eq_pure.mp h
  obtain ⟨to', hto, h⟩ := bind_eq_pure.mp h
  obtain ⟨stop, hstop, h⟩ := bind_eq_pure.mp h
  obtain rfl := pure_inj.mp h
  obtain rfl := of_add hnext
  rw [slots, of_get hfrom, of_get hto, of_sub hstart, of_sub hstop]

theorem of_guardedColumn [Zero α] {col : Word}
    (h : (c.guardedColumn base k : Guarded ε Word) = pure col) : c.column base k = col := by
  obtain ⟨j, hj, h⟩ := bind_eq_pure.mp h
  rw [column, of_get hj, of_sub h]

end Compressed

namespace BlockRows

variable [Zero α] {b : BlockRows α} {base cols : Word} {kind : ValueKind}

theorem of_guardedEntry {line k first c : Word} {entry : Option (Word × Element α)}
    (h : (b.guardedEntry cols kind line k first c : Guarded ε (Option (Word × Element α))) =
      pure entry) : (if first.toNat + c.toNat < cols.toNat then some (first + c, Element.read b.values kind
        (k * b.blockSize * b.blockSize + line * b.blockSize + c)) else none) = entry := by
  obtain ⟨col, hcol, h⟩ := bind_eq_pure.mp h
  have hsum := toNat_of_add hcol
  obtain rfl := of_add hcol
  have hin : first.toNat + c.toNat < cols.toNat ↔ first + c < cols := by rw [UInt64.lt_iff_toNat_lt, hsum]
  split at h
  next hlt =>
    obtain ⟨part, hpart, h⟩ := bind_eq_pure.mp h
    obtain ⟨block, hblock, h⟩ := bind_eq_pure.mp h
    obtain ⟨lines, hlines, h⟩ := bind_eq_pure.mp h
    obtain ⟨before, hbefore, h⟩ := bind_eq_pure.mp h
    obtain ⟨index, hindex, h⟩ := bind_eq_pure.mp h
    obtain ⟨e, he, h⟩ := bind_eq_pure.mp h
    obtain rfl := pure_inj.mp h
    obtain rfl := of_mul hpart
    obtain rfl := of_mul hblock
    obtain rfl := of_mul hlines
    obtain rfl := of_add hbefore
    obtain rfl := of_add hindex
    rw [if_pos (hin.mpr hlt), Element.of_guardedRead he]
  next hge => rw [if_neg (mt hin.mp hge), pure_inj.mp h]

theorem of_guardedRowEntries {i : Word} {entries : List (Word × Element α)}
    (h : (b.guardedRowEntries base cols kind i : Guarded ε (List (Word × Element α))) =
      pure entries) : b.rowEntries base cols kind i = entries := by
  obtain ⟨blockRow, hdiv, h⟩ := bind_eq_pure.mp h
  obtain ⟨line, hmod, h⟩ := bind_eq_pure.mp h
  obtain ⟨ks, hks, h⟩ := bind_eq_pure.mp h
  obtain ⟨blocks, hblocks, h⟩ := bind_eq_pure.mp h
  obtain rfl := pure_inj.mp h
  obtain rfl := of_div hdiv
  obtain rfl := of_mod hmod
  obtain rfl := Compressed.of_guardedSlots hks
  rw [rowEntries, List.flatMap_def]
  refine congrArg List.flatten (of_mapM hblocks fun k entries hk => ?_)
  obtain ⟨j, hj, hk⟩ := bind_eq_pure.mp hk
  obtain ⟨first, hfirst, hk⟩ := bind_eq_pure.mp hk
  obtain ⟨found, hfound, hk⟩ := bind_eq_pure.mp hk
  obtain rfl := pure_inj.mp hk
  obtain rfl := of_mul hfirst
  obtain rfl := Compressed.of_guardedColumn hj
  rw [← of_mapM hfound fun c entry hc => of_guardedEntry hc, List.filterMap_map]
  rfl

theorem of_guardedEntriesOfRuns {row first : Word} {runs : List (BlockRows α)}
    {entries : List (Word × Element α)}
    (h : (guardedEntriesOfRuns base cols kind row first runs : Guarded ε (List (Word × Element α))) =
      pure entries) (hfirst : first ≤ row) :
    entriesOfRuns base cols kind runs (row - first) = entries := by
  induction runs generalizing first with
  | nil => exact pure_inj.mp h
  | cons run runs ih =>
    obtain ⟨height, hheight, hrest⟩ := bind_eq_pure.mp h
    obtain rfl := of_mul hheight
    obtain ⟨next, hnext, hread⟩ := bind_eq_pure.mp hrest
    have hsum := toNat_of_add hnext
    have hlocal := UInt64.toNat_sub_of_le _ _ hfirst
    rw [UInt64.le_iff_toNat_le] at hfirst
    have hpast : run.rows ≤ row - first ↔ next ≤ row := by
      rw [UInt64.le_iff_toNat_le, UInt64.le_iff_toNat_le, hlocal, hsum, rows]
      omega
    rw [entriesOfRuns]
    split at hread
    next hle =>
      rw [if_pos (hpast.mpr hle), ← ih hread hle]
      congr 1
      rw [← UInt64.toNat_inj, UInt64.toNat_sub_of_le _ _ (hpast.mpr hle), hlocal,
        UInt64.toNat_sub_of_le _ _ hle, hsum, rows, Nat.sub_sub]
    next hlt =>
      obtain ⟨line, hline, hread⟩ := bind_eq_pure.mp hread
      obtain rfl := of_sub hline
      rw [if_neg (mt hpast.mp hlt), of_guardedRowEntries hread]

end BlockRows

/-- A machine that is not stopped reads what the row holds. -/
theorem Matrix.of_guardedRowEntries [Zero α] {m : Matrix α} {row : Word}
    {entries : List (Word × Element α)}
    (h : (m.guardedRowEntries row : Guarded ε (List (Word × Element α))) = pure entries) :
    m.rowEntries row = entries := by
  cases hstorage : m.storage with
  | dense lda values =>
    simp only [guardedRowEntries, rowEntries, hstorage] at h ⊢
    refine of_mapM h fun col entry hcol => ?_
    obtain ⟨start, hstart, hcol⟩ := bind_eq_pure.mp hcol
    obtain ⟨index, hindex, hcol⟩ := bind_eq_pure.mp hcol
    obtain ⟨e, he, hcol⟩ := bind_eq_pure.mp hcol
    obtain rfl := pure_inj.mp hcol
    obtain rfl := of_mul hstart
    obtain rfl := of_add hindex
    rw [Element.of_guardedRead he]
  | csr c flags =>
    simp only [guardedRowEntries, rowEntries, hstorage] at h ⊢
    obtain ⟨ks, hks, h⟩ := bind_eq_pure.mp h
    obtain rfl := Compressed.of_guardedSlots hks
    refine of_mapM h fun k entry hk => ?_
    obtain ⟨col, hcol, hk⟩ := bind_eq_pure.mp hk
    obtain ⟨e, he, hk⟩ := bind_eq_pure.mp hk
    obtain rfl := pure_inj.mp hk
    rw [Compressed.of_guardedColumn hcol, Element.of_guardedRead he]
  | bcsr runs shared =>
    simp only [guardedRowEntries, rowEntries, hstorage] at h ⊢
    have hread := BlockRows.of_guardedEntriesOfRuns h (UInt64.zero_le (a := row))
    rwa [UInt64.sub_zero] at hread

end AccelKrylov
