import AccelKrylov.Error
import AccelKrylov.Proofs.Wire.RoundTrip

/-! Writing a matrix over the front of some memory. The segments of its block are written one after the other
as long as they fit, so what has changed is a front of the block, and all that follows it stays as it was. It
is the whole block exactly if the memory is as long as the matrix measures. -/

namespace AccelKrylov

namespace Wire

/-- Where the room ends within a segment, that one and all that follow are not written. -/
theorem writeSegments_of_lt (ss : List Segment) (out : List UInt8) (h : out.length < totalSize ss) :
    ∃ written s rest, ss = written ++ s :: rest ∧ totalSize written ≤ out.length ∧
      out.length < totalSize written + s.size ∧
      writeSegments ss out = (false, written.flatMap Segment.bytes ++ out.drop (totalSize written)) := by
  induction ss generalizing out with
  | nil => exact absurd h (Nat.not_lt_zero _)
  | cons s ss ih =>
    rw [totalSize_cons] at h
    by_cases hfits : s.size ≤ out.length
    · have hrest : (out.drop s.size).length < totalSize ss := by
        rw [List.length_drop]
        omega
      obtain ⟨written, s', rest, rfl, hroom, hcut, hwrite⟩ := ih _ hrest
      rw [List.length_drop] at hroom hcut
      refine ⟨s :: written, s', rest, rfl, ?_, ?_, ?_⟩
      · rw [totalSize_cons]
        omega
      · rw [totalSize_cons]
        omega
      · rw [writeSegments, if_pos hfits, hwrite]
        simp [List.drop_drop]
    · refine ⟨[], s, ss, rfl, Nat.zero_le _, ?_, ?_⟩
      · rw [totalSize_nil]
        omega
      · rw [writeSegments, if_neg hfits]
        rfl

/-- The bytes of the first segments are the first bytes of all of them. -/
theorem take_flatMap_bytes (ss rest : List Segment) :
    ((ss ++ rest).flatMap Segment.bytes).take (totalSize ss) = ss.flatMap Segment.bytes := by
  rw [List.flatMap_append, ← length_flatMap_bytes ss, List.take_left]

end Wire

open Wire

namespace Matrix

variable (m : Matrix Double) {out : List UInt8}

theorem flattenInto_of_le (h : m.encodedSize ≤ out.length) :
    m.flattenInto out = (.ok m.encodedSize, m.encode ++ out.drop m.encodedSize) := by
  have hwrite : m.encodeInto out = (true, m.encode ++ out.drop m.encodedSize) :=
    writeSegments_of_le (layout m.fields) out h
  rw [flattenInto, hwrite]
  rfl

/-- Memory that is too short holds the segments of the block that fit in front of what it held before. -/
theorem flattenInto_of_lt (h : out.length < m.encodedSize) :
    ∃ written s rest, layout m.fields = written ++ s :: rest ∧ totalSize written ≤ out.length ∧
      out.length < totalSize written + s.size ∧
      m.flattenInto out = (.error (.invalidArgument
          s!"output buffer of {out.length} bytes is too small for the matrix"),
        m.encode.take (totalSize written) ++ out.drop (totalSize written)) := by
  obtain ⟨written, s, rest, hlayout, hroom, hcut, hwrite⟩ := writeSegments_of_lt (layout m.fields) out h
  refine ⟨written, s, rest, hlayout, hroom, hcut, ?_⟩
  have hfront : m.encode.take (totalSize written) = written.flatMap Segment.bytes := by
    rw [encode, Wire.bytes, hlayout, take_flatMap_bytes]
  have hwrite : m.encodeInto out =
      (false, written.flatMap Segment.bytes ++ out.drop (totalSize written)) := hwrite
  rw [flattenInto, hwrite, hfront]
  rfl

/-- A matrix is written over the front of memory exactly if it fits there by its measured size; then that is
the number of bytes written, they are those of its block in fresh memory, and all bytes behind them stay. In
memory that is too short the first segments of the block stand, up to the first one that does not fit, in
front of the bytes that were there before. -/
theorem flattenInto_framed (out : List UInt8) :
    m.encode.length = m.encodedSize ∧
    (∀ flat, Flat.ofMatrix m = .ok flat → flat.block.bytes = m.encode) ∧
    ((∃ size, (m.flattenInto out).1 = .ok size) ↔ m.encodedSize ≤ out.length) ∧
    (∀ size, (m.flattenInto out).1 = .ok size →
      size = m.encodedSize ∧ (m.flattenInto out).2 = m.encode ++ out.drop m.encodedSize) ∧
    ∀ fault, (m.flattenInto out).1 = .error fault →
      fault = .invalidArgument s!"output buffer of {out.length} bytes is too small for the matrix" ∧
        ∃ written s rest, layout m.fields = written ++ s :: rest ∧ totalSize written ≤ out.length ∧
          out.length < totalSize written + s.size ∧
          (m.flattenInto out).2 = m.encode.take (totalSize written) ++ out.drop (totalSize written) := by
  refine ⟨length_flatMap_bytes _, fun flat hflat => ?_, ?_⟩
  · obtain ⟨-, rfl⟩ := ofMatrix_eq_ok_iff.mp hflat
    rfl
  · rcases Nat.lt_or_ge out.length m.encodedSize with hshort | hlong
    · obtain ⟨written, s, rest, hlayout, hroom, hcut, hwrite⟩ := m.flattenInto_of_lt hshort
      rw [hwrite]
      refine ⟨⟨?_, fun h => absurd h (Nat.not_le.mpr hshort)⟩, ?_, fun fault hfault => ?_⟩
      · rintro ⟨size, ⟨⟩⟩
      · rintro size ⟨⟩
      · exact ⟨(Except.error.inj hfault).symm, written, s, rest, hlayout, hroom, hcut, rfl⟩
    · rw [m.flattenInto_of_le hlong]
      refine ⟨⟨fun _ => hlong, fun _ => ⟨_, rfl⟩⟩, fun size hsize => ?_, ?_⟩
      · exact ⟨(Except.ok.inj hsize).symm, rfl⟩
      · rintro fault ⟨⟩

end Matrix

end AccelKrylov
