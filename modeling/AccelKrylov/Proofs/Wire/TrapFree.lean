import AccelKrylov.Wire.Guarded
import AccelKrylov.Proofs.Matrix.TrapFree

/-! Reading a matrix never runs into a trap, whatever the bytes. A reader that counts in words tracks one
on plain numbers when it comes to the same result without a trap, as long as the position stays within
the bytes, and tracking carries over from the steps of a reader to the whole. -/

namespace AccelKrylov.Wire

open Guarded ByteReader

variable {β γ : Type}

/-- Rounding a position in the bytes up to an alignment stays within words. -/
def Addressable (bytes : List UInt8) : Prop := bytes.length + arrayAlignment < 2 ^ 64

/-- What the reader on plain numbers comes to, with the position as a word. -/
def inWords (result : Except DecodeError (β × Nat)) : Guarded DecodeError (β × Word) :=
  lift (result.map fun s => (s.1, UInt64.ofNat s.2))

/-- From every position within the bytes, `w` comes to what `r` comes to, again within the bytes. -/
def Tracks (w : WordReader β) (r : Reader β) : Prop :=
  ∀ bytes offset, Addressable bytes → offset.toNat ≤ bytes.length →
    w bytes offset = inWords (r bytes offset.toNat) ∧
      ∀ b last, r bytes offset.toNat = .ok (b, last) → last ≤ bytes.length

/-! ### Steps -/

theorem Addressable.toNat_ofNat {bytes : List UInt8} (h : Addressable bytes) {n : Nat}
    (hn : n ≤ bytes.length) : (UInt64.ofNat n).toNat = n := by
  unfold Addressable at h
  exact UInt64.toNat_ofNat_of_lt' (show n < 2 ^ 64 by omega)

theorem tracks_pure (b : β) : Tracks (pure b) (pure b) := by
  intro bytes offset _ hin
  refine ⟨?_, ?_⟩
  · change pure (b, offset) = lift (.ok (b, UInt64.ofNat offset.toNat))
    rw [UInt64.ofNat_toNat]
    rfl
  · intro b' last h
    cases h
    exact hin

theorem tracks_fail (e : DecodeError) :
    Tracks (ByteReader.fail e : WordReader β) (ByteReader.fail e) :=
  fun _ _ _ _ => ⟨rfl, nofun⟩

theorem tracks_bind {w : WordReader β} {r : Reader β} {kw : β → WordReader γ} {kr : β → Reader γ}
    (h : Tracks w r) (hk : ∀ b, Tracks (kw b) (kr b)) : Tracks (w >>= kw) (r >>= kr) := by
  intro bytes offset hsize hin
  obtain ⟨hw, hlast⟩ := h bytes offset hsize hin
  change (w bytes offset >>= fun s => kw s.1 bytes s.2) =
      inWords (r bytes offset.toNat >>= fun s => kr s.1 bytes s.2) ∧
    ∀ c last, (r bytes offset.toNat >>= fun s => kr s.1 bytes s.2) = .ok (c, last) →
      last ≤ bytes.length
  rw [hw]
  cases hr : r bytes offset.toNat with
  | error e => exact ⟨rfl, nofun⟩
  | ok s =>
    have hin := hlast s.1 s.2 hr
    have hnext := hk s.1 bytes (UInt64.ofNat s.2) hsize (by rwa [hsize.toNat_ofNat hin])
    rw [hsize.toNat_ofNat hin] at hnext
    exact hnext

theorem tracks_if {p : Prop} [Decidable p] {e : DecodeError} {w : WordReader β} {r : Reader β}
    (h : Tracks w r) :
    Tracks (if p then ByteReader.fail e else w) (if p then ByteReader.fail e else r) := by
  split
  · exact tracks_fail e
  · exact h

/-- Neither the end of what is taken nor the slice up to it leaves the bytes. -/
theorem tracks_take (n : Word) (what : String) :
    Tracks (ByteReader.take n what) (ByteReader.take n what) := by
  intro bytes offset hsize hin
  change WordReader.take n what bytes offset = inWords (Reader.take n.toNat what bytes offset.toNat) ∧
    ∀ b last, Reader.take n.toNat what bytes offset.toNat = .ok (b, last) → last ≤ bytes.length
  unfold WordReader.take Reader.take
  by_cases h : offset.toNat + n.toNat ≤ bytes.length
  · have hlt : offset.toNat + n.toNat < 2 ^ 64 := by
      unfold Addressable at hsize
      omega
    have hstop : (offset + n).toNat = offset.toNat + n.toNat := by
      rw [UInt64.toNat_add, Nat.mod_eq_of_lt hlt]
    have hadd : Word.checkedAdd offset n = some (offset + n) :=
      Word.checkedAdd_eq_some.mpr ⟨hlt, hstop⟩
    have hle : offset ≤ offset + n := by
      rw [UInt64.le_iff_toNat_le]
      omega
    rw [if_pos h, hadd, Option.filter_some, if_pos (decide_eq_true (by omega))]
    refine ⟨?_, ?_⟩
    · change (slice bytes offset (offset + n) >>= _) = _
      rw [slice_eq hle (by omega), hstop, Nat.add_sub_cancel_left, ← hstop]
      change lift (.ok (_, offset + n)) = lift (.ok (_, UInt64.ofNat (offset + n).toNat))
      rw [UInt64.ofNat_toNat]
    · intro b last hok
      cases hok
      exact h
  · have hnone : (Word.checkedAdd offset n).filter (fun stop => decide (stop.toNat ≤ bytes.length)) =
        none := by
      rw [Option.filter_eq_none_iff]
      intro stop hstop
      obtain ⟨-, hstop⟩ := Word.checkedAdd_eq_some.mp hstop
      simp only [decide_eq_true_eq]
      omega
    rw [if_neg h, hnone]
    exact ⟨rfl, nofun⟩

theorem tracks_skipTo {k : Nat} {align : Word} (halign : align.toNat = 2 ^ k)
    (hle : align.toNat ≤ arrayAlignment) (what : String) :
    Tracks (ByteReader.skipTo align what) (ByteReader.skipTo align what) := by
  intro bytes offset hsize hin
  have hpos : 0 < align.toNat := by
    rw [halign]
    exact Nat.two_pow_pos k
  have hpad := padding_lt offset.toNat hpos
  have hlt : offset.toNat + align.toNat < 2 ^ 64 := by
    unfold Addressable at hsize
    omega
  have hstop : (UInt64.ofNat (offset.toNat + padding offset.toNat align.toNat)).toNat =
      offset.toNat + padding offset.toNat align.toNat :=
    UInt64.toNat_ofNat_of_lt' (show _ < 2 ^ 64 by omega)
  have hle : offset ≤ UInt64.ofNat (offset.toNat + padding offset.toNat align.toNat) := by
    rw [UInt64.le_iff_toNat_le]
    omega
  have hgap : (UInt64.ofNat (offset.toNat + padding offset.toNat align.toNat) - offset).toNat =
      padding offset.toNat align.toNat := by
    rw [UInt64.toNat_sub_of_le _ _ hle]
    omega
  change WordReader.skipTo align what bytes offset =
      inWords (Reader.skipTo align.toNat what bytes offset.toNat) ∧
    ∀ b last, Reader.skipTo align.toNat what bytes offset.toNat = .ok (b, last) → last ≤ bytes.length
  unfold WordReader.skipTo
  rw [alignUp_eq halign hlt, pure_bind, sub_eq hle, pure_bind]
  have htake := (tracks_bind (tracks_take (UInt64.ofNat (offset.toNat + padding offset.toNat
    align.toNat) - offset) what) fun _ => tracks_pure ()) bytes offset hsize hin
  change _ = inWords ((Reader.take _ what >>= fun _ => pure ()) bytes offset.toNat) ∧
    ∀ b last, (Reader.take _ what >>= fun _ => pure ()) bytes offset.toNat = .ok (b, last) →
      last ≤ bytes.length at htake
  rw [hgap] at htake
  exact htake

/-! ### Fields -/

theorem tracks_scalar (what : String) : Tracks (scalar what) (scalar what) :=
  tracks_bind (tracks_skipTo (k := 3) (by decide) (by decide) what) fun _ =>
    tracks_bind (tracks_take 8 what) fun _ => tracks_pure _

theorem tracks_flag (what : String) : Tracks (flag what) (flag what) :=
  tracks_bind (tracks_scalar what) fun _ => tracks_pure _

theorem tracks_array (what : String) : Tracks (array what) (array what) :=
  tracks_bind (tracks_scalar what) fun length => tracks_if <|
    tracks_bind (tracks_skipTo (k := 6) (by decide) (by decide) what) fun _ =>
      tracks_bind (tracks_take length what) fun _ => tracks_pure _

theorem tracks_tagged (result : Except UnknownTag β) : Tracks (tagged result) (tagged result) := by
  cases result with
  | ok b => exact tracks_pure b
  | error tag => exact tracks_fail _

/-! ### Matrices -/

theorem tracks_numbers (what : String) : Tracks (readNumbers what) (readNumbers what) :=
  tracks_bind (tracks_array what) fun _ => tracks_pure _

theorem tracks_compressed (what : String) : Tracks (readCompressed what) (readCompressed what) :=
  tracks_bind (tracks_array _) fun _ => tracks_bind (tracks_array _) fun _ =>
    tracks_bind (tracks_numbers _) fun _ => tracks_pure _

theorem tracks_run : Tracks readRun readRun :=
  tracks_bind (tracks_scalar _) fun _ => tracks_bind (tracks_scalar _) fun _ =>
    tracks_bind (tracks_compressed _) fun _ => tracks_pure _

theorem tracks_runs (n : Nat) : Tracks (readRuns n) (readRuns n) := by
  induction n with
  | zero => exact tracks_pure []
  | succ n ih => exact tracks_bind tracks_run fun _ => tracks_bind ih fun _ => tracks_pure _

theorem tracks_storage (rows base leadingDimension : Word) (format : StorageFormat) :
    Tracks (readStorage rows base leadingDimension format)
      (readStorage rows base leadingDimension format) := by
  cases format with
  | dense =>
    exact tracks_bind (tracks_scalar _) fun _ => tracks_if <|
      tracks_bind (tracks_numbers _) fun _ => tracks_pure _
  | csr =>
    exact tracks_bind (tracks_scalar _) fun _ => tracks_if <|
      tracks_bind (tracks_flag _) fun _ => tracks_bind (tracks_flag _) fun _ =>
      tracks_bind (tracks_flag _) fun _ => tracks_bind (tracks_flag _) fun _ =>
      tracks_bind (tracks_compressed _) fun _ => tracks_bind (tracks_flag _) fun _ => tracks_pure _
  | bcsr =>
    exact tracks_bind (tracks_scalar _) fun count => tracks_if <|
      tracks_bind (tracks_runs count.toNat) fun _ => tracks_bind (tracks_flag _) fun _ =>
        tracks_pure _

theorem tracks_parts : Tracks readParts readParts :=
  tracks_bind (tracks_scalar _) fun rows => tracks_bind (tracks_scalar _) fun _ =>
    tracks_bind (tracks_scalar _) fun base => tracks_bind (tracks_scalar _) fun leadingDimension =>
    tracks_bind (tracks_scalar _) fun _ => tracks_bind (tracks_tagged _) fun format =>
    tracks_bind (tracks_scalar _) fun _ => tracks_bind (tracks_tagged _) fun _ =>
    tracks_bind (tracks_scalar _) fun _ => tracks_bind (tracks_tagged _) fun _ =>
    tracks_bind (tracks_storage rows base leadingDimension format) fun _ => tracks_pure _

end AccelKrylov.Wire
