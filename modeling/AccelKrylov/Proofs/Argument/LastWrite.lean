import Mathlib.Data.List.Induction
import AccelKrylov.Device.Transport

/-! What a device leaves in the caller's memory. Writes to the memory behind an argument come one after the
other, and one that would leave that memory has no effect; so every byte is in the end what the last write to
its place put there, or what it was before. -/

namespace AccelKrylov

theorem getElem?_overwrite {bytes patch out : List UInt8} {offset : Nat}
    (h : overwrite bytes offset patch = some out) (i : Nat) :
    out[i]? = if offset ≤ i ∧ i < offset + patch.length then patch[i - offset]? else bytes[i]? := by
  unfold overwrite at h
  split at h
  next hfits =>
    obtain rfl := Option.some.inj h
    rw [List.append_assoc, List.getElem?_append, List.length_take, Nat.min_eq_left (by omega)]
    by_cases hfront : i < offset
    · rw [if_pos hfront, if_neg (by omega), List.getElem?_take, if_pos hfront]
    · rw [if_neg hfront, List.getElem?_append]
      by_cases hinside : i - offset < patch.length
      · rw [if_pos hinside, if_pos (by omega)]
      · rw [if_neg hinside, if_neg (by omega), List.getElem?_drop]
        congr 1
        omega
  · cases h

/-! ### One write -/

namespace MemoryWrite

/-- What a write makes of the memory behind the argument at a position. -/
def onto (position : Nat) (bytes : List UInt8) (w : MemoryWrite) : List UInt8 :=
  if position = w.position then (overwrite bytes w.offset w.bytes).getD bytes else bytes

/-- The byte that a write puts at a place in the memory behind the argument at a position, which has so many
bytes. -/
def byte? (position length i : Nat) (w : MemoryWrite) : Option UInt8 :=
  if position = w.position ∧ w.offset + w.bytes.length ≤ length ∧ w.offset ≤ i then w.bytes[i - w.offset]?
  else none

@[simp] theorem length_onto (position : Nat) (bytes : List UInt8) (w : MemoryWrite) :
    (w.onto position bytes).length = bytes.length := by
  unfold onto
  split
  · cases h : overwrite bytes w.offset w.bytes with
    | none => rfl
    | some out => exact length_of_overwrite h
  · rfl

theorem getElem?_onto (position : Nat) (bytes : List UInt8) (w : MemoryWrite) (i : Nat) :
    (w.onto position bytes)[i]? = bytes[i]?.map fun byte => (w.byte? position bytes.length i).getD byte := by
  unfold onto byte?
  by_cases hposition : position = w.position
  · rw [if_pos hposition]
    by_cases hfits : w.offset + w.bytes.length ≤ bytes.length
    · obtain ⟨out, hout⟩ : ∃ out, overwrite bytes w.offset w.bytes = some out :=
        ⟨_, if_pos hfits⟩
      rw [hout, Option.getD_some, getElem?_overwrite hout]
      by_cases hinside : w.offset ≤ i ∧ i < w.offset + w.bytes.length
      · rw [if_pos hinside, if_pos ⟨hposition, hfits, hinside.1⟩,
          List.getElem?_eq_getElem (show i < bytes.length by omega),
          List.getElem?_eq_getElem (show i - w.offset < w.bytes.length by omega)]
        rfl
      · rw [if_neg hinside]
        split
        next hafter =>
          rw [List.getElem?_eq_none (show w.bytes.length ≤ i - w.offset by omega)]
          simp
        next => simp
    · have hnone : overwrite bytes w.offset w.bytes = none := if_neg hfits
      rw [hnone, if_neg fun h => hfits h.2.1]
      simp
  · rw [if_neg hposition, if_neg fun h => hposition h.1]
    simp

end MemoryWrite

/-! ### All writes -/

/-- What is left of bytes behind the argument at a position: every byte is the one that was last written
there, or else the one that was there at first. -/
def leftOf (writes : List MemoryWrite) (position : Nat) (initial : List UInt8) : List UInt8 :=
  initial.mapIdx fun i byte =>
    (writes.reverse.findSome? (MemoryWrite.byte? position initial.length i)).getD byte

@[simp] theorem length_leftOf (writes : List MemoryWrite) (position : Nat) (initial : List UInt8) :
    (leftOf writes position initial).length = initial.length := List.length_mapIdx

theorem foldl_onto (writes : List MemoryWrite) (position : Nat) (initial : List UInt8) :
    writes.foldl (fun bytes w => w.onto position bytes) initial = leftOf writes position initial := by
  have hlength (writes : List MemoryWrite) :
      (writes.foldl (fun bytes w => w.onto position bytes) initial).length = initial.length := by
    induction writes using List.reverseRecOn with
    | nil => rfl
    | append_singleton writes w ih =>
      rw [List.foldl_append, List.foldl_cons, List.foldl_nil, MemoryWrite.length_onto, ih]
  refine List.ext_getElem? fun i => ?_
  rw [leftOf, List.getElem?_mapIdx]
  -- the last write decides, the writes before it where it does not reach
  induction writes using List.reverseRecOn with
  | nil => simp
  | append_singleton writes w ih =>
    rw [List.foldl_append, List.foldl_cons, List.foldl_nil, MemoryWrite.getElem?_onto, ih, hlength,
      Option.map_map, List.reverse_append, List.reverse_singleton, List.singleton_append, List.findSome?_cons]
    congr 1
    funext byte
    cases w.byte? position initial.length i <;> rfl

namespace ArgumentList

theorem lookup_map {β γ : Type} (f : Nat → β → γ) (entries : List (Nat × β)) (position : Nat) :
    (entries.map fun entry => (entry.1, f entry.1 entry.2)).lookup position =
      (entries.lookup position).map (f position) := by
  induction entries with
  | nil => rfl
  | cons entry entries ih =>
    obtain ⟨p, value⟩ := entry
    by_cases hp : position = p
    · subst hp
      simp
    · have hne : (position == p) = false := beq_false_of_ne hp
      simpa [List.lookup_cons, hne] using ih

theorem borrowedAt_poke (l : ArgumentList) (w : MemoryWrite) (position : Nat) :
    (l.poke w.position w.offset w.bytes).borrowedAt position =
      (l.borrowedAt position).map fun bytes => w.onto position bytes := by
  have hborrowed : (l.poke w.position w.offset w.bytes).borrowed =
      l.borrowed.map fun entry => (entry.1, w.onto entry.1 entry.2) := by
    refine List.map_congr_left fun entry _ => ?_
    unfold MemoryWrite.onto
    dsimp only
    split <;> rfl
  rw [borrowedAt, hborrowed]
  exact lookup_map (fun position bytes => w.onto position bytes) l.borrowed position

/-- The memory behind an argument after a device's writes. -/
theorem borrowedAt_pokeAll (l : ArgumentList) (writes : List MemoryWrite) (position : Nat) :
    (l.pokeAll writes).borrowedAt position =
      (l.borrowedAt position).map (leftOf writes position) := by
  have hfold (l : ArgumentList) : (l.pokeAll writes).borrowedAt position =
      (l.borrowedAt position).map fun bytes => writes.foldl (fun bytes w => w.onto position bytes) bytes := by
    induction writes generalizing l with
    | nil => simp [pokeAll]
    | cons w writes ih =>
      refine (ih (l.poke w.position w.offset w.bytes)).trans ?_
      rw [borrowedAt_poke, Option.map_map]
      rfl
  rw [hfold]
  simp only [foldl_onto]

end ArgumentList

end AccelKrylov
