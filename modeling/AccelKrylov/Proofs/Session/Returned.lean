import AccelKrylov.Device.Script
import AccelKrylov.Proofs.Argument.Tampering
import AccelKrylov.Proofs.Session.Protocol

/-! What a run returns. The records of a run keep their size from the first command to the last, whatever
the device writes to them; so a run that returns something has noticed all that was changed but addresses. -/

namespace AccelKrylov

variable {σ : Type} {count : Nat} {r : Run σ}

/-! ### The size of records -/

theorem Records.length_poke (records : Records) (offset : Nat) (patch : List UInt8) :
    (records.poke offset patch).bytes.length = records.bytes.length := by
  unfold poke
  cases h : overwrite records.bytes offset patch with
  | none => rfl
  | some bytes => exact length_of_overwrite h

theorem Records.length_pokeAll (records : Records) (writes : List (Nat × List UInt8)) :
    (records.pokeAll writes).bytes.length = records.bytes.length := by
  induction writes generalizing records with
  | nil => rfl
  | cons w writes ih => exact (ih (records.poke w.1 w.2)).trans (length_poke ..)

/-- The records of a run are those of a number of arguments. -/
structure Sized (count : Nat) (r : Run σ) : Prop where
  arguments : r.arguments.descriptors.length = count
  held : ∀ records ∈ r.records, records.bytes.length = 8 + 32 * count
  exchanged : ∀ x ∈ r.exchanges, ∀ records ∈ x.records, records.bytes.length = 8 + 32 * count

namespace Sized

/-- Records that are written are those of the arguments. -/
theorem silent {r' : Run σ} (hr : Sized count r) (h : r.Silent r')
    (hrecords : ∀ records ∈ r'.records,
      r.records = some records ∨ Records.allocate r.arguments.descriptors = .ok records) :
    Sized count r' where
  arguments := h.arguments ▸ hr.arguments
  held records hheld := by
    rcases hrecords records hheld with hbefore | hwritten
    · exact hr.held records hbefore
    · rw [Records.length_of_allocate hwritten, hr.arguments]
  exchanged := h.exchanges ▸ hr.exchanged

/-- Records do not grow or shrink when the device writes to them. -/
theorem recordsAfter (hr : Sized count r) (cmd : Command) (reply : Reply σ) :
    ∀ records ∈ r.recordsAfter cmd reply, records.bytes.length = 8 + 32 * count := by
  have hpoked : ∀ records ∈ r.records.map (·.pokeAll reply.recordWrites),
      records.bytes.length = 8 + 32 * count := by
    intro records hrecords
    obtain ⟨given, hgiven, rfl⟩ := Option.map_eq_some_iff.mp hrecords
    rw [Records.length_pokeAll]
    exact hr.held given hgiven
  unfold Run.recordsAfter
  cases cmd with
  | setArguments _ | getArguments _ => exact hpoked
  | _ => exact hr.held

theorem command (hr : Sized count r) (t : Transport σ) (h : Host) (cmd : Command) (phase : Phase) :
    Sized count (r.command t h cmd phase).1 := by
  have hafter := hr.recordsAfter cmd (t.submit r.device cmd)
  have hreply : Sized count (r.afterReply h cmd (t.submit r.device cmd)) := by
    refine ⟨?_, hafter, fun x hx => ?_⟩
    · exact (congrArg List.length (ArgumentList.descriptors_pokeAll ..)).trans hr.arguments
    · rcases List.mem_cons.mp hx with rfl | hx
      · exact hafter
      · exact hr.exchanged x hx
  unfold Run.command
  dsimp only
  split
  · exact hreply.silent ⟨rfl, rfl, rfl⟩ fun records h => .inl h
  · exact hreply

/-- No stage changes the size of records. -/
theorem act (hr : Sized count r) (t : Transport σ) (h : Host) (image : Image) (s : Stage) :
    Sized count (s.act t h image r).1 := by
  obtain ⟨cmd, phase, -, -, hact⟩ | ⟨hsilent, hrecords⟩ := s.act_cases t h image r
  · rw [hact]
    exact hr.command t h cmd phase
  · exact hr.silent hsilent hrecords

/-- By induction over the stages. -/
theorem actAll (hr : Sized count r) (t : Transport σ) (h : Host) (image : Image) (stages : List Stage) :
    Sized count (Stage.actAll t h image stages r).1 := by
  induction stages generalizing r with
  | nil => exact hr
  | cons s stages ih =>
    have hact := hr.act t h image s
    unfold Stage.actAll
    split
    next r' heq =>
      rw [heq] at hact
      exact ih hact
    · exact hact

theorem close (hr : Sized count r) (outcome : Outcome) : Sized count (r.close outcome) := by
  refine hr.silent (.close r outcome) fun records hrecords => .inl ?_
  cases outcome with
  | waiting => exact hrecords
  | _ => exact absurd (r.dropGuard.records_releaseRecords ▸ hrecords) (Option.not_mem_none records)

end Sized

/-! ### Runs that return -/

theorem Call.sized (c : Call σ) : Sized c.arguments.size c.run.1 := by
  have hbegin : Sized c.arguments.size (c.session.begin c.arguments c.machine) := {
    arguments := rfl
    held := fun records hrecords => absurd hrecords (Option.not_mem_none records)
    exchanged := fun x hx => absurd hx List.not_mem_nil }
  cases hc : c.located with
  | error fault =>
    rw [c.run_of_error hc]
    exact hbegin
  | ok image =>
    rw [c.run_of_ok hc]
    exact (hbegin.actAll ..).close _

/-- What is returned was received with the last of the six commands. -/
theorem Exit.of_returned {c : Call σ} {sent : List Exchange} {phase : Phase} {back : List Descriptor}
    (h : Exit c sent phase (.returned back)) : ∃ front x records, sent = front ++ [x] ∧
      x.command.kind = .getArguments ∧ x.records = some records ∧
      Records.receive c.arguments.descriptors records.bytes = .ok back := by
  cases h with
  | @finished front x records _ earlier hback hread hm =>
    have hlast : x.command.kind = .getArguments := by
      have hkinds := congrArg List.getLast? earlier.1
      simpa [protocol] using hkinds
    exact ⟨front, x, records, rfl, hlast, hback, Records.receive_eq_ok_iff.mpr ⟨hread, hm⟩⟩

/-- What a run returns was received as records of the size in which the arguments were sent. -/
theorem Call.of_returned {c : Call σ} {back : List Descriptor} (h : c.run = (r, .returned back)) :
    ∃ x earlier records, r.exchanges = x :: earlier ∧ x.command.kind = .getArguments ∧
      x.records = some records ∧ records.bytes.length = 8 + 32 * c.arguments.size ∧
      Records.receive c.arguments.descriptors records.bytes = .ok back := by
  obtain ⟨r', outcome, hrun, hr'⟩ := c.ended
  obtain ⟨rfl, rfl⟩ := Prod.mk.inj (hrun.symm.trans h)
  have hsized := c.sized
  rw [hrun] at hsized
  obtain ⟨front, x, records, hsent, hkind, hback, hreceived⟩ := hr'.exit.of_returned
  have hexchanges : (r'.close (.returned back)).exchanges = x :: front.reverse := by
    rw [Run.exchanges_close, ← List.reverse_reverse r'.exchanges, hsent, List.reverse_append]
    rfl
  have hmem : x ∈ (r'.close (.returned back)).exchanges := by
    rw [hexchanges]
    exact List.mem_cons_self
  exact ⟨x, _, records, hexchanges, hkind, hback, hsized.exchanged x hmem records hback, hreceived⟩

/-- A device may write anything over the records of some arguments. Whatever they have become, receiving
them succeeds exactly when no more than addresses have changed; otherwise it says that they are malformed,
if they are more than there is room for or one of them describes no argument, and where they differ first
from the arguments sent, if not. So a run returns nothing but its arguments, up to their addresses. -/
theorem tampering_noticed {l : ArgumentList} {records : Records} (hl : l.Built)
    (h : Records.allocate l.descriptors = .ok records) :
    (∀ bytes, bytes.length = records.bytes.length → Noticed l.descriptors bytes) ∧
      ∀ (σ : Type) (c : Call σ) (r : Run σ) (back : List Descriptor), c.arguments = l →
        c.run = (r, .returned back) → ∃ x earlier final, r.exchanges = x :: earlier ∧
          x.command.kind = .getArguments ∧ x.records = some final ∧
          AgreeButAddresses records.bytes final.bytes ∧
          back = l.descriptors.mapIdx fun i d =>
            { d with address := (Records.slot final.bytes i).address } := by
  have hnoticed (bytes : List UInt8) (hlength : bytes.length = 8 + 32 * l.descriptors.length) :
      Noticed l.descriptors bytes := noticed hl.aligned (Records.length_lt_of_allocate h) hlength
  rw [Records.eq_of_allocate h, Records.length_ofList]
  refine ⟨hnoticed, ?_⟩
  rintro σ c r back rfl hrun
  obtain ⟨x, earlier, final, hexchanges, hkind, hback, hlength, hreceived⟩ := Call.of_returned hrun
  have hfinal := hnoticed final.bytes hlength
  exact ⟨x, earlier, final, hexchanges, hkind, hback, hfinal.accepted.mp ⟨back, hreceived⟩,
    hfinal.returned back hreceived⟩

theorem isPowerOfTwo_eight : Word.isPowerOfTwo 8 = true := by decide

/-- A number that the device may write to. -/
def oneScalar : ArgumentList :=
  (ArgumentList.addScalar {} (.word 8 isPowerOfTwo_eight) ⟨4096, [0, 0, 0, 0, 0, 0, 0, 0]⟩ .both).1

/-- A call with that number, which the device moves elsewhere. -/
def movingCall : Call ScriptedDevice where
  transport := ScriptedDevice.transport none
  host := ⟨⟨fun _ => .ok (.file 1)⟩, 1, 3, 8192, fun _ => 4096⟩
  session := { settings := ⟨true, some "firmware", "device", 2, ⟨1, 1⟩⟩ }
  firmware := "image"
  arguments := oneScalar
  machine := { device := { script := { recordChanges := [⟨0, .address, 512⟩] } } }

/-- Another address is accepted, another direction is not, and the call returns. -/
theorem tampering_noticed_oneScalar :
    let sent := (Records.ofList oneScalar.descriptors).bytes
    (∃ back, Records.receive oneScalar.descriptors (sent.set 8 7) = .ok back) ∧
      (¬ ∃ back, Records.receive oneScalar.descriptors (sent.set 32 0) = .ok back) ∧
      ∃ (x : Exchange) (final : Records), movingCall.run.2 = .returned [⟨512, 8, 64, .both⟩] ∧
        x ∈ movingCall.run.1.exchanges ∧ x.records = some final ∧ AgreeButAddresses sent final.bytes := by
  intro sent
  have hbuilt : oneScalar.Built :=
    .add (a := .scalar (.word 8) ⟨4096, [0, 0, 0, 0, 0, 0, 0, 0]⟩ .both) .empty rfl
  have hallocated : Records.allocate oneScalar.descriptors = .ok (Records.ofList oneScalar.descriptors) :=
    rfl
  have hrun : movingCall.run.2 = .returned [⟨512, 8, 64, .both⟩] := by decide +kernel
  obtain ⟨hnoticed, hreturned⟩ := tampering_noticed hbuilt hallocated
  obtain ⟨x, earlier, final, hexchanges, -, hfinal, hagree, -⟩ :=
    hreturned _ movingCall _ _ rfl (Prod.ext rfl hrun)
  refine ⟨?_, ?_, x, final, hrun, ?_, hfinal, hagree⟩
  · refine (hnoticed _ List.length_set).accepted.mpr ⟨List.length_set, fun i hi => ?_⟩
    have hne : 8 ≠ i := by
      rintro rfl
      exact hi ⟨by decide, by decide⟩
    exact List.getElem?_set_ne hne
  · intro h
    have hbyte := ((hnoticed _ List.length_set).accepted.mp h).2 32 fun h => absurd h.2 (by decide)
    exact absurd hbyte (by decide)
  · rw [hexchanges]
    exact List.mem_cons_self

end AccelKrylov
