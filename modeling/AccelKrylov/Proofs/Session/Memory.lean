import AccelKrylov.Proofs.Argument.LastWrite
import AccelKrylov.Proofs.Session.Protocol

/-! What a device has done by the end of a run. Its state is the one that the commands of the run lead it to,
and the memory of the arguments holds what it wrote on the way; the records that set the arguments are those
of the arguments that the run was given. -/

namespace AccelKrylov

variable {σ : Type}

/-! ### Devices on their own -/

namespace Transport

/-- The device after some commands. -/
def after (t : Transport σ) (d : σ) (commands : List Command) : σ :=
  commands.foldl (fun d cmd => (t.submit d cmd).device) d

/-- The writes to the memory of arguments that a device makes on its way through some commands. -/
def writes (t : Transport σ) : σ → List Command → List MemoryWrite
  | _, [] => []
  | d, cmd :: commands =>
    (t.submit d cmd).memoryWrites ++ t.writes (t.submit d cmd).device commands

variable (t : Transport σ) (d : σ) (commands : List Command) (cmd : Command)

theorem after_concat : t.after d (commands ++ [cmd]) = (t.submit (t.after d commands) cmd).device := by
  simp [after]

theorem writes_concat : t.writes d (commands ++ [cmd]) =
    t.writes d commands ++ (t.submit (t.after d commands) cmd).memoryWrites := by
  induction commands generalizing d with
  | nil => simp [writes, after]
  | cons first commands ih =>
    rw [List.cons_append, writes, ih, writes, List.append_assoc]
    rfl

end Transport

theorem ArgumentList.pokeAll_append (l : ArgumentList) (writes more : List MemoryWrite) :
    l.pokeAll (writes ++ more) = (l.pokeAll writes).pokeAll more := List.foldl_append

/-! ### Runs -/

/-- The commands of a run in their order. -/
def Run.commands (r : Run σ) : List Command := r.exchanges.reverse.map (·.command)

/-- Device and memory are as the commands have left them, and only the records of the arguments have been
sent as arguments. -/
structure Heard (c : Call σ) (r : Run σ) : Prop where
  device : r.device = c.transport.after c.machine.device r.commands
  arguments : r.arguments = c.arguments.pokeAll (c.transport.writes c.machine.device r.commands)
  set : ∀ x ∈ r.exchanges, x.command.kind = .setArguments →
    x.command = .setArguments (.ofList c.arguments.descriptors)

namespace Heard

variable {c : Call σ} {r r' : Run σ}

theorem begin (c : Call σ) : Heard c (c.session.begin c.arguments c.machine) where
  device := rfl
  arguments := rfl
  set := fun _ hx => absurd hx List.not_mem_nil

theorem silent (hr : Heard c r) (h : r.Silent r') : Heard c r' where
  device := by
    rw [h.device, Run.commands, h.exchanges]
    exact hr.device
  arguments := by
    rw [h.arguments, Run.commands, h.exchanges]
    exact hr.arguments
  set := by
    rw [h.exchanges]
    exact hr.set

theorem command (hr : Heard c r) (cmd : Command) (phase : Phase)
    (hset : cmd.kind = .setArguments → cmd = .setArguments (.ofList c.arguments.descriptors)) :
    Heard c (r.command c.transport c.host cmd phase).1 := by
  have hreply : Heard c (r.afterReply c.host cmd (c.transport.submit r.device cmd)) := by
    have hcommands : (r.afterReply c.host cmd (c.transport.submit r.device cmd)).commands =
        r.commands ++ [cmd] := by
      simp [Run.commands, Run.afterReply]
    refine ⟨?_, ?_, fun x hx => ?_⟩
    · rw [hcommands, Transport.after_concat, ← hr.device]
      rfl
    · rw [hcommands, Transport.writes_concat, ArgumentList.pokeAll_append, ← hr.device, ← hr.arguments]
      rfl
    · rcases List.mem_cons.mp hx with rfl | hx
      · exact hset
      · exact hr.set x hx
  unfold Run.command
  dsimp only
  split
  · exact hreply.silent ⟨rfl, rfl, rfl⟩
  · exact hreply

theorem act (hr : Heard c r) (image : Image) {s : Stage} (hs : s ≠ .setArguments) :
    Heard c (s.act c.transport c.host image r).1 := by
  obtain ⟨cmd, phase, hkind, -, hact⟩ | ⟨hsilent, -⟩ := s.act_cases c.transport c.host image r
  · rw [hact]
    refine hr.command cmd phase fun hset => ?_
    rw [hset] at hkind
    cases s with
    | setArguments => exact absurd rfl hs
    | _ => cases hkind
  · exact hr.silent hsilent

theorem actAll (hr : Heard c r) (image : Image) {stages : List Stage} (hs : .setArguments ∉ stages) :
    Heard c (Stage.actAll c.transport c.host image stages r).1 := by
  induction stages generalizing r with
  | nil => exact hr
  | cons s stages ih =>
    rw [List.mem_cons, not_or] at hs
    have hact := hr.act image (Ne.symm hs.1)
    unfold Stage.actAll
    split
    next r' heq =>
      rw [heq] at hact
      exact ih hact hs.2
    next => exact hact

/-- The records that are written before the first command are those of the arguments. -/
theorem setArguments (hr : Heard c r) (image : Image)
    (hrecords : ∀ records ∈ r.records, Records.allocate c.arguments.descriptors = .ok records) :
    Heard c (Stage.setArguments.act c.transport c.host image r).1 := by
  obtain ⟨cmd, phase, -, hbrought, hact⟩ | ⟨hsilent, -⟩ :=
    Stage.setArguments.act_cases c.transport c.host image r
  · rw [hact]
    refine hr.command cmd phase fun hset => ?_
    cases cmd with
    | setArguments given => rw [Records.eq_of_allocate (hrecords given (hbrought given rfl))]
    | _ => cases hset
  · exact hr.silent hsilent

theorem order (hr : Heard c r) (hnone : r.records = none) (harguments : r.arguments = c.arguments)
    (image : Image) : Heard c (Stage.actAll c.transport c.host image Stage.order r).1 := by
  obtain ⟨cmd, phase, hkind, -⟩ | ⟨hsilent, hrecords⟩ := Stage.allocate.act_cases c.transport c.host image r
  · cases hkind
  have hfirst := hr.silent hsilent
  rw [Stage.order, Stage.actAll]
  split
  next r₁ heq =>
    rw [heq, hnone, harguments] at hrecords
    rw [heq] at hfirst
    have hsecond := hfirst.setArguments image fun records h =>
      (hrecords records h).resolve_left (Option.not_mem_none records)
    rw [Stage.actAll]
    split
    next r₂ heq =>
      rw [heq] at hsecond
      exact hsecond.actAll image (by decide)
    next => exact hsecond
  next => exact hfirst

end Heard

theorem Call.heard (c : Call σ) : Heard c c.run.1 := by
  cases hc : c.located with
  | error fault =>
    rw [c.run_of_error hc]
    exact .begin c
  | ok image =>
    rw [c.run_of_ok hc]
    exact ((Heard.begin c).order rfl rfl image).silent (.close _ _)

end AccelKrylov
