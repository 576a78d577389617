/-! How the place for a guard's slot is shared with handlers that run at any time. A handler counts itself,
looks for the slot in place, works with it, and uncounts itself; an owner puts a slot in place, sets the
handler, and later takes both back and frees the slot. Every action is one step that all threads see at
once, and any order of possible actions is an interleaving. -/

namespace AccelKrylov

/-! ### Handlers -/

/-- How far one invocation of the handler is. -/
inductive Invocation where
  /-- The signal has been delivered. -/
  | delivered
  /-- It has counted itself. -/
  | counted
  /-- It has found a slot and works with it. -/
  | holding (slot : Nat)
  /-- It has found no slot. -/
  | idle
  /-- It has uncounted itself. -/
  | finished
deriving DecidableEq

/-- It has counted itself and not uncounted itself. -/
def Invocation.isCounted : Invocation → Bool
  | counted | holding _ | idle => true
  | delivered | finished => false

/-! ### Owners -/

/-- How far the owner of a slot is. -/
inductive Ownership where
  /-- The slot is in place, and the handler is not set. -/
  | published
  /-- The handler is set. -/
  | installed
  /-- The handler was taken back. -/
  | restored
  /-- The slot was taken out of its place, and waits until no handler runs. -/
  | cleared
  /-- There was a moment at which no handler was counted. -/
  | quiet
  | freed
  /-- The handler could not be set. -/
  | refused
  /-- The slot of an owner without a handler was taken out of its place. -/
  | withdrawn
  /-- It was freed, without a wait. -/
  | discarded
deriving DecidableEq

namespace Ownership

/-- The memory of the slot was given back. -/
def isFreed : Ownership → Bool
  | freed | discarded => true
  | _ => false

/-- The slot was not taken out of its place. -/
def isPlaced : Ownership → Bool
  | published | installed | restored | refused => true
  | _ => false

/-- The handler was set once. -/
def wasSet : Ownership → Bool
  | installed | restored | cleared | quiet | freed => true
  | _ => false

end Ownership

/-- What an owner does with a slot that it has put in place. -/
inductive OwnerStep where
  /-- The handler is set. -/
  | install
  | restore
  /-- The slot is taken out of its place. -/
  | clear
  /-- The wait ends when no handler is counted. -/
  | observe
  | free
  /-- The system refuses to set the handler. -/
  | refuse
  /-- The slot whose handler was refused is taken out of its place. -/
  | withdraw
  /-- The slot whose handler was refused is freed. -/
  | discard
deriving DecidableEq

namespace OwnerStep

/-- Where the owner is before it. -/
def before : OwnerStep → Ownership
  | install | refuse => .published
  | restore => .installed
  | clear => .restored
  | observe => .cleared
  | free => .quiet
  | withdraw => .refused
  | discard => .withdrawn

/-- Where the owner is afterwards. -/
def after : OwnerStep → Ownership
  | install => .installed
  | restore => .restored
  | clear => .cleared
  | observe => .quiet
  | free => .freed
  | refuse => .refused
  | withdraw => .withdrawn
  | discard => .discarded

/-- It empties the place. -/
def empties : OwnerStep → Bool
  | clear | withdraw => true
  | _ => false

end OwnerStep

/-! ### Together -/

/-- The shared state: slots are numbered in the order in which they are made. -/
structure Reclamation where
  owners : List Ownership := []
  invocations : List Invocation := []
  /-- The slot in place. -/
  active : Option Nat := none
  /-- How many handlers are counted. -/
  running : Nat := 0
deriving DecidableEq

inductive ReclamationAction where
  /-- A new slot is put in place, if the place is empty. -/
  | publish
  | own (slot : Nat) (step : OwnerStep)
  /-- A signal arrives while a handler is set. -/
  | deliver
  | count (invocation : Nat)
  | load (invocation : Nat)
  | uncount (invocation : Nat)
deriving DecidableEq

namespace Reclamation

/-- The state after an invocation has moved on. -/
def invoke (r : Reclamation) (i : Nat) (next : Invocation) : Reclamation :=
  { r with invocations := r.invocations.set i next }

/-- The state after a step of the owner of a slot. -/
def own (r : Reclamation) (slot : Nat) (step : OwnerStep) : Reclamation :=
  { r with
    owners := r.owners.set slot step.after
    active := if step.empties then none else r.active }

/-- The state after an action, if the action is possible. -/
def step (r : Reclamation) : ReclamationAction → Option Reclamation
  | .publish =>
    if r.active = none then
      some { r with owners := r.owners ++ [.published], active := some r.owners.length }
    else none
  | .own s step =>
    if r.owners[s]? = some step.before ∧ (step = .observe → r.running = 0) then some (r.own s step)
    else none
  | .deliver =>
    if .installed ∈ r.owners then some { r with invocations := r.invocations ++ [.delivered] }
    else none
  | .count i =>
    if r.invocations[i]? = some .delivered then
      some { r.invoke i .counted with running := r.running + 1 }
    else none
  | .load i =>
    if r.invocations[i]? = some .counted then
      some (r.invoke i ((r.active.map Invocation.holding).getD .idle))
    else none
  | .uncount i => match r.invocations[i]? with
    | some (.holding _) | some .idle => some { r.invoke i .finished with running := r.running - 1 }
    | _ => none

/-- The state after some actions in order, if all are possible. -/
def replay (r : Reclamation) (actions : List ReclamationAction) : Option Reclamation :=
  actions.foldlM step r

/-- States that some interleaving leads to. -/
def Reachable (r : Reclamation) : Prop := ∃ actions, replay {} actions = some r

/-! ### What an action needs -/

section
variable {r r' : Reclamation} {i s : Nat}

theorem of_step_own {step : OwnerStep} (h : r.step (.own s step) = some r') :
    r.owners[s]? = some step.before ∧ (step = .observe → r.running = 0) ∧ r' = r.own s step := by
  obtain ⟨⟨hbefore, hrunning⟩, hr⟩ := Option.ite_none_right_eq_some.mp h
  exact ⟨hbefore, hrunning, (Option.some.inj hr).symm⟩

theorem of_step_uncount (h : r.step (.uncount i) = some r') :
    ∃ invocation, r.invocations[i]? = some invocation ∧ invocation.isCounted = true ∧
      r' = { r.invoke i .finished with running := r.running - 1 } := by
  rw [step] at h
  split at h
  next hi => exact ⟨_, hi, rfl, (Option.some.inj h).symm⟩
  next hi => exact ⟨_, hi, rfl, (Option.some.inj h).symm⟩
  · cases h

end

end Reclamation

end AccelKrylov
