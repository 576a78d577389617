import AccelKrylov.Signal.Guard

/-! A process that takes guards, drops them and is sent signals, each of these coming to its end before the
next begins. Installing goes call by call, and every way out of it says what it leaves behind. -/

namespace AccelKrylov

/-! ### Installing, call by call -/

namespace Signals

/-- Puts a slot in the place for a guard, if the place is empty. -/
def publish (s : Signals) (slot : GuardSlot) : Option Signals :=
  if s.slot = none then some { s with slot := some slot } else none

@[simp] theorem publish_vacant (table : SignalTable) (slot : GuardSlot) :
    publish ⟨table, none⟩ slot = some ⟨table, some slot⟩ := rfl

/-- Empties the place for a guard. -/
def unpublish (s : Signals) : Signals := { s with slot := none }

/-- Installs a guard. The slot is in its place before the handler is set, since a signal can arrive as soon
as it is; if the system refuses the handler, the slot is taken back. -/
def attempt (s : Signals) (signal : Int32) (stopPath : Option String) :
    Except GuardError Guard × Signals :=
  match stopPath.filter Path.hasNul with
  | some path => (.error (.nulInPath path), s)
  | none => match s.table.query signal with
    | .error cause => (.error (.query signal cause), s)
    | .ok previous => match s.publish ⟨stopPath, previous⟩ with
      | none => (.error .busy, s)
      | some taken => match taken.set signal .guarded with
        | .error cause => (.error (.install signal cause), taken.unpublish)
        | .ok guarded => (.ok ⟨signal, ⟨stopPath, previous⟩⟩, guarded)

end Signals

/-! ### Guards one after the other -/

/-- A process with the guards it holds. -/
structure Guarding where
  signals : Signals
  /-- The guards that were installed and not dropped yet. -/
  held : List Guard := []
  /-- What signals have led to, in order. -/
  effects : List SignalEffect := []

inductive GuardAction where
  | install (signal : Int32) (stopPath : Option String)
  /-- The guard at a position is dropped. -/
  | drop (position : Nat)
  /-- A signal arrives while the given paths open as devices. -/
  | deliver (signal : Int32) (opens : String → Bool)

namespace Guarding

/-- A process that has no guard yet. -/
def start (initial : SignalTable) : Guarding := { signals := { table := initial } }

def install (s : Guarding) (signal : Int32) (stopPath : Option String) :
    Except GuardError Guard × Guarding :=
  match s.signals.attempt signal stopPath with
  | (.ok guard, signals) => (.ok guard, { s with signals, held := s.held ++ [guard] })
  | (.error fault, signals) => (.error fault, { s with signals })

/-- Drops the guard at a position, if there is one. -/
def drop (s : Guarding) (position : Nat) : Option Guarding :=
  s.held[position]?.map fun guard =>
    { s with signals := s.signals.drop guard, held := s.held.eraseIdx position }

def deliver (s : Guarding) (signal : Int32) (opens : String → Bool) : Guarding :=
  { s with effects := s.effects ++ s.signals.deliver opens signal }

/-- The process after an action, if the action is possible. -/
def step (s : Guarding) : GuardAction → Option Guarding
  | .install signal stopPath => some (s.install signal stopPath).2
  | .drop position => s.drop position
  | .deliver signal opens => some (s.deliver signal opens)

/-- The process after some actions in order, if all are possible. -/
def replay (s : Guarding) (actions : List GuardAction) : Option Guarding := actions.foldlM step s

end Guarding

end AccelKrylov
