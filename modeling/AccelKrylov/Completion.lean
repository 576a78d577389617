import AccelKrylov.IoError
import AccelKrylov.Word

/-! The counter by which a device tells its caller that firmware has finished: the device adds to it,
and the caller waits until it is not zero. -/

namespace AccelKrylov

/-- A counter that the system keeps. The word of all ones is none of its values. -/
structure CompletionEvent where
  count : Word := 0
deriving DecidableEq

namespace CompletionEvent

/-- The word that can neither be added to a counter nor be its value. -/
def allOnes : Word := 0xffffffffffffffff

/-- Adds to the counter. An addition that would pass its largest value blocks, which is written `none`. -/
def signal (e : CompletionEvent) (value : Word) : Except IoError (Option CompletionEvent) :=
  if value = allOnes then .error .invalid
  else if e.count.toNat + value.toNat < allOnes.toNat then .ok (some ⟨e.count + value⟩)
  else .ok none

/-- Adds to the counter behind a descriptor, if one is open. -/
def signalOpen : Option CompletionEvent → Word → Except IoError (Option CompletionEvent)
  | none, _ => .error .badDescriptor
  | some e, value => e.signal value

/-- Takes the value of the counter and resets it. At zero this blocks. -/
def wait (e : CompletionEvent) : Option (Word × CompletionEvent) :=
  if e.count = 0 then none else some (e.count, ⟨0⟩)

/-- The counter after a device has added some values; those that are refused or block leave it alone. -/
def signalAll (e : CompletionEvent) (values : List Word) : CompletionEvent :=
  values.foldl (fun e value => match e.signal value with
    | .ok (some e') => e'
    | _ => e) e

/-- An event that can still be waited on, or the reason why it cannot, after a device has added some
values to it and maybe broken it. -/
def meet (e : Except IoError CompletionEvent) (values : List Word) (broken : Option IoError) :
    Except IoError CompletionEvent :=
  match broken with
  | some cause => e.bind fun _ => .error cause
  | none => e.map (·.signalAll values)

end CompletionEvent

end AccelKrylov
