import AccelKrylov.Trap
import AccelKrylov.Argument.Records

/-! Reading records on a machine that stops at a trap. Their count is any word, so the bytes that it asks for
need not be a word; where they are is worked out again once they are known to be there. -/

namespace AccelKrylov.Records

open Guarded

/-- The bytes of some records and their count, if that is a word and no more than there are bytes. -/
def extentWithin (length : Nat) (count : Word) : Option Word :=
  ((Word.checkedMul count 32).bind (Word.checkedAdd · 8)).filter fun needed =>
    decide (needed.toNat ≤ length)

def guardedRead (bytes : List UInt8) : Guarded RecordError (List Descriptor) := do
  lift (ensure (8 ≤ bytes.length) (.noCount bytes.length))
  let count := Word.ofBytes (← slice bytes 0 8)
  match extentWithin bytes.length count with
  | none => lift (.error (.count count bytes.length))
  | some _ => do
    let stop ← add 8 (← mul count 32)
    let records ← slice bytes 8 stop
    lift (readRecords count.toNat records)

end AccelKrylov.Records
