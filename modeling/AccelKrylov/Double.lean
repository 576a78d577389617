import AccelKrylov.Word
import AccelKrylov.Numeric

/-! Floating-point numbers of 64 bits, kept as their bits so that every pattern, the ones that are
no number included, survives being stored and moved. Arithmetic reads the bits as a number, and a
result that is no number has one fixed pattern. -/

namespace AccelKrylov

/-- A floating-point number, by its bit pattern. -/
structure Double where
  bits : Word
deriving DecidableEq

namespace Double

def toFloat (d : Double) : Float := Float.ofBits d.bits

def ofFloat (x : Float) : Double := ⟨x.toBits⟩

instance : Zero Double := ⟨⟨0⟩⟩
instance : One Double := ⟨⟨0x3ff0000000000000⟩⟩
instance : Add Double := ⟨fun a b => ofFloat (a.toFloat + b.toFloat)⟩
instance : Mul Double := ⟨fun a b => ofFloat (a.toFloat * b.toFloat)⟩
instance : Div Double := ⟨fun a b => ofFloat (a.toFloat / b.toFloat)⟩
instance : Neg Double := ⟨fun a => ofFloat (-a.toFloat)⟩

/-- The pattern stands for no number. -/
def isNaN (d : Double) : Bool := d.toFloat.isNaN

instance : Numeric Double where
  sqrt a := ofFloat a.toFloat.sqrt
  le a b := a.toFloat <= b.toFloat
  same a b := a.toFloat == b.toFloat
  isFinite a := a.toFloat.isFinite

/-- The eight bytes of the number in memory. -/
def bytes (d : Double) : List UInt8 := d.bits.bytes

def ofBytes (bs : List UInt8) : Double := ⟨Word.ofBytes bs⟩

end Double

end AccelKrylov
