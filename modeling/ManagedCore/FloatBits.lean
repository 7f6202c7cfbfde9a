import ManagedCore.Text.Decimal

/-!
# Floating-point numbers by their bits

A number of 32 or of 64 bits is kept as its bit pattern, so a pattern that is not a number keeps all
its bits wherever it is only moved. Arithmetic rounds to nearest. An operand that is not a number is
the result, made quiet, and of two such operands the first; an operation on numbers that has no
result gives one fixed pattern. The remainder is exact and has the sign of the dividend.
-/

namespace ManagedCore

namespace Decimal

def Binary.rem (x y : Binary) : Binary :=
  let e := min x.exponent y.exponent
  let num := x.mantissa * Nat.pow 2 (x.exponent - e).toNat
  let den := y.mantissa * Nat.pow 2 (y.exponent - e).toNat
  ⟨num % den, e, false⟩

/-- Remainder with the sign of the dividend; there is none for an infinite dividend or a zero
divisor. -/
def Parts.rem? : Parts → Parts → Option Parts
  | .nan, _ | _, .nan | .infinite _, _ | _, .zero _ => none
  | .zero s, _ => some (.zero s)
  | .finite s x, .infinite _ => some (.finite s x)
  | .finite s x, .finite _ y =>
    let r := x.rem y
    some (if r.mantissa = 0 then .zero s else .finite s r)

def bitsOfParts (mantissaBits exponentBits : Nat) : Parts → Nat
  | .nan => (Nat.pow 2 exponentBits - 1) * Nat.pow 2 mantissaBits + Nat.pow 2 (mantissaBits - 1)
  | .infinite s => sign s + (Nat.pow 2 exponentBits - 1) * Nat.pow 2 mantissaBits
  | .zero s => sign s
  | .finite s b =>
    let least : Int := 2 - Nat.pow 2 (exponentBits - 1) - mantissaBits
    let shift := min (mantissaBits - Nat.log2 b.mantissa) (b.exponent - least).toNat
    let mantissa := b.mantissa * Nat.pow 2 shift
    if mantissa < Nat.pow 2 mantissaBits then sign s + mantissa
    else
      let biased := (b.exponent - shift - least).toNat + 1
      sign s + biased * Nat.pow 2 mantissaBits + (mantissa - Nat.pow 2 mantissaBits)
where
  sign (s : Bool) : Nat := if s then Nat.pow 2 (mantissaBits + exponentBits) else 0

end Decimal

inductive Order where
  | less | equal | greater
deriving DecidableEq, Repr

structure Single where
  bits : UInt32
deriving DecidableEq, Repr

structure Double where
  bits : UInt64
deriving DecidableEq, Repr

namespace Single

/-- Result of an operation that has none among the numbers. -/
def invalid : Single := ⟨0xffc00000⟩

def ofFloat (x : Float32) : Single := if x.isNaN then invalid else ⟨x.toBits⟩

def toFloat (x : Single) : Float32 := Float32.ofBits x.bits

def ofNat (n : Nat) : Single := ofFloat (Float32.ofNat n)

def parts (x : Single) : Decimal.Parts := Decimal.partsOfBits 23 8 x.bits.toNat

def isNaN (x : Single) : Bool := 0x7f800000 < x.bits &&& 0x7fffffff

def quiet (x : Single) : Single := ⟨x.bits ||| 0x00400000⟩

/-- An operation whose first operand that is not a number decides. -/
def onNumbers (f : Single → Single → Single) (x y : Single) : Single :=
  if x.isNaN then x.quiet else if y.isNaN then y.quiet else f x y

def lift (f : Float32 → Float32 → Float32) : Single → Single → Single :=
  onNumbers fun x y => ofFloat (f x.toFloat y.toFloat)

instance : Add Single := ⟨lift (· + ·)⟩

instance : Sub Single := ⟨lift (· - ·)⟩

instance : Mul Single := ⟨lift (· * ·)⟩

instance : Div Single := ⟨lift (· / ·)⟩

instance : Mod Single :=
  ⟨onNumbers fun x y =>
    ((x.parts.rem? y.parts).map fun r => ⟨UInt32.ofNat (Decimal.bitsOfParts 23 8 r)⟩).getD invalid⟩

/-- Turns the sign, also of what is not a number. -/
instance : Neg Single := ⟨fun x => ⟨x.bits ^^^ 0x80000000⟩⟩

/-- Order of two numbers; both zeros are equal, and what is not a number has no order. -/
def order? (x y : Single) : Option Order :=
  if x.toFloat < y.toFloat then some .less
  else if x.toFloat == y.toFloat then some .equal
  else if y.toFloat < x.toFloat then some .greater
  else none

end Single

namespace Double

def invalid : Double := ⟨0xfff8000000000000⟩

def ofFloat (x : Float) : Double := if x.isNaN then invalid else ⟨x.toBits⟩

def toFloat (x : Double) : Float := Float.ofBits x.bits

def ofNat (n : Nat) : Double := ofFloat (Float.ofNat n)

def parts (x : Double) : Decimal.Parts := Decimal.partsOfBits 52 11 x.bits.toNat

def isNaN (x : Double) : Bool := 0x7ff0000000000000 < x.bits &&& 0x7fffffffffffffff

def quiet (x : Double) : Double := ⟨x.bits ||| 0x0008000000000000⟩

def onNumbers (f : Double → Double → Double) (x y : Double) : Double :=
  if x.isNaN then x.quiet else if y.isNaN then y.quiet else f x y

def lift (f : Float → Float → Float) : Double → Double → Double :=
  onNumbers fun x y => ofFloat (f x.toFloat y.toFloat)

instance : Add Double := ⟨lift (· + ·)⟩

instance : Sub Double := ⟨lift (· - ·)⟩

instance : Mul Double := ⟨lift (· * ·)⟩

instance : Div Double := ⟨lift (· / ·)⟩

instance : Mod Double :=
  ⟨onNumbers fun x y =>
    ((x.parts.rem? y.parts).map fun r => ⟨UInt64.ofNat (Decimal.bitsOfParts 52 11 r)⟩).getD invalid⟩

/-- Turns the sign, also of what is not a number. -/
instance : Neg Double := ⟨fun x => ⟨x.bits ^^^ 0x8000000000000000⟩⟩

def order? (x y : Double) : Option Order :=
  if x.toFloat < y.toFloat then some .less
  else if x.toFloat == y.toFloat then some .equal
  else if y.toFloat < x.toFloat then some .greater
  else none

/-- What is not a number keeps its sign and the leading bits of its fraction and becomes quiet. -/
def toSingle (x : Double) : Single :=
  if x.isNaN then
    let sign := (x.bits >>> 63).toUInt32 <<< 31
    let fraction := ((x.bits &&& 0x000fffffffffffff) >>> 29).toUInt32
    .quiet ⟨sign ||| 0x7f800000 ||| fraction⟩
  else ⟨x.toFloat.toFloat32.toBits⟩

end Double

/-- What is not a number keeps its sign and its fraction and becomes quiet. -/
def Single.toDouble (x : Single) : Double :=
  if x.isNaN then
    let sign := (x.bits >>> 31).toUInt64 <<< 63
    let fraction := (x.bits &&& 0x007fffff).toUInt64 <<< 29
    .quiet ⟨sign ||| 0x7ff0000000000000 ||| fraction⟩
  else ⟨x.toFloat.toFloat.toBits⟩

end ManagedCore
