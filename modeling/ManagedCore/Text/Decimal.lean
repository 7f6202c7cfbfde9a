/-!
# Shortest decimal texts of binary floating-point numbers

A finite number is `mantissa * 2 ^ exponent`. Its decimal digits are the fewest that still lie in
the interval of reals rounding to that number; among those of one length the nearer is taken, and a
tie goes up. Two layouts share the digits: the plain one never writes an exponent, the exact one
keeps a fractional part and moves to scientific notation outside `10⁻⁴ ≤ |x| < 10¹⁶`.
-/

namespace ManagedCore.Decimal

/-- A positive binary number `mantissa * 2 ^ exponent`. `narrowBelow` says that the next smaller
number of the format is only half as far away as the next larger one. -/
structure Binary where
  mantissa : Nat
  exponent : Int
  narrowBelow : Bool
deriving DecidableEq, Repr

/-- A fraction's numerators over one denominator: the number itself and the two ends of the
interval that rounds to it. -/
structure Interval where
  low : Nat
  value : Nat
  high : Nat
  den : Nat
  closed : Bool
deriving DecidableEq, Repr

def Binary.interval (b : Binary) : Interval :=
  let below := if b.narrowBelow then 1 else 2
  let e := b.exponent - 2
  let scale := Nat.pow 2 e.toNat
  { low := (4 * b.mantissa - below) * scale
    value := 4 * b.mantissa * scale
    high := (4 * b.mantissa + 2) * scale
    den := Nat.pow 2 (-e).toNat
    closed := b.mantissa % 2 == 0 }

def Interval.holds (i : Interval) (num den : Nat) : Bool :=
  let a := num * i.den
  if i.closed then i.low * den ≤ a && a ≤ i.high * den else i.low * den < a && a < i.high * den

/-- Digits read as `0.d₁d₂… * 10 ^ point`. -/
structure Digits where
  digits : Nat
  point : Int
deriving DecidableEq, Repr

/-- The least `k` with `value < 10 ^ k`, searched upward from `k`. -/
def pointFrom : Nat → Nat → Nat → Int → Int
  | 0, _, _, k => k
  | fuel + 1, num, den, k =>
    if num * Nat.pow 10 (-k).toNat < den * Nat.pow 10 k.toNat then k
    else pointFrom fuel num den (k + 1)

/-- The two neighbours of `value` on the grid of `10 ^ (point - n)`, the nearer first. -/
def neighbours (i : Interval) (point : Int) (n : Nat) : Nat × Nat × Nat × Nat :=
  let e := point - n
  let up := Nat.pow 10 e.toNat
  let down := Nat.pow 10 (-e).toNat
  let num := i.value * down
  let den := i.den * up
  let d := num / den
  if 2 * (num % den) < den then (d, d + 1, up, down) else (d + 1, d, up, down)

def searchDigits : Nat → Interval → Int → Nat → Digits
  | 0, i, point, n => ⟨(neighbours i point n).1, point⟩
  | fuel + 1, i, point, n =>
    let (near, far, up, down) := neighbours i point n
    let chosen :=
      if i.holds (near * up) down then some near
      else if i.holds (far * up) down then some far
      else none
    match chosen with
    | some d => if d = Nat.pow 10 n then ⟨1, point + 1⟩ else ⟨d, point⟩
    | none => searchDigits fuel i point (n + 1)

def Binary.shortest (b : Binary) : Digits :=
  let i := b.interval
  let start : Int := (b.exponent + Nat.log2 b.mantissa) * 3 / 10 - 2
  searchDigits 20 i (pointFrom 8 i.value i.den start) 1

/-- A floating-point number split into its sign and class. -/
inductive Parts where
  | nan
  | infinite (negative : Bool)
  | zero (negative : Bool)
  | finite (negative : Bool) (magnitude : Binary)
deriving DecidableEq, Repr

def partsOfBits (mantissaBits exponentBits : Nat) (bits : Nat) : Parts :=
  let negative := bits / Nat.pow 2 (mantissaBits + exponentBits) % 2 == 1
  let fraction := bits % Nat.pow 2 mantissaBits
  let biased := bits / Nat.pow 2 mantissaBits % Nat.pow 2 exponentBits
  let least : Int := 2 - Nat.pow 2 (exponentBits - 1) - mantissaBits
  if biased = Nat.pow 2 exponentBits - 1 then
    if fraction = 0 then .infinite negative else .nan
  else if biased = 0 then
    if fraction = 0 then .zero negative else .finite negative ⟨fraction, least, false⟩
  else
    .finite negative
      ⟨fraction + Nat.pow 2 mantissaBits, least + (biased - 1 : Nat), fraction == 0 && 1 < biased⟩

def zeros (n : Nat) : String := String.ofList (List.replicate n '0')

def signed (negative : Bool) (text : String) : String := if negative then "-" ++ text else text

/-- Positional notation; `whole` is written after the digits of a number without a fraction. -/
def positional (d : Digits) (whole : String) : String :=
  let text := toString d.digits
  let n := text.length
  if d.point ≤ 0 then "0." ++ zeros (-d.point).toNat ++ text
  else if d.point.toNat < n then
    let cs := text.toList
    String.ofList (cs.take d.point.toNat) ++ "." ++ String.ofList (cs.drop d.point.toNat)
  else text ++ zeros (d.point.toNat - n) ++ whole

def scientific (d : Digits) : String :=
  let cs := (toString d.digits).toList
  let head := String.ofList (cs.take 1)
  let rest := String.ofList (cs.drop 1)
  head ++ (if rest.isEmpty then "" else "." ++ rest) ++ "e" ++ toString (d.point - 1)

/-- The plain layout: never an exponent, no fraction for whole numbers. -/
def plain : Parts → String
  | .nan => "NaN"
  | .infinite s => signed s "inf"
  | .zero s => signed s "0"
  | .finite s b => signed s (positional b.shortest "")

/-- The exact layout: whole numbers keep `.0`, very small and very large ones are scientific. -/
def exact : Parts → String
  | .nan => "NaN"
  | .infinite s => signed s "inf"
  | .zero s => signed s "0.0"
  | .finite s b =>
    let d := b.shortest
    signed s (if d.point < -3 || 16 < d.point then scientific d else positional d ".0")

end ManagedCore.Decimal
