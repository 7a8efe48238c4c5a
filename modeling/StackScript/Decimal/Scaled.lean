/-!
# Floats as exact numbers

A finite float is a sign and a natural number of units, one unit being the smallest positive float
`2 ^ (-1074)`.  Printing and the remainder work on units, so they are exact.
-/

namespace StackScript.Decimal

/-- The size of a float without its sign. -/
inductive Magnitude where
  | nan
  | infinite
  /-- A number of units, and the number of units to the next larger float. -/
  | finite (units gap : Nat)
deriving Repr, DecidableEq

def unitsPerOne : Nat := Nat.pow 2 1074

def isNegative (x : Float) : Bool :=
  x.toBits.toNat ≥ Nat.pow 2 63

def magnitude (x : Float) : Magnitude :=
  let exponent := x.toBits.toNat / Nat.pow 2 52 % Nat.pow 2 11
  let fraction := x.toBits.toNat % Nat.pow 2 52
  if exponent = 2047 then
    if fraction = 0 then .infinite else .nan
  else if exponent = 0 then .finite fraction 1
  else .finite ((Nat.pow 2 52 + fraction) * Nat.pow 2 (exponent - 1)) (Nat.pow 2 (exponent - 1))

/-- The float of the given sign and number of units, which must be one that a float can have. -/
def ofUnits (negative : Bool) (units : Nat) : Float :=
  let sign := if negative then Nat.pow 2 63 else 0
  if units < Nat.pow 2 52 then
    Float.ofBits (UInt64.ofNat (sign + units))
  else
    let shift := units.log2 - 52
    Float.ofBits (UInt64.ofNat (sign + shift * Nat.pow 2 52 + units / Nat.pow 2 shift))

/-- The remainder of a division that truncates.  It carries the sign of the dividend; there is none
when the dividend is infinite or the divisor is zero. -/
def remainder (x y : Float) : Float :=
  match magnitude x, magnitude y with
  | .finite a _, .finite b _ =>
    if b = 0 then Float.ofBits 0x7FF8000000000000 else ofUnits (isNegative x) (a % b)
  | .finite _ _, .infinite => x
  | _, _ => Float.ofBits 0x7FF8000000000000

end StackScript.Decimal
