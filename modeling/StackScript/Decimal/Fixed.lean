import StackScript.Decimal.Scaled
/-!
# Decimal texts of floats

Floats are written positionally, never with an exponent.  The sign of a zero is kept, and the values
that are no numbers have texts of their own.  `fixed` writes a set number of places and rounds the
exact value half to even.
-/

namespace StackScript.Decimal

/-- The quotient rounded to the nearest natural number, a half to the even one. -/
def roundDiv (num den : Nat) : Nat :=
  let q := num / den
  let r := num % den
  if 2 * r < den then q
  else if den < 2 * r then q + 1
  else q + q % 2

def padded (width n : Nat) : List Char :=
  let digits := Nat.toDigits 10 n
  List.replicate (width - digits.length) '0' ++ digits

def positional (n places : Nat) : List Char :=
  if places = 0 then Nat.toDigits 10 n
  else Nat.toDigits 10 (n / Nat.pow 10 places) ++ '.' :: padded places (n % Nat.pow 10 places)

def signed (digits : Nat → Nat → List Char) (x : Float) : String :=
  let sign := if isNegative x then ['-'] else []
  match magnitude x with
  | .nan => "NaN"
  | .infinite => String.ofList (sign ++ ['i', 'n', 'f'])
  | .finite units gap => String.ofList (sign ++ digits units gap)

def fixed (places : Nat) (x : Float) : String :=
  signed (fun units _ => positional (roundDiv (units * Nat.pow 10 places) unitsPerOne) places) x

end StackScript.Decimal
