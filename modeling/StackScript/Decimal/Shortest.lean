import StackScript.Decimal.Fixed
/-!
# Shortest decimal texts

A float stands for the interval of numbers that round to it.  On coarser and coarser decimal grids
the two neighbours of the float are tested against that interval; the coarsest grid with a hit gives
the digits.  Of two hits the nearer wins, and of two equally near ones the larger.
-/

namespace StackScript.Decimal

/-- A nonnegative decimal number `digits * 10 ^ up / 10 ^ down`. -/
structure Scientific where
  digits : Nat
  up : Nat
  down : Nat
deriving Repr, DecidableEq

/-- The interval of numbers that round to a float, in quarters of a unit. -/
structure Interval where
  low : Nat
  mid : Nat
  high : Nat
  /-- Whether the ends round to the float too. -/
  closed : Bool
deriving Repr, DecidableEq

/-- The interval of a float.  Below a power of two the floats lie twice as dense. -/
def Interval.of (units gap : Nat) : Interval :=
  { low := if units = Nat.pow 2 52 * gap && 1 < gap then 4 * units - gap else 4 * units - 2 * gap
    mid := 4 * units
    high := 4 * units + 2 * gap
    closed := units / gap % 2 = 0 }

def Interval.contains (i : Interval) (n scale : Nat) : Bool :=
  if i.closed then i.low * scale ≤ n && n ≤ i.high * scale
  else i.low * scale < n && n < i.high * scale

def quartersPerOne : Nat := 4 * unitsPerOne

/-- The exponent of ten of the leading digit, as a power above and a power below one. -/
def leading (i : Interval) : Nat × Nat :=
  if quartersPerOne ≤ i.mid then
    ((Nat.toDigits 10 (i.mid / quartersPerOne)).length - 1, 0)
  else
    let n := (Nat.toDigits 10 (quartersPerOne / i.mid)).length
    (0, if quartersPerOne ≤ i.mid * Nat.pow 10 (n - 1) then n - 1 else n)

/-- The neighbour of the float on the grid `10 ^ up / 10 ^ down` that lies in the interval. -/
def Interval.neighbour? (i : Interval) (up down : Nat) : Option Nat :=
  let step := quartersPerOne * Nat.pow 10 up
  let mid := i.mid * Nat.pow 10 down
  let below := mid / step
  let rest := mid % step
  let scale := Nat.pow 10 down
  match i.contains (below * step) scale, i.contains ((below + 1) * step) scale with
  | true, true => some (if 2 * rest < step then below else below + 1)
  | true, false => some below
  | false, true => some (below + 1)
  | false, false => none

/-- Try finer and finer grids, starting at `10 ^ up / 10 ^ down`, for the given number of digits. -/
def refine (i : Interval) (up down : Nat) : Nat → Scientific
  | 0 => ⟨i.mid * Nat.pow 10 down / quartersPerOne / Nat.pow 10 up, up, down⟩
  | tries + 1 =>
    match i.neighbour? up down with
    | some n => ⟨n, up, down⟩
    | none => if up = 0 then refine i 0 (down + 1) tries else refine i (up - 1) down tries

/-- The fewest digits that read back as the float; seventeen always do. -/
def fewestDigits (units gap : Nat) : Scientific :=
  let i := Interval.of units gap
  let (up, down) := leading i
  refine i up down 17

/-- Positional digits without needless zeros at the end of the fraction. -/
def Scientific.text (s : Scientific) : List Char :=
  if s.down = 0 then positional (s.digits * Nat.pow 10 s.up) 0
  else if s.digits % Nat.pow 10 s.down = 0 then positional (s.digits / Nat.pow 10 s.down) 0
  else ((positional s.digits s.down).reverse.dropWhile (· = '0')).reverse

/-- A float in the fewest digits that read back as it, without an exponent. -/
def shortest (x : Float) : String :=
  signed (fun units gap => if units = 0 then ['0'] else (fewestDigits units gap).text) x

end StackScript.Decimal
