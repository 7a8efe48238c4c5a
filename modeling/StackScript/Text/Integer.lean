/-!
# Integers as text

An integer is written as an optional sign and decimal digits.  Reading goes from left to right and
stops at the first character that cannot be taken: one that is no digit, or one that leaves the
64-bit range.
-/

namespace StackScript.Integer

/-- Why a text is not an integer. -/
inductive Defect where
  | empty
  | invalidDigit
  | tooLarge
  | tooSmall
deriving Repr, DecidableEq

def Defect.message : Defect → String
  | .empty => "cannot parse integer from empty string"
  | .invalidDigit => "invalid digit found in string"
  | .tooLarge => "number too large to fit in target type"
  | .tooSmall => "number too small to fit in target type"

def digit? (c : Char) : Option Nat :=
  if c.isDigit then some (c.toNat - '0'.toNat) else none

/-- Read digits after a magnitude that is already known.  A magnitude above the limit is reported
at the digit that reaches it. -/
def magnitude (limit : Nat) (beyond : Defect) (value : Nat) : List Char → Except Defect Nat
  | [] => .ok value
  | c :: rest =>
    match digit? c with
    | none => .error .invalidDigit
    | some d =>
      if limit < value * 10 + d then .error beyond
      else magnitude limit beyond (value * 10 + d) rest

def digits (limit : Nat) (beyond : Defect) : List Char → Except Defect Nat
  | [] => .error .invalidDigit
  | cs => magnitude limit beyond 0 cs

def parseChars : List Char → Except Defect Int64
  | [] => .error .empty
  | '+' :: rest => (digits (Nat.pow 2 63 - 1) .tooLarge rest).map fun n => Int64.ofInt n
  | '-' :: rest => (digits (Nat.pow 2 63) .tooSmall rest).map fun n => Int64.ofInt (-n)
  | cs => (digits (Nat.pow 2 63 - 1) .tooLarge cs).map fun n => Int64.ofInt n

/-- The integer that a text denotes. -/
def parse (text : String) : Except Defect Int64 :=
  parseChars text.toList

/-- The decimal digits of an integer, after a minus sign when it is negative. -/
def render (n : Int64) : String :=
  match n.toInt with
  | .ofNat m => m.repr
  | .negSucc m => "-" ++ (m + 1).repr

end StackScript.Integer
