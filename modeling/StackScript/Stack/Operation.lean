import StackScript.Stack.Basic
/-!
# Operations on the stack

The operations that need nothing but the stack.  Operands are named in the order they were pushed,
so that of a pair `b` is on top and `a` below it.  An operation that finds too few operands leaves
the stack as it is; otherwise its operands are gone, whether it succeeds or not.
-/

namespace StackScript

/-- The operations that replace a pair of values by one. -/
inductive Pairing where
  | isEqual
  | isGreater
  | isSmaller
  | add
  | subtract
  | multiply
  | divide
  | modulo
deriving Repr, DecidableEq

namespace Pairing

def accepts : Pairing → Kind → Bool
  | .isEqual, .boolean => true
  | .isEqual, .text => true
  | .isGreater, .text => true
  | .isSmaller, .text => true
  | .add, .text => true
  | _, .integer => true
  | _, .float => true
  | _, _ => false

/-- The result on integers, which wraps around at 64 bits. -/
def onIntegers (a b : Int64) : Pairing → Except Fault Value
  | .isEqual => .ok (.boolean (a == b))
  | .isGreater => .ok (.boolean (b < a))
  | .isSmaller => .ok (.boolean (a < b))
  | .add => .ok (.integer (a + b))
  | .subtract => .ok (.integer (a - b))
  | .multiply => .ok (.integer (a * b))
  | .divide => if b = 0 then .error .division else .ok (.integer (a / b))
  | .modulo => if b = 0 then .error .remainder else .ok (.integer (a % b))

def onFloats (a b : Float) : Pairing → Value
  | .isEqual => .boolean (a == b)
  | .isGreater => .boolean (b < a)
  | .isSmaller => .boolean (a < b)
  | .add => .float (a + b)
  | .subtract => .float (a - b)
  | .multiply => .float (a * b)
  | .divide => .float (a / b)
  | .modulo => .float (Decimal.remainder a b)

/-- The result on texts, which are ordered by code points. -/
def onTexts? (a b : String) : Pairing → Option Value
  | .isEqual => some (.boolean (a == b))
  | .isGreater => some (.boolean (b < a))
  | .isSmaller => some (.boolean (a < b))
  | .add => some (.text (a ++ b))
  | _ => none

def onBooleans? (a b : Bool) : Pairing → Option Value
  | .isEqual => some (.boolean (a == b))
  | _ => none

/-- The result on two values, if the operation takes them together. -/
def combine? (p : Pairing) : Value → Value → Option (Except Fault Value)
  | .integer a, .integer b => some (p.onIntegers a b)
  | .float a, .float b => some (.ok (p.onFloats a b))
  | .text a, .text b => (p.onTexts? a b).map .ok
  | .boolean a, .boolean b => (p.onBooleans? a b).map .ok
  | _, _ => none

/-- The error for a pair that an operation does not take: the pairing is wrong when `a` alone would
do, otherwise `a` is. -/
def refuse (p : Pairing) (a b : Value) : Cause :=
  if p.accepts a.kind then .typeMismatch a.kind b.kind else .invalidType a.kind

end Pairing

/-- The operations that replace a value by another. -/
inductive Conversion where
  | toText
  | toInteger
  | invert
deriving Repr, DecidableEq

namespace Conversion

def floatPlaces : Nat := 5

def integerOfText (text : String) : Value :=
  match Integer.parse text with
  | .ok n => .integer n
  | .error defect => .text ("parsing " ++ Text.quoted text ++ ": " ++ defect.message)

def convert? : Conversion → Value → Option Value
  | .toText, .text t => some (.text t)
  | .toText, .integer n => some (.text (Integer.render n))
  | .toText, .float x => some (.text (Decimal.fixed floatPlaces x))
  | .toInteger, .integer n => some (.integer n)
  | .toInteger, .float x => some (.integer x.toInt64)
  | .toInteger, .text t => some (integerOfText t)
  | .invert, .boolean b => some (.boolean !b)
  | _, _ => none

end Conversion

/-- An operation on the stack alone. -/
inductive Operation where
  | drop
  | pick
  | swap
  | rot
  | pair (p : Pairing)
  | convert (c : Conversion)
deriving Repr, DecidableEq

namespace Stack

def drop (s : Stack) : Outcome Stack :=
  match s.values with
  | [] => .failed .underflow s
  | _ :: rest => .done { values := rest, room := s.room + 1 }

/-- Take an index off and copy the value that many places below the new top. -/
def pick (s : Stack) : Outcome Stack :=
  match s.values with
  | [] => .failed .underflow s
  | v :: rest =>
    let below : Stack := { values := rest, room := s.room + 1 }
    match v with
    | .integer n =>
      if n < 0 then .failed .underflow below
      else
        match below.peek n.toInt.toNat with
        | .ok copy => below.answer copy
        | .error cause => .failed cause below
    | _ => .failed (.invalidType v.kind) below

def swap (s : Stack) : Outcome Stack :=
  match s.values with
  | b :: a :: rest => .done { s with values := a :: b :: rest }
  | _ => .failed .underflow s

def rot (s : Stack) : Outcome Stack :=
  match s.values with
  | c :: b :: a :: rest => .done { s with values := a :: c :: b :: rest }
  | _ => .failed .underflow s

def pair (p : Pairing) (s : Stack) : Outcome Stack :=
  match s.values with
  | b :: a :: rest =>
    let below : Stack := { values := rest, room := s.room + 2 }
    match p.combine? a b with
    | some (.ok v) => below.answer v
    | some (.error fault) => .aborted fault below
    | none => .failed (p.refuse a b) below
  | _ => .failed .underflow s

def convert (c : Conversion) (s : Stack) : Outcome Stack :=
  match s.values with
  | [] => .failed .underflow s
  | v :: rest =>
    let below : Stack := { values := rest, room := s.room + 1 }
    match c.convert? v with
    | some w => below.answer w
    | none => .failed (.invalidType v.kind) below

def apply (s : Stack) : Operation → Outcome Stack
  | .drop => s.drop
  | .pick => s.pick
  | .swap => s.swap
  | .rot => s.rot
  | .pair p => s.pair p
  | .convert c => s.convert c

end Stack

end StackScript
