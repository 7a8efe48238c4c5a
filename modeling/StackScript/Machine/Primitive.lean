import StackScript.Machine.State
/-!
# Primitives

What each primitive does to a machine.  A primitive is over at once, or it hands over a text: one to
be run in its place, or one to be run again and again.  Before each pass of the latter its count is
pushed, and the pass leaves a boolean that says whether there is another one.
-/

namespace StackScript

/-- How a primitive goes on. -/
inductive Effect where
  /-- It is over. -/
  | settled (outcome : Outcome Machine)
  /-- It runs a text. -/
  | enter (code : String) (machine : Machine)
  /-- It runs a text as the pass with the given count, and another one if the text leaves true. -/
  | pass (code : String) (count : Int64) (machine : Machine)

namespace Machine

def taking {α : Type} (m : Machine) (pop : Stack → Except Cause α × Stack)
    (next : α → Machine → Effect) : Effect :=
  match pop m.stack with
  | (.error cause, s) => .settled (.failed cause (m.withStack s))
  | (.ok a, s) => next a (m.withStack s)

def performRun (m : Machine) : Effect :=
  m.taking Stack.popQuotation fun code m => .enter code m

/-- Run the lower of two quotations if the boolean below them is true, else the upper one. -/
def performChoose (m : Machine) : Effect :=
  m.taking Stack.popQuotation fun otherwise m =>
    m.taking Stack.popQuotation fun code m =>
      m.taking Stack.popBoolean fun condition m =>
        .enter (if condition then code else otherwise) m

def beginPass (m : Machine) (code : String) (count : Int64) : Effect :=
  match m.stack.push (.integer count) with
  | .error cause => .settled (.failed cause m)
  | .ok s => .pass code count (m.withStack s)

def endPass (m : Machine) (code : String) (count : Int64) : Effect :=
  m.taking Stack.popBoolean fun again m =>
    if again then m.beginPass code (count + 1) else .settled (.done m)

def performCycle (m : Machine) : Effect :=
  m.taking Stack.popQuotation fun code m => m.beginPass code 0

def performDefine (m : Machine) : Effect :=
  m.taking Stack.popQuotation fun body m =>
    m.taking Stack.popText fun name m => .settled (m.addWord (Word.scripted name body))

/-- Push a random integer below a bound.  A float bound scales a random float. -/
def drawBelow (m : Machine) : Value → Outcome Machine
  | .integer bound =>
    if 0 < bound then
      let (n, generator) := m.generator.below bound.toInt.toNat
      answer { m with generator } (.integer (Int64.ofNat n))
    else .failed (.randomBound bound) m
  | .float bound =>
    let (x, generator) := m.generator.fraction
    answer { m with generator } (.integer (x * bound).toInt64)
  | v => .failed (.invalidType v.kind) m

def performRandom (m : Machine) : Effect :=
  m.taking Stack.popValue fun v m => .settled (m.drawBelow v)

def writtenPlaces : Nat := 2

/-- The text of a value that is written, if values of its kind can be. -/
def writtenText? : Value → Option String
  | .boolean b => some (Value.booleanText b)
  | .integer n => some (Integer.render n)
  | .float x => some (Decimal.fixed writtenPlaces x)
  | .text t => some t
  | _ => none

def writeValue (m : Machine) (v : Value) : Outcome Machine :=
  match writtenText? v with
  | none => .failed (.invalidType v.kind) m
  | some text =>
    match m.write text with
    | (.ok (), m) => .done m
    | (.error f, m) => .failed (.failure f) m

def performWrite (m : Machine) : Effect :=
  m.taking Stack.popValue fun v m => .settled (m.writeValue v)

def performRead (m : Machine) : Outcome Machine :=
  match m.readLine with
  | (.ok line, m) => m.answer (.text line)
  | (.error f, m) => .failed (.failure f) m

/-- The time when a wait is over, if a value can be waited for: integers are milliseconds, floats
are seconds, and a point in time is waited for until it has come. -/
def waitedUntil? (now : Timestamp) : Value → Option Timestamp
  | .integer n => some (now.advance (n.toInt.toNat * 1000000))
  | .float x =>
    match Decimal.magnitude x with
    | .finite units _ =>
      if Decimal.isNegative x then some now
      else some (now.advance (Decimal.roundDiv (units * 1000000000) Decimal.unitsPerOne))
    | _ => some now
  | .timestamp t => some (now.latest t)
  | _ => none

def waitFor (m : Machine) (v : Value) : Outcome Machine :=
  match waitedUntil? m.clock v with
  | none => .failed (.invalidType v.kind) m
  | some clock => .done { m with clock }

def performWait (m : Machine) : Effect :=
  m.taking Stack.popValue fun v m => .settled (m.waitFor v)

def exchange (m : Machine) (text : String) : Effect :=
  match m.connection with
  | none => .settled (.failed .notConnected m)
  | some connection =>
    match connection.send text with
    | (.error f, connection) =>
      .settled (.failed (.failure f) { m with connection := some connection })
    | (.ok (), connection) =>
      match connection.receive with
      | (.error f, connection) =>
        .settled (.failed (.failure f) { m with connection := some connection })
      | (.ok code, connection) => .enter code { m with connection := some connection }

def performRetrieve (m : Machine) : Effect :=
  m.taking Stack.popText fun text m => m.exchange text

end Machine

def Primitive.perform (m : Machine) : Primitive → Effect
  | .operate op => .settled ((m.stack.apply op).map m.withStack)
  | .run => m.performRun
  | .choose => m.performChoose
  | .cycle => m.performCycle
  | .define => m.performDefine
  | .random => m.performRandom
  | .write => m.performWrite
  | .read => .settled m.performRead
  | .now => .settled (m.answer (.timestamp m.clock))
  | .wait => m.performWait
  | .retrieve => m.performRetrieve

def Action.perform (m : Machine) : Action → Effect
  | .primitive p => p.perform m
  | .script body => .enter body m

end StackScript
