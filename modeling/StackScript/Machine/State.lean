import StackScript.Connection
import StackScript.Console
import StackScript.Dictionary
import StackScript.Generator
/-!
# The state of a machine

Everything that running a script can read or change.
-/

namespace StackScript

/-- The state that scripts run in. -/
structure Machine where
  stack : Stack
  dictionary : Dictionary
  generator : Generator
  console : Console
  connection : Option Connection
  clock : Timestamp
  /-- How many texts may be running inside each other. -/
  maxNesting : Nat
  /-- How many texts are running inside each other. -/
  depth : Nat

namespace Machine

def defaultMaxNesting : Nat := 10000

/-- What a machine is made with. -/
structure Settings where
  /-- Zero selects the default. -/
  capacity : Nat := 0
  /-- Zero selects the default. -/
  maxNesting : Nat := 0
  seed : UInt64 := 0
  console : Console := {}
  connection : Option Connection := none
  clock : Timestamp := ⟨0, 0⟩

def ofSettings (s : Settings) (dictionary : Dictionary) : Machine :=
  { stack := Stack.withCapacity s.capacity
    dictionary
    generator := Generator.ofSeed s.seed
    console := s.console
    connection := s.connection
    clock := s.clock
    maxNesting := if s.maxNesting = 0 then defaultMaxNesting else s.maxNesting
    depth := 0 }

def withStack (m : Machine) (stack : Stack) : Machine := { m with stack }

def opened (m : Machine) : Machine := { m with depth := m.depth + 1 }

def closed (m : Machine) : Machine := { m with depth := m.depth - 1 }

def answer (m : Machine) (v : Value) : Outcome Machine :=
  (m.stack.answer v).map m.withStack

def addWord (m : Machine) (w : Word) : Outcome Machine :=
  match m.dictionary.define w with
  | .ok dictionary => .done { m with dictionary }
  | .error cause => .failed cause m

def write (m : Machine) (text : String) : Except Failure Unit × Machine :=
  let (result, console) := m.console.write text
  (result, { m with console })

def readLine (m : Machine) : Except Failure String × Machine :=
  let (result, console) := m.console.readLine
  (result, { m with console })

end Machine

namespace Stack

def popAs {α : Type} (expected : Kind) (select : Value → Option α) (s : Stack) :
    Except Cause α × Stack :=
  match s.values with
  | [] => (.error .underflow, s)
  | v :: rest =>
    let below : Stack := { values := rest, room := s.room + 1 }
    match select v with
    | some a => (.ok a, below)
    | none => (.error (.unexpectedType expected v.kind), below)

def popValue (s : Stack) : Except Cause Value × Stack :=
  match s.pop with
  | .ok (v, s) => (.ok v, s)
  | .error cause => (.error cause, s)

def popBoolean : Stack → Except Cause Bool × Stack :=
  popAs .boolean fun
    | .boolean b => some b
    | _ => none

def popText : Stack → Except Cause String × Stack :=
  popAs .text fun
    | .text t => some t
    | _ => none

def popQuotation : Stack → Except Cause String × Stack :=
  popAs .quotation fun
    | .quotation code => some code
    | _ => none

end Stack

end StackScript
